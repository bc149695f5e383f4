import Unroll.Grammar.Stmt
import Unroll.Printer
import Unroll.Proofs.Unplaced
/-!
# The grammar of expressions

Which tokens spell which tree, said by rules and without a reader.  Every rule names the tokens of one node and the
level each operand stands at; `Prec` orders the levels, and what is spelled at a level is also spelled at every looser
one.  Trees come without their places.  Parentheses leave no node: they bring the loosest level back to the tightest.
-/
namespace Unroll.Grammar

/-- The level that the left operand stands at.  Operators of one level join from left to right, but comparisons do not
chain. -/
def leftPlace (op : BinOp) : Prec := if op.prec = .comparison then .sum else op.prec

def arithmetic : TokenKind → Bool
  | .symbol .plus | .symbol .minus | .symbol .star | .symbol .slash | .symbol .percent => true
  | _ => false

/-- A template argument is a type where it begins with a bracket, or with a name that no arithmetic operator follows. -/
def startsType : List TokenKind → Bool
  | .symbol .lbracket :: _ => true
  | .name _ :: k :: _ => !arithmetic k
  | [.name _] => true
  | _ => false

/-- What tokens can spell: an expression at a level, what stands between the brackets of a list, of a record literal and
of template arguments, a written type, one template argument. -/
inductive Phrase
  | expr (level : Prec) (tree : Expr)
  | items (trees : List Expr)
  | fields (trees : List (Ident × Expr))
  | typeRef (tree : TypeRef)
  | arg (tree : TypeArg)
  | args (trees : List TypeArg)

/-- **The tokens spell the phrase.** -/
inductive Spells : List TokenKind → Phrase → Prop
  | looser {ks level e} : Spells ks (.expr level.tighter e) → Spells ks (.expr level e)
  | binary {ks ks' l r} (op : BinOp) : Spells ks (.expr (leftPlace op) l) → Spells ks' (.expr op.prec.tighter r) →
      Spells (ks ++ .symbol op.symbol :: ks') (.expr op.prec (.binary nowhere l op r))
  | unary {ks e} (op : UnaryOp) : Spells ks (.expr .unary e) →
      Spells (.symbol op.symbol :: ks) (.expr .unary (.unary nowhere op e))
  | member {ks e} (m : String) : Spells ks (.expr .suffix e) →
      Spells (ks ++ [.symbol .dot, .name m]) (.expr .suffix (.member nowhere e (bareName m)))
  | index {ks ks' e i} : Spells ks (.expr .suffix e) → Spells ks' (.expr .lowest i) →
      Spells (ks ++ .symbol .lbracket :: ks' ++ [.symbol .rbracket]) (.expr .suffix (.index nowhere e i))
  | record {ks ks' id fs} : Spells ks (.expr .suffix (.name nowhere id)) → Spells ks' (.fields fs) →
      Spells (ks ++ .symbol .lbrace :: ks' ++ [.symbol .rbrace]) (.expr .suffix (.record nowhere id fs))
  | call {ks ks' id es} : Spells ks (.expr .suffix (.name nowhere id)) → Spells ks' (.items es) →
      Spells (ks ++ .symbol .lparen :: ks' ++ [.symbol .rparen]) (.expr .suffix (.call nowhere id [] es))
  | genericCall {ks gs ks' id as es} : Spells ks (.expr .suffix (.name nowhere id)) → Spells gs (.args as) →
      Spells ks' (.items es) →
      Spells (ks ++ .symbol .pathSep :: .symbol .lt :: gs ++ .symbol .gt :: .symbol .lparen :: ks' ++ [.symbol .rparen])
        (.expr .suffix (.call nowhere id as es))
  | name (n : String) : Spells [.name n] (.expr .suffix (.name nowhere (bareName n)))
  | int {v : Nat} : v < Arith.bound → Spells [.int v] (.expr .suffix (.int nowhere v))
  | char (c : Char) : Spells [.char c] (.expr .suffix (.char nowhere c))
  | text (s : String) : Spells [.text s] (.expr .suffix (.text nowhere s))
  | yes : Spells [.keyword .trueWord] (.expr .suffix (.bool nowhere true))
  | no : Spells [.keyword .falseWord] (.expr .suffix (.bool nowhere false))
  | list {ks es} : Spells ks (.items es) →
      Spells (.symbol .lbrace :: ks ++ [.symbol .rbrace]) (.expr .suffix (.list nowhere es))
  | array {ks es} : Spells ks (.items es) →
      Spells (.symbol .lbracket :: ks ++ [.symbol .rbracket]) (.expr .suffix (.array nowhere es))
  | parens {ks e} : Spells ks (.expr .lowest e) →
      Spells (.symbol .lparen :: ks ++ [.symbol .rparen]) (.expr .suffix e)
  | noItems : Spells [] (.items [])
  | lastItem {ks e} : Spells ks (.expr .lowest e) → Spells ks (.items [e])
  /-- Nothing has to follow the comma. -/
  | item {ks ks' e es} : Spells ks (.expr .lowest e) → Spells ks' (.items es) →
      Spells (ks ++ .symbol .comma :: ks') (.items (e :: es))
  | noFields : Spells [] (.fields [])
  | lastField {ks e} (key : String) : Spells ks (.expr .lowest e) →
      Spells (.name key :: .symbol .colon :: ks) (.fields [(bareName key, e)])
  /-- Nothing has to follow the comma. -/
  | field {ks ks' e fs} (key : String) : Spells ks (.expr .lowest e) → Spells ks' (.fields fs) →
      Spells (.name key :: .symbol .colon :: ks ++ .symbol .comma :: ks') (.fields ((bareName key, e) :: fs))
  | plainType (n : String) : Spells [.name n] (.typeRef (.named nowhere (bareName n) []))
  | appliedType {ks as} (n : String) : Spells ks (.args as) →
      Spells (.name n :: .symbol .lt :: ks ++ [.symbol .gt]) (.typeRef (.named nowhere (bareName n) as))
  | arrayType {ks ks' t e} : Spells ks (.typeRef t) → Spells ks' (.expr .lowest e) →
      Spells (.symbol .lbracket :: ks ++ .symbol .semi :: ks' ++ [.symbol .rbracket]) (.typeRef (.array nowhere t e))
  | typeArg {ks t} : startsType ks = true → Spells ks (.typeRef t) → Spells ks (.arg (.type t))
  | valueArg {ks e} : startsType ks = false → Spells ks (.expr .sum e) → Spells ks (.arg (.value e))
  | noArgs : Spells [] (.args [])
  | lastArg {ks a} : Spells ks (.arg a) → Spells ks (.args [a])
  /-- Another argument has to follow the comma. -/
  | nextArg {ks ks' a b as} : Spells ks (.arg a) → Spells ks' (.args (b :: as)) →
      Spells (ks ++ .symbol .comma :: ks') (.args (a :: b :: as))

namespace Spells

variable {ks : List TokenKind} {level : Prec} {e : Expr} {t : TypeRef} {phrase : Phrase}

/-- What spells an expression begins with a kind that starts one; at the tightest level that is no operator. -/
theorem begins (h : Spells ks (.expr level e)) : ∃ k rest, ks = k :: rest ∧ startsExpr k = true ∧
    (level = .suffix → k ≠ .symbol .minus ∧ k ≠ .symbol .bang) := by
  generalize hp : Phrase.expr level e = phrase at h
  induction h generalizing level e with
  | @looser ks level' _ _ ih =>
    cases hp
    obtain ⟨k, rest, rfl, hk, hlevel⟩ := ih rfl
    refine ⟨k, rest, rfl, hk, ?_⟩
    rintro rfl
    exact hlevel rfl
  | binary op _ _ ih =>
    cases hp
    obtain ⟨k, rest, rfl, hk, -⟩ := ih rfl
    refine ⟨k, _, rfl, hk, ?_⟩
    cases op <;> simp [BinOp.prec]
  | unary op =>
    cases hp
    refine ⟨_, _, rfl, ?_, by simp⟩
    cases op <;> rfl
  | member _ _ ih | index _ _ ih | record _ _ ih | call _ _ ih | genericCall _ _ _ ih =>
    cases hp
    obtain ⟨k, rest, rfl, hk, hlevel⟩ := ih rfl
    exact ⟨k, _, rfl, hk, hlevel⟩
  | name | int | char | text | yes | no | list | array | parens =>
    cases hp
    exact ⟨_, _, rfl, rfl, by simp⟩
  | _ => cases hp

theorem typeRef_begins (h : Spells ks (.typeRef t)) : ∃ k rest, ks = k :: rest ∧ startsExpr k = true := by
  cases h <;> exact ⟨_, _, rfl, rfl⟩

theorem arg_begins {a : TypeArg} (h : Spells ks (.arg a)) : ∃ k rest, ks = k :: rest ∧ startsExpr k = true := by
  cases h with
  | typeArg _ ht => exact ht.typeRef_begins
  | valueArg _ he =>
    obtain ⟨k, rest, rfl, hk, -⟩ := he.begins
    exact ⟨k, rest, rfl, hk⟩

theorem typeRef_startsType (h : Spells ks (.typeRef t)) : startsType ks = true := by
  cases h <;> rfl

theorem no_newline (h : Spells ks phrase) : .newline ∉ ks := by
  induction h <;> simp_all

end Spells

end Unroll.Grammar
