import Unroll.Proofs.Grammar.Exact
import Unroll.Proofs.Pieces
/-!
# What is printed is spelled

Printing puts parentheses where an operand binds less tightly than its place.  For the left operand of a comparison that
is one level too loose, since comparisons do not chain, and a value between the angle brackets loses the parentheses
that told it from a type.  Every tree without these two forms is printed as tokens that are read as the same tree.
-/
namespace Unroll

open Grammar Piece

/-! ## Trees whose printed form is clear -/

/-- The expression is a comparison. -/
def Expr.compares : Expr → Bool
  | .binary _ _ op _ => op.prec = .comparison
  | _ => false

mutual

/-- **No comparison stands to the left of a comparison, and no value between angle brackets begins as a type does.** -/
def Expr.Clear : Expr → Prop
  | .name _ _ | .int _ _ | .char _ _ | .bool _ _ | .text _ _ => True
  | .list _ items | .array _ items => Expr.AllClear items
  | .record _ _ fs => Expr.FieldsClear fs
  | .unary _ _ e | .member _ e _ => e.Clear
  | .binary _ l op r => l.Clear ∧ r.Clear ∧ (op.prec = .comparison → l.compares = false)
  | .index _ base i => base.Clear ∧ i.Clear
  | .call _ _ generic args => TypeArg.AllClear generic ∧ Expr.AllClear args
  | .listSelect _ l i | .memberSelect _ l _ i => l.Clear ∧ i.Clear

def Expr.AllClear : List Expr → Prop
  | [] => True
  | e :: es => e.Clear ∧ Expr.AllClear es

def Expr.FieldsClear : List (Ident × Expr) → Prop
  | [] => True
  | (_, e) :: fs => e.Clear ∧ Expr.FieldsClear fs

def TypeRef.Clear : TypeRef → Prop
  | .named _ _ args => TypeArg.AllClear args
  | .array _ elem len => elem.Clear ∧ len.Clear

def TypeArg.Clear : TypeArg → Prop
  | .type t => t.Clear
  | .value e => e.Clear ∧ startsType (kinds (Print.expr .sum e)) = false

def TypeArg.AllClear : List TypeArg → Prop
  | [] => True
  | a :: as => a.Clear ∧ TypeArg.AllClear as

end

namespace Grammar

/-! ## Places -/

section

variable {ks : List TokenKind} {t : Expr}

/-- What is spelled at a level is spelled at every looser one. -/
theorem Spells.at_place {place own : Prec} (h : Spells ks (.expr own t)) (hle : place.rank ≤ own.rank) :
    Spells ks (.expr place t) := by
  obtain ⟨d, hd⟩ := Nat.exists_eq_add_of_le hle
  induction d generalizing place with
  | zero =>
    have : own = place := by
      revert hd
      cases own <;> cases place <;> decide
    exact this ▸ h
  | succ d ih =>
    have htighter : own.rank = place.tighter.rank + d := by
      revert hd
      cases place <;> cases own <;> simp [Prec.rank, Prec.tighter] <;> omega
    exact (ih (by omega) htighter).looser

/-- Parentheses bring an expression to the place that it is too loose for. -/
theorem wrap_spells {place own : Prec} {ps : List Piece} (h : Spells (kinds ps) (.expr own t)) :
    Spells (kinds (Print.wrap place own ps)) (.expr place t) := by
  unfold Print.wrap
  split
  · have hparens := Spells.parens (h.at_place (Nat.zero_le _))
    simpa using hparens.at_place (by cases place <;> decide)
  · exact h.at_place (by omega)

/-- Only a comparison can tell the two places apart. -/
theorem print_beside_comparison (h : t.compares = false) : Print.expr .comparison t = Print.expr .sum t := by
  cases t with
  | binary sp l op r =>
    simp only [Print.expr, Print.wrap]
    cases op <;> simp_all [Expr.compares, BinOp.prec, Prec.rank]
  | unary sp op e => simp [Print.expr, Print.wrap, Prec.rank]
  | int sp v => simp [Print.expr, Print.int, Print.wrap, Prec.rank]
  | record sp id fs => cases fs <;> simp [Print.expr]
  | call sp id generic args => cases generic <;> simp [Print.expr]
  | _ => simp [Print.expr]

end

/-! ## Phrases -/

/-- What is printed of a phrase spells it, an expression in every place. -/
def Printed : Phrase → Prop
  | .expr _ t => t.Clear → ∀ place, Spells (kinds (Print.expr place t)) (.expr place t)
  | .items ts => Expr.AllClear ts → Spells (kinds (Print.commaSeparated (Print.exprs ts))) (.items ts)
  | .fields ts => Expr.FieldsClear ts → Spells (kinds (Print.commaSeparated (Print.fields ts))) (.fields ts)
  | .typeRef t => t.Clear → Spells (kinds (Print.typeRef t)) (.typeRef t)
  | .arg a => a.Clear → Spells (kinds (Print.typeArg a)) (.arg a)
  | .args as => TypeArg.AllClear as → Spells (kinds (Print.commaSeparated (Print.typeArgs as))) (.args as)

/-- The levels of operators are looser than that of operands. -/
theorem rank_le_suffix (place : Prec) : place.rank ≤ Prec.suffix.rank := by
  cases place <;> decide

theorem Spells.printed {ks : List TokenKind} {phrase : Phrase} (h : Spells ks phrase) : Printed phrase := by
  induction h with
  | looser _ ih => exact ih
  | parens _ ih => exact ih
  | @binary ks ks' l r op _ _ ihl ihr =>
    rintro ⟨hl, hr, hcompares⟩ place
    have hleft : Spells (kinds (Print.expr op.prec l)) (.expr (leftPlace op) l) := by
      by_cases hop : op.prec = .comparison
      · rw [hop, print_beside_comparison (hcompares hop), leftPlace, if_pos hop]
        exact ihl hl .sum
      · rw [leftPlace, if_neg hop]
        exact ihl hl op.prec
    have hjoined := Spells.binary op hleft (ihr hr op.prec.tighter)
    exact wrap_spells (by simpa using hjoined)
  | @unary ks e op _ ih =>
    intro he place
    exact wrap_spells (by simpa using Spells.unary op (ih he .unary))
  | member m _ ih =>
    intro he place
    refine Spells.at_place ?_ (rank_le_suffix place)
    simpa [Print.expr] using Spells.member m (ih he .suffix)
  | index _ _ ih ihi =>
    rintro ⟨he, hi⟩ place
    refine Spells.at_place ?_ (rank_le_suffix place)
    simpa [Print.expr] using Spells.index (ih he .suffix) (ihi hi .lowest)
  | @record ks ks' id fs _ _ ih ihf =>
    intro hfs place
    refine Spells.at_place ?_ (rank_le_suffix place)
    have hrecord := Spells.record (ih trivial .suffix) (ihf hfs)
    cases fs with
    | nil => simpa [Print.expr, Print.fields, Print.commaSeparated] using hrecord
    | cons f fs => simpa [Print.expr] using hrecord
  | call _ _ ih iha =>
    rintro ⟨-, hargs⟩ place
    refine Spells.at_place ?_ (rank_le_suffix place)
    simpa [Print.expr] using Spells.call (ih trivial .suffix) (iha hargs)
  | @genericCall ks gs ks' id as es _ _ _ ih ihg iha =>
    rintro ⟨hgeneric, hargs⟩ place
    refine Spells.at_place ?_ (rank_le_suffix place)
    cases as with
    | nil => simpa [Print.expr] using Spells.call (ih trivial .suffix) (iha hargs)
    | cons a as =>
      simpa [Print.expr] using Spells.genericCall (ih trivial .suffix) (ihg hgeneric) (iha hargs)
  | name n => exact fun _ place => (Spells.name n).at_place (rank_le_suffix place)
  | @int v hv =>
    intro _ place
    have hprinted : Print.int place v = [.token (.int v)] := by
      unfold Print.int
      rw [if_neg (by omega), Int.natAbs_natCast]
    simpa [Print.expr, hprinted] using (Spells.int hv).at_place (rank_le_suffix place)
  | char c => exact fun _ place => (Spells.char c).at_place (rank_le_suffix place)
  | text s => exact fun _ place => (Spells.text s).at_place (rank_le_suffix place)
  | yes => exact fun _ place => Spells.yes.at_place (rank_le_suffix place)
  | no => exact fun _ place => Spells.no.at_place (rank_le_suffix place)
  | list _ ih =>
    intro hitems place
    refine Spells.at_place ?_ (rank_le_suffix place)
    simpa [Print.expr] using Spells.list (ih hitems)
  | array _ ih =>
    intro hitems place
    refine Spells.at_place ?_ (rank_le_suffix place)
    simpa [Print.expr] using Spells.array (ih hitems)
  | noItems => exact fun _ => .noItems
  | lastItem _ ih => exact fun h => .lastItem (ih h.1 .lowest)
  | @item ks ks' e es _ _ ih ihs =>
    intro h
    cases es with
    | nil => exact .lastItem (ih h.1 .lowest)
    | cons e' es => simpa [Print.exprs, Print.commaSeparated] using Spells.item (ih h.1 .lowest) (ihs h.2)
  | noFields => exact fun _ => .noFields
  | lastField key _ ih => exact fun h => .lastField key (ih h.1 .lowest)
  | @field ks ks' e fs key _ _ ih ihs =>
    intro h
    cases fs with
    | nil => exact .lastField key (ih h.1 .lowest)
    | cons f fs => simpa [Print.fields, Print.commaSeparated] using Spells.field key (ih h.1 .lowest) (ihs h.2)
  | plainType n => exact fun _ => .plainType n
  | @appliedType ks as n _ ih =>
    intro h
    cases as with
    | nil => exact .plainType n
    | cons a as => simpa [Print.typeRef] using Spells.appliedType n (ih h)
  | arrayType _ _ ih ihe =>
    rintro ⟨helem, hlen⟩
    simpa [Print.typeRef] using Spells.arrayType (ih helem) (ihe hlen .lowest)
  | typeArg _ _ ih => exact fun h => .typeArg (ih h).typeRef_startsType (ih h)
  | valueArg _ _ ih => exact fun h => .valueArg h.2 (ih h.1 .sum)
  | noArgs => exact fun _ => .noArgs
  | lastArg _ ih => exact fun h => .lastArg (ih h.1)
  | @nextArg ks ks' a b as _ _ ih ihs =>
    intro h
    simpa [Print.typeArgs, Print.commaSeparated] using Spells.nextArg (ih h.1) (ihs h.2)

end Grammar

/-! ## Printing does not see places -/

mutual

theorem Expr.print_unplaced (place : Prec) : ∀ e : Expr, Print.expr place e.unplaced = Print.expr place e
  | .name _ _ | .int _ _ | .char _ _ | .bool _ _ | .text _ _ => by simp [Print.expr]
  | .list _ items | .array _ items => by simp [Print.expr, Expr.prints_unplaced items]
  | .record _ _ [] => by simp [Print.expr]
  | .record _ _ ((key, e) :: fs) => by
    have hfields := Expr.printFields_unplaced ((key, e) :: fs)
    simp only [Expr.fieldsUnplaced, Ident.unplaced] at hfields
    simp [Print.expr, hfields]
  | .unary _ _ e => by simp [Print.expr, Expr.print_unplaced .unary e]
  | .binary _ l op r => by
    simp [Print.expr, Expr.print_unplaced op.prec l, Expr.print_unplaced op.prec.tighter r]
  | .member _ e _ => by simp [Print.expr, Expr.print_unplaced .suffix e]
  | .index _ e i => by simp [Print.expr, Expr.print_unplaced .suffix e, Expr.print_unplaced .lowest i]
  | .call _ _ [] args => by simp [Print.expr, Expr.prints_unplaced args]
  | .call _ _ (g :: gs) args => by
    have hgeneric := TypeArg.prints_unplaced (g :: gs)
    simp only [TypeArg.allUnplaced] at hgeneric
    simp [Print.expr, hgeneric, Expr.prints_unplaced args]
  | .listSelect _ l i => by simp [Print.expr, Expr.print_unplaced .lowest l, Expr.print_unplaced .lowest i]
  | .memberSelect _ l _ i => by
    simp [Print.expr, Expr.print_unplaced .lowest l, Expr.print_unplaced .lowest i, Function.comp_def]

theorem Expr.prints_unplaced : ∀ es : List Expr, Print.exprs (Expr.allUnplaced es) = Print.exprs es
  | e :: es => by simp [Print.exprs, Expr.print_unplaced .lowest e, Expr.prints_unplaced es]
  | [] => rfl

theorem Expr.printFields_unplaced :
    ∀ fs : List (Ident × Expr), Print.fields (Expr.fieldsUnplaced fs) = Print.fields fs
  | (_, e) :: fs => by simp [Print.fields, Expr.print_unplaced .lowest e, Expr.printFields_unplaced fs]
  | [] => rfl

theorem TypeRef.print_unplaced : ∀ t : TypeRef, Print.typeRef t.unplaced = Print.typeRef t
  | .named _ _ [] => by simp [Print.typeRef]
  | .named _ _ (a :: as) => by
    have hargs := TypeArg.prints_unplaced (a :: as)
    simp only [TypeArg.allUnplaced] at hargs
    simp [Print.typeRef, hargs]
  | .array _ elem len => by simp [Print.typeRef, TypeRef.print_unplaced elem, Expr.print_unplaced .lowest len]

theorem TypeArg.print_unplaced : ∀ a : TypeArg, Print.typeArg a.unplaced = Print.typeArg a
  | .type t => by simp [Print.typeArg, TypeRef.print_unplaced t]
  | .value e => by simp [Print.typeArg, Expr.print_unplaced .sum e]

theorem TypeArg.prints_unplaced : ∀ as : List TypeArg, Print.typeArgs (TypeArg.allUnplaced as) = Print.typeArgs as
  | a :: as => by simp [Print.typeArgs, TypeArg.print_unplaced a, TypeArg.prints_unplaced as]
  | [] => rfl

end

theorem Expr.compares_unplaced (e : Expr) : e.unplaced.compares = e.compares := by
  cases e <;> simp [Expr.compares]

mutual

theorem Expr.clear_unplaced : ∀ e : Expr, e.Clear → e.unplaced.Clear
  | .name _ _, _ | .int _ _, _ | .char _ _, _ | .bool _ _, _ | .text _ _, _ => by simp [Expr.Clear]
  | .list _ items, h | .array _ items, h => by simpa [Expr.Clear] using Expr.allClear_unplaced items h
  | .record _ _ fs, h => by simpa [Expr.Clear] using Expr.fieldsClear_unplaced fs h
  | .unary _ _ e, h | .member _ e _, h => by simpa [Expr.Clear] using Expr.clear_unplaced e h
  | .binary _ l _ r, h => by
    simpa [Expr.Clear] using ⟨Expr.clear_unplaced l h.1, Expr.clear_unplaced r h.2.1,
      fun hop => l.compares_unplaced.trans (h.2.2 hop)⟩
  | .index _ e i, h => by simpa [Expr.Clear] using ⟨Expr.clear_unplaced e h.1, Expr.clear_unplaced i h.2⟩
  | .call _ _ generic args, h => by
    simpa [Expr.Clear] using ⟨TypeArg.allClear_unplaced generic h.1, Expr.allClear_unplaced args h.2⟩
  | .listSelect _ l i, h | .memberSelect _ l _ i, h => by
    simpa [Expr.Clear] using ⟨Expr.clear_unplaced l h.1, Expr.clear_unplaced i h.2⟩

theorem Expr.allClear_unplaced : ∀ es : List Expr, Expr.AllClear es → Expr.AllClear (Expr.allUnplaced es)
  | [], _ => trivial
  | e :: es, h => ⟨Expr.clear_unplaced e h.1, Expr.allClear_unplaced es h.2⟩

theorem Expr.fieldsClear_unplaced :
    ∀ fs : List (Ident × Expr), Expr.FieldsClear fs → Expr.FieldsClear (Expr.fieldsUnplaced fs)
  | [], _ => trivial
  | (_, e) :: fs, h => ⟨Expr.clear_unplaced e h.1, Expr.fieldsClear_unplaced fs h.2⟩

theorem TypeRef.clear_unplaced : ∀ t : TypeRef, t.Clear → t.unplaced.Clear
  | .named _ _ args, h => by simpa [TypeRef.Clear] using TypeArg.allClear_unplaced args h
  | .array _ elem len, h => by
    simpa [TypeRef.Clear] using ⟨TypeRef.clear_unplaced elem h.1, Expr.clear_unplaced len h.2⟩

theorem TypeArg.clear_unplaced : ∀ a : TypeArg, a.Clear → a.unplaced.Clear
  | .type t, h => TypeRef.clear_unplaced t h
  | .value e, h => ⟨Expr.clear_unplaced e h.1, by rw [Expr.print_unplaced]; exact h.2⟩

theorem TypeArg.allClear_unplaced :
    ∀ as : List TypeArg, TypeArg.AllClear as → TypeArg.AllClear (TypeArg.allUnplaced as)
  | [], _ => trivial
  | a :: as, h => ⟨TypeArg.clear_unplaced a h.1, TypeArg.allClear_unplaced as h.2⟩

end

/-! ## Reading what is printed -/

namespace Grammar

open Parse

/-- **An expression that was read, printed and read again is the same up to places, and prints alike**, where its printed
form is clear. -/
theorem read_print {tokens printed : List Token} {stop : Token} {e : Expr} (h : expr? tokens = .ok e)
    (hclear : e.Clear) (hprinted : printed.map (·.kind) = kinds (Print.expr .lowest e)) (hstop : stop.kind = .eof) :
    ∃ e', expr? (printed ++ [stop]) = .ok e' ∧ e'.unplaced = e.unplaced ∧ e'.print = e.print := by
  obtain ⟨_, hend⟩ := run_ok.1 h
  obtain ⟨c, he, -, -⟩ := exprToEnd_ok.1 hend
  obtain ⟨ks, -, hs⟩ := expr_reads _ _ e c he
  have hspelled := hs.printed (e.clear_unplaced hclear) .lowest
  rw [Expr.print_unplaced, ← hprinted] at hspelled
  have hwritten : written (printed ++ []) = printed :=
    written_append (fun t ht hk => hspelled.no_newline (hk ▸ List.mem_map_of_mem ht)) (by simp)
  rw [List.append_nil] at hwritten
  obtain ⟨e', he', hsame⟩ := read_of_spelled hstop (hwritten.symm ▸ hspelled)
  refine ⟨e', he', hsame, ?_⟩
  unfold Expr.print
  rw [← Expr.print_unplaced, hsame, Expr.print_unplaced]

/-- `(1 < 2) == true` is printed without its parentheses, and then the comparisons chain. -/
example : expr? ((kinds (Print.expr .lowest
    (.binary nowhere (.binary nowhere (.int nowhere 1) .lt (.int nowhere 2)) .eq (.bool nowhere true))) ++
      [TokenKind.eof]).map (Token.mk · nowhere)) = .error ⟨.chainedComparison, nowhere⟩ := rfl

/-- `f::<(a.b)>()` is printed without its parentheses, and then the argument is the type `a`. -/
example : expr? ((kinds (Print.expr .lowest
    (.call nowhere (bareName "f") [.value (.member nowhere (.name nowhere (bareName "a")) (bareName "b"))] [])) ++
      [TokenKind.eof]).map (Token.mk · nowhere)) = .error ⟨.expected (.symbol .gt), nowhere⟩ := rfl

end Grammar

end Unroll
