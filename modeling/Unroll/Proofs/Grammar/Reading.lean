import Unroll.Proofs.Grammar.Levels
import Unroll.Proofs.Spellable
import Unroll.Proofs.Token.Structure
/-!
# What is read can be spelled

`Gives` says of a phrase what a successful reading gives, where every name among the tokens is one and every indent has
something behind it; reading only ever drops tokens at the front, so that stays true.
-/
namespace Unroll

/-- The tokens left are as those of a text. -/
structure Cursor.Readable (c : Cursor) : Prop where
  named : ∀ t ∈ c.rest, t.Named
  opened : c.rest.IsChain Token.MayOpen

theorem Cursor.Readable.of_suffix {c c' : Cursor} (h : c.Readable) (hrest : c'.rest <:+ c.rest) : c'.Readable :=
  ⟨fun t ht => h.named t (hrest.subset ht), h.opened.infix hrest.isInfix⟩

namespace Parse

open Outcome

/-- Where the phrase can be read, what it gives is as said. -/
def Gives {α : Type} (p : Parse α) (Q : α → Prop) : Prop :=
  ∀ c a c', c.Readable → p c = .ok a c' → c'.Readable ∧ Q a

namespace Gives

variable {α β : Type} {p : Parse α} {f : α → Parse β} {P Q : α → Prop} {R : β → Prop}

theorem bind (hp : Gives p Q) (hf : ∀ a, Q a → Gives (f a) R) : Gives (p >>= f) R := by
  intro c b c' hc h
  obtain ⟨a, t, ha, hb⟩ := bind_ok.1 h
  obtain ⟨ht, hq⟩ := hp c a t hc ha
  exact hf a hq t b c' ht hb

theorem pure {a : α} (h : Q a) : Gives (Pure.pure a) Q := by
  intro c b c' hc hb
  obtain ⟨rfl, rfl⟩ := pure_ok.1 hb
  exact ⟨hc, h⟩

theorem mono (hp : Gives p P) (h : ∀ a, P a → Q a) : Gives p Q := by
  intro c a c' hc ha
  obtain ⟨hc', hpa⟩ := hp c a c' hc ha
  exact ⟨hc', h a hpa⟩

/-- What is read counts for nothing. -/
theorem bind' (hp : Gives p fun _ => True) (hf : ∀ a, Gives (f a) R) : Gives (p >>= f) R :=
  hp.bind fun a _ => hf a

theorem fail (fault : ParseFault) (span : Span) : Gives (Parse.fail fault span) Q :=
  fun _ _ _ _ h => absurd h throw_ok

end Gives

section

variable {α : Type} {Q : α → Prop}

theorem get_gives : Gives (get : Parse Cursor) fun _ => True := by
  intro c a c' hc h
  obtain ⟨rfl, rfl⟩ := get_ok.1 h
  exact ⟨hc, trivial⟩

theorem endOfInput_gives : Gives endOfInput Q := get_gives.bind' fun _ => .fail _ _

theorem peek_gives : Gives peek fun _ => True := get_gives.bind' fun _ => .pure trivial

theorem peekSecond_gives : Gives peekSecond fun _ => True := get_gives.bind' fun _ => .pure trivial

theorem place_gives (other : Span) : Gives (place other) fun _ => True := get_gives.bind' fun _ => .pure trivial

theorem sees_gives (kind : TokenKind) : Gives (sees kind) fun _ => True := peek_gives.bind' fun _ => .pure trivial

theorem dropping_gives {f : Cursor → Cursor} (hf : ∀ c, (f c).rest <:+ c.rest) :
    Gives (modify f : Parse Unit) fun _ => True := by
  intro c a c' hc h
  have hc' := modify_ok.1 h
  subst hc'
  exact ⟨hc.of_suffix (hf c), trivial⟩

theorem skip_gives : Gives skip fun _ => True := dropping_gives fun _ => List.tail_suffix _

theorem skipNewlines_gives : Gives skipNewlines fun _ => True := dropping_gives fun _ => List.dropWhile_suffix _

theorem next_gives : Gives next Token.Named := by
  intro c a c' hc h
  unfold next at h
  simp only [bind_ok, get_ok] at h
  obtain ⟨_, _, ⟨rfl, rfl⟩, h⟩ := h
  cases hrest : c.rest with
  | nil =>
    simp only [hrest] at h
    exact absurd h fun h => (endOfInput_gives (Q := fun _ => False) c a c' hc h).2
  | cons t ts =>
    simp only [hrest, bind_ok, pure_ok] at h
    obtain ⟨_, u, hu, rfl, rfl⟩ := h
    exact ⟨(skip_gives c _ _ hc hu).1, hc.named t (by simp [hrest])⟩

theorem eat_gives (kind : TokenKind) : Gives (eat kind) fun _ => True := by
  refine (sees_gives kind).bind' fun b => ?_
  split
  · exact skip_gives.bind' fun _ => .pure trivial
  · exact .pure trivial

theorem expect_gives (kind : TokenKind) : Gives (expect kind) fun _ => True := by
  refine next_gives.bind fun t _ => ?_
  split
  · exact .pure trivial
  · exact .fail _ _

/-- **A name is read from a token.** -/
theorem ident_gives : Gives ident fun id => IsName id.name := by
  refine next_gives.bind fun t ht => ?_
  split
  case h_1 n hn => exact .pure (ht n hn)
  case h_2 => exact .fail _ _

theorem lineEnd_gives : Gives lineEnd fun _ => True := by
  refine peek_gives.bind' fun k => ?_
  split
  · exact skip_gives
  · exact .pure trivial
  · exact .pure trivial
  · exact (place_gives _).bind' fun _ => .fail _ _

theorem commaSeparated_gives {element : Parse α} {more : Parse Bool} (he : Gives element Q)
    (hm : Gives more fun _ => True) : ∀ n, Gives (commaSeparated element more n) fun as => ∀ a ∈ as, Q a
  | 0 => endOfInput_gives
  | n + 1 => by
    unfold commaSeparated
    refine he.bind fun a ha => ?_
    refine (eat_gives _).bind' fun b => ?_
    have hone : ∀ x ∈ [a], Q x := by simpa using ha
    split
    · refine hm.bind' fun b => ?_
      split
      · refine (commaSeparated_gives he hm n).bind fun as has => .pure ?_
        exact List.forall_mem_cons.2 ⟨ha, has⟩
      · exact .pure hone
    · exact .pure hone

theorem closedBy_gives {close : TokenKind} {element : Parse α} (he : Gives element Q) (n : Nat) :
    Gives (closedBy close element n) fun as => ∀ a ∈ as, Q a := by
  refine (sees_gives close).bind' fun b => ?_
  split
  · exact .pure (by simp)
  · exact commaSeparated_gives he ((sees_gives close).bind' fun _ => .pure trivial) n

end

end Parse

namespace Grammar

open Parse

/-! ## Expressions and types -/

structure Inner.Gives (inner : Inner) : Prop where
  expr : Parse.Gives inner.expr Expr.Spellable
  sum : Parse.Gives inner.sum Expr.Spellable
  unary : Parse.Gives inner.unary Expr.Spellable
  typeRef : Parse.Gives inner.typeRef TypeRef.Spellable

variable {inner : Inner}

theorem chainFrom_gives {op? : TokenKind → Option BinOp} {operand : Parse Expr} (ho : Gives operand Expr.Spellable) :
    ∀ n {left}, left.Spellable → Gives (chainFrom op? operand n left) Expr.Spellable
  | 0, left, hl => .pure hl
  | n + 1, left, hl => by
    unfold chainFrom
    refine peek_gives.bind' fun k => ?_
    split
    · exact .pure hl
    · refine skip_gives.bind' fun _ => ho.bind fun right hr => ?_
      exact chainFrom_gives ho n (by simpa only [binary, Expr.Spellable] using ⟨hl, hr⟩)

theorem chain_gives {op? : TokenKind → Option BinOp} {operand : Parse Expr} (ho : Gives operand Expr.Spellable) (n : Nat) :
    Gives (chain op? operand n) Expr.Spellable :=
  ho.bind fun _ hl => chainFrom_gives ho n hl

theorem templateArg_gives (hi : inner.Gives) : Gives (templateArg inner) TypeArg.Spellable := by
  have hvalue : Gives (do return .value (← inner.sum)) TypeArg.Spellable := hi.sum.bind fun e he => .pure he
  have htype : Gives (do return .type (← inner.typeRef)) TypeArg.Spellable := hi.typeRef.bind fun t ht => .pure ht
  unfold templateArg
  refine peek_gives.bind' fun k => ?_
  dsimp only
  split
  · exact htype
  · refine peekSecond_gives.bind' fun k' => ?_
    simp only [pure_bind]
    split
    · exact hvalue
    · exact htype
  · exact hvalue

theorem templateArgs_gives (hi : inner.Gives) (n : Nat) : Gives (templateArgs inner n) TypeArg.AllSpellable := by
  refine (sees_gives _).bind' fun b => ?_
  split
  · exact .pure trivial
  · exact (commaSeparated_gives (templateArg_gives hi) (.pure trivial) n).mono fun _ => TypeArg.allSpellable_iff.2

theorem typeRefWith_gives (hi : inner.Gives) (n : Nat) : Gives (typeRefWith n inner) TypeRef.Spellable := by
  refine (sees_gives _).bind' fun b => ?_
  split
  · refine (expect_gives _).bind' fun _ => hi.typeRef.bind fun elem he => ?_
    refine (expect_gives _).bind' fun _ => hi.expr.bind fun len hl => ?_
    exact (expect_gives _).bind' fun _ => .pure ⟨he, hl⟩
  · refine ident_gives.bind fun name hn => (eat_gives _).bind' fun b => ?_
    split
    · refine (templateArgs_gives hi n).bind fun args ha => ?_
      exact (expect_gives _).bind' fun _ => .pure ⟨hn, ha⟩
    · exact .pure ⟨hn, trivial⟩

theorem integer_gives (value : Nat) (span : Span) : Gives (integer value span) Expr.Spellable := by
  unfold integer
  split
  · rename_i hvalue
    exact .pure ⟨Int.natCast_nonneg _, Int.ofNat_lt.2 hvalue⟩
  · exact .fail _ _

theorem exprs_gives (hi : inner.Gives) (close : TokenKind) (n : Nat) : Gives (closedBy close inner.expr n) Expr.AllSpellable :=
  (closedBy_gives hi.expr n).mono fun _ => Expr.allSpellable_iff.2

theorem primary_gives (hi : inner.Gives) (n : Nat) : Gives (primary n inner) Expr.Spellable := by
  refine next_gives.bind fun t ht => ?_
  obtain ⟨kind, span⟩ := t
  cases kind with
  | name n => exact .pure (ht n rfl)
  | int v => exact integer_gives v span
  | char _ | text _ => exact .pure trivial
  | keyword k =>
    cases k with
    | trueWord | falseWord => exact .pure trivial
    | _ => exact .fail _ _
  | symbol s =>
    cases s with
    | lbrace | lbracket =>
      refine (exprs_gives hi _ n).bind fun items h => ?_
      exact (expect_gives _).bind' fun _ => .pure h
    | lparen =>
      refine hi.expr.bind fun e he => ?_
      exact (expect_gives _).bind' fun _ => .pure he
    | _ => exact .fail _ _
  | newline | indent | dedent | eof => exact .fail _ _

theorem literalFields_gives (hi : inner.Gives) (opening : Span) :
    ∀ n, Gives (literalFields inner opening n) fun r => Expr.FieldsSpellable r.1
  | 0 => endOfInput_gives
  | n + 1 => by
    unfold literalFields
    refine peek_gives.bind' fun k => ?_
    split
    · exact (expect_gives _).bind' fun _ => .pure trivial
    · exact .fail _ _
    · refine ident_gives.bind fun key hk => (expect_gives _).bind' fun _ => ?_
      refine hi.expr.bind fun value hv => peek_gives.bind' fun k => ?_
      have hrest : Gives (literalFields inner opening n >>= fun r => pure ((key, value) :: r.1, r.2)) fun r =>
          Expr.FieldsSpellable r.1 :=
        (literalFields_gives hi opening n).bind fun r hr => .pure ⟨⟨hk, hv⟩, hr⟩
      dsimp only
      split
      · exact skip_gives.bind' fun _ => hrest
      · exact hrest
      · exact (place_gives _).bind' fun _ => (Gives.fail _ _).bind' fun _ => hrest

theorem recordLiteral_gives (hi : inner.Gives) (n : Nat) (start : Span) {type : Ident} (ht : IsName type.name) :
    Gives (recordLiteral n inner start type) Expr.Spellable :=
  (expect_gives _).bind' fun _ => (literalFields_gives hi _ n).bind fun _ hr => .pure ⟨ht, hr⟩

theorem call_gives (hi : inner.Gives) (n : Nat) (start : Span) {callee : Ident} (hc : IsName callee.name) :
    Gives (call n inner start callee) Expr.Spellable := by
  have hrest : ∀ {generic}, TypeArg.AllSpellable generic → Gives (do
      let _ ← expect (.symbol .lparen)
      let args ← closedBy (.symbol .rparen) inner.expr n
      let close ← expect (.symbol .rparen)
      return Expr.call (start.join close) callee generic args) Expr.Spellable := by
    intro generic hg
    refine (expect_gives _).bind' fun _ => (exprs_gives hi _ n).bind fun args ha => ?_
    exact (expect_gives _).bind' fun _ => .pure ⟨hc, hg, ha⟩
  unfold call
  refine (eat_gives _).bind' fun b => ?_
  dsimp only
  split
  · refine (expect_gives _).bind' fun _ => (templateArgs_gives hi n).bind fun args ha => ?_
    refine (expect_gives _).bind' fun _ => ?_
    simp only [pure_bind]
    exact hrest ha
  · simp only [pure_bind]
    exact hrest trivial

theorem suffix_gives (hi : inner.Gives) (n : Nat) {e : Expr} (he : e.Spellable) :
    Gives (suffix? n inner e) fun r => ∀ e', r = some e' → e'.Spellable := by
  have hsome : ∀ {p : Parse Expr}, Gives p Expr.Spellable → Gives (do return some (← p)) fun r => ∀ e', r = some e' → e'.Spellable :=
    fun hp => hp.bind fun e he => .pure fun e' h => by
      cases h
      exact he
  have hnone : Gives (pure none : Parse (Option Expr)) fun r => ∀ e', r = some e' → e'.Spellable := .pure (by simp)
  have hcall : Gives (suffix?.callOf n inner e) Expr.Spellable := by
    unfold suffix?.callOf
    split
    · exact call_gives hi n _ he
    · exact (place_gives _).bind' fun _ => .fail _ _
  unfold suffix?
  refine peek_gives.bind' fun k => ?_
  split
  · exact hsome (recordLiteral_gives hi n _ he)
  · refine skip_gives.bind' fun _ => ident_gives.bind fun m hm => .pure fun e' h => ?_
    cases h
    exact ⟨he, hm⟩
  · refine skip_gives.bind' fun _ => hi.expr.bind fun i hidx => (expect_gives _).bind' fun _ => .pure fun e' h => ?_
    cases h
    exact ⟨he, hidx⟩
  · refine peekSecond_gives.bind' fun k => ?_
    split
    · exact hsome hcall
    · exact hnone
  · exact hsome hcall
  · exact hnone

theorem suffixesFrom_gives (hi : inner.Gives) (bound : Nat) :
    ∀ n {e : Expr}, e.Spellable → Gives (suffixesFrom bound inner n e) Expr.Spellable
  | 0, e, he => .pure he
  | n + 1, e, he => by
    unfold suffixesFrom
    refine (suffix_gives hi bound he).bind fun r hr => ?_
    split
    · exact suffixesFrom_gives hi bound n (hr _ rfl)
    · exact .pure he

theorem unaryWith_gives (hi : inner.Gives) (n : Nat) : Gives (unaryWith n inner) Expr.Spellable := by
  have hprefixed : ∀ op, Gives (unaryWith.prefixed inner op) Expr.Spellable := fun op =>
    next_gives.bind fun _ _ => hi.unary.bind fun _ he => .pure he
  unfold unaryWith
  refine peek_gives.bind' fun k => ?_
  split
  · exact hprefixed _
  · exact hprefixed _
  · exact (primary_gives hi n).bind fun e he => suffixesFrom_gives hi n n he

theorem sumWith_gives (hi : inner.Gives) (n : Nat) : Gives (sumWith n inner) Expr.Spellable :=
  chain_gives (chain_gives (unaryWith_gives hi n) n) n

theorem comparisonWith_gives (hi : inner.Gives) (n : Nat) : Gives (comparisonWith n inner) Expr.Spellable := by
  refine (sumWith_gives hi n).bind fun left hl => peek_gives.bind' fun k => ?_
  split
  · exact .pure hl
  · refine skip_gives.bind' fun _ => (sumWith_gives hi n).bind fun right hr => peek_gives.bind' fun k => ?_
    split
    · exact .pure ⟨hl, hr⟩
    · exact (place_gives _).bind' fun _ => .fail _ _

theorem exprWith_gives (hi : inner.Gives) (n : Nat) : Gives (exprWith n inner) Expr.Spellable :=
  chain_gives (chain_gives (comparisonWith_gives hi n) n) n

theorem bounded_gives : ∀ n, (bounded n).Gives
  | 0 => ⟨endOfInput_gives, endOfInput_gives, endOfInput_gives, endOfInput_gives⟩
  | n + 1 =>
    have hi := bounded_gives n
    ⟨exprWith_gives hi (n + 1), sumWith_gives hi (n + 1), unaryWith_gives hi (n + 1), typeRefWith_gives hi (n + 1)⟩

/-! ## Statements -/

theorem typeRef_gives (n : Nat) : Gives (typeRef n) TypeRef.Spellable := (bounded_gives n).typeRef

theorem expr_gives (n : Nat) : Gives (expr n) Expr.Spellable := (bounded_gives n).expr

theorem typeBehind_gives (mark : Symbol) (n : Nat) : Gives (typeBehind mark n) TypeRef.Spellable? := by
  refine (eat_gives _).bind' fun b => ?_
  split
  · refine (typeRef_gives n).bind fun t ht => .pure fun w hw => ?_
    cases hw
    exact ht
  · exact .pure fun w hw => nomatch hw

theorem param_gives (n : Nat) : Gives (param n) Param.Spellable :=
  ident_gives.bind fun _ hn => (expect_gives _).bind' fun _ => (eat_gives _).bind' fun _ =>
    (typeRef_gives n).bind fun _ ht => .pure ⟨hn, ht⟩

theorem traitDef_gives : Gives traitDef Stmt.Spellable :=
  (expect_gives _).bind' fun _ => ident_gives.bind fun _ hn => lineEnd_gives.bind' fun _ => .pure hn

theorem recordFields_gives (bound : Nat) (opening : Span) :
    ∀ n, Gives (recordFields bound opening n) fun r => ∀ f ∈ r.1, f.Spellable
  | 0 => endOfInput_gives
  | n + 1 => by
    unfold recordFields
    refine peek_gives.bind' fun k => ?_
    split
    · exact (expect_gives _).bind' fun _ => lineEnd_gives.bind' fun _ => .pure (by simp)
    · exact .fail _ _
    · refine (eat_gives _).bind' fun _ => ident_gives.bind fun name hn => (expect_gives _).bind' fun _ => ?_
      refine (typeRef_gives bound).bind fun t ht => peek_gives.bind' fun k => ?_
      have hrest : ∀ f : RecordField, f.Spellable → Gives (recordFields bound opening n >>= fun r =>
          pure (f :: r.1, r.2)) fun r => ∀ f ∈ r.1, f.Spellable := fun f hf =>
        (recordFields_gives bound opening n).bind fun r hr => .pure (List.forall_mem_cons.2 ⟨hf, hr⟩)
      dsimp only
      split
      · exact skip_gives.bind' fun _ => hrest _ ⟨hn, ht⟩
      · exact hrest _ ⟨hn, ht⟩
      · exact (place_gives _).bind' fun _ => (Gives.fail _ _).bind' fun _ => hrest _ ⟨hn, ht⟩

theorem templateParam_gives (n : Nat) : Gives (templateParam n) TemplateParam.Spellable := by
  refine (sees_gives _).bind' fun b => ?_
  split
  · refine (expect_gives _).bind' fun _ => ident_gives.bind fun _ hn => (expect_gives _).bind' fun _ => ?_
    exact (typeRef_gives n).bind fun _ ht => .pure ⟨hn, ht⟩
  · refine ident_gives.bind fun _ hn => (eat_gives _).bind' fun b => ?_
    split
    · exact ident_gives.bind fun _ hb => .pure ⟨hn, hb⟩
    · exact .pure ⟨hn, trivial⟩

theorem templateParams_gives (n : Nat) : Gives (templateParams n) fun ps => ∀ p ∈ ps, p.Spellable := by
  have hrest : Gives (do
      let params ← commaSeparated (templateParam n) (return true) n
      let _ ← expect (.symbol .gt)
      return params) fun ps => ∀ p ∈ ps, p.Spellable :=
    (commaSeparated_gives (templateParam_gives n) (.pure trivial) n).bind fun _ hps =>
      (expect_gives _).bind' fun _ => .pure hps
  refine (sees_gives _).bind' fun b => ?_
  split
  · refine (expect_gives _).bind' fun _ => (sees_gives _).bind' fun b => ?_
    dsimp only
    split
    · exact (Gives.fail _ _).bind' fun _ => hrest
    · exact hrest
  · exact .pure (by simp)

theorem typeDef_gives (n : Nat) : Gives (typeDef n) Stmt.Spellable := by
  refine (expect_gives _).bind' fun _ => ident_gives.bind fun name hn => ?_
  refine (templateParams_gives n).bind fun params hps => (expect_gives _).bind' fun _ => (sees_gives _).bind' fun b => ?_
  split
  · split
    · exact .fail _ _
    · refine (expect_gives _).bind' fun _ => (expect_gives _).bind' fun _ => ?_
      exact (recordFields_gives n _ n).bind fun r hr => .pure ⟨hn, hr⟩
  · exact (typeRef_gives n).bind fun t ht => lineEnd_gives.bind' fun _ => .pure ⟨hn, hps, ht⟩

theorem valDecl_gives (n : Nat) : Gives (valDecl n) ValDecl.Spellable :=
  (expect_gives _).bind' fun _ => (eat_gives _).bind' fun _ => ident_gives.bind fun _ hn =>
    (typeBehind_gives _ n).bind fun _ ht => (expect_gives _).bind' fun _ =>
      (expr_gives n).bind fun _ he => .pure ⟨hn, ht, he⟩

variable {stmt : Parse Stmt}

theorem blockStmts_gives (hs : Gives stmt Stmt.Spellable) (opening : Span) :
    ∀ n, Gives (blockStmts stmt opening n) fun r => Stmt.AllSpellable r.1
  | 0 => .fail _ _
  | n + 1 => by
    unfold blockStmts
    refine skipNewlines_gives.bind' fun _ => peek_gives.bind' fun k => ?_
    split
    · exact (expect_gives _).bind' fun _ => .pure trivial
    · exact .fail _ _
    · refine hs.bind fun s hs' => (blockStmts_gives hs opening n).bind fun r hr => .pure ⟨hs', hr⟩

theorem skipNewlines_stays {α : Type} {c : Cursor} (hc : c.kind? ≠ some .newline) (f : Unit → Parse α) :
    (skipNewlines >>= f) c = f () c := by
  have hrest : c.rest.dropWhile (·.kind = .newline) = c.rest := by
    obtain ⟨rest, last⟩ := c
    cases rest with
    | nil => rfl
    | cons t ts => exact List.dropWhile_cons_of_neg fun ht => hc (congrArg some (of_decide_eq_true ht))
  show f () ⟨c.rest.dropWhile (·.kind = .newline), c.last⟩ = f () c
  rw [hrest]

/-- A block that begins with something has a statement. -/
theorem blockStmts_ne {opening : Span} {n : Nat} {c c' : Cursor} {r : List Stmt × Span}
    (hc : ∀ k, c.kind? = some k → k.isLayout = false) (h : blockStmts stmt opening n c = .ok r c') : r.1 ≠ [] := by
  have hnot : ∀ k, k.isLayout = true → c.kind? ≠ some k := by
    intro k hk hkind
    rw [hc k hkind] at hk
    cases hk
  cases n with
  | zero => exact absurd h fail_ok
  | succ n =>
    unfold blockStmts at h
    rw [skipNewlines_stays (hnot _ rfl), peek_bind] at h
    have hdedent := hnot _ (rfl : TokenKind.isLayout .dedent = true)
    generalize c.kind? = k at h hdedent
    split at h
    · exact absurd rfl hdedent
    · exact absurd h fail_ok
    · simp only [Outcome.bind_ok, Outcome.pure_ok] at h
      obtain ⟨s, _, -, r', _, -, rfl, -⟩ := h
      simp

/-- **A block has a statement**, since something comes behind its indent. -/
theorem block_gives (hs : Gives stmt Stmt.Spellable) (n : Nat) : Gives (block n stmt) Block.Spellable := by
  refine (expect_gives _).bind' fun _ => ?_
  intro c b c' hc h
  obtain ⟨opening, m, ho, h⟩ := Outcome.bind_ok.1 h
  have hm := (expect_gives _ _ _ _ hc ho).1
  have hbegun : ∀ k, m.kind? = some k → k.isLayout = false := by
    rintro k hk
    rw [expect_ok.1 ho] at hc
    obtain ⟨t, ht, rfl⟩ := Option.map_eq_some_iff.1 hk
    exact hc.opened.rel_head? ht rfl
  obtain ⟨⟨ss, close⟩, m', hss, h⟩ := Outcome.bind_ok.1 h
  obtain ⟨hm', hall⟩ := blockStmts_gives hs opening n _ _ _ hm hss
  obtain ⟨rfl, rfl⟩ := Outcome.pure_ok.1 h
  exact ⟨hm', blockStmts_ne hbegun hss, hall⟩

theorem cellDef_gives (hs : Gives stmt Stmt.Spellable) (n : Nat) : Gives (cellDef n stmt) Stmt.Spellable :=
  (expect_gives _).bind' fun _ => ident_gives.bind fun _ hn => (templateParams_gives n).bind fun _ hps =>
    (expect_gives _).bind' fun _ => (closedBy_gives (param_gives n) n).bind fun _ ha => (expect_gives _).bind' fun _ =>
      (typeBehind_gives _ n).bind fun _ hr => (expect_gives _).bind' fun _ =>
        (block_gives hs n).bind fun _ hb => .pure ⟨hn, hps, ha, hr, hb⟩

theorem assignment_gives (n : Nat) : Gives (assignment n) Stmt.Spellable :=
  ident_gives.bind fun _ hn => (expect_gives _).bind' fun _ => (expr_gives n).bind fun _ he =>
    lineEnd_gives.bind' fun _ => .pure ⟨hn, he⟩

theorem conditional_gives (hs : Gives stmt Stmt.Spellable) (n : Nat) : Gives (conditional n stmt) Stmt.Spellable := by
  refine (expect_gives _).bind' fun _ => (expr_gives n).bind fun c hc => (expect_gives _).bind' fun _ => ?_
  refine (block_gives hs n).bind fun yes hy => skipNewlines_gives.bind' fun _ => (eat_gives _).bind' fun b => ?_
  split
  · exact (expect_gives _).bind' fun _ => (block_gives hs n).bind fun no hno => .pure ⟨hc, hy, hno⟩
  · exact .pure ⟨hc, hy⟩

theorem whileLoop_gives (hs : Gives stmt Stmt.Spellable) (n : Nat) : Gives (whileLoop n stmt) Stmt.Spellable :=
  (expect_gives _).bind' fun _ => (expr_gives n).bind fun _ hc => (expect_gives _).bind' fun _ =>
    (block_gives hs n).bind fun _ hb => .pure ⟨hc, hb⟩

theorem returnStmt_gives (n : Nat) : Gives (returnStmt n) Stmt.Spellable := by
  refine (expect_gives _).bind' fun _ => peek_gives.bind' fun k => ?_
  split
  · exact (expr_gives n).bind fun e he => lineEnd_gives.bind' fun _ => .pure he
  · exact lineEnd_gives.bind' fun _ => .pure trivial

theorem loopVar_gives (n : Nat) : Gives (loopVar n) fun r => r.2.Spellable :=
  (expect_gives _).bind' fun _ => (eat_gives _).bind' fun _ => ident_gives.bind fun _ hn =>
    (typeBehind_gives _ n).bind fun _ ht => .pure ⟨hn, ht⟩

theorem loopVarAfter_gives (n : Nat) (keyword : Span) : Gives (loopVarAfter n keyword) LoopVar.Spellable := by
  refine (sees_gives _).bind' fun b => ?_
  split
  · exact (loopVar_gives n).bind fun r hr => .pure hr
  · exact (place_gives _).bind' fun _ => .fail _ _

theorem expansionHead_gives (n : Nat) (keyword : Span) :
    Gives (expansionHead n keyword) fun r => Init.Spellable r.1 ∧ r.2.Spellable := by
  refine (sees_gives _).bind' fun b => ?_
  split
  · refine (loopVar_gives n).bind fun r hr => (eat_gives _).bind' fun b => ?_
    split
    · refine (expr_gives n).bind fun e he => (expect_gives _).bind' fun _ => ?_
      exact (loopVarAfter_gives n keyword).bind fun var hv => .pure ⟨⟨hr.name, hr.type, he⟩, hv⟩
    · exact .pure ⟨trivial, hr⟩
  · refine (expr_gives n).bind fun e he => (expect_gives _).bind' fun _ => ?_
    exact (loopVarAfter_gives n keyword).bind fun var hv => .pure ⟨he, hv⟩

theorem expansion_gives (hs : Gives stmt Stmt.Spellable) (n : Nat) : Gives (expansion n stmt) Stmt.Spellable :=
  (expect_gives _).bind' fun _ => (expansionHead_gives n _).bind fun _ hh => (expect_gives _).bind' fun _ =>
    (expr_gives n).bind fun _ hr => (expect_gives _).bind' fun _ => (block_gives hs n).bind fun _ hb =>
      .pure ⟨hh.1, hh.2, hr, hb⟩

theorem stmtWith_gives (hs : Gives stmt Stmt.Spellable) (n : Nat) : Gives (stmtWith n stmt) Stmt.Spellable := by
  refine peek_gives.bind' fun k => ?_
  split
  · exact traitDef_gives
  · exact typeDef_gives n
  · exact (valDecl_gives n).bind fun d hd => lineEnd_gives.bind' fun _ => .pure hd
  · exact cellDef_gives hs n
  · exact conditional_gives hs n
  · exact whileLoop_gives hs n
  · exact expansion_gives hs n
  · exact (expect_gives _).bind' fun _ => lineEnd_gives.bind' fun _ => .pure trivial
  · exact (expect_gives _).bind' fun _ => lineEnd_gives.bind' fun _ => .pure trivial
  · exact returnStmt_gives n
  · exact (expect_gives _).bind' fun _ => (expr_gives n).bind fun e he => lineEnd_gives.bind' fun _ => .pure he
  · rename_i kind _ _ _ _ _ _ _ _ _ _ _
    have hexpr : Gives (if startsExpr kind then do
          let e ← expr n
          lineEnd
          return Stmt.expr e
        else do fail .expectedStatement (← place ⟨0, 0⟩)) Stmt.Spellable := by
      split
      · exact (expr_gives n).bind fun e he => lineEnd_gives.bind' fun _ => .pure he
      · exact (place_gives _).bind' fun _ => .fail _ _
    refine peekSecond_gives.bind' fun k => ?_
    split
    · split
      · exact assignment_gives n
      · exact hexpr
    · split
      · exact assignment_gives n
      · exact hexpr
  · exact .fail _ _

theorem stmt_gives : ∀ n, Gives (Grammar.stmt n) Stmt.Spellable
  | 0 => .fail _ _
  | n + 1 => stmtWith_gives (stmt_gives n) (n + 1)

theorem programStmts_gives (bound : Nat) : ∀ n, Gives (programStmts bound n) Stmt.AllSpellable
  | 0 => (stmt_gives 0).bind fun _ hs => .pure ⟨hs, trivial⟩
  | n + 1 => by
    unfold programStmts
    refine skipNewlines_gives.bind' fun _ => peek_gives.bind' fun k => ?_
    split
    · exact .pure trivial
    · exact (stmt_gives bound).bind fun s hs => (programStmts_gives bound n).bind fun ss hss => .pure ⟨hs, hss⟩

end Grammar

theorem mapError_ok {ε ε' α : Type} {f : ε → ε'} {x : Except ε α} {a : α} (h : x.mapError f = .ok a) : x = .ok a := by
  cases x with
  | ok b => exact congrArg Except.ok (Except.ok.inj h)
  | error e => cases h

/-- The tokens of a text are readable. -/
theorem tokens_readable {source : String} {ts : List Token} (h : tokens source = .ok ts) :
    (Cursor.ofTokens ts).Readable :=
  ⟨tokens_named h, tokens_opened h⟩

/-- **A program that is read can be spelled.** -/
theorem source_spellable {source : String} {edition : Option String} {p : Program}
    (h : Source.program source edition = .ok p) : Stmt.AllSpellable p := by
  unfold Source.program Source.tokens at h
  simp only [Outcome.except_bind_ok] at h
  obtain ⟨ts, hts, hp⟩ := h
  have hprogram := mapError_ok hp
  unfold program? Grammar.run at hprogram
  simp only [Outcome.except_bind_ok] at hprogram
  obtain ⟨-, -, hrun⟩ := hprogram
  split at hrun
  case h_1 a c hstmts =>
    cases hrun
    exact (Grammar.programStmts_gives _ _ (.ofTokens ts) _ _ (tokens_readable (mapError_ok hts)) hstmts).2
  case h_2 => cases hrun

/-- **A program that is read can be written.** -/
theorem source_written {source : String} {edition : Option String} {p : Program}
    (h : Source.program source edition = .ok p) : ∀ s ∈ p, s.Written :=
  Stmt.allWritten_iff.1 (Stmt.AllSpellable.written p (source_spellable h))

end Unroll
