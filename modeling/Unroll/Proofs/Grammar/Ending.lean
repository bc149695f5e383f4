import Unroll.Proofs.Grammar.Progress
import Unroll.Proofs.Grammar.Unbounded
/-!
# Reading ends

Every phrase that asks for itself has taken a token by then, and every round of a loop takes one.  So a reading without
a bound ends, and as the bounded reading does: the bound on the tokens that are left decides nothing.
-/
namespace Unroll.Unbounded

open Cursor Parse Outcome

/-- **From the cursor on, the unbounded reading ends as the parser does**, which takes at least so many tokens where it
succeeds. -/
structure EndsAs {α : Type} (k : Nat) (c : Cursor) (q : Unbounded α) (p : Parse α) : Prop where
  ok : ∀ a m, p c = .ok a m → Ends q c (.ok a) m ∧ m.rest.length + k ≤ c.rest.length
  error : ∀ e m, p c = .error e m → Ends q c (.error e) m

/-- So it does wherever at most `n` tokens are left. -/
def EndsWithin {α : Type} (n k : Nat) (q : Unbounded α) (p : Parse α) : Prop :=
  ∀ c, c.rest.length ≤ n → EndsAs k c q p

namespace Ends

variable {α β : Type} {q : Unbounded α} {g : α → Unbounded β} {c m d : Cursor} {r : Except ParseError β}

theorem bind {a : α} (hq : Ends q c (.ok a) m) (hg : Ends (g a) m r d) : Ends (q >>= g) c r d := by
  induction q generalizing c with
  | done a' =>
    cases hq
    exact hg
  | step p goOn ih =>
    cases hq with
    | step hp hm hrest => exact .step hp hm (ih _ hrest)
  | ask f goOn ih =>
    cases hq with
    | answer hbody hrest => exact .answer hbody (ih _ hrest)

theorem bind_error {e : ParseError} (hq : Ends q c (.error e) m) : Ends (q >>= g) c (.error e) m := by
  induction q generalizing c with
  | done a => cases hq
  | step p goOn ih =>
    cases hq with
    | step hp hm hrest => exact .step hp hm (ih _ hrest)
    | fault hp hm => exact .fault hp hm
  | ask f goOn ih =>
    cases hq with
    | answer hbody hrest => exact .answer hbody (ih _ hrest)
    | refusal hbody => exact .refusal hbody

/-- What ends has ended in its first part, or behind it. -/
theorem of_bind {r : Except ParseError β} (h : Ends (q >>= g) c r m) :
    (∃ a m', Ends q c (.ok a) m' ∧ Ends (g a) m' r m) ∨ ∃ e, Ends q c (.error e) m ∧ r = .error e := by
  induction q generalizing c with
  | done a => exact .inl ⟨a, c, .done, h⟩
  | step p goOn ih =>
    cases h with
    | step hp hm hrest =>
      obtain ⟨a, m', ha, hg⟩ | ⟨e, he, rfl⟩ := ih _ hrest
      · exact .inl ⟨a, m', .step hp hm ha, hg⟩
      · exact .inr ⟨e, .step hp hm he, rfl⟩
    | fault hp hm => exact .inr ⟨_, .fault hp hm, rfl⟩
  | ask f goOn ih =>
    cases h with
    | answer hbody hrest =>
      obtain ⟨a, m', ha, hg⟩ | ⟨e, he, rfl⟩ := ih _ hrest
      · exact .inl ⟨a, m', .answer hbody ha, hg⟩
      · exact .inr ⟨e, .answer hbody he, rfl⟩
    | refusal hbody => exact .inr ⟨_, .refusal hbody, rfl⟩

theorem lift {p : Parse α} {a : α} (h : p c = .ok a m) (hm : m.rest <:+ c.rest) :
    Ends (liftM p) c (.ok a) m := .step h hm .done

theorem lift_error {p : Parse α} {e : ParseError} (h : p c = .error e m) (hm : m.rest <:+ c.rest) :
    Ends (liftM p : Unbounded α) c (.error e) m := .fault h hm

theorem phrase {f : Phrase α} {r : Except ParseError α} (h : Ends (body f) c r m) :
    Ends (phrase f) c r m := by
  cases r with
  | ok a => exact .answer h .done
  | error e => exact .refusal h

theorem phrase_bind {f : Phrase α} (h : Ends (body f >>= g) c r m) : Ends (Unbounded.phrase f >>= g) c r m := by
  obtain ⟨a, m', ha, hg⟩ | ⟨e, he, rfl⟩ := h.of_bind
  · exact ha.phrase.bind hg
  · exact he.phrase.bind_error

/-- A step that only looks. -/
theorem look {p : Parse α} {a : α} (h : p c = .ok a c) (hg : Ends (g a) c r m) : Ends (liftM p >>= g) c r m :=
  (lift h (List.suffix_refl _)).bind hg

end Ends

section

variable {α β : Type} {k k' : Nat} {c : Cursor} {q : Unbounded α} {p : Parse α} {g : α → Unbounded β} {f : α → Parse β}

namespace EndsAs

theorem bind (hq : EndsAs k c q p)
    (hg : ∀ a c', c'.rest.length + k ≤ c.rest.length → EndsAs (k' - k) c' (g a) (f a)) :
    EndsAs k' c (q >>= g) (p >>= f) := by
  constructor
  · intro b m h
    obtain ⟨a, c₁, ha, hb⟩ := bind_ok.1 h
    obtain ⟨hends, hlen⟩ := hq.ok a c₁ ha
    obtain ⟨hrest, hlen'⟩ := (hg a c₁ hlen).ok b m hb
    exact ⟨hends.bind hrest, by omega⟩
  · intro e m h
    obtain he | ⟨a, c₁, ha, he⟩ := bind_error.1 h
    · exact (hq.error e m he).bind_error
    · obtain ⟨hends, hlen⟩ := hq.ok a c₁ ha
      exact hends.bind ((hg a c₁ hlen).error e m he)

theorem pure {a : α} : EndsAs 0 c (Pure.pure a) (Pure.pure a) := by
  constructor
  · intro b m h
    obtain ⟨rfl, rfl⟩ := pure_ok.1 h
    exact ⟨.done, Nat.le_refl _⟩
  · intro e m h
    exact absurd h pure_error

theorem mono (h : EndsAs k c q p) (hk : k' ≤ k) : EndsAs k' c q p :=
  ⟨fun a m ha => ⟨(h.ok a m ha).1, Nat.le_trans (Nat.add_le_add_left hk _) (h.ok a m ha).2⟩, h.error⟩

/-- What is asked for is read in its turn. -/
theorem phrase {f : Phrase α} (h : EndsAs k c (body f) p) : EndsAs k c (phrase f) p :=
  ⟨fun a m ha => ⟨(h.ok a m ha).1.phrase, (h.ok a m ha).2⟩, fun e m he => (h.error e m he).phrase⟩

theorem phrase_bind {f : Phrase α} {p : Parse β} (h : EndsAs k c (body f >>= g) p) :
    EndsAs k c (Unbounded.phrase f >>= g) p :=
  ⟨fun a m ha => ⟨(h.ok a m ha).1.phrase_bind, (h.ok a m ha).2⟩, fun e m he => (h.error e m he).phrase_bind⟩

theorem ite {P : Prop} [Decidable P] {q' : Unbounded α} {p' : Parse α} (h : EndsAs k c q p) (h' : EndsAs k c q' p') :
    EndsAs k c (if P then q else q') (if P then p else p') := by
  split
  · exact h
  · exact h'

/-- A step ends, and takes what it is known to take. -/
theorem step (seen : List Token) {Q : List Token → α → Prop} (h : AdvancesAt seen k c p Q) :
    EndsAs k c (liftM p) p := by
  constructor
  · intro a m ha
    obtain ⟨ts, hts, hk, -⟩ := h.ok a m ha
    refine ⟨.lift ha ⟨ts, hts.symm⟩, ?_⟩
    rw [hts, List.length_append]
    omega
  · intro e m he
    obtain ⟨ts, hts, -⟩ := h.error e m he
    exact .lift_error he ⟨ts, hts.symm⟩

theorem fail {fault : ParseFault} {span : Span} : EndsAs k c (liftM (Parse.fail fault span : Parse α))
    (Parse.fail fault span) := by
  constructor
  · intro a m h
    exact absurd h fail_ok
  · intro e m h
    cases h
    exact .lift_error rfl (List.suffix_refl _)

/-- A step that only looks. -/
theorem look {s : Parse α} {a : α} {p : Parse β} (hs : s c = .ok a c) (h : EndsAs k c (g a) p) :
    EndsAs k c (liftM s >>= g) p :=
  ⟨fun b m hb => ⟨.look hs (h.ok b m hb).1, (h.ok b m hb).2⟩, fun e m he => .look hs (h.error e m he)⟩

/-- It tells both readings the same. -/
theorem look_both {s : Parse α} {a : α} (hs : s c = .ok a c) (h : EndsAs k c (g a) (f a)) :
    EndsAs k c (liftM s >>= g) (s >>= f) := by
  have hsf : (s >>= f) c = f a c := Outcome.bind_of_ok hs
  refine look hs ⟨fun b m hb => ?_, fun e m he => ?_⟩
  · exact h.ok b m (hsf ▸ hb)
  · exact h.error e m (hsf ▸ he)

theorem bind_fail {fault : ParseFault} {span : Span} (h : EndsAs k c q (Parse.fail fault span)) :
    EndsAs k' c (q >>= g) (Parse.fail fault span) :=
  ⟨fun _ _ hb => absurd hb fail_ok, fun _ _ he => by
    cases he
    exact (h.error _ _ rfl).bind_error⟩

theorem peek {g : Option TokenKind → Unbounded β} {f : Option TokenKind → Parse β}
    (h : EndsAs k c (g c.kind?) (f c.kind?)) : EndsAs k c (liftM Parse.peek >>= g) (Parse.peek >>= f) :=
  .look_both rfl h

theorem peekSecond {g : Option TokenKind → Unbounded β} {f : Option TokenKind → Parse β}
    (h : EndsAs k c (g c.second?) (f c.second?)) :
    EndsAs k c (liftM Parse.peekSecond >>= g) (Parse.peekSecond >>= f) := .look_both rfl h

theorem sees {kind : TokenKind} {g : Bool → Unbounded β} {f : Bool → Parse β}
    (h : EndsAs k c (g (c.kind? == some kind)) (f (c.kind? == some kind))) :
    EndsAs k c (liftM (Parse.sees kind) >>= g) (Parse.sees kind >>= f) := .look_both rfl h

theorem place {other : Span} {g : Span → Unbounded β} {f : Span → Parse β} (h : ∀ s, EndsAs k c (g s) (f s)) :
    EndsAs k c (liftM (Parse.place other) >>= g) (Parse.place other >>= f) := .look_both rfl (h _)

theorem fail_here {fault : ParseFault} {other : Span} :
    EndsAs k c (do Parse.fail fault (← Parse.place other) : Unbounded α) (do Parse.fail fault (← Parse.place other)) :=
  .place fun _ => .fail

theorem next : EndsAs 1 c (liftM Parse.next) Parse.next := by
  obtain ⟨rest, last⟩ := c
  cases rest with
  | nil =>
    constructor
    · intro t m h
      exact absurd h endOfInput_ok
    · intro e m h
      cases h
      exact .lift_error rfl (List.suffix_refl _)
  | cons t ts =>
    constructor
    · intro t' m h
      have hnext := h
      cases next_ok.1 h
      exact ⟨.lift hnext (List.suffix_cons _ _), Nat.le_refl _⟩
    · intro e m h
      cases h

theorem expect {kind : TokenKind} (hne : kind ≠ .eof) : EndsAs 1 c (liftM (Parse.expect kind)) (Parse.expect kind) :=
  .step [] (AdvancesAt.expect hne)

theorem ident : EndsAs 1 c (liftM Parse.ident) Parse.ident := .step [] AdvancesAt.ident

theorem skip {kind : TokenKind} (hk : c.kind? = some kind) (hne : kind ≠ .eof) :
    EndsAs 1 c (liftM Parse.skip) Parse.skip :=
  .step [] (AdvancesAt.skip hk hne)

theorem eat {kind : TokenKind} (hne : kind ≠ .eof) : EndsAs 0 c (liftM (Parse.eat kind)) (Parse.eat kind) :=
  .step [] (AdvancesAt.eat hne)

theorem skipNewlines : EndsAs 0 c (liftM Parse.skipNewlines) Parse.skipNewlines :=
  .step [] AdvancesAt.skipNewlines

/-- The end of its line closes a statement. -/
theorem closing {a : α} : EndsAs 0 c (do Parse.lineEnd; return a : Unbounded α) (do Parse.lineEnd; return a) :=
  EndsAs.bind (.step [] AdvancesAt.lineEnd) fun _ _ _ => .pure

end EndsAs

end

/-! ## Where no token is left -/

/-- Where no token is left, the reading fails for want of one. -/
def Wants {α : Type} (q : Unbounded α) : Prop :=
  ∀ last, Ends q ⟨[], last⟩ (.error ⟨.endOfInput, last⟩) ⟨[], last⟩

section

variable {α β : Type} {k : Nat} {c : Cursor} {q : Unbounded α}

theorem Wants.bind {g : α → Unbounded β} (hq : Wants q) : Wants (q >>= g) := fun last => (hq last).bind_error

theorem Wants.phrase {f : Phrase α} (h : Wants (body f)) : Wants (phrase f) := fun last => (h last).phrase

theorem Wants.look {s : Parse α} {a : α} {g : α → Unbounded β} (hs : ∀ last, s ⟨[], last⟩ = .ok a ⟨[], last⟩)
    (h : Wants (g a)) : Wants (liftM s >>= g) := fun last => .look (hs last) (h last)

theorem Wants.peek {g : Option TokenKind → Unbounded β} (h : Wants (g none)) : Wants (liftM Parse.peek >>= g) :=
  .look (fun _ => rfl) h

theorem Wants.sees {kind : TokenKind} {g : Bool → Unbounded β} (h : Wants (g false)) :
    Wants (liftM (Parse.sees kind) >>= g) := .look (fun _ => rfl) h

theorem Wants.next : Wants (liftM Parse.next) := fun _ => .lift_error rfl (List.suffix_refl _)

theorem Wants.ident : Wants (liftM Parse.ident) := fun _ => .lift_error rfl (List.suffix_refl _)

theorem EndsAs.empty (hq : Wants q) (hc : c.rest.length ≤ 0) : EndsAs k c q Parse.endOfInput := by
  obtain ⟨rest, last⟩ := c
  obtain rfl := List.eq_nil_of_length_eq_zero (Nat.le_zero.1 hc)
  constructor
  · intro a m h
    exact absurd h endOfInput_ok
  · intro e m h
    cases h
    exact hq last

end

/-! ## Lists -/

section

variable {α : Type} {n : Nat} {element : Unbounded α} {bounded : Parse α}

/-- Elements up to the closing token, with or without a comma behind the last one. -/
theorem closedBy_ends {close : TokenKind} {items : Phrase (List α)} (hitems : body items = do
      if ← sees close then return []
      let a ← element
      if ← eat (.symbol .comma) then return a :: (← phrase items)
      return [a]) (hw : Wants element) (he : EndsWithin n 1 element bounded) {m : Nat} (hm : n ≤ m) :
    EndsWithin n 0 (phrase items) (closedBy close bounded m) := by
  have hfrom : ∀ m c, c.rest.length ≤ m → c.rest.length ≤ n → EndsAs 1 c (do
      let a ← element
      if ← eat (.symbol .comma) then return a :: (← phrase items)
      return [a]) (commaSeparated bounded (return !(← sees close)) m) := by
    intro m
    induction m with
    | zero => exact fun c hcm _ => .empty hw.bind hcm
    | succ m ih =>
      intro c hcm hcn
      unfold commaSeparated
      refine (he c hcn).bind fun a c₁ h₁ => (EndsAs.eat (by simp)).bind fun comma c₂ h₂ => ?_
      cases comma with
      | false => exact .pure
      | true =>
        refine .phrase_bind ?_
        rw [hitems]
        simp only [if_true, bind_assoc]
        refine .sees ?_
        cases c₂.kind? == some close with
        | true => exact .pure
        | false => exact (ih c₂ (by omega) (by omega)).bind fun _ _ _ => .pure
  intro c hc
  refine .phrase ?_
  rw [hitems]
  refine .sees ?_
  split
  · exact .pure
  · exact (hfrom m c (by omega) hc).mono (Nat.zero_le 1)

/-- Elements, with none behind a last comma. -/
theorem commaSeparated_ends {items : Phrase (List α)} (hitems : body items = do
      let a ← element
      if ← eat (.symbol .comma) then return a :: (← phrase items)
      return [a]) (hw : Wants element) (he : EndsWithin n 1 element bounded) : ∀ m c, c.rest.length ≤ m →
    c.rest.length ≤ n → EndsAs 1 c (phrase items) (commaSeparated bounded (return true) m)
  | 0, c, hcm, _ => by
    refine .phrase ?_
    rw [hitems]
    exact .empty hw.bind hcm
  | m + 1, c, hcm, hcn => by
    refine .phrase ?_
    rw [hitems]
    unfold commaSeparated
    refine (he c hcn).bind fun a c₁ h₁ => (EndsAs.eat (by simp)).bind fun comma c₂ h₂ => ?_
    cases comma with
    | false => exact .pure
    | true => exact (commaSeparated_ends hitems hw he m c₂ (by omega) (by omega)).bind fun _ _ _ => .pure

end

/-! ## Expressions and types -/

/-- **Every level begins with a token.** -/
theorem level_wants : ∀ l, Wants (level l)
  | .suffix => .phrase Wants.next.bind.bind
  | .unary => .phrase (.peek (level_wants .suffix))
  | .comparison => .phrase (level_wants .sum).bind
  | .lowest => .phrase (level_wants .or).bind
  | .or => .phrase (level_wants .and).bind
  | .and => .phrase (level_wants .comparison).bind
  | .sum => .phrase (level_wants .product).bind
  | .product => .phrase (level_wants .unary).bind
termination_by l => Prec.suffix.rank - l.rank
decreasing_by all_goals decide

theorem typeRef_wants : Wants typeRef := .phrase (.sees Wants.ident.bind)

theorem templateArg_wants : Wants templateArg := .peek (level_wants .sum).bind

/-- The phrases inside of another one end as the bounded ones do. -/
structure InnerEnds (n : Nat) (inner : Grammar.Inner) : Prop where
  expr : EndsWithin n 1 (level .lowest) inner.expr
  sum : EndsWithin n 1 (level .sum) inner.sum
  unary : EndsWithin n 1 (level .unary) inner.unary
  typeRef : EndsWithin n 1 typeRef inner.typeRef

variable {n m : Nat} {inner : Grammar.Inner}

theorem skip_ends {c : Cursor} {op? : TokenKind → Option BinOp} {op : BinOp} (hop : op? .eof = none)
    (h : c.kind?.bind op? = some op) : EndsAs 1 c (liftM Parse.skip) Parse.skip := by
  obtain ⟨kind, hkind, hkop⟩ := Option.bind_eq_some_iff.1 h
  refine .skip hkind ?_
  rintro rfl
  cases hop.symm.trans hkop

theorem joined_ends {l : Prec} {operand : Parse Expr} (ho : EndsWithin n 1 (level l.tighter) operand) :
    ∀ m {left c}, c.rest.length ≤ m → c.rest.length ≤ n →
      EndsAs 0 c (joined l left) (Grammar.chainFrom (Grammar.opAt l) operand m left)
  | 0, left, ⟨rest, last⟩, hcm, _ => by
    obtain rfl := List.eq_nil_of_length_eq_zero (Nat.le_zero.1 hcm)
    exact .phrase (.look rfl .pure)
  | m + 1, left, c, hcm, hcn => by
    unfold Grammar.chainFrom
    refine .phrase (.peek ?_)
    cases hop : c.kind?.bind (Grammar.opAt l) with
    | none => exact .pure
    | some op =>
      have hend : Grammar.opAt l .eof = none := by cases l <;> rfl
      refine (skip_ends hend hop).bind fun _ c₁ h₁ => (ho c₁ (by omega)).bind fun right c₂ h₂ => ?_
      exact joined_ends ho m (by omega) (by omega)

/-- No operator stands that loosely. -/
theorem joined_lowest (e : Expr) (c : Cursor) : EndsAs 0 c (joined .lowest e) (pure e) := by
  refine .phrase (.look rfl ?_)
  cases c.kind? with
  | none => exact .pure
  | some _ => exact .pure

theorem chain_ends {l : Prec} {operand : Parse Expr} (ho : EndsWithin n 1 (level l.tighter) operand) (hm : n ≤ m) :
    EndsWithin n 1 (do joined l (← level l.tighter) : Unbounded Expr) (Grammar.chain (Grammar.opAt l) operand m) :=
  fun c hc =>
  (ho c hc).bind fun _ _ _ => joined_ends ho m (by omega) (by omega)

theorem templateArg_ends (hi : InnerEnds n inner) : EndsWithin n 1 templateArg (Grammar.templateArg inner) := by
  intro c hc
  have hvalue : EndsAs 1 c (do return TypeArg.value (← level .sum)) (do return TypeArg.value (← inner.sum)) :=
    (hi.sum c hc).bind fun _ _ _ => .pure
  have htype : EndsAs 1 c (do return TypeArg.type (← typeRef)) (do return TypeArg.type (← inner.typeRef)) :=
    (hi.typeRef c hc).bind fun _ _ _ => .pure
  unfold templateArg Grammar.templateArg
  refine .peek ?_
  cases c.kind? with
  | none => exact hvalue
  | some kind =>
    cases kind with
    | name _ =>
      refine .peekSecond ?_
      simp only [pure_bind]
      split
      · exact hvalue
      · exact htype
    | symbol s =>
      cases s with
      | lbracket => exact htype
      | _ => exact hvalue
    | _ => exact hvalue

theorem templateArgs_ends (hi : InnerEnds n inner) (hm : n ≤ m) :
    EndsWithin n 0 templateArgs (Grammar.templateArgs inner m) := by
  intro c hc
  refine .sees ?_
  split
  · exact .pure
  · have hargs := commaSeparated_ends (rfl : body .someArgs = _) templateArg_wants (templateArg_ends hi) m c (by omega) hc
    exact hargs.mono (Nat.zero_le 1)

theorem typeRefWith_ends (hi : InnerEnds n inner) :
    EndsWithin (n + 1) 1 typeRef (Grammar.typeRefWith (n + 1) inner) := by
  intro c hc
  refine .phrase (.sees ?_)
  split
  · refine (EndsAs.expect (by simp)).bind fun left c₁ h₁ => ?_
    refine (hi.typeRef c₁ (by omega)).bind fun elem c₂ h₂ => ?_
    refine (EndsAs.expect (by simp)).bind fun _ c₃ h₃ => ?_
    refine (hi.expr c₃ (by omega)).bind fun len c₄ h₄ => ?_
    exact (EndsAs.expect (by simp)).bind fun _ _ _ => .pure
  · refine EndsAs.ident.bind fun name c₁ h₁ => (EndsAs.eat (by simp)).bind fun b c₂ h₂ => ?_
    split
    · refine (templateArgs_ends hi (Nat.le_succ n) c₂ (by omega)).bind fun args c₃ h₃ => ?_
      exact (EndsAs.expect (by simp)).bind fun _ _ _ => .pure
    · exact .pure

theorem exprs_ends (hi : InnerEnds n inner) (close : TokenKind) (hm : n ≤ m) :
    EndsWithin n 0 (exprs close) (closedBy close inner.expr m) :=
  closedBy_ends rfl (level_wants .lowest) hi.expr hm

theorem primary_ends (hi : InnerEnds n inner) :
    EndsWithin (n + 1) 1 primary (Grammar.primary (n + 1) inner) := by
  intro c hc
  refine EndsAs.next.bind fun t c₁ h₁ => ?_
  have hclosed : ∀ (close : Symbol) (give : Span → List Expr → Expr), EndsAs 0 c₁ (do
        let items ← exprs (.symbol close)
        return give (t.span.join (← expect (.symbol close))) items) (do
        let items ← closedBy (.symbol close) inner.expr (n + 1)
        return give (t.span.join (← expect (.symbol close))) items) := by
    intro close give
    refine (exprs_ends hi _ (Nat.le_succ n) c₁ (by omega)).bind fun items c₂ h₂ => ?_
    exact (EndsAs.expect (by simp)).bind fun _ _ _ => .pure
  obtain ⟨kind, span⟩ := t
  cases kind with
  | name _ | char _ | text _ => exact .pure
  | int v => exact .step [⟨.int v, span⟩] (Grammar.integer_advances (.of_mem (by simp)))
  | keyword k =>
    cases k with
    | trueWord | falseWord => exact .pure
    | _ => exact .fail
  | symbol s =>
    cases s with
    | lbrace => exact hclosed .rbrace .list
    | lbracket => exact hclosed .rbracket .array
    | lparen =>
      refine (hi.expr c₁ (by omega)).bind fun e c₂ h₂ => ?_
      exact (EndsAs.expect (by simp)).bind fun _ _ _ => .pure
    | _ => exact .fail
  | newline | indent | dedent | eof => exact .fail

theorem literalFields_ends (hi : InnerEnds n inner) {opening : Span} : ∀ m {c}, c.rest.length ≤ m →
    c.rest.length ≤ n + 1 → EndsAs 1 c (literalFields opening) (Grammar.literalFields inner opening m)
  | 0, c, hcm, _ => by
    exact .empty (.phrase (.peek Wants.ident.bind)) hcm
  | m + 1, c, hcm, hcn => by
    unfold Grammar.literalFields
    refine .phrase (.peek ?_)
    generalize c.kind? = kind?
    -- Both readings branch alike, whether or not Lean takes the two matches for one.
    repeat' first | contradiction | split
    · exact (EndsAs.expect (by simp)).bind fun _ _ _ => .pure
    · exact .fail
    · refine EndsAs.ident.bind fun key c₁ h₁ => ?_
      refine (EndsAs.expect (by simp)).bind fun _ c₂ h₂ => ?_
      refine (hi.expr c₂ (by omega)).bind fun value c₃ h₃ => .peek ?_
      have hrest : ∀ {c}, c.rest.length ≤ c₃.rest.length → EndsAs 0 c
          (literalFields opening >>= fun r => Pure.pure ((key, value) :: r.1, r.2))
          (Grammar.literalFields inner opening m >>= fun r => Pure.pure ((key, value) :: r.1, r.2)) := fun h₄ =>
        (literalFields_ends hi m (by omega) (by omega)).bind fun _ _ _ => .pure
      generalize hmark : c₃.kind? = mark?
      dsimp only
      repeat' first | contradiction | split
      · exact (EndsAs.skip hmark (by simp)).bind fun _ c₄ h₄ => hrest (by omega)
      · exact hrest (Nat.le_refl _)
      · exact .place fun _ => (EndsAs.fail (k := 0)).bind fun _ _ h₄ => hrest (by omega)

theorem callOf_ends (hi : InnerEnds n inner) (e : Expr) :
    EndsWithin (n + 1) 1 (callOf e) (Grammar.suffix?.callOf (n + 1) inner e) := by
  intro c hc
  cases e with
  | name span id =>
    have hrest : ∀ generic {c}, c.rest.length ≤ n + 1 → EndsAs 1 c (do
        let _ ← expect (.symbol .lparen)
        let args ← exprs (.symbol .rparen)
        let close ← expect (.symbol .rparen)
        return Expr.call (span.join close) id generic args) (do
        let _ ← expect (.symbol .lparen)
        let args ← closedBy (.symbol .rparen) inner.expr (n + 1)
        let close ← expect (.symbol .rparen)
        return Expr.call (span.join close) id generic args) := by
      intro generic c hc
      refine (EndsAs.expect (by simp)).bind fun _ c₁ h₁ => ?_
      refine (exprs_ends hi _ (Nat.le_succ n) c₁ (by omega)).bind fun args c₂ h₂ => ?_
      exact (EndsAs.expect (by simp)).bind fun _ _ _ => .pure
    unfold callOf Grammar.suffix?.callOf Grammar.call
    refine (EndsAs.eat (by simp)).bind fun path c₁ h₁ => ?_
    dsimp only
    split
    · refine (EndsAs.expect (by simp)).bind fun _ c₂ h₂ => ?_
      refine (templateArgs_ends hi (Nat.le_succ n) c₂ (by omega)).bind fun args c₃ h₃ => ?_
      refine (EndsAs.expect (by simp)).bind fun _ c₄ h₄ => ?_
      simp only [pure_bind]
      exact (hrest args (by omega)).mono (Nat.zero_le 1)
    · simp only [pure_bind]
      exact hrest [] (by omega)
  | _ => exact .fail_here

theorem recordLiteral_ends (hi : InnerEnds n inner) {start : Span} {type : Ident} :
    EndsWithin (n + 1) 1 (recordLiteral start type) (Grammar.recordLiteral (n + 1) inner start type) := by
  intro c hc
  refine (EndsAs.expect (by simp)).bind fun brace c₁ h₁ => ?_
  exact (literalFields_ends hi (n + 1) (by omega) (by omega)).bind fun _ _ _ => .pure

/-- Where a form follows the operand, at least one token of it is taken. -/
theorem suffix_ends (hi : InnerEnds n inner) {e : Expr} {c : Cursor} (hc : c.rest.length ≤ n + 1)
    {g : Option Expr → Unbounded Expr} {f : Option Expr → Parse Expr} (hnone : EndsAs 0 c (g none) (f none))
    (hsome : ∀ e c', c'.rest.length + 1 ≤ c.rest.length → EndsAs 0 c' (g (some e)) (f (some e))) :
    EndsAs 0 c (suffix? e >>= g) (Grammar.suffix? (n + 1) inner e >>= f) := by
  have hform : ∀ {q : Unbounded Expr} {p : Parse Expr}, EndsAs 1 c q p →
      EndsAs 0 c ((do return some (← q)) >>= g) ((do return some (← p)) >>= f) := by
    intro q p hq
    simp only [bind_assoc, pure_bind]
    exact hq.bind fun e c' h => hsome e c' h
  unfold suffix? Grammar.suffix?
  rw [bind_assoc, bind_assoc]
  refine .peek ?_
  cases hk : c.kind? with
  | none => exact hnone
  | some kind =>
    cases kind with
    | symbol s =>
      cases s with
      | lbrace =>
        cases e with
        | name span id => exact hform (recordLiteral_ends hi c hc)
        | _ => exact hnone
      | dot =>
        simp only [bind_assoc, pure_bind]
        refine (EndsAs.skip hk (by simp)).bind fun _ c₁ h₁ => ?_
        exact EndsAs.ident.bind fun _ c₂ h₂ => hsome _ c₂ (by omega)
      | lbracket =>
        simp only [bind_assoc, pure_bind]
        refine (EndsAs.skip hk (by simp)).bind fun _ c₁ h₁ => ?_
        refine (hi.expr c₁ (by omega)).bind fun index c₂ h₂ => ?_
        exact (EndsAs.expect (by simp)).bind fun _ c₃ h₃ => hsome _ c₃ (by omega)
      | pathSep =>
        dsimp only
        rw [bind_assoc, bind_assoc]
        refine .peekSecond ?_
        split
        · exact hform (callOf_ends hi e c hc)
        · exact hnone
      | lparen => exact hform (callOf_ends hi e c hc)
      | _ => exact hnone
    | _ => exact hnone

theorem suffixed_ends (hi : InnerEnds n inner) : ∀ m {e c}, c.rest.length ≤ m → c.rest.length ≤ n + 1 →
    EndsAs 0 c (suffixed e) (Grammar.suffixesFrom (n + 1) inner m e)
  | 0, e, ⟨rest, last⟩, hcm, _ => by
    obtain rfl := List.eq_nil_of_length_eq_zero (Nat.le_zero.1 hcm)
    exact .phrase (.look rfl .pure)
  | m + 1, e, c, hcm, hcn => by
    unfold Grammar.suffixesFrom
    refine .phrase ?_
    exact suffix_ends hi hcn .pure fun e c₁ h₁ => suffixed_ends hi m (by omega) (by omega)

theorem unaryWith_ends (hi : InnerEnds n inner) :
    EndsWithin (n + 1) 1 (level .unary) (Grammar.unaryWith (n + 1) inner) := by
  intro c hc
  have hprefixed : ∀ op, EndsAs 1 c (prefixed op) (Grammar.unaryWith.prefixed inner op) := by
    intro op
    refine EndsAs.next.bind fun t c₁ h₁ => ?_
    exact (hi.unary c₁ (by omega)).bind fun _ _ _ => .pure
  have hsuffix : EndsAs 1 c (level .suffix)
      (Grammar.primary (n + 1) inner >>= Grammar.suffixesFrom (n + 1) inner (n + 1)) := by
    refine .phrase ?_
    exact (primary_ends hi c hc).bind fun e c₁ h₁ => suffixed_ends hi (n + 1) (by omega) (by omega)
  unfold Grammar.unaryWith
  refine .phrase (.peek ?_)
  cases c.kind? with
  | none => exact hsuffix
  | some kind =>
    cases kind with
    | symbol s =>
      cases s with
      | bang => exact hprefixed .not
      | minus => exact hprefixed .neg
      | _ => exact hsuffix
    | _ => exact hsuffix

theorem sumWith_ends (hi : InnerEnds n inner) : EndsWithin (n + 1) 1 (level .sum) (Grammar.sumWith (n + 1) inner) := by
  have hproduct : EndsWithin (n + 1) 1 (level .product)
      (Grammar.chain Grammar.productOp? (Grammar.unaryWith (n + 1) inner) (n + 1)) := fun c hc =>
    .phrase (chain_ends (l := .product) (unaryWith_ends hi) (Nat.le_refl _) c hc)
  exact fun c hc => .phrase (chain_ends (l := .sum) hproduct (Nat.le_refl _) c hc)

theorem comparisonWith_ends (hi : InnerEnds n inner) :
    EndsWithin (n + 1) 1 (level .comparison) (Grammar.comparisonWith (n + 1) inner) := by
  intro c hc
  unfold Grammar.comparisonWith
  refine .phrase ?_
  refine (sumWith_ends hi c hc).bind fun left c₁ h₁ => .peek ?_
  cases hop : c₁.kind?.bind Grammar.comparison? with
  | none => exact .pure
  | some op =>
    refine (skip_ends rfl hop).bind fun _ c₂ h₂ => ?_
    refine (sumWith_ends hi c₂ (by omega)).bind fun right c₃ h₃ => .peek ?_
    cases c₃.kind?.bind Grammar.comparison? with
    | none => exact .pure
    | some _ => exact .fail_here

theorem exprWith_ends (hi : InnerEnds n inner) : EndsWithin (n + 1) 1 expr (Grammar.exprWith (n + 1) inner) := by
  have hand : EndsWithin (n + 1) 1 (level .and)
      (Grammar.chain Grammar.andOp? (Grammar.comparisonWith (n + 1) inner) (n + 1)) := fun c hc =>
    .phrase (chain_ends (l := .and) (comparisonWith_ends hi) (Nat.le_refl _) c hc)
  have hor : EndsWithin (n + 1) 1 (level .or) (Grammar.exprWith (n + 1) inner) := fun c hc =>
    .phrase (chain_ends (l := .or) hand (Nat.le_refl _) c hc)
  intro c hc
  have hlowest : EndsAs 1 c (level .or >>= joined .lowest) (Grammar.exprWith (n + 1) inner >>= pure) :=
    (hor c hc).bind fun e c' _ => joined_lowest e c'
  rw [bind_pure] at hlowest
  exact .phrase hlowest

theorem bounded_ends : ∀ n, InnerEnds n (Grammar.bounded n)
  | 0 => ⟨fun _ => .empty (level_wants _), fun _ => .empty (level_wants _), fun _ => .empty (level_wants _),
      fun _ => .empty typeRef_wants⟩
  | n + 1 =>
    have hi := bounded_ends n
    ⟨exprWith_ends hi, sumWith_ends hi, unaryWith_ends hi, typeRefWith_ends hi⟩

/-! ## Statements -/

theorem expr_ends (n : Nat) : EndsWithin n 1 expr (Grammar.expr n) := (bounded_ends n).expr

theorem typeRef_ends (n : Nat) : EndsWithin n 1 typeRef (Grammar.typeRef n) := (bounded_ends n).typeRef

theorem typeBehind_ends (mark : Symbol) (n : Nat) :
    EndsWithin n 0 (typeBehind mark) (Grammar.typeBehind mark n) := by
  intro c hc
  refine (EndsAs.eat (by simp)).bind fun b c₁ h₁ => ?_
  split
  · exact (typeRef_ends n c₁ (by omega)).bind fun _ _ _ => .pure
  · exact .pure

theorem templateParam_ends (n : Nat) : EndsWithin n 1 templateParam (Grammar.templateParam n) := by
  intro c hc
  refine .sees ?_
  split
  · refine (EndsAs.expect (by simp)).bind fun start c₁ h₁ => EndsAs.ident.bind fun name c₂ h₂ => ?_
    refine (EndsAs.expect (by simp)).bind fun _ c₃ h₃ => ?_
    exact (typeRef_ends n c₃ (by omega)).bind fun _ _ _ => .pure
  · refine EndsAs.ident.bind fun name c₁ h₁ => (EndsAs.eat (by simp)).bind fun b c₂ h₂ => ?_
    split
    · exact EndsAs.ident.bind fun _ _ _ => .pure
    · exact .pure

theorem templateParams_ends (n : Nat) : EndsWithin n 0 templateParams (Grammar.templateParams n) := by
  intro c hc
  have hrest : ∀ {c}, c.rest.length ≤ n → EndsAs 0 c (do
      let params ← someTemplateParams
      let _ ← Parse.expect (.symbol .gt)
      return params) (do
      let params ← commaSeparated (Grammar.templateParam n) (return true) n
      let _ ← Parse.expect (.symbol .gt)
      return params) := by
    intro c hc
    have hwants : Wants templateParam := .sees Wants.ident.bind
    have hparams := commaSeparated_ends (rfl : body .someTemplateParams = _) hwants (templateParam_ends n) n c hc hc
    refine hparams.bind fun params c₁ h₁ => ?_
    exact (EndsAs.expect (by simp)).bind fun _ _ _ => .pure
  refine .sees ?_
  split
  · refine (EndsAs.expect (by simp)).bind fun opening c₁ h₁ => .sees ?_
    dsimp only
    split
    · exact (EndsAs.fail (k := 0)).bind fun _ c₂ h₂ => hrest (by omega)
    · exact hrest (by omega)
  · exact .pure

theorem param_ends (n : Nat) : EndsWithin n 1 param (Grammar.param n) := by
  intro c hc
  refine EndsAs.ident.bind fun name c₁ h₁ => (EndsAs.expect (by simp)).bind fun _ c₂ h₂ => ?_
  refine (EndsAs.eat (by simp)).bind fun mutable c₃ h₃ => ?_
  exact (typeRef_ends n c₃ (by omega)).bind fun _ _ _ => .pure

theorem recordFields_ends (bound : Nat) {opening : Span} : ∀ n {c}, c.rest.length ≤ n → c.rest.length ≤ bound →
    EndsAs 1 c (recordFields opening) (Grammar.recordFields bound opening n)
  | 0, c, hcn, _ => by
    exact .empty (.phrase (.peek (.look (fun _ => rfl) Wants.ident.bind))) hcn
  | n + 1, c, hcn, hcb => by
    unfold Grammar.recordFields
    refine .phrase (.peek ?_)
    generalize c.kind? = kind?
    repeat' first | contradiction | split
    · exact (EndsAs.expect (by simp)).bind fun _ _ _ => .closing
    · exact .fail
    · refine (EndsAs.eat (by simp)).bind fun hidden c₁ h₁ => EndsAs.ident.bind fun name c₂ h₂ => ?_
      refine (EndsAs.expect (by simp)).bind fun _ c₃ h₃ => ?_
      refine (typeRef_ends bound c₃ (by omega)).bind fun type c₄ h₄ => .peek ?_
      have hrest : ∀ (field : RecordField) {c}, c.rest.length ≤ c₄.rest.length → EndsAs 0 c
          (recordFields opening >>= fun r => Pure.pure (field :: r.1, r.2))
          (Grammar.recordFields bound opening n >>= fun r => Pure.pure (field :: r.1, r.2)) := fun _ _ h₅ =>
        (recordFields_ends bound n (by omega) (by omega)).bind fun _ _ _ => .pure
      generalize hmark : c₄.kind? = mark?
      dsimp only
      repeat' first | contradiction | split
      · exact (EndsAs.skip hmark (by simp)).bind fun _ c₅ h₅ => hrest _ (by omega)
      · exact hrest _ (Nat.le_refl _)
      · exact .place fun _ => (EndsAs.fail (k := 0)).bind fun _ _ h₅ => hrest _ (by omega)

theorem typeDef_ends (n : Nat) : EndsWithin n 1 typeDef (Grammar.typeDef n) := by
  intro c hc
  refine (EndsAs.expect (by simp)).bind fun start c₁ h₁ => EndsAs.ident.bind fun name c₂ h₂ => ?_
  refine (templateParams_ends n c₂ (by omega)).bind fun params c₃ h₃ => ?_
  refine (EndsAs.expect (by simp)).bind fun _ c₄ h₄ => .sees ?_
  split
  · cases params with
    | cons p _ => exact .fail
    | nil =>
      refine (EndsAs.expect (by simp)).bind fun _ c₅ h₅ => (EndsAs.expect (by simp)).bind fun brace c₆ h₆ => ?_
      exact (recordFields_ends n n (by omega) (by omega)).bind fun _ _ _ => .pure
  · exact (typeRef_ends n c₄ (by omega)).bind fun _ _ _ => .closing

theorem valDecl_ends (n : Nat) : EndsWithin n 1 valDecl (Grammar.valDecl n) := by
  intro c hc
  refine (EndsAs.expect (by simp)).bind fun start c₁ h₁ => (EndsAs.eat (by simp)).bind fun mutable c₂ h₂ => ?_
  refine EndsAs.ident.bind fun name c₃ h₃ => (typeBehind_ends .colon n c₃ (by omega)).bind fun type c₄ h₄ => ?_
  refine (EndsAs.expect (by simp)).bind fun _ c₅ h₅ => ?_
  exact (expr_ends n c₅ (by omega)).bind fun _ _ _ => .pure

theorem assignment_ends (n : Nat) : EndsWithin n 1 assignment (Grammar.assignment n) := by
  intro c hc
  refine EndsAs.ident.bind fun target c₁ h₁ => (EndsAs.expect (by simp)).bind fun _ c₂ h₂ => ?_
  exact (expr_ends n c₂ (by omega)).bind fun _ _ _ => .closing

theorem returnStmt_ends (n : Nat) : EndsWithin n 1 returnStmt (Grammar.returnStmt n) := by
  intro c hc
  refine (EndsAs.expect (by simp)).bind fun start c₁ h₁ => .peek ?_
  split
  · exact (expr_ends n c₁ (by omega)).bind fun _ _ _ => .closing
  · exact .closing

theorem loopVar_ends (n : Nat) : EndsWithin n 1 loopVar (Grammar.loopVar n) := by
  intro c hc
  refine (EndsAs.expect (by simp)).bind fun start c₁ h₁ => (EndsAs.eat (by simp)).bind fun mutable c₂ h₂ => ?_
  refine EndsAs.ident.bind fun name c₃ h₃ => ?_
  exact (typeBehind_ends .colon n c₃ (by omega)).bind fun _ _ _ => .pure

theorem loopVarAfter_ends (n : Nat) (keyword : Span) :
    EndsWithin n 1 (loopVarAfter keyword) (Grammar.loopVarAfter n keyword) := by
  intro c hc
  refine .sees ?_
  split
  · exact (loopVar_ends n c hc).bind fun _ _ _ => .pure
  · exact .fail_here

theorem expansionHead_ends (n : Nat) (keyword : Span) :
    EndsWithin n 1 (expansionHead keyword) (Grammar.expansionHead n keyword) := by
  intro c hc
  refine .sees ?_
  split
  · refine (loopVar_ends n c hc).bind fun r c₁ h₁ => (EndsAs.eat (by simp)).bind fun b c₂ h₂ => ?_
    split
    · refine (expr_ends n c₂ (by omega)).bind fun e c₃ h₃ => (EndsAs.expect (by simp)).bind fun _ c₄ h₄ => ?_
      exact (loopVarAfter_ends n keyword c₄ (by omega)).bind fun _ _ _ => .pure
    · exact .pure
  · refine (expr_ends n c hc).bind fun e c₁ h₁ => (EndsAs.expect (by simp)).bind fun _ c₂ h₂ => ?_
    exact (loopVarAfter_ends n keyword c₂ (by omega)).bind fun _ _ _ => .pure

theorem stmt_empty {last : Span} : EndsAs 1 ⟨[], last⟩ stmt (Parse.fail .expectedStatement ⟨0, 0⟩) :=
  .phrase (.look rfl .fail)

section

variable {bounded : Parse Stmt} {c : Cursor}

theorem blockStmts_ends (hs : EndsWithin n 1 stmt bounded) {opening : Span} : ∀ m {c}, c.rest.length ≤ m →
    c.rest.length ≤ n → EndsAs 1 c (blockStmts opening) (Grammar.blockStmts bounded opening m)
  | 0, ⟨rest, last⟩, hcm, _ => by
    obtain rfl := List.eq_nil_of_length_eq_zero (Nat.le_zero.1 hcm)
    exact .phrase (.look rfl (.look rfl stmt_empty.bind_fail))
  | m + 1, c, hcm, hcn => by
    unfold Grammar.blockStmts
    refine .phrase ?_
    refine EndsAs.skipNewlines.bind fun _ c₁ h₁ => .peek ?_
    generalize c₁.kind? = kind?
    repeat' first | contradiction | split
    · exact (EndsAs.expect (by simp)).bind fun _ _ _ => .pure
    · exact .fail
    · refine (hs c₁ (by omega)).bind fun s c₂ h₂ => ?_
      exact ((blockStmts_ends hs m (by omega) (by omega)).mono (Nat.zero_le 1)).bind fun _ _ _ => .pure

theorem block_ends (hs : EndsWithin n 1 stmt bounded) : EndsWithin (n + 1) 1 block (Grammar.block (n + 1) bounded) := by
  intro c hc
  refine (EndsAs.expect (by simp)).bind fun _ c₁ h₁ => (EndsAs.expect (by simp)).bind fun opening c₂ h₂ => ?_
  exact (blockStmts_ends hs (n + 1) (by omega) (by omega)).bind fun _ _ _ => .pure

theorem cellDef_ends (hs : EndsWithin n 1 stmt bounded) :
    EndsWithin (n + 1) 1 cellDef (Grammar.cellDef (n + 1) bounded) := by
  intro c hc
  have hparams : EndsWithin (n + 1) 0 params (closedBy (.symbol .rparen) (Grammar.param (n + 1)) (n + 1)) :=
    closedBy_ends rfl Wants.ident.bind (param_ends (n + 1)) (Nat.le_refl _)
  refine (EndsAs.expect (by simp)).bind fun start c₁ h₁ => EndsAs.ident.bind fun name c₂ h₂ => ?_
  refine (templateParams_ends (n + 1) c₂ (by omega)).bind fun params c₃ h₃ => ?_
  refine (EndsAs.expect (by simp)).bind fun _ c₄ h₄ => (hparams c₄ (by omega)).bind fun args c₅ h₅ => ?_
  refine (EndsAs.expect (by simp)).bind fun _ c₆ h₆ => ?_
  refine (typeBehind_ends .arrow (n + 1) c₆ (by omega)).bind fun ret c₇ h₇ => ?_
  refine (EndsAs.expect (by simp)).bind fun _ c₈ h₈ => ?_
  exact (block_ends hs c₈ (by omega)).bind fun _ _ _ => .pure

theorem conditional_ends (hs : EndsWithin n 1 stmt bounded) :
    EndsWithin (n + 1) 1 conditional (Grammar.conditional (n + 1) bounded) := by
  intro c hc
  refine (EndsAs.expect (by simp)).bind fun start c₁ h₁ => ?_
  refine (expr_ends (n + 1) c₁ (by omega)).bind fun cond c₂ h₂ => ?_
  refine (EndsAs.expect (by simp)).bind fun _ c₃ h₃ => ?_
  refine (block_ends hs c₃ (by omega)).bind fun yes c₄ h₄ => ?_
  refine EndsAs.skipNewlines.bind fun _ c₅ h₅ => (EndsAs.eat (by simp)).bind fun b c₆ h₆ => ?_
  split
  · refine (EndsAs.expect (by simp)).bind fun _ c₇ h₇ => ?_
    exact (block_ends hs c₇ (by omega)).bind fun _ _ _ => .pure
  · exact .pure

theorem whileLoop_ends (hs : EndsWithin n 1 stmt bounded) :
    EndsWithin (n + 1) 1 whileLoop (Grammar.whileLoop (n + 1) bounded) := by
  intro c hc
  refine (EndsAs.expect (by simp)).bind fun start c₁ h₁ => ?_
  refine (expr_ends (n + 1) c₁ (by omega)).bind fun cond c₂ h₂ => ?_
  refine (EndsAs.expect (by simp)).bind fun _ c₃ h₃ => ?_
  exact (block_ends hs c₃ (by omega)).bind fun _ _ _ => .pure

theorem expansion_ends (hs : EndsWithin n 1 stmt bounded) :
    EndsWithin (n + 1) 1 expansion (Grammar.expansion (n + 1) bounded) := by
  intro c hc
  refine (EndsAs.expect (by simp)).bind fun keyword c₁ h₁ => ?_
  refine (expansionHead_ends (n + 1) keyword c₁ (by omega)).bind fun head c₂ h₂ => ?_
  refine (EndsAs.expect (by simp)).bind fun _ c₃ h₃ => ?_
  refine (expr_ends (n + 1) c₃ (by omega)).bind fun range c₄ h₄ => ?_
  refine (EndsAs.expect (by simp)).bind fun _ c₅ h₅ => ?_
  exact (block_ends hs c₅ (by omega)).bind fun _ _ _ => .pure

theorem stmtWith_ends (hs : EndsWithin n 1 stmt bounded) :
    EndsWithin (n + 1) 1 stmt (Grammar.stmtWith (n + 1) bounded) := by
  intro c hc
  have hmark : ∀ (mark : Keyword) (give : Span → Stmt), EndsAs 1 c (do
      let place ← expect (.keyword mark)
      lineEnd
      return give place) (do
      let place ← expect (.keyword mark)
      lineEnd
      return give place) := fun _ _ =>
    (EndsAs.expect (by simp)).bind fun _ _ _ => .closing
  have hother : ∀ (named : Bool) (kind : TokenKind), EndsAs 1 c (do
      if named && (← peekSecond) = some (.symbol .assign) then assignment
      else if Grammar.startsExpr kind then
        let e ← expr
        lineEnd
        return .expr e
      else fail .expectedStatement (← place ⟨0, 0⟩)) (do
      if named && (← peekSecond) = some (.symbol .assign) then Grammar.assignment (n + 1)
      else if Grammar.startsExpr kind then
        let e ← Grammar.expr (n + 1)
        lineEnd
        return .expr e
      else fail .expectedStatement (← place ⟨0, 0⟩)) := by
    intro named kind
    refine .peekSecond (.ite (assignment_ends (n + 1) c hc) (.ite ?_ .fail_here))
    exact (expr_ends (n + 1) c hc).bind fun _ _ _ => .closing
  unfold Grammar.stmtWith
  refine .phrase (.peek ?_)
  cases c.kind? with
  | none => exact .fail
  | some kind =>
    cases kind with
    | keyword k =>
      cases k with
      | trait => exact .step [] (Grammar.traitDef_advances (n + 1) [] c hc)
      | type => exact typeDef_ends (n + 1) c hc
      | val => exact (valDecl_ends (n + 1) c hc).bind fun _ _ _ => .closing
      | cell => exact cellDef_ends hs c hc
      | ifWord => exact conditional_ends hs c hc
      | whileWord => exact whileLoop_ends hs c hc
      | expand => exact expansion_ends hs c hc
      | breakWord => exact hmark .breakWord .leave
      | continueWord => exact hmark .continueWord .next
      | returnWord => exact returnStmt_ends (n + 1) c hc
      | assert =>
        refine (EndsAs.expect (by simp)).bind fun start c₁ h₁ => ?_
        exact (expr_ends (n + 1) c₁ (by omega)).bind fun _ _ _ => .closing
      | _ => exact hother _ _
    | _ => exact hother _ _

theorem stmt_ends : ∀ n, EndsWithin n 1 stmt (Grammar.stmt n)
  | 0 => fun ⟨rest, last⟩ hc => by
    obtain rfl := List.eq_nil_of_length_eq_zero (Nat.le_zero.1 hc)
    exact stmt_empty
  | n + 1 => stmtWith_ends (stmt_ends n)

end

/-! ## Whole texts -/

theorem program_ends (bound : Nat) : ∀ n {c}, c.rest.length ≤ n → c.rest.length ≤ bound →
    EndsAs 0 c program (Grammar.programStmts bound n)
  | 0, ⟨rest, last⟩, hcn, _ => by
    obtain rfl := List.eq_nil_of_length_eq_zero (Nat.le_zero.1 hcn)
    exact .phrase (.look rfl (.look rfl stmt_empty.bind_fail))
  | n + 1, c, hcn, hcb => by
    unfold Grammar.programStmts
    refine .phrase ?_
    refine EndsAs.skipNewlines.bind fun _ c₁ h₁ => .peek ?_
    generalize c₁.kind? = kind?
    repeat' first | contradiction | split
    · exact .pure
    · refine (stmt_ends bound c₁ (by omega)).bind fun s c₂ h₂ => ?_
      exact (program_ends bound n (by omega) (by omega)).bind fun _ _ _ => .pure

theorem exprToEnd_ends (n : Nat) : EndsWithin n 1 exprToEnd (Grammar.exprToEnd n) := by
  intro c hc
  refine (expr_ends n c hc).bind fun e c₁ h₁ => EndsAs.skipNewlines.bind fun _ c₂ h₂ => .sees ?_
  split
  · exact .pure
  · exact .fail_here

theorem programStmts_advances (bound : Nat) : ∀ n seen c, c.rest.length ≤ n → c.rest.length ≤ bound →
    AdvancesAt seen 0 c (Grammar.programStmts bound n) Any
  | 0, _, _, hcn, _ =>
    (AdvancesAt.fail (k := 0) (Q := Any) fun hne =>
      absurd (List.eq_nil_of_length_eq_zero (Nat.le_zero.1 hcn)) hne).bind fun _ _ _ _ _ _ => .pure trivial
  | n + 1, seen, c, hcn, hcb => by
    unfold Grammar.programStmts
    refine AdvancesAt.skipNewlines.bind fun _ seen₁ c₁ _ h₁ _ => .peek ?_
    split
    · exact .pure trivial
    · refine (Grammar.stmt_advances bound seen₁ c₁ (by omega)).bind fun s seen₂ c₂ _ h₂ _ => ?_
      exact (programStmts_advances bound n seen₂ c₂ (by omega) (by omega)).bind fun _ _ _ _ _ _ => .pure trivial

theorem exprToEnd_advances (n : Nat) : Advances n 1 (Grammar.exprToEnd n) Any := by
  intro seen c hc
  refine (Grammar.expr_advances n seen c hc).bind fun e seen₁ c₁ _ h₁ _ => ?_
  refine AdvancesAt.skipNewlines.bind fun _ seen₂ c₂ _ h₂ _ => .sees ?_
  split
  · exact .pure trivial
  · exact .fail_here

/-! ## How far -/

/-- **From the cursor on, the unbounded reading ends**, and as the parser does.  A success has taken at least so many
tokens, none of them an end mark; a fault may have taken an end mark, and then points at it. -/
structure Proceeds {α : Type} (k : Nat) (c : Cursor) (q : Unbounded α) (p : Parse α) : Prop where
  ends : ∃ r m, Ends q c r m
  ok : ∀ a m, Ends q c (.ok a) m ↔ p c = .ok a m
  error : ∀ e m, Ends q c (.error e) m ↔ p c = .error e m
  takes : ∀ a m, Ends q c (.ok a) m →
    ∃ taken, c.rest = taken ++ m.rest ∧ k ≤ taken.length ∧ ∀ t ∈ taken, t.kind ≠ .eof
  blames : ∀ e m, Ends q c (.error e) m →
    ∃ taken, c.rest = taken ++ m.rest ∧ ∀ t ∈ taken, t.kind = .eof → e.span = t.span

section

variable {α : Type} {k : Nat} {c : Cursor} {q : Unbounded α}

namespace EndsAs

variable {p : Parse α}

theorem ends (h : EndsAs k c q p) : ∃ r m, Ends q c r m := by
  cases hp : p c with
  | ok a m => exact ⟨_, m, (h.ok a m hp).1⟩
  | error e m => exact ⟨_, m, h.error e m hp⟩

theorem ok_iff (h : EndsAs k c q p) (a : α) (m : Cursor) : Ends q c (.ok a) m ↔ p c = .ok a m := by
  refine ⟨fun ha => ?_, fun hp => (h.ok a m hp).1⟩
  cases hp : p c with
  | ok a' m' =>
    obtain ⟨heq, rfl⟩ := ha.unique (h.ok a' m' hp).1
    cases heq
    rfl
  | error e m' => cases (ha.unique (h.error e m' hp)).1

theorem error_iff (h : EndsAs k c q p) (e : ParseError) (m : Cursor) :
    Ends q c (.error e) m ↔ p c = .error e m := by
  refine ⟨fun he => ?_, fun hp => h.error e m hp⟩
  cases hp : p c with
  | ok a' m' => cases (he.unique (h.ok a' m' hp).1).1
  | error e' m' =>
    obtain ⟨heq, rfl⟩ := he.unique (h.error e' m' hp)
    cases heq
    rfl

theorem proceeds {k' : Nat} {seen : List Token} {Q : List Token → α → Prop} (h : EndsAs k' c q p)
    (ha : AdvancesAt seen k c p Q) : Proceeds k c q p where
  ends := h.ends
  ok := h.ok_iff
  error := h.error_iff
  takes a m hends := by
    obtain ⟨ts, hts, hk, hmarks, -⟩ := ha.ok a m ((h.ok_iff a m).1 hends)
    exact ⟨ts, hts, hk, hmarks⟩
  blames e m hends := by
    obtain ⟨ts, hts, hmarks, -⟩ := ha.error e m ((h.error_iff e m).1 hends)
    exact ⟨ts, hts, hmarks⟩

theorem gives {p : Nat → Parse α} {tokens : List Token} (h : EndsAs k (.ofTokens tokens) q (p tokens.length))
    (r : Except ParseError α) : Gives q tokens r ↔ Grammar.run p tokens = r := by
  unfold Grammar.run
  constructor
  · rintro ⟨m, hm⟩
    cases r with
    | ok a => rw [(h.ok_iff a m).1 hm]
    | error e => rw [(h.error_iff e m).1 hm]
  · intro hr
    cases hp : p tokens.length (.ofTokens tokens) with
    | ok a m =>
      rw [hp] at hr
      exact ⟨m, hr ▸ (h.ok a m hp).1⟩
    | error e m =>
      rw [hp] at hr
      exact ⟨m, hr ▸ h.error e m hp⟩

end EndsAs

end

/-- **Reading ends**, whatever the tokens are, with what the bounded reading gives and nothing else, and takes what it
is said to take. -/
theorem reading_ends (tokens : List Token) (edition : Option String) (c : Cursor) (spare : Nat) :
    (∀ r, GivesProgram tokens edition r ↔ program? tokens edition = r) ∧
    (∀ r, Gives exprToEnd tokens r ↔ expr? tokens = r) ∧
    (∀ r, Gives expr tokens r ↔ Grammar.run Grammar.expr tokens = r) ∧
    (∀ r, Gives typeRef tokens r ↔ typeRef? tokens = r) ∧
    Proceeds 0 c program (Grammar.programStmts (c.rest.length + spare) (c.rest.length + spare)) ∧
    Proceeds 1 c stmt (Grammar.stmt (c.rest.length + spare)) ∧
    Proceeds 1 c expr (Grammar.expr (c.rest.length + spare)) ∧
    Proceeds 1 c exprToEnd (Grammar.exprToEnd (c.rest.length + spare)) ∧
    Proceeds 1 c typeRef (Grammar.typeRef (c.rest.length + spare)) := by
  have hc : c.rest.length ≤ c.rest.length + spare := Nat.le_add_right _ _
  have hall : (Cursor.ofTokens tokens).rest.length ≤ tokens.length := Nat.le_refl _
  refine ⟨fun r => ?_, ?_, ?_, ?_, ?_, ?_, ?_, ?_, ?_⟩
  · unfold GivesProgram program?
    cases checkEdition edition with
    | error e => exact eq_comm
    | ok _ => exact (program_ends tokens.length tokens.length hall hall).gives r
  · exact (exprToEnd_ends tokens.length _ hall).gives
  · exact (expr_ends tokens.length _ hall).gives
  · exact (typeRef_ends tokens.length _ hall).gives
  · exact (program_ends _ _ hc hc).proceeds (programStmts_advances _ _ [] c hc hc)
  · exact (stmt_ends _ c hc).proceeds (Grammar.stmt_advances _ [] c hc)
  · exact (expr_ends _ c hc).proceeds (Grammar.expr_advances _ [] c hc)
  · exact (exprToEnd_ends _ c hc).proceeds (exprToEnd_advances _ [] c hc)
  · exact (typeRef_ends _ c hc).proceeds (Grammar.typeRef_advances _ [] c hc)

end Unroll.Unbounded
