import Unroll.Proofs.Grammar.Levels
/-!
# What is spelled is read

Tokens that spell an expression are read as that expression, wherever they stop before a token that would take more of
them.  The rules of one level are left-recursive and the reader is a loop, so the induction on a spelling keeps the loop
open: it says that reading a level from the first token comes to going on with the tree behind the last one.
-/
namespace Unroll.Grammar

open Parse Cursor Outcome

/-! ## Reading what is spelled -/

/-- The mark that closes a list: no expression begins with it, none goes on over it, and it is no comma. -/
structure Closes (k : TokenKind) : Prop where
  begins : startsExpr k = false
  grip : grip k = 0
  comma : k ≠ .symbol .comma

theorem closes_rparen : Closes (.symbol .rparen) := ⟨rfl, rfl, by decide⟩

theorem closes_rbrace : Closes (.symbol .rbrace) := ⟨rfl, rfl, by decide⟩

theorem closes_rbracket : Closes (.symbol .rbracket) := ⟨rfl, rfl, by decide⟩

/-- **Tokens of the kinds are read as the phrase**, from any cursor on, within any bound that covers the tokens left,
and whatever comes next, so long as it cannot belong to the phrase. -/
def Readable (ks : List TokenKind) : Phrase → Prop
  | .expr level t => ∀ ⦃c c' n⦄, Past ks c c' → c.rest.length ≤ n + 1 → Ends (room level) c' →
      ∃ e m, e.unplaced = t ∧ c'.rest.length ≤ m ∧ reader n level c = goOn n level m e c'
  | .items ts => ∀ ⦃c c' n m close⦄, Past ks c c' → c.rest.length ≤ n → c.rest.length ≤ m → Closes close →
      c'.kind? = some close → ∃ es, Expr.allUnplaced es = ts ∧ closedBy close (bounded n).expr m c = .ok es c'
  | .fields ts => ∀ ⦃c c' n m⦄ (opening : Span), Past ks c c' → c.rest.length ≤ n → c.rest.length ≤ m →
      c'.kind? = some (.symbol .rbrace) →
      ∃ fs close, Expr.fieldsUnplaced fs = ts ∧ literalFields (bounded n) opening m c = .ok (fs, close) c'.drop
  | .typeRef t => ∀ ⦃c c' n⦄, Past ks c c' → c.rest.length ≤ n → c'.kind? ≠ some (.symbol .lt) →
      ∃ r, r.unplaced = t ∧ (bounded n).typeRef c = .ok r c'
  | .arg t => ∀ ⦃c c' n⦄, Past ks c c' → c.rest.length ≤ n →
      c'.kind? = some (.symbol .comma) ∨ c'.kind? = some (.symbol .gt) →
      ∃ a, a.unplaced = t ∧ templateArg (bounded n) c = .ok a c'
  | .args ts => ∀ ⦃c c' n m⦄, Past ks c c' → c.rest.length ≤ n → c.rest.length ≤ m → c'.kind? = some (.symbol .gt) →
      ∃ as, TypeArg.allUnplaced as = ts ∧ templateArgs (bounded n) m c = .ok as c'

section

variable {ks ks' : List TokenKind} {level : Prec} {c c' : Cursor} {n : Nat} {t : Expr}

/-- Where nothing that follows belongs to the expression, its level is read to its end. -/
theorem Readable.reader (h : Readable ks (.expr level t)) (hc : Past ks c c') (hn : c.rest.length ≤ n + 1)
    (he : Ends (level.rank - 1) c') : ∃ e, e.unplaced = t ∧ Grammar.reader n level c = .ok e c' := by
  have hroom : level.rank - 1 ≤ room level := by cases level <;> decide
  obtain ⟨e, m, rfl, -, h⟩ := h hc hn (he.mono hroom)
  exact ⟨e, rfl, h.trans (goOn_done he)⟩

/-- A bound that covers a token is not zero. -/
theorem exists_bound (hc : Past ks c c') (hks : ks ≠ []) (hn : c.rest.length ≤ n) : ∃ k, n = k + 1 := by
  have := hc.length
  have := List.length_pos_iff.2 hks
  exact Nat.exists_eq_succ_of_ne_zero (by omega)

theorem Spells.ne_nil (h : Spells ks (.expr level t)) : ks ≠ [] := by
  obtain ⟨k, rest, rfl, -⟩ := h.begins
  simp

theorem Readable.expr (hs : Spells ks (.expr .lowest t)) (h : Readable ks (.expr .lowest t)) (hc : Past ks c c')
    (hn : c.rest.length ≤ n) (he : Ends 0 c') : ∃ e, e.unplaced = t ∧ (bounded n).expr c = .ok e c' := by
  obtain ⟨n, rfl⟩ := exists_bound hc hs.ne_nil hn
  exact h.reader hc hn he

theorem Readable.sum (hs : Spells ks (.expr .sum t)) (h : Readable ks (.expr .sum t)) (hc : Past ks c c')
    (hn : c.rest.length ≤ n) (he : Ends 3 c') : ∃ e, e.unplaced = t ∧ (bounded n).sum c = .ok e c' := by
  obtain ⟨n, rfl⟩ := exists_bound hc hs.ne_nil hn
  exact h.reader hc hn he

theorem Readable.unary (hs : Spells ks (.expr .unary t)) (h : Readable ks (.expr .unary t)) (hc : Past ks c c')
    (hn : c.rest.length ≤ n) (he : Ends 5 c') : ∃ e, e.unplaced = t ∧ (bounded n).unary c = .ok e c' := by
  obtain ⟨n, rfl⟩ := exists_bound hc hs.ne_nil hn
  exact h.reader hc hn he

/-! ## Operators -/

/-- The levels that join their operands from left to right. -/
def Chains (level : Prec) : Prop := level = .or ∨ level = .and ∨ level = .sum ∨ level = .product

theorem reader_chains (h : Chains level) :
    Grammar.reader n level = Grammar.reader n level.tighter >>= goOn n level (n + 1) := by
  obtain rfl | rfl | rfl | rfl := h <;> rfl

theorem room_chains (h : Chains level) : room level = level.rank ∧ room level = level.tighter.rank - 1 := by
  obtain rfl | rfl | rfl | rfl := h <;> decide

theorem goOn_chains (h : Chains level) (m : Nat) (e : Expr) :
    goOn n level m e = chainFrom (opAt level) (Grammar.reader n level.tighter) m e := by
  obtain rfl | rfl | rfl | rfl := h <;> rfl

theorem chains_prec {op : BinOp} (h : op.prec ≠ .comparison) : Chains op.prec := by
  cases op <;> simp_all [Chains, BinOp.prec]

theorem chainFrom_step {op? : TokenKind → Option BinOp} {operand : Parse Expr} {l r : Expr} {op : BinOp} {m : Nat}
    (hop : c.kind?.bind op? = some op) (hr : operand c.drop = .ok r c') :
    chainFrom op? operand (m + 1) l c = chainFrom op? operand m (binary l op r) c' := by
  rw [chainFrom, peek_bind, hop]
  dsimp only
  rw [skip_bind, bind_of_ok hr]

theorem comparisonWith_alone {inner : Inner} {e : Expr} (hs : sumWith n inner c = .ok e c')
    (h : c'.kind?.bind comparison? = none) : comparisonWith n inner c = .ok e c' := by
  unfold comparisonWith
  rw [bind_of_ok hs, peek_bind, h]
  rfl

theorem comparisonWith_both {inner : Inner} {l r : Expr} {op : BinOp} {m : Cursor} (hl : sumWith n inner c = .ok l m)
    (hop : m.kind?.bind comparison? = some op) (hr : sumWith n inner m.drop = .ok r c')
    (h : c'.kind?.bind comparison? = none) : comparisonWith n inner c = .ok (binary l op r) c' := by
  unfold comparisonWith
  rw [bind_of_ok hl, peek_bind, hop]
  dsimp only
  rw [skip_bind, bind_of_ok hr, peek_bind, h]
  rfl

theorem unaryWith_operand {inner : Inner} (hbang : c.kind? ≠ some (.symbol .bang))
    (hminus : c.kind? ≠ some (.symbol .minus)) :
    unaryWith n inner c = (primary n inner >>= suffixesFrom n inner n) c := by
  unfold unaryWith
  rw [peek_bind]
  generalize c.kind? = k at *
  split
  · exact absurd rfl hbang
  · exact absurd rfl hminus
  · rfl

theorem unaryWith_op {inner : Inner} {e : Expr} {op : UnaryOp} {span : Span} (he : inner.unary c = .ok e c') :
    unaryWith n inner (c.push ⟨.symbol op.symbol, span⟩) = .ok (.unary (span.join e.span) op e) c' := by
  have hprefixed : unaryWith.prefixed inner op (c.push ⟨.symbol op.symbol, span⟩) =
      .ok (.unary (span.join e.span) op e) c' := by
    unfold unaryWith.prefixed
    rw [bind_of_ok next_push, bind_of_ok he]
    rfl
  cases op <;> exact hprefixed

theorem readable_looser (hs : Spells ks (.expr level.tighter t)) (h : Readable ks (.expr level.tighter t)) :
    Readable ks (.expr level t) := by
  intro c c' n hc hn he
  have hlast : c'.rest.length ≤ n + 1 := by
    have := hc.length
    omega
  have hchain (hl : Chains level) : ∃ e m, e.unplaced = t ∧ c'.rest.length ≤ m ∧
      Grammar.reader n level c = goOn n level m e c' := by
    obtain ⟨e, rfl, hr⟩ := h.reader hc hn (by rwa [← (room_chains hl).2])
    exact ⟨e, n + 1, rfl, hlast, by rw [reader_chains hl, bind_of_ok hr]⟩
  cases level with
  | or => exact hchain (.inl rfl)
  | and => exact hchain (.inr (.inl rfl))
  | sum => exact hchain (.inr (.inr (.inl rfl)))
  | product => exact hchain (.inr (.inr (.inr rfl)))
  | suffix => exact h hc hn he
  | lowest =>
    obtain ⟨e, rfl, hr⟩ := h.reader hc hn he
    exact ⟨e, n + 1, rfl, hlast, hr⟩
  | comparison =>
    obtain ⟨e, rfl, hr⟩ := h.reader hc hn (he.mono (by decide))
    refine ⟨e, n + 1, rfl, hlast, ?_⟩
    exact comparisonWith_alone hr (@Ends.no_op _ .comparison _ he (by decide))
  | unary =>
    obtain ⟨e, rfl, hr⟩ := h.reader hc hn (he.mono (by decide))
    refine ⟨e, n + 1, rfl, hlast, ?_⟩
    obtain ⟨k, rest, rfl, -, hk⟩ := hs.begins
    obtain ⟨hminus, hbang⟩ := hk rfl
    refine (unaryWith_operand ?_ ?_).trans hr
    · rw [hc.kind?]
      exact fun h => hbang (Option.some.inj h)
    · rw [hc.kind?]
      exact fun h => hminus (Option.some.inj h)

theorem readable_unary {op : UnaryOp} (hs : Spells ks (.expr .unary t)) (h : Readable ks (.expr .unary t)) :
    Readable (.symbol op.symbol :: ks) (.expr .unary (.unary nowhere op t)) := by
  intro c c' n hc hn he
  obtain ⟨span, m, rfl, hm⟩ := past_cons.1 hc
  have hn : m.rest.length ≤ n := Nat.le_of_succ_le_succ hn
  obtain ⟨e, rfl, hr⟩ := h.unary hs hm hn he
  exact ⟨.unary (span.join e.span) op e, c'.rest.length, by simp, Nat.le_refl _, unaryWith_op hr⟩

theorem readable_binary {op : BinOp} {l r : Expr} (hl : Readable ks (.expr (leftPlace op) l))
    (hr : Readable ks' (.expr op.prec.tighter r)) :
    Readable (ks ++ .symbol op.symbol :: ks') (.expr op.prec (.binary nowhere l op r)) := by
  intro c c' n hc hn he
  obtain ⟨m, hm, hc'⟩ := past_append.1 hc
  obtain ⟨span, m', rfl, hm'⟩ := past_cons.1 hc'
  have hlength := hm.length
  have hgrip : Ends op.prec.rank (m'.push ⟨.symbol op.symbol, span⟩) := .of_kind? rfl (Nat.le_of_eq (grip_op op))
  have hright : m'.rest.length ≤ n + 1 := by
    simp only [rest_push, List.length_cons] at hlength
    omega
  by_cases hop : op.prec = .comparison
  · have hplace : leftPlace op = .sum := if_pos hop
    rw [hplace] at hl
    rw [hop] at hr he hgrip ⊢
    obtain ⟨el, rfl, hel⟩ := hl.reader hm hn hgrip
    obtain ⟨er, rfl, her⟩ := hr.reader hm' hright (he.mono (by decide))
    have hseen : opAt .comparison (.symbol op.symbol) = some op := opAt_iff.2 ⟨rfl, hop⟩
    have hdone : c'.kind?.bind (opAt .comparison) = none := he.no_op (by decide)
    exact ⟨binary el op er, c'.rest.length, by simp, Nat.le_refl _, comparisonWith_both hel hseen her hdone⟩
  · have hchains := chains_prec hop
    have hplace : leftPlace op = op.prec := if_neg hop
    obtain ⟨hroom, htighter⟩ := room_chains hchains
    rw [hplace] at hl
    obtain ⟨el, ml, rfl, hml, hel⟩ := hl hm hn (hroom ▸ hgrip)
    obtain ⟨er, rfl, her⟩ := hr.reader hm' hright (htighter ▸ he)
    obtain ⟨ml, rfl⟩ := Nat.exists_eq_succ_of_ne_zero (Nat.ne_zero_of_lt hml)
    have hlast := hm'.length
    refine ⟨binary el op er, ml, by simp, ?_, ?_⟩
    · simp only [rest_push, List.length_cons] at hml
      omega
    · rw [hel, goOn_chains hchains, goOn_chains hchains]
      exact chainFrom_step (opAt_iff.2 ⟨rfl, rfl⟩) her

/-! ## Lists -/

theorem closedBy_empty {α : Type} {close : TokenKind} {element : Parse α} {m : Nat} (h : c.kind? = some close) :
    closedBy close element m c = .ok [] c := by
  unfold closedBy
  rw [sees_bind, h, beq_self_eq_true]
  rfl

theorem closedBy_some {α : Type} {close : TokenKind} {element : Parse α} {m : Nat} (h : c.kind? ≠ some close) :
    closedBy close element m c = commaSeparated element (return !(← sees close)) m c := by
  unfold closedBy
  rw [sees_bind, beq_eq_false_iff_ne.2 h]
  rfl

theorem commaSeparated_last {α : Type} {element : Parse α} {more : Parse Bool} {a : α} {m : Nat}
    (ha : element c = .ok a c') (h : c'.kind? ≠ some (.symbol .comma)) :
    commaSeparated element more (m + 1) c = .ok [a] c' := by
  unfold commaSeparated
  rw [bind_of_ok ha, bind_of_ok (eat_other h)]
  rfl

/-- Behind a comma the list goes on as one that has just been opened. -/
theorem commaSeparated_comma {α : Type} {close : TokenKind} {element : Parse α} {a : α} {as : List α} {m : Nat}
    {span : Span} {c₁ : Cursor} (ha : element c = .ok a (c₁.push ⟨.symbol .comma, span⟩))
    (has : closedBy close element m c₁ = .ok as c') :
    commaSeparated element (return !(← sees close)) (m + 1) c = .ok (a :: as) c' := by
  unfold commaSeparated
  rw [bind_of_ok ha, bind_of_ok eat_push]
  simp only [if_true, bind_assoc, pure_bind]
  rw [sees_bind]
  by_cases hclose : c₁.kind? = some close
  · rw [closedBy_empty hclose] at has
    cases has
    rw [hclose, beq_self_eq_true]
    rfl
  · rw [closedBy_some hclose] at has
    rw [beq_eq_false_iff_ne.2 hclose]
    simp only [Bool.not_false, if_true]
    rw [bind_of_ok has]
    rfl

theorem readable_noItems : Readable [] (.items []) := by
  intro c c' n m close hc _ _ _ hclose
  cases past_nil.1 hc
  exact ⟨[], by simp, closedBy_empty hclose⟩

theorem Closes.not_first {k : TokenKind} (hk : Closes k) (hs : Spells ks (.expr level t)) (hc : Past ks c c') :
    c.kind? ≠ some k := by
  obtain ⟨k', rest, rfl, hbegins, -⟩ := hs.begins
  rw [hc.kind?]
  rintro h
  cases h
  rw [hk.begins] at hbegins
  cases hbegins

theorem Closes.ends {k : TokenKind} (hk : Closes k) (h : c.kind? = some k) : Ends 0 c :=
  .of_kind? h (Nat.le_of_eq hk.grip)

theorem Closes.not_comma {k : TokenKind} (hk : Closes k) (h : c.kind? = some k) : c.kind? ≠ some (.symbol .comma) := by
  rw [h]
  exact fun h => hk.comma (Option.some.inj h)

theorem readable_lastItem (hs : Spells ks (.expr .lowest t)) (h : Readable ks (.expr .lowest t)) :
    Readable ks (.items [t]) := by
  intro c c' n m close hc hn hm hk hclose
  obtain ⟨e, rfl, he⟩ := h.expr hs hc hn (hk.ends hclose)
  obtain ⟨m, rfl⟩ := exists_bound hc hs.ne_nil hm
  refine ⟨[e], by simp, ?_⟩
  rw [closedBy_some (hk.not_first hs hc)]
  exact commaSeparated_last he (hk.not_comma hclose)

theorem readable_item {ts : List Expr} (hs : Spells ks (.expr .lowest t)) (h : Readable ks (.expr .lowest t))
    (hrest : Readable ks' (.items ts)) : Readable (ks ++ .symbol .comma :: ks') (.items (t :: ts)) := by
  intro c c' n m close hc hn hm hk hclose
  obtain ⟨c₁, hc₁, hc⟩ := past_append.1 hc
  obtain ⟨span, c₂, rfl, hc₂⟩ := past_cons.1 hc
  have hlength := hc₁.length
  simp only [rest_push, List.length_cons] at hlength
  obtain ⟨e, rfl, he⟩ := h.expr hs hc₁ hn (.of_kind? rfl (Nat.le_refl 0))
  obtain ⟨m, rfl⟩ := exists_bound hc₁ hs.ne_nil hm
  obtain ⟨es, rfl, hes⟩ := hrest hc₂ (n := n) (m := m) (by omega) (by omega) hk hclose
  refine ⟨e :: es, by simp, ?_⟩
  rw [closedBy_some (hk.not_first hs hc₁)]
  exact commaSeparated_comma he hes

/-! ## Fields -/

theorem literalFields_close {inner : Inner} {opening span : Span} {m : Nat} :
    literalFields inner opening (m + 1) (c.push ⟨.symbol .rbrace, span⟩) = .ok ([], span) c := by
  rw [literalFields, peek_bind, kind?_push]
  dsimp only
  rw [bind_of_ok expect_push]
  rfl

/-- A field is read behind its key; what the rest of the literal gives comes behind it. -/
theorem literalFields_field {inner : Inner} {opening : Span} {m : Nat} {key : String} {s₁ s₂ close : Span}
    {c₁ c₂ : Cursor} {e : Expr} {fs : List (Ident × Expr)} (he : inner.expr c₁ = .ok e c₂)
    (hrest : c₂.kind? = some (.symbol .comma) ∧ literalFields inner opening m c₂.drop = .ok (fs, close) c' ∨
      c₂.kind? = some (.symbol .rbrace) ∧ literalFields inner opening m c₂ = .ok (fs, close) c') :
    literalFields inner opening (m + 1) ((c₁.push ⟨.symbol .colon, s₂⟩).push ⟨.name key, s₁⟩) =
      .ok ((⟨key, s₁⟩, e) :: fs, close) c' := by
  rw [literalFields, peek_bind, kind?_push]
  dsimp only
  rw [bind_of_ok ident_push, bind_of_ok expect_push, bind_of_ok he, peek_bind]
  obtain ⟨hkind, hfs⟩ | ⟨hkind, hfs⟩ := hrest
  · rw [hkind]
    dsimp only
    rw [skip_bind, bind_of_ok hfs]
    rfl
  · rw [hkind]
    dsimp only
    rw [bind_of_ok hfs]
    rfl

theorem readable_noFields : Readable [] (.fields []) := by
  intro c c' n m opening hc _ hm hclose
  cases past_nil.1 hc
  obtain ⟨span, hcursor⟩ := eq_push_of_kind? hclose
  rw [hcursor] at hm ⊢
  obtain ⟨m, rfl⟩ := Nat.exists_eq_succ_of_ne_zero (Nat.ne_zero_of_lt hm)
  exact ⟨[], span, by simp, literalFields_close⟩

theorem readable_lastField {key : String} (hs : Spells ks (.expr .lowest t)) (h : Readable ks (.expr .lowest t)) :
    Readable (.name key :: .symbol .colon :: ks) (.fields [(bareName key, t)]) := by
  intro c c' n m opening hc hn hm hclose
  obtain ⟨s₁, _, rfl, hcolon⟩ := past_cons.1 hc
  obtain ⟨s₂, c₁, rfl, hc₁⟩ := past_cons.1 hcolon
  obtain ⟨m, rfl⟩ := Nat.exists_eq_succ_of_ne_zero (Nat.ne_zero_of_lt hm)
  simp only [rest_push, List.length_cons] at hn hm
  obtain ⟨e, rfl, he⟩ := h.expr hs hc₁ (n := n) (by omega) (closes_rbrace.ends hclose)
  have hlength := hc₁.length
  obtain ⟨fs, close, hfs, hrest⟩ := readable_noFields opening (c := c') (n := n) (m := m) rfl (by omega)
    (by omega) hclose
  exact ⟨_, close, by simp [hfs], literalFields_field he (.inr ⟨hclose, hrest⟩)⟩

theorem readable_field {key : String} {ts : List (Ident × Expr)} (hs : Spells ks (.expr .lowest t))
    (h : Readable ks (.expr .lowest t)) (hrest : Readable ks' (.fields ts)) :
    Readable (.name key :: .symbol .colon :: ks ++ .symbol .comma :: ks') (.fields ((bareName key, t) :: ts)) := by
  intro c c' n m opening hc hn hm hclose
  obtain ⟨s₁, _, rfl, hcolon⟩ := past_cons.1 hc
  obtain ⟨s₂, c₁, rfl, hvalue⟩ := past_cons.1 hcolon
  obtain ⟨c₂, hc₁, hcomma⟩ := past_append.1 hvalue
  obtain ⟨s₃, c₃, rfl, hc₃⟩ := past_cons.1 hcomma
  obtain ⟨m, rfl⟩ := Nat.exists_eq_succ_of_ne_zero (Nat.ne_zero_of_lt hm)
  have hlength := hc₁.length
  simp only [rest_push, List.length_cons] at hn hm hlength
  obtain ⟨e, rfl, he⟩ := h.expr hs hc₁ (n := n) (by omega) (.of_kind? rfl (Nat.le_refl 0))
  obtain ⟨fs, close, rfl, hfs⟩ := hrest opening hc₃ (n := n) (m := m) (by omega) (by omega) hclose
  exact ⟨_, close, by simp, literalFields_field he (.inl ⟨rfl, hfs⟩)⟩

/-! ## Types -/

theorem readable_plainType {name : String} : Readable [.name name] (.typeRef (.named nowhere (bareName name) [])) := by
  intro c c' n hc hn hlt
  obtain ⟨span, rfl⟩ := past_single.1 hc
  obtain ⟨n, rfl⟩ := Nat.exists_eq_succ_of_ne_zero (Nat.ne_zero_of_lt hn)
  refine ⟨.named span ⟨name, span⟩ [], by simp, ?_⟩
  show typeRefWith (n + 1) (bounded n) _ = _
  unfold typeRefWith
  rw [sees_bind, kind?_push, beq_eq_false_iff_ne.2 (by simp)]
  simp only [Bool.false_eq_true, if_false]
  rw [bind_of_ok ident_push, bind_of_ok (eat_other hlt)]
  rfl

theorem readable_appliedType {name : String} {as : List TypeArg} (h : Readable ks (.args as)) :
    Readable (.name name :: .symbol .lt :: ks ++ [.symbol .gt]) (.typeRef (.named nowhere (bareName name) as)) := by
  intro c c' n hc hn _
  obtain ⟨s₁, s₃, _, rfl, hlt⟩ := past_between.1 hc
  obtain ⟨s₂, c₁, rfl, hc₁⟩ := past_cons.1 hlt
  obtain ⟨n, rfl⟩ := Nat.exists_eq_succ_of_ne_zero (Nat.ne_zero_of_lt hn)
  simp only [rest_push, List.length_cons] at hn
  obtain ⟨args, rfl, hread⟩ := h hc₁ (n := n) (m := n + 1) (by omega) (by omega) rfl
  refine ⟨.named (s₁.join s₃) ⟨name, s₁⟩ args, by simp, ?_⟩
  show typeRefWith (n + 1) (bounded n) _ = _
  unfold typeRefWith
  rw [sees_bind, kind?_push, beq_eq_false_iff_ne.2 (by simp)]
  simp only [Bool.false_eq_true, if_false]
  rw [bind_of_ok ident_push, bind_of_ok eat_push]
  simp only [if_true]
  rw [bind_of_ok hread, bind_of_ok expect_push]
  rfl

theorem readable_arrayType {elem : TypeRef} (helem : Readable ks (.typeRef elem)) (hs : Spells ks' (.expr .lowest t))
    (h : Readable ks' (.expr .lowest t)) :
    Readable (.symbol .lbracket :: ks ++ .symbol .semi :: ks' ++ [.symbol .rbracket])
      (.typeRef (.array nowhere elem t)) := by
  intro c c' n hc hn _
  obtain ⟨s₁, s₃, c₁, rfl, hinside⟩ := past_between.1 hc
  obtain ⟨c₂, hc₁, hsemi⟩ := past_append.1 hinside
  obtain ⟨s₂, c₂, rfl, hc₂⟩ := past_cons.1 hsemi
  obtain ⟨n, rfl⟩ := Nat.exists_eq_succ_of_ne_zero (Nat.ne_zero_of_lt hn)
  have hlength := hc₁.length
  simp only [rest_push, List.length_cons] at hn hlength
  obtain ⟨elem, rfl, hread⟩ := helem hc₁ (n := n) (by omega) (by simp)
  obtain ⟨len, rfl, hlen⟩ := h.expr hs hc₂ (n := n) (by omega) (.of_kind? rfl (Nat.le_refl 0))
  refine ⟨.array (s₁.join s₃) elem len, by simp, ?_⟩
  show typeRefWith (n + 1) (bounded n) _ = _
  unfold typeRefWith
  rw [sees_bind, kind?_push, beq_self_eq_true]
  simp only [if_true]
  rw [bind_of_ok expect_push, bind_of_ok hread, bind_of_ok expect_push, bind_of_ok hlen, bind_of_ok expect_push]
  rfl

/-! ## Template arguments -/

/-- The reader takes the same side as the grammar, as what follows an argument is no arithmetic operator. -/
theorem templateArg_eq {inner : Inner} {k : TokenKind} (hc : Past (k :: ks) c c')
    (h : c'.kind?.any arithmetic = false) :
    templateArg inner c =
      (if startsType (k :: ks) then do return .type (← inner.typeRef) else do return .value (← inner.sum) :
        Parse TypeArg) c := by
  unfold templateArg
  rw [peek_bind, hc.kind?]
  cases k with
  | symbol s => cases s <;> rfl
  | name s =>
    dsimp only
    simp only [pure_bind, any_arithmetic]
    rw [peekSecond_bind, hc.second?]
    cases ks with
    | nil =>
      simp [h, startsType]
    | cons k' ks => cases hk' : arithmetic k' <;> simp [hk', startsType]
  | _ => rfl

theorem follows_arg (h : c.kind? = some (.symbol .comma) ∨ c.kind? = some (.symbol .gt)) :
    Ends 3 c ∧ c.kind? ≠ some (.symbol .lt) ∧ c.kind?.any arithmetic = false := by
  obtain h | h := h
  · exact ⟨.of_kind? h (by decide), by simp [h], by simp [h, arithmetic]⟩
  · exact ⟨.of_kind? h (by decide), by simp [h], by simp [h, arithmetic]⟩

theorem readable_typeArg {r : TypeRef} (htype : startsType ks = true) (hs : Spells ks (.typeRef r))
    (h : Readable ks (.typeRef r)) : Readable ks (.arg (.type r)) := by
  intro c c' n hc hn hfollow
  obtain ⟨-, hlt, hop⟩ := follows_arg hfollow
  obtain ⟨r, rfl, hr⟩ := h hc hn hlt
  obtain ⟨k, rest, rfl, -⟩ := hs.typeRef_begins
  refine ⟨.type r, by simp, ?_⟩
  rw [templateArg_eq hc hop, if_pos htype, bind_of_ok hr]
  rfl

theorem readable_valueArg (htype : startsType ks = false) (hs : Spells ks (.expr .sum t))
    (h : Readable ks (.expr .sum t)) : Readable ks (.arg (.value t)) := by
  intro c c' n hc hn hfollow
  obtain ⟨hends, -, hop⟩ := follows_arg hfollow
  obtain ⟨e, rfl, he⟩ := h.sum hs hc hn hends
  obtain ⟨k, rest, rfl, -⟩ := hs.begins
  refine ⟨.value e, by simp, ?_⟩
  rw [templateArg_eq hc hop, htype, if_neg Bool.false_ne_true, bind_of_ok he]
  rfl

theorem readable_noArgs : Readable [] (.args []) := by
  intro c c' n m hc _ _ hclose
  cases past_nil.1 hc
  refine ⟨[], by simp, ?_⟩
  unfold templateArgs
  rw [sees_bind, hclose, beq_self_eq_true]
  rfl

theorem templateArgs_some {inner : Inner} {m : Nat} {a : TypeArg} (hs : Spells ks (.arg a)) (hc : Past ks c c') :
    templateArgs inner m c = commaSeparated (templateArg inner) (return true) m c := by
  obtain ⟨k, rest, rfl, hk⟩ := hs.arg_begins
  have hgt : k ≠ .symbol .gt := by
    rintro rfl
    cases hk
  unfold templateArgs
  rw [sees_bind, hc.kind?, beq_eq_false_iff_ne.2 (by simpa using hgt)]
  rfl

theorem commaSeparated_of_templateArgs {inner : Inner} {m : Nat} {as : List TypeArg}
    (h : templateArgs inner m c = .ok as c') (hne : as ≠ []) :
    commaSeparated (templateArg inner) (return true) m c = .ok as c' := by
  unfold templateArgs at h
  rw [sees_bind] at h
  split at h
  · exact absurd (pure_ok.1 h).1.symm hne
  · exact h

theorem readable_lastArg {a : TypeArg} (hs : Spells ks (.arg a)) (h : Readable ks (.arg a)) :
    Readable ks (.args [a]) := by
  intro c c' n m hc hn hm hclose
  obtain ⟨a, rfl, ha⟩ := h hc hn (.inr hclose)
  obtain ⟨k, rest, rfl, -⟩ := hs.arg_begins
  obtain ⟨m, rfl⟩ := exists_bound hc (by simp) hm
  refine ⟨[a], by simp, ?_⟩
  rw [templateArgs_some hs hc]
  exact commaSeparated_last ha (by simp [hclose])

theorem readable_nextArg {a b : TypeArg} {as : List TypeArg} (hs : Spells ks (.arg a)) (h : Readable ks (.arg a))
    (hrest : Readable ks' (.args (b :: as))) :
    Readable (ks ++ .symbol .comma :: ks') (.args (a :: b :: as)) := by
  intro c c' n m hc hn hm hclose
  obtain ⟨c₁, hc₁, hcomma⟩ := past_append.1 hc
  obtain ⟨span, c₂, rfl, hc₂⟩ := past_cons.1 hcomma
  have hlength := hc₁.length
  simp only [rest_push, List.length_cons] at hlength
  obtain ⟨a, rfl, ha⟩ := h hc₁ hn (.inl rfl)
  obtain ⟨k, rest, rfl, -⟩ := hs.arg_begins
  obtain ⟨m, rfl⟩ := exists_bound hc₁ (by simp) hm
  obtain ⟨args, hargs, hread⟩ := hrest hc₂ (n := n) (m := m) (by omega) (by omega) hclose
  refine ⟨a :: args, by simp [hargs], ?_⟩
  rw [templateArgs_some hs hc₁]
  have hne : args ≠ [] := by
    rintro rfl
    cases hargs
  unfold commaSeparated
  rw [bind_of_ok ha, bind_of_ok eat_push]
  simp only [if_true, pure_bind]
  rw [bind_of_ok (commaSeparated_of_templateArgs hread hne)]
  rfl

/-! ## Operands -/

/-- An operand is read by itself, and the reader goes on with what may follow it. -/
theorem readable_operand (h : ∀ ⦃c c' n⦄, Past ks c c' → c.rest.length ≤ n + 1 →
    ∃ e, e.unplaced = t ∧ primary (n + 1) (bounded n) c = .ok e c') : Readable ks (.expr .suffix t) := by
  intro c c' n hc hn _
  obtain ⟨e, rfl, he⟩ := h hc hn
  have hlength := hc.length
  exact ⟨e, n + 1, rfl, by omega, bind_of_ok he⟩

/-- A token that is an operand of its own. -/
theorem readable_token {k : TokenKind}
    (h : ∀ {n inner} span c, ∃ e, e.unplaced = t ∧ primary n inner (push ⟨k, span⟩ c) = .ok e c) :
    Readable [k] (.expr .suffix t) := by
  refine readable_operand fun c c' n hc _ => ?_
  obtain ⟨span, rfl⟩ := past_single.1 hc
  exact h span c'

theorem readable_int {v : Nat} (hv : v < Arith.bound) : Readable [.int v] (.expr .suffix (.int nowhere v)) := by
  refine readable_token fun span c => ⟨.int span v, by simp, ?_⟩
  unfold primary
  rw [bind_of_ok next_push]
  dsimp only
  unfold integer
  rw [if_pos hv]
  rfl

/-- A literal of elements between brackets is read as the reader of the elements reads them. -/
theorem readable_elements {opening closing : TokenKind} {ts : List Expr} (node : Span → List Expr → Expr)
    (hnode : ∀ span es, (node span es).unplaced = node nowhere (Expr.allUnplaced es)) (hclosing : Closes closing)
    (hprimary : ∀ {n inner c₁ c' es} {s₁ s₂ : Span}, closedBy closing inner.expr n c₁ = .ok es (c'.push ⟨closing, s₂⟩) →
      primary n inner (c₁.push ⟨opening, s₁⟩) = .ok (node (s₁.join s₂) es) c')
    (h : Readable ks (.items ts)) : Readable (opening :: ks ++ [closing]) (.expr .suffix (node nowhere ts)) := by
  refine readable_operand fun c c' n hc hn => ?_
  obtain ⟨s₁, s₂, c₁, rfl, hc₁⟩ := past_between.1 hc
  simp only [rest_push, List.length_cons] at hn
  obtain ⟨es, rfl, hes⟩ := h hc₁ (n := n) (m := n + 1) (by omega) (by omega) hclosing rfl
  exact ⟨node (s₁.join s₂) es, hnode _ es, hprimary hes⟩

theorem readable_list {ts : List Expr} (h : Readable ks (.items ts)) :
    Readable (.symbol .lbrace :: ks ++ [.symbol .rbrace]) (.expr .suffix (.list nowhere ts)) := by
  refine readable_elements .list (by simp) closes_rbrace (fun hes => ?_) h
  unfold primary
  rw [bind_of_ok next_push]
  dsimp only
  rw [bind_of_ok hes, bind_of_ok expect_push]
  rfl

theorem readable_array {ts : List Expr} (h : Readable ks (.items ts)) :
    Readable (.symbol .lbracket :: ks ++ [.symbol .rbracket]) (.expr .suffix (.array nowhere ts)) := by
  refine readable_elements .array (by simp) closes_rbracket (fun hes => ?_) h
  unfold primary
  rw [bind_of_ok next_push]
  dsimp only
  rw [bind_of_ok hes, bind_of_ok expect_push]
  rfl

theorem readable_parens (hs : Spells ks (.expr .lowest t)) (h : Readable ks (.expr .lowest t)) :
    Readable (.symbol .lparen :: ks ++ [.symbol .rparen]) (.expr .suffix t) := by
  refine readable_operand fun c c' n hc hn => ?_
  obtain ⟨s₁, s₂, c₁, rfl, hc₁⟩ := past_between.1 hc
  simp only [rest_push, List.length_cons] at hn
  obtain ⟨e, rfl, he⟩ := h.expr hs hc₁ (n := n) (by omega) (closes_rparen.ends rfl)
  refine ⟨e, rfl, ?_⟩
  unfold primary
  rw [bind_of_ok next_push]
  dsimp only
  rw [bind_of_ok he, bind_of_ok expect_push]
  rfl

/-! ## What follows an operand -/

/-- A form behind an operand is taken in one round of the loop. -/
theorem readable_behind {t' : Expr} (hs : Spells ks (.expr .suffix t)) (h : Readable ks (.expr .suffix t))
    (hne : ks' ≠ []) (hform : ∀ ⦃e c c' n⦄, e.unplaced = t → Past ks' c c' → c.rest.length ≤ n →
      ∃ e', e'.unplaced = t' ∧ suffix? (n + 1) (bounded n) e c = .ok (some e') c') :
    Readable (ks ++ ks') (.expr .suffix t') := by
  intro c c' n hc hn _
  obtain ⟨m, hm, hm'⟩ := past_append.1 hc
  have hlength := hm.length
  have hlength' := hm'.length
  have := List.length_pos_iff.2 hs.ne_nil
  have := List.length_pos_iff.2 hne
  obtain ⟨e, b, he, hb, hread⟩ := h hm hn fun k _ => grip_le k
  obtain ⟨e', he', hform⟩ := hform he hm' (n := n) (by omega)
  obtain ⟨b, rfl⟩ := Nat.exists_eq_succ_of_ne_zero (show b ≠ 0 by omega)
  refine ⟨e', b, he', by omega, ?_⟩
  rw [hread]
  show suffixesFrom (n + 1) (bounded n) (b + 1) e m = suffixesFrom (n + 1) (bounded n) b e' c'
  rw [suffixesFrom, bind_of_ok hform]

theorem readable_member {name : String} (hs : Spells ks (.expr .suffix t)) (h : Readable ks (.expr .suffix t)) :
    Readable (ks ++ [.symbol .dot, .name name]) (.expr .suffix (.member nowhere t (bareName name))) := by
  refine readable_behind hs h (by simp) fun e c c' n he hc _ => ?_
  obtain ⟨s₁, _, rfl, hname⟩ := past_cons.1 hc
  obtain ⟨s₂, rfl⟩ := past_single.1 hname
  refine ⟨.member (e.span.join s₂) e ⟨name, s₂⟩, by simp [he], ?_⟩
  unfold suffix?
  rw [peek_bind, kind?_push]
  dsimp only
  rw [skip_bind, drop_push, bind_of_ok ident_push]
  rfl

theorem readable_index {i : Expr} (hs : Spells ks (.expr .suffix t)) (h : Readable ks (.expr .suffix t))
    (hsi : Spells ks' (.expr .lowest i)) (hi : Readable ks' (.expr .lowest i)) :
    Readable (ks ++ (.symbol .lbracket :: ks' ++ [.symbol .rbracket])) (.expr .suffix (.index nowhere t i)) := by
  refine readable_behind hs h (by simp) fun e c c' n he hc hn => ?_
  obtain ⟨s₁, s₂, c₁, rfl, hc₁⟩ := past_between.1 hc
  simp only [rest_push, List.length_cons] at hn
  obtain ⟨i, rfl, hread⟩ := hi.expr hsi hc₁ (n := n) (by omega) (closes_rbracket.ends rfl)
  refine ⟨.index (e.span.join s₂) e i, by simp [he], ?_⟩
  unfold suffix?
  rw [peek_bind, kind?_push]
  dsimp only
  rw [skip_bind, drop_push, bind_of_ok hread, bind_of_ok expect_push]
  rfl

theorem readable_record {id : Ident} {ts : List (Ident × Expr)} (hs : Spells ks (.expr .suffix (.name nowhere id)))
    (h : Readable ks (.expr .suffix (.name nowhere id))) (hfields : Readable ks' (.fields ts)) :
    Readable (ks ++ (.symbol .lbrace :: ks' ++ [.symbol .rbrace])) (.expr .suffix (.record nowhere id ts)) := by
  refine readable_behind hs h (by simp) fun e c c' n he hc hn => ?_
  obtain ⟨span, id, rfl, rfl⟩ := Expr.eq_name_of_unplaced he
  obtain ⟨s₁, s₂, c₁, rfl, hc₁⟩ := past_between.1 hc
  simp only [rest_push, List.length_cons] at hn
  obtain ⟨fs, close, rfl, hread⟩ := hfields (span.join s₁) hc₁ (n := n) (m := n + 1) (by omega) (by omega) rfl
  refine ⟨.record (span.join close) id fs, by simp, ?_⟩
  have hliteral : recordLiteral (n + 1) (bounded n) span id (push ⟨.symbol .lbrace, s₁⟩ c₁) =
      .ok (.record (span.join close) id fs) c' := by
    unfold recordLiteral
    rw [bind_of_ok expect_push, bind_of_ok hread]
    rfl
  unfold suffix?
  rw [peek_bind, kind?_push]
  dsimp only
  rw [bind_of_ok hliteral]
  rfl

theorem call_plain {inner : Inner} {span s₁ s₂ : Span} {id : Ident} {es : List Expr} {c₁ : Cursor}
    (hargs : closedBy (.symbol .rparen) inner.expr n c₁ = .ok es (push ⟨.symbol .rparen, s₂⟩ c')) :
    call n inner span id (push ⟨.symbol .lparen, s₁⟩ c₁) = .ok (.call (span.join s₂) id [] es) c' := by
  unfold call
  rw [bind_of_ok (eat_other (by simp))]
  simp only [Bool.false_eq_true, if_false, pure_bind]
  rw [bind_of_ok expect_push, bind_of_ok hargs, bind_of_ok expect_push]
  rfl

theorem call_generic {inner : Inner} {span s₁ s₂ s₃ s₄ s₅ : Span} {id : Ident} {as : List TypeArg} {es : List Expr}
    {c₁ c₂ : Cursor} (hgeneric : templateArgs inner n c₁ = .ok as (push ⟨.symbol .gt, s₃⟩ (push ⟨.symbol .lparen, s₄⟩ c₂)))
    (hargs : closedBy (.symbol .rparen) inner.expr n c₂ = .ok es (push ⟨.symbol .rparen, s₅⟩ c')) :
    call n inner span id (push ⟨.symbol .pathSep, s₁⟩ (push ⟨.symbol .lt, s₂⟩ c₁)) =
      .ok (.call (span.join s₅) id as es) c' := by
  unfold call
  rw [bind_of_ok eat_push]
  simp only [if_true, pure_bind]
  rw [bind_of_ok expect_push, bind_of_ok hgeneric, bind_of_ok expect_push, bind_of_ok expect_push, bind_of_ok hargs,
    bind_of_ok expect_push]
  rfl

theorem readable_call {id : Ident} {ts : List Expr} (hs : Spells ks (.expr .suffix (.name nowhere id)))
    (h : Readable ks (.expr .suffix (.name nowhere id))) (hargs : Readable ks' (.items ts)) :
    Readable (ks ++ (.symbol .lparen :: ks' ++ [.symbol .rparen])) (.expr .suffix (.call nowhere id [] ts)) := by
  refine readable_behind hs h (by simp) fun e c c' n he hc hn => ?_
  obtain ⟨span, id, rfl, rfl⟩ := Expr.eq_name_of_unplaced he
  obtain ⟨s₁, s₂, c₁, rfl, hc₁⟩ := past_between.1 hc
  simp only [rest_push, List.length_cons] at hn
  obtain ⟨es, rfl, hread⟩ := hargs hc₁ (n := n) (m := n + 1) (by omega) (by omega) closes_rparen rfl
  refine ⟨.call (span.join s₂) id [] es, by simp, ?_⟩
  unfold suffix?
  rw [peek_bind, kind?_push]
  dsimp only
  rw [suffix?.callOf, bind_of_ok (call_plain hread)]
  rfl

theorem readable_genericCall {gs : List TokenKind} {id : Ident} {as : List TypeArg} {ts : List Expr}
    (hs : Spells ks (.expr .suffix (.name nowhere id))) (h : Readable ks (.expr .suffix (.name nowhere id)))
    (hgeneric : Readable gs (.args as)) (hargs : Readable ks' (.items ts)) :
    Readable (ks ++ (.symbol .pathSep :: .symbol .lt :: gs ++ .symbol .gt :: .symbol .lparen :: ks' ++ [.symbol .rparen]))
      (.expr .suffix (.call nowhere id as ts)) := by
  refine readable_behind hs h (by simp) fun e c c' n he hc hn => ?_
  obtain ⟨span, id, rfl, rfl⟩ := Expr.eq_name_of_unplaced he
  obtain ⟨s₁, s₅, _, rfl, hcall⟩ := past_between.1 hc
  obtain ⟨m, hopen, hinside⟩ := past_append.1 hcall
  obtain ⟨s₂, c₁, rfl, hc₁⟩ := past_cons.1 hopen
  obtain ⟨s₃, _, rfl, hparen⟩ := past_cons.1 hinside
  obtain ⟨s₄, c₂, rfl, hc₂⟩ := past_cons.1 hparen
  have hlength := hc₁.length
  simp only [rest_push, List.length_cons] at hn hlength
  obtain ⟨args, rfl, hgen⟩ := hgeneric hc₁ (n := n) (m := n + 1) (by omega) (by omega) rfl
  obtain ⟨es, rfl, hread⟩ := hargs hc₂ (n := n) (m := n + 1) (by omega) (by omega) closes_rparen rfl
  refine ⟨.call (span.join s₅) id args es, by simp, ?_⟩
  unfold suffix?
  rw [peek_bind, kind?_push]
  dsimp only
  rw [peekSecond_bind, second?_push, kind?_push, if_pos rfl, suffix?.callOf, bind_of_ok (call_generic hgen hread)]
  rfl

/-- **What is spelled is readable.** -/
theorem Spells.readable {phrase : Phrase} (h : Spells ks phrase) : Readable ks phrase := by
  induction h with
  | looser hs ih => exact readable_looser hs ih
  | binary op _ _ ihl ihr => exact readable_binary ihl ihr
  | unary op hs ih => exact readable_unary hs ih
  | member m hs ih => exact readable_member hs ih
  | index hs hsi ih ihi => simpa using readable_index hs ih hsi ihi
  | record hs _ ih ihf => simpa using readable_record hs ih ihf
  | call hs _ ih iha => simpa using readable_call hs ih iha
  | genericCall hs _ _ ih ihg iha => simpa using readable_genericCall hs ih ihg iha
  | name n => exact readable_token fun span c => ⟨.name span ⟨n, span⟩, by simp, rfl⟩
  | int hv => exact readable_int hv
  | char x => exact readable_token fun span c => ⟨.char span x, by simp, rfl⟩
  | text s => exact readable_token fun span c => ⟨.text span s, by simp, rfl⟩
  | yes => exact readable_token fun span c => ⟨.bool span true, by simp, rfl⟩
  | no => exact readable_token fun span c => ⟨.bool span false, by simp, rfl⟩
  | list _ ih => exact readable_list ih
  | array _ ih => exact readable_array ih
  | parens hs ih => exact readable_parens hs ih
  | noItems => exact readable_noItems
  | lastItem hs ih => exact readable_lastItem hs ih
  | item hs _ ih ihs => exact readable_item hs ih ihs
  | noFields => exact readable_noFields
  | lastField _ hs ih => exact readable_lastField hs ih
  | field _ hs _ ih ihs => exact readable_field hs ih ihs
  | plainType => exact readable_plainType
  | appliedType _ _ ih => exact readable_appliedType ih
  | arrayType _ hs ih ihe => exact readable_arrayType ih hs ihe
  | typeArg htype hs ih => exact readable_typeArg htype hs ih
  | valueArg htype hs ih => exact readable_valueArg htype hs ih
  | noArgs => exact readable_noArgs
  | lastArg hs ih => exact readable_lastArg hs ih
  | nextArg hs _ ih ihs => exact readable_nextArg hs ih ihs

end

end Unroll.Grammar
