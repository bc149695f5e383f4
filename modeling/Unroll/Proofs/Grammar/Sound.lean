import Unroll.Proofs.Grammar.Levels
/-!
# What is read is spelled

A phrase succeeds only past tokens that spell its result.  The proof follows the reader: every function of it gets one
lemma, over the assumption that the phrases inside are sound, and the bound on the tokens ties them together.
-/
namespace Unroll.Grammar

open Parse Cursor Outcome

/-- What the phrases inside another one read is spelled.  A sum of one token is one that no arithmetic operator
follows, since a sum takes every operator it meets. -/
structure Inner.Sound (inner : Inner) : Prop where
  expr : ∀ c, Reads c inner.expr fun ks e => Spells ks (.expr .lowest e.unplaced)
  sum : ∀ c, Reads c inner.sum fun ks e => Spells ks (.expr .sum e.unplaced)
  sum_goes_on : ∀ {c e c' k}, inner.sum c = .ok e c' → Past [k] c c' → c'.kind?.any arithmetic = false
  unary : ∀ c, Reads c inner.unary fun ks e => Spells ks (.expr .unary e.unplaced)
  typeRef : ∀ c, Reads c inner.typeRef fun ks t => Spells ks (.typeRef t.unplaced)

section chains

variable {level : Prec} {operand : Parse Expr}

/-- **Operands joined to one that is spelled at the level are spelled behind it.** -/
theorem chainFrom_reads (hl : level ≠ .comparison)
    (ho : ∀ c, Reads c operand fun ks e => Spells ks (.expr level.tighter e.unplaced)) (n : Nat) (c : Cursor)
    (left : Expr) : Reads c (chainFrom (opAt level) operand n left) fun ks e =>
      ∀ ls, Spells ls (.expr level left.unplaced) → Spells (ls ++ ks) (.expr level e.unplaced) := by
  induction n generalizing c left with
  | zero => exact .pure fun ls h => by simpa using h
  | succ n ih =>
    unfold chainFrom
    refine .peek ?_
    cases hop : c.kind?.bind (opAt level) with
    | none => exact .pure fun ls h => by simpa using h
    | some op =>
      obtain ⟨k, hk, hop⟩ := Option.bind_eq_some_iff.1 hop
      obtain ⟨rfl, rfl⟩ := opAt_iff.1 hop
      refine .skip hk ((ho _).bind fun right ks _ _ hr => ?_)
      refine (ih _ _).mono fun ks' e he ls hls => ?_
      have hplace : leftPlace op = op.prec := if_neg hl
      have hjoined := Spells.binary op (hplace ▸ hls) hr
      simpa using he _ hjoined

theorem chain_reads (hl : level ≠ .comparison)
    (ho : ∀ c, Reads c operand fun ks e => Spells ks (.expr level.tighter e.unplaced)) (n : Nat) (c : Cursor) :
    Reads c (chain (opAt level) operand n) fun ks e => Spells ks (.expr level e.unplaced) :=
  (ho c).bind fun left _ _ _ h => (chainFrom_reads hl ho n _ left).mono fun _ _ he => he _ h.looser

/-- A chain that takes nothing has seen that no operator of its level comes next. -/
theorem chainFrom_stays (hl : level ≠ .comparison)
    (ho : ∀ c, Reads c operand fun ks e => Spells ks (.expr level.tighter e.unplaced)) {n : Nat} {c : Cursor}
    {left e : Expr} (h : chainFrom (opAt level) operand (n + 1) left c = .ok e c) :
    c.kind?.bind (opAt level) = none := by
  unfold chainFrom at h
  rw [peek_bind] at h
  cases hop : c.kind?.bind (opAt level) with
  | none => rfl
  | some op =>
    obtain ⟨k, hk, -⟩ := Option.bind_eq_some_iff.1 hop
    obtain ⟨span, hc⟩ := eq_push_of_kind? hk
    simp only [hop, skip_bind] at h
    obtain ⟨right, m, hr, h⟩ := bind_ok.1 h
    obtain ⟨ks, hks, -⟩ := ho c.drop right m hr
    obtain ⟨ks', hks', -⟩ := chainFrom_reads hl ho n m _ e c h
    have hlength := congrArg (·.rest.length) hc
    simp only [rest_push, List.length_cons] at hlength
    have := hks.length
    have := hks'.length
    omega

end chains

/-! ## Lists -/

section lists

variable {inner : Inner}

theorem separated_reads {element : Parse Expr} {close : TokenKind}
    (he : ∀ c, Reads c element fun ks e => Spells ks (.expr .lowest e.unplaced)) (n : Nat) (c : Cursor) :
    Reads c (commaSeparated element (return !(← sees close)) n) fun ks es => Spells ks (.items (Expr.allUnplaced es)) := by
  induction n generalizing c with
  | zero => exact .endOfInput
  | succ n ih =>
    unfold commaSeparated
    refine (he c).bind fun e ks _ _ hks => Reads.eat.bind fun comma _ _ _ hcomma => ?_
    subst hcomma
    cases comma with
    | false => exact .pure (by simpa using Spells.lastItem hks)
    | true =>
      simp only [if_true, bind_assoc, pure_bind]
      refine .sees ?_
      split
      · refine (ih _).bind fun es ks' _ _ hes => .pure ?_
        simpa using Spells.item hks hes
      · exact .pure (by simpa using Spells.item hks Spells.noItems)

theorem items_reads {close : TokenKind} {element : Parse Expr}
    (he : ∀ c, Reads c element fun ks e => Spells ks (.expr .lowest e.unplaced)) (n : Nat) (c : Cursor) :
    Reads c (closedBy close element n) fun ks es => Spells ks (.items (Expr.allUnplaced es)) := by
  unfold closedBy
  refine .sees ?_
  split
  · exact .pure .noItems
  · exact separated_reads he n c

theorem templateArg_reads (hi : inner.Sound) (c : Cursor) :
    Reads c (templateArg inner) fun ks a => Spells ks (.arg a.unplaced) := by
  have htype : Reads c (do return .type (← inner.typeRef)) fun ks a => Spells ks (.arg (TypeArg.unplaced a)) :=
    (hi.typeRef c).bind fun t ks _ _ ht => .pure (by simpa using .typeArg ht.typeRef_startsType ht)
  have hvalue (hc : ∀ e c', inner.sum c = .ok e c' → ∀ ks, Past ks c c' → startsType ks = false) :
      Reads c (do return .value (← inner.sum)) fun ks a => Spells ks (.arg (TypeArg.unplaced a)) := by
    intro a c' h
    obtain ⟨e, m, he, h⟩ := bind_ok.1 h
    obtain ⟨rfl, rfl⟩ := pure_ok.1 h
    obtain ⟨ks, hks, hs⟩ := hi.sum c e m he
    exact ⟨ks, hks, .valueArg (hc e m he ks hks) hs⟩
  unfold templateArg
  refine .peek ?_
  dsimp only
  split
  · exact htype
  · rename_i n hn
    refine .peekSecond ?_
    simp only [pure_bind, any_arithmetic]
    split
    · rename_i hsecond
      -- the name alone is no sum here, since the operator behind it belongs to the sum
      refine hvalue fun e c' he ks hks => ?_
      obtain _ | ⟨k, _ | ⟨k', ks⟩⟩ := ks
      · rfl
      · have hstop := hi.sum_goes_on he hks
        rw [hks.second?] at hsecond
        cases hk : c'.kind? <;> simp_all
      · have hk : some k = some (.name n) := hks.kind?.symm.trans hn
        rw [hks.second?] at hsecond
        cases hk
        simpa [startsType] using hsecond
    · exact htype
  · rename_i hbracket hname
    refine hvalue fun e c' he ks hks => ?_
    obtain _ | ⟨k, ks⟩ := ks
    · rfl
    · have hk := hks.kind?
      unfold startsType
      split
      case h_1 heq =>
        cases heq
        exact absurd hk hbracket
      case h_2 heq | h_3 heq =>
        cases heq
        exact absurd hk (hname _)
      case h_4 => rfl

/-- Template arguments between commas, of which there is at least one. -/
theorem someArgs_reads (hi : inner.Sound) (n : Nat) (c : Cursor) :
    Reads c (commaSeparated (templateArg inner) (return true) n) fun ks as =>
      as ≠ [] ∧ Spells ks (.args (TypeArg.allUnplaced as)) := by
  induction n generalizing c with
  | zero => exact .endOfInput
  | succ n ih =>
    unfold commaSeparated
    refine (templateArg_reads hi c).bind fun a ks _ _ hks => Reads.eat.bind fun comma _ _ _ hcomma => ?_
    subst hcomma
    cases comma with
    | false => exact .pure ⟨by simp, by simpa using Spells.lastArg hks⟩
    | true =>
      simp only [if_true, pure_bind]
      refine (ih _).bind fun as ks' _ _ has => .pure ⟨by simp, ?_⟩
      obtain ⟨hne, has⟩ := has
      obtain ⟨b, bs, rfl⟩ := List.exists_cons_of_ne_nil hne
      simpa using Spells.nextArg hks has

theorem templateArgs_reads (hi : inner.Sound) (n : Nat) (c : Cursor) :
    Reads c (templateArgs inner n) fun ks as => Spells ks (.args (TypeArg.allUnplaced as)) := by
  unfold templateArgs
  refine .sees ?_
  split
  · exact .pure .noArgs
  · exact (someArgs_reads hi n c).mono fun _ _ h => h.2

theorem literalFields_reads (hi : inner.Sound) (opening : Span) (n : Nat) (c : Cursor) :
    Reads c (literalFields inner opening n) fun ks r =>
      ∃ ls, ks = ls ++ [.symbol .rbrace] ∧ Spells ls (.fields (Expr.fieldsUnplaced r.1)) := by
  induction n generalizing c with
  | zero => exact .endOfInput
  | succ n ih =>
    unfold literalFields
    refine .peek ?_
    split
    · exact Reads.expect.bind fun close _ _ _ hks => .pure ⟨[], by simpa using hks, .noFields⟩
    · exact .fail
    · refine Reads.ident.bind fun key _ _ _ hkey => Reads.expect.bind fun _ _ _ _ hcolon => ?_
      subst hkey hcolon
      refine (hi.expr _).bind fun value ks c' _ hvalue => .peek ?_
      dsimp only
      split
      · rename_i hcomma
        refine .skip hcomma ((ih _).bind fun r ks' _ _ hr => .pure ?_)
        obtain ⟨ls, rfl, hls⟩ := hr
        exact ⟨_, by simp, .field key.name hvalue hls⟩
      · rename_i hclose
        -- the next round sees the brace and reads no field before it
        refine (ih _).bind fun r ks' _ hks' hr => .pure ?_
        obtain ⟨ls, rfl, hls⟩ := hr
        generalize hfs : Expr.fieldsUnplaced r.1 = fs at hls
        cases hls with
        | noFields =>
          refine ⟨.name key.name :: .symbol .colon :: ks, by simp, ?_⟩
          simpa [hfs] using Spells.lastField key.name hvalue
        | lastField | field =>
          have := hks'.kind?.symm.trans hclose
          cases this
      · exact Reads.place.bind fun _ _ _ _ _ => Reads.fail.bind (P := fun _ _ => False) fun _ _ _ _ h => h.elim

end lists

/-! ## Types and operands -/

section operands

variable {inner : Inner}

theorem typeRefWith_reads (hi : inner.Sound) (n : Nat) (c : Cursor) :
    Reads c (typeRefWith n inner) fun ks t => Spells ks (.typeRef t.unplaced) := by
  unfold typeRefWith
  refine .sees ?_
  split
  · refine Reads.expect.bind fun _ _ _ _ hleft => (hi.typeRef _).bind fun elem ks _ _ helem => ?_
    refine Reads.expect.bind fun _ _ _ _ hsemi => (hi.expr _).bind fun len ks' _ _ hlen => ?_
    refine Reads.expect.bind fun _ _ _ _ hright => .pure ?_
    subst hleft hsemi hright
    simpa using Spells.arrayType helem hlen
  · refine Reads.ident.bind fun name _ _ _ hname => Reads.eat.bind fun applied _ _ _ happlied => ?_
    subst hname happlied
    cases applied with
    | false => exact .pure (.plainType name.name)
    | true =>
      refine (templateArgs_reads hi n _).bind fun args ks _ _ hargs => ?_
      refine Reads.expect.bind fun _ _ _ _ hclose => .pure ?_
      subst hclose
      simpa using Spells.appliedType name.name hargs

theorem integer_reads (v : Nat) (span : Span) (c : Cursor) :
    Reads c (integer v span) fun ks e => ks = [] ∧ Spells [.int v] (.expr .suffix e.unplaced) := by
  unfold integer
  split
  · exact .pure ⟨rfl, .int ‹_›⟩
  · exact .fail

theorem primary_reads (hi : inner.Sound) (n : Nat) (c : Cursor) :
    Reads c (primary n inner) fun ks e => Spells ks (.expr .suffix e.unplaced) := by
  refine Reads.next.bind fun t _ _ _ ht => ?_
  subst ht
  obtain ⟨kind, span⟩ := t
  cases kind with
  | name s => exact .pure (.name s)
  | int v => exact (integer_reads v span _).mono fun ks e h => by simpa [h.1] using h.2
  | char x => exact .pure (.char x)
  | text s => exact .pure (.text s)
  | keyword k =>
    cases k with
    | trueWord => exact .pure .yes
    | falseWord => exact .pure .no
    | _ => exact .fail
  | symbol s =>
    cases s with
    | lbrace =>
      refine (items_reads hi.expr n _).bind fun es ks _ _ hes => Reads.expect.bind fun _ _ _ _ hclose => .pure ?_
      subst hclose
      simpa using Spells.list hes
    | lbracket =>
      refine (items_reads hi.expr n _).bind fun es ks _ _ hes => Reads.expect.bind fun _ _ _ _ hclose => .pure ?_
      subst hclose
      simpa using Spells.array hes
    | lparen =>
      refine (hi.expr _).bind fun e ks _ _ he => Reads.expect.bind fun _ _ _ _ hclose => .pure ?_
      subst hclose
      simpa using Spells.parens he
    | _ => exact .fail
  | newline | indent | dedent | eof => exact .fail

/-! ## What follows an operand -/

/-- Behind tokens that spell the name, these spell the form that follows it. -/
def Behind (e : Expr) (ks : List TokenKind) (e' : Expr) : Prop :=
  ∀ ls, Spells ls (.expr .suffix e.unplaced) → Spells (ls ++ ks) (.expr .suffix e'.unplaced)

theorem recordLiteral_reads (hi : inner.Sound) (n : Nat) (start : Span) (type : Ident) (c : Cursor) :
    Reads c (recordLiteral n inner start type) fun ks e =>
      ∀ span, Behind (.name span type) ks e := by
  unfold recordLiteral
  refine Reads.expect.bind fun brace _ _ _ hbrace => (literalFields_reads hi _ n _).bind fun r _ _ _ hr => .pure ?_
  obtain ⟨ks, rfl, hfields⟩ := hr
  subst hbrace
  intro span ls hls
  simpa using Spells.record hls hfields

theorem call_reads (hi : inner.Sound) (n : Nat) (start : Span) (callee : Ident) (c : Cursor) :
    Reads c (call n inner start callee) fun ks e => ∀ span, Behind (.name span callee) ks e := by
  have hrest (gs : List TokenKind) (generic : List TypeArg)
      (hgeneric : ∀ ks' es span whole, Spells ks' (.items (Expr.allUnplaced es)) →
        Behind (.name span callee) (gs ++ .symbol .lparen :: ks' ++ [.symbol .rparen]) (.call whole callee generic es))
      (c : Cursor) : Reads c (do
        let _ ← expect (.symbol .lparen)
        let args ← closedBy (.symbol .rparen) inner.expr n
        let close ← expect (.symbol .rparen)
        return Expr.call (start.join close) callee generic args) fun ks e =>
          ∀ span, Behind (.name span callee) (gs ++ ks) e := by
    refine Reads.expect.bind fun _ _ _ _ hopen => (items_reads hi.expr n _).bind fun es ks _ _ hes => ?_
    refine Reads.expect.bind fun _ _ _ _ hclose => .pure fun span => ?_
    subst hopen hclose
    simpa using hgeneric ks es span _ hes
  unfold call
  refine Reads.eat.bind fun generic _ _ _ hgeneric => ?_
  subst hgeneric
  cases generic with
  | true =>
    refine Reads.expect.bind fun _ _ _ _ hlt => (templateArgs_reads hi n _).bind fun as gs _ _ has => ?_
    refine Reads.expect.bind fun _ _ _ _ hgt => ?_
    subst hlt hgt
    simp only [pure_bind]
    refine (hrest (.symbol .pathSep :: .symbol .lt :: gs ++ [.symbol .gt]) as ?_ _).mono fun ks e h => by simpa using h
    intro ks' es span whole hes ls hls
    simpa using Spells.genericCall hls has hes
  | false =>
    simp only [Bool.false_eq_true, if_false, pure_bind]
    refine hrest [] [] ?_ _
    intro ks' es span whole hes ls hls
    simpa using Spells.call hls hes

theorem suffix_reads (hi : inner.Sound) (n : Nat) (e : Expr) (c : Cursor) :
    Reads c (suffix? n inner e) fun ks r => Behind e ks (r.getD e) := by
  have hnone : Reads c (pure none) fun ks r => Behind e ks (Option.getD r e) := .pure fun ls h => by simpa using h
  have hsome {p : Parse Expr} (hp : Reads c p fun ks e' => Behind e ks e') :
      Reads c (do return some (← p)) fun ks r => Behind e ks (Option.getD r e) :=
    hp.bind fun e' ks _ _ h => .pure (by simpa using h)
  have hcall : Reads c (suffix?.callOf n inner e) fun ks e' => Behind e ks e' := by
    unfold suffix?.callOf
    split
    · exact (call_reads hi n _ _ c).mono fun ks e' h => h _
    · exact Reads.place.bind fun _ _ _ _ _ => .fail
  unfold suffix?
  refine .peek ?_
  split
  · exact hsome ((recordLiteral_reads hi n _ _ c).mono fun ks e' h => h _)
  · rename_i hdot
    refine .skip hdot (Reads.ident.bind fun m _ _ _ hm => .pure fun ls hls => ?_)
    subst hm
    simpa using Spells.member m.name hls
  · rename_i hopen
    refine .skip hopen ((hi.expr _).bind fun i ks _ _ hidx => Reads.expect.bind fun _ _ _ _ hclose => .pure fun ls hls => ?_)
    subst hclose
    simpa using Spells.index hls hidx
  · refine .peekSecond ?_
    split
    · exact hsome hcall
    · exact hnone
  · exact hsome hcall
  · exact hnone

theorem suffixesFrom_reads (hi : inner.Sound) (bound n : Nat) (e : Expr) (c : Cursor) :
    Reads c (suffixesFrom bound inner n e) fun ks e' => Behind e ks e' := by
  induction n generalizing e c with
  | zero => exact .pure fun ls h => by simpa using h
  | succ n ih =>
    unfold suffixesFrom
    refine (suffix_reads hi bound e c).bind fun r ks _ _ hr => ?_
    cases r with
    | none => exact .pure fun ls hls => by simpa using hr ls hls
    | some e' => exact (ih e' _).mono fun ks' e'' h ls hls => by simpa using h _ (hr ls hls)

theorem unaryWith_reads (hi : inner.Sound) (n : Nat) (c : Cursor) :
    Reads c (unaryWith n inner) fun ks e => Spells ks (.expr .unary e.unplaced) := by
  have hprefixed (op : UnaryOp) (hop : c.kind? = some (.symbol op.symbol)) :
      Reads c (unaryWith.prefixed inner op) fun ks e => Spells ks (.expr .unary e.unplaced) := by
    refine Reads.next.bind fun t _ _ hks ht => (hi.unary _).bind fun e ks _ _ he => .pure ?_
    subst ht
    have hkind : t.kind = .symbol op.symbol := Option.some.inj (hks.kind?.symm.trans hop)
    simpa [hkind] using Spells.unary op he
  unfold unaryWith
  refine .peek ?_
  split
  · exact hprefixed .not ‹_›
  · exact hprefixed .neg ‹_›
  · exact (primary_reads hi n c).bind fun e ks _ _ he =>
      (suffixesFrom_reads hi n n e _).mono fun ks' e' h => (h ks he).looser

theorem sumWith_reads (hi : inner.Sound) (n : Nat) (c : Cursor) :
    Reads c (sumWith n inner) fun ks e => Spells ks (.expr .sum e.unplaced) :=
  @chain_reads .sum _ (by decide) (@chain_reads .product _ (by decide) (unaryWith_reads hi n) n) n c

/-- A sum of one token is followed by no arithmetic operator. -/
theorem sumWith_goes_on (hi : inner.Sound) {n : Nat} {c c' : Cursor} {e : Expr} {k : TokenKind}
    (h : sumWith (n + 1) inner c = .ok e c') (hk : Past [k] c c') : c'.kind?.any arithmetic = false := by
  have hunary := unaryWith_reads hi (n + 1)
  have hproduct := @chain_reads .product _ (by decide) hunary (n + 1)
  obtain ⟨e₂, c₂, h₂, hsum⟩ := bind_ok.1 h
  obtain ⟨e₁, c₁, h₁, hprod⟩ := bind_ok.1 h₂
  obtain ⟨ks₁, hks₁, hs⟩ := hunary c e₁ c₁ h₁
  obtain ⟨k₁, rest, rfl, -⟩ := hs.begins
  obtain ⟨ks₂, hks₂, -⟩ := @chainFrom_reads .product _ (by decide) hunary (n + 1) c₁ e₁ e₂ c₂ hprod
  obtain ⟨ks₃, hks₃, -⟩ := @chainFrom_reads .sum _ (by decide) hproduct (n + 1) c₂ e₂ e c' hsum
  -- one token was taken, and the operand took it
  have hnil : ks₂ = [] ∧ ks₃ = [] := by
    have := hk.length
    have := hks₁.length
    have := hks₂.length
    have := hks₃.length
    simp only [List.length_cons, List.length_nil] at *
    constructor <;> exact List.length_eq_zero_iff.1 (by omega)
  obtain ⟨rfl, rfl⟩ := hnil
  cases past_nil.1 hks₂
  cases past_nil.1 hks₃
  have hproductOp := @chainFrom_stays .product _ (by decide) hunary _ _ _ _ hprod
  have hsumOp := @chainFrom_stays .sum _ (by decide) hproduct _ _ _ _ hsum
  rw [← any_arithmetic]
  cases hc : c'.kind? with
  | none => rfl
  | some k' =>
    rw [hc] at hproductOp hsumOp
    have hsumOp : sumOp? k' = none := hsumOp
    have hproductOp : productOp? k' = none := hproductOp
    simp [hsumOp, hproductOp]

theorem comparisonWith_reads (hi : inner.Sound) (n : Nat) (c : Cursor) :
    Reads c (comparisonWith n inner) fun ks e => Spells ks (.expr .comparison e.unplaced) := by
  unfold comparisonWith
  refine (sumWith_reads hi n c).bind fun left ks c' _ hleft => .peek ?_
  cases hop : c'.kind?.bind comparison? with
  | none => exact .pure (by simpa using hleft.looser)
  | some op =>
    obtain ⟨k, hk, hop⟩ := Option.bind_eq_some_iff.1 hop
    obtain ⟨rfl, hprec⟩ := (@opAt_iff .comparison k op).1 hop
    refine .skip hk ((sumWith_reads hi n _).bind fun right ks' c'' _ hright => .peek ?_)
    split
    · refine .pure ?_
      have hplace : leftPlace op = .sum := if_pos hprec
      have htighter : op.prec.tighter = .sum := by rw [hprec]; rfl
      have hjoined := Spells.binary op (hplace ▸ hleft) (htighter ▸ hright)
      simpa [hprec] using hjoined
    · exact Reads.place.bind fun _ _ _ _ _ => .fail

theorem exprWith_reads (hi : inner.Sound) (n : Nat) (c : Cursor) :
    Reads c (exprWith n inner) fun ks e => Spells ks (.expr .lowest e.unplaced) :=
  (@chain_reads .or _ (by decide) (@chain_reads .and _ (by decide) (comparisonWith_reads hi n) n) n c).mono
    fun _ _ h => h.looser

end operands

/-! ## The whole reader -/

theorem bounded_sound (n : Nat) : (bounded n).Sound := by
  induction n with
  | zero =>
    exact ⟨fun _ => .endOfInput, fun _ => .endOfInput, fun h => absurd h endOfInput_ok, fun _ => .endOfInput,
      fun _ => .endOfInput⟩
  | succ n ih =>
    exact ⟨exprWith_reads ih (n + 1), sumWith_reads ih (n + 1), sumWith_goes_on ih, unaryWith_reads ih (n + 1),
      typeRefWith_reads ih (n + 1)⟩

/-- **An expression that is read is spelled by the tokens it took.** -/
theorem expr_reads (n : Nat) (c : Cursor) : Reads c (expr n) fun ks e => Spells ks (.expr .lowest e.unplaced) :=
  (bounded_sound n).expr c

end Unroll.Grammar
