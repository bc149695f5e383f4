import Unroll.Proofs.Grammar.Reading
import Unroll.Proofs.Places
import Unroll.Proofs.Token.Structure
/-!
# Phrases stand where their tokens stand

Reading goes forward: what a phrase gives lies between the offset from which its tokens begin and the one from which
the rest of them begins.  `Places` says this of a phrase, with the first offset given; each phrase hands the second one
on to the next, so that the parts of a node come out in a row and the node covers them.
-/
namespace Unroll

/-- **The tokens ahead**: in order, none before the one offset, none behind the other. -/
structure Spread (lo hi : Nat) (ts : List Token) : Prop where
  le : lo ≤ hi
  sorted : ts.Pairwise Token.Before
  starts : ∀ t ∈ ts, lo ≤ t.span.offset
  stops : ∀ t ∈ ts, t.kind ≠ .dedent → t.span.stop ≤ hi
  opened : ts.IsChain Token.MayOpen

namespace Spread

variable {lo hi : Nat} {t : Token} {ts us : List Token}

theorem of_suffix (h : Spread lo hi ts) (hus : us <:+ ts) : Spread lo hi us :=
  ⟨h.le, h.sorted.sublist hus.sublist, fun t ht => h.starts t (hus.subset ht), fun t ht => h.stops t (hus.subset ht),
    h.opened.infix hus.isInfix⟩

theorem tail (h : Spread lo hi (t :: ts)) (hk : t.kind ≠ .dedent) : Spread t.span.stop hi ts :=
  have hrest := h.of_suffix (List.suffix_cons t ts)
  { hrest with
    le := h.stops t (List.mem_cons_self ..) hk
    starts := fun u hu => ((List.pairwise_cons.1 h.sorted).1 u hu).2 hk }

end Spread

/-- **The tokens of a text are ahead of its start.** -/
theorem tokens_spread {source : String} {ts : List Token} (h : tokens source = .ok ts) :
    Spread 0 (Text.width source.toList) ts := by
  refine ⟨Nat.zero_le _, tokens_before h, fun _ _ => Nat.zero_le _, fun t ht hk => ?_, tokens_opened h⟩
  obtain ⟨front, hfront, rfl⟩ := tokens_between h
  rcases List.mem_append.1 ht with ht | ht
  · exact hfront.stops t ht hk
  · rw [List.mem_singleton.1 ht]
    exact Nat.le_refl _

namespace Parse

open Outcome Plan

variable {α β : Type} {lo hi : Nat}

/-- **What the phrase gives**, from tokens that begin at `lo`, is as said, and so is the offset where the rest begins. -/
def Places (hi lo : Nat) (p : Parse α) (Q : Nat → α → Prop) : Prop :=
  ∀ c a c', Spread lo hi c.rest → p c = .ok a c' → ∃ mid, lo ≤ mid ∧ Spread mid hi c'.rest ∧ Q mid a

/-- The phrase gives parts in a row. -/
def Rows (hi : Nat) (p : Parse α) (parts : α → List Plan) : Prop :=
  ∀ lo, Places hi lo p fun mid a => Row lo mid (parts a)

namespace Places

variable {p : Parse α} {f : α → Parse β} {P Q : Nat → α → Prop} {R : Nat → β → Prop}

theorem bind (hp : Places hi lo p P) (hf : ∀ a mid, lo ≤ mid → P mid a → Places hi mid (f a) R) :
    Places hi lo (p >>= f) R := by
  intro c b c' hc h
  obtain ⟨a, t, ha, hb⟩ := bind_ok.1 h
  obtain ⟨mid, hmid, ht, hP⟩ := hp c a t hc ha
  obtain ⟨mid', hmid', hc', hR⟩ := hf a mid hmid hP t b c' ht hb
  exact ⟨mid', Nat.le_trans hmid hmid', hc', hR⟩

theorem pure {a : α} (h : Q lo a) : Places hi lo (Pure.pure a) Q := by
  intro c b c' hc hb
  obtain ⟨rfl, rfl⟩ := pure_ok.1 hb
  exact ⟨lo, Nat.le_refl _, hc, h⟩

theorem fail {fault : ParseFault} {span : Span} : Places hi lo (Parse.fail fault span) Q :=
  fun _ _ _ _ h => absurd h fail_ok

theorem endOfInput : Places hi lo Parse.endOfInput Q := fun _ _ _ _ h => absurd h endOfInput_ok

theorem peek {f : Option TokenKind → Parse β} (hf : ∀ k, Places hi lo (f k) R) : Places hi lo (Parse.peek >>= f) R :=
  fun c => hf c.kind? c

theorem peekSecond {f : Option TokenKind → Parse β} (hf : ∀ k, Places hi lo (f k) R) :
    Places hi lo (Parse.peekSecond >>= f) R :=
  fun c => hf c.second? c

theorem sees {k : TokenKind} {f : Bool → Parse β} (hf : ∀ b, Places hi lo (f b) R) :
    Places hi lo (Parse.sees k >>= f) R :=
  fun c => hf (c.kind? == some k) c

theorem place {other : Span} {f : Span → Parse β} (hf : ∀ s, Places hi lo (f s) R) :
    Places hi lo (Parse.place other >>= f) R := by
  intro c b c' hc h
  obtain ⟨s, m, hs, h⟩ := bind_ok.1 h
  unfold Parse.place at hs
  obtain ⟨_, _, hget, hpure⟩ := bind_ok.1 hs
  obtain ⟨rfl, rfl⟩ := get_ok.1 hget
  obtain ⟨-, rfl⟩ := pure_ok.1 hpure
  exact hf s c b c' hc h

theorem dropping {f : Cursor → Cursor} (hf : ∀ c, (f c).rest <:+ c.rest) :
    Places hi lo (modify f : Parse Unit) fun _ _ => True := by
  intro c a c' hc h
  have hc' := modify_ok.1 h
  subst hc'
  exact ⟨lo, Nat.le_refl _, hc.of_suffix (hf c), trivial⟩

theorem skip : Places hi lo Parse.skip fun _ _ => True := dropping fun _ => List.tail_suffix _

theorem skipNewlines : Places hi lo Parse.skipNewlines fun _ _ => True := dropping fun _ => List.dropWhile_suffix _

/-- **A token moves the offset to its end**, if it is no dedent. -/
theorem next : Places hi lo Parse.next fun mid t =>
    lo ≤ t.span.offset ∧ t.span.offset ≤ t.span.stop ∧ (t.kind ≠ .dedent → t.span.stop = mid) := by
  intro c t c' hc h
  obtain rfl := next_ok.1 h
  have hstart := hc.starts t (List.mem_cons_self ..)
  have hlength := t.span.offset_le_stop
  by_cases hk : t.kind = .dedent
  · exact ⟨lo, Nat.le_refl _, hc.of_suffix (List.suffix_cons _ _), hstart, hlength, fun hne => absurd hk hne⟩
  · exact ⟨t.span.stop, Nat.le_trans hstart hlength, hc.tail hk, hstart, hlength, fun _ => rfl⟩

theorem expect {k : TokenKind} (hk : k ≠ .dedent) :
    Places hi lo (Parse.expect k) fun mid s => lo ≤ s.offset ∧ s.offset ≤ s.stop ∧ s.stop = mid := by
  intro c s c' hc h
  obtain rfl := expect_ok.1 h
  obtain ⟨mid, hmid, hc', hstart, hlength, hstop⟩ := next _ _ _ hc next_push
  exact ⟨mid, hmid, hc', hstart, hlength, hstop hk⟩

theorem taken {k : TokenKind} : Places hi lo (Parse.expect k) fun _ _ => True := by
  intro c s c' hc h
  obtain rfl := expect_ok.1 h
  exact ⟨lo, Nat.le_refl _, hc.of_suffix (List.suffix_cons _ _), trivial⟩

theorem ident : Places hi lo Parse.ident fun mid id =>
    lo ≤ id.span.offset ∧ id.span.offset ≤ id.span.stop ∧ id.span.stop = mid := by
  intro c id c' hc h
  obtain rfl := ident_ok.1 h
  obtain ⟨mid, hmid, hc', hstart, hlength, hstop⟩ := next _ _ _ hc next_push
  exact ⟨mid, hmid, hc', hstart, hlength, hstop (by simp)⟩

theorem eat {k : TokenKind} : Places hi lo (Parse.eat k) fun _ _ => True :=
  sees fun b => by
    split
    · exact skip.bind fun _ _ _ _ => pure trivial
    · exact pure trivial

theorem lineEnd : Places hi lo Parse.lineEnd fun _ _ => True :=
  peek fun k => by
    split
    · exact skip
    · exact pure trivial
    · exact pure trivial
    · exact place fun _ => fail

/-- What is read counts for nothing. -/
theorem bind' (hp : Places hi lo p fun _ _ => True) (hf : ∀ a mid, lo ≤ mid → Places hi mid (f a) R) :
    Places hi lo (p >>= f) R := hp.bind fun a mid hmid _ => hf a mid hmid

end Places

theorem commaSeparated_rows {element : Parse α} {part : α → Plan} {more : Parse Bool}
    (he : Rows hi element fun a => [part a]) (hm : ∀ lo, Places hi lo more fun _ _ => True) :
    ∀ n, Rows hi (commaSeparated element more n) (List.map part)
  | 0 => fun _ => .endOfInput
  | n + 1 => by
    intro lo
    unfold commaSeparated
    refine (he lo).bind fun a h1 _ ha => Places.eat.bind' fun b h2 hb => ?_
    have hone : ∀ mid, h1 ≤ mid → Row lo mid ([a].map part) := fun mid hmid => ha.mono (Nat.le_refl _) hmid
    split
    · refine (hm h2).bind' fun b h3 hb' => ?_
      split
      · refine (commaSeparated_rows he hm n h3).bind fun as h4 _ has => .pure ?_
        exact (hone h3 (by omega)).append (Nat.le_refl _) has
      · exact .pure (hone h3 (by omega))
    · exact .pure (hone h2 hb)

theorem closedBy_rows {close : TokenKind} {element : Parse α} {part : α → Plan}
    (he : Rows hi element fun a => [part a]) (n : Nat) : Rows hi (closedBy close element n) (List.map part) := by
  intro lo
  refine .sees fun b => ?_
  split
  · exact .pure (Nat.le_refl lo)
  · exact commaSeparated_rows he (fun _ => .sees fun _ => .pure trivial) n lo

end Parse

namespace Grammar

open Parse Plan

/-! ## Expressions and types -/

structure Inner.Rows (hi : Nat) (inner : Inner) : Prop where
  expr : Parse.Rows hi inner.expr fun e => [e.plan]
  sum : Parse.Rows hi inner.sum fun e => [e.plan]
  unary : Parse.Rows hi inner.unary fun e => [e.plan]
  typeRef : Parse.Rows hi inner.typeRef fun t => [t.plan]

variable {inner : Inner} {lo hi : Nat}

theorem binary_row {mid mid' : Nat} {l r : Expr} (op : BinOp) (hl : Row lo mid [l.plan]) (hmid : mid ≤ mid')
    (hr : Row mid' hi [r.plan]) : Row lo hi [(binary l op r).plan] := by
  have hb := hl.place l.plan_span
  exact (hl.tight l.plan_span).closing hr r.plan_span (by omega) (by omega) (Nat.le_refl _)

theorem chainFrom_rows {op? : TokenKind → Option BinOp} {operand : Parse Expr}
    (ho : Rows hi operand fun e => [e.plan]) :
    ∀ n {left : Expr} {start mid : Nat}, Row start mid [left.plan] →
      Places hi mid (chainFrom op? operand n left) fun mid e => Row start mid [e.plan]
  | 0, left, start, mid, hl => .pure hl
  | n + 1, left, start, mid, hl => by
    unfold chainFrom
    refine .peek fun k => ?_
    split
    · exact .pure hl
    · refine Places.skip.bind' fun _ h1 hmid => (ho h1).bind fun right h2 _ hr => ?_
      exact chainFrom_rows ho n (binary_row _ hl hmid hr)

theorem chain_rows {op? : TokenKind → Option BinOp} {operand : Parse Expr} (ho : Rows hi operand fun e => [e.plan])
    (n : Nat) : Rows hi (chain op? operand n) fun e => [e.plan] :=
  fun lo => (ho lo).bind fun _ _ _ hl => chainFrom_rows ho n hl

theorem templateArg_rows (hinner : inner.Rows hi) : Rows hi (templateArg inner) fun a => [a.plan] := by
  intro lo
  have hvalue : Places hi lo (do return TypeArg.value (← inner.sum)) fun mid a => Row lo mid [a.plan] :=
    (hinner.sum lo).bind fun e _ _ he => .pure he
  have htype : Places hi lo (do return TypeArg.type (← inner.typeRef)) fun mid a => Row lo mid [a.plan] :=
    (hinner.typeRef lo).bind fun t _ _ ht => .pure ht
  unfold templateArg
  refine .peek fun k => ?_
  dsimp only
  split
  · exact htype
  · refine .peekSecond fun k' => ?_
    simp only [pure_bind]
    split
    · exact hvalue
    · exact htype
  · exact hvalue

theorem templateArgs_rows (hinner : inner.Rows hi) (n : Nat) : Rows hi (templateArgs inner n) TypeArg.plans := by
  intro lo
  refine .sees fun b => ?_
  split
  · exact .pure (Nat.le_refl lo)
  · simp only [TypeArg.plans_eq]
    exact commaSeparated_rows (templateArg_rows hinner) (fun _ => .pure trivial) n lo

theorem exprs_rows (hinner : inner.Rows hi) (close : TokenKind) (n : Nat) :
    Rows hi (closedBy close inner.expr n) Expr.plans := by
  intro lo
  simp only [Expr.plans_eq]
  exact closedBy_rows hinner.expr n lo

theorem typeRefWith_rows (hinner : inner.Rows hi) (n : Nat) : Rows hi (typeRefWith n inner) fun t => [t.plan] := by
  intro lo
  refine .sees fun b => ?_
  split
  · refine (Places.expect (by simp)).bind fun left h1 _ hl => ?_
    refine (hinner.typeRef h1).bind fun elem h2 _ he => (Places.expect (by simp)).bind fun semi h3 _ _ => ?_
    refine (hinner.expr h3).bind fun len h4 _ hlen => (Places.expect (by simp)).bind fun right h5 _ hr => .pure ?_
    have hparts := he.append (by omega) hlen
    exact hparts.joined (by omega) (by omega) (by omega)
  · refine Places.ident.bind fun id h1 _ hid => Places.eat.bind' fun b h2 _ => ?_
    have hname := Row.here id.span
    split
    · refine (templateArgs_rows hinner n h2).bind fun args h3 _ ha => ?_
      refine (Places.expect (by simp)).bind fun close h4 _ hc => .pure ?_
      have hparts := hname.append (by omega) ha
      exact hparts.joined (by omega) (by omega) (by omega)
    · exact .pure (.node hname (by omega) (by omega))

theorem integer_rows (value : Nat) {span : Span} {mid : Nat} (hlo : lo ≤ span.offset) (hmid : span.stop ≤ mid) :
    Places hi mid (integer value span) fun mid e => Row lo mid [e.plan] := by
  unfold integer
  split
  · exact .pure (.leaf hlo hmid)
  · exact .fail

theorem primary_rows (hinner : inner.Rows hi) (n : Nat) : Rows hi (primary n inner) fun e => [e.plan] := by
  intro lo
  refine Places.next.bind fun t h1 _ ht => ?_
  obtain ⟨kind, span⟩ := t
  obtain ⟨hstart, hlength, hstop⟩ := ht
  have hone : kind ≠ .dedent → Row lo h1 [.leaf span] := fun hk => .leaf hstart (Nat.le_of_eq (hstop hk))
  have hbracketed : ∀ {close : TokenKind} (make : Span → List Expr → Expr), close ≠ .dedent → kind ≠ .dedent →
      (∀ s items, (make s items).plan = .node s (Expr.plans items)) → Places hi h1 (do
        let items ← closedBy close inner.expr n
        return make (span.join (← expect close)) items) fun mid e => Row lo mid [e.plan] := by
    intro close make hclose hk hplan
    have hspan := hstop hk
    refine (exprs_rows hinner close n h1).bind fun items h2 _ hi => (Places.expect hclose).bind fun right h3 _ hr => ?_
    refine .pure ?_
    rw [hplan]
    dsimp only at hstart hlength hspan
    exact hi.joined (by omega) (by omega) (by omega)
  cases kind with
  | name n => exact .pure (.node (.leaf (Nat.le_refl _) (Nat.le_refl _)) hstart (Nat.le_of_eq (hstop (by simp))))
  | int v => exact integer_rows v hstart (Nat.le_of_eq (hstop (by simp)))
  | char _ | text _ => exact .pure (hone (by simp))
  | keyword k =>
    cases k with
    | trueWord | falseWord => exact .pure (hone (by simp))
    | _ => exact .fail
  | symbol s =>
    cases s with
    | lbrace => exact hbracketed .list (by simp) (by simp) fun _ _ => rfl
    | lbracket => exact hbracketed .array (by simp) (by simp) fun _ _ => rfl
    | lparen =>
      refine (hinner.expr h1).bind fun e h2 _ he => (Places.expect (by simp)).bind fun _ h3 _ _ => .pure ?_
      exact he.mono (by omega) (by omega)
    | _ => exact .fail
  | newline | indent | dedent | eof => exact .fail

/-- The fields come in a row, and the closing brace behind them. -/
theorem literalFields_places (hinner : inner.Rows hi) (opening : Span) : ∀ n lo,
    Places hi lo (literalFields inner opening n) fun mid r =>
      ∃ stop, Row lo stop (Expr.fieldPlans r.1) ∧ stop ≤ r.2.offset ∧ r.2.stop ≤ mid
  | 0, _ => .endOfInput
  | n + 1, lo => by
    unfold literalFields
    refine .peek fun k => ?_
    split
    · exact (Places.expect (by simp)).bind fun close h1 _ hc => .pure ⟨lo, Nat.le_refl lo, hc.1, Nat.le_of_eq hc.2.2⟩
    · exact .fail
    · refine Places.ident.bind fun key h1 _ hkey => (Places.expect (by simp)).bind fun _ h2 _ _ => ?_
      refine (hinner.expr h2).bind fun value h3 _ hv => .peek fun k => ?_
      have hone : Row lo h3 [.leaf key.span, value.plan] :=
        .append (by omega) (.leaf hkey.1 (Nat.le_of_eq hkey.2.2)) hv
      have hrest : ∀ h4, h3 ≤ h4 → Places hi h4 (literalFields inner opening n >>= fun r =>
          pure ((key, value) :: r.1, r.2)) fun mid r =>
            ∃ stop, Row lo stop (Expr.fieldPlans r.1) ∧ stop ≤ r.2.offset ∧ r.2.stop ≤ mid := by
        intro h4 hgap
        refine (literalFields_places hinner opening n h4).bind fun r h5 _ hr => .pure ?_
        obtain ⟨stop, hfields, hclose⟩ := hr
        exact ⟨stop, hone.append hgap hfields, hclose⟩
      dsimp only
      split
      · exact Places.skip.bind' fun _ h4 hgap => hrest h4 hgap
      · exact hrest h3 (Nat.le_refl _)
      · exact .place fun _ => Places.fail.bind' fun _ h4 hgap => hrest h4 hgap

theorem recordLiteral_places (hinner : inner.Rows hi) (n : Nat) {start : Span} {type : Ident} {low mid : Nat}
    (hname : Row low mid [(Expr.name start type).plan]) :
    Places hi mid (recordLiteral n inner start type) fun mid e => Row low mid [e.plan] := by
  obtain ⟨hnested, hlow, hstop⟩ := hname
  have hstop' : start.stop ≤ mid := hstop
  have htype : Row start.offset start.stop [.leaf type.span] := hnested.row
  refine (Places.expect (by simp)).bind fun brace h1 hmid hb => ?_
  refine (literalFields_places hinner _ n h1).bind fun r h2 _ hr => .pure ?_
  obtain ⟨stop, hfields, hclose, hend⟩ := hr
  have hparts := htype.append (by omega) hfields
  have hspan := start.offset_le_stop
  have hlow' : low ≤ start.offset := hlow
  have hbrace := r.2.offset_le_stop
  have hle := hfields.le
  exact hparts.joined (by omega) (by omega) (by omega)

theorem call_places (hinner : inner.Rows hi) (n : Nat) {start : Span} {callee : Ident} {low mid : Nat}
    (hname : Row low mid [(Expr.name start callee).plan]) :
    Places hi mid (call n inner start callee) fun mid e => Row low mid [e.plan] := by
  obtain ⟨hnested, hlow, hstop⟩ := hname
  have hlow' : low ≤ start.offset := hlow
  have hstop' : start.stop ≤ mid := hstop
  have hspan := start.offset_le_stop
  have hcallee : Row start.offset start.stop [.leaf callee.span] := hnested.row
  have hrest : ∀ {generic h1}, Row start.offset h1 (.leaf callee.span :: TypeArg.plans generic) →
      start.stop ≤ h1 → Places hi h1 (do
        let _ ← expect (.symbol .lparen)
        let args ← closedBy (.symbol .rparen) inner.expr n
        let close ← expect (.symbol .rparen)
        return Expr.call (start.join close) callee generic args) fun mid e => Row low mid [e.plan] := by
    intro generic h1 hg hh1
    refine (Places.expect (by simp)).bind fun _ h2 _ _ => (exprs_rows hinner _ n h2).bind fun args h3 _ ha => ?_
    refine (Places.expect (by simp)).bind fun close h4 _ hc => .pure ?_
    have hparts := hg.append (by omega) ha
    exact hparts.joined (by omega) (by omega) (by omega)
  unfold call
  refine Places.eat.bind' fun b h1 _ => ?_
  dsimp only
  split
  · refine (Places.expect (by simp)).bind fun _ h2 _ _ => (templateArgs_rows hinner n h2).bind fun args h3 _ ha => ?_
    refine (Places.expect (by simp)).bind fun _ h4 _ _ => ?_
    simp only [pure_bind]
    exact hrest ((hcallee.append (by omega) ha).mono (Nat.le_refl _) (by omega)) (by omega)
  · simp only [pure_bind]
    exact hrest (hcallee.mono (Nat.le_refl _) (by omega)) (by omega)

theorem suffix_places (hinner : inner.Rows hi) (n : Nat) {e : Expr} {low mid : Nat} (he : Row low mid [e.plan]) :
    Places hi mid (suffix? n inner e) fun mid r => Row low mid [(r.getD e).plan] := by
  have hsome : ∀ {p : Parse Expr} {h1 : Nat}, Places hi h1 p (fun mid e => Row low mid [e.plan]) →
      Places hi h1 (do return some (← p)) fun mid r => Row low mid [(r.getD e).plan] :=
    fun hp => hp.bind fun e' _ _ he' => .pure he'
  have hcall : Places hi mid (suffix?.callOf n inner e) fun mid e => Row low mid [e.plan] := by
    unfold suffix?.callOf
    split
    · exact call_places hinner n he
    · exact .place fun _ => .fail
  have hb := he.place e.plan_span
  unfold suffix?
  refine .peek fun k => ?_
  split
  · exact hsome (recordLiteral_places hinner n he)
  · refine Places.skip.bind' fun _ h1 _ => Places.ident.bind fun m h2 _ hm => .pure ?_
    have hparts := (he.tight e.plan_span).append (by omega) (.leaf hm.1 (Nat.le_refl _))
    exact hparts.joined (by omega) (by omega) (by omega)
  · refine Places.skip.bind' fun _ h1 _ => (hinner.expr h1).bind fun i h2 _ hi => ?_
    refine (Places.expect (by simp)).bind fun close h3 _ hc => .pure ?_
    have hparts := (he.tight e.plan_span).append (by omega) hi
    exact hparts.joined (by omega) (by omega) (by omega)
  · refine .peekSecond fun k => ?_
    split
    · exact hsome hcall
    · exact .pure he
  · exact hsome hcall
  · exact .pure he

theorem suffixesFrom_places (hinner : inner.Rows hi) (bound : Nat) : ∀ n {e : Expr} {low mid : Nat},
    Row low mid [e.plan] → Places hi mid (suffixesFrom bound inner n e) fun mid e => Row low mid [e.plan]
  | 0, _, _, _, he => .pure he
  | n + 1, e, low, mid, he => by
    unfold suffixesFrom
    refine (suffix_places hinner bound he).bind fun r h1 _ hr => ?_
    cases r with
    | none => exact .pure hr
    | some e' => exact suffixesFrom_places hinner bound n hr

/-- The operator in front is the token that was seen, so that it is no dedent. -/
theorem prefixed_places (hinner : inner.Rows hi) {op : UnaryOp} {k : TokenKind} {c c' : Cursor} {e : Expr}
    (hc : Spread lo hi c.rest) (hk : c.kind? = some k) (hne : k ≠ .dedent)
    (h : unaryWith.prefixed inner op c = .ok e c') : ∃ mid, lo ≤ mid ∧ Spread mid hi c'.rest ∧ Row lo mid [e.plan] := by
  obtain ⟨t, m, ht, h⟩ := Outcome.bind_ok.1 h
  obtain ⟨h1, hle1, hm, hstart, hlength, hstop⟩ := Places.next _ _ _ hc ht
  have hkind : t.kind = k := by
    rw [next_ok.1 ht] at hk
    exact Option.some.inj hk
  have hspan := hstop (hkind ▸ hne)
  obtain ⟨operand, m', hoperand, h⟩ := Outcome.bind_ok.1 h
  obtain ⟨h2, hle2, hm', hrow⟩ := hinner.unary h1 _ _ _ hm hoperand
  obtain ⟨rfl, rfl⟩ := Outcome.pure_ok.1 h
  have hb := hrow.place operand.plan_span
  refine ⟨h2, Nat.le_trans hle1 hle2, hm', ?_⟩
  exact (hrow.tight operand.plan_span).joined (by omega) (by omega) (by omega)

theorem unaryWith_rows (hinner : inner.Rows hi) (n : Nat) : Rows hi (unaryWith n inner) fun e => [e.plan] := by
  intro lo c e c' hc h
  unfold unaryWith at h
  rw [peek_bind] at h
  generalize hk : c.kind? = k at h
  split at h
  · exact prefixed_places hinner hc hk (by simp) h
  · exact prefixed_places hinner hc hk (by simp) h
  · have hsuffixed : Places hi lo (primary n inner >>= suffixesFrom n inner n) fun mid e => Row lo mid [e.plan] :=
      (primary_rows hinner n lo).bind fun e h1 _ he => suffixesFrom_places hinner n n he
    exact hsuffixed c e c' hc h

theorem sumWith_rows (hinner : inner.Rows hi) (n : Nat) : Rows hi (sumWith n inner) fun e => [e.plan] :=
  chain_rows (chain_rows (unaryWith_rows hinner n) n) n

theorem comparisonWith_rows (hinner : inner.Rows hi) (n : Nat) :
    Rows hi (comparisonWith n inner) fun e => [e.plan] := by
  intro lo
  refine (sumWith_rows hinner n lo).bind fun left h1 _ hl => .peek fun k => ?_
  split
  · exact .pure hl
  · rename_i op _
    refine Places.skip.bind' fun _ h2 hgap => (sumWith_rows hinner n h2).bind fun right h3 _ hr => .peek fun k => ?_
    split
    · exact .pure (binary_row op hl hgap hr)
    · exact .place fun _ => .fail

theorem exprWith_rows (hinner : inner.Rows hi) (n : Nat) : Rows hi (exprWith n inner) fun e => [e.plan] :=
  chain_rows (chain_rows (comparisonWith_rows hinner n) n) n

theorem bounded_rows (hi : Nat) : ∀ n, (bounded n).Rows hi
  | 0 => ⟨fun _ => .endOfInput, fun _ => .endOfInput, fun _ => .endOfInput, fun _ => .endOfInput⟩
  | n + 1 =>
    have hinner := bounded_rows hi n
    ⟨exprWith_rows hinner (n + 1), sumWith_rows hinner (n + 1), unaryWith_rows hinner (n + 1),
      typeRefWith_rows hinner (n + 1)⟩

theorem expr_rows (n : Nat) : Rows hi (expr n) fun e => [e.plan] := (bounded_rows hi n).expr

theorem typeRef_rows (n : Nat) : Rows hi (typeRef n) fun t => [t.plan] := (bounded_rows hi n).typeRef

/-! ## Statements -/

theorem typeBehind_rows (mark : Symbol) (n : Nat) : Rows hi (typeBehind mark n) TypeRef.plan? := by
  intro lo
  refine Places.eat.bind' fun b h1 hgap => ?_
  split
  · exact (typeRef_rows n h1).bind fun t h2 _ ht => .pure (ht.mono hgap (Nat.le_refl _))
  · exact .pure hgap

theorem templateParam_rows (n : Nat) : Rows hi (templateParam n) fun p => [p.plan] := by
  intro lo
  refine .sees fun b => ?_
  split
  · refine (Places.expect (by simp)).bind fun start h1 _ hs => Places.ident.bind fun name h2 _ hn => ?_
    refine (Places.expect (by simp)).bind fun _ h3 _ _ => (typeRef_rows n h3).bind fun type h4 _ ht => .pure ?_
    have hname := Row.here name.span
    exact hname.closing ht type.plan_span (by omega) (by omega) (Nat.le_refl _)
  · refine Places.ident.bind fun name h1 _ hn => Places.eat.bind' fun b h2 _ => ?_
    have hname := Row.here name.span
    split
    · refine Places.ident.bind fun bound h3 _ hb => .pure ?_
      have hbound : Row h2 h3 [.leaf bound.span] := .leaf hb.1 (Nat.le_of_eq hb.2.2)
      exact hname.closing hbound rfl (by omega) (by omega) (Nat.le_refl _)
    · have hend : name.span.stop ≤ h2 := by omega
      exact .pure (.node hname hn.1 hend)

theorem templateParams_rows (n : Nat) : Rows hi (templateParams n) (List.map TemplateParam.plan) := by
  intro lo
  have hrest : ∀ h1, lo ≤ h1 → Places hi h1 (do
      let params ← commaSeparated (templateParam n) (return true) n
      let _ ← expect (.symbol .gt)
      return params) fun mid ps => Row lo mid (ps.map TemplateParam.plan) := by
    intro h1 hgap
    refine (commaSeparated_rows (templateParam_rows n) (fun _ => .pure trivial) n h1).bind fun ps h2 _ hps => ?_
    exact (Places.expect (by simp)).bind fun _ h3 hle _ => .pure (hps.mono hgap hle)
  refine .sees fun b => ?_
  split
  · refine (Places.expect (by simp)).bind fun opening h1 hgap _ => .sees fun b => ?_
    dsimp only
    split
    · exact Places.fail.bind' fun _ h2 hle => hrest h2 (Nat.le_trans hgap hle)
    · exact hrest h1 hgap
  · exact .pure (Nat.le_refl lo)

theorem param_rows (n : Nat) : Rows hi (param n) fun p => [p.plan] := by
  intro lo
  refine Places.ident.bind fun name h1 _ hn => (Places.expect (by simp)).bind fun _ h2 _ _ => ?_
  refine Places.eat.bind' fun mutable h3 _ => (typeRef_rows n h3).bind fun type h4 _ ht => .pure ?_
  have hname := Row.here name.span
  exact hname.closing ht type.plan_span (by omega) (by omega) (Nat.le_refl _)

theorem traitDef_rows : Rows hi traitDef fun s => [s.plan] := by
  intro lo
  refine (Places.expect (by simp)).bind fun start h1 _ hs => Places.ident.bind fun name h2 _ hn => ?_
  refine Places.lineEnd.bind' fun _ h3 _ => .pure ?_
  have hname := Row.here name.span
  exact hname.joined (by omega) (by omega) (by omega)

/-- The fields come in a row, and the closing brace behind them. -/
theorem recordFields_places (bound : Nat) (opening : Span) : ∀ n lo,
    Places hi lo (recordFields bound opening n) fun mid r =>
      ∃ stop, Row lo stop (r.1.map RecordField.plan) ∧ stop ≤ r.2.offset ∧ r.2.stop ≤ mid
  | 0, _ => .endOfInput
  | n + 1, lo => by
    unfold recordFields
    refine .peek fun k => ?_
    split
    · refine (Places.expect (by simp)).bind fun close h1 _ hc => Places.lineEnd.bind' fun _ h2 hle => .pure ?_
      exact ⟨lo, Nat.le_refl lo, hc.1, Nat.le_trans (Nat.le_of_eq hc.2.2) hle⟩
    · exact .fail
    · refine Places.eat.bind' fun hidden h1 _ => Places.ident.bind fun name h2 _ hn => ?_
      refine (Places.expect (by simp)).bind fun _ h3 _ _ => (typeRef_rows bound h3).bind fun type h4 _ ht => ?_
      have hname := Row.here name.span
      have hone : Row lo h4 [RecordField.plan ⟨name.span.join type.span, name, type, hidden⟩] :=
        hname.closing ht type.plan_span (by omega) (by omega) (Nat.le_refl _)
      have hrest : ∀ h5, h4 ≤ h5 → Places hi h5 (recordFields bound opening n >>= fun r =>
          pure (⟨name.span.join type.span, name, type, hidden⟩ :: r.1, r.2)) fun mid r =>
            ∃ stop, Row lo stop (r.1.map RecordField.plan) ∧ stop ≤ r.2.offset ∧ r.2.stop ≤ mid := by
        intro h5 hgap
        refine (recordFields_places bound opening n h5).bind fun r h6 _ hr => .pure ?_
        obtain ⟨stop, hfields, hclose⟩ := hr
        exact ⟨stop, hone.append hgap hfields, hclose⟩
      refine .peek fun k => ?_
      dsimp only
      split
      · exact Places.skip.bind' fun _ h5 hgap => hrest h5 hgap
      · exact hrest h4 (Nat.le_refl _)
      · exact .place fun _ => Places.fail.bind' fun _ h5 hgap => hrest h5 hgap

theorem typeDef_rows (n : Nat) : Rows hi (typeDef n) fun s => [s.plan] := by
  intro lo
  refine (Places.expect (by simp)).bind fun start h1 _ hs => Places.ident.bind fun name h2 _ hn => ?_
  have hname := Row.here name.span
  refine (templateParams_rows n h2).bind fun params h3 _ hps => (Places.expect (by simp)).bind fun _ h4 _ _ => ?_
  refine .sees fun b => ?_
  split
  · split
    · exact .fail
    · refine (Places.expect (by simp)).bind fun _ h5 _ _ => (Places.expect (by simp)).bind fun brace h6 _ _ => ?_
      refine (recordFields_places n _ n h6).bind fun r h7 _ hr => .pure ?_
      obtain ⟨stop, hfields, hclose, hend⟩ := hr
      have hle := hfields.le
      have hspan := r.2.offset_le_stop
      have hparts := hname.append (by omega) hfields
      exact hparts.joined (by omega) (by omega) (by omega)
  · refine (typeRef_rows n h4).bind fun t h5 _ ht => Places.lineEnd.bind' fun _ h6 _ => .pure ?_
    have hfront := hname.append (by omega) hps
    exact hfront.closing ht t.plan_span (by omega) (by omega) (by omega)

theorem valDecl_rows (n : Nat) : Rows hi (valDecl n) fun d => [d.plan] := by
  intro lo
  refine (Places.expect (by simp)).bind fun start h1 _ hs => Places.eat.bind' fun mutable h2 _ => ?_
  refine Places.ident.bind fun name h3 _ hn => (typeBehind_rows _ n h3).bind fun type h4 _ ht => ?_
  refine (Places.expect (by simp)).bind fun _ h5 _ _ => (expr_rows n h5).bind fun e h6 _ he => .pure ?_
  have hname := Row.here name.span
  have hfront := hname.append (by omega) ht
  exact hfront.closing he e.plan_span (by omega) (by omega) (Nat.le_refl _)

variable {stmt : Parse Stmt}

theorem blockStmts_places (hs : Rows hi stmt fun s => [s.plan]) (opening : Span) : ∀ n lo,
    Places hi lo (blockStmts stmt opening n) fun mid r => Row lo mid (Stmt.plans r.1)
  | 0, _ => .fail
  | n + 1, lo => by
    unfold blockStmts
    refine Places.skipNewlines.bind' fun _ h1 hgap => .peek fun k => ?_
    split
    · exact Places.taken.bind' fun _ h2 hle => .pure (Nat.le_trans hgap hle)
    · exact .fail
    · refine (hs h1).bind fun s h2 _ hrow => (blockStmts_places hs opening n h2).bind fun r h3 _ hr => .pure ?_
      exact (hrow.append (Nat.le_refl _) hr).mono hgap (Nat.le_refl _)

theorem block_rows (hs : Rows hi stmt fun s => [s.plan]) (n : Nat) : Rows hi (block n stmt) fun b => [b.plan] := by
  intro lo
  refine (Places.expect (by simp)).bind fun _ h1 _ _ => ?_
  intro c b c' hc h
  obtain ⟨opening, m, ho, h⟩ := Outcome.bind_ok.1 h
  obtain ⟨h2, hle2, hm, hstart, hlength, hstop⟩ := Places.expect (by simp) _ _ _ hc ho
  have hbegun : ∀ k, m.kind? = some k → k.isLayout = false := by
    intro k hk
    obtain ⟨u, hu, rfl⟩ := Option.map_eq_some_iff.1 hk
    rw [expect_ok.1 ho] at hc
    exact hc.opened.rel_head? hu rfl
  obtain ⟨⟨stmts, close⟩, m', hstmts, h⟩ := Outcome.bind_ok.1 h
  obtain ⟨h3, hle3, hm', hrow⟩ := blockStmts_places hs opening n h2 _ _ _ hm hstmts
  obtain ⟨s, hlast⟩ : ∃ s, stmts.getLast? = some s :=
    Option.isSome_iff_exists.1 (by simpa using blockStmts_ne hbegun hstmts)
  obtain ⟨rfl, rfl⟩ := Outcome.pure_ok.1 h
  refine ⟨h3, Nat.le_trans hle2 hle3, hm', ?_⟩
  simp only [hlast]
  have hplans : (Stmt.plans stmts).getLast? = some s.plan := by
    rw [Stmt.plans_eq, List.getLast?_map, hlast]
    rfl
  obtain ⟨hparts, hend⟩ := hrow.toLast hplans
  have hplace := hparts.bounds s.plan (List.mem_of_getLast? hplans)
  have hspan := s.span.offset_le_stop
  rw [Stmt.plan_span] at hparts hend hplace
  exact hparts.joined (by omega) (by omega) (by omega)

theorem cellDef_rows (hs : Rows hi stmt fun s => [s.plan]) (n : Nat) : Rows hi (cellDef n stmt) fun s => [s.plan] := by
  intro lo
  refine (Places.expect (by simp)).bind fun start h1 _ hstart => Places.ident.bind fun name h2 _ hn => ?_
  have hname := Row.here name.span
  refine (templateParams_rows n h2).bind fun params h3 _ hps => (Places.expect (by simp)).bind fun _ h4 _ _ => ?_
  refine (closedBy_rows (param_rows n) n h4).bind fun args h5 _ ha => (Places.expect (by simp)).bind fun _ h6 _ _ => ?_
  refine (typeBehind_rows _ n h6).bind fun ret h7 _ hr => (Places.expect (by simp)).bind fun _ h8 _ _ => ?_
  refine (block_rows hs n h8).bind fun body h9 _ hb => .pure ?_
  have hbody := hb.place body.plan_span
  have hparts := hname.append (by omega) (hps.append (by omega) (ha.append (by omega) (hr.append (by omega)
    (hb.tight body.plan_span))))
  exact hparts.joined (by omega) (by omega) (by omega)

theorem assignment_rows (n : Nat) : Rows hi (assignment n) fun s => [s.plan] := by
  intro lo
  refine Places.ident.bind fun target h1 _ ht => (Places.expect (by simp)).bind fun _ h2 _ _ => ?_
  refine (expr_rows n h2).bind fun e h3 _ he => Places.lineEnd.bind' fun _ h4 _ => .pure ?_
  have hname := Row.here target.span
  exact hname.closing he e.plan_span (by omega) (by omega) (by omega)

theorem conditional_rows (hs : Rows hi stmt fun s => [s.plan]) (n : Nat) :
    Rows hi (conditional n stmt) fun s => [s.plan] := by
  intro lo
  refine (Places.expect (by simp)).bind fun start h1 _ hstart => (expr_rows n h1).bind fun c h2 _ hc => ?_
  refine (Places.expect (by simp)).bind fun _ h3 _ _ => (block_rows hs n h3).bind fun yes h4 _ hyes => ?_
  refine Places.skipNewlines.bind' fun _ h5 _ => Places.eat.bind' fun b h6 _ => ?_
  split
  · refine (Places.expect (by simp)).bind fun _ h7 _ _ => (block_rows hs n h7).bind fun no h8 _ hno => .pure ?_
    have hfront := hc.append (by omega) hyes
    exact hfront.closing hno no.plan_span (by omega) (by omega) (Nat.le_refl _)
  · exact .pure (hc.closing hyes yes.plan_span (by omega) (by omega) (by omega))

theorem whileLoop_rows (hs : Rows hi stmt fun s => [s.plan]) (n : Nat) :
    Rows hi (whileLoop n stmt) fun s => [s.plan] := by
  intro lo
  refine (Places.expect (by simp)).bind fun start h1 _ hstart => (expr_rows n h1).bind fun c h2 _ hc => ?_
  refine (Places.expect (by simp)).bind fun _ h3 _ _ => (block_rows hs n h3).bind fun body h4 _ hbody => .pure ?_
  exact hc.closing hbody body.plan_span (by omega) (by omega) (Nat.le_refl _)

theorem returnStmt_rows (n : Nat) : Rows hi (returnStmt n) fun s => [s.plan] := by
  intro lo
  refine (Places.expect (by simp)).bind fun start h1 _ hs => .peek fun k => ?_
  split
  · refine (expr_rows n h1).bind fun e h2 _ he => Places.lineEnd.bind' fun _ h3 _ => .pure ?_
    have hb := he.place e.plan_span
    exact (he.tight e.plan_span).joined (by omega) (by omega) (by omega)
  · exact Places.lineEnd.bind' fun _ h2 hle => .pure (.leaf hs.1 (Nat.le_trans (Nat.le_of_eq hs.2.2) hle))

/-- The variable of an expansion, with its keyword in front. -/
theorem loopVar_places (n : Nat) (lo : Nat) : Places hi lo (loopVar n) fun mid r =>
    Row lo mid [r.2.plan] ∧ lo ≤ r.1.offset ∧ r.1.offset ≤ r.1.stop ∧ ∃ h1 h2, r.1.stop ≤ h1 ∧ h2 ≤ mid ∧
      Row h1 h2 (.leaf r.2.name.span :: TypeRef.plan? r.2.type) := by
  refine (Places.expect (by simp)).bind fun start h1 _ hs => Places.eat.bind' fun mutable h2 _ => ?_
  refine Places.ident.bind fun name h3 _ hn => (typeBehind_rows _ n h3).bind fun type h4 _ ht => .pure ?_
  have hname := Row.here name.span
  have hstart : start.stop ≤ name.span.offset := by omega
  cases type with
  | none =>
    have hle : name.span.stop ≤ h4 := by
      have hmid : h3 ≤ h4 := ht
      omega
    have hvar : Row lo h4 [LoopVar.plan ⟨start.join name.span, name, mutable, none⟩] :=
      hname.joined (by omega) (by omega) (by omega)
    exact ⟨hvar, hs.1, hs.2.1, name.span.offset, name.span.stop, hstart, hle, hname⟩
  | some t =>
    have hparts := hname.append (by omega) ht
    have hvar : Row lo h4 [LoopVar.plan ⟨start.join t.span, name, mutable, some t⟩] :=
      hname.closing ht t.plan_span (by omega) (by omega) (Nat.le_refl _)
    exact ⟨hvar, hs.1, hs.2.1, name.span.offset, h4, hstart, Nat.le_refl _, hparts⟩

theorem loopVarAfter_rows (n : Nat) (keyword : Span) : Rows hi (loopVarAfter n keyword) fun v => [v.plan] := by
  intro lo
  refine .sees fun b => ?_
  split
  · exact (loopVar_places n lo).bind fun r h1 _ hr => .pure hr.1
  · exact .place fun _ => .fail

theorem expansionHead_rows (n : Nat) (keyword : Span) :
    Rows hi (expansionHead n keyword) fun r => Init.plan? r.1 ++ [r.2.plan] := by
  intro lo
  refine .sees fun b => ?_
  split
  · refine (loopVar_places n lo).bind fun r h1 _ hr => Places.eat.bind' fun b h2 hle => ?_
    obtain ⟨hvar, hstart, hlength, h3, h4, hh3, hh4, hdecl⟩ := hr
    split
    · refine (expr_rows n h2).bind fun e h5 _ he => (Places.expect (by simp)).bind fun _ h6 _ _ => ?_
      refine (loopVarAfter_rows n keyword h6).bind fun var h7 _ hv => .pure ?_
      have hle := hdecl.le
      have hval : Row lo h5 [ValDecl.plan ⟨r.1.join e.span, r.2.name, r.2.mutable, r.2.type, e⟩] :=
        hdecl.closing he e.plan_span (by omega) (by omega) (Nat.le_refl _)
      exact hval.append (by omega) hv
    · exact .pure (hvar.mono (Nat.le_refl _) hle)
  · refine (expr_rows n lo).bind fun e h1 _ he => (Places.expect (by simp)).bind fun _ h2 hle _ => ?_
    exact (loopVarAfter_rows n keyword h2).bind fun var h3 _ hv => .pure (he.append hle hv)

theorem expansion_rows (hs : Rows hi stmt fun s => [s.plan]) (n : Nat) :
    Rows hi (expansion n stmt) fun s => [s.plan] := by
  intro lo
  refine (Places.expect (by simp)).bind fun keyword h1 _ hk => (expansionHead_rows n _ h1).bind fun r h2 _ hr => ?_
  refine (Places.expect (by simp)).bind fun _ h3 _ _ => (expr_rows n h3).bind fun range h4 _ hrange => ?_
  refine (Places.expect (by simp)).bind fun _ h5 _ _ => (block_rows hs n h5).bind fun body h6 _ hbody => .pure ?_
  have hb := hbody.place body.plan_span
  have hle := hr.le
  have hkeyword := Row.here keyword
  have hparts := hr.append (by omega) (hrange.append (by omega) (hbody.tight body.plan_span))
  rw [List.append_assoc] at hparts
  exact (hkeyword.append (by omega) hparts).joined (by omega) (by omega) (by omega)

theorem stmtWith_rows (hs : Rows hi stmt fun s => [s.plan]) (n : Nat) :
    Rows hi (stmtWith n stmt) fun s => [s.plan] := by
  intro lo
  have hjump : ∀ {k : TokenKind} (make : Span → Stmt), k ≠ .dedent → (∀ s, (make s).plan = .leaf s) → Places hi lo (do
      let place ← expect k
      lineEnd
      return make place) fun mid s => Row lo mid [s.plan] := by
    intro k make hk hplan
    refine (Places.expect hk).bind fun place h1 _ hp => Places.lineEnd.bind' fun _ h2 hle => .pure ?_
    rw [hplan]
    exact .leaf hp.1 (Nat.le_trans (Nat.le_of_eq hp.2.2) hle)
  refine .peek fun k => ?_
  split
  · exact traitDef_rows lo
  · exact typeDef_rows n lo
  · refine (valDecl_rows n lo).bind fun d h1 _ hd => Places.lineEnd.bind' fun _ h2 hle => .pure ?_
    exact hd.mono (Nat.le_refl _) hle
  · exact cellDef_rows hs n lo
  · exact conditional_rows hs n lo
  · exact whileLoop_rows hs n lo
  · exact expansion_rows hs n lo
  · exact hjump .leave (by simp) fun _ => rfl
  · exact hjump .next (by simp) fun _ => rfl
  · exact returnStmt_rows n lo
  · refine (Places.expect (by simp)).bind fun start h1 _ hst => (expr_rows n h1).bind fun e h2 _ he => ?_
    refine Places.lineEnd.bind' fun _ h3 _ => .pure ?_
    have hb := he.place e.plan_span
    exact (he.tight e.plan_span).joined (by omega) (by omega) (by omega)
  · rename_i kind _ _ _ _ _ _ _ _ _ _ _
    have hexpr : Places hi lo (if startsExpr kind then do
          let e ← expr n
          lineEnd
          return Stmt.expr e
        else do fail .expectedStatement (← place ⟨0, 0⟩)) fun mid s => Row lo mid [s.plan] := by
      split
      · refine (expr_rows n lo).bind fun e h1 _ he => Places.lineEnd.bind' fun _ h2 _ => .pure ?_
        have hb := he.place e.plan_span
        have hend : e.span.stop ≤ h2 := by omega
        exact (he.tight e.plan_span).node hb.1 hend
      · exact .place fun _ => .fail
    refine .peekSecond fun k => ?_
    split
    · split
      · exact assignment_rows n lo
      · exact hexpr
    · split
      · exact assignment_rows n lo
      · exact hexpr
  · exact .fail

theorem stmt_rows (hi : Nat) : ∀ n, Rows hi (Grammar.stmt n) fun s => [s.plan]
  | 0 => fun _ => .fail
  | n + 1 => stmtWith_rows (stmt_rows hi n) (n + 1)

theorem programStmts_rows (bound : Nat) : ∀ n, Rows hi (programStmts bound n) Stmt.plans
  | 0 => fun lo => (stmt_rows hi 0 lo).bind fun _ _ _ hs => .pure hs
  | n + 1 => by
    intro lo
    unfold programStmts
    refine Places.skipNewlines.bind' fun _ h1 hgap => .peek fun k => ?_
    split
    · exact .pure hgap
    · refine (stmt_rows hi bound h1).bind fun s h2 _ hs => ?_
      refine (programStmts_rows bound n h2).bind fun ss h3 _ hss => .pure ?_
      exact (hs.append (Nat.le_refl _) hss).mono hgap (Nat.le_refl _)

/-- **A phrase of a text stands in the text.** -/
theorem run_row {α : Type} {p : Nat → Parse α} {parts : α → List Plan} (hp : ∀ n hi, Rows hi (p n) parts)
    {source : String} {ts : List Token} (hts : tokens source = .ok ts) {a : α} (h : run p ts = .ok a) :
    Row 0 (Text.width source.toList) (parts a) := by
  unfold run at h
  split at h
  case h_1 b c hb =>
    cases h
    obtain ⟨mid, -, hahead, hrow⟩ := hp _ _ 0 _ _ _ (tokens_spread hts) hb
    exact hrow.mono (Nat.le_refl 0) hahead.le
  case h_2 => cases h

end Grammar

open Plan

/-- The statements of a program that is read follow one another in the text. -/
theorem program_row {source : String} {edition : Option String} {p : Program}
    (h : Source.program source edition = .ok p) : Row 0 (Text.width source.toList) (p.map Stmt.plan) := by
  unfold Source.program Source.tokens at h
  obtain ⟨ts, hts, hp⟩ := Outcome.except_bind_ok.1 h
  have hprogram := mapError_ok hp
  unfold program? at hprogram
  obtain ⟨-, -, hrun⟩ := Outcome.except_bind_ok.1 hprogram
  rw [← Stmt.plans_eq]
  exact Grammar.run_row (fun n _ => Grammar.programStmts_rows n n) (mapError_ok hts) hrun

/-- **Spans nest.**  In a program that is read, whatever is part of a statement lies inside the text, and inside of
whatever it is part of; the parts of one node follow one another, and so do the statements of the program. -/
theorem program_nested {source : String} {edition : Option String} {p : Program}
    (h : Source.program source edition = .ok p) :
    (p.Pairwise fun s t => s.span.stop ≤ t.span.offset) ∧ ∀ s ∈ p, ∀ a, s.plan.Has a →
      a.span.stop ≤ Text.width source.toList ∧ InOrder a.inside ∧ ∀ b, a.Has b → b.span.Within a.span := by
  have hrow := program_row h
  have horder := hrow.inOrder
  unfold InOrder at horder
  rw [List.pairwise_map] at horder
  refine ⟨by simpa only [Stmt.plan_span] using horder, fun s hs a ha => ?_⟩
  have hmem : s.plan ∈ p.map Stmt.plan := List.mem_map_of_mem hs
  obtain ⟨hnested, hwithin⟩ := (hrow.nested _ hmem).has ha
  exact ⟨Nat.le_trans hwithin.2 (hrow.bounds _ hmem).2, hnested.inOrder, fun b hb => (hnested.has hb).2⟩

/-- Brackets that leave no node, an `else`, and a second statement behind two dedents. -/
def branches : String :=
  "cell f(a: int):\n    if (a) < 1:\n        g(-a)\n    else:\n        a = (a + 1) * 2\nval x = f(1)[0]\n"

theorem program_nested_branches : ∃ p, Source.program branches none = .ok p ∧
    p.map Stmt.span = [⟨0, 79⟩, ⟨80, 15⟩] ∧ (p.Pairwise fun s t => s.span.stop ≤ t.span.offset) ∧
    ∀ s ∈ p, ∀ a, s.plan.Has a → a.span.stop ≤ Text.width branches.toList ∧ InOrder a.inside ∧
      ∀ b, a.Has b → b.span.Within a.span := by
  have hspans : (Source.program branches none).toOption.map (·.map Stmt.span) = some [⟨0, 79⟩, ⟨80, 15⟩] := by
    decide +kernel
  cases hp : Source.program branches none with
  | error e =>
    rw [hp] at hspans
    cases hspans
  | ok p =>
    rw [hp] at hspans
    exact ⟨p, rfl, Option.some.inj hspans, program_nested hp⟩

end Unroll
