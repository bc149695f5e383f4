import Mathlib.Data.List.TakeWhile
import Unroll.Proofs.Check.Endings
import Unroll.Proofs.Grammar.Levels
/-!
# How far a phrase reads

A phrase that succeeds has taken tokens, and never the end mark.  A phrase that fails does so at a token that it has
seen or that comes next, and has taken the end mark only where that is the token at fault.
-/
namespace Unroll

/-- The place begins where one of the tokens does. -/
def Begins (ts : List Token) (s : Span) : Prop := ∃ t ∈ ts, t.span.offset = s.offset

namespace Begins

variable {ts us : List Token} {a b : Span}

theorem of_mem {t : Token} (h : t ∈ ts) : Begins ts t.span := ⟨t, h, rfl⟩

theorem mono (h : Begins ts a) (hsub : ts ⊆ us) : Begins us a := by
  obtain ⟨t, ht, hat⟩ := h
  exact ⟨t, hsub ht, hat⟩

theorem join (ha : Begins ts a) (hb : Begins ts b) : Begins ts (a.join b) := by
  obtain hle | hle := Nat.le_total a.offset b.offset
  · obtain ⟨t, ht, hat⟩ := ha
    exact ⟨t, ht, hat.trans (Nat.min_eq_left hle).symm⟩
  · obtain ⟨t, ht, hbt⟩ := hb
    exact ⟨t, ht, hbt.trans (Nat.min_eq_right hle).symm⟩

end Begins

namespace Parse

open Cursor Outcome

/-- **From the cursor on, the phrase takes at least so many tokens**, none of them the end mark, and what it gives is as
said of the tokens that are seen by then.  Of a fault it is said where it stands and what it may have taken. -/
structure AdvancesAt {α : Type} (seen : List Token) (k : Nat) (c : Cursor) (p : Parse α) (Q : List Token → α → Prop) :
    Prop where
  ok : ∀ a c', p c = .ok a c' →
    ∃ ts, c.rest = ts ++ c'.rest ∧ k ≤ ts.length ∧ (∀ t ∈ ts, t.kind ≠ .eof) ∧ Q (seen ++ ts) a
  error : ∀ e c', p c = .error e c' →
    ∃ ts, c.rest = ts ++ c'.rest ∧ (∀ t ∈ ts, t.kind = .eof → e.span = t.span) ∧
      (c'.rest ≠ [] → Begins (seen ++ ts ++ c'.rest.take 1) e.span)

/-- The phrase advances wherever at most `n` tokens are left. -/
def Advances {α : Type} (n k : Nat) (p : Parse α) (Q : List Token → α → Prop) : Prop :=
  ∀ seen c, c.rest.length ≤ n → AdvancesAt seen k c p Q

/-- Nothing is said of the value. -/
def Any {α : Type} (_ : List Token) (_ : α) : Prop := True

/-- The value has a place that begins at a token seen. -/
def Placed {α : Type} (place : α → Span) (seen : List Token) (a : α) : Prop := Begins seen (place a)

namespace AdvancesAt

variable {α β : Type} {seen : List Token} {k k' : Nat} {c : Cursor} {p : Parse α} {f : α → Parse β}
  {P Q : List Token → α → Prop} {R : List Token → β → Prop}

theorem bind (hp : AdvancesAt seen k c p Q)
    (hf : ∀ a seen' c', seen ⊆ seen' → c'.rest.length + k ≤ c.rest.length → Q seen' a →
      AdvancesAt seen' (k' - k) c' (f a) R) : AdvancesAt seen k' c (p >>= f) R := by
  constructor
  · intro b c' h
    obtain ⟨a, m, ha, hb⟩ := bind_ok.1 h
    obtain ⟨ts, hts, hk, hends, hQ⟩ := hp.ok a m ha
    have hlen : m.rest.length + k ≤ c.rest.length := by rw [hts, List.length_append]; omega
    obtain ⟨us, hus, hk', hends', hR⟩ := (hf a _ m (List.subset_append_left _ _) hlen hQ).ok b c' hb
    refine ⟨ts ++ us, by rw [hts, hus, List.append_assoc], by rw [List.length_append]; omega, ?_, ?_⟩
    · exact List.forall_mem_append.2 ⟨hends, hends'⟩
    · rwa [← List.append_assoc]
  · intro e c' h
    obtain h | ⟨a, m, ha, hb⟩ := bind_error.1 h
    · exact hp.error e c' h
    · obtain ⟨ts, hts, hk, hends, hQ⟩ := hp.ok a m ha
      have hlen : m.rest.length + k ≤ c.rest.length := by rw [hts, List.length_append]; omega
      obtain ⟨us, hus, hends', hplace⟩ := (hf a _ m (List.subset_append_left _ _) hlen hQ).error e c' hb
      refine ⟨ts ++ us, by rw [hts, hus, List.append_assoc], ?_, fun hne => ?_⟩
      · exact List.forall_mem_append.2 ⟨fun t ht heof => absurd heof (hends t ht), hends'⟩
      · rw [← List.append_assoc seen]
        exact hplace hne

theorem pure {a : α} (h : Q seen a) : AdvancesAt seen 0 c (Pure.pure a) Q := by
  constructor
  · intro b c' hb
    obtain ⟨rfl, rfl⟩ := pure_ok.1 hb
    exact ⟨[], rfl, Nat.le_refl 0, by simp, by rwa [List.append_nil]⟩
  · intro e c' he
    exact absurd he pure_error

theorem of_eq {q : Parse α} (heq : p c = q c) (h : AdvancesAt seen k c q Q) : AdvancesAt seen k c p Q :=
  ⟨fun a c' ha => h.ok a c' (heq ▸ ha), fun e c' he => h.error e c' (heq ▸ he)⟩

theorem mono (hp : AdvancesAt seen k c p P) (hk : k' ≤ k) (h : ∀ seen' a, seen ⊆ seen' → P seen' a → Q seen' a) :
    AdvancesAt seen k' c p Q := by
  refine ⟨fun a c' ha => ?_, hp.error⟩
  obtain ⟨ts, hts, hkts, hends, hP⟩ := hp.ok a c' ha
  exact ⟨ts, hts, Nat.le_trans hk hkts, hends, h _ a (List.subset_append_left _ _) hP⟩

theorem any (hp : AdvancesAt seen k c p P) (hk : k' ≤ k := by omega) : AdvancesAt seen k' c p Any :=
  hp.mono hk fun _ _ _ _ => trivial

/-- A fault at a token that was seen, or at the next one. -/
theorem fail {fault : ParseFault} {span : Span} (h : c.rest ≠ [] → Begins (seen ++ c.rest.take 1) span) :
    AdvancesAt seen k c (Parse.fail fault span) Q := by
  constructor
  · intro a c' ha
    exact absurd ha fail_ok
  · intro e c' he
    cases he
    exact ⟨[], rfl, by simp, by simpa using h⟩

theorem fail_seen {fault : ParseFault} {span : Span} (h : Begins seen span) :
    AdvancesAt seen k c (Parse.fail fault span) Q :=
  .fail fun _ => h.mono (List.subset_append_left _ _)

theorem endOfInput (h : c.rest = []) : AdvancesAt seen k c Parse.endOfInput Q := by
  constructor
  · intro a c' ha
    exact absurd ha endOfInput_ok
  · intro e c' he
    cases he
    exact ⟨[], rfl, by simp, fun hne => absurd h hne⟩

theorem peek {f : Option TokenKind → Parse β} (hf : AdvancesAt seen k c (f c.kind?) R) :
    AdvancesAt seen k c (Parse.peek >>= f) R := ⟨hf.ok, hf.error⟩

theorem peekSecond {f : Option TokenKind → Parse β} (hf : AdvancesAt seen k c (f c.second?) R) :
    AdvancesAt seen k c (Parse.peekSecond >>= f) R := ⟨hf.ok, hf.error⟩

theorem sees {kind : TokenKind} {f : Bool → Parse β} (hf : AdvancesAt seen k c (f (c.kind? == some kind)) R) :
    AdvancesAt seen k c (Parse.sees kind >>= f) R := ⟨hf.ok, hf.error⟩

/-- Where the next token stands, which is where a fault may be reported. -/
theorem place {other : Span} {f : Span → Parse β}
    (hf : ∀ s, (c.rest ≠ [] → Begins (seen ++ c.rest.take 1) s) → AdvancesAt seen k c (f s) R) :
    AdvancesAt seen k c (Parse.place other >>= f) R := by
  have hplace : ∃ s, Parse.place other c = .ok s c ∧ (c.rest ≠ [] → Begins (seen ++ c.rest.take 1) s) := by
    obtain ⟨rest, last⟩ := c
    cases rest with
    | nil => exact ⟨other, rfl, fun hne => absurd rfl hne⟩
    | cons t ts => exact ⟨t.span, rfl, fun _ => .of_mem (by simp)⟩
  obtain ⟨s, hs, hbegins⟩ := hplace
  exact .of_eq (bind_of_ok hs) (hf s hbegins)

theorem fail_here {fault : ParseFault} {other : Span} :
    AdvancesAt seen k c (do Parse.fail fault (← Parse.place other)) Q := .place fun _ h => .fail h

/-- A token that is not the end mark is taken. -/
theorem token (hne : c.kind? ≠ some .eof) : AdvancesAt seen 1 c Parse.next fun seen t => t ∈ seen ∧ t.kind ≠ .eof := by
  constructor
  · intro t c' ht
    obtain rfl := next_ok.1 ht
    have hkind : t.kind ≠ .eof := fun h => hne (by rw [kind?_push, h])
    exact ⟨[t], rfl, Nat.le_refl 1, by simpa using hkind, by simp, hkind⟩
  · intro e c' he
    obtain ⟨rest, last⟩ := c
    cases rest with
    | nil =>
      have hend : AdvancesAt seen 0 ⟨[], last⟩ (Parse.endOfInput : Parse Token) Any := .endOfInput rfl
      exact hend.error e c' he
    | cons t ts => exact nomatch (next_push (c := ⟨ts, last⟩)).symm.trans he

/-- Whatever token is taken, the end mark is refused for its own sake. -/
theorem next {f : Token → Parse β} (hend : ∀ t, t.kind = .eof → ∃ fault, f t = Parse.fail fault t.span)
    (hf : ∀ t seen' c', seen ⊆ seen' → c'.rest.length + 1 ≤ c.rest.length → t ∈ seen' → t.kind ≠ .eof →
      AdvancesAt seen' (k - 1) c' (f t) R) : AdvancesAt seen k c (Parse.next >>= f) R := by
  by_cases hkind : c.kind? = some .eof
  · obtain ⟨span, hc⟩ := eq_push_of_kind? hkind
    obtain ⟨fault, hfail⟩ := hend ⟨.eof, span⟩ rfl
    have heq : (Parse.next >>= f) c = Parse.fail fault span c.drop := by rw [bind_of_ok (next_ok.2 hc), hfail]
    constructor
    · intro a c' ha
      rw [heq] at ha
      exact absurd ha fail_ok
    · intro e c' he
      rw [heq] at he
      cases he
      exact ⟨[⟨.eof, span⟩], by rw [hc]; rfl, by simp, fun _ => ⟨⟨.eof, span⟩, by simp, rfl⟩⟩
  · exact (token hkind).bind fun t seen' c' hs hlen ht => hf t seen' c' hs hlen ht.1 ht.2

theorem expect {kind : TokenKind} (hne : kind ≠ .eof) : AdvancesAt seen 1 c (Parse.expect kind) Begins := by
  refine .next (fun t ht => ⟨.expected kind, if_neg fun h => hne (h.symm.trans ht)⟩) fun t seen' c' _ _ ht _ => ?_
  split
  · exact .pure (.of_mem ht)
  · exact .fail_seen (.of_mem ht)

theorem ident : AdvancesAt seen 1 c Parse.ident (Placed Ident.span) := by
  refine .next (fun t ht => ⟨.expectedName, by rw [ht]⟩) fun t seen' c' _ _ ht _ => ?_
  split
  · exact .pure (.of_mem ht)
  · exact .fail_seen (.of_mem ht)

theorem lines_inner (ts : List Token) : ∀ t ∈ ts.takeWhile (·.kind = .newline), t.kind ≠ .eof := by
  intro t ht heof
  have hline := List.mem_takeWhile_imp ht
  rw [heof] at hline
  cases of_decide_eq_true hline

/-- Taking tokens that are no end marks. -/
theorem dropping {n : Nat} {g : Cursor → Cursor} {ts : List Token} (hg : c.rest = ts ++ (g c).rest)
    (hn : n ≤ ts.length) (hends : ∀ t ∈ ts, t.kind ≠ .eof) : AdvancesAt seen n c (modify g : Parse Unit) Any := by
  constructor
  · intro a c' ha
    cases modify_ok.1 ha
    exact ⟨ts, hg, hn, hends, trivial⟩
  · intro e c' he
    exact absurd he modify_error

theorem skip {kind : TokenKind} (hk : c.kind? = some kind) (hne : kind ≠ .eof) :
    AdvancesAt seen 1 c Parse.skip Any := by
  obtain ⟨span, hc⟩ := eq_push_of_kind? hk
  have hrest : c.rest = [⟨kind, span⟩] ++ c.drop.rest := congrArg Cursor.rest hc
  exact .dropping hrest (Nat.le_refl 1) (by simpa using hne)

theorem skipNewlines : AdvancesAt seen 0 c Parse.skipNewlines Any :=
  .dropping List.takeWhile_append_dropWhile.symm (Nat.zero_le _) (lines_inner c.rest)

theorem eat {kind : TokenKind} (hne : kind ≠ .eof) : AdvancesAt seen 0 c (Parse.eat kind) Any := by
  refine .sees ?_
  split
  case isTrue h =>
    have hskip : AdvancesAt seen 1 c Parse.skip Any := .skip (eq_of_beq h) hne
    exact hskip.bind fun _ _ _ _ _ _ => .pure trivial
  case isFalse => exact .pure trivial

theorem lineEnd : AdvancesAt seen 0 c Parse.lineEnd Any := by
  refine .peek ?_
  split
  case h_1 h => exact (AdvancesAt.skip h (by simp)).any (Nat.zero_le 1)
  case h_2 => exact .pure trivial
  case h_3 => exact .pure trivial
  case h_4 => exact .fail_here

/-- The end of its line closes a statement. -/
theorem closing {a : α} : AdvancesAt seen 0 c (do Parse.lineEnd; return a) Any :=
  lineEnd.bind fun _ _ _ _ _ _ => .pure trivial

end AdvancesAt

/-! ## Lists -/

section

variable {α : Type} {n : Nat} {element : Parse α} {Q : List Token → α → Prop}

theorem commaSeparated_advances {more : Parse Bool} (hQ : ∀ {seen seen' a}, seen ⊆ seen' → Q seen a → Q seen' a)
    (he : Advances n 1 element Q) (hm : ∀ seen c, AdvancesAt seen 0 c more Any) :
    ∀ m seen c, c.rest.length ≤ m → c.rest.length ≤ n →
      AdvancesAt seen 1 c (commaSeparated element more m) fun seen as => ∀ a ∈ as, Q seen a
  | 0, seen, c, hcm, _ => .endOfInput (List.eq_nil_of_length_eq_zero (Nat.le_zero.1 hcm))
  | m + 1, seen, c, hcm, hcn => by
    unfold commaSeparated
    refine (he seen c hcn).bind fun a seen₁ c₁ _ h₁ ha => ?_
    refine (AdvancesAt.eat (by simp)).bind fun b seen₂ c₂ hs₂ h₂ _ => ?_
    have hone : ∀ {seen}, seen₂ ⊆ seen → ∀ x ∈ [a], Q seen x := fun hs x hx => by
      rw [List.mem_singleton.1 hx]
      exact hQ hs (hQ hs₂ ha)
    split
    · refine (hm seen₂ c₂).bind fun b seen₃ c₃ hs₃ h₃ _ => ?_
      split
      · have hrest := commaSeparated_advances hQ he hm m seen₃ c₃ (by omega) (by omega)
        refine hrest.bind fun as seen₄ c₄ hs₄ _ has => .pure ?_
        exact List.forall_mem_cons.2 ⟨hone (List.Subset.trans hs₃ hs₄) a (by simp), has⟩
      · exact .pure (hone hs₃)
    · exact .pure (hone (List.Subset.refl _))

/-- The elements themselves are of no account. -/
theorem listed_advances {more : Parse Bool} (he : Advances n 1 element Any)
    (hm : ∀ seen c, AdvancesAt seen 0 c more Any) {m : Nat} (hnm : n ≤ m) :
    Advances n 0 (commaSeparated element more m) Any := by
  intro seen c hc
  have h := commaSeparated_advances (fun _ _ => trivial) he hm m seen c (Nat.le_trans hc hnm) hc
  exact h.any (Nat.zero_le 1)

theorem closedBy_advances (close : TokenKind) (he : Advances n 1 element Any) {m : Nat} (hm : n ≤ m) :
    Advances n 0 (closedBy close element m) Any := by
  intro seen c hc
  refine .sees ?_
  split
  · exact .pure trivial
  · have hmore : ∀ seen c, AdvancesAt seen 0 c (do return !(← sees close)) Any := fun _ _ => .sees (.pure trivial)
    exact listed_advances he hmore hm seen c hc

end

end Parse

namespace Grammar

open Parse AdvancesAt

/-! ## Expressions and types -/

structure Inner.Advances (n : Nat) (inner : Inner) : Prop where
  expr : Parse.Advances n 1 inner.expr (Placed Expr.span)
  sum : Parse.Advances n 1 inner.sum (Placed Expr.span)
  unary : Parse.Advances n 1 inner.unary (Placed Expr.span)
  typeRef : Parse.Advances n 1 inner.typeRef (Placed TypeRef.span)

variable {n m : Nat} {inner : Inner}

theorem chainFrom_advances {op? : TokenKind → Option BinOp} {operand : Parse Expr} (hop : op? .eof = none)
    (ho : Advances n 1 operand (Placed Expr.span)) : ∀ m {left seen c}, c.rest.length ≤ n → Begins seen left.span →
      AdvancesAt seen 0 c (chainFrom op? operand m left) (Placed Expr.span)
  | 0, _, _, _, _, hl => .pure hl
  | m + 1, left, seen, c, hc, hl => by
    unfold chainFrom
    refine .peek ?_
    split
    case h_1 => exact .pure hl
    case h_2 op h =>
      obtain ⟨kind, hkind, hkop⟩ := Option.bind_eq_some_iff.1 h
      have hne : kind ≠ .eof := by
        rintro rfl
        rw [hop] at hkop
        cases hkop
      refine (AdvancesAt.skip hkind hne).bind fun _ seen₁ c₁ hs₁ h₁ _ => ?_
      refine (ho seen₁ c₁ (by omega)).bind fun right seen₂ c₂ hs₂ h₂ hr => ?_
      exact chainFrom_advances hop ho m (by omega) ((hl.mono (List.Subset.trans hs₁ hs₂)).join hr)

theorem chain_advances {op? : TokenKind → Option BinOp} {operand : Parse Expr} (hop : op? .eof = none)
    (ho : Advances n 1 operand (Placed Expr.span)) (m : Nat) :
    Advances n 1 (chain op? operand m) (Placed Expr.span) := by
  intro seen c hc
  exact (ho seen c hc).bind fun _ _ _ _ _ hl => chainFrom_advances hop ho m (by omega) hl

theorem templateArg_advances (hi : inner.Advances n) : Advances n 1 (templateArg inner) Any := by
  intro seen c hc
  have hvalue : AdvancesAt seen 1 c (do return TypeArg.value (← inner.sum)) Any :=
    (hi.sum seen c hc).bind fun _ _ _ _ _ _ => .pure trivial
  have htype : AdvancesAt seen 1 c (do return TypeArg.type (← inner.typeRef)) Any :=
    (hi.typeRef seen c hc).bind fun _ _ _ _ _ _ => .pure trivial
  unfold templateArg
  refine .peek ?_
  dsimp only
  split
  · exact htype
  · refine .peekSecond ?_
    simp only [pure_bind]
    split
    · exact hvalue
    · exact htype
  · exact hvalue

theorem templateArgs_advances (hi : inner.Advances n) (hm : n ≤ m) : Advances n 0 (templateArgs inner m) Any := by
  intro seen c hc
  refine .sees ?_
  split
  · exact .pure trivial
  · exact listed_advances (templateArg_advances hi) (fun _ _ => .pure trivial) hm seen c hc

theorem typeRefWith_advances (hi : inner.Advances n) :
    Advances (n + 1) 1 (typeRefWith (n + 1) inner) (Placed TypeRef.span) := by
  intro seen c hc
  refine .sees ?_
  split
  · refine (expect (by simp)).bind fun left seen₁ c₁ _ h₁ hl => ?_
    refine (hi.typeRef seen₁ c₁ (by omega)).bind fun elem seen₂ c₂ hs₂ h₂ _ => ?_
    refine (expect (by simp)).bind fun _ seen₃ c₃ hs₃ h₃ _ => ?_
    refine (hi.expr seen₃ c₃ (by omega)).bind fun len seen₄ c₄ hs₄ _ _ => ?_
    refine (expect (by simp)).bind fun right seen₅ c₅ hs₅ _ hr => .pure ?_
    have hs := List.Subset.trans hs₂ (List.Subset.trans hs₃ (List.Subset.trans hs₄ hs₅))
    exact (hl.mono hs).join hr
  · refine ident.bind fun name seen₁ c₁ _ h₁ hname => ?_
    refine (eat (by simp)).bind fun b seen₂ c₂ hs₂ h₂ _ => ?_
    split
    · refine (templateArgs_advances hi (Nat.le_succ n) seen₂ c₂ (by omega)).bind fun args seen₃ c₃ hs₃ _ _ => ?_
      refine (expect (by simp)).bind fun close seen₄ c₄ hs₄ _ hclose => .pure ?_
      exact (hname.mono (List.Subset.trans hs₂ (List.Subset.trans hs₃ hs₄))).join hclose
    · exact .pure (hname.mono hs₂)

theorem integer_advances {value : Nat} {span : Span} {seen : List Token} {c : Cursor} (h : Begins seen span) :
    AdvancesAt seen 0 c (integer value span) (Placed Expr.span) := by
  unfold integer
  split
  · exact .pure h
  · exact .fail_seen h

theorem primary_advances (hi : inner.Advances n) : Advances (n + 1) 1 (primary (n + 1) inner) (Placed Expr.span) := by
  intro seen c hc
  refine .next (fun t ht => ⟨.expectedExpression, by rw [ht]⟩) fun t seen₁ c₁ _ h₁ ht _ => ?_
  have hplace : Begins seen₁ t.span := .of_mem ht
  have hclosed : ∀ (close : Symbol) (give : Span → List Expr → Expr), (∀ s es, (give s es).span = s) →
      AdvancesAt seen₁ 0 c₁ (do
        let items ← closedBy (.symbol close) inner.expr (n + 1)
        return give (t.span.join (← expect (.symbol close))) items) (Placed Expr.span) := by
    intro close give hgive
    have hexprs : Advances n 1 inner.expr Any := fun seen c hc => (hi.expr seen c hc).any (Nat.le_refl 1)
    refine (closedBy_advances _ hexprs (Nat.le_succ n) seen₁ c₁ (by omega)).bind fun items seen₂ c₂ hs₂ _ _ => ?_
    refine (expect (by simp)).bind fun close seen₃ c₃ hs₃ _ hclose => .pure ?_
    unfold Placed
    rw [hgive]
    exact (hplace.mono (List.Subset.trans hs₂ hs₃)).join hclose
  obtain ⟨kind, span⟩ := t
  cases kind with
  | name _ | char _ | text _ => exact .pure hplace
  | int _ => exact integer_advances hplace
  | keyword k =>
    cases k with
    | trueWord | falseWord => exact .pure hplace
    | _ => exact .fail_seen hplace
  | symbol s =>
    cases s with
    | lbrace => exact hclosed .rbrace .list fun _ _ => rfl
    | lbracket => exact hclosed .rbracket .array fun _ _ => rfl
    | lparen =>
      refine (hi.expr seen₁ c₁ (by omega)).bind fun e seen₂ c₂ _ _ he => ?_
      exact (expect (by simp)).bind fun _ _ _ hs₃ _ _ => .pure (he.mono hs₃)
    | _ => exact .fail_seen hplace
  | newline | indent | dedent | eof => exact .fail_seen hplace

theorem literalFields_advances (hi : inner.Advances n) {opening : Span} : ∀ m {seen c}, c.rest.length ≤ m →
    c.rest.length ≤ n + 1 → Begins seen opening →
      AdvancesAt seen 1 c (literalFields inner opening m) (Placed Prod.snd)
  | 0, _, _, hcm, _, _ => .endOfInput (List.eq_nil_of_length_eq_zero (Nat.le_zero.1 hcm))
  | m + 1, seen, c, hcm, hcn, ho => by
    unfold literalFields
    refine .peek ?_
    split
    · exact (expect (by simp)).bind fun _ _ _ _ _ hclose => .pure hclose
    · exact .fail_seen ho
    · refine ident.bind fun key seen₁ c₁ hs₁ h₁ _ => ?_
      refine (expect (by simp)).bind fun _ seen₂ c₂ hs₂ h₂ _ => ?_
      refine (hi.expr seen₂ c₂ (by omega)).bind fun value seen₃ c₃ hs₃ h₃ _ => .peek ?_
      have hs := List.Subset.trans hs₁ (List.Subset.trans hs₂ hs₃)
      have hrest : ∀ {seen c}, seen₃ ⊆ seen → c.rest.length ≤ c₃.rest.length →
          AdvancesAt seen 0 c (literalFields inner opening m >>= fun r => Pure.pure ((key, value) :: r.1, r.2))
            (Placed Prod.snd) := by
        intro seen₄ c₄ hs₄ h₄
        have ho₄ := ho.mono (List.Subset.trans hs hs₄)
        exact (literalFields_advances hi m (c := c₄) (by omega) (by omega) ho₄).bind fun _ _ _ _ _ h => .pure h
      dsimp only
      split
      case h_1 hcomma => exact (AdvancesAt.skip hcomma (by simp)).bind fun _ _ _ hs₄ h₄ _ => hrest hs₄ (by omega)
      case h_2 => exact hrest (List.Subset.refl _) (Nat.le_refl _)
      case h_3 =>
        refine .place fun s hplace => ?_
        exact (AdvancesAt.fail (k := 0) (Q := fun _ _ => False) hplace).bind fun _ _ _ _ _ h => h.elim

section

variable {start : Span} {seen : List Token} {c : Cursor} {e : Expr}

theorem recordLiteral_advances (hi : inner.Advances n) {type : Ident} (hc : c.rest.length ≤ n + 1)
    (hs : Begins seen start) :
    AdvancesAt seen 1 c (recordLiteral (n + 1) inner start type) (Placed Expr.span) := by
  refine (expect (by simp)).bind fun brace seen₁ c₁ hs₁ h₁ hbrace => ?_
  have hopening := (hs.mono hs₁).join hbrace
  have hfields := literalFields_advances hi (n + 1) (c := c₁) (by omega) (by omega) hopening
  refine hfields.bind fun r seen₂ c₂ hs₂ _ hclose => ?_
  exact .pure ((hs.mono (List.Subset.trans hs₁ hs₂)).join hclose)

theorem call_advances (hi : inner.Advances n) {callee : Ident} (hc : c.rest.length ≤ n + 1) (hs : Begins seen start) :
    AdvancesAt seen 1 c (call (n + 1) inner start callee) (Placed Expr.span) := by
  have hexprs : Advances n 1 inner.expr Any := fun seen c hc => (hi.expr seen c hc).any (Nat.le_refl 1)
  have hrest : ∀ generic {seen' c'}, seen ⊆ seen' → c'.rest.length ≤ n + 1 → AdvancesAt seen' 1 c' (do
      let _ ← expect (.symbol .lparen)
      let args ← closedBy (.symbol .rparen) inner.expr (n + 1)
      let close ← expect (.symbol .rparen)
      return Expr.call (start.join close) callee generic args) (Placed Expr.span) := by
    intro generic seen' c' hs' hc'
    refine (expect (by simp)).bind fun _ seen₁ c₁ hs₁ h₁ _ => ?_
    refine (closedBy_advances _ hexprs (Nat.le_succ n) seen₁ c₁ (by omega)).bind fun args seen₂ c₂ hs₂ _ _ => ?_
    refine (expect (by simp)).bind fun close seen₃ c₃ hs₃ _ hclose => .pure ?_
    have hsub := List.Subset.trans hs' (List.Subset.trans hs₁ (List.Subset.trans hs₂ hs₃))
    exact (hs.mono hsub).join hclose
  unfold call
  refine (eat (by simp)).bind fun b seen₁ c₁ hs₁ h₁ _ => ?_
  dsimp only
  split
  · refine (expect (by simp)).bind fun _ seen₂ c₂ hs₂ h₂ _ => ?_
    refine (templateArgs_advances hi (Nat.le_succ n) seen₂ c₂ (by omega)).bind fun args seen₃ c₃ hs₃ h₃ _ => ?_
    refine (expect (by simp)).bind fun _ seen₄ c₄ hs₄ h₄ _ => ?_
    simp only [pure_bind]
    have hsub := List.Subset.trans hs₁ (List.Subset.trans hs₂ (List.Subset.trans hs₃ hs₄))
    exact (hrest args hsub (by omega)).mono (Nat.zero_le 1) fun _ _ _ h => h
  · simp only [pure_bind]
    exact hrest [] hs₁ (by omega)

theorem suffix_advances (hi : inner.Advances n) (hc : c.rest.length ≤ n + 1) (he : Begins seen e.span) :
    AdvancesAt seen 0 c (suffix? (n + 1) inner e) fun seen r => ∀ e', r = some e' → Begins seen e'.span := by
  have hsome : ∀ {p : Parse Expr}, AdvancesAt seen 1 c p (Placed Expr.span) →
      AdvancesAt seen 0 c (do return some (← p)) fun seen r => ∀ e', r = some e' → Begins seen e'.span := fun hp =>
    hp.bind fun e seen' c' _ _ he => .pure fun e' h => by
      cases h
      exact he
  have hnone : AdvancesAt seen 0 c (pure none : Parse (Option Expr))
      fun seen r => ∀ e', r = some e' → Begins seen e'.span := .pure (by simp)
  have hcall : AdvancesAt seen 1 c (suffix?.callOf (n + 1) inner e) (Placed Expr.span) := by
    unfold suffix?.callOf
    split
    · exact call_advances hi hc he
    · exact .fail_here
  unfold suffix?
  refine .peek ?_
  split
  case h_1 => exact hsome (recordLiteral_advances hi hc he)
  case h_2 hdot =>
    refine (AdvancesAt.skip hdot (by simp)).bind fun _ seen₁ c₁ hs₁ h₁ _ => ?_
    refine ident.bind fun member seen₂ c₂ hs₂ _ hm => .pure fun e' h => ?_
    cases h
    exact (he.mono (List.Subset.trans hs₁ hs₂)).join hm
  case h_3 hbracket =>
    refine (AdvancesAt.skip hbracket (by simp)).bind fun _ seen₁ c₁ hs₁ h₁ _ => ?_
    refine (hi.expr seen₁ c₁ (by omega)).bind fun index seen₂ c₂ hs₂ _ _ => ?_
    refine (expect (by simp)).bind fun close seen₃ c₃ hs₃ _ hclose => .pure fun e' h => ?_
    cases h
    exact (he.mono (List.Subset.trans hs₁ (List.Subset.trans hs₂ hs₃))).join hclose
  case h_4 =>
    refine .peekSecond ?_
    split
    · exact hsome hcall
    · exact hnone
  case h_5 => exact hsome hcall
  case h_6 => exact hnone

theorem suffixesFrom_advances (hi : inner.Advances n) : ∀ m {e seen c}, c.rest.length ≤ n + 1 → Begins seen e.span →
    AdvancesAt seen 0 c (suffixesFrom (n + 1) inner m e) (Placed Expr.span)
  | 0, _, _, _, _, he => .pure he
  | m + 1, e, seen, c, hc, he => by
    unfold suffixesFrom
    refine (suffix_advances hi hc he).bind fun r seen₁ c₁ hs₁ h₁ hr => ?_
    split
    · exact suffixesFrom_advances hi m (by omega) (hr _ rfl)
    · exact .pure (he.mono hs₁)

end

theorem unaryWith_advances (hi : inner.Advances n) :
    Advances (n + 1) 1 (unaryWith (n + 1) inner) (Placed Expr.span) := by
  intro seen c hc
  have hprefixed : ∀ op, c.kind? ≠ some .eof →
      AdvancesAt seen 1 c (unaryWith.prefixed inner op) (Placed Expr.span) := by
    intro op hne
    refine (token hne).bind fun t seen₁ c₁ _ h₁ ht => ?_
    refine (hi.unary seen₁ c₁ (by omega)).bind fun e seen₂ c₂ hs₂ _ he => .pure ?_
    exact (Begins.mono (.of_mem ht.1) hs₂).join he
  unfold unaryWith
  refine .peek ?_
  split
  case h_1 hbang => exact hprefixed .not (by simp [hbang])
  case h_2 hminus => exact hprefixed .neg (by simp [hminus])
  case h_3 =>
    refine (primary_advances hi seen c hc).bind fun e seen₁ c₁ _ h₁ he => ?_
    exact suffixesFrom_advances hi (n + 1) (by omega) he

theorem sumWith_advances (hi : inner.Advances n) : Advances (n + 1) 1 (sumWith (n + 1) inner) (Placed Expr.span) :=
  chain_advances rfl (chain_advances rfl (unaryWith_advances hi) (n + 1)) (n + 1)

theorem comparisonWith_advances (hi : inner.Advances n) :
    Advances (n + 1) 1 (comparisonWith (n + 1) inner) (Placed Expr.span) := by
  intro seen c hc
  refine (sumWith_advances hi seen c hc).bind fun left seen₁ c₁ _ h₁ hl => .peek ?_
  split
  case h_1 => exact .pure hl
  case h_2 op hop =>
    obtain ⟨kind, hkind, hkop⟩ := Option.bind_eq_some_iff.1 hop
    have hne : kind ≠ .eof := by
      rintro rfl
      cases hkop
    refine (AdvancesAt.skip hkind hne).bind fun _ seen₂ c₂ hs₂ h₂ _ => ?_
    refine (sumWith_advances hi seen₂ c₂ (by omega)).bind fun right seen₃ c₃ hs₃ _ hr => .peek ?_
    split
    · exact .pure ((hl.mono (List.Subset.trans hs₂ hs₃)).join hr)
    · exact .fail_here

theorem exprWith_advances (hi : inner.Advances n) : Advances (n + 1) 1 (exprWith (n + 1) inner) (Placed Expr.span) :=
  chain_advances rfl (chain_advances rfl (comparisonWith_advances hi) (n + 1)) (n + 1)

theorem endOfInput_advances {α : Type} {Q : List Token → α → Prop} : Advances 0 1 endOfInput Q := fun _ _ hc =>
  .endOfInput (List.eq_nil_of_length_eq_zero (Nat.le_zero.1 hc))

theorem bounded_advances : ∀ n, (bounded n).Advances n
  | 0 => ⟨endOfInput_advances, endOfInput_advances, endOfInput_advances, endOfInput_advances⟩
  | n + 1 =>
    have hi := bounded_advances n
    ⟨exprWith_advances hi, sumWith_advances hi, unaryWith_advances hi, typeRefWith_advances hi⟩

/-! ## Statements -/

theorem typeRef_advances (n : Nat) : Advances n 1 (typeRef n) (Placed TypeRef.span) := (bounded_advances n).typeRef

theorem expr_advances (n : Nat) : Advances n 1 (expr n) (Placed Expr.span) := (bounded_advances n).expr

theorem typeBehind_advances (mark : Symbol) (n : Nat) : Advances n 0 (typeBehind mark n) Any := by
  intro seen c hc
  refine (eat (by simp)).bind fun b seen₁ c₁ _ h₁ _ => ?_
  split
  · exact (typeRef_advances n seen₁ c₁ (by omega)).bind fun _ _ _ _ _ _ => .pure trivial
  · exact .pure trivial

theorem templateParam_advances (n : Nat) : Advances n 1 (templateParam n) (Placed TemplateParam.span) := by
  intro seen c hc
  refine .sees ?_
  split
  · refine (expect (by simp)).bind fun start seen₁ c₁ _ h₁ hstart => ?_
    refine ident.bind fun name seen₂ c₂ hs₂ h₂ _ => ?_
    refine (expect (by simp)).bind fun _ seen₃ c₃ hs₃ h₃ _ => ?_
    refine (typeRef_advances n seen₃ c₃ (by omega)).bind fun type seen₄ c₄ hs₄ _ htype => .pure ?_
    exact (hstart.mono (List.Subset.trans hs₂ (List.Subset.trans hs₃ hs₄))).join htype
  · refine ident.bind fun name seen₁ c₁ _ h₁ hname => ?_
    refine (eat (by simp)).bind fun b seen₂ c₂ hs₂ h₂ _ => ?_
    split
    · exact ident.bind fun bound _ _ hs₃ _ hbound => .pure ((hname.mono (List.Subset.trans hs₂ hs₃)).join hbound)
    · exact .pure (hname.mono hs₂)

theorem templateParams_advances (n : Nat) :
    Advances n 0 (templateParams n) fun seen params => ∀ p ∈ params, Begins seen p.span := by
  intro seen c hc
  have hrest : ∀ {seen c}, c.rest.length ≤ n → AdvancesAt seen 0 c (do
      let params ← commaSeparated (templateParam n) (return true) n
      let _ ← expect (.symbol .gt)
      return params) fun seen params => ∀ p ∈ params, Begins seen p.span := by
    intro seen c hc
    have hmore : ∀ seen c, AdvancesAt seen 0 c (return true) Any := fun _ _ => .pure trivial
    have hparams := commaSeparated_advances (Q := Placed TemplateParam.span) (fun hs h => Begins.mono h hs)
      (templateParam_advances n) hmore n seen c hc hc
    refine hparams.bind fun params seen₁ c₁ _ _ hp => ?_
    exact (expect (by simp)).bind fun _ _ _ hs₂ _ _ => .pure fun p h => (hp p h).mono hs₂
  refine .sees ?_
  split
  · refine (expect (by simp)).bind fun opening seen₁ c₁ _ h₁ hopening => .sees ?_
    dsimp only
    split
    · exact (AdvancesAt.fail_seen (k := 0) (Q := fun _ _ => False) hopening).bind fun _ _ _ _ _ h => h.elim
    · exact hrest (by omega)
  · exact .pure (by simp)

theorem param_advances (n : Nat) : Advances n 1 (param n) Any := by
  intro seen c hc
  refine ident.bind fun name seen₁ c₁ _ h₁ _ => ?_
  refine (expect (by simp)).bind fun _ seen₂ c₂ _ h₂ _ => ?_
  refine (eat (by simp)).bind fun mutable seen₃ c₃ _ h₃ _ => ?_
  exact (typeRef_advances n seen₃ c₃ (by omega)).bind fun _ _ _ _ _ _ => .pure trivial

theorem traitDef_advances (n : Nat) : Advances n 1 traitDef Any := fun _ _ _ =>
  (expect (by simp)).bind fun _ _ _ _ _ _ => ident.bind fun _ _ _ _ _ _ => .closing

theorem recordFields_advances (bound : Nat) {opening : Span} : ∀ n {seen c}, c.rest.length ≤ n →
    c.rest.length ≤ bound → Begins seen opening → AdvancesAt seen 1 c (recordFields bound opening n) Any
  | 0, _, _, hcn, _, _ => .endOfInput (List.eq_nil_of_length_eq_zero (Nat.le_zero.1 hcn))
  | n + 1, seen, c, hcn, hcb, ho => by
    unfold recordFields
    refine .peek ?_
    split
    · exact (expect (by simp)).bind fun _ _ _ _ _ _ => .closing
    · exact .fail_seen ho
    · refine (eat (by simp)).bind fun hidden seen₁ c₁ hs₁ h₁ _ => ?_
      refine ident.bind fun name seen₂ c₂ hs₂ h₂ _ => ?_
      refine (expect (by simp)).bind fun _ seen₃ c₃ hs₃ h₃ _ => ?_
      refine (typeRef_advances bound seen₃ c₃ (by omega)).bind fun type seen₄ c₄ hs₄ h₄ _ => .peek ?_
      have hs := List.Subset.trans hs₁ (List.Subset.trans hs₂ (List.Subset.trans hs₃ hs₄))
      have hrest : ∀ f : RecordField, ∀ {seen c}, seen₄ ⊆ seen → c.rest.length ≤ c₄.rest.length →
          AdvancesAt seen 0 c (recordFields bound opening n >>= fun r => Pure.pure (f :: r.1, r.2)) Any := by
        intro f seen₅ c₅ hs₅ h₅
        have ho₅ := ho.mono (List.Subset.trans hs hs₅)
        exact (recordFields_advances bound n (c := c₅) (by omega) (by omega) ho₅).bind fun _ _ _ _ _ _ => .pure trivial
      dsimp only
      split
      case h_1 hcomma => exact (AdvancesAt.skip hcomma (by simp)).bind fun _ _ _ hs₅ h₅ _ => hrest _ hs₅ (by omega)
      case h_2 => exact hrest _ (List.Subset.refl _) (Nat.le_refl _)
      case h_3 =>
        refine .place fun s hplace => ?_
        exact (AdvancesAt.fail (k := 0) (Q := fun _ _ => False) hplace).bind fun _ _ _ _ _ h => h.elim

theorem typeDef_advances (n : Nat) : Advances n 1 (typeDef n) Any := by
  intro seen c hc
  refine (expect (by simp)).bind fun start seen₁ c₁ _ h₁ hstart => ?_
  refine ident.bind fun name seen₂ c₂ hs₂ h₂ _ => ?_
  refine (templateParams_advances n seen₂ c₂ (by omega)).bind fun params seen₃ c₃ hs₃ h₃ hparams => ?_
  refine (expect (by simp)).bind fun _ seen₄ c₄ hs₄ h₄ _ => .sees ?_
  split
  · split
    case h_1 p _ => exact .fail_seen ((hparams p (by simp)).mono hs₄)
    case h_2 =>
      refine (expect (by simp)).bind fun _ seen₅ c₅ hs₅ h₅ _ => ?_
      refine (expect (by simp)).bind fun brace seen₆ c₆ hs₆ h₆ hbrace => ?_
      have hs := List.Subset.trans hs₂ (List.Subset.trans hs₃ (List.Subset.trans hs₄ (List.Subset.trans hs₅ hs₆)))
      have hfields := recordFields_advances n n (c := c₆) (by omega) (by omega) ((hstart.mono hs).join hbrace)
      exact hfields.bind fun _ _ _ _ _ _ => .pure trivial
  · refine (typeRef_advances n seen₄ c₄ (by omega)).bind fun target _ _ _ _ _ => ?_
    exact .closing

theorem valDecl_advances (n : Nat) : Advances n 1 (valDecl n) Any := by
  intro seen c hc
  refine (expect (by simp)).bind fun start seen₁ c₁ _ h₁ _ => ?_
  refine (eat (by simp)).bind fun mutable seen₂ c₂ _ h₂ _ => ?_
  refine ident.bind fun name seen₃ c₃ _ h₃ _ => ?_
  refine (typeBehind_advances .colon n seen₃ c₃ (by omega)).bind fun type seen₄ c₄ _ h₄ _ => ?_
  refine (expect (by simp)).bind fun _ seen₅ c₅ _ h₅ _ => ?_
  exact (expr_advances n seen₅ c₅ (by omega)).bind fun _ _ _ _ _ _ => .pure trivial

variable {stmt : Parse Stmt}

theorem blockStmts_advances (hs : Advances n 1 stmt Any) {opening : Span} : ∀ m {seen c}, c.rest.length ≤ m →
    c.rest.length ≤ n → Begins seen opening → AdvancesAt seen 1 c (blockStmts stmt opening m) Any
  | 0, _, c, hcm, _, _ => .fail fun hne => absurd (List.eq_nil_of_length_eq_zero (Nat.le_zero.1 hcm)) hne
  | m + 1, seen, c, hcm, hcn, ho => by
    unfold blockStmts
    refine skipNewlines.bind fun _ seen₁ c₁ hs₁ h₁ _ => .peek ?_
    split
    · exact (expect (by simp)).bind fun _ _ _ _ _ _ => .pure trivial
    · exact .fail_seen (ho.mono hs₁)
    · refine (hs seen₁ c₁ (by omega)).bind fun s seen₂ c₂ hs₂ h₂ _ => ?_
      have ho₂ := ho.mono (List.Subset.trans hs₁ hs₂)
      refine AdvancesAt.bind ((blockStmts_advances hs m (by omega) (by omega) ho₂).any (Nat.le_refl 1)) ?_
      exact fun _ _ _ _ _ _ => .pure trivial

theorem block_advances (hs : Advances n 1 stmt Any) : Advances (n + 1) 1 (block (n + 1) stmt) Any := by
  intro seen c hc
  refine (expect (by simp)).bind fun _ seen₁ c₁ _ h₁ _ => ?_
  refine (expect (by simp)).bind fun opening seen₂ c₂ _ h₂ hopening => ?_
  have hstmts := blockStmts_advances hs (n + 1) (c := c₂) (by omega) (by omega) hopening
  exact hstmts.bind fun _ _ _ _ _ _ => .pure trivial

theorem cellDef_advances (hs : Advances n 1 stmt Any) : Advances (n + 1) 1 (cellDef (n + 1) stmt) Any := by
  intro seen c hc
  refine (expect (by simp)).bind fun start seen₁ c₁ _ h₁ _ => ?_
  refine ident.bind fun name seen₂ c₂ _ h₂ _ => ?_
  refine (templateParams_advances (n + 1) seen₂ c₂ (by omega)).bind fun params seen₃ c₃ _ h₃ _ => ?_
  refine (expect (by simp)).bind fun _ seen₄ c₄ _ h₄ _ => ?_
  have hparams := closedBy_advances (.symbol .rparen) (param_advances (n + 1)) (Nat.le_refl (n + 1))
  refine (hparams seen₄ c₄ (by omega)).bind fun args seen₅ c₅ _ h₅ _ => ?_
  refine (expect (by simp)).bind fun _ seen₆ c₆ _ h₆ _ => ?_
  refine (typeBehind_advances .arrow (n + 1) seen₆ c₆ (by omega)).bind fun ret seen₇ c₇ _ h₇ _ => ?_
  refine (expect (by simp)).bind fun _ seen₈ c₈ _ h₈ _ => ?_
  exact (block_advances hs seen₈ c₈ (by omega)).bind fun _ _ _ _ _ _ => .pure trivial

theorem assignment_advances (n : Nat) : Advances n 1 (assignment n) Any := by
  intro seen c hc
  refine ident.bind fun target seen₁ c₁ _ h₁ _ => ?_
  refine (expect (by simp)).bind fun _ seen₂ c₂ _ h₂ _ => ?_
  refine (expr_advances n seen₂ c₂ (by omega)).bind fun e seen₃ c₃ _ _ _ => ?_
  exact .closing

theorem conditional_advances (hs : Advances n 1 stmt Any) : Advances (n + 1) 1 (conditional (n + 1) stmt) Any := by
  intro seen c hc
  refine (expect (by simp)).bind fun start seen₁ c₁ _ h₁ _ => ?_
  refine (expr_advances (n + 1) seen₁ c₁ (by omega)).bind fun cond seen₂ c₂ _ h₂ _ => ?_
  refine (expect (by simp)).bind fun _ seen₃ c₃ _ h₃ _ => ?_
  refine (block_advances hs seen₃ c₃ (by omega)).bind fun yes seen₄ c₄ _ h₄ _ => ?_
  refine skipNewlines.bind fun _ seen₅ c₅ _ h₅ _ => ?_
  refine (eat (by simp)).bind fun b seen₆ c₆ _ h₆ _ => ?_
  split
  · refine (expect (by simp)).bind fun _ seen₇ c₇ _ h₇ _ => ?_
    exact (block_advances hs seen₇ c₇ (by omega)).bind fun _ _ _ _ _ _ => .pure trivial
  · exact .pure trivial

theorem whileLoop_advances (hs : Advances n 1 stmt Any) : Advances (n + 1) 1 (whileLoop (n + 1) stmt) Any := by
  intro seen c hc
  refine (expect (by simp)).bind fun start seen₁ c₁ _ h₁ _ => ?_
  refine (expr_advances (n + 1) seen₁ c₁ (by omega)).bind fun cond seen₂ c₂ _ h₂ _ => ?_
  refine (expect (by simp)).bind fun _ seen₃ c₃ _ h₃ _ => ?_
  exact (block_advances hs seen₃ c₃ (by omega)).bind fun _ _ _ _ _ _ => .pure trivial

theorem returnStmt_advances (n : Nat) : Advances n 1 (returnStmt n) Any := by
  intro seen c hc
  refine (expect (by simp)).bind fun start seen₁ c₁ _ h₁ _ => .peek ?_
  split
  · refine (expr_advances n seen₁ c₁ (by omega)).bind fun e seen₂ c₂ _ _ _ => ?_
    exact .closing
  · exact .closing

theorem loopVar_advances (n : Nat) : Advances n 1 (loopVar n) Any := by
  intro seen c hc
  refine (expect (by simp)).bind fun start seen₁ c₁ _ h₁ _ => ?_
  refine (eat (by simp)).bind fun mutable seen₂ c₂ _ h₂ _ => ?_
  refine ident.bind fun name seen₃ c₃ _ h₃ _ => ?_
  exact (typeBehind_advances .colon n seen₃ c₃ (by omega)).bind fun _ _ _ _ _ _ => .pure trivial

theorem loopVarAfter_advances (n : Nat) (keyword : Span) : Advances n 1 (loopVarAfter n keyword) Any := by
  intro seen c hc
  refine .sees ?_
  split
  · exact (loopVar_advances n seen c hc).bind fun _ _ _ _ _ _ => .pure trivial
  · exact .fail_here

theorem expansionHead_advances (n : Nat) (keyword : Span) : Advances n 1 (expansionHead n keyword) Any := by
  intro seen c hc
  refine .sees ?_
  split
  · refine (loopVar_advances n seen c hc).bind fun r seen₁ c₁ _ h₁ _ => ?_
    refine (eat (by simp)).bind fun b seen₂ c₂ _ h₂ _ => ?_
    split
    · refine (expr_advances n seen₂ c₂ (by omega)).bind fun e seen₃ c₃ _ h₃ _ => ?_
      refine (expect (by simp)).bind fun _ seen₄ c₄ _ h₄ _ => ?_
      exact (loopVarAfter_advances n keyword seen₄ c₄ (by omega)).bind fun _ _ _ _ _ _ => .pure trivial
    · exact .pure trivial
  · refine (expr_advances n seen c hc).bind fun e seen₁ c₁ _ h₁ _ => ?_
    refine (expect (by simp)).bind fun _ seen₂ c₂ _ h₂ _ => ?_
    exact (loopVarAfter_advances n keyword seen₂ c₂ (by omega)).bind fun _ _ _ _ _ _ => .pure trivial

theorem expansion_advances (hs : Advances n 1 stmt Any) : Advances (n + 1) 1 (expansion (n + 1) stmt) Any := by
  intro seen c hc
  refine (expect (by simp)).bind fun keyword seen₁ c₁ _ h₁ _ => ?_
  refine (expansionHead_advances (n + 1) keyword seen₁ c₁ (by omega)).bind fun head seen₂ c₂ _ h₂ _ => ?_
  refine (expect (by simp)).bind fun _ seen₃ c₃ _ h₃ _ => ?_
  refine (expr_advances (n + 1) seen₃ c₃ (by omega)).bind fun range seen₄ c₄ _ h₄ _ => ?_
  refine (expect (by simp)).bind fun _ seen₅ c₅ _ h₅ _ => ?_
  exact (block_advances hs seen₅ c₅ (by omega)).bind fun _ _ _ _ _ _ => .pure trivial

theorem stmtWith_advances (hs : Advances n 1 stmt Any) : Advances (n + 1) 1 (stmtWith (n + 1) stmt) Any := by
  intro seen c hc
  have hmark : ∀ (mark : Keyword) (give : Span → Stmt), AdvancesAt seen 1 c (do
      let place ← expect (.keyword mark)
      lineEnd
      return give place) Any := fun _ _ =>
    (expect (by simp)).bind fun _ _ _ _ _ _ => .closing
  unfold stmtWith
  refine .peek ?_
  split
  case h_1 => exact traitDef_advances (n + 1) seen c hc
  case h_2 => exact typeDef_advances (n + 1) seen c hc
  case h_3 =>
    refine (valDecl_advances (n + 1) seen c hc).bind fun decl _ _ _ _ _ => ?_
    exact .closing
  case h_4 => exact cellDef_advances hs seen c hc
  case h_5 => exact conditional_advances hs seen c hc
  case h_6 => exact whileLoop_advances hs seen c hc
  case h_7 => exact expansion_advances hs seen c hc
  case h_8 => exact hmark .breakWord .leave
  case h_9 => exact hmark .continueWord .next
  case h_10 => exact returnStmt_advances (n + 1) seen c hc
  case h_11 =>
    refine (expect (by simp)).bind fun start seen₁ c₁ _ h₁ _ => ?_
    refine (expr_advances (n + 1) seen₁ c₁ (by omega)).bind fun e _ _ _ _ _ => ?_
    exact .closing
  case h_12 kind _ _ _ _ _ _ _ _ _ _ _ hkind =>
    have hexpr : AdvancesAt seen 1 c (if startsExpr kind then do
          let e ← expr (n + 1)
          lineEnd
          return Stmt.expr e
        else do fail .expectedStatement (← place ⟨0, 0⟩)) Any := by
      split
      · refine (expr_advances (n + 1) seen c hc).bind fun e _ _ _ _ _ => ?_
        exact .closing
      · exact .fail_here
    refine .peekSecond ?_
    split
    · split
      · exact assignment_advances (n + 1) seen c hc
      · exact hexpr
    · split
      · exact assignment_advances (n + 1) seen c hc
      · exact hexpr
  case h_13 hkind =>
    refine .fail fun hne => ?_
    obtain ⟨t, ts, hrest⟩ := List.exists_cons_of_ne_nil hne
    rw [Cursor.kind?, hrest] at hkind
    cases hkind

/-- **How far a statement reads.** -/
theorem stmt_advances : ∀ n, Advances n 1 (Grammar.stmt n) Any
  | 0 => fun _ _ hc => .fail fun hne => absurd (List.eq_nil_of_length_eq_zero (Nat.le_zero.1 hc)) hne
  | n + 1 => stmtWith_advances (stmt_advances n)

end Grammar
end Unroll
