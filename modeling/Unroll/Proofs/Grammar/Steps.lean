import Unroll.Grammar.Basic
import Unroll.Proofs.Outcome
/-!
# Cursors and the kinds between them

`Past ks c c'` says which kinds of token lie between two cursors of one stream.  A step of a parser that succeeds stands
past the kinds it took, and `Reads` says of a phrase that it succeeds in no other way than past kinds that fit its
result.
-/
namespace Unroll

namespace Cursor

/-- The cursor before the token. -/
def push (t : Token) (c : Cursor) : Cursor := ⟨t :: c.rest, c.last⟩

variable {c c' m : Cursor} {t : Token} {k : TokenKind} {ks ks' : List TokenKind}

@[simp] theorem kind?_push : (c.push t).kind? = some t.kind := rfl

@[simp] theorem second?_push : (c.push t).second? = c.kind? := rfl

@[simp] theorem drop_push : (c.push t).drop = c := rfl

@[simp] theorem rest_push : (c.push t).rest = t :: c.rest := rfl

@[simp] theorem last_push : (c.push t).last = c.last := rfl

theorem eq_push_of_kind? (h : c.kind? = some k) : ∃ span, c = c.drop.push ⟨k, span⟩ := by
  obtain ⟨rest, last⟩ := c
  cases rest with
  | nil => cases h
  | cons t ts =>
    obtain ⟨kind, span⟩ := t
    cases h
    exact ⟨span, rfl⟩

/-- **The tokens between the cursors are of the kinds.** -/
def Past : List TokenKind → Cursor → Cursor → Prop
  | [], c, c' => c = c'
  | k :: ks, c, c' => ∃ span m, c = push ⟨k, span⟩ m ∧ Past ks m c'

theorem past_nil : Past [] c c' ↔ c = c' := .rfl

theorem past_cons : Past (k :: ks) c c' ↔ ∃ span m, c = push ⟨k, span⟩ m ∧ Past ks m c' := .rfl

theorem past_single : Past [k] c c' ↔ ∃ span, c = push ⟨k, span⟩ c' := by
  constructor
  · rintro ⟨span, m, rfl, rfl⟩
    exact ⟨span, rfl⟩
  · rintro ⟨span, rfl⟩
    exact ⟨span, c', rfl, rfl⟩

theorem past_append : Past (ks ++ ks') c c' ↔ ∃ m, Past ks c m ∧ Past ks' m c' := by
  induction ks generalizing c with
  | nil =>
    constructor
    · intro h
      exact ⟨c, rfl, h⟩
    · rintro ⟨m, rfl, h⟩
      exact h
  | cons k ks ih =>
    constructor
    · rintro ⟨span, m, rfl, h⟩
      obtain ⟨m', hm, h⟩ := ih.1 h
      exact ⟨m', ⟨span, m, rfl, hm⟩, h⟩
    · rintro ⟨m', ⟨span, m, rfl, hm⟩, h⟩
      exact ⟨span, m, rfl, ih.2 ⟨m', hm, h⟩⟩

theorem past_between {k' : TokenKind} :
    Past (k :: ks ++ [k']) c c' ↔ ∃ s s' m, c = push ⟨k, s⟩ m ∧ Past ks m (push ⟨k', s'⟩ c') := by
  constructor
  · intro h
    obtain ⟨s, m, rfl, hinside⟩ := past_cons.1 h
    obtain ⟨_, hm, hclose⟩ := past_append.1 hinside
    obtain ⟨s', rfl⟩ := past_single.1 hclose
    exact ⟨s, s', m, rfl, hm⟩
  · rintro ⟨s, s', m, rfl, hm⟩
    exact past_cons.2 ⟨s, m, rfl, past_append.2 ⟨_, hm, past_single.2 ⟨s', rfl⟩⟩⟩

theorem past_iff : Past ks c c' ↔ ∃ ts : List Token, ts.map (·.kind) = ks ∧ c = ⟨ts ++ c'.rest, c'.last⟩ := by
  induction ks generalizing c with
  | nil =>
    constructor
    · rintro rfl
      exact ⟨[], rfl, rfl⟩
    · rintro ⟨ts, hts, rfl⟩
      rw [List.map_eq_nil_iff.1 hts]
      rfl
  | cons k ks ih =>
    constructor
    · rintro ⟨span, m, rfl, h⟩
      obtain ⟨ts, rfl, rfl⟩ := ih.1 h
      exact ⟨⟨k, span⟩ :: ts, rfl, rfl⟩
    · rintro ⟨ts, hts, rfl⟩
      obtain ⟨⟨_, span⟩, us, rfl, hk, hus⟩ := List.map_eq_cons_iff.1 hts
      cases hk
      exact ⟨span, ⟨us ++ c'.rest, c'.last⟩, rfl, ih.2 ⟨us, hus, rfl⟩⟩

theorem Past.length (h : Past ks c c') : c.rest.length = ks.length + c'.rest.length := by
  obtain ⟨ts, rfl, rfl⟩ := past_iff.1 h
  simp

theorem Past.kind? (h : Past (k :: ks) c c') : c.kind? = some k := by
  obtain ⟨span, m, rfl, -⟩ := h
  rfl

/-- The second kind is the next one, where there is none past it. -/
theorem Past.second? (h : Past (k :: ks) c c') : c.second? = (ks ++ c'.kind?.toList).head? := by
  obtain ⟨span, m, rfl, h⟩ := h
  cases ks with
  | nil =>
    cases past_nil.1 h
    cases hm : c'.kind? <;> simp [hm]
  | cons k' ks => simp [h.kind?]

end Cursor

namespace Parse

open Cursor Outcome

variable {α β : Type} {c c' : Cursor} {k : TokenKind} {x : Parse α} {a : α}

/-! ## One step -/

theorem peek_bind (f : Option TokenKind → Parse β) : (peek >>= f) c = f c.kind? c := rfl

theorem peekSecond_bind (f : Option TokenKind → Parse β) : (peekSecond >>= f) c = f c.second? c := rfl

theorem sees_bind (f : Bool → Parse β) : (sees k >>= f) c = f (c.kind? == some k) c := rfl

theorem skip_bind (f : Unit → Parse β) : (skip >>= f) c = f () c.drop := rfl

@[simp] theorem fail_ok {fault : ParseFault} {span : Span} : ¬ fail fault span c = .ok a c' := throw_ok

theorem endOfInput_ok : ¬ endOfInput c = .ok a c' := fail_ok

theorem next_ok {t : Token} : next c = .ok t c' ↔ c = c'.push t := by
  obtain ⟨rest, last⟩ := c
  cases rest with
  | nil =>
    constructor
    · intro h
      exact absurd h endOfInput_ok
    · intro h
      cases h
  | cons t' ts =>
    show EStateM.Result.ok t' (Cursor.mk ts last) = _ ↔ _
    constructor
    · intro h
      cases h
      rfl
    · intro h
      cases h
      rfl

theorem expect_ok {span : Span} : expect k c = .ok span c' ↔ c = c'.push ⟨k, span⟩ := by
  unfold expect
  simp only [bind_ok, next_ok]
  constructor
  · rintro ⟨⟨kind, s⟩, t, rfl, h⟩
    split at h
    case isTrue hk =>
      obtain ⟨rfl, rfl⟩ := pure_ok.1 h
      cases hk
      rfl
    case isFalse => exact absurd h fail_ok
  · rintro rfl
    exact ⟨_, c', rfl, by rw [if_pos rfl]; rfl⟩

theorem ident_ok {id : Ident} : ident c = .ok id c' ↔ c = c'.push ⟨.name id.name, id.span⟩ := by
  unfold ident
  simp only [bind_ok, next_ok]
  constructor
  · rintro ⟨⟨kind, s⟩, t, rfl, h⟩
    cases kind with
    | name n =>
      obtain ⟨rfl, rfl⟩ := pure_ok.1 h
      rfl
    | _ => exact absurd h fail_ok
  · rintro rfl
    exact ⟨_, c', rfl, rfl⟩

theorem eat_ok {b : Bool} : eat k c = .ok b c' ↔
    (b = true ∧ ∃ span, c = c'.push ⟨k, span⟩) ∨ (b = false ∧ c.kind? ≠ some k ∧ c = c') := by
  unfold eat
  rw [sees_bind]
  by_cases hk : c.kind? = some k
  · obtain ⟨span, hc⟩ := eq_push_of_kind? hk
    rw [hc]
    simp only [kind?_push, beq_self_eq_true, if_pos, skip_bind, drop_push, pure_ok]
    constructor
    · rintro ⟨rfl, rfl⟩
      exact .inl ⟨rfl, span, rfl⟩
    · rintro (⟨rfl, span', h⟩ | ⟨-, h, -⟩)
      · exact ⟨rfl, congrArg Cursor.drop h⟩
      · exact absurd rfl h
  · have hb : (c.kind? == some k) = false := by simpa using hk
    simp only [hb, Bool.false_eq_true, if_false, pure_ok]
    constructor
    · rintro ⟨rfl, rfl⟩
      exact .inr ⟨rfl, hk, rfl⟩
    · rintro (⟨-, span, rfl⟩ | ⟨rfl, -, rfl⟩)
      · exact absurd rfl hk
      · exact ⟨rfl, rfl⟩

theorem next_push {t : Token} : next (c.push t) = .ok t c := next_ok.2 rfl

theorem expect_push {span : Span} : expect k (c.push ⟨k, span⟩) = .ok span c := expect_ok.2 rfl

theorem ident_push {n : String} {span : Span} : ident (c.push ⟨.name n, span⟩) = .ok ⟨n, span⟩ c := ident_ok.2 rfl

theorem eat_push {span : Span} : eat k (c.push ⟨k, span⟩) = .ok true c := eat_ok.2 (.inl ⟨rfl, span, rfl⟩)

theorem eat_other (h : c.kind? ≠ some k) : eat k c = .ok false c := eat_ok.2 (.inr ⟨rfl, h, rfl⟩)

/-! ## What a phrase takes -/

/-- **From the cursor on, the phrase succeeds only past kinds that fit what it gives.** -/
def Reads (c : Cursor) (p : Parse α) (Q : List TokenKind → α → Prop) : Prop :=
  ∀ a c', p c = .ok a c' → ∃ ks, Past ks c c' ∧ Q ks a

namespace Reads

variable {p : Parse α} {f : α → Parse β} {P Q : List TokenKind → α → Prop} {R : List TokenKind → β → Prop}

theorem bind (hp : Reads c p P)
    (hf : ∀ a ks c', Past ks c c' → P ks a → Reads c' (f a) fun ks' b => R (ks ++ ks') b) : Reads c (p >>= f) R := by
  intro b c' h
  obtain ⟨a, m, ha, hb⟩ := bind_ok.1 h
  obtain ⟨ks, hks, hP⟩ := hp a m ha
  obtain ⟨ks', hks', hR⟩ := hf a ks m hks hP b c' hb
  exact ⟨ks ++ ks', past_append.2 ⟨m, hks, hks'⟩, hR⟩

theorem pure (h : Q [] a) : Reads c (Pure.pure a) Q := by
  intro b c' hb
  obtain ⟨rfl, rfl⟩ := pure_ok.1 hb
  exact ⟨[], rfl, h⟩

theorem mono (hp : Reads c p P) (h : ∀ ks a, P ks a → Q ks a) : Reads c p Q := by
  intro a c' ha
  obtain ⟨ks, hks, hP⟩ := hp a c' ha
  exact ⟨ks, hks, h ks a hP⟩

theorem fail {fault : ParseFault} {span : Span} : Reads c (Parse.fail fault span) Q := fun _ _ h => absurd h fail_ok

theorem endOfInput : Reads c Parse.endOfInput Q := fun _ _ h => absurd h endOfInput_ok

theorem place {other : Span} : Reads c (Parse.place other) fun ks _ => ks = [] := by
  intro span c' h
  obtain ⟨_, _, hget, h⟩ := bind_ok.1 h
  obtain ⟨rfl, rfl⟩ := get_ok.1 hget
  exact ⟨[], (pure_ok.1 h).2, rfl⟩

theorem peek {f : Option TokenKind → Parse β} (hf : Reads c (f c.kind?) R) : Reads c (Parse.peek >>= f) R := hf

theorem peekSecond {f : Option TokenKind → Parse β} (hf : Reads c (f c.second?) R) :
    Reads c (Parse.peekSecond >>= f) R := hf

theorem sees {f : Bool → Parse β} (hf : Reads c (f (c.kind? == some k)) R) : Reads c (Parse.sees k >>= f) R := hf

theorem skip {f : Unit → Parse β} (hk : c.kind? = some k) (hf : Reads c.drop (f ()) fun ks b => R (k :: ks) b) :
    Reads c (Parse.skip >>= f) R := by
  intro b c' h
  rw [skip_bind] at h
  obtain ⟨ks, hks, hR⟩ := hf b c' h
  obtain ⟨span, hc⟩ := eq_push_of_kind? hk
  exact ⟨k :: ks, ⟨span, c.drop, hc, hks⟩, hR⟩

theorem next : Reads c Parse.next fun ks t => ks = [t.kind] := by
  intro t c' h
  exact ⟨[t.kind], past_single.2 ⟨t.span, next_ok.1 h⟩, rfl⟩

theorem expect : Reads c (Parse.expect k) fun ks _ => ks = [k] := by
  intro span c' h
  exact ⟨[k], past_single.2 ⟨span, expect_ok.1 h⟩, rfl⟩

theorem ident : Reads c Parse.ident fun ks id => ks = [.name id.name] := by
  intro id c' h
  exact ⟨_, past_single.2 ⟨id.span, ident_ok.1 h⟩, rfl⟩

theorem eat : Reads c (Parse.eat k) fun ks b => ks = if b then [k] else [] := by
  intro b c' h
  obtain ⟨rfl, span, hc⟩ | ⟨rfl, -, hc⟩ := eat_ok.1 h
  · exact ⟨[k], past_single.2 ⟨span, hc⟩, rfl⟩
  · exact ⟨[], hc, rfl⟩

end Reads

end Parse

end Unroll
