import Unroll.Checker.State
/-!
# How a step ends well

Checker, machine and parser are steps on a state that end in a value or an error.  Nothing here knows what the state
is: each lemma says what a success of a composed step says about the steps it is composed of.  The checker's own
combinators follow; every later inversion is a rewriting with these.
-/
namespace Unroll
namespace Outcome

variable {ε σ α β : Type} {s s' : σ}

@[simp] theorem bind_ok {x : EStateM ε σ α} {f : α → EStateM ε σ β} {b : β} :
    (x >>= f) s = .ok b s' ↔ ∃ a t, x s = .ok a t ∧ f a t = .ok b s' := by
  show EStateM.bind x f s = _ ↔ _
  unfold EStateM.bind
  cases h : x s with
  | ok a t =>
    constructor
    · intro hf
      exact ⟨a, t, rfl, hf⟩
    · rintro ⟨a', t', ht, hf⟩
      cases ht
      exact hf
  | error d t => simp

theorem bind_of_ok {x : EStateM ε σ α} {f : α → EStateM ε σ β} {a : α} (h : x s = .ok a s') :
    (x >>= f) s = f a s' := by
  show EStateM.bind x f s = _
  unfold EStateM.bind
  rw [h]

@[simp] theorem pure_ok {a b : α} : (pure a : EStateM ε σ α) s = .ok b s' ↔ a = b ∧ s = s' := by
  show EStateM.Result.ok a s = _ ↔ _
  simp

@[simp] theorem map_ok {x : EStateM ε σ α} {f : α → β} {b : β} :
    (f <$> x) s = .ok b s' ↔ ∃ a, x s = .ok a s' ∧ f a = b := by
  show EStateM.map f x s = _ ↔ _
  unfold EStateM.map
  cases h : x s with
  | ok a t =>
    simp only [EStateM.Result.ok.injEq]
    constructor
    · rintro ⟨hf, ht⟩
      exact ⟨a, ⟨rfl, ht⟩, hf⟩
    · rintro ⟨a', ⟨rfl, ht⟩, hf⟩
      exact ⟨hf, ht⟩
  | error d t => simp

@[simp] theorem get_ok {a : σ} : (get : EStateM ε σ σ) s = .ok a s' ↔ s = a ∧ s = s' := by
  show EStateM.Result.ok s s = _ ↔ _
  simp

@[simp] theorem modify_ok {f : σ → σ} {u : Unit} :
    (modify f : EStateM ε σ Unit) s = .ok u s' ↔ f s = s' := by
  show EStateM.Result.ok () (f s) = _ ↔ _
  simp

@[simp] theorem throw_ok {d : ε} {a : α} : ¬ (throw d : EStateM ε σ α) s = .ok a s' := by
  show ¬ EStateM.Result.error d s = _
  simp

@[simp] theorem tryCatch_ok {x : EStateM ε σ α} {h : ε → EStateM ε σ α} {a : α} :
    (tryCatch x h) s = .ok a s' ↔ x s = .ok a s' ∨ ∃ d t, x s = .error d t ∧ h d t = .ok a s' := by
  show EStateM.tryCatch x h s = _ ↔ _
  unfold EStateM.tryCatch
  cases hx : x s with
  | ok a t => simp
  | error d t =>
    constructor
    · intro hh
      exact .inr ⟨d, t, rfl, hh⟩
    · rintro (hh | ⟨d', t', ht, hh⟩)
      · cases hh
      · cases ht
        exact hh

@[simp] theorem ofExcept_ok {e : Except ε α} {a : α} :
    (ofExcept e : EStateM ε σ α) s = .ok a s' ↔ e = .ok a ∧ s = s' := by
  cases e with
  | ok b => simp [ofExcept]
  | error d => simp [ofExcept]

@[simp] theorem except_bind_ok {x : Except ε α} {f : α → Except ε β} {b : β} :
    (x >>= f) = .ok b ↔ ∃ a, x = .ok a ∧ f a = .ok b := by
  cases x <;> simp [bind, Except.bind]

@[simp] theorem except_pure_ok {a b : α} : (pure a : Except ε α) = .ok b ↔ a = b := by
  simp [pure, Except.pure]

@[simp] theorem except_map_ok {x : Except ε α} {f : α → β} {b : β} :
    (f <$> x) = .ok b ↔ ∃ a, x = .ok a ∧ f a = b := by
  cases x <;> simp [Functor.map, Except.map]

end Outcome

namespace CheckM

open Outcome

variable {α : Type} {s s' : Checker} {a : α}

@[simp] theorem fail_ok {c : Cause} {p : Span} : ¬ (fail c p : CheckM α) s = .ok a s' := throw_ok

@[simp] theorem always_ok {x : CheckM α} {f : Checker → Checker} :
    always x f s = .ok a s' ↔ ∃ t, x s = .ok a t ∧ f t = s' := by
  unfold always
  cases h : x s with
  | ok b t => simp [and_assoc]
  | error d t => simp

@[simp] theorem onPlace_ok {f : Place → Place} {u : Unit} : onPlace f s = .ok u s' ↔ s.onPlace f = s' := modify_ok

@[simp] theorem place_ok {p : Place} : place s = .ok p s' ↔ s.place = p ∧ s = s' := by
  unfold place
  simp only [bind_ok, get_ok, pure_ok]
  constructor
  · rintro ⟨_, _, ⟨rfl, rfl⟩, rfl, rfl⟩
    exact ⟨rfl, rfl⟩
  · rintro ⟨rfl, rfl⟩
    exact ⟨_, _, ⟨rfl, rfl⟩, rfl, rfl⟩

theorem inScope_ok {x : CheckM α} :
    inScope x s = .ok a s' ↔ ∃ t, x s = .ok a t ∧ t.onPlace (·.restore s.place.mark) = s' := by
  unfold inScope
  simp only [bind_ok, place_ok, always_ok]
  constructor
  · rintro ⟨_, _, ⟨rfl, rfl⟩, h⟩
    exact h
  · intro h
    exact ⟨_, _, ⟨rfl, rfl⟩, h⟩

/-- The place outside of all cells that a check apart begins in. -/
def outer (p : Place) : Place := .outside (p.types.getLastD [])

theorem apart_ok {x : CheckM α} :
    apart x s = .ok a s' ↔ ∃ t, x (s.onPlace outer) = .ok a t ∧ t.onPlace (fun _ => s.place) = s' := by
  unfold apart
  simp only [bind_ok, place_ok, onPlace_ok, always_ok]
  constructor
  · rintro ⟨_, _, ⟨rfl, rfl⟩, _, _, rfl, h⟩
    exact h
  · intro h
    exact ⟨_, _, ⟨rfl, rfl⟩, (), _, rfl, h⟩

theorem within_ok {f : Frame} {x : CheckM α} :
    within f x s = .ok a s' ↔ ∃ fr t, s.frames.push f = .ok fr ∧ x { s with frames := fr } = .ok a t ∧
      { t with frames := t.frames.pop.2 } = s' := by
  unfold within
  simp only [bind_ok, get_ok, ofExcept_ok, modify_ok, always_ok]
  constructor
  · rintro ⟨_, _, ⟨rfl, rfl⟩, fr, _, ⟨hf, rfl⟩, _, _, rfl, t, hx, hs⟩
    exact ⟨fr, t, hf, hx, hs⟩
  · rintro ⟨fr, t, hf, hx, hs⟩
    exact ⟨_, _, ⟨rfl, rfl⟩, fr, _, ⟨hf, rfl⟩, (), _, rfl, t, hx, hs⟩

@[simp] theorem const_ok {e : Expr} {c : Const} :
    const e s = .ok c s' ↔ Const.eval s.place.constant? e = .ok c ∧ s = s' := by
  unfold const
  simp only [bind_ok, place_ok, ofExcept_ok]
  constructor
  · rintro ⟨_, _, ⟨rfl, rfl⟩, h⟩
    exact h
  · intro h
    exact ⟨_, _, ⟨rfl, rfl⟩, h⟩

@[simp] theorem constIndex_ok {e : Expr} {i : Option Nat} :
    constIndex e s = .ok i s' ↔ Const.evalIndex s.place.constant? e = .ok i ∧ s = s' := by
  unfold constIndex
  simp only [bind_ok, place_ok, ofExcept_ok]
  constructor
  · rintro ⟨_, _, ⟨rfl, rfl⟩, h⟩
    exact h
  · intro h
    exact ⟨_, _, ⟨rfl, rfl⟩, h⟩

end CheckM

end Unroll
