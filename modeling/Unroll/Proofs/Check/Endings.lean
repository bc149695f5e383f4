import Mathlib.Order.Defs.Unbundled
import Unroll.Checker.Stmt
import Unroll.Proofs.Outcome
/-!
# How a step ends, well or badly

A step that fails keeps the state it failed in, and the check goes on from there.  So what is kept on the way has to be
kept by both ends of every step.  `Always` says this of a step and a relation; it is closed under sequence for every
relation that is reflexive and transitive, and the steps that only read keep all of these.
-/
namespace Unroll
namespace Outcome

/-! ## How a composed step fails -/

variable {ε σ α β : Type} {s s' : σ} {d : ε}

@[simp] theorem bind_error {x : EStateM ε σ α} {f : α → EStateM ε σ β} :
    (x >>= f) s = .error d s' ↔ x s = .error d s' ∨ ∃ a t, x s = .ok a t ∧ f a t = .error d s' := by
  show EStateM.bind x f s = _ ↔ _
  unfold EStateM.bind
  cases x s with
  | ok a t =>
    simp only [EStateM.Result.ok.injEq, reduceCtorEq, false_or]
    constructor
    · intro h
      exact ⟨a, t, ⟨rfl, rfl⟩, h⟩
    · rintro ⟨_, _, ⟨rfl, rfl⟩, h⟩
      exact h
  | error d' t => simp

@[simp] theorem map_error {x : EStateM ε σ α} {f : α → β} :
    (f <$> x) s = .error d s' ↔ x s = .error d s' := by
  show EStateM.map f x s = _ ↔ _
  unfold EStateM.map
  cases x s <;> simp

@[simp] theorem pure_error {a : α} : ¬ (pure a : EStateM ε σ α) s = .error d s' := by
  show ¬ EStateM.Result.ok a s = _
  simp

@[simp] theorem get_error : ¬ (get : EStateM ε σ σ) s = .error d s' := by
  show ¬ EStateM.Result.ok s s = _
  simp

@[simp] theorem modify_error {f : σ → σ} : ¬ (modify f : EStateM ε σ Unit) s = .error d s' := by
  show ¬ EStateM.Result.ok () (f s) = _
  simp

@[simp] theorem throw_error {d' : ε} : (throw d' : EStateM ε σ α) s = .error d s' ↔ d' = d ∧ s = s' := by
  show EStateM.Result.error d' s = _ ↔ _
  simp

@[simp] theorem tryCatch_error {x : EStateM ε σ α} {h : ε → EStateM ε σ α} :
    (tryCatch x h) s = .error d s' ↔ ∃ d' t, x s = .error d' t ∧ h d' t = .error d s' := by
  show EStateM.tryCatch x h s = _ ↔ _
  unfold EStateM.tryCatch
  cases x s with
  | ok a t => simp
  | error d' t =>
    simp only [EStateM.Result.error.injEq]
    constructor
    · intro hh
      exact ⟨d', t, ⟨rfl, rfl⟩, hh⟩
    · rintro ⟨_, _, ⟨rfl, rfl⟩, hh⟩
      exact hh

@[simp] theorem ofExcept_error {e : Except ε α} :
    (ofExcept e : EStateM ε σ α) s = .error d s' ↔ e = .error d ∧ s = s' := by
  cases e with
  | ok a => simp [ofExcept]
  | error d' => simp [ofExcept]

end Outcome

namespace CheckM

open Outcome

section

variable {α : Type} {s s' : Checker} {d : Diagnostic}

@[simp] theorem fail_error {c : Cause} {p : Span} : (fail c p : CheckM α) s = .error d s' ↔ .of c p = d ∧ s = s' :=
  throw_error

@[simp] theorem always_error {x : CheckM α} {f : Checker → Checker} :
    always x f s = .error d s' ↔ ∃ t, x s = .error d t ∧ f t = s' := by
  unfold always
  cases x s with
  | ok a t => simp
  | error d' t => simp [and_assoc]

@[simp] theorem onPlace_error {f : Place → Place} : ¬ onPlace f s = .error d s' := modify_error

@[simp] theorem place_error : ¬ place s = .error d s' := by
  unfold place
  simp

theorem apart_error {x : CheckM α} :
    apart x s = .error d s' ↔ ∃ t, x (s.onPlace outer) = .error d t ∧ t.onPlace (fun _ => s.place) = s' := by
  unfold apart
  simp only [bind_error, place_error, place_ok, onPlace_ok, onPlace_error, always_error, false_or]
  constructor
  · rintro ⟨_, _, ⟨rfl, rfl⟩, _, _, rfl, h⟩
    exact h
  · intro h
    exact ⟨_, _, ⟨rfl, rfl⟩, (), _, rfl, h⟩

theorem within_error {f : Frame} {x : CheckM α} :
    within f x s = .error d s' ↔ s.frames.push f = .error d ∧ s = s' ∨
      ∃ fr t, s.frames.push f = .ok fr ∧ x { s with frames := fr } = .error d t ∧ { t with frames := t.frames.pop.2 } = s' := by
  unfold within
  simp only [bind_error, get_error, get_ok, ofExcept_error, ofExcept_ok, modify_ok, modify_error, always_error, false_or]
  constructor
  · rintro ⟨_, _, ⟨rfl, rfl⟩, h | ⟨fr, _, ⟨hf, rfl⟩, _, _, rfl, t, hx, hs⟩⟩
    · exact .inl h
    · exact .inr ⟨fr, t, hf, hx, hs⟩
  · rintro (h | ⟨fr, t, hf, hx, hs⟩)
    · exact ⟨_, _, ⟨rfl, rfl⟩, .inl h⟩
    · exact ⟨_, _, ⟨rfl, rfl⟩, .inr ⟨fr, _, ⟨hf, rfl⟩, (), _, rfl, t, hx, hs⟩⟩

end

variable {α β : Type} {R : Checker → Checker → Prop}

/-- The state that an action ends in, well or badly. -/
def ends (x : CheckM α) (s : Checker) : Checker :=
  match x s with
  | .ok _ t => t
  | .error _ t => t

/-- **However the action ends, its end is related to its beginning.** -/
def Always (R : Checker → Checker → Prop) (x : CheckM α) : Prop := ∀ s, R s (ends x s)

/-- Where the action fails, its end is related to its beginning. -/
def Fails (R : Checker → Checker → Prop) (x : CheckM α) : Prop := ∀ s d t, x s = .error d t → R s t

theorem ends_of_ok {x : CheckM α} {s t : Checker} {a : α} (h : x s = .ok a t) : ends x s = t := by
  unfold ends
  rw [h]

theorem ends_of_error {x : CheckM α} {s t : Checker} {d : Diagnostic} (h : x s = .error d t) : ends x s = t := by
  unfold ends
  rw [h]

theorem ends_bind (x : CheckM α) (f : α → CheckM β) (s : Checker) :
    ends (x >>= f) s = match x s with
      | .ok a t => ends (f a) t
      | .error _ t => t := by
  show ends (EStateM.bind x f) s = _
  unfold ends EStateM.bind
  cases x s <;> rfl

theorem ends_tryCatch (x : CheckM α) (h : Diagnostic → CheckM α) (s : Checker) :
    ends (tryCatch x h) s = match x s with
      | .ok _ t => t
      | .error d t => ends (h d) t := by
  show ends (EStateM.tryCatch x h) s = _
  unfold ends EStateM.tryCatch
  cases x s <;> rfl

theorem ends_onPlace (f : Place → Place) (x : Unit → CheckM β) (s : Checker) :
    ends (onPlace f >>= x) s = ends (x ()) (s.onPlace f) :=
  ends_bind (onPlace f) x s

theorem ends_always (x : CheckM α) (f : Checker → Checker) (s : Checker) : ends (always x f) s = f (ends x s) := by
  unfold ends always
  cases x s <;> rfl

theorem ends_inScope (x : CheckM α) (s : Checker) :
    ends (inScope x) s = (ends x s).onPlace (·.restore s.place.mark) :=
  ends_always x _ s

theorem ends_apart (x : CheckM α) (s : Checker) :
    ends (apart x) s = (ends x (s.onPlace outer)).onPlace fun _ => s.place :=
  ends_always x _ (s.onPlace outer)

theorem ends_within (f : Frame) (x : CheckM α) (s : Checker) :
    ends (within f x) s = match s.frames.push f with
      | .ok fr => { ends x { s with frames := fr } with frames := (ends x { s with frames := fr }).frames.pop.2 }
      | .error _ => s := by
  show ends ((ofExcept (s.frames.push f) : CheckM Frames) >>= _) s = _
  rw [ends_bind]
  cases s.frames.push f with
  | ok fr => exact ends_always x _ { s with frames := fr }
  | error d => rfl

namespace Always

theorem ok {x : CheckM α} (h : Always R x) {s t : Checker} {a : α} (hx : x s = .ok a t) : R s t :=
  ends_of_ok hx ▸ h s

theorem error {x : CheckM α} (h : Always R x) {s t : Checker} {d : Diagnostic} (hx : x s = .error d t) : R s t :=
  ends_of_error hx ▸ h s

theorem of_ends {x : CheckM α} (hx : ∀ {s a t}, x s = .ok a t → R s t) (hf : Fails R x) : Always R x := by
  intro s
  cases h : x s with
  | ok a t => exact ends_of_ok h ▸ hx h
  | error d t => exact ends_of_error h ▸ hf s d t h

theorem mono {Q : Checker → Checker → Prop} (hRQ : ∀ {s t}, R s t → Q s t) {x : CheckM α} (h : Always R x) : Always Q x :=
  fun s => hRQ (h s)

theorem modify {f : Checker → Checker} (h : ∀ s, R s (f s)) : Always R (modify f : CheckM Unit) := h

theorem onPlace {f : Place → Place} (h : ∀ s : Checker, R s (s.onPlace f)) : Always R (onPlace f) := h

theorem within {f : Frame} {x : CheckM α} (hr : ∀ s, R s s) (hf : ∀ {s t fr}, s.frames.push f = .ok fr →
    R { s with frames := fr } t → R s { t with frames := t.frames.pop.2 }) (hx : Always R x) : Always R (within f x) := by
  intro s
  rw [ends_within]
  cases h : s.frames.push f with
  | ok fr => exact hf h (hx _)
  | error d => exact hr s

theorem map {x : CheckM α} {f : α → β} (hx : Always R x) : Always R (f <$> x) := by
  intro s
  show R s (ends (EStateM.map f x) s)
  unfold ends EStateM.map
  cases h : x s with
  | ok a t => exact hx.ok h
  | error d t => exact hx.error h

variable [IsPreorder Checker R]

theorem pure (a : α) : Always R (pure a : CheckM α) := fun s => refl_of R s

theorem fail (c : Cause) (p : Span) : Always R (fail c p : CheckM α) := fun s => refl_of R s

/-- What would come after a failure does not matter. -/
theorem fail_bind {c : Cause} {p : Span} {f : α → CheckM β} : Always R (CheckM.fail c p >>= f) := fun s => refl_of R s

/-- Where the state is left alone, every such relation is kept. -/
theorem of_eq {x : CheckM α} (h : Always Eq x) : Always R x := fun s => (h s) ▸ refl_of R s

theorem throw (d : Diagnostic) : Always R (throw d : CheckM α) := fun s => refl_of R s

theorem get : Always R (get : CheckM Checker) := fun s => refl_of R s

theorem place : Always R place := fun s => refl_of R s

theorem ofExcept (e : Except Diagnostic α) : Always R (ofExcept e : CheckM α) := by
  intro s
  cases e <;> exact refl_of R s

theorem bind {x : CheckM α} {f : α → CheckM β} (hx : Always R x) (hf : ∀ a, Always R (f a)) : Always R (x >>= f) := by
  intro s
  rw [ends_bind]
  cases h : x s with
  | ok a t => exact trans_of R (hx.ok h) (hf a t)
  | error d t => exact hx.error h

/-- Before the rest there is a step that only reads, and the rest may go by what it has read. -/
theorem after {x : CheckM α} {f : α → CheckM β} (hx : Always Eq x) (hf : ∀ s a, x s = .ok a s → R s (ends (f a) s)) :
    Always R (x >>= f) := by
  intro s
  rw [ends_bind]
  cases h : x s with
  | ok a t =>
    obtain rfl := hx.ok h
    exact hf s a h
  | error d t => exact hx.error h ▸ refl_of R s

theorem tryCatch {x : CheckM α} {h : Diagnostic → CheckM α} (hx : Always R x) (hh : ∀ d, Always R (h d)) :
    Always R (tryCatch x h) := by
  intro s
  rw [ends_tryCatch]
  cases hs : x s with
  | ok a t => exact hx.ok hs
  | error d t => exact trans_of R (hx.error hs) (hh d t)

theorem mapM {f : α → CheckM β} (hf : ∀ a, Always R (f a)) : ∀ as : List α, Always R (as.mapM f)
  | [] => by
    rw [List.mapM_nil]
    exact .pure _
  | a :: as => by
    rw [List.mapM_cons]
    exact .bind (hf a) fun b => .bind (mapM hf as) fun bs => .pure _

theorem forM {f : α → CheckM Unit} : ∀ as : List α, (∀ a ∈ as, Always R (f a)) → Always R (as.forM f)
  | [], _ => .pure _
  | a :: as, hf => .bind (hf a (List.mem_cons_self ..)) fun _ => forM as fun b hb => hf b (List.mem_cons_of_mem a hb)

theorem optionMapM {f : α → CheckM β} (hf : ∀ a, Always R (f a)) : ∀ a : Option α, Always R (a.mapM f)
  | none => by
    rw [Option.mapM_none]
    exact .pure _
  | some a => by
    rw [Option.mapM_some]
    exact .map (hf a)

theorem constIndex (e : Expr) : Always R (constIndex e) := .bind .place fun _ => .ofExcept _

end Always

theorem Fails.of_always {x : CheckM α} (h : Always R x) : Fails R x := fun _ _ _ => h.error

theorem Fails.bind [IsPreorder Checker R] {x : CheckM α} {f : α → CheckM β} (hx : Always R x) (hf : ∀ a, Fails R (f a)) :
    Fails R (x >>= f) := by
  intro s d t h
  obtain h | ⟨a, u, hu, h⟩ := bind_error.1 h
  · exact hx.error h
  · exact trans_of R (hx.ok hu) (hf a u d t h)

end CheckM

namespace Check

open CheckM

variable {R : Checker → Checker → Prop} [IsPreorder Checker R]

/-! ## Steps that read the limits or the place -/

theorem checkSize_always (sp : Span) (n : Option Nat) : Always R (checkSize sp n) := by
  refine .bind .get fun s => ?_
  simp only
  split
  · split
    · exact .fail _ _
    · exact .pure _
  · exact .pure _

theorem jump_always (k : String) (x : Stmt) (sp : Span) : Always R (jump k x sp) := by
  refine .bind .place fun p => ?_
  split
  · exact .fail _ _
  · exact .pure _

end Check
end Unroll
