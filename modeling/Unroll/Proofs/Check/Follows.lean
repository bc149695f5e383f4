import Unroll.Proofs.Check.Room
/-!
# One check after another

A check under wider limits does what the check under narrow ones does, as long as that one is refused nothing and
reports nothing.  Under the same limits it does so in any case.  Both are one relation between two steps, with the
leeway that the second one has; the relation is closed under everything that steps are made of.

A refusal is an error like any other.  It is caught in a few places, and what catches it either throws it again or
reports it, so it never becomes a success that goes unnoticed.
-/
namespace Unroll
namespace Check

open CheckM Outcome Checker

/-- The limits of the second check, and whether they have to be those of the first one. -/
structure Leeway where
  config : Config
  exact : Prop

/-- The state stands within its limits, and these are within those of the second check. -/
structure Within (w : Leeway) (s : Checker) : Prop where
  limit : s.frames.limit = s.config.maxInstantiationDepth
  depth : s.frames.depth ≤ s.frames.limit
  depths : s.config.maxInstantiationDepth ≤ w.config.maxInstantiationDepth
  sizes : s.config.maxExpansionSize ≤ w.config.maxExpansionSize
  same : w.exact → s.config = w.config

/-- With so much room at most, which counts where nothing may differ. -/
structure Bounded (w : Leeway) (n : Nat) (s : Checker) : Prop where
  within : Within w s
  room : w.exact → room w.config s ≤ n

variable {w : Leeway} {n : Nat} {s t : Checker}

theorem Within.under_self (h : Within w s) (he : w.exact) : s.under w.config = s := by
  have hlimit : s.frames.limit = w.config.maxInstantiationDepth := h.same he ▸ h.limit
  unfold under
  rw [← h.same he, ← h.limit]

/-- What has no part in limits, frames and templates may change. -/
theorem Within.congr (h : Within w s) (hc : t.config = s.config) (hf : t.frames = s.frames) : Within w t := by
  constructor
  · rw [hc, hf, h.limit]
  · rw [hf]
    exact h.depth
  · rw [hc]
    exact h.depths
  · rw [hc]
    exact h.sizes
  · rw [hc]
    exact h.same

theorem Bounded.less (h : Bounded w n s) (hc : t.config = s.config) (hf : t.frames = s.frames)
    (ht : t.templatesLeft ≤ s.templatesLeft) : Bounded w n t := by
  refine ⟨h.within.congr hc hf, fun he => Nat.le_trans ?_ (h.room he)⟩
  unfold Checker.room
  rw [hf]
  omega

theorem Bounded.congr (h : Bounded w n s) (hc : t.config = s.config) (hf : t.frames = s.frames) (hg : t.generics = s.generics)
    (he : t.elaborating = s.elaborating) : Bounded w n t := by
  refine h.less hc hf (Nat.le_of_eq ?_)
  unfold templatesLeft untried
  rw [hg, he]

theorem Bounded.onPlace (h : Bounded w n s) (f : Place → Place) : Bounded w n (s.onPlace f) := h.congr rfl rfl rfl rfl

/-- **A frame takes room.** -/
theorem Bounded.push (h : Bounded w n s) {f : Frame} {fr : Frames} (hf : s.frames.push f = .ok fr) :
    (w.exact → n - 1 < n) ∧ Bounded w (n - 1) { s with frames := fr } ∧
      (s.under w.config).frames.push f = .ok { fr with limit := w.config.maxInstantiationDepth } := by
  unfold Frames.push at hf
  split at hf
  · rename_i hroom
    cases hf
    have hwide : s.frames.depth < w.config.maxInstantiationDepth := by
      have hlimit := h.within.limit
      have hdepths := h.within.depths
      omega
    have hspent : ∀ he : w.exact, (w.config.maxInstantiationDepth - (s.frames.depth + 1)) + s.templatesLeft + 1 ≤ n := by
      intro he
      have hleft := h.room he
      unfold Checker.room at hleft
      omega
    refine ⟨fun he => ?_, ⟨⟨h.within.limit, hroom, h.within.depths, h.within.sizes, h.within.same⟩, fun he => ?_⟩, ?_⟩
    · have := hspent he
      omega
    · have hsum := hspent he
      show (w.config.maxInstantiationDepth - (s.frames.depth + 1)) + s.templatesLeft ≤ n - 1
      omega
    · exact if_pos hwide
  · cases hf

theorem Bounded.pop (h : Bounded w (n - 1) s) (hn : w.exact → n - 1 < n) :
    Bounded w n { s with frames := s.frames.pop.2 } := by
  have hdepth : s.frames.pop.2.depth = s.frames.depth - 1 := List.length_tail
  refine ⟨⟨h.within.limit, ?_, h.within.depths, h.within.sizes, h.within.same⟩, fun he => ?_⟩
  · show s.frames.pop.2.depth ≤ s.frames.limit
    have hin := h.within.depth
    omega
  · have hleft := h.room he
    have hless := hn he
    unfold Checker.room at hleft
    show (w.config.maxInstantiationDepth - s.frames.pop.2.depth) + s.templatesLeft ≤ n
    omega

/-- **Trying a template takes room.** -/
theorem Bounded.trying (h : Bounded w n s) {name : String} (hu : s.untried name = true) :
    (w.exact → n - 1 < n) ∧ Bounded w (n - 1) { s with elaborating := name :: s.elaborating } := by
  have hless : ({ s with elaborating := name :: s.elaborating } : Checker).templatesLeft < s.templatesLeft :=
    templatesLeft_trying hu rfl rfl
  refine ⟨fun he => ?_, h.within.congr rfl rfl, fun he => ?_⟩
  · have hleft := h.room he
    unfold Checker.room at hleft
    omega
  · have hleft := h.room he
    unfold Checker.room at hleft
    show (w.config.maxInstantiationDepth - s.frames.depth) +
      ({ s with elaborating := name :: s.elaborating } : Checker).templatesLeft ≤ n - 1
    omega

theorem Bounded.mono {m : Nat} (h : Bounded w m s) (hm : w.exact → m ≤ n) : Bounded w n s :=
  ⟨h.within, fun he => Nat.le_trans (h.room he) (hm he)⟩

/-! ## Steps -/

variable {α β : Type} {P Q R : Checker → Prop}

/-- The second end is that of the first step, unless something has been refused or reported there and there is
leeway. -/
def Matches (w : Leeway) (Q : Checker → Prop) :
    EStateM.Result Diagnostic Checker α → EStateM.Result Diagnostic Checker α → Prop
  | .ok a t, r => ¬w.exact ∧ t.diagnostics ≠ [] ∨ r = .ok a (t.under w.config) ∧ Q t
  | .error d t, r => ¬w.exact ∨ r = .error d (t.under w.config) ∧ Q t

/-- **The second step follows the first one.** -/
structure Follows (w : Leeway) (P Q : Checker → Prop) (x y : CheckM α) : Prop where
  /-- What has been reported stays reported. -/
  reported : ¬w.exact → ∀ {s a t}, x s = .ok a t → s.diagnostics ≠ [] → t.diagnostics ≠ []
  follows : ∀ s, P s → Matches w Q (x s) (y (s.under w.config))

namespace Follows

variable {x y : CheckM α} {f g : α → CheckM β}

theorem ok (h : Follows w P Q x y) {a : α} (hs : P s) (hx : x s = .ok a t) :
    ¬w.exact ∧ t.diagnostics ≠ [] ∨ y (s.under w.config) = .ok a (t.under w.config) ∧ Q t := by
  have hend := h.follows s hs
  rwa [hx] at hend

theorem error (h : Follows w P Q x y) {d : Diagnostic} (hs : P s) (hx : x s = .error d t) :
    ¬w.exact ∨ y (s.under w.config) = .error d (t.under w.config) ∧ Q t := by
  have hend := h.follows s hs
  rwa [hx] at hend

/-- To follow is to follow every success and every error. -/
theorem of_ends (hr : ¬w.exact → ∀ {s a t}, x s = .ok a t → s.diagnostics ≠ [] → t.diagnostics ≠ [])
    (hok : ∀ {s a t}, P s → x s = .ok a t →
      ¬w.exact ∧ t.diagnostics ≠ [] ∨ y (s.under w.config) = .ok a (t.under w.config) ∧ Q t)
    (herr : w.exact → ∀ {s d t}, P s → x s = .error d t → y (s.under w.config) = .error d (t.under w.config) ∧ Q t) :
    Follows w P Q x y := by
  refine ⟨hr, fun s hs => ?_⟩
  cases hx : x s with
  | ok a t => exact hok hs hx
  | error d t => exact (Classical.em w.exact).symm.imp id fun he => herr he hs hx

theorem pure (a : α) : Follows w P P (pure a : CheckM α) (pure a) :=
  ⟨fun _ _ _ _ h hs => (pure_ok.1 h).2 ▸ hs, fun _ hs => .inr ⟨rfl, hs⟩⟩

theorem throw (d : Diagnostic) : Follows w P P (throw d : CheckM α) (throw d) :=
  ⟨fun _ _ _ _ h => absurd h throw_ok, fun _ hs => .inr ⟨rfl, hs⟩⟩

theorem fail (c : Cause) (p : Span) : Follows w P P (CheckM.fail c p : CheckM α) (CheckM.fail c p) := .throw _

theorem ofExcept (e : Except Diagnostic α) : Follows w P P (ofExcept e : CheckM α) (ofExcept e) := by
  cases e with
  | ok a => exact .pure a
  | error d => exact .throw d

/-- With leeway, nothing has to follow an error. -/
theorem of_error (he : ¬w.exact) (hx : ∀ s, ∃ d t, x s = .error d t) : Follows w P Q x y := by
  refine .of_ends (fun _ {s a t} h => ?_) (fun {s a t} _ h => ?_) fun h => absurd h he
  all_goals
    obtain ⟨d, u, hd⟩ := hx s
    rw [hd] at h
    cases h

/-- Where there is no leeway, what the states have in common may be used. -/
theorem assuming {p : Prop} (hp : ¬w.exact → p) (hP : ∀ s, P s → p) (h : p → Follows w P Q x y) : Follows w P Q x y :=
  ⟨fun he => (h (hp he)).reported he, fun s hs => (h (hP s hs)).follows s hs⟩

theorem mono {P' Q' : Checker → Prop} (h : Follows w P Q x y) (hP : ∀ s, P' s → P s) (hQ : ∀ s, Q s → Q' s) :
    Follows w P' Q' x y :=
  .of_ends (fun he => h.reported he) (fun hs hx => (h.ok (hP _ hs) hx).imp id fun ⟨hy, ht⟩ => ⟨hy, hQ _ ht⟩)
    fun he _ _ _ hs hx => ((h.error (hP _ hs) hx).resolve_left (absurd he)).imp id (hQ _)

theorem bind_weaken (hQR : ∀ s, Q s → R s) (h : Follows w P Q x y) (hfg : ∀ a, Follows w Q R (f a) (g a)) :
    Follows w P R (x >>= f) (y >>= g) := by
  refine .of_ends (fun he s b t hx hs => ?_) (fun {s b t} hs hx => ?_) fun he s d t hs hx => ?_
  · obtain ⟨a, u, ha, hb⟩ := bind_ok.1 hx
    exact (hfg a).reported he hb (h.reported he ha hs)
  · obtain ⟨a, u, ha, hb⟩ := bind_ok.1 hx
    obtain ⟨he, hu⟩ | ⟨hy, hu⟩ := h.ok hs ha
    · exact .inl ⟨he, (hfg a).reported he hb hu⟩
    · exact ((hfg a).ok hu hb).imp id fun ⟨hg, ht⟩ => ⟨bind_ok.2 ⟨a, _, hy, hg⟩, ht⟩
  · obtain hd | ⟨a, u, ha, hd⟩ := bind_error.1 hx
    · obtain ⟨hy, ht⟩ := (h.error hs hd).resolve_left (absurd he)
      exact ⟨bind_error.2 (.inl hy), hQR t ht⟩
    · obtain ⟨hy, hu⟩ := (h.ok hs ha).resolve_left fun h => h.1 he
      obtain ⟨hg, ht⟩ := ((hfg a).error hu hd).resolve_left (absurd he)
      exact ⟨bind_error.2 (.inr ⟨a, _, hy, hg⟩), ht⟩

theorem bind (h : Follows w P Q x y) (hfg : ∀ a, Follows w Q Q (f a) (g a)) : Follows w P Q (x >>= f) (y >>= g) :=
  .bind_weaken (fun _ => id) h hfg

theorem map {f : α → β} (h : Follows w P Q x y) : Follows w P Q (f <$> x) (f <$> y) := by
  refine .of_ends (fun he s b t hx hs => ?_) (fun {s b t} hs hx => ?_) fun he s d t hs hx => ?_
  · obtain ⟨a, ha, rfl⟩ := map_ok.1 hx
    exact h.reported he ha hs
  · obtain ⟨a, ha, rfl⟩ := map_ok.1 hx
    exact (h.ok hs ha).imp id fun ⟨hy, ht⟩ => ⟨map_ok.2 ⟨a, hy, rfl⟩, ht⟩
  · obtain ⟨hy, ht⟩ := (h.error hs (map_error.1 hx)).resolve_left (absurd he)
    exact ⟨map_error.2 hy, ht⟩

/-- What is read is the state itself, and the limits of the other one. -/
theorem reading {f g : Checker → CheckM β}
    (h : ∀ t, Follows w (fun s => s = t ∧ P s) Q (f t) (g (t.under w.config))) :
    Follows w P Q (get >>= f) (get >>= g) :=
  ⟨fun he s _ _ hx => (h s).reported he hx, fun s hs => (h s).follows s ⟨rfl, hs⟩⟩

/-- What is read is nothing of the limits. -/
theorem get_bind {f : Checker → CheckM β} {g : Checker → CheckM β} (hg : ∀ s, g (s.under w.config) = g s)
    (h : ∀ s, Follows w P Q (f s) (g s)) : Follows w P Q (get >>= f) (get >>= g) :=
  .reading fun t => hg t ▸ (h t).mono (fun _ hs => hs.2) fun _ => id

theorem place_bind {f g : Place → CheckM β} (h : ∀ p, Follows w P Q (f p) (g p)) :
    Follows w P Q (place >>= f) (place >>= g) :=
  ⟨fun he s _ _ hx => (h s.place).reported he hx, fun s hs => (h s.place).follows s hs⟩

/-- A change that the steps after it begin with. -/
theorem modify_bind {f : Checker → Checker} {k k' : Unit → CheckM β} (hP : ∀ s, P s → Q (f s))
    (hf : ∀ c s, f (s.under c) = (f s).under c) (hr : ∀ s, s.diagnostics ≠ [] → (f s).diagnostics ≠ [])
    (h : Follows w Q R (k ()) (k' ())) : Follows w P R (modify f >>= k) (modify f >>= k') := by
  refine ⟨fun he s b t hx hs => h.reported he hx (hr s hs), fun s hs => ?_⟩
  show Matches w R (k () (f s)) (k' () (f (s.under w.config)))
  rw [hf]
  exact h.follows (f s) (hP s hs)

theorem modify {f : Checker → Checker} (hP : ∀ s, P s → Q (f s)) (hf : ∀ c s, f (s.under c) = (f s).under c)
    (hr : ∀ s, s.diagnostics ≠ [] → (f s).diagnostics ≠ []) :
    Follows w P Q (modify f : CheckM Unit) (modify f) :=
  .of_ends (fun _ _ _ _ hx hs => modify_ok.1 hx ▸ hr _ hs)
    (fun hs hx => .inr ⟨modify_ok.2 ((hf _ _).trans (congrArg _ (modify_ok.1 hx))), modify_ok.1 hx ▸ hP _ hs⟩)
    fun _ _ _ _ _ hx => absurd hx modify_error

theorem always {f : Checker → Checker} (h : Follows w P Q x y) (hQ : ∀ s, Q s → R (f s))
    (hf : ∀ c s, f (s.under c) = (f s).under c) (hr : ∀ s, s.diagnostics ≠ [] → (f s).diagnostics ≠ []) :
    Follows w P R (always x f) (always y f) := by
  refine .of_ends (fun he s a t hx hs => ?_) (fun {s a t} hs hx => ?_) fun he s d t hs hx => ?_
  · obtain ⟨u, hu, rfl⟩ := always_ok.1 hx
    exact hr u (h.reported he hu hs)
  · obtain ⟨u, hu, rfl⟩ := always_ok.1 hx
    exact (h.ok hs hu).imp (fun ⟨he, hd⟩ => ⟨he, hr u hd⟩) fun ⟨hy, ht⟩ => ⟨always_ok.2 ⟨_, hy, hf _ _⟩, hQ u ht⟩
  · obtain ⟨u, hu, rfl⟩ := always_error.1 hx
    obtain ⟨hy, ht⟩ := (h.error hs hu).resolve_left (absurd he)
    exact ⟨always_error.2 ⟨_, hy, hf _ _⟩, hQ u ht⟩

/-- **What is caught goes on with the report of it**, or as an error. -/
theorem tryCatch {h h' : Diagnostic → CheckM α} (hx : Follows w P Q x y)
    (hr : ¬w.exact → ∀ {d s a t}, h d s = .ok a t → t.diagnostics ≠ []) (hh : w.exact → ∀ d, Follows w Q Q (h d) (h' d)) :
    Follows w P Q (tryCatch x h) (tryCatch y h') := by
  refine .of_ends (fun he s a t hc hs => ?_) (fun {s a t} hs hc => ?_) fun he s d t hs hc => ?_
  · obtain ha | ⟨d, u, -, ha⟩ := tryCatch_ok.1 hc
    · exact hx.reported he ha hs
    · exact hr he ha
  · obtain ha | ⟨d, u, hd, ha⟩ := tryCatch_ok.1 hc
    · exact (hx.ok hs ha).imp id fun ⟨hy, ht⟩ => ⟨tryCatch_ok.2 (.inl hy), ht⟩
    · obtain he | ⟨hy, hu⟩ := hx.error hs hd
      · exact .inl ⟨he, hr he ha⟩
      · refine (Classical.em w.exact).symm.imp (fun he => ⟨he, hr he ha⟩) fun he => ?_
        obtain ⟨hy', ht⟩ := ((hh he d).ok hu ha).resolve_left fun h => h.1 he
        exact ⟨tryCatch_ok.2 (.inr ⟨d, _, hy, hy'⟩), ht⟩
  · obtain ⟨d', u, hd, ha⟩ := tryCatch_error.1 hc
    obtain ⟨hy, hu⟩ := (hx.error hs hd).resolve_left (absurd he)
    obtain ⟨hy', ht⟩ := ((hh he d').error hu ha).resolve_left (absurd he)
    exact ⟨tryCatch_error.2 ⟨d', _, hy, hy'⟩, ht⟩

/-- What is caught is thrown again. -/
theorem rethrow {e : Diagnostic → Diagnostic} (hx : Follows w P Q x y) :
    Follows w P Q (MonadExcept.tryCatch x fun d => MonadExcept.throw (e d))
      (MonadExcept.tryCatch y fun d => MonadExcept.throw (e d)) :=
  .tryCatch hx (fun _ {_ _ _ _} h => absurd h throw_ok) fun _ _ => .throw _

theorem mapM {γ : Type} {f g : γ → CheckM α} (h : ∀ c, Follows w P P (f c) (g c)) :
    ∀ cs : List γ, Follows w P P (cs.mapM f) (cs.mapM g)
  | [] => by
    rw [List.mapM_nil, List.mapM_nil]
    exact .pure _
  | c :: cs => by
    rw [List.mapM_cons, List.mapM_cons]
    exact .bind (h c) fun _ => .bind (mapM h cs) fun _ => .pure _

theorem forM {γ : Type} {f g : γ → CheckM Unit} (h : ∀ c, Follows w P P (f c) (g c)) :
    ∀ cs : List γ, Follows w P P (cs.forM f) (cs.forM g)
  | [] => .pure _
  | c :: cs => .bind (h c) fun _ => forM h cs

theorem optionMapM {γ : Type} {f g : γ → CheckM α} (h : ∀ c, Follows w P P (f c) (g c)) :
    ∀ c : Option γ, Follows w P P (c.mapM f) (c.mapM g)
  | none => by
    rw [Option.mapM_none, Option.mapM_none]
    exact .pure _
  | some c => by
    rw [Option.mapM_some, Option.mapM_some]
    exact .map (h c)

/-! ### Frames and places -/

theorem onPlace (f : Place → Place) : Follows w (Bounded w n) (Bounded w n) (CheckM.onPlace f) (CheckM.onPlace f) :=
  .modify (fun _ hs => hs.onPlace f) (fun _ _ => rfl) fun _ => id

theorem inScope (h : Follows w (Bounded w n) (Bounded w n) x y) :
    Follows w (Bounded w n) (Bounded w n) (inScope x) (inScope y) :=
  .place_bind fun _ => .always h (fun _ hs => hs.onPlace _) (fun _ _ => rfl) fun _ => id

theorem apart (h : Follows w (Bounded w n) (Bounded w n) x y) :
    Follows w (Bounded w n) (Bounded w n) (apart x) (apart y) :=
  .place_bind fun _ => .bind (.onPlace _) fun _ => .always h (fun _ hs => hs.onPlace _) (fun _ _ => rfl) fun _ => id

/-- **One frame down there is less room.** -/
theorem within {f : Frame} (h : (w.exact → n - 1 < n) → Follows w (Bounded w (n - 1)) (Bounded w (n - 1)) x y) :
    Follows w (Bounded w n) (Bounded w n) (within f x) (within f y) := by
  refine .of_ends (fun he s a t hx hs => ?_) (fun {s a t} hs hx => ?_) fun he s d t hs hx => ?_
  · obtain ⟨fr, u, -, hu, rfl⟩ := within_ok.1 hx
    have hkept : u.diagnostics ≠ [] := (h fun he' => absurd he' he).reported he hu hs
    exact hkept
  · obtain ⟨fr, u, hf, hu, rfl⟩ := within_ok.1 hx
    obtain ⟨hn, hin, hf'⟩ := hs.push hf
    exact ((h hn).ok hin hu).imp id fun ⟨hy, ht⟩ => ⟨within_ok.2 ⟨_, _, hf', hy, rfl⟩, ht.pop hn⟩
  · obtain ⟨hf, rfl⟩ | ⟨fr, u, hf, hu, rfl⟩ := within_error.1 hx
    · rw [hs.within.under_self he]
      exact ⟨within_error.2 (.inl ⟨hf, rfl⟩), hs⟩
    · obtain ⟨hn, hin, hf'⟩ := hs.push hf
      obtain ⟨hy, ht⟩ := ((h hn).error hin hu).resolve_left (absurd he)
      exact ⟨within_error.2 (.inr ⟨_, _, hf', hy, rfl⟩), ht.pop hn⟩

end Follows

end Check
end Unroll
