import Unroll.Proofs.Renaming
import Unroll.Proofs.Check.WellTyped
import Unroll.Proofs.Check.Endings
/-!
# Two checks in step

What a cell's check finds in the state differs from what it would have found earlier by the names of the records that
other blocks have declared.  Two states that are the same but for such names, and two steps that go on in the same way
from all of them, are described here; the second relation is closed under everything that steps are made of, recovery
from errors and the leaving of scopes included.  Messages do not count, and neither does what has been broadcast.
-/
namespace Unroll

variable (ρ : Renaming)

def ValInfo.renamed (v : ValInfo) : ValInfo := { v with type := v.type.renamed ρ }

def FieldInfo.renamed (f : FieldInfo) : FieldInfo := { f with type := f.type.renamed ρ }

def RecordInfo.renamed (r : RecordInfo) : RecordInfo := ⟨ρ.name r.name, r.fields.map (FieldInfo.renamed ρ)⟩

def CellParam.renamed (p : CellParam) : CellParam := { p with type := p.type.renamed ρ }

def CellSig.renamed (sig : CellSig) : CellSig := ⟨sig.params.map (CellParam.renamed ρ), sig.ret.renamed ρ⟩

namespace Table

variable {α β : Type}

/-- Other entries for the same names. -/
def mapVals (f : α → β) (t : Table α) : Table β := t.map fun e => (e.1, f e.2)

theorem find?_mapVals (f : α → β) (t : Table α) (n : String) : (mapVals f t).find? n = (t.find? n).map f := by
  unfold find? mapVals
  induction t with
  | nil => rfl
  | cons e t ih =>
    rw [List.map_cons, List.lookup_cons, List.lookup_cons]
    cases n == e.1 with
    | true => rfl
    | false => exact ih

theorem contains_mapVals (f : α → β) (t : Table α) (n : String) : (mapVals f t).contains n = t.contains n := by
  unfold contains
  rw [find?_mapVals, Option.isSome_map]

end Table

namespace Place

/-- The place with other names for records. -/
def renamed (p : Place) : Place :=
  { p with
    values := p.values.map (Table.mapVals (ValInfo.renamed ρ))
    types := p.types.map (Table.mapVals ρ.name)
    rets := p.rets.map (Ty.renamed ρ) }

/-- The names that something is declared under, and those of the parameters, stay. -/
structure Fixed (p : Place) : Prop where
  types : ∀ scope ∈ p.types, ∀ e ∈ scope, ρ.name e.1 = e.1
  templates : ∀ l ∈ p.templates, ρ.Fixes l.names

variable {ρ} {p : Place}

theorem renamed_mark : (p.renamed ρ).mark = p.mark := by
  simp [mark, renamed]

theorem renamed_val? (n : String) : (p.renamed ρ).val? n = (p.val? n).map (ValInfo.renamed ρ) := by
  unfold val?
  rw [List.map_findSome?]
  show List.findSome? _ (p.values.map _) = _
  rw [List.findSome?_map]
  exact congrArg (List.findSome? · p.values) (funext fun t => Table.find?_mapVals _ t n)

theorem renamed_type? (n : String) :
    (p.renamed ρ).types.findSome? (Table.find? · n) = (p.types.findSome? (Table.find? · n)).map ρ.name := by
  rw [List.map_findSome?]
  show List.findSome? _ (p.types.map _) = _
  rw [List.findSome?_map]
  exact congrArg (List.findSome? · p.types) (funext fun t => Table.find?_mapVals _ t n)

theorem cut_map {α β : Type} (f : α → β) (l : List α) (k : Nat) : cut (l.map f) k = (cut l k).map f := by
  simp [cut]

theorem renamed_restore (m : Mark) : (p.restore m).renamed ρ = (p.renamed ρ).restore m := by
  simp [restore, renamed, cut_map]

theorem renamed_recordLocal (n : String) : (p.recordLocal n).renamed ρ = (p.renamed ρ).recordLocal n := by
  unfold recordLocal
  rw [show (p.renamed ρ).locals = p.locals from rfl]
  cases p.locals <;> rfl

theorem renamed_exitLocal : p.exitLocal.renamed ρ = (p.renamed ρ).exitLocal := by
  unfold exitLocal
  rw [show (p.renamed ρ).locals = p.locals from rfl]
  cases hl : p.locals with
  | nil => rfl
  | cons l ls =>
    show _ = { (p.renamed ρ).restore l.mark with locals := ls }
    rw [← renamed_restore]
    rfl

theorem renamed_outer : (CheckM.outer p).renamed ρ = CheckM.outer (p.renamed ρ) := by
  have hlast : (p.renamed ρ).types.getLastD [] = Table.mapVals ρ.name (p.types.getLastD []) := by
    show (p.types.map _).getLastD [] = _
    rw [List.getLastD_eq_getLast?, List.getLastD_eq_getLast?, List.getLast?_map]
    cases p.types.getLast? <;> rfl
  unfold CheckM.outer
  rw [hlast]
  rfl

namespace Fixed

theorem of_sub {q : Place} (h : p.Fixed ρ) (ht : ∀ scope ∈ q.types, scope ∈ p.types)
    (hl : ∀ l ∈ q.templates, l ∈ p.templates) : q.Fixed ρ :=
  ⟨fun scope hs => h.types scope (ht scope hs), fun l hm => h.templates l (hl l hm)⟩

theorem restore (h : p.Fixed ρ) (m : Mark) : (p.restore m).Fixed ρ :=
  h.of_sub (fun _ hs => List.mem_of_mem_drop hs) fun _ hl => List.mem_of_mem_drop hl

theorem pushScope (h : p.Fixed ρ) : p.pushScope.Fixed ρ :=
  ⟨List.forall_mem_cons.2 ⟨fun _ he => absurd he List.not_mem_nil, h.types⟩, h.templates⟩

theorem recordLocal (h : p.Fixed ρ) (n : String) : (p.recordLocal n).Fixed ρ := by
  unfold Place.recordLocal
  split
  · exact h
  · exact ⟨h.types, h.templates⟩

theorem exitLocal (h : p.Fixed ρ) : p.exitLocal.Fixed ρ := by
  unfold Place.exitLocal
  split
  · exact h
  · exact ⟨(h.restore _).types, (h.restore _).templates⟩

theorem pushTemplate (h : p.Fixed ρ) {l : ParamLevel} (hl : ρ.Fixes l.names) : (p.pushTemplate l).Fixed ρ :=
  ⟨h.types, List.forall_mem_cons.2 ⟨hl, h.templates⟩⟩

theorem outer (h : p.Fixed ρ) : (CheckM.outer p).Fixed ρ := by
  refine ⟨fun scope hs => ?_, fun _ hl => absurd hl List.not_mem_nil⟩
  obtain rfl : scope = p.types.getLastD [] := List.mem_singleton.1 hs
  rw [List.getLastD_eq_getLast?]
  cases hp : p.types.getLast? with
  | none => exact fun _ he => absurd he List.not_mem_nil
  | some globals => exact h.types globals (List.mem_of_getLast? hp)

theorem param? (h : p.Fixed ρ) {n : String} {d : ParamDecl} (hp : p.param? n = some d) : ρ.name n = n := by
  obtain ⟨l, hl, hd⟩ := List.exists_of_findSome?_eq_some hp
  have hname : d.name = n := by simpa using List.find?_some hd
  exact hname ▸ h.templates l hl _ (List.mem_map_of_mem (List.mem_of_find?_eq_some hd))

theorem param?_name (h : p.Fixed ρ) (n : String) : p.param? (ρ.name n) = p.param? n :=
  ρ.lookup_name (fun _ _ => h.param?) n

theorem type?_name (h : p.Fixed ρ) (n : String) :
    p.types.findSome? (Table.find? · (ρ.name n)) = p.types.findSome? (Table.find? · n) := by
  refine ρ.lookup_name (f := fun n => p.types.findSome? (Table.find? · n)) (fun m c hm => ?_) n
  obtain ⟨scope, hscope, hc⟩ := List.exists_of_findSome?_eq_some hm
  exact h.types scope hscope (m, c) (Table.mem_of_find? hc)

end Fixed

end Place

namespace Check

open CheckM Outcome Checker

variable (ρ : Renaming)

/-- What is declared for the whole program mentions no name that changes. -/
structure Stays (aliases : Table AliasInfo) (cells : Table CellSig) : Prop where
  alias_name : ∀ n a, aliases.find? n = some a → ρ.name n = n
  plain : ∀ {n t}, aliases.find? n = some (.plain t) → t.renamed ρ = t
  generic : ∀ {n ps target}, aliases.find? n = some (.generic ps target) → target.renamed ρ = target ∧ ρ.Fixes ps.names
  cells : ∀ {n sig}, cells.find? n = some sig → sig.renamed ρ = sig

/-- **The states are the same but for the names of local records**, and but for what has been told so far; there is no
generic cell in either. -/
structure SameUpTo (s t : Checker) : Prop where
  config : t.config = s.config
  traits : t.traits = s.traits
  aliases : t.aliases = s.aliases
  cells : ∀ n, t.cells.find? n = s.cells.find? n
  noGenerics : s.generics = [] ∧ t.generics = []
  records : ∀ n, t.records.find? (ρ.name n) = (s.records.find? n).map (RecordInfo.renamed ρ)
  place : t.place = s.place.renamed ρ
  frames : t.frames.limit = s.frames.limit ∧ t.frames.depth = s.frames.depth
  /-- The records that are yet to come have names that stand in place of each other. -/
  numbers : ∀ base k, ρ.name (localName base (s.recordCount + k + 1)) = localName base (t.recordCount + k + 1)
  clean : t.diagnostics = [] ↔ s.diagnostics = []
  fixed : s.place.Fixed ρ
  stays : Stays ρ s.aliases s.cells

variable {ρ}

namespace SameUpTo

variable {s t : Checker}

theorem onPlace (h : SameUpTo ρ s t) {f g : Place → Place} (hfg : (f s.place).renamed ρ = g (s.place.renamed ρ))
    (hf : (f s.place).Fixed ρ) : SameUpTo ρ (s.onPlace f) (t.onPlace g) :=
  { h with
    place := by
      show g t.place = (f s.place).renamed ρ
      rw [h.place, hfg]
    fixed := hf }

/-- The same change at both places. -/
theorem onPlace_self (h : SameUpTo ρ s t) {f : Place → Place} (hf : ∀ p : Place, (f p).renamed ρ = f (p.renamed ρ))
    (hfix : ∀ {p : Place}, p.Fixed ρ → (f p).Fixed ρ) : SameUpTo ρ (s.onPlace f) (t.onPlace f) :=
  h.onPlace (hf _) (hfix h.fixed)

theorem addEvent (h : SameUpTo ρ s t) (e e' : Event) : SameUpTo ρ (s.addEvent e) (t.addEvent e') :=
  { h with }

theorem report (h : SameUpTo ρ s t) (d d' : Diagnostic) : SameUpTo ρ (s.report d) (t.report d') :=
  { h with clean := by simp [Checker.report] }

theorem push (h : SameUpTo ρ s t) {f : Frame} {fr : Frames} (hf : s.frames.push f = .ok fr) (g : Frame) :
    ∃ fr', t.frames.push g = .ok fr' ∧ SameUpTo ρ { s with frames := fr } { t with frames := fr' } := by
  unfold Frames.push at hf ⊢
  rw [h.frames.1, h.frames.2]
  split at hf
  · rename_i hroom
    cases hf
    exact ⟨_, if_pos hroom, { h with frames := ⟨rfl, congrArg (· + 1) h.frames.2⟩ }⟩
  · cases hf

theorem push_error (h : SameUpTo ρ s t) {f : Frame} {d : Diagnostic} (hf : s.frames.push f = .error d) (g : Frame) :
    ∃ d', t.frames.push g = .error d' := by
  unfold Frames.push at hf ⊢
  rw [h.frames.1, h.frames.2]
  split at hf
  · cases hf
  · rename_i hroom
    exact ⟨_, if_neg hroom⟩

theorem pop (h : SameUpTo ρ s t) :
    SameUpTo ρ { s with frames := s.frames.pop.2 } { t with frames := t.frames.pop.2 } := by
  have hdepth : ∀ fr : Frames, fr.pop.2.depth = fr.depth - 1 := fun fr => List.length_tail
  exact { h with frames := ⟨h.frames.1, by rw [hdepth, hdepth, h.frames.2]⟩ }

theorem isEmpty_frames (h : SameUpTo ρ s t) : t.frames.isEmpty = s.frames.isEmpty := by
  have hlen : t.frames.frames.length = s.frames.frames.length := h.frames.2
  unfold Frames.isEmpty
  rw [Bool.eq_iff_iff, List.isEmpty_iff_length_eq_zero, List.isEmpty_iff_length_eq_zero, hlen]

end SameUpTo

/-! ## Steps -/

section

variable {α β γ δ : Type}

variable (ρ) in
/-- Both end well, with related results, or both end badly; the states they end in are the same but for the names. -/
def EndAlike (V : α → β → Prop) : EStateM.Result Diagnostic Checker α → EStateM.Result Diagnostic Checker β → Prop
  | .ok a s, .ok b t => V a b ∧ SameUpTo ρ s t
  | .error _ s, .error _ t => SameUpTo ρ s t
  | _, _ => False

variable (ρ) in
/-- **The two steps go on in the same way** from states that are the same but for the names. -/
def InStep (V : α → β → Prop) (x : CheckM α) (y : CheckM β) : Prop := ∀ s t, SameUpTo ρ s t → EndAlike ρ V (x s) (y t)

namespace InStep

variable {V : α → β → Prop} {W : γ → δ → Prop} {x : CheckM α} {y : CheckM β}

theorem ok (h : InStep ρ V x y) {s t s' : Checker} {a : α} (hst : SameUpTo ρ s t) (hx : x s = .ok a s') :
    ∃ b t', y t = .ok b t' ∧ V a b ∧ SameUpTo ρ s' t' := by
  have hend := h s t hst
  rw [hx] at hend
  cases hy : y t with
  | ok b t' =>
    rw [hy] at hend
    exact ⟨b, t', rfl, hend⟩
  | error d t' =>
    rw [hy] at hend
    exact hend.elim

theorem error (h : InStep ρ V x y) {s t s' : Checker} {d : Diagnostic} (hst : SameUpTo ρ s t) (hx : x s = .error d s') :
    ∃ d' t', y t = .error d' t' ∧ SameUpTo ρ s' t' := by
  have hend := h s t hst
  rw [hx] at hend
  cases hy : y t with
  | ok b t' =>
    rw [hy] at hend
    exact hend.elim
  | error d' t' =>
    rw [hy] at hend
    exact ⟨d', t', rfl, hend⟩

/-- To be in step is to end well together and to end badly together. -/
theorem of_ends (hok : ∀ {s t a s'}, SameUpTo ρ s t → x s = .ok a s' → ∃ b t', y t = .ok b t' ∧ V a b ∧ SameUpTo ρ s' t')
    (herr : ∀ {s t d s'}, SameUpTo ρ s t → x s = .error d s' → ∃ d' t', y t = .error d' t' ∧ SameUpTo ρ s' t') :
    InStep ρ V x y := by
  intro s t hst
  cases hx : x s with
  | ok a s' =>
    obtain ⟨b, t', hy, hend⟩ := hok hst hx
    rw [hy]
    exact hend
  | error d s' =>
    obtain ⟨d', t', hy, hend⟩ := herr hst hx
    rw [hy]
    exact hend

theorem pure {a : α} {b : β} (h : V a b) : InStep ρ V (pure a) (pure b) := fun _ _ hst => ⟨h, hst⟩

theorem throw (d d' : Diagnostic) : InStep ρ V (throw d) (throw d') := fun _ _ hst => hst

theorem fail (c c' : Cause) (p p' : Span) : InStep ρ V (fail c p) (fail c' p') := fun _ _ hst => hst

/-- What would come after a failure does not matter. -/
theorem guard {b b' : Bool} (hb : b' = b) {c c' : Cause} {p p' : Span} {f : Unit → CheckM α} {g : Unit → CheckM β}
    (h : b = false → InStep ρ V (f ()) (g ())) :
    InStep ρ V (if b = true then CheckM.fail c p >>= f else f ()) (if b' = true then CheckM.fail c' p' >>= g else g ()) := by
  subst hb
  cases b' with
  | true => exact fun _ _ hst => hst
  | false => exact h rfl

theorem bind {f : α → CheckM γ} {g : β → CheckM δ} (h : InStep ρ V x y) (hfg : ∀ {a b}, V a b → InStep ρ W (f a) (g b)) :
    InStep ρ W (x >>= f) (y >>= g) := by
  refine of_ends (fun hst hx => ?_) fun hst hx => ?_
  · obtain ⟨a, u, ha, hf⟩ := bind_ok.1 hx
    obtain ⟨b, v, hb, hab, huv⟩ := h.ok hst ha
    obtain ⟨c, t', hc, hend⟩ := (hfg hab).ok huv hf
    exact ⟨c, t', bind_ok.2 ⟨b, v, hb, hc⟩, hend⟩
  · rcases bind_error.1 hx with ha | ⟨a, u, ha, hf⟩
    · obtain ⟨d', t', hb, hend⟩ := h.error hst ha
      exact ⟨d', t', bind_error.2 (.inl hb), hend⟩
    · obtain ⟨b, v, hb, hab, huv⟩ := h.ok hst ha
      obtain ⟨d', t', hc, hend⟩ := (hfg hab).error huv hf
      exact ⟨d', t', bind_error.2 (.inr ⟨b, v, hb, hc⟩), hend⟩

theorem map {f : α → γ} {g : β → δ} (h : InStep ρ V x y) (hfg : ∀ {a b}, V a b → W (f a) (g b)) :
    InStep ρ W (f <$> x) (g <$> y) := by
  refine of_ends (fun hst hx => ?_) fun hst hx => ?_
  · obtain ⟨a, ha, rfl⟩ := map_ok.1 hx
    obtain ⟨b, t', hb, hab, hend⟩ := h.ok hst ha
    exact ⟨g b, t', map_ok.2 ⟨b, hb, rfl⟩, hfg hab, hend⟩
  · obtain ⟨d', t', hb, hend⟩ := h.error hst (map_error.1 hx)
    exact ⟨d', t', map_error.2 hb, hend⟩

theorem get : InStep ρ (SameUpTo ρ) get get := fun _ _ hst => ⟨hst, hst⟩

theorem place : InStep ρ (fun p q : Place => q = p.renamed ρ ∧ p.Fixed ρ) place place :=
  fun _ _ hst => ⟨⟨hst.place, hst.fixed⟩, hst⟩

theorem modify {f g : Checker → Checker} (h : ∀ s t, SameUpTo ρ s t → SameUpTo ρ (f s) (g t)) :
    InStep ρ (fun _ _ : Unit => True) (modify f) (modify g) := fun s t hst => ⟨trivial, h s t hst⟩

theorem onPlace {f g : Place → Place} (hfg : ∀ p : Place, (f p).renamed ρ = g (p.renamed ρ))
    (hfix : ∀ {p : Place}, p.Fixed ρ → (f p).Fixed ρ) : InStep ρ (fun _ _ : Unit => True) (onPlace f) (onPlace g) :=
  modify fun s _ hst => hst.onPlace (hfg s.place) (hfix hst.fixed)

/-- What is computed without the state; the messages do not count. -/
theorem ofExcept_same {e e' : Except Diagnostic α} (h : e'.toOption = e.toOption) :
    InStep ρ (fun a b => b = a) (ofExcept e) (ofExcept e') := by
  intro s t hst
  cases e with
  | ok a =>
    cases e' with
    | ok b => exact ⟨Option.some.inj h, hst⟩
    | error d => cases h
  | error d =>
    cases e' with
    | ok b => cases h
    | error d' => exact hst

theorem ofExcept {e : Except Diagnostic α} {e' : Except Diagnostic β} {f : α → β} (h : e'.toOption = e.toOption.map f) :
    InStep ρ (fun a b => b = f a) (ofExcept e) (ofExcept e') := by
  intro s t hst
  cases e with
  | ok a =>
    cases e' with
    | ok b => exact ⟨Option.some.inj h, hst⟩
    | error d => cases h
  | error d =>
    cases e' with
    | ok b => cases h
    | error d' => exact hst

theorem tryCatch {h h' : Diagnostic → CheckM α} {V : α → α → Prop} {x y : CheckM α} (hx : InStep ρ V x y)
    (hh : ∀ d d', InStep ρ V (h d) (h' d')) : InStep ρ V (tryCatch x h) (tryCatch y h') := by
  refine of_ends (fun hst hr => ?_) fun hst hr => ?_
  · rcases tryCatch_ok.1 hr with ha | ⟨d, u, hd, ha⟩
    · obtain ⟨b, t', hb, hend⟩ := hx.ok hst ha
      exact ⟨b, t', tryCatch_ok.2 (.inl hb), hend⟩
    · obtain ⟨d', v, hd', huv⟩ := hx.error hst hd
      obtain ⟨b, t', hb, hend⟩ := (hh d d').ok huv ha
      exact ⟨b, t', tryCatch_ok.2 (.inr ⟨d', v, hd', hb⟩), hend⟩
  · obtain ⟨d, u, hd, ha⟩ := tryCatch_error.1 hr
    obtain ⟨d', v, hd', huv⟩ := hx.error hst hd
    obtain ⟨e, t', he, hend⟩ := (hh d d').error huv ha
    exact ⟨e, t', tryCatch_error.2 ⟨d', v, hd', he⟩, hend⟩

theorem always {f g : Checker → Checker} (h : InStep ρ V x y) (hfg : ∀ {s t}, SameUpTo ρ s t → SameUpTo ρ (f s) (g t)) :
    InStep ρ V (always x f) (always y g) := by
  refine of_ends (fun hst hx => ?_) fun hst hx => ?_
  · obtain ⟨u, hu, rfl⟩ := always_ok.1 hx
    obtain ⟨b, v, hb, hab, huv⟩ := h.ok hst hu
    exact ⟨b, _, always_ok.2 ⟨v, hb, rfl⟩, hab, hfg huv⟩
  · obtain ⟨u, hu, rfl⟩ := always_error.1 hx
    obtain ⟨d', v, hd', huv⟩ := h.error hst hu
    exact ⟨d', _, always_error.2 ⟨v, hd', rfl⟩, hfg huv⟩

theorem inScope (h : InStep ρ V x y) : InStep ρ V (inScope x) (inScope y) := by
  refine .bind .place fun {p q} hpq => .always h fun hst => ?_
  rw [hpq.1, Place.renamed_mark]
  exact hst.onPlace_self (fun r => Place.renamed_restore _) fun hr => hr.restore _

theorem apart (h : InStep ρ V x y) : InStep ρ V (apart x) (apart y) := by
  refine .bind .place fun {p q} hpq => ?_
  refine .bind (.onPlace (f := outer) (g := outer) (fun r => Place.renamed_outer) fun hr => hr.outer) fun _ => ?_
  refine .always h fun hst => hst.onPlace hpq.1.symm hpq.2

theorem within (f g : Frame) (h : InStep ρ V x y) : InStep ρ V (within f x) (within g y) := by
  refine of_ends (fun hst hx => ?_) fun hst hx => ?_
  · obtain ⟨fr, u, hf, hu, rfl⟩ := within_ok.1 hx
    obtain ⟨fr', hg, hst'⟩ := hst.push hf g
    obtain ⟨b, v, hb, hab, huv⟩ := h.ok hst' hu
    exact ⟨b, _, within_ok.2 ⟨fr', v, hg, hb, rfl⟩, hab, huv.pop⟩
  · rcases within_error.1 hx with ⟨hf, rfl⟩ | ⟨fr, u, hf, hu, rfl⟩
    · obtain ⟨d', hg⟩ := hst.push_error hf g
      exact ⟨d', _, within_error.2 (.inl ⟨hg, rfl⟩), hst⟩
    · obtain ⟨fr', hg, hst'⟩ := hst.push hf g
      obtain ⟨d', v, hd', huv⟩ := h.error hst' hu
      exact ⟨d', _, within_error.2 (.inr ⟨fr', v, hg, hd', rfl⟩), huv.pop⟩

end InStep

end

end Check

end Unroll
