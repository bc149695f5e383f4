import Unroll.Proofs.Check.Steps
import Unroll.Proofs.Names
/-!
# How often an instance is made

An instance is made where no cell is known by its name.  Its template is checked before that, unless it has been, and
that check may make the very instance on the way.  So a name has two chances: it loses one when a cell is known by it,
and one when the check of its template starts.  A check makes no more instances of a name than the name loses chances,
and it broadcasts each of them once.
-/
namespace Unroll
namespace Checker

/-- The names of the instances, newest first. -/
def made (s : Checker) : List String := s.instances.map (·.name.name)

/-- The names of the cells that were broadcast, newest first. -/
def broadcast (s : Checker) : List String := (s.events.filter (·.kind = .cell)).map (·.name)

/-- The template has been checked, or its check is under way. -/
def started (s : Checker) (name : String) : Bool :=
  s.elaborating.contains name || (s.generics.find? name).any (·.elaborated)

/-- How often an instance of the name may still be made. -/
def chances (s : Checker) (n : String) : Nat := (!s.cells.contains n).toNat + (!s.started (baseName n)).toNat

/-- No template is named like an instance. -/
def Unmangled (s : Checker) : Prop := ∀ name, s.generics.contains name = true → baseName name = name

theorem chances_le {s t : Checker} {n : String} (hc : s.cells.contains n = true → t.cells.contains n = true)
    (hs : s.started (baseName n) = true → t.started (baseName n) = true) : t.chances n ≤ s.chances n := by
  unfold chances
  cases hsc : s.cells.contains n <;> cases hss : s.started (baseName n) <;>
    cases htc : t.cells.contains n <;> cases hts : t.started (baseName n) <;> simp_all

theorem chances_le_two (s : Checker) (n : String) : s.chances n ≤ 2 := by
  unfold chances
  cases s.cells.contains n <;> cases s.started (baseName n) <;> simp

/-- **What was made from the first state to the second was broadcast, and it was paid for in chances.** -/
structure Counted (s t : Checker) : Prop where
  templates : ∀ name, t.generics.contains name = s.generics.contains name
  started : ∀ name, s.started name = true → t.started name = true
  news : ∃ names, t.made = names ++ s.made ∧ t.broadcast = names ++ s.broadcast
  once : s.Unmangled → ∀ n, t.made.count n + t.chances n ≤ s.made.count n + s.chances n

theorem Unmangled.counted {s t : Checker} (h : s.Unmangled) (hst : Counted s t) : t.Unmangled := by
  intro name hname
  rw [hst.templates] at hname
  exact h name hname

namespace Counted

variable {s t u v : Checker}

theorem trans (h : Counted s t) (h' : Counted t u) : Counted s u where
  templates := fun name => (h'.templates name).trans (h.templates name)
  started := fun name hs => h'.started name (h.started name hs)
  news := by
    obtain ⟨names, hm, hb⟩ := h.news
    obtain ⟨names', hm', hb'⟩ := h'.news
    exact ⟨names' ++ names, by rw [hm', hm, List.append_assoc], by rw [hb', hb, List.append_assoc]⟩
  once := fun hs n => Nat.le_trans (h'.once (hs.counted h) n) (h.once hs n)

/-- States with the same cells and instances, in which no start of a template is forgotten. -/
theorem of_same (hc : t.cells = s.cells) (hi : t.instances = s.instances) (hb : t.broadcast = s.broadcast)
    (hg : ∀ name, t.generics.contains name = s.generics.contains name)
    (hs : ∀ name, s.started name = true → t.started name = true) : Counted s t where
  templates := hg
  started := hs
  news := ⟨[], by simp [made, hi], hb⟩
  once := fun _ n => by
    have hmade : t.made = s.made := by rw [made, hi, made]
    rw [hmade]
    exact Nat.add_le_add_left (chances_le (fun h => hc ▸ h) (hs _)) _

theorem refl (s : Checker) : Counted s s := of_same rfl rfl rfl (fun _ => rfl) fun _ h => h

/-! ## Templates -/

theorem modifyGeneric_templates (s : Checker) (name : String) (f : GenericInfo → GenericInfo) (n : String) :
    (Check.modifyGeneric name f s).generics.contains n = s.generics.contains n := by
  unfold Check.modifyGeneric
  cases hg : s.generics.find? name with
  | none => rfl
  | some g =>
    simp only [Table.contains, Table.find?_insert]
    split
    · rename_i he
      rw [he, hg]
      rfl
    · rfl

theorem modifyGeneric_started {name n : String} {f : GenericInfo → GenericInfo}
    (hf : ∀ g, g.elaborated = true → (f g).elaborated = true) (h : s.started n = true) :
    (Check.modifyGeneric name f s).started n = true := by
  unfold Check.modifyGeneric
  cases hg : s.generics.find? name with
  | none => exact h
  | some g =>
    simp only [Checker.started, Table.find?_insert, Bool.or_eq_true] at h ⊢
    refine h.imp_right fun h => ?_
    split
    · rename_i he
      rw [he, hg] at h
      exact hf g h
    · exact h

/-- What is noted about a template touches no cell. -/
theorem of_modifyGeneric {name : String} {f : GenericInfo → GenericInfo}
    (h : ∀ n, s.started n = true → (Check.modifyGeneric name f t).started n = true) (hc : t.cells = s.cells)
    (hi : t.instances = s.instances) (hb : t.broadcast = s.broadcast) (hg : t.generics = s.generics) :
    Counted s (Check.modifyGeneric name f t) := by
  refine of_same ?_ ?_ ?_ (fun n => by rw [modifyGeneric_templates, hg]) h
  · rw [← hc]
    unfold Check.modifyGeneric
    split <;> rfl
  · rw [← hi]
    unfold Check.modifyGeneric
    split <;> rfl
  · rw [← hb]
    unfold Check.modifyGeneric
    split <;> rfl

theorem started_underWay (name : String) (g : GenericInfo) (s : Checker) {n : String} :
    (Check.underWay name g s).started n = true ↔ n = name ∨ s.started n = true := by
  unfold Checker.started
  simp [Check.underWay, Checker.onPlace, or_assoc]

theorem underWay (name : String) (g : GenericInfo) (s : Checker) : Counted s (Check.underWay name g s) :=
  of_same rfl rfl rfl (fun _ => rfl) fun _ h => (started_underWay name g s).2 (.inr h)

/-- The start of a template costs its instances a chance. -/
theorem chances_underWay {name n : String} {g : GenericInfo} (hs : s.started name = false) (hn : baseName n = name) :
    (Check.underWay name g s).chances n + 1 = s.chances n := by
  have hstarted : (Check.underWay name g s).started name = true := (started_underWay name g s).2 (.inl rfl)
  unfold chances
  rw [hn, hstarted, hs]
  rfl

/-- A template that is under way has been checked afterwards. -/
theorem elaborated {name : String} {c : CellDef} (hname : t.generics.contains name = true) :
    Counted t (Check.elaborated name c s t) := by
  have hdone : Counted t (Check.modifyGeneric name (fun g => { g with elaborated := true })
      { t.onPlace (fun _ => s.place) with elaborating := t.elaborating.erase name }) := by
    refine of_modifyGeneric (fun n hn => ?_) rfl rfl rfl rfl
    by_cases he : n = name
    · obtain ⟨g, hg⟩ := Option.isSome_iff_exists.1 hname
      simp [Check.modifyGeneric, Checker.onPlace, Checker.started, Table.find?_insert, hg, he]
    · refine modifyGeneric_started (fun _ _ => rfl) ?_
      simpa [Checker.started, Checker.onPlace, List.mem_erase_of_ne he] using hn
  exact hdone.trans (of_modifyGeneric (fun n => modifyGeneric_started fun _ h => h) rfl rfl rfl rfl)

/-! ## Instances -/

theorem chances_knowing_le (fr : Frames) (name : String) (sig : CellSig) (t : Checker) (n : String) :
    (Check.knowing fr name sig t).chances n ≤ t.chances n := by
  refine chances_le (fun h => ?_) fun h => h
  simp only [Check.knowing, Table.contains, Table.find?_insert] at h ⊢
  split
  · rfl
  · exact h

/-- A name that becomes known loses a chance. -/
theorem chances_knowing {name : String} (fr : Frames) (sig : CellSig) (h : t.cells.contains name = false) :
    (Check.knowing fr name sig t).chances name + 1 = t.chances name := by
  have hknown : (Check.knowing fr name sig t).cells.contains name = true := by
    simp [Check.knowing, Table.contains, Table.find?_insert]
  have hstarted : (Check.knowing fr name sig t).started (baseName name) = t.started (baseName name) := rfl
  unfold chances
  rw [hknown, h, hstarted]
  show 0 + _ + 1 = 1 + _
  omega

/-- **An instance that was not known is paid for**: by the chance that it loses in being known or, where its template
was checked on the way, by the chance that this took. -/
theorem instantiated {name : String} {id : Ident} {c : CellDef} {sig : CellSig} {fr : Frames} (hu : Counted u t)
    (hnone : u.cells.contains name = false) (hv : Counted (Check.knowing fr name sig t) v) (hname : c.name.name = name)
    (hpaid : t = u ∨ (u.Unmangled → t.made.count name + t.chances name + 1 ≤ u.made.count name + u.chances name)) :
    Counted u (Check.instantiated id name c sig t v) where
  templates := fun n => (hv.templates n).trans (hu.templates n)
  started := fun n hn => hv.started n (hu.started n hn)
  news := by
    obtain ⟨names, hm, hb⟩ := hu.news
    obtain ⟨names', hm', hb'⟩ := hv.news
    refine ⟨name :: names' ++ names, ?_, ?_⟩
    · show c.name.name :: v.made = _
      rw [hname, hm', show (Check.knowing fr name sig t).made = t.made from rfl, hm]
      simp
    · show name :: v.broadcast = _
      rw [hb', show (Check.knowing fr name sig t).broadcast = t.broadcast from rfl, hb]
      simp
  once := fun hclear n => by
    have hafter : v.made.count n + v.chances n ≤ t.made.count n + (Check.knowing fr name sig t).chances n :=
      hv.once (show t.Unmangled from hclear.counted hu) n
    have hmade : (Check.instantiated id name c sig t v).made = name :: v.made := by
      show c.name.name :: v.made = _
      rw [hname]
    have hchances : (Check.instantiated id name c sig t v).chances n = v.chances n := rfl
    rw [hmade, hchances, List.count_cons]
    by_cases hn : n = name
    · subst hn
      rw [beq_self_eq_true, if_pos rfl]
      obtain rfl | hpaid := hpaid
      · have := chances_knowing fr sig hnone
        omega
      · have := hpaid hclear
        have := chances_knowing_le fr n sig t n
        omega
    · have := hu.once hclear n
      have := chances_knowing_le fr name sig t n
      rw [if_neg (by simpa using Ne.symm hn)]
      omega

end Counted

end Checker
end Unroll
