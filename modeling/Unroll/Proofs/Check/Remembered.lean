import Unroll.Proofs.Check.Unwinding
/-!
# What a check does not forget

A check adds to the tables and takes back only what it has added, whatever fails on the way.  So a later state still
tells of every record and of every cell what an earlier one told, and the names that are new have a mark in them that no
program can write: a quote where a block has declared a record, an angle bracket where an instance was made.
-/
namespace Unroll
namespace Check

open CheckM Outcome Checker

/-- **The second state remembers the first one**, and what it knows besides has been made up since. -/
structure Remembers (s t : Checker) : Prop where
  traits : t.traits = s.traits
  aliases : t.aliases = s.aliases
  fresh : s.Fresh → t.Fresh
  records : s.Fresh → ∀ {n r}, s.records.find? n = some r → t.records.find? n = some r
  recorded : ∀ {n}, s.records.contains n = true → t.records.contains n = true
  blocks : ∀ {n}, t.records.contains n = true → s.records.contains n = true ∨ '\'' ∈ n.toList
  cells : ∀ {n sig}, s.cells.find? n = some sig → t.cells.find? n = some sig
  instances : ∀ {n}, s.cells.find? n = none → '<' ∉ n.toList → t.cells.find? n = none
  generics : ∀ n, (t.generics.find? n).map (·.params) = (s.generics.find? n).map (·.params)

namespace Remembers

variable {s t u : Checker}

/-- States with the same tables, but for what is known of the templates. -/
theorem of_same (ht : t.traits = s.traits) (ha : t.aliases = s.aliases) (hr : t.records = s.records)
    (hn : t.recordCount = s.recordCount) (hc : t.cells = s.cells)
    (hg : ∀ n, (t.generics.find? n).map (·.params) = (s.generics.find? n).map (·.params)) : Remembers s t where
  traits := ht
  aliases := ha
  fresh := fun h base k hk => by
    rw [hr]
    rw [hn] at hk
    exact h base k hk
  records := fun _ {n r} h => by rwa [hr]
  recorded := fun {n} h => by rwa [hr]
  blocks := fun {n} h => .inl (by rwa [hr] at h)
  cells := fun {n sig} h => by rwa [hc]
  instances := fun {n} h _ => by rwa [hc]
  generics := hg

theorem refl (s : Checker) : Remembers s s := .of_same rfl rfl rfl rfl rfl fun _ => rfl

theorem trans (h : Remembers s t) (h' : Remembers t u) : Remembers s u where
  traits := h'.traits.trans h.traits
  aliases := h'.aliases.trans h.aliases
  fresh := fun hs => h'.fresh (h.fresh hs)
  records := fun hs _ _ hr => h'.records (h.fresh hs) (h.records hs hr)
  recorded := fun hs => h'.recorded (h.recorded hs)
  blocks := fun hu => (h'.blocks hu).elim h.blocks .inr
  cells := fun hs => h'.cells (h.cells hs)
  instances := fun hs hn => h'.instances (h.instances hs hn) hn
  generics := fun n => (h'.generics n).trans (h.generics n)

instance : IsPreorder Checker Remembers where
  refl := .refl
  trans _ _ _ := .trans

/-- The parameters of a template that is still there are those that it had. -/
theorem template (h : Remembers s t) {n : String} {g : GenericInfo} (hg : s.generics.find? n = some g) :
    ∃ g', t.generics.find? n = some g' ∧ g'.params = g.params := by
  have hsame := h.generics n
  rw [hg, Option.map_some] at hsame
  exact Option.map_eq_some_iff.1 hsame

theorem symm_template (h : Remembers s t) {n : String} {g : GenericInfo} (hg : t.generics.find? n = some g) :
    ∃ g', s.generics.find? n = some g' ∧ g'.params = g.params := by
  have hsame := (h.generics n).symm
  rw [hg, Option.map_some] at hsame
  exact Option.map_eq_some_iff.1 hsame

end Remembers

/-! ## Checks remember -/

variable {s t : Checker}

theorem modifyGeneric_remembers (name : String) {f : GenericInfo → GenericInfo} (hf : ∀ g, (f g).params = g.params)
    (s : Checker) : Remembers s (modifyGeneric name f s) := by
  unfold modifyGeneric
  cases hg : s.generics.find? name with
  | none => exact .refl s
  | some g =>
    refine .of_same rfl rfl rfl rfl rfl fun n => ?_
    dsimp only
    rw [Table.find?_insert]
    split
    · rename_i hn
      rw [hn, hg, Option.map_some, Option.map_some, hf]
    · rfl

/-- A record of a block has a name that no record had. -/
theorem addRecord_remembers (s : Checker) (base : String) (fs : List FieldInfo) :
    Remembers s (({ s with recordCount := s.recordCount + 1 } : Checker).addRecord
      (localName base (s.recordCount + 1)) fs) := by
  obtain ⟨-, -, -, hfresh, hrecords, -⟩ := extends_addRecord s base fs
  refine ⟨rfl, rfl, hfresh, hrecords, fun h => Table.contains_insert.2 (.inr h), fun {n} h => ?_, id, fun h _ => h, fun _ => rfl⟩
  obtain rfl | h := Table.contains_insert.1 h
  · exact .inr (quote_mem_localName ..)
  · exact .inl h

theorem Remembers.tried {name : String} {g : GenericInfo} (h : Remembers (underWay name g s) t) :
    Remembers s (tried name s t) := by
  have hback : Remembers s { t.onPlace (fun _ => s.place) with elaborating := t.elaborating.erase name } :=
    ⟨h.traits, h.aliases, h.fresh, h.records, h.recorded, h.blocks, h.cells, h.instances, h.generics⟩
  exact hback.trans (modifyGeneric_remembers name (f := fun g => { g with elaborated := true }) (fun _ => rfl) _)

/-- What happens to a cell that was not known leaves the others alone, if it is not a written one in the end. -/
theorem Remembers.around {fr fr' : Frames} {name : String} {u : Checker} {p p' : Place} {cs cs' : Table CellSig}
    {is : List CellDef} {es : List Event} (hnone : s.cells.find? name = none) (hst : Remembers s t)
    (hcs : ∀ n, n ≠ name → cs.find? n = t.cells.find? n)
    (h : Remembers { t with place := p, frames := fr, cells := cs } u)
    (hcs' : ∀ n, n ≠ name → cs'.find? n = u.cells.find? n) (hname : '<' ∈ name.toList ∨ cs'.find? name = none) :
    Remembers s { u with place := p', frames := fr', cells := cs', instances := is, events := es } where
  traits := h.traits.trans hst.traits
  aliases := h.aliases.trans hst.aliases
  fresh := fun hs => h.fresh (hst.fresh hs)
  records := fun hs _ _ hr => h.records (hst.fresh hs) (hst.records hs hr)
  recorded := fun hs => h.recorded (hst.recorded hs)
  blocks := fun hu => (h.blocks hu).elim hst.blocks .inr
  cells := fun {n sig} hs => by
    have hn : n ≠ name := fun he => by simp [he, hnone] at hs
    exact (hcs' n hn).trans (h.cells ((hcs n hn).trans (hst.cells hs)))
  instances := fun {n} hs hangle => by
    by_cases hn : n = name
    · exact hn ▸ hname.resolve_left fun hin => hangle (hn ▸ hin)
    · exact (hcs' n hn).trans (h.instances ((hcs n hn).trans (hst.instances hs hangle)) hangle)
  generics := fun n => (h.generics n).trans (hst.generics n)

theorem erase_other (cs : Table CellSig) {n name : String} (hn : n ≠ name) : (cs.erase name).find? n = cs.find? n :=
  (Table.find?_erase ..).trans (if_neg hn)

theorem insert_other (cs : Table CellSig) (sig : CellSig) {n name : String} (hn : n ≠ name) :
    (cs.insert name sig).find? n = cs.find? n :=
  (Table.find?_insert ..).trans (if_neg hn)

instance : Lasting Remembers where
  onPlace _ _ := .of_same rfl rfl rfl rfl rfl fun _ => rfl
  event _ := .of_same rfl rfl rfl rfl rfl fun _ => rfl
  report _ _ := .of_same rfl rfl rfl rfl rfl fun _ => rfl
  record := addRecord_remembers
  within _ h := ⟨h.traits, h.aliases, h.fresh, h.records, h.recorded, h.blocks, h.cells, h.instances, h.generics⟩
  tried _ _ h := h.tried
  elaborated {_ _ _ _ c _ _} _ _ _ h :=
    h.tried.trans (modifyGeneric_remembers _ (f := fun g => { g with cell := c }) (fun _ => rfl) _)
  instantiated {_ _ _ _ _ _ _ _ _ _ v} hnone hst _ _ _ _ _ h :=
    .around (u := v) hnone hst (fun _ => insert_other _ _) h (fun _ _ => rfl) (.inl (angle_mem_mangle ..))
  forgotten {name f fr s t v} hnone hst _ h := by
    have hgone : (v.cells.erase name).find? name = none := (Table.find?_erase ..).trans (if_pos rfl)
    obtain rfl | ⟨sig, -, h⟩ := h
    · exact .around (t := t) hnone hst (fun _ _ => rfl) (.refl { t with frames := fr }) (fun _ => erase_other _) (.inr hgone)
    · exact .around (u := v) hnone hst (fun _ => insert_other _ sig) h (fun _ => erase_other _) (.inr hgone)

/-- **An instance that has been made is known from then on.** -/
theorem instantiateCell_known {n : Nat} {id : Ident} {args : List TemplateArg} {r : String × CellSig}
    (h : instantiateCell (levels n) id args s = .ok r t) : t.cells.find? r.1 = some r.2 := by
  obtain ⟨-, -, ⟨rfl, hknown⟩ | ⟨u, g, fr, concrete, c, v, w, -, -, -, -, -, -, hbody, rfl⟩⟩ := instantiateCell_ok h
  · exact hknown
  · have hkept : Remembers _ w := (cellBody_lasting (stmtAt_keeps n) concrete r.2).ok hbody
    exact hkept.cells ((Table.find?_insert ..).trans (if_pos rfl))

end Check
end Unroll
