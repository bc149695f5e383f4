import Unroll.Proofs.Check.Kept
import Unroll.Proofs.Check.Ledger
/-!
# What a check leaves to the next one

A checker goes on from program to program.  Between two of them no template is under way, and each has been tried: the
declarations make them known, and the pass after them goes over all of them, whatever fails on the way.
-/
namespace Unroll

/-- No template is under way, and none is left that has not been tried. -/
structure Checker.AtRest (s : Checker) : Prop where
  elaborating : s.elaborating = []
  elaborated : ∀ {n g}, s.generics.find? n = some g → g.elaborated = true

theorem Checker.atRest_new (config : Config) : (Checker.new config).AtRest := ⟨rfl, nofun⟩

namespace Check

open CheckM Outcome Checker

variable {s t u start fin : Checker} {p : Program}

/-! ## Declarations -/

/-- A step that touches nothing but names of types. -/
structure Untouched (s t : Checker) : Prop where
  diagnostics : t.diagnostics = s.diagnostics
  events : t.events = s.events
  instances : t.instances = s.instances
  cells : t.cells = s.cells
  generics : t.generics = s.generics
  elaborating : t.elaborating = s.elaborating

instance : IsPreorder Checker Untouched where
  refl _ := ⟨rfl, rfl, rfl, rfl, rfl, rfl⟩
  trans _ _ _ h h' := ⟨h'.diagnostics.trans h.diagnostics, h'.events.trans h.events, h'.instances.trans h.instances,
    h'.cells.trans h.cells, h'.generics.trans h.generics, h'.elaborating.trans h.elaborating⟩

theorem declareName_untouched (x : Stmt) : Always Untouched (declareName x) :=
  declareName_always (fun _ _ => ⟨rfl, rfl, rfl, rfl, rfl, rfl⟩) (fun _ _ _ => ⟨rfl, rfl, rfl, rfl, rfl, rfl⟩)
    (fun _ _ => ⟨rfl, rfl, rfl, rfl, rfl, rfl⟩) x

theorem declare_untouched {n : Nat} {x : Stmt} (hx : ∀ c, x ≠ .cell c) : Always Untouched (declare (levels n) x) :=
  declare_always (fun _ _ _ => ⟨rfl, rfl, rfl, rfl, rfl, rfl⟩) (fun _ _ _ _ => ⟨rfl, rfl, rfl, rfl, rfl, rfl⟩)
    (fun c hc => absurd hc (hx c)) fun c hc => absurd hc (hx c)

/-- The name of a generic cell. -/
def genericName? : Stmt → Option String
  | .cell c => if c.isGeneric then some c.name.name else none
  | _ => none

theorem genericName?_eq_some {x : Stmt} {n : String} :
    genericName? x = some n ↔ ∃ c, x = .cell c ∧ c.params ≠ [] ∧ c.name.name = n := by
  cases x with
  | cell c =>
    by_cases hg : c.params = []
    · simp [genericName?, CellDef.isGeneric, hg]
    · simp [genericName?, isGeneric_iff.2 hg, hg]
  | _ => simp [genericName?]

/-- What the declarations do to the generic cells: they make some of the program's known. -/
structure Declares (p : Program) (s t : Checker) : Prop where
  elaborating : t.elaborating = s.elaborating
  generics : ∀ {n g}, t.generics.find? n = some g → s.generics.find? n = some g ∨ n ∈ p.filterMap genericName?

instance : IsPreorder Checker (Declares p) where
  refl _ := ⟨rfl, .inl⟩
  trans _ _ _ h h' := ⟨h'.elaborating.trans h.elaborating, fun hf => (h'.generics hf).elim h.generics .inr⟩

theorem Untouched.declares (h : Untouched s t) : Declares p s t :=
  ⟨h.elaborating, fun hf => .inl (by rwa [h.generics] at hf)⟩

theorem collecting_declares {x : CheckM Unit} (hx : Always (Declares p) x) : Always (Declares p) (collecting x) :=
  .tryCatch hx fun _ => .modify fun _ => ⟨rfl, .inl⟩

theorem declare_declares {n : Nat} {x : Stmt} (hx : x ∈ p) : Always (Declares p) (declare (levels n) x) := by
  refine declare_always (fun _ _ _ => ⟨rfl, .inl⟩) (fun _ _ _ _ => ⟨rfl, .inl⟩)
    (fun c hc hgen s _ decls _ => ⟨rfl, fun {m g} hf => ?_⟩) fun _ _ _ _ _ => ⟨rfl, .inl⟩
  rw [Table.find?_insert] at hf
  split at hf
  · rename_i hm
    exact .inr (List.mem_filterMap.2 ⟨x, hx, genericName?_eq_some.2 ⟨c, hc, hgen, hm.symm⟩⟩)
  · exact .inl hf

/-! ## Templates -/

/-- Where nothing is under way, what has been started has been checked. -/
theorem started_elaborated {n : String} (he : s.elaborating = []) (h : s.started n = true) :
    ∃ g, s.generics.find? n = some g ∧ g.elaborated = true := by
  unfold Checker.started at h
  rw [he] at h
  cases hg : s.generics.find? n with
  | none => simp [hg] at h
  | some g => exact ⟨g, rfl, by simpa [hg] using h⟩

/-- A template that is known has been tried after its check, however that ends. -/
theorem tried_started {name : String} {g : GenericInfo} (h : t.generics.find? name = some g) :
    (tried name s t).started name = true := by
  have hgenerics : (tried name s t).generics = t.generics.insert name { g with elaborated := true } :=
    modifyGeneric_generics (s := { t.onPlace (fun _ => s.place) with elaborating := t.elaborating.erase name }) h _
  unfold Checker.started
  rw [hgenerics, Table.find?_insert, if_pos rfl]
  simp

/-- **A template that is known has been tried afterwards**, or its check is under way. -/
theorem elaborateTemplate_started (n : Nat) (name : String) :
    Always (fun s t => name ∈ templateNames s.generics → t.started name = true) (elaborateTemplate (levels n) name) := by
  have hkeeps := elaborateTemplate_keeps (T := Standing) (stmtAt_keeps n) name
  refine .of_ends (fun {s _ t} h hknown => ?_) fun s d t h _ => ?_
  · cases hst : s.started name with
    | true => exact (hkeeps.ok h).rest.started hst
    | false =>
      obtain ⟨g, hg⟩ := Option.ne_none_iff_exists'.1 (mem_templateNames.1 hknown)
      have hnew : (g.elaborated || s.elaborating.contains name) = false := by
        rw [← hst, Bool.or_comm]
        unfold Checker.started
        rw [hg]
        rfl
      obtain ⟨sig, u, c, v, hsig, hc, rfl⟩ := elaborateTemplate_new hg hnew h
      obtain ⟨rfl, -⟩ := signature_ok (levels_orderly n) hsig
      have hstands : Standing (underWay name g s) v := (cellBody_lasting (stmtAt_keeps n) g.cell sig).ok hc
      exact Counted.modifyGeneric_started (fun _ h => h) (tried_started (s := s) (hstands.template hg))
  · obtain ⟨g, v, hg, -, hc, rfl⟩ := elaborateTemplate_error h
    have hstands : Standing (underWay name g s) v :=
      (Always.bind (.of_eq (signature_reads (typeRefAt_reads n) _)) (cellBody_lasting (stmtAt_keeps n) _)).error hc
    exact tried_started (hstands.template hg)

theorem collecting_reported {x : CheckM Unit} {w : Unit} (h : collecting x s = .ok w t) :
    t = ends x s ∨ ∃ d, t = (ends x s).report d := by
  simp only [collecting, tryCatch_ok, modify_ok] at h
  obtain h | ⟨d, u, h, rfl⟩ := h
  · exact .inl (ends_of_ok h).symm
  · exact .inr ⟨d, by rw [ends_of_error h]⟩

theorem elaborateTemplates_started (n : Nat) {x : Stmt} {name : String} (hx : genericName? x = some name) :
    Always (fun s t => name ∈ templateNames s.generics → t.started name = true) (elaborateTemplates (levels n) x) := by
  obtain ⟨c, rfl, hgen, rfl⟩ := genericName?_eq_some.1 hx
  simp only [elaborateTemplates, isGeneric_iff.2 hgen, if_true]
  exact elaborateTemplate_started n c.name.name

/-- **After the pass over templates** each template of the program that is known has been tried. -/
theorem templates_tried {w : Unit}
    (h : p.forM (fun x => (do collecting (elaborateTemplates (fromHere (← get)) x) : CheckM Unit)) s = .ok w t) :
    Standing s t ∧ ∀ n ∈ p.filterMap genericName?, n ∈ templateNames s.generics → t.started n = true := by
  refine (forM_ok (C := fun _ => True) (P := fun done u => Standing s u ∧
    ∀ n ∈ done.filterMap genericName?, n ∈ templateNames s.generics → u.started n = true) []
    (fun x _ u u' done hx _ => ⟨trivial, fun ⟨hstands, htried⟩ => ?_⟩) h trivial).2 ⟨refl_of Standing s, by simp⟩
  simp only [bind_ok, get_ok] at hx
  obtain ⟨_, _, ⟨rfl, rfl⟩, hx⟩ := hx
  obtain ⟨m, hx⟩ : ∃ m, collecting (elaborateTemplates (levels m) x) u = .ok () u' := ⟨_, hx⟩
  have hstep : Standing u u' := (collecting_lasting (elaborateTemplates_lasting m x)).ok hx
  refine ⟨trans_of Standing hstands hstep, fun n hn hknown => ?_⟩
  rw [List.filterMap_append, List.mem_append] at hn
  obtain hn | hn := hn
  · exact hstep.started (htried n hn hknown)
  · have hname : genericName? x = some n := by simpa using hn
    have hend := elaborateTemplates_started m hname u (hstands.names ▸ hknown)
    obtain rfl | ⟨d, rfl⟩ := collecting_reported hx
    · exact hend
    · exact hend

/-- **Between two programs the checker is at rest**, whether they pass or fail. -/
theorem program_atRest (hs : s.AtRest) : (ends (Check.program p) s).AtRest := by
  obtain ⟨named, declared, t, rs, fin, hnamed, hdeclared, ht, hfin, hverdict⟩ := program_runs p s
  have hend : (ends (Check.program p) s).elaborating = fin.elaborating ∧
      (ends (Check.program p) s).generics = fin.generics := by
    unfold ends
    rw [hverdict]
    cases fin.diagnostics.getLast? <;> exact ⟨rfl, rfl⟩
  have hcleared : Declares p s { s with diagnostics := [] } := ⟨rfl, .inl⟩
  have hnames : Declares p { s with diagnostics := [] } named := (Always.forM p fun x _ => collecting_declares
    ((declareName_untouched x).mono Untouched.declares)).ok hnamed
  have hdecls : Declares p named declared := (Always.forM p fun x hx => Always.bind .get fun u => collecting_declares
    (declare_declares hx)).ok hdeclared
  have hd : Declares p s declared := trans_of (Declares p) (trans_of (Declares p) hcleared hnames) hdecls
  obtain ⟨hstands, htried⟩ := templates_tried ht
  have hbodies : Standing t fin := (Always.mapM (fun x => Always.bind .get fun u => elaborateStmt_lasting _ x) p).ok hfin
  have hon : Standing declared fin := trans_of Standing hstands hbodies
  have hnone : fin.elaborating = [] := hon.elaborating.trans (hd.elaborating.trans hs.elaborating)
  refine ⟨hend.1.trans hnone, fun {n g} hg => ?_⟩
  rw [hend.2] at hg
  have hknown : n ∈ templateNames declared.generics := hon.names ▸ mem_templateNames.2 (by simp [hg])
  have hstarted : fin.started n = true := by
    obtain ⟨g₀, hg₀⟩ := Option.ne_none_iff_exists'.1 (mem_templateNames.1 hknown)
    rcases hd.generics hg₀ with hold | hnew
    · refine hon.started ?_
      unfold Checker.started
      rw [hg₀]
      simp [hs.elaborated hold]
    · exact hbodies.started (htried n hnew hknown)
  obtain ⟨g', hg', hel⟩ := started_elaborated hnone hstarted
  rw [hg] at hg'
  cases hg'
  exact hel

/-- A checker that has checked these programs, the last one first; the instances are those it has given out with the
programs that passed. -/
inductive History (config : Config) : List Program → List CellDef → Checker → Prop
  | new : History config [] [] (.new config)
  | passed {ps : List Program} {out : List CellDef} {s t : Checker} {p : Program} {checked : CheckedProgram} :
    History config ps out s → Check.program p s = .ok checked t → History config (p :: ps) (checked.instances ++ out) t
  | failed {ps : List Program} {out : List CellDef} {s t : Checker} {p : Program} {d : Diagnostic} :
    History config ps out s → Check.program p s = .error d t → History config (p :: ps) out t

theorem History.atRest {config : Config} {ps : List Program} {out : List CellDef} (h : History config ps out s) :
    s.AtRest := by
  induction h with
  | new => exact Checker.atRest_new config
  | passed _ hp ih => exact ends_of_ok hp ▸ program_atRest ih
  | failed _ hp ih => exact ends_of_error hp ▸ program_atRest ih

end Check
end Unroll
