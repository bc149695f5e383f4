import Unroll.Proofs.Check.AtRest
/-!
# In which order a check reports

A check reports pass by pass: the names first, then what they stand for, then the templates, then the bodies.  A pass
goes over the declarations as they stand, and what has been reported is never taken back; the first of it is the answer.
So the answer is what is wrong in the earliest pass.  It comes first in the source only among what that pass reports,
and only the first pass reports at places that stand as the declarations do.
-/
namespace Unroll

/-- Where the first pass reports a declaration: at the name that it makes known, or where it makes none known, at all of
it. -/
def Stmt.namePlace : Stmt → Span
  | .trait _ id => id.span
  | .record d => d.name.span
  | x => x.span

namespace Check

open CheckM Outcome Checker

variable {α : Type} {s t : Checker} {p : Program}

/-! ## Passes -/

/-- Nothing that has been reported is taken back. -/
def Grows (s t : Checker) : Prop := s.diagnostics <:+ t.diagnostics

theorem Grows.of_same (h : t.diagnostics = s.diagnostics) : Grows s t := ⟨[], h.symm⟩

instance : IsPreorder Checker Grows where
  refl _ := List.suffix_rfl
  trans _ _ _ := List.IsSuffix.trans

theorem Grows.tried {name : String} {g : GenericInfo} (h : Grows (underWay name g s) t) : Grows s (tried name s t) := by
  have hsame : (Check.tried name s t).diagnostics = t.diagnostics := modifyGeneric_diagnostics _ name _
  unfold Grows
  rw [hsame]
  exact h

instance : Lasting Grows where
  onPlace _ _ := .of_same rfl
  event _ := .of_same rfl
  report s d := List.suffix_cons d s.diagnostics
  record _ _ _ := .of_same rfl
  within _ h := h
  tried _ _ h := h.tried
  elaborated _ _ _ h := trans_of Grows h.tried (.of_same (modifyGeneric_diagnostics ..))
  instantiated _ hst _ _ _ _ _ h := trans_of Grows hst h
  forgotten _ hst _ h := by
    refine trans_of Grows hst ?_
    rcases h with rfl | ⟨_, -, h⟩
    · exact .of_same rfl
    · exact h

/-- These are reported by the step, the oldest first, from some state. -/
def Reports (x : CheckM α) (ds : List Diagnostic) : Prop :=
  ∃ s, (ends x s).diagnostics.reverse = s.diagnostics.reverse ++ ds

theorem Grows.reports {x : CheckM α} (h : Always Grows x) (s : Checker) :
    ∃ ds, Reports x ds ∧ (ends x s).diagnostics.reverse = s.diagnostics.reverse ++ ds := by
  obtain ⟨ds, hds⟩ := h s
  have hrev : (ends x s).diagnostics.reverse = s.diagnostics.reverse ++ ds.reverse := by
    rw [← hds, List.reverse_append]
  exact ⟨ds.reverse, ⟨s, hrev⟩, hrev⟩

/-- **A pass reports declaration by declaration**, as they stand. -/
theorem forM_reports {g : Stmt → CheckM Unit} (hg : ∀ x, Always Grows (g x)) : ∀ {p : Program} {s t : Checker} {w : Unit},
    p.forM g s = .ok w t → ∃ dss, List.Forall₂ (fun x => Reports (g x)) p dss ∧
      t.diagnostics.reverse = s.diagnostics.reverse ++ dss.flatten
  | [], s, t, w, h => by
    simp only [List.forM_eq_forM, List.forM_nil, pure_ok] at h
    obtain ⟨-, rfl⟩ := h
    exact ⟨[], .nil, by simp⟩
  | x :: p, s, t, w, h => by
    simp only [List.forM_eq_forM, List.forM_cons, bind_ok] at h
    obtain ⟨_, u, hx, hp⟩ := h
    obtain ⟨dss, hall, hdss⟩ := forM_reports hg hp
    obtain ⟨ds, hds, hstep⟩ := Grows.reports (hg x) s
    rw [ends_of_ok hx] at hstep
    exact ⟨ds :: dss, .cons hds hall, by rw [hdss, hstep, List.flatten_cons, List.append_assoc]⟩

/-- The same of a pass that leaves something for every declaration. -/
theorem mapM_reports {g : Stmt → CheckM Stmt} (hg : ∀ x, Always Grows (g x)) : ∀ {p rs : Program} {s t : Checker},
    p.mapM g s = .ok rs t → ∃ dss, List.Forall₂ (fun x => Reports (g x)) p dss ∧
      t.diagnostics.reverse = s.diagnostics.reverse ++ dss.flatten
  | [], rs, s, t, h => by
    simp only [List.mapM_nil, pure_ok] at h
    obtain ⟨-, rfl⟩ := h
    exact ⟨[], .nil, by simp⟩
  | x :: p, rs, s, t, h => by
    simp only [List.mapM_cons, bind_ok, pure_ok] at h
    obtain ⟨r, u, hx, rs', _, hp, -, rfl⟩ := h
    obtain ⟨dss, hall, hdss⟩ := mapM_reports hg hp
    obtain ⟨ds, hds, hstep⟩ := Grows.reports (hg x) s
    rw [ends_of_ok hx] at hstep
    exact ⟨ds :: dss, .cons hds hall, by rw [hdss, hstep, List.flatten_cons, List.append_assoc]⟩

/-! ## The first two passes -/

/-- Nothing is reported. -/
def Silent (s t : Checker) : Prop := t.diagnostics = s.diagnostics

instance : IsPreorder Checker Silent where
  refl _ := rfl
  trans _ _ _ h h' := Eq.trans h' h

/-- What a step fails with is all that is reported of it, where it reports nothing itself. -/
theorem collecting_once {x : CheckM Unit} (hx : Always Silent x) {ds : List Diagnostic} (h : Reports (collecting x) ds) :
    ds = [] ∨ ∃ d s t, ds = [d] ∧ x s = .error d t := by
  obtain ⟨s, h⟩ := h
  cases hs : x s with
  | ok u t =>
    have hend : ends (collecting x) s = t := ends_of_ok (tryCatch_ok.2 (.inl hs))
    have hsame : t.diagnostics = s.diagnostics := hx.ok hs
    rw [hend, hsame] at h
    exact .inl (List.self_eq_append_right.1 h)
  | error d t =>
    have hend : ends (collecting x) s = t.report d := ends_of_ok (tryCatch_ok.2 (.inr ⟨d, t, hs, rfl⟩))
    have hsame : t.diagnostics = s.diagnostics := hx.error hs
    have hds : (t.report d).diagnostics.reverse = s.diagnostics.reverse ++ [d] := by
      rw [← hsame]
      exact List.reverse_cons
    rw [hend, hds] at h
    exact .inr ⟨d, s, t, (List.append_cancel_left h).symm, hs⟩

theorem checkTypeName_error {id : Ident} {d : Diagnostic} (h : checkTypeName id s = .error d t) : d.span = id.span := by
  simp only [checkTypeName, bind_error, get_error, get_ok, false_or] at h
  obtain ⟨_, _, ⟨rfl, rfl⟩, h⟩ := h
  split at h
  · obtain ⟨rfl, -⟩ := fail_error.1 h
    rfl
  · exact absurd h pure_error

/-- The name that is wrong is the place of the error. -/
theorem declareName_error {x : Stmt} {d : Diagnostic} (h : declareName x s = .error d t) : d.span = x.namePlace := by
  cases x with
  | trait sp id =>
    simp only [declareName, declareTrait, bind_error, get_error, get_ok, false_or] at h
    obtain ⟨_, _, ⟨rfl, rfl⟩, h⟩ := h
    split at h
    · simp only [bind_error, fail_error, fail_ok, false_and, exists_false, or_false] at h
      obtain ⟨rfl, -⟩ := h
      rfl
    · exact absurd h modify_error
  | record r =>
    simp only [declareName, declareRecord, bind_error, modify_error, onPlace_error, and_false, exists_false,
      or_false] at h
    exact checkTypeName_error h
  | typeAlias _ _ _ _ | cell _ => exact absurd h pure_error
  | _ =>
    obtain ⟨rfl, -⟩ := fail_error.1 h
    rfl

/-- **The first pass reports names**, each at most once. -/
theorem names_once {x : Stmt} {ds : List Diagnostic} (h : Reports (collecting (declareName x)) ds) :
    (ds.map (·.span)).Sublist [x.namePlace] := by
  have hsilent : Always Silent (declareName x) :=
    declareName_always (fun _ _ => rfl) (fun _ _ _ => rfl) (fun _ _ => rfl) x
  obtain rfl | ⟨d, s, t, rfl, hd⟩ := collecting_once hsilent h
  · exact List.nil_sublist _
  · rw [List.map_singleton, declareName_error hd]

/-- The second pass reports each declaration at most once. -/
theorem declarations_once {x : Stmt} {ds : List Diagnostic}
    (h : Reports (do collecting (declare (fromHere (← get)) x) : CheckM Unit) ds) : ds.length ≤ 1 := by
  obtain ⟨s, h⟩ := h
  have hsilent : Always Silent (declare (fromHere s) x) :=
    declare_always (fun _ _ _ => rfl) (fun _ _ _ _ => rfl) (fun _ _ _ _ _ _ _ => rfl) fun _ _ _ _ _ => rfl
  have hhere : (ends (collecting (declare (fromHere s) x)) s).diagnostics.reverse = s.diagnostics.reverse ++ ds := by
    rwa [ends_bind] at h
  obtain rfl | ⟨d, _, _, rfl, -⟩ := collecting_once hsilent ⟨s, hhere⟩
  · exact Nat.zero_le 1
  · exact Nat.le_refl 1

/-! ## Programs -/

theorem collecting_grows {x : CheckM Unit} (hx : Always Grows x) : Always Grows (collecting x) := collecting_lasting hx

/-- **What a check reports**, the oldest first: pass by pass, and in a pass declaration by declaration.  The first of all
is the answer; where there is none the program passes. -/
theorem program_reports (p : Program) (s : Checker) : ∃ (names declarations templates bodies : List (List Diagnostic))
    (rs : Program) (fin : Checker),
    List.Forall₂ (fun x => Reports (collecting (declareName x))) p names ∧
    List.Forall₂ (fun x => Reports (do collecting (declare (fromHere (← get)) x) : CheckM Unit)) p declarations ∧
    List.Forall₂ (fun x => Reports (do collecting (elaborateTemplates (fromHere (← get)) x) : CheckM Unit)) p templates ∧
    List.Forall₂ (fun x => Reports (do elaborateStmt (fromHere (← get)) x : CheckM Stmt)) p bodies ∧
    fin.diagnostics.reverse = (names ++ declarations ++ templates ++ bodies).flatten ∧
    Check.program p s = verdict fin.diagnostics.reverse.head? rs fin := by
  obtain ⟨named, declared, t, rs, fin, hnamed, hdeclared, ht, hfin, hverdict⟩ := program_runs p s
  have hnames := fun x => collecting_grows (declareName_always (fun _ _ => .of_same rfl) (fun _ _ _ => .of_same rfl)
    (fun _ _ => .of_same rfl) x)
  obtain ⟨names, hns, hn⟩ := forM_reports hnames hnamed
  obtain ⟨declarations, hds, hd⟩ := forM_reports (fun x => .bind .get fun s => collecting_grows (declare_always
    (fun _ _ _ => .of_same rfl) (fun _ _ _ _ => .of_same rfl) (fun _ _ _ _ _ _ _ => .of_same rfl)
    fun _ _ _ _ _ => .of_same rfl)) hdeclared
  obtain ⟨templates, hts, ht⟩ := forM_reports (fun x => .bind .get fun s => collecting_grows
    (elaborateTemplates_lasting _ x)) ht
  obtain ⟨bodies, hbs, hb⟩ := mapM_reports (fun x => .bind .get fun s => elaborateStmt_lasting _ x) hfin
  refine ⟨names, declarations, templates, bodies, rs, fin, hns, hds, hts, hbs, ?_, ?_⟩
  · rw [hb, ht, hd, hn]
    simp only [List.flatten_append, List.reverse_nil, List.nil_append]
  · rw [hverdict, List.head?_reverse]

/-- **What the first pass reports is in the order of the source**, where the names of the program are. -/
theorem names_in_order {names : List (List Diagnostic)}
    (h : List.Forall₂ (fun x => Reports (collecting (declareName x))) p names)
    (hp : p.Pairwise fun x y => x.namePlace.offset ≤ y.namePlace.offset) :
    names.flatten.Pairwise fun d d' => d.span.offset ≤ d'.span.offset := by
  have hsub : (names.flatten.map (·.span)).Sublist (p.map Stmt.namePlace) := by
    clear hp
    induction h with
    | nil => exact .slnil
    | cons hx _ ih =>
      rw [List.flatten_cons, List.map_append]
      exact (names_once hx).append ih
  have hplaces : (p.map Stmt.namePlace).Pairwise fun a b => a.offset ≤ b.offset := by
    rw [List.pairwise_map]
    exact hp
  have hspans := hplaces.sublist hsub
  rw [List.pairwise_map] at hspans
  exact hspans

end Check
end Unroll
