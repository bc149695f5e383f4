import Unroll.Proofs.Accepted
import Unroll.Proofs.Check.AtRest
/-!
# What consumers hear of copies

The declarations of a program make no copies, and the two passes over bodies keep the books.  So when a program has
passed, what was broadcast of copies is what stands in it: in the cells that run, and in the bodies that are kept as
templates, where the copies were made for a check and do not run.
-/
namespace Unroll
namespace Check

open CheckM Outcome Checker

variable {s s' t u start fin : Checker} {p : Program}

/-! ## Declarations -/

/-- **What the declarations leave**, where those of `done` have been gone over: the generic cells are known as they are
written, and the concrete ones by their signatures. -/
structure Prepared (start : Checker) (done : Program) (s : Checker) : Prop where
  events : s.events = start.events
  instances : s.instances = start.instances
  elaborating : s.elaborating = start.elaborating
  names : templateNames s.generics = (done.filterMap genericName?).reverse ++ templateNames start.generics
  older : ∀ n ∈ templateNames start.generics, s.generics.find? n = start.generics.find? n
  generic : ∀ c, .cell c ∈ done → c.params ≠ [] → ∃ g, s.generics.find? c.name.name = some g ∧ g.cell = c ∧
    g.elaborated = false
  concrete : ∀ c, .cell c ∈ done → c.params = [] → s.cells.find? c.name.name ≠ none

theorem Prepared.untouched {done : Program} {x : Stmt} (h : Prepared start done s) (hx : ∀ c, x ≠ .cell c) (hs : Untouched s t) :
    Prepared start (done ++ [x]) t := by
  have hnone : [x].filterMap genericName? = [] := by
    cases x with
    | cell c => exact absurd rfl (hx c)
    | _ => rfl
  refine ⟨hs.events.trans h.events, hs.instances.trans h.instances, hs.elaborating.trans h.elaborating, ?_, ?_, ?_, ?_⟩
  · rw [hs.generics, List.filterMap_append, hnone, List.append_nil]
    exact h.names
  · rw [hs.generics]
    exact h.older
  · intro c hc
    rw [hs.generics]
    exact h.generic c ((cell_mem_append hx).1 hc)
  · intro c hc
    rw [hs.cells]
    exact h.concrete c ((cell_mem_append hx).1 hc)

theorem Prepared.cell {done : Program} {n : Nat} {c : CellDef} (h : Prepared start done s)
    (hc : declareCell (levels n) c s = .ok () t) : Prepared start (done ++ [.cell c]) t := by
  obtain ⟨hfree, hnew, ⟨hgen, decls, rfl⟩ | ⟨hcon, sig, -, rfl⟩⟩ := declareCell_ok hc
  · have hnames : [Stmt.cell c].filterMap genericName? = [c.name.name] := by
      simp [genericName?, isGeneric_iff.2 hgen]
    have hfresh : c.name.name ∉ templateNames s.generics := fun hm => mem_templateNames.1 hm hnew
    refine ⟨h.events, h.instances, h.elaborating, ?_, fun m hm => ?_, fun c' hc' hgen' => ?_, fun c' hc' hcon' => ?_⟩
    · rw [List.filterMap_append, hnames, List.reverse_append, List.append_assoc, ← h.names]
      exact List.dedup_cons_of_notMem fun hm => hfresh (List.mem_dedup.2 hm)
    · refine (Table.find?_insert ..).trans ((if_neg ?_).trans (h.older m hm))
      rintro rfl
      exact hfresh (h.names ▸ List.mem_append_right _ hm)
    · rcases List.mem_append.1 hc' with hc' | hc'
      · obtain ⟨g, hg, hcell, hun⟩ := h.generic c' hc' hgen'
        refine ⟨g, (Table.find?_insert ..).trans ((if_neg ?_).trans hg), hcell, hun⟩
        intro he
        rw [he, hnew] at hg
        cases hg
      · cases List.mem_singleton.1 hc'
        exact ⟨_, (Table.find?_insert ..).trans (if_pos rfl), rfl, rfl⟩
    · rcases List.mem_append.1 hc' with hc' | hc'
      · exact h.concrete c' hc' hcon'
      · cases List.mem_singleton.1 hc'
        exact absurd hcon' hgen
  · have hnames : [Stmt.cell c].filterMap genericName? = [] := by
      have hno : c.isGeneric = false := by
        rw [← Bool.not_eq_true, isGeneric_iff]
        exact fun h => h hcon
      simp [genericName?, hno]
    refine ⟨h.events, h.instances, h.elaborating, ?_, h.older, fun c' hc' hgen' => ?_, fun c' hc' hcon' => ?_⟩
    · rw [List.filterMap_append, hnames, List.append_nil]
      exact h.names
    · rcases List.mem_append.1 hc' with hc' | hc'
      · exact h.generic c' hc' hgen'
      · cases List.mem_singleton.1 hc'
        exact absurd hcon hgen'
    · have hfind := Table.find?_insert s.cells c.name.name c'.name.name sig
      rcases List.mem_append.1 hc' with hc' | hc'
      · refine fun hn => h.concrete c' hc' hcon' ?_
        rw [hfind] at hn
        split at hn
        · cases hn
        · exact hn
      · cases List.mem_singleton.1 hc'
        rw [hfind, if_pos rfl]
        simp

theorem declare_prepared {done : Program} {n : Nat} {x : Stmt} (h : declare (levels n) x s = .ok () t) :
    t.diagnostics = s.diagnostics ∧ (Prepared start done s → Prepared start (done ++ [x]) t) := by
  by_cases hx : ∀ c, x ≠ .cell c
  · have hsame := (declare_untouched hx).ok h
    exact ⟨hsame.diagnostics, fun hs => hs.untouched hx hsame⟩
  · obtain ⟨c, hc⟩ := not_forall.1 hx
    obtain rfl := not_not.1 hc
    refine ⟨?_, fun hs => hs.cell h⟩
    obtain ⟨-, -, ⟨-, decls, rfl⟩ | ⟨-, sig, -, rfl⟩⟩ := declareCell_ok h <;> rfl

theorem names_untouched {v : Unit} (h : p.forM (fun x => collecting (declareName x)) s = .ok v t)
    (hclean : t.diagnostics = []) : s.diagnostics = [] ∧ Untouched s t := by
  obtain ⟨hs, hlast⟩ := forM_ok (C := fun s => s.diagnostics = []) (P := fun _ => Untouched s) []
    (fun x _ u u' done hg hc => by
      rcases collecting_ok hg with hg | hd
      · have hstep := (declareName_untouched x).ok hg
        exact ⟨hstep.diagnostics ▸ hc, fun hs => trans_of Untouched hs hstep⟩
      · exact absurd hc hd) h hclean
  exact ⟨hs, hlast (refl_of Untouched s)⟩

/-- **The declarations make no copies.** -/
theorem declarations_prepared {v w : Unit}
    (hnames : p.forM (fun x => collecting (declareName x)) { start with diagnostics := [] } = .ok v s)
    (hdecls : p.forM (fun x => (do collecting (declare (fromHere (← get)) x) : CheckM Unit)) s = .ok w t)
    (hclean : t.diagnostics = []) : Prepared start p t := by
  obtain ⟨hs, hlast⟩ := forM_ok (C := fun s => s.diagnostics = []) (P := Prepared start) [] (fun x _ u u' done hg hc => by
    simp only [bind_ok, get_ok] at hg
    obtain ⟨_, _, ⟨rfl, rfl⟩, hg⟩ := hg
    rcases collecting_ok hg with hg | hd
    · obtain ⟨hdiag, hstep⟩ := declare_prepared hg
      exact ⟨hdiag ▸ hc, hstep⟩
    · exact absurd hc hd) hdecls hclean
  obtain ⟨-, hsame⟩ := names_untouched hnames hs
  exact hlast ⟨hsame.events, hsame.instances, hsame.elaborating, by rw [hsame.generics]; rfl,
    fun n _ => by rw [hsame.generics], by simp, by simp⟩

/-! ## Bodies -/

theorem elaborateTemplates_books {n : Nat} {x : Stmt} {w : Unit} (h : elaborateTemplates (levels n) x s = .ok w t) :
    Books [] s t := by
  cases x with
  | cell c =>
    simp only [elaborateTemplates] at h
    split at h
    · exact elaborateTemplate_books (levels_books n) h
    · obtain ⟨-, rfl⟩ := pure_ok.1 h
      exact .refl s
  | _ =>
    obtain ⟨-, rfl⟩ := pure_ok.1 h
    exact .refl s

/-- **The templates are all checked**, and what their checks give back is put away. -/
theorem templates_books {w : Unit}
    (h : p.forM (fun x => (do collecting (elaborateTemplates (fromHere (← get)) x) : CheckM Unit)) s = .ok w t)
    (hclean : t.diagnostics = []) : Books [] s t := by
  refine (forM_ok (C := fun s => s.diagnostics = []) (P := fun _ u => Books [] s u) [] (fun x _ u u' done hg hc => ?_) h
    hclean).2 (.refl s)
  obtain ⟨n, hg⟩ := collecting_templates_ok hg hc
  have hbooks := elaborateTemplates_books hg
  exact ⟨(hbooks hc).1, fun hb => hb.trans hbooks⟩

/-- The copies in a cell that is not generic. -/
def concreteCopies : Stmt → List Copy
  | .cell c => if c.isGeneric then [] else c.body.copies true
  | _ => []

/-- The copies in a cell that is generic. -/
def genericCopies : Stmt → List Copy
  | .cell c => if c.isGeneric then c.body.copies true else []
  | _ => []

theorem Standing.templateCopies (h : Standing s t) {n : String} (hn : s.started n = true) :
    templateCopies t.generics n = templateCopies s.generics n := by
  unfold Check.templateCopies
  rw [h.templates n hn]

/-- **What the last pass finds**: the concrete cells are known, and the templates of the generic ones have been
checked. -/
structure Checkable (p : Program) (s : Checker) : Prop where
  concrete : ∀ c, .cell c ∈ p → c.params = [] → s.cells.find? c.name.name ≠ none
  started : ∀ c, .cell c ∈ p → c.params ≠ [] → s.started c.name.name = true
  generic : ∀ c, .cell c ∈ p → c.params ≠ [] → ∃ i, s.generics.find? c.name.name = some i ∧ i.elaborated = true ∧
    i.cell.params ≠ []

theorem Checkable.step (h : Checkable p s) (hf : s.Follows t) (hs : Standing s t) : Checkable p t := by
  refine ⟨fun c hc hcon => ?_, fun c hc hgen => hs.started (h.started c hc hgen), fun c hc hgen => ?_⟩
  · obtain ⟨sig, hsig⟩ := Option.ne_none_iff_exists'.1 (h.concrete c hc hcon)
    simp [hf.kept hsig]
  · rw [hs.templates _ (h.started c hc hgen)]
    exact h.generic c hc hgen

/-- The names of the program's generic cells are known. -/
theorem Prepared.known (hp : Prepared start p s) {c : CellDef} (hc : .cell c ∈ p) (hgen : c.params ≠ []) :
    c.name.name ∈ p.filterMap genericName? ∧ c.name.name ∈ templateNames s.generics := by
  obtain ⟨g, hg, -⟩ := hp.generic c hc hgen
  exact ⟨List.mem_filterMap.2 ⟨_, hc, genericName?_eq_some.2 ⟨c, rfl, hgen, rfl⟩⟩, mem_templateNames.2 (by simp [hg])⟩

/-- The two passes before make the last one possible. -/
theorem Prepared.checkable (hp : Prepared start p s) (hrest : start.AtRest) (hsince : Since s t) (hstands : Standing s t)
    (htried : ∀ n ∈ p.filterMap genericName?, n ∈ templateNames s.generics → t.started n = true) : Checkable p t := by
  have hstarted : ∀ c, .cell c ∈ p → c.params ≠ [] → t.started c.name.name = true := fun c hc hgen =>
    htried _ (hp.known hc hgen).1 (hp.known hc hgen).2
  refine ⟨fun c hc hcon => ?_, hstarted, fun c hc hgen => ?_⟩
  · obtain ⟨sig, hsig⟩ := Option.ne_none_iff_exists'.1 (hp.concrete c hc hcon)
    simp [hsince.since.kept hsig]
  · have hnone : t.elaborating = [] := hstands.elaborating.trans (hp.elaborating.trans hrest.elaborating)
    obtain ⟨i, hi, hel⟩ := started_elaborated hnone (hstarted c hc hgen)
    obtain ⟨g, hg, hheader⟩ := hsince.since.generics.header hi
    obtain ⟨g', hg', rfl, -⟩ := hp.generic c hc hgen
    rw [hg'] at hg
    cases hg
    exact ⟨i, hi, hel, hheader.params ▸ hgen⟩

/-- **A generic cell is left as its table has it.** -/
theorem elaborateStmt_generic {n : Nat} {c : CellDef} {i : GenericInfo} {r : Stmt} (hgen : c.params ≠ [])
    (hi : s.generics.find? c.name.name = some i) (h : elaborateStmt (levels n) (.cell c) s = .ok r t) :
    r = .cell i.cell := by
  simp only [elaborateStmt, isGeneric_iff.2 hgen, if_true, bind_ok, get_ok, pure_ok] at h
  obtain ⟨_, _, ⟨rfl, rfl⟩, rfl, -⟩ := h
  rw [hi]

/-- **The last pass gives back** the copies in a concrete cell; what is left of a generic one holds the copies in its
template. -/
theorem elaborateStmt_books {n : Nat} {x r : Stmt} (h : elaborateStmt (levels n) x s = .ok r t) (hx : x ∈ p)
    (hs : Checkable p s) (hclean : t.diagnostics = []) :
    Books (concreteCopies r) s t ∧ genericCopies r = (genericName? x).elim [] (templateCopies s.generics) := by
  obtain hdiag | ⟨rfl, ⟨hne, rfl⟩ | ⟨c, g, rfl, hpar, -, -⟩⟩ | ⟨c, c', rfl, hpar, rfl, hc⟩ := elaborateStmt_ok h
  · exact absurd hclean hdiag
  · cases r with
    | cell c => exact absurd rfl (hne c)
    | _ => exact ⟨.refl s, rfl⟩
  · obtain ⟨i, hi, hel, hipar⟩ := hs.generic c hx hpar
    obtain rfl := elaborateStmt_generic hpar hi h
    have hnone : concreteCopies (.cell i.cell) = [] := if_pos (isGeneric_iff.2 hipar)
    rw [hnone]
    refine ⟨.refl s, ?_⟩
    simp [genericCopies, genericName?, templateCopies, isGeneric_iff.2 hpar, isGeneric_iff.2 hipar, hi, hel]
  · obtain ⟨hnone, -⟩ | ⟨sig, u, -, hb, rfl⟩ := concreteCell_ok hc
    · exact absurd hnone (hs.concrete c hx hpar)
    · have hno : ∀ {d : CellDef}, d.params = [] → ¬ d.isGeneric := fun hd hg => isGeneric_iff.1 hg hd
      have hall : concreteCopies (.cell c') = c'.body.copies true :=
        if_neg (hno ((cellBody_header hb).2.1.trans hpar))
      rw [hall]
      refine ⟨((Books.onPlace s _).after (cellBody_books (levels_books n) hb)).before (.onPlace u _), ?_⟩
      simp [genericCopies, genericName?, hno hpar, hno ((cellBody_header hb).2.1.trans hpar)]

/-- **The last pass keeps the books**: it gives back the concrete cells, and the generic ones as they are kept. -/
theorem bodies_books {rs : List Stmt}
    (h : p.mapM (fun x => (do elaborateStmt (fromHere (← get)) x : CheckM Stmt)) t = .ok rs fin)
    (hclean : fin.diagnostics = []) : t.diagnostics = [] ∧ (Checkable p t →
      Standing t fin ∧ Books (rs.flatMap concreteCopies) t fin ∧
        List.Forall₂ (fun x r => genericCopies r = (genericName? x).elim [] (templateCopies fin.generics)) p rs) := by
  -- a template that is left is the one in the end, so the end is looked at from every state on the way
  obtain ⟨⟨htclean, -⟩, hlast⟩ := mapM_ok (C := fun u => u.diagnostics = [] ∧ Standing u fin)
    (P := fun rs u => Checkable p u ∧ Standing t u ∧ Books (rs.flatMap concreteCopies) t u)
    (R := fun x r => genericCopies r = (genericName? x).elim [] (templateCopies fin.generics)) []
    (fun x hx u r u' done h ⟨hc, hon⟩ => by
      obtain ⟨n, h⟩ := elaborateStmt_here h
      obtain ⟨huclean, hfollows⟩ := (elaborateStmt_steady h hc).1 hc
      have hstep : Standing u u' := (elaborateStmt_lasting n x).ok h
      have hafter : Standing u fin := trans_of Standing hstep hon
      refine ⟨⟨huclean, hafter⟩, fun ⟨hu, htu, hbooks⟩ => ?_⟩
      obtain ⟨hgives, hleft⟩ := elaborateStmt_books h hx hu hc
      refine ⟨⟨hu.step hfollows hstep, trans_of Standing htu hstep, ?_⟩, ?_⟩
      · rw [List.flatMap_append, List.flatMap_singleton]
        exact hbooks.trans hgives
      · rw [hleft]
        cases hname : genericName? x with
        | none => rfl
        | some m =>
          obtain ⟨c, rfl, hgen, rfl⟩ := genericName?_eq_some.1 hname
          exact (hafter.templateCopies (hu.started c hx hgen)).symm) h ⟨hclean, refl_of Standing fin⟩
  refine ⟨htclean, fun ht => ?_⟩
  obtain ⟨⟨-, hon, hbooks⟩, hall⟩ := hlast ⟨ht, refl_of Standing t, .refl t⟩
  exact ⟨hon, hbooks, hall⟩

/-! ## Programs -/

theorem flatMap_filterMap {α β γ : Type} (f : α → Option β) (g : β → List γ) : ∀ xs : List α,
    (xs.filterMap f).flatMap g = xs.flatMap fun x => (f x).elim [] g
  | [] => rfl
  | x :: xs => by
    rw [List.flatMap_cons, ← flatMap_filterMap f g xs, List.filterMap_cons]
    cases f x <;> rfl

/-- The copies in a program, by its declarations and its instances. -/
theorem copies_eq (rs : List Stmt) (is : List CellDef) : (CheckedProgram.mk rs is).copies =
    rs.flatMap concreteCopies ++ is.flatMap (·.body.copies true) ++ rs.flatMap genericCopies := by
  simp only [CheckedProgram.copies, CheckedProgram.cells, CheckedProgram.templates, List.flatMap_append,
    flatMap_filterMap]
  refine congrArg₂ _ (congrArg (· ++ _) (List.flatMap_congr fun x _ => ?_)) (List.flatMap_congr fun x _ => ?_)
  · cases x with
    | cell c =>
      simp only [concreteCopies]
      split <;> rfl
    | _ => rfl
  · cases x with
    | cell c =>
      simp only [genericCopies]
      split <;> rfl
    | _ => rfl

/-- What is left of the generic cells is what the templates hold. -/
theorem generic_copies {rs : List Stmt}
    (h : List.Forall₂ (fun x r => genericCopies r = (genericName? x).elim [] (templateCopies fin.generics)) p rs) :
    rs.flatMap genericCopies = (p.filterMap genericName?).flatMap (templateCopies fin.generics) := by
  rw [flatMap_filterMap]
  induction h with
  | nil => rfl
  | cons hr _ ih => rw [List.flatMap_cons, List.flatMap_cons, hr, ih]

/-- What was known before has been checked before. -/
theorem Prepared.started (hp : Prepared start p s) (hrest : start.AtRest) {n : String}
    (hn : n ∈ templateNames start.generics) : s.started n = true := by
  obtain ⟨g, hg⟩ := Option.ne_none_iff_exists'.1 (mem_templateNames.1 hn)
  unfold Checker.started
  rw [hp.older n hn, hg]
  simp [hrest.elaborated hg]

theorem tally_perm {k : Option (String × Span × Nat)} {cs ds : List Copy} (h : cs.Perm ds) : tally k cs = tally k ds :=
  (h.map Copy.news).count_eq k

/-- **What a check has put away in the end**, besides what was there before: its instances, and the templates of its
generic cells. -/
theorem Prepared.stored (hp : Prepared start p s) (hrest : start.AtRest) (hstands : Standing s t)
    (k : Option (String × Span × Nat)) :
    tally k (stored t) + tally k (start.instances.flatMap (·.body.copies true)) = tally k (stored s) +
      tally k (t.instances.flatMap (·.body.copies true) ++ (p.filterMap genericName?).flatMap (templateCopies t.generics)) := by
  have hfresh : (p.filterMap genericName?).reverse.flatMap (templateCopies s.generics) = [] := by
    refine List.flatMap_eq_nil_iff.2 fun n hn => ?_
    obtain ⟨x, hx, hname⟩ := List.mem_filterMap.1 (List.mem_reverse.1 hn)
    obtain ⟨c, rfl, hgen, rfl⟩ := genericName?_eq_some.1 hname
    obtain ⟨g, hg, -, hun⟩ := hp.generic c hx hgen
    simp [templateCopies, hg, hun]
  have hold : (templateNames start.generics).flatMap (templateCopies t.generics) =
      (templateNames start.generics).flatMap (templateCopies s.generics) :=
    List.flatMap_congr fun n hn => hstands.templateCopies (hp.started hrest hn)
  have hnew := tally_perm (k := k)
    ((List.reverse_perm (p.filterMap genericName?)).flatMap_right (templateCopies t.generics))
  unfold Check.stored
  rw [hstands.names, hp.names, List.flatMap_append, List.flatMap_append, hfresh, hold, hp.instances]
  simp only [tally_append, hnew, List.nil_append]
  omega

/-- **What was broadcast of copies is what stands in the program**, in its cells and in its templates.  The checker is at
rest, as it is after any other programs (`History.atRest`); instances that were left by one that failed go to the one that
passes. -/
theorem copies_broadcast {checked : CheckedProgram} {last : Checker} (hs : start.AtRest)
    (h : Check.program p start = .ok checked last) :
    (last.heard.map some ++ (start.instances.flatMap (·.body.copies true)).map Copy.news).Perm
      (checked.copies.map Copy.news ++ start.heard.map some) := by
  obtain ⟨named, declared, t, u, v, w, rs, fin, hnamed, hdeclared, ht, hfin, hclean, rfl, rfl⟩ := program_passes h
  have hfirst : declared.diagnostics = [] := (bodies_since ht hfin hclean).1
  have hp : Prepared start p declared := declarations_prepared hnamed hdeclared hfirst
  obtain ⟨htclean, hlast⟩ := bodies_books hfin hclean
  obtain ⟨hstands, htried⟩ := templates_tried ht
  obtain ⟨hon, hbodies, hall⟩ := hlast (hp.checkable hs (templates_since ht htclean).2 hstands htried)
  refine List.perm_iff_count.2 fun k => ?_
  have hbalance := (((templates_books ht htclean).after hbodies) hclean).2 k
  have hstored := hp.stored hs (trans_of Standing hstands hon) k
  have hheard : declared.heard = start.heard := congrArg (List.filterMap Event.copied?) hp.events
  have hinstances := tally_perm (k := k) (fin.instances.reverse_perm.flatMap_right (·.body.copies true))
  rw [copies_eq, generic_copies hall, List.count_append, List.count_append]
  rw [hheard] at hbalance
  show (fin.heard.map some).count k + tally k _ = tally k _ + _
  simp only [tally_append, hinstances] at hbalance hstored ⊢
  omega

/-- A generic cell that is called, with an expansion in it. -/
def copiesInTemplate : String :=
  "cell f<T>(x: T):\n    expand val y in \x7bx\x7d:\n        print(y)\n\ncell main():\n    f(1)\n"

/-- One copy is made when the template is checked, and one when its instance is. -/
theorem copies_broadcast_template : ∃ p checked last, Source.program copiesInTemplate none = .ok p ∧
    Check.program p (.new .standard) = .ok checked last ∧ last.heard.length = 2 ∧
      (last.heard.map some).Perm (checked.copies.map Copy.news) := by
  have htwo : accepts copiesInTemplate (fun _ _ last => last.heard.length == 2) = true := by decide +kernel
  obtain ⟨p, checked, last, hp, h, hlen⟩ := of_accepts htwo
  have hperm : (last.heard.map some ++ []).Perm (checked.copies.map Copy.news ++ []) :=
    copies_broadcast (Checker.atRest_new .standard) h
  rw [List.append_nil, List.append_nil] at hperm
  exact ⟨p, checked, last, hp, h, beq_iff_eq.1 hlen, hperm⟩

/-- An expansion in an expansion. -/
def nestedCopies : String :=
  "cell main():\n    expand val x in \x7b1, 2\x7d:\n        expand val y in \x7b'a'\x7d:\n            print(y)\n"

/-- **Not all that is broadcast runs**: what a check of the body of an expansion unrolls is broadcast and does not. -/
theorem broadcast_not_running : ∃ p checked last, Source.program nestedCopies none = .ok p ∧
    Check.program p (.new .standard) = .ok checked last ∧
      ¬ (last.heard.map some).Perm (checked.runningCopies.map Copy.news) := by
  have hmore : accepts nestedCopies
      (fun _ checked last => last.heard.length != checked.runningCopies.length) = true := by decide +kernel
  obtain ⟨p, checked, last, hp, h, hlen⟩ := of_accepts hmore
  refine ⟨p, checked, last, hp, h, fun hperm => ?_⟩
  have hsame := hperm.length_eq
  rw [List.length_map, List.length_map] at hsame
  exact bne_iff_ne.1 hlen hsame

end Check
end Unroll
