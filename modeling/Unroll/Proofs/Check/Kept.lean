import Unroll.Proofs.Check.Unwinding
import Unroll.Proofs.Check.Whole
/-!
# The cells that a check keeps

A check keeps cells of two kinds: the generic ones, as they are written and then as they are checked, and the instances
made of them.  What is to hold of them is a law.  It holds of everything that is kept, and so of what a program leaves
behind, where it holds of what is written and survives the two checks that make a new one: that of a template, and that
of an instance of it.
-/
namespace Unroll
namespace Check

open CheckM Outcome Checker

/-- **A law of the cells that are kept**, of generic ones and of instances, under a configuration. -/
class CellLaw (k : Config) (G I : CellDef → Prop) : Prop where
  template : ∀ {n name sig c s t} {g : GenericInfo}, s.config = k → G g.cell →
    cellBody (levels n) g.cell sig (underWay name g s) = .ok c t → G c
  made : ∀ {n name args fr sig concrete c s t} {g : GenericInfo}, s.config = k → G g.cell →
    Subst.cell (ArgLevels.bind [] g.params.names args) g.cell name = .ok concrete →
    cellBody (levels n) concrete sig (knowing fr name sig s) = .ok c t → I c

/-- Everything that is kept obeys the law. -/
structure Kept (k : Config) (G I : CellDef → Prop) (s : Checker) : Prop where
  config : s.config = k
  templates : ∀ {n g}, s.generics.find? n = some g → G g.cell
  instances : ∀ c ∈ s.instances, I c

/-- The second state keeps what obeys the law, if the first does. -/
def Keeping (k : Config) (G I : CellDef → Prop) (s t : Checker) : Prop := Kept k G I s → Kept k G I t

variable {k : Config} {G I : CellDef → Prop} {s t : Checker}

theorem Kept.of_same (h : Kept k G I s) (hc : t.config = s.config) (hg : t.generics = s.generics)
    (hi : t.instances = s.instances) : Kept k G I t :=
  ⟨hc.trans h.config, fun hf => h.templates (by rwa [hg] at hf), fun c hc => h.instances c (by rwa [hi] at hc)⟩

theorem Kept.modifyGeneric (h : Kept k G I s) {name : String} {f : GenericInfo → GenericInfo}
    (hf : ∀ g, G g.cell → G (f g).cell) : Kept k G I (modifyGeneric name f s) := by
  refine ⟨(modifyGeneric_config ..).trans h.config, fun hg => ?_, fun c hc => h.instances c ?_⟩
  · obtain ⟨g, hfound, rfl | ⟨-, rfl⟩⟩ := modifyGeneric_find hg
    · exact h.templates hfound
    · exact hf g (h.templates hfound)
  · unfold Check.modifyGeneric at hc
    split at hc <;> exact hc

instance : IsPreorder Checker (Keeping k G I) where
  refl _ h := h
  trans _ _ _ h h' hs := h' (h hs)

theorem Keeping.tried {name : String} {g : GenericInfo} (h : Keeping k G I (underWay name g s) t) :
    Keeping k G I s (tried name s t) := by
  intro hs
  have ht := h (hs.of_same rfl rfl rfl)
  refine Kept.modifyGeneric (f := fun g => { g with elaborated := true }) (ht.of_same ?_ ?_ ?_) fun _ hg => hg
  all_goals rfl

variable [CellLaw k G I]

instance : Lasting (Keeping k G I) where
  onPlace _ _ h := h.of_same rfl rfl rfl
  event _ h := h.of_same rfl rfl rfl
  report _ _ h := h.of_same rfl rfl rfl
  record _ _ _ h := h.of_same rfl rfl rfl
  within _ h hs := (h (hs.of_same rfl rfl rfl)).of_same rfl rfl rfl
  tried _ _ h := h.tried
  elaborated hg _ hc h hs := (h.tried hs).modifyGeneric fun _ _ => CellLaw.template (I := I) hs.config (hs.templates hg) hc
  instantiated _ hst hg _ hsub _ hc h hs := by
    have ht := hst hs
    have hv := h (ht.of_same rfl rfl rfl)
    refine ⟨hv.config, hv.templates, fun c' hc' => ?_⟩
    rcases List.mem_cons.1 hc' with rfl | hc'
    · exact CellLaw.made ht.config (ht.templates hg) hsub hc
    · exact hv.instances c' hc'
  forgotten _ hst _ h hs := by
    have ht := hst hs
    rcases h with rfl | ⟨_, -, h⟩
    · exact ht.of_same rfl rfl rfl
    · exact (h (ht.of_same rfl rfl rfl)).of_same rfl rfl rfl

/-! ## Programs -/

theorem checkTypeName_always {R : Checker → Checker → Prop} [IsPreorder Checker R] (id : Ident) :
    Always R (checkTypeName id) := by
  refine .bind .get fun s => ?_
  split
  · exact .fail _ _
  · exact .pure _

section

variable {R : Checker → Checker → Prop} [IsPreorder Checker R]

/-- **What the first pass does to a checker**, however it ends. -/
theorem declareName_always (htrait : ∀ s ts, R s { s with traits := ts }) (hrecord : ∀ s n fs, R s (s.addRecord n fs))
    (hplace : ∀ (s : Checker) (f : List (Table String) → List (Table String)),
      R s (s.onPlace fun p => { p with types := f p.types })) (x : Stmt) : Always R (declareName x) := by
  cases x with
  | trait sp id =>
    refine .bind .get fun s => ?_
    dsimp only
    split
    · exact .fail_bind
    · exact .modify fun s => htrait s _
  | record r =>
    exact .bind (checkTypeName_always _) fun _ => .bind (.modify fun s => hrecord s _ _) fun _ =>
      .onPlace fun s => hplace s (addGlobal r.name.name)
  | typeAlias _ _ _ _ | cell _ => exact .pure _
  | _ => exact .fail _ _

/-- **What the second pass does to a checker**, however it ends: what it makes known it has resolved before. -/
theorem declare_always {n : Nat} {x : Stmt} (hrecord : ∀ s n fs, R s (s.addRecord n fs))
    (halias : ∀ (s : Checker) m i, (∀ t, i = .plain t → ∃ w, typeRef (levels n) w s = .ok t s) →
      R s { s with aliases := s.aliases.insert m i })
    (htemplate : ∀ c, x = .cell c → c.params ≠ [] → ∀ (s r : Checker) decls, paramDecls r [] c.params = .ok decls →
      R s { s with generics := s.generics.insert c.name.name ⟨c, ⟨0, decls⟩, false⟩ })
    (hcell : ∀ c, x = .cell c → ∀ (s : Checker) sig, signature (levels n) c s = .ok sig s →
      R s { s with cells := s.cells.insert c.name.name sig }) :
    Always R (declare (levels n) x) := by
  cases x with
  | record r =>
    exact .bind (.of_eq (recordFields_reads (typeRefAt_reads n) _ _ _)) fun _ => .modify fun s => hrecord s _ _
  | typeAlias _ id ps target =>
    refine .bind (checkTypeName_always id) fun _ => ?_
    dsimp only
    split
    · refine .after (.map (typeRef_reads (typeRefAt_reads n) target)) fun s i hi => halias s _ i fun t ht => ?_
      obtain ⟨type, htype, rfl⟩ := map_ok.1 hi
      cases ht
      exact ⟨target, htype⟩
    · exact .bind .get fun s => .bind (.ofExcept _) fun decls => .modify fun s => halias s _ _ fun t ht => by cases ht
  | cell c =>
    simp only [declare, declareCell]
    split
    · exact .fail_bind
    refine .bind .get fun s => ?_
    split
    · exact .fail_bind
    split
    · rename_i hgen
      refine .after (.ofExcept _) fun t decls hdecls => htemplate c rfl (isGeneric_iff.1 hgen) t s decls ?_
      exact (ofExcept_ok.1 hdecls).1
    · exact .after (signature_reads (typeRefAt_reads n) c) fun s sig hsig => hcell c rfl s sig hsig
  | _ => exact .pure _

end

theorem collecting_lasting {T : Checker → Checker → Prop} [Lasting T] {x : CheckM Unit} (hx : Always T x) :
    Always T (collecting x) :=
  .tryCatch hx fun d => .modify fun s => Lasting.report s d

omit [CellLaw k G I] in
theorem declareName_keeping (x : Stmt) : Always (Keeping k G I) (declareName x) :=
  declareName_always (fun _ _ h => h.of_same rfl rfl rfl) (fun _ _ _ h => h.of_same rfl rfl rfl)
    (fun _ _ h => h.of_same rfl rfl rfl) x

omit [CellLaw k G I] in
/-- **A generic cell is kept as it is written.** -/
theorem declare_keeping {n : Nat} {x : Stmt} (hx : ∀ c, x = .cell c → G c) :
    Always (Keeping k G I) (declare (levels n) x) := by
  refine declare_always (fun _ _ _ h => h.of_same rfl rfl rfl) (fun _ _ _ _ h => h.of_same rfl rfl rfl)
    (fun c hc _ s _ decls _ hs => ⟨hs.config, fun {m g} hf => ?_, hs.instances⟩) fun _ _ _ _ _ h => h.of_same rfl rfl rfl
  simp only [Table.find?_insert] at hf
  split at hf
  · cases hf
    exact hx c hc
  · exact hs.templates hf

section

variable {T : Checker → Checker → Prop} [Lasting T]

theorem elaborateTemplates_keeps (n : Nat) (x : Stmt) : Always (Keeps Eq T) (elaborateTemplates (levels n) x) := by
  cases x with
  | cell c =>
    simp only [elaborateTemplates]
    split
    · exact elaborateTemplate_keeps (stmtAt_keeps n) _
    · exact .pure _
  | _ => exact .pure _

theorem elaborateTemplates_lasting (n : Nat) (x : Stmt) : Always T (elaborateTemplates (levels n) x) :=
  (elaborateTemplates_keeps n x).mono Keeps.rest

theorem concreteCell_keeps (n : Nat) (c : CellDef) : Always (Keeps Eq T) (concreteCell (levels n) c) := by
  refine .bind .get fun s => ?_
  split
  · exact .pure _
  · intro s
    rw [ends_apart]
    refine ⟨rfl, trans_of T (Lasting.onPlace s outer) (trans_of T ?_ (Lasting.onPlace _ _))⟩
    exact cellBody_lasting (stmtAt_keeps n) _ _ _

theorem elaborateStmt_keeps (n : Nat) (x : Stmt) : Always (Keeps Eq T) (elaborateStmt (levels n) x) := by
  cases x with
  | cell c =>
    simp only [elaborateStmt]
    split
    · exact .bind .get fun s => .pure _
    · refine .tryCatch (.map (concreteCell_keeps n c)) fun d => ?_
      exact .bind (.modify fun s => ⟨rfl, Lasting.report s d⟩) fun _ => .pure _
  | _ => exact .pure _

theorem elaborateStmt_lasting (n : Nat) (x : Stmt) : Always T (elaborateStmt (levels n) x) :=
  (elaborateStmt_keeps n x).mono Keeps.rest

end

/-- A concrete cell comes out of the check of one that is written, outside of all templates. -/
def Checked (k : Config) (p : Program) (c : CellDef) : Prop :=
  ∃ c₀ n sig s t, .cell c₀ ∈ p ∧ c₀.params = [] ∧ s.config = k ∧ s.place.templates = [] ∧
    cellBody (levels n) c₀ sig s = .ok c t

section

variable {globals : Table String} {p : Program} {start : Checker} {checked : CheckedProgram} {last : Checker}

omit [CellLaw k G I] in
/-- A concrete cell has been checked; what is left of a generic one has parameters. -/
theorem elaborateStmt_checked (hd : Declared globals p start) (hs : Since start s) (hc : s.config = k) {n : Nat}
    {x r : Stmt} (hx : x ∈ p) (h : elaborateStmt (levels n) x s = .ok r t) (hclean : t.diagnostics = []) :
    ∀ c, r = .cell c → c.params = [] → Checked k p c := by
  rintro c rfl hpar
  obtain hdiag | ⟨rfl, ⟨hne, rfl⟩ | ⟨c₀, g, rfl, hgen, hr, hg⟩⟩ | ⟨c₀, c', rfl, hcon, hr, hcell⟩ := elaborateStmt_ok h
  · exact absurd hclean hdiag
  · exact absurd rfl (hne c)
  · cases hr
    obtain rfl | ⟨i, hi, rfl⟩ := hg
    · exact absurd hpar hgen
    · obtain ⟨i₀, hi₀, hh⟩ := hs.since.generics.header hi
      exact absurd (hh.params ▸ hpar) (hd.templates hi₀)
  · cases hr
    obtain ⟨sig, hsig, -⟩ := hs.signed hd hx hcon
    obtain ⟨hnone, -⟩ | ⟨sig', u, -, hb, -⟩ := concreteCell_ok hcell
    · rw [hsig] at hnone
      cases hnone
    · exact ⟨c₀, n, sig', s.onPlace outer, _, hx, hcon, hc, rfl, hb⟩

/-- **What a program leaves behind**: its concrete cells have been checked, and its instances obey the law. -/
theorem program_kept (hw : ∀ x ∈ p, x.Written) (hp : ∀ c, .cell c ∈ p → G c)
    (h : Check.program p (.new k) = .ok checked last) :
    (∀ c, .cell c ∈ checked.program → c.params = [] → Checked k p c) ∧ ∀ c ∈ checked.instances, I c := by
  obtain ⟨s, start, t, u, v, w, stmts, fin, hs, hstart, ht, hfin, hclean, rfl, rfl⟩ := program_ok h
  obtain ⟨globals, hd⟩ := declarations_ok hw hs hstart (bodies_since ht hfin hclean).1
  have hnew : Kept k G I (.new k) := ⟨rfl, (by cases ·), fun c hc => by cases hc⟩
  have hnames := (Always.forM p fun x _ => collecting_lasting (T := Keeping k G I) (declareName_keeping x)).ok hs
  have hdecls := (Always.forM p fun x hx => Always.bind .get fun s => collecting_lasting (T := Keeping k G I)
    (declare_keeping (n := s.config.maxInstantiationDepth + s.generics.length + 1) fun c hc => hp c (hc ▸ hx))).ok hstart
  have htemplates := (Always.forM p fun x _ => Always.bind .get fun s => collecting_lasting (T := Keeping k G I)
    (elaborateTemplates_lasting (s.config.maxInstantiationDepth + s.generics.length + 1) x)).ok ht
  obtain ⟨htclean, hlast⟩ := mapM_ok (C := fun s => s.diagnostics = []) (P := fun _ s => Since start s ∧ Kept k G I s)
    (R := fun _ r => ∀ c, r = .cell c → c.params = [] → Checked k p c) [] (fun x hx s r s' done h hc => by
      obtain ⟨n, h⟩ := elaborateStmt_here h
      have hst := elaborateStmt_steady h hc
      refine ⟨(hst.1 hc).1, fun ⟨hsince, hkept⟩ => ⟨⟨hsince.steady hst hc, ?_⟩, ?_⟩⟩
      · exact (elaborateStmt_lasting (T := Keeping k G I) n x).ok h hkept
      · exact elaborateStmt_checked hd hsince hkept.config hx h hc) hfin hclean
  obtain ⟨⟨-, hkept⟩, hall⟩ := hlast ⟨(templates_since ht htclean).2, htemplates (hdecls (hnames hnew))⟩
  refine ⟨fun c hc => ?_, fun c hc => hkept.instances c (List.mem_reverse.1 hc)⟩
  obtain ⟨x, -, hchecked⟩ := forall₂_mem_right hall hc
  exact hchecked c rfl

end

end Check
end Unroll
