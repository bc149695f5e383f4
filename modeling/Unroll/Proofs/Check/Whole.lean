import Unroll.Proofs.Check.Passes
import Unroll.Proofs.Unplaced
/-!
# What a program that passes consists of

The last two passes look at bodies.  Templates come first, for what they declare; then each concrete cell is elaborated.
What cells are typed against is what the program declares in the end, and a program that passes has met no error on the
way, so that everything declared is still there.  Its instances were all broadcast, and none of them stands more than
twice.
-/
namespace Unroll
namespace Check

open CheckM Outcome Checker

variable {globals : Table String} {fin start : Checker} {p : Program} {deeper : Deeper} {s s' : Checker}

/-! ## What has been declared lasts -/

theorem Declared.fresh (h : Declared globals p start) : start.Fresh := by
  intro base k _
  cases hf : start.records.find? (localName base k) with
  | none => rfl
  | some r =>
    obtain ⟨⟨q, hq, hn⟩, -⟩ := h.records hf
    have hw := h.worded q hq
    rw [hn] at hw
    exact absurd (quote_mem_localName base k) (hw.notMem (by decide))

theorem Declared.closed (h : Declared globals p start) (hext : start.Extends fin) {n : String} (hn : Global globals n) :
    ClosedRecord fin.records n := by
  refine ⟨Global globals, fun m hm => ?_, hn⟩
  obtain ⟨r, hr⟩ := Option.ne_none_iff_exists'.1 (h.known hm)
  exact ⟨r, hext.records h.fresh hr, (h.records hr).2⟩

/-- **The declarations of a program are in order**, where its instances are. -/
theorem Declared.final (h : Declared globals p start) (hext : start.Extends fin) (hclean : fin.diagnostics = [])
    (honce : (fin.instances.map (·.name.name)).Nodup)
    (hspelled : ∀ c ∈ fin.instances, ∀ n ∈ c.typeNames, Spelled (ClosedRecord fin.records) fin n) :
    Final globals fin where
  clean := hclean
  once := honce
  spelled := hspelled
  types := fun q hq => h.closed hext ⟨q, hq, rfl⟩
  plain := fun hf => (h.plain (by rwa [hext.aliases] at hf)).mono fun n hn => h.closed hext hn
  generic := fun hf => by
    rw [hext.aliases] at hf
    exact ⟨(h.generic hf).1, fun m hm => ((h.generic hf).2 m hm).notMem (by decide)⟩
  unquoted := fun hf => by
    rw [hext.aliases] at hf
    exact (h.aliased hf).notMem (by decide)

theorem Declared.healthy (h : Declared globals p start) (hext : start.Extends fin) : Healthy globals fin start where
  fresh := h.fresh
  sigs := fun hf => by
    obtain ⟨-, hset⟩ := h.cells hf
    exact ⟨fun q hq => (hset.1 q hq).mono fun n hn => h.closed hext hn, hset.2.mono fun n hn => h.closed hext hn⟩
  instances := fun c hc => by
    rw [h.instances] at hc
    cases hc

/-! ## Bodies -/

theorem concreteCell_ok {c c' : CellDef} (h : concreteCell deeper c s = .ok c' s') :
    s.cells.find? c.name.name = none ∧ s = s' ∨ ∃ sig t, s.cells.find? c.name.name = some sig ∧
      cellBody deeper c sig (s.onPlace outer) = .ok c' t ∧ s' = t.onPlace fun _ => s.place := by
  simp only [concreteCell, bind_ok, get_ok] at h
  obtain ⟨_, _, ⟨rfl, rfl⟩, h⟩ := h
  cases hc : s.cells.find? c.name.name with
  | none =>
    simp only [hc, pure_ok] at h
    exact .inl ⟨rfl, h.2⟩
  | some sig =>
    simp only [hc, apart_ok] at h
    obtain ⟨t, hb, rfl⟩ := h
    exact .inr ⟨sig, t, rfl, hb, rfl⟩

/-- A generic cell is left to its table, a concrete one is elaborated. -/
theorem elaborateStmt_ok {x r : Stmt} (h : elaborateStmt deeper x s = .ok r s') :
    s'.diagnostics ≠ [] ∨ s = s' ∧ ((∀ c, x ≠ .cell c) ∧ r = x ∨ ∃ c g, x = .cell c ∧ c.params ≠ [] ∧ r = .cell g ∧
        (g = c ∨ ∃ i, s.generics.find? c.name.name = some i ∧ g = i.cell)) ∨
      ∃ c c', x = .cell c ∧ c.params = [] ∧ r = .cell c' ∧ concreteCell deeper c s = .ok c' s' := by
  cases x with
  | cell c =>
    simp only [elaborateStmt] at h
    split at h
    · rename_i hg
      simp only [bind_ok, get_ok, pure_ok] at h
      obtain ⟨_, _, ⟨rfl, rfl⟩, rfl, rfl⟩ := h
      refine .inr (.inl ⟨rfl, .inr ⟨c, _, rfl, isGeneric_iff.1 hg, rfl, ?_⟩⟩)
      cases hf : s.generics.find? c.name.name with
      | none => exact .inl rfl
      | some i => exact .inr ⟨i, rfl, rfl⟩
    · rename_i hg
      simp only [tryCatch_ok, map_ok, bind_ok, modify_ok, pure_ok] at h
      rcases h with ⟨c', hc, rfl⟩ | ⟨d, t, -, _, _, rfl, -, rfl⟩
      · exact .inr (.inr ⟨c, c', rfl, by_contra fun hne => hg (isGeneric_iff.2 hne), rfl, hc⟩)
      · exact .inl (by simp [report])
  | _ =>
    simp only [elaborateStmt, pure_ok] at h
    obtain ⟨rfl, rfl⟩ := h
    exact .inr (.inl ⟨rfl, .inl ⟨by simp, rfl⟩⟩)

theorem concreteCell_steady (hd : deeper.Orderly) {c c' : CellDef} (h : concreteCell deeper c s = .ok c' s') :
    Steady s s' := by
  obtain ⟨-, rfl⟩ | ⟨sig, t, -, hb, rfl⟩ := concreteCell_ok h
  · exact .refl s
  · exact ⟨((Onward.onPlace s _).trans (cellBody_onward hd hb)).trans (.onPlace t _), rfl⟩

/-- **A concrete cell that has been elaborated**: it says what it said, every copy in it is faithful, and it can run. -/
structure Elaborated (globals : Table String) (fin : Checker) (c c' : CellDef) : Prop where
  name : c'.name = c.name
  params : c'.params = c.params
  args : c'.args = c.args
  outline : Stmt.outlines c'.body.stmts = Stmt.outlines c.body.stmts
  faithful : Stmt.AllFaithful c'.body.stmts
  typed : ∃ sig, fin.cells.find? c.name.name = some sig ∧ CellTyped (globalsOf fin) globals c' sig

theorem cellStmts_outline (ho : deeper.Orderly) (hd : deeper.Outlines) : ∀ {xs : List Stmt} {s s' : Checker}
    {r : List Stmt}, cellStmts deeper xs s = .ok r s' → s'.diagnostics = [] → Stmt.AllWritten (Stmt.outlines xs) →
      Stmt.outlines r = Stmt.outlines xs ∧ Stmt.AllFaithful r
  | [], s, s', r, h, _, _ => by
    simp only [cellStmts, pure_ok] at h
    obtain ⟨rfl, -⟩ := h
    exact ⟨rfl, trivial⟩
  | x :: xs, s, s', r, h, hclean, hw => by
    obtain ⟨x', t, rest, hx, hxs, rfl⟩ | ⟨t, rest, ht, hxs⟩ := cellStmts_cons_ok h
    · obtain ⟨hout, hf⟩ := hd hx hw.1
      obtain ⟨houts, hfs⟩ := cellStmts_outline ho hd hxs hclean hw.2
      exact ⟨by simp only [Stmt.outlines, hout, houts], hf, hfs⟩
    · exact absurd (cellStmts_onward ho hxs hclean).1 ht

theorem concreteCell_elaborated (hfin : Final globals fin) {n : Nat} {c c' : CellDef} (hw : c.Written)
    (h : concreteCell (levels n) c s = .ok c' s') (hr : Reaches fin s') (hs : Healthy globals fin s)
    (hplace : s.place = .outside globals) (hsigned : ∃ sig, s.cells.find? c.name.name = some sig ∧
      c.args.map (·.name.name) = sig.params.map (·.name)) :
    Healthy globals fin s' ∧ Elaborated globals fin c c' := by
  obtain ⟨-, -, -, hbody⟩ := hw.parts
  obtain ⟨sg, hsg, hnames⟩ := hsigned
  obtain ⟨hnone, -⟩ | ⟨sig, t, hsig, hb, rfl⟩ := concreteCell_ok h
  · rw [hsg] at hnone
    cases hnone
  rw [hsg] at hsig
  cases hsig
  have hrt : Reaches fin t := hr.before (.onPlace t _)
  have houter : (s.onPlace outer).place = .outside globals := by
    show outer s.place = _
    rw [hplace]
    rfl
  obtain ⟨ht, htyped⟩ := cellBody_sound hfin (levels_sound hfin n) hb hrt (hs.onPlace _) (by rw [houter]; rfl) hnames
  obtain ⟨hname, hparams, hargs, -⟩ := cellBody_header hb
  obtain ⟨u, ss, -, hss, hc'⟩ := cellBody_ok hb
  obtain ⟨hout, hf⟩ := cellStmts_outline (levels_orderly n) (levels_outline n) hss hrt.1 hbody.outlines
  subst hc'
  refine ⟨ht.onPlace _, hname, hparams, hargs, hout, hf, sg, ?_, htyped houter (hs.sigs hsg) fun m hm => ?_⟩
  · exact hr.2.kept (((concreteCell_steady (levels_orderly n) h).1 hr.1).2.kept hsg)
  · refine spelled_worded (Stmt.allFaithful_names (Q := Worded) hf ?_ m hm)
    rw [hout]
    exact Stmt.AllWritten.typeNames hbody

/-! ## The last two passes -/

/-- What the last pass leaves for a declaration. -/
def Leaves₄ (globals : Table String) (fin : Checker) (x r : Stmt) : Prop :=
  (∀ c, x ≠ .cell c) ∧ r = x ∨ (∃ c g, x = .cell c ∧ c.params ≠ [] ∧ r = .cell g ∧ g.params ≠ []) ∨
    ∃ c c', x = .cell c ∧ c.params = [] ∧ r = .cell c' ∧ Elaborated globals fin c c'

theorem elaborateTemplates_steady {n : Nat} {x : Stmt} (h : elaborateTemplates (levels n) x s = .ok () s') : Steady s s' := by
  cases x with
  | cell c =>
    simp only [elaborateTemplates] at h
    split at h
    · exact elaborateTemplate_steady (levels_orderly n) h
    · obtain ⟨-, rfl⟩ := pure_ok.1 h
      exact .refl s
  | _ =>
    obtain ⟨-, rfl⟩ := pure_ok.1 h
    exact .refl s

theorem elaborateTemplates_healthy (hfin : Final globals fin) {n : Nat} {x : Stmt}
    (h : elaborateTemplates (levels n) x s = .ok () s') (hr : Reaches fin s') (hs : Healthy globals fin s)
    (hplace : s.place = .outside globals) : Healthy globals fin s' := by
  cases x with
  | cell c =>
    simp only [elaborateTemplates] at h
    split at h
    · exact elaborateTemplate_sound hfin (levels_sound hfin n) h hr hs (by rw [hplace]; rfl)
    · obtain ⟨-, rfl⟩ := pure_ok.1 h
      exact hs
  | _ =>
    obtain ⟨-, rfl⟩ := pure_ok.1 h
    exact hs

/-- Where a pass over bodies stands: everything that was declared is still there. -/
structure Since (start s : Checker) : Prop where
  since : start.Follows s
  place : s.place = start.place

theorem Since.steady (h : Since start s) (hs : Steady s s') (hclean : s'.diagnostics = []) : Since start s' :=
  ⟨h.since.trans (hs.1 hclean).2, hs.2.trans h.place⟩

theorem Since.signed (h : Since start s) (hd : Declared globals p start) {c : CellDef} (hc : .cell c ∈ p)
    (hpar : c.params = []) : ∃ sig, s.cells.find? c.name.name = some sig ∧
      c.args.map (·.name.name) = sig.params.map (·.name) := by
  obtain ⟨sig, hsig, hnames⟩ := hd.signed c hc hpar
  exact ⟨sig, h.since.kept hsig, hnames⟩

theorem elaborateStmt_steady {n : Nat} {x r : Stmt} (h : elaborateStmt (levels n) x s = .ok r s')
    (hclean : s'.diagnostics = []) : Steady s s' := by
  obtain hd | ⟨rfl, -⟩ | ⟨c, c', -, -, -, hc⟩ := elaborateStmt_ok h
  · exact absurd hclean hd
  · exact .refl s
  · exact concreteCell_steady (levels_orderly n) hc

theorem collecting_templates_ok {x : Stmt}
    (h : (do collecting (elaborateTemplates (fromHere (← get)) x) : CheckM Unit) s = .ok () s')
    (hclean : s'.diagnostics = []) : ∃ n, elaborateTemplates (levels n) x s = .ok () s' := by
  simp only [bind_ok, get_ok] at h
  obtain ⟨_, _, ⟨rfl, rfl⟩, h⟩ := h
  exact ⟨_, (collecting_ok h).resolve_right fun hd => hd hclean⟩

theorem elaborateStmt_here {x r : Stmt} (h : (do elaborateStmt (fromHere (← get)) x : CheckM Stmt) s = .ok r s') :
    ∃ n, elaborateStmt (levels n) x s = .ok r s' := by
  simp only [bind_ok, get_ok] at h
  obtain ⟨_, _, ⟨rfl, rfl⟩, h⟩ := h
  exact ⟨_, h⟩

theorem templates_since {u : Unit} {t : Checker}
    (h : p.forM (fun x => (do collecting (elaborateTemplates (fromHere (← get)) x) : CheckM Unit)) start = .ok u t)
    (hclean : t.diagnostics = []) : start.diagnostics = [] ∧ Since start t := by
  obtain ⟨hs, hlast⟩ := forM_ok (C := fun s => s.diagnostics = []) (P := fun _ => Since start) []
    (fun x _ s s' done h hc => by
      obtain ⟨n, h⟩ := collecting_templates_ok h hc
      have hst := elaborateTemplates_steady h
      exact ⟨(hst.1 hc).1, fun hs => hs.steady hst hc⟩) h hclean
  exact ⟨hs, hlast ⟨.refl start, rfl⟩⟩

/-- **The last passes only add to what is declared.** -/
theorem bodies_since {u : Unit} {t : Checker} {stmts : List Stmt}
    (htemplates : p.forM (fun x => (do collecting (elaborateTemplates (fromHere (← get)) x) : CheckM Unit)) start = .ok u t)
    (hstmts : p.mapM (fun x => (do elaborateStmt (fromHere (← get)) x : CheckM Stmt)) t = .ok stmts fin)
    (hclean : fin.diagnostics = []) : start.diagnostics = [] ∧ Since start fin := by
  obtain ⟨ht, hlast⟩ := mapM_ok (C := fun s => s.diagnostics = []) (P := fun _ => Since start) (R := fun _ _ => True) []
    (fun x _ s r s' done h hc => by
      obtain ⟨n, h⟩ := elaborateStmt_here h
      have hst := elaborateStmt_steady h hc
      exact ⟨(hst.1 hc).1, fun hs => ⟨hs.steady hst hc, trivial⟩⟩) hstmts hclean
  obtain ⟨hs, hsince⟩ := templates_since htemplates ht
  exact ⟨hs, (hlast hsince).1⟩

/-- Where a pass over bodies stands, when all goes well in the end. -/
structure Underway (globals : Table String) (fin start s : Checker) : Prop where
  since : Since start s
  healthy : Healthy globals fin s

/-- **The last passes leave well-typed cells.** -/
theorem bodies_elaborated (hp : ∀ x ∈ p, x.Written) (hd : Declared globals p start) (hfin : Final globals fin) {u : Unit}
    {t : Checker} {stmts : List Stmt}
    (htemplates : p.forM (fun x => (do collecting (elaborateTemplates (fromHere (← get)) x) : CheckM Unit)) start = .ok u t)
    (hstmts : p.mapM (fun x => (do elaborateStmt (fromHere (← get)) x : CheckM Stmt)) t = .ok stmts fin) :
    Healthy globals fin fin ∧ List.Forall₂ (Leaves₄ globals fin) p stmts := by
  obtain ⟨-, hsince⟩ := bodies_since htemplates hstmts hfin.clean
  have hreach : Reaches fin fin := ⟨hfin.clean, .refl fin⟩
  obtain ⟨ht, hlast⟩ := mapM_ok (C := Reaches fin) (P := fun _ => Underway globals fin start) (R := Leaves₄ globals fin) []
    (fun x hx s r s' done h hr => by
      obtain ⟨n, h⟩ := elaborateStmt_here h
      have hst := elaborateStmt_steady h hr.1
      refine ⟨hr.before hst.1, fun hs => ?_⟩
      have hplace : s.place = .outside globals := hs.since.place.trans hd.place
      obtain hdiag | ⟨rfl, ⟨hne, rfl⟩ | ⟨c, g, rfl, hpar, rfl, hg⟩⟩ | ⟨c, c', rfl, hpar, rfl, hc⟩ := elaborateStmt_ok h
      · exact absurd hr.1 hdiag
      · exact ⟨hs, .inl ⟨hne, rfl⟩⟩
      · refine ⟨hs, .inr (.inl ⟨c, g, rfl, hpar, rfl, ?_⟩)⟩
        obtain rfl | ⟨i, hi, rfl⟩ := hg
        · exact hpar
        · obtain ⟨i₀, hi₀, hh⟩ := hs.since.since.generics.header hi
          rw [hh.params]
          exact hd.templates hi₀
      · obtain ⟨hh, hel⟩ := concreteCell_elaborated hfin (hp _ hx) hc hr hs.healthy hplace (hs.since.signed hd hx hpar)
        exact ⟨⟨hs.since.steady hst hr.1, hh⟩, .inr (.inr ⟨c, c', rfl, hpar, rfl, hel⟩)⟩) hstmts hreach
  obtain ⟨hs, hfirst⟩ := forM_ok (C := Reaches fin) (P := fun _ => Underway globals fin start) []
    (fun x hx s s' done h hr => by
      obtain ⟨n, h⟩ := collecting_templates_ok h hr.1
      have hst := elaborateTemplates_steady h
      refine ⟨hr.before hst.1, fun hs => ⟨hs.since.steady hst hr.1, ?_⟩⟩
      exact elaborateTemplates_healthy hfin h hr hs.healthy (hs.since.place.trans hd.place)) htemplates ht
  obtain ⟨hgoing, hall⟩ := hlast (hfirst ⟨⟨.refl start, rfl⟩, hd.healthy hsince.since.toExtends⟩)
  exact ⟨hgoing.healthy, hall⟩

/-! ## The whole program -/

theorem collecting_ends (x : CheckM Unit) (s : Checker) : ∃ t, collecting x s = .ok () t := by
  cases h : x s with
  | ok u t => exact ⟨t, tryCatch_ok.2 (.inl h)⟩
  | error d t => exact ⟨t.report d, tryCatch_ok.2 (.inr ⟨d, t, h, rfl⟩)⟩

theorem elaborateStmt_ends (x : Stmt) (s : Checker) : ∃ r t, elaborateStmt deeper x s = .ok r t := by
  cases x with
  | cell c =>
    unfold elaborateStmt
    by_cases hg : c.isGeneric = true
    · simp only [hg, if_true]
      exact ⟨_, _, bind_ok.2 ⟨s, s, get_ok.2 ⟨rfl, rfl⟩, pure_ok.2 ⟨rfl, rfl⟩⟩⟩
    · simp only [hg]
      cases h : (Stmt.cell <$> concreteCell deeper c) s with
      | ok r t => exact ⟨r, t, tryCatch_ok.2 (.inl h)⟩
      | error d t => exact ⟨.cell c, t.report d, tryCatch_ok.2 (.inr ⟨d, t, h, bind_ok.2 ⟨(), _, rfl, rfl⟩⟩)⟩
  | _ => exact ⟨_, s, rfl⟩

theorem forM_ends {g : Stmt → CheckM Unit} (hg : ∀ x s, ∃ t, g x s = .ok () t) : ∀ (xs : List Stmt) (s : Checker),
    ∃ t, xs.forM g s = .ok () t
  | [], s => ⟨s, rfl⟩
  | x :: xs, s => by
    obtain ⟨t, hx⟩ := hg x s
    obtain ⟨u, hxs⟩ := forM_ends hg xs t
    rw [List.forM_eq_forM] at hxs
    exact ⟨u, by rw [List.forM_eq_forM, List.forM_cons]; exact bind_ok.2 ⟨(), t, hx, hxs⟩⟩

theorem mapM_ends {g : Stmt → CheckM Stmt} (hg : ∀ x s, ∃ r t, g x s = .ok r t) : ∀ (xs : List Stmt) (s : Checker),
    ∃ rs t, xs.mapM g s = .ok rs t
  | [], s => ⟨[], s, rfl⟩
  | x :: xs, s => by
    obtain ⟨r, t, hx⟩ := hg x s
    obtain ⟨rs, u, hxs⟩ := mapM_ends hg xs t
    refine ⟨r :: rs, u, ?_⟩
    rw [List.mapM_cons]
    exact bind_ok.2 ⟨r, t, hx, bind_ok.2 ⟨rs, u, hxs, rfl⟩⟩

/-- What a check comes to: the first that was reported is the answer, and where nothing was the program passes. -/
def verdict (first : Option Diagnostic) (stmts : List Stmt) (fin : Checker) :
    EStateM.Result Diagnostic Checker CheckedProgram :=
  match first with
  | some d => .error d fin
  | none => .ok ⟨stmts, fin.instances.reverse⟩ { fin with instances := [] }

/-- **Every program goes through all four passes**, whatever fails in them. -/
theorem program_runs (p : Program) (start : Checker) : ∃ named declared t stmts fin,
    p.forM (fun x => collecting (declareName x)) { start with diagnostics := [] } = .ok () named ∧
    p.forM (fun x => (do collecting (declare (fromHere (← get)) x) : CheckM Unit)) named = .ok () declared ∧
    p.forM (fun x => (do collecting (elaborateTemplates (fromHere (← get)) x) : CheckM Unit)) declared = .ok () t ∧
    p.mapM (fun x => (do elaborateStmt (fromHere (← get)) x : CheckM Stmt)) t = .ok stmts fin ∧
    Check.program p start = verdict fin.diagnostics.getLast? stmts fin := by
  obtain ⟨named, hnamed⟩ := forM_ends (fun x s => collecting_ends (declareName x) s) p { start with diagnostics := [] }
  obtain ⟨declared, hdeclared⟩ := forM_ends (g := fun x => do collecting (declare (fromHere (← get)) x))
    (fun x s => collecting_ends (declare (fromHere s) x) s) p named
  obtain ⟨t, ht⟩ := forM_ends (g := fun x => do collecting (elaborateTemplates (fromHere (← get)) x))
    (fun x s => collecting_ends (elaborateTemplates (fromHere s) x) s) p declared
  obtain ⟨stmts, fin, hfin⟩ := mapM_ends (g := fun x => do elaborateStmt (fromHere (← get)) x)
    (fun x s => @elaborateStmt_ends (fromHere s) x s) p t
  refine ⟨named, declared, t, stmts, fin, hnamed, hdeclared, ht, hfin, ?_⟩
  unfold Check.program
  rw [bind_of_ok ((modify_ok (u := ())).2 rfl), bind_of_ok hnamed, bind_of_ok hdeclared, bind_of_ok ht, bind_of_ok hfin,
    bind_of_ok (get_ok.2 ⟨rfl, rfl⟩)]
  cases fin.diagnostics.getLast? <;> rfl

/-- **A program that passes** met no error in any pass. -/
theorem program_passes {checked : CheckedProgram} {last : Checker} (h : Check.program p start = .ok checked last) :
    ∃ named declared t u v w stmts fin,
      p.forM (fun x => collecting (declareName x)) { start with diagnostics := [] } = .ok u named ∧
      p.forM (fun x => (do collecting (declare (fromHere (← get)) x) : CheckM Unit)) named = .ok v declared ∧
      p.forM (fun x => (do collecting (elaborateTemplates (fromHere (← get)) x) : CheckM Unit)) declared = .ok w t ∧
      p.mapM (fun x => (do elaborateStmt (fromHere (← get)) x : CheckM Stmt)) t = .ok stmts fin ∧
      fin.diagnostics = [] ∧ checked = ⟨stmts, fin.instances.reverse⟩ ∧ last = { fin with instances := [] } := by
  obtain ⟨named, declared, t, stmts, fin, hnamed, hdeclared, ht, hfin, hverdict⟩ := program_runs p start
  rw [hverdict] at h
  refine ⟨named, declared, t, (), (), (), stmts, fin, hnamed, hdeclared, ht, hfin, ?_⟩
  cases hl : fin.diagnostics.getLast? with
  | some d =>
    rw [hl] at h
    cases h
  | none =>
    rw [hl] at h
    cases h
    exact ⟨List.getLast?_eq_none_iff.1 hl, rfl, rfl⟩

theorem program_ok {config : Config} {checked : CheckedProgram} {last : Checker}
    (h : Check.program p (.new config) = .ok checked last) :
    ∃ s start t u v w stmts fin, p.forM (fun x => collecting (declareName x)) (.new config) = .ok u s ∧
      p.forM (fun x => (do collecting (declare (fromHere (← get)) x) : CheckM Unit)) s = .ok v start ∧
      p.forM (fun x => (do collecting (elaborateTemplates (fromHere (← get)) x) : CheckM Unit)) start = .ok w t ∧
      p.mapM (fun x => (do elaborateStmt (fromHere (← get)) x : CheckM Stmt)) t = .ok stmts fin ∧
      fin.diagnostics = [] ∧ checked = ⟨stmts, fin.instances.reverse⟩ ∧ last = { fin with instances := [] } :=
  program_passes h

/-- **A checked program is well typed**: what its cells are typed against is what it declares. -/
structure WellTyped (globals : Table String) (fin : Checker) (checked : CheckedProgram) : Prop where
  cells : ∀ c ∈ checked.cells, ∃ sig, fin.cells.find? c.name.name = some sig ∧ CellTyped (globalsOf fin) globals c sig
  known : ∀ {n sig}, fin.cells.find? n = some sig → ∃ c ∈ checked.cells, c.name.name = n

theorem forall₂_left {α β : Type} {R : α → β → Prop} {as : List α} {bs : List β} (h : List.Forall₂ R as bs) {a : α}
    (ha : a ∈ as) : ∃ b ∈ bs, R a b := by
  induction h with
  | nil => cases ha
  | cons hr _ ih =>
    rcases List.mem_cons.1 ha with rfl | ha
    · exact ⟨_, List.mem_cons_self .., hr⟩
    · obtain ⟨b, hb, hab⟩ := ih ha
      exact ⟨b, List.mem_cons_of_mem _ hb, hab⟩

theorem mem_concrete {stmts : List Stmt} {is : List CellDef} {c : CellDef} :
    c ∈ (CheckedProgram.mk stmts is).cells ↔ .cell c ∈ stmts ∧ c.params = [] ∨ c ∈ is := by
  unfold CheckedProgram.cells
  rw [List.mem_append, List.mem_filterMap]
  refine or_congr_left ⟨?_, fun ⟨hc, hpar⟩ => ⟨.cell c, hc, ?_⟩⟩
  · rintro ⟨x, hx, h⟩
    cases x with
    | cell c' =>
      simp only at h
      split at h
      · cases h
      · rename_i hg
        cases h
        exact ⟨hx, by_contra fun hne => hg (isGeneric_iff.2 hne)⟩
    | _ => cases h
  · have hg : c.isGeneric = false := by
      rw [← Bool.not_eq_true, isGeneric_iff]
      exact fun h => h hpar
    simp [hg]

theorem wellTyped_of_elaborated {stmts : List Stmt} (hd : Declared globals p start) (hsince : Since start fin)
    (hh : Healthy globals fin fin) (hall : List.Forall₂ (Leaves₄ globals fin) p stmts) :
    WellTyped globals fin ⟨stmts, fin.instances.reverse⟩ where
  cells := fun c hc => by
    rcases mem_concrete.1 hc with ⟨hc, hpar⟩ | hc
    · obtain ⟨x, hx, ⟨hne, rfl⟩ | ⟨_, g, -, -, hg, hgp⟩ | ⟨c₀, c', rfl, -, hc', hel⟩⟩ := forall₂_mem_right hall hc
      · exact absurd rfl (hne c)
      · cases hg
        exact absurd hpar hgp
      · cases hc'
        obtain ⟨sig, hsig, ht⟩ := hel.typed
        exact ⟨sig, by rw [hel.name]; exact hsig, ht⟩
    · exact hh.instances c (List.mem_reverse.1 hc)
  known := fun {n sig} hf => by
    cases hn : start.cells.find? n with
    | none =>
      obtain ⟨c, hc, hname⟩ := hsince.since.made hn (by simp [hf])
      exact ⟨c, mem_concrete.2 (.inr (List.mem_reverse.2 hc)), hname⟩
    | some sg =>
      obtain ⟨⟨c, hc, hpar, hname⟩, -⟩ := hd.cells hn
      obtain ⟨r, hr, ⟨hne, -⟩ | ⟨_, g, he, hpar', -, -⟩ | ⟨c₀, c', he, -, rfl, hel⟩⟩ := forall₂_left hall hc
      · exact absurd rfl (hne c)
      · cases he
        exact absurd hpar hpar'
      · cases he
        exact ⟨c', mem_concrete.2 (.inl ⟨hr, hel.params.trans hpar⟩), by rw [hel.name, hname]⟩

/-- **What a program that passes leaves behind**: its declarations, and, where its instances are in order, cells that say
what they said and can run. -/
structure Passed (p : Program) (checked : CheckedProgram) (last : Checker) (globals : Table String) (fin : Checker) :
    Prop where
  instances : checked.instances = fin.instances.reverse
  last : last = { fin with instances := [] }
  place : fin.place = .outside globals
  cells : ∀ {n sig}, fin.cells.find? n = some sig → (∃ c, .cell c ∈ p ∧ c.name.name = n) ∨ ∃ c ∈ fin.instances, c.name.name = n
  concrete : (∀ c, .cell c ∈ p → c.params = []) → fin.instances = []
  final : (fin.instances.map (·.name.name)).Nodup →
    (∀ c ∈ fin.instances, ∀ n ∈ c.typeNames, Spelled (ClosedRecord fin.records) fin n) → Final globals fin
  leaves : Final globals fin → Healthy globals fin fin ∧ List.Forall₂ (Leaves₄ globals fin) p checked.program
  typed : Final globals fin → WellTyped globals fin checked

theorem passed {config : Config} {checked : CheckedProgram} {last : Checker} (hp : ∀ x ∈ p, x.Written)
    (h : Check.program p (.new config) = .ok checked last) : ∃ globals fin, Passed p checked last globals fin := by
  obtain ⟨s, start, t, u, v, w, stmts, fin, hs, hstart, ht, hfin, hclean, rfl, rfl⟩ := program_ok h
  obtain ⟨hstartclean, hsince⟩ := bodies_since ht hfin hclean
  obtain ⟨globals, hd⟩ := declarations_ok hp hs hstart hstartclean
  refine ⟨globals, fin, rfl, rfl, hsince.place.trans hd.place, fun {n sig} hf => ?_, fun hpar => ?_, ?_, ?_, ?_⟩
  · cases hn : start.cells.find? n with
    | none => exact .inr (hsince.since.made hn (by simp [hf]))
    | some sg =>
      obtain ⟨⟨c, hc, -, hname⟩, -⟩ := hd.cells hn
      exact .inl ⟨c, hc, hname⟩
  · rw [hsince.since.concrete (hd.concrete hpar), hd.instances]
  · exact hd.final hsince.since.toExtends hclean
  · exact fun hf => bodies_elaborated hp hd hf ht hfin
  · intro hf
    obtain ⟨hh, hall⟩ := bodies_elaborated hp hd hf ht hfin
    exact wellTyped_of_elaborated hd hsince hh hall

/-! ## Instances -/

section

variable {config : Config} {checked : CheckedProgram} {last : Checker}

/-- The instances are all that was made since the declarations, which make none. -/
theorem instances_counted (hp : ∀ x ∈ p, x.Written) (h : Check.program p (.new config) = .ok checked last) :
    ∃ start fin : Checker, start.Unmangled ∧ start.made = [] ∧ start.broadcast = [] ∧ start.Counted fin ∧
      fin.made.reverse = checked.instances.map (·.name.name) ∧ fin.broadcast = last.broadcast := by
  obtain ⟨s, start, t, u, v, w, stmts, fin, hs, hstart, ht, hfin, hclean, rfl, rfl⟩ := program_ok h
  obtain ⟨hstartclean, hsince⟩ := bodies_since ht hfin hclean
  obtain ⟨globals, hd⟩ := declarations_ok hp hs hstart hstartclean
  have hnone : start.made = [] := by rw [made, hd.instances, List.map_nil]
  exact ⟨start, fin, hd.unmangled, hnone, hd.broadcast, hsince.since.toCounted, List.map_reverse.symm, rfl⟩

/-- **Each instance was broadcast**, in the order in which the instances stand, and no other cell was. -/
theorem instances_broadcast (hp : ∀ x ∈ p, x.Written) (h : Check.program p (.new config) = .ok checked last) :
    checked.instances.map (·.name.name) = last.broadcast.reverse := by
  obtain ⟨start, fin, -, hmade, hbroadcast, hcounted, hinstances, hlast⟩ := instances_counted hp h
  obtain ⟨names, hm, hb⟩ := hcounted.news
  rw [← hinstances, ← hlast, hm, hb, hmade, hbroadcast]

/-- **No instance stands more than twice**: a second time only where it was asked for before its template was checked. -/
theorem instances_at_most_twice (hp : ∀ x ∈ p, x.Written) (h : Check.program p (.new config) = .ok checked last)
    (n : String) : (checked.instances.map (·.name.name)).count n ≤ 2 := by
  obtain ⟨start, fin, hclear, hmade, -, hcounted, hinstances, -⟩ := instances_counted hp h
  have hpaid := hcounted.once hclear n
  rw [hmade, List.count_nil] at hpaid
  have := start.chances_le_two n
  rw [← hinstances, List.count_reverse]
  omega

end

/-- A cell `name<T>(x: T)` that calls `f::<int>(1)`. -/
def asking (name : String) : Stmt :=
  .cell ⟨nowhere, bareName name, [⟨nowhere, bareName "T", .type none⟩],
    [⟨nowhere, bareName "x", false, .named nowhere (bareName "T") []⟩], none,
    ⟨nowhere, [.expr (.call nowhere (bareName "f") [.type (.named nowhere (bareName "int") [])] [.int nowhere 1])]⟩⟩

/-- Where `g` asks for `f<int>`, the template of `f` is checked first, and it asks for `f<int>` itself. -/
example : (Program.check [asking "g", asking "f"] .standard).toOption.map (·.instances.map (·.name.name)) =
    some ["f<int>", "f<int>"] := by decide +kernel

/-- In the other order it is known by then. -/
example : (Program.check [asking "f", asking "g"] .standard).toOption.map (·.instances.map (·.name.name)) =
    some ["f<int>"] := by decide +kernel

end Check
end Unroll
