import Unroll.Proofs.Check.AtRest
/-!
# States that a check can be in

What a table tells was put there by a declaration or for an instance, and on the way there it was resolved outside of all
templates.  So whatever else has happened to a checker since, what its tables tell leaves nothing open: the types of
aliases without parameters are settled, and so are those of the parameters of cells.
-/
namespace Unroll
namespace Check

open CheckM Outcome Checker

/-- **The states that a check can be in**, and more: of what is not a table of aliases, of cells or of templates, any
change is let pass. -/
inductive Reached : Checker → Prop
  | new (config : Config) : Reached (.new config)
  | moved {s t : Checker} : Reached s → t.aliases = s.aliases → t.cells = s.cells → t.generics = s.generics → Reached t
  | plainAlias {s u : Checker} {n : Nat} {w : TypeRef} {type : Ty} (name : String) : Reached s → s.place.templates = [] →
    typeRef (levels n) w s = .ok type u → Reached { s with aliases := s.aliases.insert name (.plain type) }
  | genericAlias {s : Checker} (name : String) (ps : ParamLevel) (target : TypeRef) : Reached s →
    Reached { s with aliases := s.aliases.insert name (.generic ps target) }
  | cell {s u : Checker} {n : Nat} {c : CellDef} {sig : CellSig} (name : String) : Reached s → s.place.templates = [] →
    signature (levels n) c s = .ok sig u → Reached { s with cells := s.cells.insert name sig }
  | forgotten {s : Checker} (name : String) : Reached s → Reached { s with cells := s.cells.erase name }
  | template {s r : Checker} {ps : List TemplateParam} {ds : List ParamDecl} (name : String) (c : CellDef) : Reached s →
    paramDecls r [] ps = .ok ds → Reached { s with generics := s.generics.insert name ⟨c, ⟨0, ds⟩, false⟩ }
  | checked {s : Checker} {g g' : GenericInfo} (name : String) : Reached s → s.generics.find? name = some g →
    g'.params = g.params → Reached { s with generics := s.generics.insert name g' }

/-! ## What the tables tell -/

/-- **What the tables tell leaves nothing open.** -/
structure Told (s : Checker) : Prop where
  plain : ∀ {n t}, s.aliases.find? n = some (.plain t) → t.Settled fun _ => True
  cells : ∀ {n sig}, s.cells.find? n = some sig → ∀ p ∈ sig.params, p.type.Settled fun _ => True
  templates : ∀ {n g}, s.generics.find? n = some g → g.params.names.Nodup

variable {s t u : Checker} {n : Nat}

theorem Told.grounded (h : Told s) (hs : s.place.templates = []) : Grounded (fun _ => True) s where
  templates := hs
  types := fun _ => trivial
  plain := h.plain
  generic := fun _ _ _ _ _ => trivial

theorem Told.resolved (h : Told s) (hs : s.place.templates = []) {w : TypeRef} {type : Ty}
    (hw : typeRef (levels n) w s = .ok type u) : type.Settled fun _ => True :=
  typeRef_settled (levels_orderly n) (levels_settle _ n) (h.grounded hs) (fun _ _ _ _ => trivial) hw

theorem Told.signed (h : Told s) (hs : s.place.templates = []) {c : CellDef} {sig : CellSig}
    (hc : signature (levels n) c s = .ok sig u) : ∀ p ∈ sig.params, p.type.Settled fun _ => True := by
  obtain ⟨-, hparams, -⟩ := signature_ok (levels_orderly n) hc
  intro p hp
  obtain ⟨a, -, -, -, ha⟩ := forall₂_mem_right hparams hp
  exact h.resolved hs ha

/-- No two parameters of a template have one name. -/
theorem paramDecls_nodup : ∀ {ps : List TemplateParam} {seen : List String} {ds : List ParamDecl},
    paramDecls s seen ps = .ok ds → (ds.map (·.name)).Nodup ∧ ∀ d ∈ ds, d.name ∉ seen
  | [], seen, ds, h => by
    cases h
    simp
  | p :: ps, seen, ds, h => by
    have hcons (hp : p.name.name ∉ seen) : ∀ sort : Except Diagnostic ParamSort, (do
        let sort ← sort
        return (⟨p.name.name, sort⟩ : ParamDecl) :: (← paramDecls s (p.name.name :: seen) ps)) = .ok ds →
          (ds.map (·.name)).Nodup ∧ ∀ d ∈ ds, d.name ∉ seen := by
      intro sort h
      simp only [except_bind_ok, except_pure_ok] at h
      obtain ⟨_, -, ds', hds, rfl⟩ := h
      obtain ⟨hnodup, hfresh⟩ := paramDecls_nodup hds
      refine ⟨List.nodup_cons.2 ⟨fun hm => ?_, hnodup⟩, List.forall_mem_cons.2 ⟨hp, fun d hd hs => ?_⟩⟩
      · obtain ⟨d, hd, hname⟩ := List.mem_map.1 hm
        exact hfresh d hd (hname ▸ List.mem_cons_self ..)
      · exact hfresh d hd (List.mem_cons_of_mem _ hs)
    simp only [paramDecls] at h
    split at h
    · cases h
    · rename_i hp
      have hp : p.name.name ∉ seen := by simpa using hp
      split at h
      · split at h <;> exact hcons hp _ h
      · exact hcons hp _ h
      · exact hcons hp _ h
      · exact hcons hp _ h

theorem Reached.told (h : Reached s) : Told s := by
  induction h with
  | new config => exact ⟨nofun, nofun, nofun⟩
  | moved _ ha hc hg ih =>
    exact ⟨fun h => ih.plain (by rwa [ha] at h), fun h => ih.cells (by rwa [hc] at h),
      fun h => ih.templates (by rwa [hg] at h)⟩
  | plainAlias name _ hs hw ih =>
    refine ⟨fun {m type} h => ?_, ih.cells, ih.templates⟩
    simp only [Table.find?_insert] at h
    split at h
    · cases h
      exact ih.resolved hs hw
    · exact ih.plain h
  | genericAlias name ps target _ ih =>
    refine ⟨fun {m type} h => ?_, ih.cells, ih.templates⟩
    simp only [Table.find?_insert] at h
    split at h
    · cases h
    · exact ih.plain h
  | cell name _ hs hc ih =>
    refine ⟨ih.plain, fun {m sig} h => ?_, ih.templates⟩
    simp only [Table.find?_insert] at h
    split at h
    · cases h
      exact ih.signed hs hc
    · exact ih.cells h
  | forgotten name _ ih =>
    refine ⟨ih.plain, fun {m sig} h => ?_, ih.templates⟩
    simp only [Table.find?_erase] at h
    split at h
    · cases h
    · exact ih.cells h
  | template name c _ hds ih =>
    refine ⟨ih.plain, ih.cells, fun {m g} h => ?_⟩
    simp only [Table.find?_insert] at h
    split at h
    · cases h
      exact (paramDecls_nodup hds).1
    · exact ih.templates h
  | checked name _ hg hsame ih =>
    refine ⟨ih.plain, ih.cells, fun {m g} h => ?_⟩
    simp only [Table.find?_insert] at h
    split at h
    · cases h
      rw [hsame]
      exact ih.templates hg
    · exact ih.templates h

/-! ## Checks lead from such states to such states -/

/-- The second state can be reached, if the first one can. -/
def Reaching (s t : Checker) : Prop := Reached s → Reached t

instance : IsPreorder Checker Reaching where
  refl _ h := h
  trans _ _ _ h h' hs := h' (h hs)

theorem Reached.modifyGeneric (h : Reached s) (name : String) {f : GenericInfo → GenericInfo}
    (hf : ∀ g, (f g).params = g.params) : Reached (modifyGeneric name f s) := by
  unfold Check.modifyGeneric
  cases hg : s.generics.find? name with
  | none => exact h
  | some g => exact h.checked name hg (hf g)

theorem Reaching.tried {name : String} {g : GenericInfo} (h : Reaching (underWay name g s) t) :
    Reaching s (tried name s t) := by
  intro hs
  have ht := h (hs.moved rfl rfl rfl)
  have hback : Reached { t.onPlace (fun _ => s.place) with elaborating := t.elaborating.erase name } :=
    ht.moved rfl rfl rfl
  exact hback.modifyGeneric name fun _ => rfl

theorem Reached.knowing {fr : Frames} {sig : CellSig} (h : Reached s) (hsig : Signs fr s sig) (name : String) :
    Reached (knowing fr name sig s) := by
  obtain ⟨n, c, u, hc⟩ := hsig
  have hout : Reached (({ s with frames := fr } : Checker).onPlace outer) := h.moved rfl rfl rfl
  exact hout.cell name rfl hc

instance : Lasting Reaching where
  onPlace _ _ h := h.moved rfl rfl rfl
  event _ h := h.moved rfl rfl rfl
  report _ _ h := h.moved rfl rfl rfl
  record _ _ _ h := h.moved rfl rfl rfl
  within _ h hs := (h (hs.moved rfl rfl rfl)).moved rfl rfl rfl
  tried _ _ h := h.tried
  elaborated _ _ _ h hs := Reached.modifyGeneric (h.tried hs) _ fun _ => rfl
  instantiated _ hst _ _ _ hsig _ h hs := (h ((hst hs).knowing hsig _)).moved rfl rfl rfl
  forgotten {name f fr s t v} _ hst _ h hs := by
    have hs := hst hs
    obtain rfl | ⟨sig, hsig, h⟩ := h
    · have hout : Reached { t with frames := fr } := hs.moved rfl rfl rfl
      exact (hout.forgotten name).moved rfl rfl rfl
    · exact ((h (hs.knowing hsig name)).forgotten name).moved rfl rfl rfl

/-! ## Programs -/

/-- Outside of all templates the step leads on from such states to such states, and outside of all templates again. -/
structure ReachingOut (s t : Checker) : Prop where
  templates : t.place.templates = s.place.templates
  reached : s.place.templates = [] → Reaching s t

instance : IsPreorder Checker ReachingOut where
  refl _ := ⟨rfl, fun _ h => h⟩
  trans _ _ _ h h' := ⟨h'.templates.trans h.templates, fun hs hr =>
    h'.reached (h.templates.trans hs) (h.reached hs hr)⟩

theorem ReachingOut.of_keeps (h : Keeps Eq Reaching s t) : ReachingOut s t :=
  ⟨congrArg Place.templates h.place.symm, fun _ => h.rest⟩

theorem ReachingOut.moved (hp : t.place.templates = s.place.templates) (ha : t.aliases = s.aliases)
    (hc : t.cells = s.cells) (hg : t.generics = s.generics) : ReachingOut s t :=
  ⟨hp, fun _ h => h.moved ha hc hg⟩

theorem collecting_reachingOut {x : CheckM Unit} (hx : Always ReachingOut x) : Always ReachingOut (collecting x) :=
  .tryCatch hx fun _ => .modify fun _ => .moved rfl rfl rfl rfl

theorem declareName_reachingOut (x : Stmt) : Always ReachingOut (declareName x) :=
  declareName_always (fun _ _ => .moved rfl rfl rfl rfl) (fun _ _ _ => .moved rfl rfl rfl rfl)
    (fun _ _ => .moved rfl rfl rfl rfl) x

theorem declare_reachingOut (x : Stmt) : Always ReachingOut (declare (levels n) x) := by
  refine declare_always (fun _ _ _ => .moved rfl rfl rfl rfl) (fun s m info hinfo => ⟨rfl, fun hs hr => ?_⟩)
    (fun c _ _ s r decls hdecls => ⟨rfl, fun _ hr => hr.template c.name.name c hdecls⟩)
    fun c _ s sig hsig => ⟨rfl, fun hs hr => hr.cell c.name.name hs hsig⟩
  cases info with
  | plain type =>
    obtain ⟨w, hw⟩ := hinfo type rfl
    exact hr.plainAlias m hs hw
  | generic ps target => exact hr.genericAlias m ps target

/-- **A program leads on from such states to such states**, whether it passes or fails. -/
theorem program_reachingOut (p : Program) : Always ReachingOut (Check.program p) := by
  have hnames : Always ReachingOut (p.forM fun x => collecting (declareName x)) :=
    .forM p fun x _ => collecting_reachingOut (declareName_reachingOut x)
  have hdecls : Always ReachingOut (p.forM fun x => do collecting (declare (fromHere (← get)) x)) :=
    .forM p fun x _ => .bind .get fun u => collecting_reachingOut (declare_reachingOut x)
  have htemplates : Always ReachingOut (p.forM fun x => do collecting (elaborateTemplates (fromHere (← get)) x)) :=
    .forM p fun x _ => .bind .get fun u => collecting_reachingOut ((elaborateTemplates_keeps _ x).mono .of_keeps)
  have hbodies : Always ReachingOut (p.mapM fun x => do elaborateStmt (fromHere (← get)) x) :=
    .mapM (fun x => .bind .get fun u => (elaborateStmt_keeps _ x).mono .of_keeps) p
  refine .bind (.modify fun _ => .moved rfl rfl rfl rfl) fun _ => .bind hnames fun _ => .bind hdecls fun _ =>
    .bind htemplates fun _ => .bind hbodies fun stmts => .bind .get fun fin => ?_
  split
  · exact .throw _
  · exact .bind (.modify fun _ => .moved rfl rfl rfl rfl) fun _ => .pure _

/-- **So do the programs of a whole history.** -/
theorem History.reached {config : Config} {ps : List Program} {out : List CellDef} (h : History config ps out s) :
    s.place.templates = [] ∧ Reached s := by
  have hstep {p : Program} {s t : Checker} (ht : ends (Check.program p) s = t)
      (hs : s.place.templates = [] ∧ Reached s) : t.place.templates = [] ∧ Reached t := by
    obtain ⟨htemplates, hreached⟩ := ht ▸ program_reachingOut p s
    exact ⟨htemplates.trans hs.1, hreached hs.1 hs.2⟩
  induction h with
  | new => exact ⟨rfl, .new config⟩
  | passed _ hp ih => exact hstep (ends_of_ok hp) ih
  | failed _ hp ih => exact hstep (ends_of_error hp) ih

end Check
end Unroll
