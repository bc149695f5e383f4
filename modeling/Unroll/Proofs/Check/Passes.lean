import Unroll.Proofs.Check.Outline
/-!
# What the declarations of a program declare

A program is gone over four times.  The first two passes only declare: the names of records, and then fields, aliases
and signatures.  No body is looked at before they are over, and where none of them has failed, whatever is declared
stands for types that leave nothing open.
-/
namespace Unroll
namespace Check

open CheckM Outcome Checker

/-! ## Going over a program -/

section

variable {C : Checker → Prop}

/-- **A pass keeps an invariant of what it has gone over**, where a good end means that all went well on the way. -/
theorem forM_ok {P : List Stmt → Checker → Prop} {g : Stmt → CheckM Unit} : ∀ {xs : List Stmt} (done : List Stmt) {s s' : Checker}
    {u : Unit}, (∀ x ∈ xs, ∀ s s' done, g x s = .ok () s' → C s' → C s ∧ (P done s → P (done ++ [x]) s')) →
      xs.forM g s = .ok u s' → C s' → C s ∧ (P done s → P (done ++ xs) s')
  | [], done, s, s', u, _, h, hc => by
    simp only [List.forM_eq_forM, List.forM_nil, pure_ok] at h
    obtain ⟨-, rfl⟩ := h
    exact ⟨hc, fun hp => by rwa [List.append_nil]⟩
  | x :: xs, done, s, s', u, hg, h, hc => by
    simp only [List.forM_eq_forM, List.forM_cons, bind_ok] at h
    obtain ⟨_, t, hx, hxs⟩ := h
    obtain ⟨ht, hrest⟩ := forM_ok (done ++ [x]) (fun y hy => hg y (List.mem_cons_of_mem _ hy)) hxs hc
    obtain ⟨hs, hstep⟩ := hg x (List.mem_cons_self ..) s t done hx ht
    refine ⟨hs, fun hp => ?_⟩
    have hall := hrest (hstep hp)
    rwa [List.append_assoc, List.singleton_append] at hall

/-- The same of a pass that leaves something for every declaration, where the invariant is of what has been left. -/
theorem mapM_ok {P : List Stmt → Checker → Prop} {R : Stmt → Stmt → Prop} {g : Stmt → CheckM Stmt} : ∀ {xs rs : List Stmt}
    (done : List Stmt) {s s' : Checker}, (∀ x ∈ xs, ∀ s r s' done, g x s = .ok r s' → C s' →
      C s ∧ (P done s → P (done ++ [r]) s' ∧ R x r)) →
        xs.mapM g s = .ok rs s' → C s' → C s ∧ (P done s → P (done ++ rs) s' ∧ List.Forall₂ R xs rs)
  | [], rs, done, s, s', _, h, hc => by
    simp only [List.mapM_nil, pure_ok] at h
    obtain ⟨rfl, rfl⟩ := h
    exact ⟨hc, fun hp => ⟨by rwa [List.append_nil], .nil⟩⟩
  | x :: xs, rs, done, s, s', hg, h, hc => by
    simp only [List.mapM_cons, bind_ok, pure_ok] at h
    obtain ⟨r, t, hx, rs, _, hxs, rfl, rfl⟩ := h
    obtain ⟨ht, hrest⟩ := mapM_ok (done ++ [r]) (fun y hy => hg y (List.mem_cons_of_mem _ hy)) hxs hc
    obtain ⟨hs, hstep⟩ := hg x (List.mem_cons_self ..) s r t done hx ht
    refine ⟨hs, fun hp => ?_⟩
    obtain ⟨hpt, hr⟩ := hstep hp
    obtain ⟨hps, hrs⟩ := hrest hpt
    rw [List.append_assoc, List.singleton_append] at hps
    exact ⟨hps, .cons hr hrs⟩

end

theorem collecting_ok {x : CheckM Unit} {u : Unit} {s s' : Checker} (h : collecting x s = .ok u s') :
    x s = .ok () s' ∨ s'.diagnostics ≠ [] := by
  simp only [collecting, tryCatch_ok, modify_ok] at h
  rcases h with h | ⟨d, t, -, rfl⟩
  · exact .inl h
  · exact .inr (by simp [report])

/-! ## Names -/

/-- The names of the global types. -/
def Global (globals : Table String) (n : String) : Prop := ∃ q ∈ globals, q.2 = n

theorem global_insert {globals : Table String} {n m : String} :
    Global (globals.insert n n) m ↔ m = n ∨ Global globals m := by
  simp only [Global, Table.insert, List.mem_cons, exists_eq_or_imp]
  exact or_congr_left eq_comm

/-- **After the first pass** nothing is known but the names of records. -/
structure Announced (globals : Table String) (s : Checker) : Prop where
  place : s.place = .outside globals
  worded : ∀ q ∈ globals, Worded q.2
  records : ∀ {n r}, s.records.find? n = some r → Global globals n ∧ r.fields = []
  known : ∀ {n}, Global globals n → s.records.find? n ≠ none
  aliases : s.aliases = []
  cells : s.cells = []
  generics : s.generics = []
  instances : s.instances = []
  broadcast : s.broadcast = []
  count : s.recordCount = 0

theorem announced_new (config : Config) : Announced [] (.new config) where
  place := rfl
  worded := by simp
  records := fun h => nomatch h
  known := fun h => by
    obtain ⟨q, hq, -⟩ := h
    cases hq
  aliases := rfl
  cells := rfl
  generics := rfl
  instances := rfl
  broadcast := rfl
  count := rfl

theorem checkTypeName_ok {id : Ident} {u : Unit} {s s' : Checker} (h : checkTypeName id s = .ok u s') : s = s' := by
  simp only [checkTypeName, bind_ok, get_ok] at h
  obtain ⟨_, _, ⟨rfl, rfl⟩, h⟩ := h
  split at h
  · exact absurd h fail_ok
  · exact (pure_ok.1 h).2

theorem declareRecord_announced {id : Ident} {u : Unit} {globals : Table String} {s s' : Checker}
    (h : declareRecord id s = .ok u s') (hid : Worded id.name) (ha : Announced globals s) :
    Announced (globals.insert id.name id.name) s' := by
  simp only [declareRecord, bind_ok, modify_ok, onPlace_ok] at h
  obtain ⟨_, t, ht, _, _, rfl, rfl⟩ := h
  have hsame := checkTypeName_ok ht
  subst hsame
  refine ⟨?_, ?_, fun {n r} hr => ?_, fun {n} hn => ?_, ha.aliases, ha.cells, ha.generics, ha.instances,
    ha.broadcast, ha.count⟩
  · simp only [Checker.onPlace, addRecord, ha.place, Place.outside, addGlobal]
  · intro q hq
    rcases List.mem_cons.1 hq with rfl | hq
    · exact hid
    · exact ha.worded q hq
  · simp only [Checker.onPlace, addRecord, Table.find?_insert] at hr
    rw [global_insert]
    split at hr
    · rename_i hn
      cases hr
      exact ⟨.inl hn, rfl⟩
    · exact ⟨.inr (ha.records hr).1, (ha.records hr).2⟩
  · simp only [Checker.onPlace, addRecord, Table.find?_insert]
    split
    · simp
    · rename_i hne
      exact ha.known ((global_insert.1 hn).resolve_left hne)

theorem declareName_ok {x : Stmt} {s s' : Checker} (h : declareName x s = .ok () s') (hx : x.Written) :
    s'.diagnostics = s.diagnostics ∧ ∀ {globals}, Announced globals s → ∃ globals', Announced globals' s' ∧
      (∀ {n}, Global globals n → Global globals' n) ∧ ∀ d, x = .record d → Global globals' d.name.name := by
  cases x with
  | trait sp id =>
    simp only [declareName, declareTrait, bind_ok, get_ok] at h
    obtain ⟨_, _, ⟨rfl, rfl⟩, h⟩ := h
    split at h
    · simp only [bind_ok] at h
      obtain ⟨_, _, h, -⟩ := h
      exact absurd h fail_ok
    · simp only [modify_ok] at h
      subst h
      exact ⟨rfl, fun {globals} ha => ⟨globals, ⟨ha.place, ha.worded, ha.records, ha.known, ha.aliases, ha.cells,
        ha.generics, ha.instances, ha.broadcast, ha.count⟩, fun hn => hn, by simp⟩⟩
  | record d =>
    refine ⟨?_, fun ha => ⟨_, declareRecord_announced h hx.name ha, fun hn => global_insert.2 (.inr hn),
      fun d' hd' => ?_⟩⟩
    · simp only [declareName, declareRecord, bind_ok, modify_ok, onPlace_ok] at h
      obtain ⟨_, t, ht, _, _, rfl, rfl⟩ := h
      have hsame := checkTypeName_ok ht
      subst hsame
      rfl
    · cases hd'
      exact global_insert.2 (.inl rfl)
  | typeAlias _ _ _ _ | cell _ =>
    simp only [declareName, pure_ok] at h
    obtain ⟨-, rfl⟩ := h
    exact ⟨rfl, fun {globals} ha => ⟨globals, ha, fun hn => hn, by simp⟩⟩
  | _ =>
    simp only [declareName] at h
    exact absurd h fail_ok

/-- **The first pass announces the records.** -/
theorem names_announced {p : Program} {config : Config} {u : Unit} {s : Checker} (hp : ∀ x ∈ p, x.Written)
    (h : p.forM (fun x => collecting (declareName x)) (.new config) = .ok u s) (hclean : s.diagnostics = []) :
    ∃ globals, Announced globals s ∧ ∀ d, .record d ∈ p → Global globals d.name.name := by
  have hnew : ∃ globals, Announced globals (.new config) ∧ ∀ d, .record d ∈ ([] : List Stmt) → Global globals d.name.name :=
    ⟨[], announced_new config, by simp⟩
  refine (forM_ok (C := fun s => s.diagnostics = []) (P := fun done s => ∃ globals, Announced globals s ∧
    ∀ d, .record d ∈ done → Global globals d.name.name) [] (fun x hx s s' done hg hc => ?_) h hclean).2 hnew
  rcases collecting_ok hg with hg | hd
  · obtain ⟨hdiag, hstep⟩ := declareName_ok hg (hp x hx)
    refine ⟨hdiag ▸ hc, fun ⟨globals, ha, hall⟩ => ?_⟩
    obtain ⟨globals', ha', hmono, hnew⟩ := hstep ha
    refine ⟨globals', ha', fun d hd => ?_⟩
    rcases List.mem_append.1 hd with hd | hd
    · exact hmono (hall d hd)
    · exact hnew d (List.mem_singleton.1 hd).symm
  · exact absurd hc hd

/-! ## Fields, aliases and signatures -/

/-- **After the second pass** has gone over the given declarations: whatever is known stands for types that leave nothing
open, and the cells that can be called are those that are declared. -/
structure Declared (globals : Table String) (done : List Stmt) (s : Checker) : Prop where
  place : s.place = .outside globals
  worded : ∀ q ∈ globals, Worded q.2
  records : ∀ {n r}, s.records.find? n = some r → Global globals n ∧ ∀ f ∈ r.fields, f.type.Settled (Global globals)
  known : ∀ {n}, Global globals n → s.records.find? n ≠ none
  aliased : ∀ {n info}, s.aliases.find? n = some info → Worded n
  plain : ∀ {n t}, s.aliases.find? n = some (.plain t) → t.Settled (Global globals)
  generic : ∀ {n ps target}, s.aliases.find? n = some (.generic ps target) →
    ps.params ≠ [] ∧ ∀ m ∈ target.names, Worded m
  cells : ∀ {n sig}, s.cells.find? n = some sig →
    (∃ c, .cell c ∈ done ∧ c.params = [] ∧ c.name.name = n) ∧ sig.Settled (Global globals)
  signed : ∀ c, .cell c ∈ done → c.params = [] → ∃ sig, s.cells.find? c.name.name = some sig ∧
    c.args.map (·.name.name) = sig.params.map (·.name)
  templates : ∀ {n g}, s.generics.find? n = some g → g.cell.params ≠ []
  concrete : (∀ c, .cell c ∈ done → c.params = []) → s.generics = []
  unmangled : s.Unmangled
  instances : s.instances = []
  broadcast : s.broadcast = []
  count : s.recordCount = 0

theorem Announced.declared {globals : Table String} {s : Checker} (h : Announced globals s) :
    Declared globals [] s where
  place := h.place
  worded := h.worded
  records := fun hr => ⟨(h.records hr).1, by simp [(h.records hr).2]⟩
  known := h.known
  aliased := fun ha => by simp [h.aliases, Table.find?] at ha
  plain := fun ha => by simp [h.aliases, Table.find?] at ha
  generic := fun ha => by simp [h.aliases, Table.find?] at ha
  cells := fun hc => by simp [h.cells, Table.find?] at hc
  signed := fun c hc => by cases hc
  templates := fun hg => by simp [h.generics, Table.find?] at hg
  concrete := fun _ => h.generics
  unmangled := fun n hn => by simp [h.generics, Table.contains, Table.find?] at hn
  instances := h.instances
  broadcast := h.broadcast
  count := h.count

theorem spelled_worded {P : String → Prop} {s : Checker} {n : String} (h : Worded n) : Spelled P s n :=
  fun hq => absurd hq (h.notMem (by decide))

section

variable {globals : Table String} {done : List Stmt} {s s' : Checker}

theorem Declared.grounded (h : Declared globals done s) : Grounded (Global globals) s where
  templates := by rw [h.place]; rfl
  types := fun {n c} hc => by
    rw [h.place] at hc
    obtain ⟨t, ht, hm⟩ := mem_of_findSome? hc
    cases List.mem_singleton.1 ht
    exact ⟨_, hm, rfl⟩
  plain := h.plain
  generic := fun hg m hm => spelled_worded ((h.generic hg).2 m hm)

theorem Declared.resolved (h : Declared globals done s) {n : Nat} {w : TypeRef} {t : Ty} (hw : w.Written)
    (ht : typeRef (levels n) w s = .ok t s') : t.Settled (Global globals) :=
  typeRef_settled (levels_orderly n) (levels_settle _ n) h.grounded (fun m hm => spelled_worded (hw.names m hm)) ht

/-- A declaration that is no cell adds nothing to the cells. -/
theorem cell_mem_append {x : Stmt} (hx : ∀ c, x ≠ .cell c) {c : CellDef} :
    Stmt.cell c ∈ done ++ [x] ↔ Stmt.cell c ∈ done := by
  rw [List.mem_append, List.mem_singleton]
  exact ⟨fun h => h.resolve_right fun he => hx c he.symm, .inl⟩

/-- A declaration that is no cell leaves the cells alone. -/
theorem Declared.of_same (h : Declared globals done s) {x : Stmt} (hx : ∀ c, x ≠ .cell c) (hp : s'.place = s.place)
    (hr : ∀ {n r}, s'.records.find? n = some r →
      Global globals n ∧ ∀ f ∈ r.fields, f.type.Settled (Global globals))
    (hk : ∀ {n}, Global globals n → s'.records.find? n ≠ none)
    (ha : ∀ {n info}, s'.aliases.find? n = some info → Worded n ∧ (∀ t, info = .plain t → t.Settled (Global globals)) ∧
      ∀ ps target, info = .generic ps target → ps.params ≠ [] ∧ ∀ m ∈ target.names, Worded m)
    (hc : s'.cells = s.cells) (hg : s'.generics = s.generics) (hi : s'.instances = s.instances)
    (he : s'.events = s.events) (hn : s'.recordCount = s.recordCount) : Declared globals (done ++ [x]) s' where
  place := hp.trans h.place
  worded := h.worded
  records := hr
  known := hk
  aliased := fun hf => (ha hf).1
  plain := fun hf => (ha hf).2.1 _ rfl
  generic := fun hf => (ha hf).2.2 _ _ rfl
  cells := fun hf => by
    rw [hc] at hf
    obtain ⟨⟨c, hm, hpar, hname⟩, hset⟩ := h.cells hf
    exact ⟨⟨c, (cell_mem_append hx).2 hm, hpar, hname⟩, hset⟩
  signed := fun c hm hpar => by
    rw [hc]
    exact h.signed c ((cell_mem_append hx).1 hm) hpar
  templates := fun hf => h.templates (by rwa [hg] at hf)
  concrete := fun hall => hg.trans (h.concrete fun c hm => hall c ((cell_mem_append hx).2 hm))
  unmangled := fun n hn => h.unmangled n (by rwa [hg] at hn)
  instances := hi.trans h.instances
  broadcast := by
    unfold Checker.broadcast
    rw [he]
    exact h.broadcast
  count := hn.trans h.count

theorem Declared.aliases (h : Declared globals done s) {n : String} {info : AliasInfo}
    (hf : s.aliases.find? n = some info) : Worded n ∧ (∀ t, info = .plain t → t.Settled (Global globals)) ∧
      ∀ ps target, info = .generic ps target → ps.params ≠ [] ∧ ∀ m ∈ target.names, Worded m :=
  ⟨h.aliased hf, fun _ ht => h.plain (ht ▸ hf), fun _ _ ht => h.generic (ht ▸ hf)⟩

/-- The fields of a record that has been announced. -/
theorem declared_record {n : Nat} {d : RecordDef} (hd : d.Written)
    (hdecl : declare (levels n) (.record d) s = .ok () s') : s'.diagnostics = s.diagnostics ∧
      (Declared globals done s → Global globals d.name.name → Declared globals (done ++ [.record d]) s') := by
  simp only [declare, bind_ok, modify_ok] at hdecl
  obtain ⟨is, t, his, rfl⟩ := hdecl
  obtain ⟨rfl, hfields, -, -⟩ := recordFields_ok (levels_orderly n) his
  refine ⟨rfl, fun h hglobal => h.of_same (by simp) rfl (fun {m r} hr => ?_) (fun {m} hm => ?_) h.aliases rfl rfl rfl rfl rfl⟩
  · simp only [addRecord, Table.find?_insert] at hr
    split at hr
    · rename_i hname
      cases hr
      refine ⟨hname ▸ hglobal, fun f hf => ?_⟩
      obtain ⟨w, hw, -, -, ht⟩ := forall₂_mem_right hfields hf
      exact h.resolved (hd.fields w hw) ht
    · exact h.records hr
  · simp only [addRecord, Table.find?_insert]
    split
    · simp
    · exact h.known hm

theorem paramDecls_nil {s : Checker} {seen : List String} {ps : List TemplateParam}
    (h : paramDecls s seen ps = .ok []) : ps = [] := by
  cases ps with
  | nil => rfl
  | cons p ps =>
    have hcons : ∀ x : Except Diagnostic ParamSort, (do
        let sort ← x
        return (⟨p.name.name, sort⟩ : ParamDecl) :: (← paramDecls s (p.name.name :: seen) ps)) ≠ .ok [] := by
      intro x hx
      simp only [except_bind_ok, except_pure_ok] at hx
      obtain ⟨_, -, _, -, hx⟩ := hx
      cases hx
    simp only [paramDecls] at h
    split at h
    · cases h
    · split at h
      · split at h <;> exact absurd h (hcons _)
      · exact absurd h (hcons _)
      · exact absurd h (hcons _)
      · exact absurd h (hcons _)

theorem declared_alias {n : Nat} {sp : Span} {id : Ident} {params : List TemplateParam} {target : TypeRef}
    (hid : Worded id.name) (ht : target.Written)
    (hdecl : declare (levels n) (.typeAlias sp id params target) s = .ok () s') : s'.diagnostics = s.diagnostics ∧
      (Declared globals done s → Declared globals (done ++ [.typeAlias sp id params target]) s') := by
  simp only [declare, declareAlias, bind_ok] at hdecl
  obtain ⟨_, t, hname, hdecl⟩ := hdecl
  have hsame := checkTypeName_ok hname
  subst hsame
  have hinsert : ∀ {u : Checker} {info : AliasInfo}, u = s →
      (Declared globals done s → (∀ t, info = .plain t → t.Settled (Global globals)) ∧
        ∀ ps target, info = .generic ps target → ps.params ≠ [] ∧ ∀ m ∈ target.names, Worded m) →
      Declared globals done s → Declared globals (done ++ [.typeAlias sp id params target])
        { u with aliases := u.aliases.insert id.name info } := by
    rintro u info rfl hinfo h
    refine h.of_same (by simp) rfl h.records h.known (fun {m i} hf => ?_) rfl rfl rfl rfl rfl
    simp only [Table.find?_insert] at hf
    split at hf
    · rename_i hm
      cases hf
      exact ⟨hm ▸ hid, hinfo h⟩
    · exact h.aliases hf
  split at hdecl
  · simp only [bind_ok, map_ok, modify_ok] at hdecl
    obtain ⟨_, u, ⟨ty, hty, rfl⟩, rfl⟩ := hdecl
    have hsame := typeRef_same (levels_orderly n) hty
    refine ⟨by rw [hsame], hinsert hsame.symm fun h => ⟨fun t' he => ?_, by simp⟩⟩
    cases he
    exact h.resolved ht hty
  · rename_i hne
    simp only [bind_ok, get_ok, ofExcept_ok, pure_ok, modify_ok] at hdecl
    obtain ⟨_, _, ⟨rfl, rfl⟩, decls, _, ⟨hdecls, rfl⟩, _, _, ⟨rfl, rfl⟩, rfl⟩ := hdecl
    refine ⟨rfl, hinsert rfl fun _ => ⟨by simp, fun ps target' he => ?_⟩⟩
    cases he
    refine ⟨fun hnil => ?_, ht.names⟩
    simp only at hnil
    rw [hnil] at hdecls
    rw [paramDecls_nil hdecls] at hne
    exact hne rfl

theorem isGeneric_iff {c : CellDef} : c.isGeneric = true ↔ c.params ≠ [] := by
  unfold CellDef.isGeneric
  cases c.params <;> simp

/-- A generic cell is kept as it is written. -/
theorem Declared.add_generic (h : Declared globals done s) {c : CellDef} (hw : Worded c.name.name) (hc : c.params ≠ [])
    {decls : ParamLevel} : Declared globals (done ++ [.cell c]) { s with generics := s.generics.insert c.name.name ⟨c, decls, false⟩ } where
  place := h.place
  worded := h.worded
  records := h.records
  known := h.known
  aliased := h.aliased
  plain := h.plain
  generic := h.generic
  cells := fun hf => by
    obtain ⟨⟨c', hm, hpar, hname⟩, hset⟩ := h.cells hf
    exact ⟨⟨c', List.mem_append_left _ hm, hpar, hname⟩, hset⟩
  signed := fun c' hm hpar => by
    rcases List.mem_append.1 hm with hm | hm
    · exact h.signed c' hm hpar
    · cases List.mem_singleton.1 hm
      exact absurd hpar hc
  templates := fun {n g} hf => by
    simp only [Table.find?_insert] at hf
    split at hf
    · cases hf
      exact hc
    · exact h.templates hf
  concrete := fun hall => absurd (hall c (List.mem_append_right _ (List.mem_singleton_self _))) hc
  unmangled := fun n hn => by
    simp only [Table.contains, Table.find?_insert] at hn
    split at hn
    · rename_i he
      exact he ▸ hw.baseName
    · exact h.unmangled n hn
  instances := h.instances
  broadcast := h.broadcast
  count := h.count

/-- **A concrete cell gets the signature that it is written with.** -/
theorem Declared.add_cell (h : Declared globals done s) {c : CellDef} (hc : c.params = []) {sig : CellSig}
    (hfree : s.cells.find? c.name.name = none) (hnames : c.args.map (·.name.name) = sig.params.map (·.name))
    (hset : sig.Settled (Global globals)) :
    Declared globals (done ++ [.cell c]) { s with cells := s.cells.insert c.name.name sig } where
  place := h.place
  worded := h.worded
  records := h.records
  known := h.known
  aliased := h.aliased
  plain := h.plain
  generic := h.generic
  cells := fun {n sg} hf => by
    simp only [Table.find?_insert] at hf
    split at hf
    · rename_i hn
      cases hf
      exact ⟨⟨c, List.mem_append_right _ (List.mem_singleton_self _), hc, hn.symm⟩, hset⟩
    · obtain ⟨⟨c', hm, hpar, hname⟩, hset'⟩ := h.cells hf
      exact ⟨⟨c', List.mem_append_left _ hm, hpar, hname⟩, hset'⟩
  signed := fun c' hm hpar => by
    simp only [Table.find?_insert]
    rcases List.mem_append.1 hm with hm | hm
    · obtain ⟨sg, hsg, hn⟩ := h.signed c' hm hpar
      have hne : c'.name.name ≠ c.name.name := by
        intro he
        rw [he, hfree] at hsg
        cases hsg
      rw [if_neg hne]
      exact ⟨sg, hsg, hn⟩
    · cases List.mem_singleton.1 hm
      rw [if_pos rfl]
      exact ⟨sig, rfl, hnames⟩
  templates := h.templates
  concrete := fun hall => h.concrete fun c' hm => hall c' (List.mem_append_left _ hm)
  unmangled := h.unmangled
  instances := h.instances
  broadcast := h.broadcast
  count := h.count

/-- **A cell is declared under a new name**: a generic one as it is written, a concrete one by its signature. -/
theorem declareCell_ok {n : Nat} {c : CellDef} (h : declareCell (levels n) c s = .ok () s') :
    s.cells.find? c.name.name = none ∧ s.generics.find? c.name.name = none ∧
      ((c.params ≠ [] ∧ ∃ decls, s' = { s with generics := s.generics.insert c.name.name ⟨c, decls, false⟩ }) ∨
        c.params = [] ∧ ∃ sig, signature (levels n) c s = .ok sig s ∧
          s' = { s with cells := s.cells.insert c.name.name sig }) := by
  simp only [declareCell] at h
  split at h
  · simp only [bind_ok] at h
    obtain ⟨_, _, h, -⟩ := h
    exact absurd h fail_ok
  simp only [bind_ok, get_ok] at h
  obtain ⟨_, _, ⟨rfl, rfl⟩, h⟩ := h
  split at h
  · simp only [bind_ok] at h
    obtain ⟨_, _, h, -⟩ := h
    exact absurd h fail_ok
  rename_i hnew
  simp only [Bool.or_eq_true, not_or, Table.contains, Bool.not_eq_true, Option.isSome_eq_false_iff,
    Option.isNone_iff_eq_none] at hnew
  refine ⟨hnew.1, hnew.2, ?_⟩
  split at h
  · rename_i hg
    simp only [bind_ok, ofExcept_ok, modify_ok] at h
    obtain ⟨decls, _, ⟨-, rfl⟩, rfl⟩ := h
    exact .inl ⟨isGeneric_iff.1 hg, ⟨0, decls⟩, rfl⟩
  · rename_i hg
    simp only [bind_ok, modify_ok] at h
    obtain ⟨sig, t, hsig, rfl⟩ := h
    obtain ⟨rfl, -⟩ := signature_ok (levels_orderly n) hsig
    exact .inr ⟨by_contra fun hne => hg (isGeneric_iff.2 hne), sig, hsig, rfl⟩

theorem declared_cell {n : Nat} {c : CellDef} (hw : c.Written) (hdecl : declare (levels n) (.cell c) s = .ok () s') :
    s'.diagnostics = s.diagnostics ∧ (Declared globals done s → Declared globals (done ++ [.cell c]) s') := by
  obtain ⟨hname, hargs, hret, -⟩ := hw.parts
  obtain ⟨hfree, -, ⟨hgen, decls, rfl⟩ | ⟨hcon, sig, hsig, rfl⟩⟩ := declareCell_ok hdecl
  · exact ⟨rfl, fun h => h.add_generic hname hgen⟩
  · obtain ⟨-, hparams, hresult⟩ := signature_ok (levels_orderly n) hsig
    refine ⟨rfl, fun h => h.add_cell hcon hfree (params_names hparams) ⟨?_, ?_⟩⟩
    · intro p hp
      obtain ⟨a, ha, -, -, ht⟩ := forall₂_mem_right hparams hp
      exact h.resolved (hargs a ha).type ht
    · obtain ⟨-, hunit⟩ | ⟨w, hw', ht⟩ := hresult
      · rw [hunit]
        trivial
      · exact h.resolved (hret w hw') ht

/-- **The second pass declares everything else.** -/
theorem declare_ok {n : Nat} {x : Stmt} (hx : x.Written) (hdecl : declare (levels n) x s = .ok () s') :
    s'.diagnostics = s.diagnostics ∧ ((∀ d, x = .record d → Global globals d.name.name) → Declared globals done s →
      Declared globals (done ++ [x]) s') := by
  have hother : (∀ c, x ≠ .cell c) → declare (levels n) x s = (pure () : CheckM Unit) s → s'.diagnostics = s.diagnostics ∧
      ((∀ d, x = .record d → Global globals d.name.name) → Declared globals done s →
        Declared globals (done ++ [x]) s') := by
    intro hc hp
    rw [hp] at hdecl
    obtain ⟨-, rfl⟩ := pure_ok.1 hdecl
    exact ⟨rfl, fun _ h => h.of_same hc rfl h.records h.known h.aliases rfl rfl rfl rfl rfl⟩
  cases x with
  | record d =>
    obtain ⟨hdiag, h⟩ := declared_record hx hdecl
    exact ⟨hdiag, fun hg hd => h hd (hg d rfl)⟩
  | typeAlias sp id params target =>
    obtain ⟨hdiag, h⟩ := declared_alias hx.1 hx.2 hdecl
    exact ⟨hdiag, fun _ => h⟩
  | cell c =>
    obtain ⟨hdiag, h⟩ := declared_cell hx hdecl
    exact ⟨hdiag, fun _ => h⟩
  | _ => exact hother (by simp) rfl

end

theorem declare_keeps_diagnostics {n : Nat} {x : Stmt} {s s' : Checker} (hx : x.Written)
    (h : declare (levels n) x s = .ok () s') : s'.diagnostics = s.diagnostics :=
  (@declare_ok [] [] s s' n x hx h).1

/-- **After both passes** everything is declared, if nothing was wrong. -/
theorem declarations_ok {p : Program} {config : Config} {u v : Unit} {s t : Checker} (hp : ∀ x ∈ p, x.Written)
    (hnames : p.forM (fun x => collecting (declareName x)) (.new config) = .ok u s)
    (hdecls : p.forM (fun x => (do collecting (declare (fromHere (← get)) x) : CheckM Unit)) s = .ok v t)
    (hclean : t.diagnostics = []) : ∃ globals, Declared globals p t := by
  have hpass : ∀ globals, s.diagnostics = [] ∧
      ((∀ d, .record d ∈ p → Global globals d.name.name) → Declared globals [] s → Declared globals p t) := by
    intro globals
    have h := forM_ok (C := fun s => s.diagnostics = []) (P := fun done s =>
      (∀ d, .record d ∈ p → Global globals d.name.name) → Declared globals done s) [] (fun x hx s s' done hstep hc => ?_)
      hdecls hclean
    · exact ⟨h.1, fun hg hs => h.2 (fun _ => hs) hg⟩
    simp only [bind_ok, get_ok] at hstep
    obtain ⟨_, _, ⟨rfl, rfl⟩, hstep⟩ := hstep
    rcases collecting_ok hstep with hstep | hd
    · obtain ⟨hdiag, h⟩ := declare_ok (hp x hx) hstep
      exact ⟨hdiag ▸ hc, fun hs hg => h (fun d hd => hg d (hd ▸ hx)) (hs hg)⟩
    · exact absurd hc hd
  obtain ⟨globals, ha, hg⟩ := names_announced hp hnames (hpass []).1
  exact ⟨globals, (hpass globals).2 hg ha.declared⟩

end Check
end Unroll
