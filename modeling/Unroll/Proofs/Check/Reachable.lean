import Unroll.Proofs.Check.Kept
import Unroll.Proofs.Check.Selection
/-!
# States that a checker can be led to

A caller leads a checker on by declarations, which are written, and by statements and instances, which need not be; in
between it goes wherever it likes, as long as the scopes there tell of records that there are.  On all these ways a name
of a type leads to names that mean something for good: no index of an expansion becomes one, and what has the mark of a
record of a block is such a record.
-/
namespace Unroll

/-! ## The names of what is written -/

mutual

theorem Expr.Written.names {P : String → Prop} (hP : ∀ n, Worded n → P n) : ∀ {e : Expr}, e.Written → e.Names P
  | .int _ _, _ | .char _ _, _ | .bool _ _, _ | .text _ _, _ => trivial
  | .name _ id, h => hP id.name h
  | .list _ items, h | .array _ items, h => Expr.AllWritten.names hP (show Expr.AllWritten items from h)
  | .record _ _ fs, h => ⟨hP _ h.1, Expr.FieldsWritten.names hP (show Expr.FieldsWritten fs from h.2)⟩
  | .unary _ _ e, h | .member _ e _, h => Expr.Written.names hP (e := e) h
  | .binary _ _ _ _, h | .index _ _ _, h => ⟨Expr.Written.names hP h.1, Expr.Written.names hP h.2⟩
  | .call _ _ _ _, h => ⟨TypeArg.AllWritten.free hP h.2.1, Expr.AllWritten.names hP h.2.2⟩

theorem Expr.AllWritten.names {P : String → Prop} (hP : ∀ n, Worded n → P n) : ∀ {es : List Expr},
    Expr.AllWritten es → Expr.AllNames P es
  | [], _ => trivial
  | _ :: _, h => ⟨Expr.Written.names hP h.1, Expr.AllWritten.names hP h.2⟩

theorem Expr.FieldsWritten.names {P : String → Prop} (hP : ∀ n, Worded n → P n) : ∀ {fs : List (Ident × Expr)},
    Expr.FieldsWritten fs → Expr.FieldNames P fs
  | [], _ => trivial
  | (_, _) :: _, h => ⟨Expr.Written.names hP h.1, Expr.FieldsWritten.names hP h.2⟩

/-- What a written type leaves to the place. -/
theorem TypeRef.Written.free {P : String → Prop} (hP : ∀ n, Worded n → P n) : ∀ {w : TypeRef} {bound : List String},
    w.Written → ∀ n ∈ w.free bound, P n
  | .named _ id [], bound, h, n, hn => by
    simp only [TypeRef.free] at hn
    split at hn
    · cases hn
    · exact List.mem_singleton.1 hn ▸ hP _ h.1
  | .named _ id (a :: as), bound, h, n, hn => by
    simp only [TypeRef.free] at hn
    obtain rfl | hn := List.mem_cons.1 hn
    · exact hP _ h.1
    · exact TypeArg.AllWritten.free hP h.2 n hn
  | .array _ elem len, bound, h, n, hn => by
    simp only [TypeRef.free] at hn
    obtain hn | hn := List.mem_append.1 hn
    · exact TypeRef.Written.free hP h.1 n hn
    · exact (Expr.Written.names hP h.2).constants n (List.mem_of_mem_filter hn)

theorem TypeArg.Written.free {P : String → Prop} (hP : ∀ n, Worded n → P n) : ∀ {a : TypeArg} {bound : List String},
    a.Written → ∀ n ∈ a.free bound, P n
  | .type w, _, h => TypeRef.Written.free hP (w := w) h
  | .value e, _, h => fun n hn => (Expr.Written.names hP (e := e) h).constants n (List.mem_of_mem_filter hn)

theorem TypeArg.AllWritten.free {P : String → Prop} (hP : ∀ n, Worded n → P n) : ∀ {as : List TypeArg}
    {bound : List String}, TypeArg.AllWritten as → ∀ n ∈ TypeArg.allFree bound as, P n
  | [], _, _, _, hn => absurd hn List.not_mem_nil
  | a :: as, _, h, n, hn => by
    simp only [TypeArg.allFree] at hn
    obtain hn | hn := List.mem_append.1 hn
    · exact TypeArg.Written.free hP h.1 n hn
    · exact TypeArg.AllWritten.free hP h.2 n hn

end

namespace Check

open CheckM Outcome Checker

/-! ## Names that mean something for good -/

/-- The name is not the index, and if it has the mark of a record of a block it is one. -/
def Usable (index : String) (s : Checker) (n : String) : Prop :=
  n ≠ index ∧ ('\'' ∈ n.toList → s.records.contains n = true)

/-- **Whatever the tables tell leads to names that mean something for good.** -/
structure WellNamed (s : Checker) : Prop where
  fresh : s.Fresh
  templates : ∀ {n g}, s.generics.find? n = some g → '<' ∉ n.toList
  records : ∀ {n}, s.records.contains n = true → ∀ d, n ≠ indexName d
  scopes : ∀ {scope : Table String} {n c}, scope ∈ s.place.types → scope.find? n = some c → s.records.contains c = true
  plain : ∀ {n t}, s.aliases.find? n = some (.plain t) → ∀ k ∈ t.spelling, ∀ d, Usable (indexName d) s k
  generic : ∀ {n ps target}, s.aliases.find? n = some (.generic ps target) →
    ∀ k ∈ target.free ps.names, ∀ d, Usable (indexName d) s k

variable {s t : Checker} {n d : Nat}

theorem usable_of_worded {k : String} (h : Worded k) : Usable (indexName d) s k :=
  ⟨h.ne_indexName d, fun hq => absurd hq (h.notMem (by decide))⟩

theorem Usable.mono {index k : String} (h : Usable index s k)
    (hst : ∀ {m}, s.records.contains m = true → t.records.contains m = true) : Usable index t k :=
  ⟨h.1, fun hq => hst (h.2 hq)⟩

theorem builtin_worded {k : String} {b : Ty} (h : Ty.builtin? k = some b) : Worded k := by
  unfold Ty.builtin? at h
  split at h
  · exact List.all_eq_true.1 (by decide)
  · exact List.all_eq_true.1 (by decide)
  · exact List.all_eq_true.1 (by decide)
  · exact List.all_eq_true.1 (by decide)
  · exact List.all_eq_true.1 (by decide)
  · cases h

theorem WellNamed.anchored (h : WellNamed s) (d : Nat) : Anchored (Usable (indexName d) s) s where
  fresh := h.fresh
  closed :=
    { builtin := fun hb => usable_of_worded (builtin_worded hb)
      records := fun {k c} hk hc => by
        unfold recordName? at hc
        split at hc
        · rename_i c' hscope
          cases hc
          obtain ⟨scope, hmem, hfound⟩ := List.exists_of_findSome?_eq_some hscope
          have hknown := h.scopes hmem hfound
          exact ⟨h.records hknown d, fun _ => hknown⟩
        · split at hc
          · cases hc
            exact hk
          · cases hc
      plain := fun _ ha k hk => h.plain ha k hk d
      generic := fun _ ha k hk => h.generic ha k hk d }
  known := fun hk => hk.2
  templates := h.templates

theorem WellNamed.new (config : Config) : WellNamed (.new config) where
  fresh := fun _ _ _ => rfl
  templates := nofun
  records := nofun
  scopes := fun hs hc => by
    cases List.mem_singleton.1 hs
    cases hc
  plain := nofun
  generic := nofun

/-! ## Checks -/

theorem quote_notMem_indexName (d : Nat) : '\'' ∉ (indexName d).toList := by
  unfold indexName
  rw [String.toList_append, toString_toList]
  exact fun h => (List.mem_append.1 h).elim (by decide) (quote_notMem_digits d)

/-- All scopes tell of records that there are. -/
def Scoped (s : Checker) (types : List (Table String)) : Prop :=
  ∀ scope ∈ types, ∀ k c, scope.find? k = some c → s.records.contains c = true

/-- A check adds records of blocks alone. -/
theorem WellNamed.remembered (h : WellNamed s) (hst : Remembers s t) (hp : Scoped t t.place.types) : WellNamed t where
  fresh := hst.fresh h.fresh
  templates := fun hg => by
    obtain ⟨_, hg', -⟩ := hst.symm_template hg
    exact h.templates hg'
  records := fun {k} hk d => by
    obtain hold | hquote := hst.blocks hk
    · exact h.records hold d
    · rintro rfl
      exact quote_notMem_indexName d hquote
  scopes := fun hscope hc => hp _ hscope _ _ hc
  plain := fun ha k hk d => (h.plain (hst.aliases ▸ ha) k hk d).mono hst.recorded
  generic := fun ha k hk d => (h.generic (hst.aliases ▸ ha) k hk d).mono hst.recorded

theorem WellNamed.scoped (h : WellNamed s) (hst : Remembers s t) {types : List (Table String)}
    (hsub : ∀ scope ∈ types, scope ∈ s.place.types) : Scoped t types :=
  fun _ hscope _ _ hc => hst.recorded (h.scopes (hsub _ hscope) hc)

/-- The second state is well named, if the first one is. -/
def Naming (s t : Checker) : Prop := WellNamed s → WellNamed t

instance : IsPreorder Checker Naming where
  refl _ h := h
  trans _ _ _ h h' hs := h' (h hs)

theorem Naming.of_types (hst : Remembers s t) (hp : t.place.types = s.place.types) : Naming s t :=
  fun h => h.remembered hst (h.scoped hst fun _ hscope => hp ▸ hscope)

theorem Naming.of_keeps (h : Keeps Eq Remembers s t) : Naming s t := .of_types h.rest (congrArg Place.types h.place.symm)

theorem Naming.of_left (h : Keeps Place.Left Remembers s t) : Naming s t := .of_types h.rest h.place.2.2

theorem Naming.moved (hr : t.records = s.records) (hn : t.recordCount = s.recordCount) (ha : t.aliases = s.aliases)
    (hg : t.generics = s.generics) (hp : Scoped s t.place.types) : Naming s t := by
  intro h
  have hknown : ∀ {m}, s.records.contains m = true → t.records.contains m = true := fun hm => by rwa [hr]
  refine ⟨fun base k hk => ?_, fun hf => h.templates (hg ▸ hf), fun hk => h.records (hr ▸ hk),
    fun hscope hc => hknown (hp _ hscope _ _ hc), fun hf k hk d => (h.plain (ha ▸ hf) k hk d).mono hknown,
    fun hf k hk d => (h.generic (ha ▸ hf) k hk d).mono hknown⟩
  rw [hr]
  exact h.fresh base k (hn ▸ hk)

theorem mem_insert_scope {ts : List (Table String)} {name c : String} {scope : Table String}
    (h : scope ∈ ts.modifyHead (·.insert name c)) : scope ∈ ts ∨ ∃ g ∈ ts, scope = g.insert name c := by
  cases ts with
  | nil => exact .inl h
  | cons g ts =>
    obtain rfl | h := List.mem_cons.1 h
    · exact .inr ⟨g, List.mem_cons_self .., rfl⟩
    · exact .inl (List.mem_cons_of_mem _ h)

/-- A scope with one more name for a record. -/
theorem Scoped.insert {types types' : List (Table String)} {name c : String} (h : Scoped s types)
    (hc : s.records.contains c = true)
    (hsub : ∀ scope ∈ types', scope ∈ types ∨ ∃ g ∈ types, scope = g.insert name c) : Scoped s types' := by
  intro scope hscope k r hr
  obtain hold | ⟨g, hg, rfl⟩ := hsub scope hscope
  · exact h scope hold k r hr
  · rw [Table.find?_insert] at hr
    split at hr
    · cases hr
      exact hc
    · exact h g hg k r hr

/-- **A record of a block is told of by the innermost scope**, and it is one. -/
theorem defineRecord_known {id : Ident} {fs : List RecordField} {ty : Ty}
    (h : defineRecord (levels n) id fs s = .ok ty t) :
    ∃ canonical, t.records.contains canonical = true ∧ t.place.types = s.place.types.modifyHead (·.insert id.name canonical) := by
  obtain ⟨infos, u, canonical, hfs, -, -, -, -, rfl⟩ := defineRecord_ok h
  obtain rfl := (recordFields_reads (typeRefAt_reads n) id fs []).ok hfs
  refine ⟨canonical, Table.contains_insert.2 (.inl rfl), ?_⟩
  have hlocal := fun p : Place => (Place.left_recordLocal p id.name).2.2
  cases hty : s.place.types <;>
    · simp only [addEvent, Checker.onPlace, Checker.addRecord, hlocal, hty]
      rfl

theorem defineRecord_naming (id : Ident) (fs : List RecordField) : Always Naming (defineRecord (levels n) id fs) := by
  refine .of_ends (fun {s _ t} h hs => ?_) fun s d t h => ?_
  · have hrest : Remembers s t := ((defineRecord_keeps id fs).ok h).rest
    obtain ⟨canonical, hknown, htypes⟩ := defineRecord_known h
    have hscoped : Scoped t s.place.types := hs.scoped hrest fun _ hscope => hscope
    exact hs.remembered hrest (hscoped.insert hknown fun _ hscope => mem_insert_scope (htypes ▸ hscope))
  · obtain rfl := defineRecord_fails (typeRefAt_reads n) id fs s d t h
    exact refl_of Naming s

/-- **A statement keeps the names in order**, whether it passes or fails. -/
theorem stmt_naming (x : Stmt) : Always Naming (stmt (levels n) x) := by
  have hkeeps := stmt_keeps (T := Remembers) (stmtAt_keeps n) x
  cases x with
  | record r =>
    unfold stmt
    exact .bind (defineRecord_naming r.name r.fields) fun _ => .pure _
  | val d =>
    refine .of_ends (fun {s r t} h => ?_) (fun s d t h => .of_left (hkeeps.fails s d t h))
    obtain ⟨-, v, -, -, htypes⟩ := stmt_leftBy h
    exact .of_types (hkeeps.moves.ok h).rest htypes
  | _ => exact (hkeeps.leaves rfl).mono .of_left

/-! ## Declarations -/

theorem mem_addGlobal {name : String} {scope : Table String} : ∀ {ts : List (Table String)},
    scope ∈ addGlobal name ts → scope ∈ ts ∨ ∃ g ∈ ts, scope = g.insert name name
  | [], h => .inl h
  | [g], h => .inr ⟨g, List.mem_cons_self .., List.mem_singleton.1 h⟩
  | g :: g' :: ts, h => by
    obtain rfl | h := List.mem_cons.1 h
    · exact .inl (List.mem_cons_self ..)
    · obtain h | ⟨r, hr, he⟩ := mem_addGlobal h
      · exact .inl (List.mem_cons_of_mem _ h)
      · exact .inr ⟨r, List.mem_cons_of_mem _ hr, he⟩

theorem WellNamed.addRecord (h : WellNamed s) {name : String} (hn : Worded name) (fs : List FieldInfo) :
    WellNamed (s.addRecord name fs) := by
  have hknown : ∀ {m}, s.records.contains m = true → (s.addRecord name fs).records.contains m = true :=
    fun hm => Table.contains_insert.2 (.inr hm)
  refine ⟨fun base k hk => ?_, h.templates, fun {m} hm d => ?_, fun hscope hc => hknown (h.scopes hscope hc),
    fun hf k hk d => (h.plain hf k hk d).mono hknown, fun hf k hk d => (h.generic hf k hk d).mono hknown⟩
  · have hne : localName base k ≠ name := fun he => hn.notMem (c := '\'') (by decide) (he ▸ quote_mem_localName base k)
    unfold Checker.addRecord
    dsimp only
    rw [Table.find?_insert, if_neg hne]
    exact h.fresh base k hk
  · obtain rfl | hm := Table.contains_insert.1 hm
    · exact hn.ne_indexName d
    · exact h.records hm d

theorem declareRecord_naming {id : Ident} (hid : Worded id.name) : Always Naming (declareRecord id) := by
  refine .bind (checkTypeName_always id) fun _ => ?_
  intro s hs
  have hrecord := hs.addRecord hid []
  refine Naming.moved (s := s.addRecord id.name []) rfl rfl rfl rfl ?_ hrecord
  have hscoped : Scoped (s.addRecord id.name []) s.place.types := fun _ hscope _ _ hc => hrecord.scopes hscope hc
  exact hscoped.insert (Table.contains_insert.2 (.inl rfl)) fun _ hscope => mem_addGlobal hscope

theorem declareName_naming {x : Stmt} (hx : x.Written) : Always Naming (declareName x) := by
  cases x with
  | trait sp id =>
    refine .bind .get fun s => ?_
    dsimp only
    split
    · exact .fail_bind
    · exact .modify fun s h => ⟨h.fresh, h.templates, h.records, h.scopes, h.plain, h.generic⟩
  | record r => exact declareRecord_naming hx.name
  | typeAlias _ _ _ _ | cell _ => exact .pure _
  | _ => exact .fail _ _

/-- A written type is spelled with names that mean something for good. -/
theorem typeRef_usable (hs : WellNamed s) {w : TypeRef} (hw : w.Written) {ty : Ty}
    (h : typeRef (levels n) w s = .ok ty t) : ∀ k ∈ ty.spelling, ∀ d, Usable (indexName d) s k := by
  intro k hk d
  have hreads : Reads (Usable (indexName d) s) (levels n).typeRef (levels n).typeRef :=
    typeRefAt_reads_alike (Nat.le_refl n)
  exact (typeRef_alike (levels_orderly n) hreads (After.refl _ s).alike (hs.anchored d).closed (Nat.le_refl _)
    (hw.free fun _ => usable_of_worded) h).2 k hk

theorem WellNamed.alias (h : WellNamed s) {name : String} {info : AliasInfo}
    (hplain : ∀ ty, info = .plain ty → ∀ k ∈ ty.spelling, ∀ d, Usable (indexName d) s k)
    (hgeneric : ∀ ps target, info = .generic ps target → ∀ k ∈ target.free ps.names, ∀ d, Usable (indexName d) s k) :
    WellNamed { s with aliases := s.aliases.insert name info } := by
  refine ⟨h.fresh, h.templates, h.records, h.scopes, fun {m ty} hf => ?_, fun {m ps target} hf => ?_⟩
  · rw [Table.find?_insert] at hf
    split at hf
    · cases hf
      exact hplain ty rfl
    · exact h.plain hf
  · rw [Table.find?_insert] at hf
    split at hf
    · cases hf
      exact hgeneric ps target rfl
    · exact h.generic hf

theorem declareAlias_naming (id : Ident) (params : List TemplateParam) {target : TypeRef} (ht : target.Written) :
    Always Naming (declareAlias (levels n) id params target) := by
  refine .bind (checkTypeName_always id) fun _ => ?_
  dsimp only
  split
  · refine .after (.map (typeRef_reads (typeRefAt_reads n) target)) fun s info hinfo hs => ?_
    obtain ⟨ty, hty, rfl⟩ := map_ok.1 hinfo
    refine hs.alias (fun ty' he => ?_) nofun
    cases he
    exact typeRef_usable hs ht hty
  · refine .bind .get fun s => .bind (.ofExcept _) fun decls => .modify fun s hs => ?_
    refine hs.alias nofun fun ps target' he k hk d => ?_
    cases he
    exact ht.free (fun _ => usable_of_worded) k hk

theorem declareCell_naming {c : CellDef} (hc : Worded c.name.name) : Always Naming (declareCell (levels n) c) := by
  unfold declareCell
  dsimp only
  split
  · exact .fail_bind
  refine .bind .get fun s => ?_
  split
  · exact .fail_bind
  split
  · refine .bind (.ofExcept _) fun decls => .modify fun s hs => ?_
    refine ⟨hs.fresh, fun {m g} hf => ?_, hs.records, hs.scopes, hs.plain, hs.generic⟩
    rw [Table.find?_insert] at hf
    split at hf
    · rename_i he
      exact he ▸ hc.notMem (by decide)
    · exact hs.templates hf
  · refine .bind (.of_eq (signature_reads (typeRefAt_reads n) c)) fun sig => .modify fun s hs => ?_
    exact ⟨hs.fresh, hs.templates, hs.records, hs.scopes, hs.plain, hs.generic⟩

theorem declare_naming {x : Stmt} (hx : x.Written) : Always Naming (declare (levels n) x) := by
  cases x with
  | record r =>
    refine .bind (.of_eq (recordFields_reads (typeRefAt_reads n) _ _ _)) fun fs => .modify fun s hs => ?_
    exact hs.addRecord hx.name fs
  | typeAlias _ id params target => exact declareAlias_naming id params hx.2
  | cell c => exact declareCell_naming (CellDef.Written.parts hx).1
  | _ => exact .pure _

/-! ## States that are reached -/

/-- **The states that a caller can lead a checker to**, with the four passes over a program step by step, each of them well
or badly ended, and with single statements and instances; it may go anywhere in between. -/
inductive Reachable : Checker → Prop
  | new (config : Config) : Reachable (.new config)
  | named {s : Checker} {x : Stmt} : x.Written → Reachable s → Reachable (ends (declareName x) s)
  | declared {s : Checker} {x : Stmt} (n : Nat) : x.Written → Reachable s → Reachable (ends (declare (levels n) x) s)
  | template {s : Checker} (n : Nat) (x : Stmt) : Reachable s → Reachable (ends (elaborateTemplates (levels n) x) s)
  | body {s : Checker} (n : Nat) (x : Stmt) : Reachable s → Reachable (ends (elaborateStmt (levels n) x) s)
  | stmt {s : Checker} (n : Nat) (x : Stmt) : Reachable s → Reachable (ends (Check.stmt (levels n) x) s)
  | made {s : Checker} (n : Nat) (id : Ident) (args : List TemplateArg) : Reachable s →
    Reachable (ends (instantiateCell (levels n) id args) s)
  | moved {s t : Checker} : Reachable s → t.records = s.records → t.recordCount = s.recordCount →
    t.aliases = s.aliases → t.generics = s.generics → Scoped s t.place.types → Reachable t

theorem Reachable.wellNamed (h : Reachable s) : WellNamed s := by
  induction h with
  | new config => exact .new config
  | named hx _ ih => exact declareName_naming hx _ ih
  | declared n hx _ ih => exact declare_naming hx _ ih
  | template n x _ ih => exact Naming.of_keeps (elaborateTemplates_keeps n x _) ih
  | body n x _ ih => exact Naming.of_keeps (elaborateStmt_keeps n x _) ih
  | stmt n x _ ih => exact stmt_naming x _ ih
  | made n id args _ ih => exact Naming.of_keeps (instantiateCell_keeps (stmtAt_keeps n) id args _) ih
  | moved _ hr hn ha hg hp ih => exact Naming.moved hr hn ha hg hp ih

/-- A state that differs in nothing but what is kept for the caller. -/
theorem Reachable.noting (h : Reachable s) (hr : t.records = s.records) (hn : t.recordCount = s.recordCount)
    (ha : t.aliases = s.aliases) (hg : t.generics = s.generics) (hp : t.place = s.place) : Reachable t :=
  h.moved hr hn ha hg fun _ hscope _ _ hc => h.wellNamed.scopes (hp ▸ hscope) hc

/-- The second state is reachable, if the first one is. -/
def Leading (s t : Checker) : Prop := Reachable s → Reachable t

instance : IsPreorder Checker Leading where
  refl _ h := h
  trans _ _ _ h h' hs := h' (h hs)

theorem collecting_leading {x : CheckM Unit} (hx : Always Leading x) : Always Leading (collecting x) :=
  .tryCatch hx fun _ => .modify fun _ h => h.noting rfl rfl rfl rfl rfl

/-- **A program leads on from reachable states to reachable states**, whether it passes or fails. -/
theorem program_leading {p : Program} (hp : ∀ x ∈ p, x.Written) : Always Leading (Check.program p) := by
  have hnames : Always Leading (p.forM fun x => collecting (declareName x)) :=
    .forM p fun x hx => collecting_leading fun _ => .named (hp x hx)
  have hdecls : Always Leading (p.forM fun x => do collecting (declare (fromHere (← get)) x)) :=
    .forM p fun x hx => .bind .get fun u => collecting_leading fun _ => .declared _ (hp x hx)
  have htemplates : Always Leading (p.forM fun x => do collecting (elaborateTemplates (fromHere (← get)) x)) :=
    .forM p fun x _ => .bind .get fun u => collecting_leading fun _ => .template _ x
  have hbodies : Always Leading (p.mapM fun x => do elaborateStmt (fromHere (← get)) x) :=
    .mapM (fun x => .bind .get fun u => fun _ => .body _ x) p
  refine .bind (.modify fun _ h => h.noting rfl rfl rfl rfl rfl) fun _ => .bind hnames fun _ => .bind hdecls fun _ =>
    .bind htemplates fun _ => .bind hbodies fun stmts => .bind .get fun fin => ?_
  split
  · exact .throw _
  · exact .bind (.modify fun _ h => h.noting rfl rfl rfl rfl rfl) fun _ => .pure _

/-! ## The two ways to an element -/

/-- **Asking for one element agrees with the copies of an expansion.**  Where an expansion over a range is accepted and it
is known how many copies there are, each element that can be asked for is what its copy begins with, but for places, once
the range stands for its hidden name; and any other index is an error in the index.  The names of the range are those that
can be written, or that a check has put in. -/
theorem selection_agrees {s s' : Checker} {n : Nat} {x x' : Expansion} {index : Expr} {k : Int} {cs : List Copy}
    (hs : Reachable s) (hnames : x.range.Names (Usable (indexName (x.depth.getD s.place.templates.length)) s))
    (hinit : x.init = none) (hx : expansion (levels n) x s = .ok x' s') (hcs : x'.state.known? = some cs)
    (hk : Const.eval s.place.constant? index = .ok (.int k)) :
    (0 ≤ k → k < cs.length → ∃ sp d rest e t, cs[k.toNat]? = some ⟨k.toNat, ⟨sp, .val d :: rest⟩⟩ ∧
        selectElement (levels n) x.range index s = .ok e t ∧ e.unplaced = (x'.inlined d.expr).unplaced) ∧
      (k < 0 ∨ cs.length ≤ k → ∃ d t, selectElement (levels n) x.range index s = .error d t ∧ d.kind = .indexEvaluation) :=
  selection_anchored (hs.wellNamed.anchored _) hnames (fun h => h.1 rfl) hinit hx hcs hk

/-- An expansion with the given range and nothing in its body. -/
def ranging (range : Expr) : Expansion :=
  ⟨nowhere, nowhere, none, ⟨nowhere, bareName "x", false, none⟩, range, ⟨nowhere, []⟩, none, .pending⟩

/-- The list `{1, 'a', false}`. -/
def mixed : Expr := .list nowhere [.int nowhere 1, .char nowhere 'a', .bool nowhere false]

/-- The element `2 - 1` of a list is what the second copy begins with. -/
theorem selection_agrees_mixed : ∃ x' s' cs, expansion (levels 1) (ranging mixed) (.new .standard) = .ok x' s' ∧
    x'.state.known? = some cs ∧ cs.length = 3 ∧ (0 : Int) ≤ 1 ∧ ∃ sp d rest e t, cs[1]? = some ⟨1, ⟨sp, .val d :: rest⟩⟩ ∧
      selectElement (levels 1) mixed (.binary nowhere (.int nowhere 2) .sub (.int nowhere 1)) (.new .standard) = .ok e t ∧
        e.unplaced = (x'.inlined d.expr).unplaced := by
  have h : (match expansion (levels 1) (ranging mixed) (.new .standard) with
      | .ok x' _ => decide (x'.state.known?.map List.length = some 3)
      | .error _ _ => false) = true := by decide +kernel
  split at h
  · rename_i x' s' hx
    obtain ⟨cs, hcs, hlen⟩ := Option.map_eq_some_iff.1 (of_decide_eq_true h)
    have hnames : (ranging mixed).range.Names
        (Usable (indexName ((ranging mixed).depth.getD (Checker.new .standard).place.templates.length)) (.new .standard)) :=
      ⟨trivial, trivial, trivial, trivial⟩
    have hin : (1 : Int) < cs.length := by omega
    exact ⟨x', s', cs, hx, hcs, hlen, by decide, (selection_agrees (.new .standard) hnames rfl hx hcs rfl).1 (by decide) hin⟩
  · cases h

/-- The names of what is written mean something for good. -/
theorem usable_of_written {e : Expr} (h : e.Written) (d : Nat) (s : Checker) : e.Names (Usable (indexName d) s) :=
  h.names fun _ => usable_of_worded

/-- **Of a range that is written** each element can be asked for, where the expansion over it is accepted: no name in it is
one that a check makes up. -/
theorem written_selection {s s' : Checker} {n : Nat} {x x' : Expansion} {index : Expr} {k : Int} {cs : List Copy}
    (hs : Reachable s) (hrange : x.range.Written) (hinit : x.init = none) (hx : expansion (levels n) x s = .ok x' s')
    (hcs : x'.state.known? = some cs) (hk : Const.eval s.place.constant? index = .ok (.int k)) :
    (0 ≤ k → k < cs.length → ∃ sp d rest e t, cs[k.toNat]? = some ⟨k.toNat, ⟨sp, .val d :: rest⟩⟩ ∧
        selectElement (levels n) x.range index s = .ok e t ∧ e.unplaced = (x'.inlined d.expr).unplaced) ∧
      (k < 0 ∨ cs.length ≤ k → ∃ d t, selectElement (levels n) x.range index s = .error d t ∧ d.kind = .indexEvaluation) :=
  selection_anchored (hs.wellNamed.anchored _) (usable_of_written hrange _ s) (fun h => h.1 rfl) hinit hx hcs hk

end Check
end Unroll
