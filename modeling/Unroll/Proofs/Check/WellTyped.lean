import Unroll.Proofs.Typing
import Unroll.Proofs.TypeNames
/-!
# A check that passes leaves a well-typed tree

Outside of all templates nothing is put off: every type is known there, so every check that a template would leave out
is made.  A body is checked inside a template first, and of that check only what it declares for the whole program
matters: the records, and the instances of generic cells.  Instances are checked outside of templates again.

What a tree is well typed against is what the whole program declares in the end, so all of this is said from the end: of
a state that goes on to a final one.
-/
namespace Unroll

namespace Table

theorem mem_of_find? {α : Type} {t : Table α} {n : String} {a : α} (h : t.find? n = some a) :
    (n, a) ∈ t := by
  unfold Table.find? at h
  induction t with
  | nil => simp at h
  | cons p t ih =>
    obtain ⟨m, b⟩ := p
    rw [List.lookup_cons] at h
    by_cases hn : n = m
    · subst hn
      simp only [beq_self_eq_true, Option.some.injEq] at h
      simp [h]
    · rw [beq_eq_false_iff_ne.2 hn] at h
      exact List.mem_cons_of_mem _ (ih h)

end Table

def CellSig.Settled (P : String → Prop) (sig : CellSig) : Prop :=
  (∀ p ∈ sig.params, p.type.Settled P) ∧ sig.ret.Settled P

/-- Whatever can be seen leaves nothing open. -/
structure Scope.Settled (P : String → Prop) (Γ : Scope) : Prop where
  values : ∀ table ∈ Γ.values, ∀ p ∈ table, p.2.type.Settled P
  types : ∀ table ∈ Γ.types, ∀ p ∈ table, P p.2
  ret : Γ.ret.Settled P

namespace Check

open CheckM Outcome Checker

/-- **What the check of a whole program ends in.**  No instance was made twice, and none names a record that leaves
something open; the global types and the aliases leave nothing open. -/
structure Final (globals : Table String) (fin : Checker) : Prop where
  clean : fin.diagnostics = []
  once : (fin.instances.map (·.name.name)).Nodup
  spelled : ∀ c ∈ fin.instances, ∀ n ∈ c.typeNames, Spelled (ClosedRecord fin.records) fin n
  types : ∀ p ∈ globals, ClosedRecord fin.records p.2
  plain : ∀ {n t}, fin.aliases.find? n = some (.plain t) → t.Settled (ClosedRecord fin.records)
  generic : ∀ {n ps target}, fin.aliases.find? n = some (.generic ps target) →
    ps.params ≠ [] ∧ ∀ m ∈ target.names, '\'' ∉ m.toList
  unquoted : ∀ {n info}, fin.aliases.find? n = some info → '\'' ∉ n.toList

/-- What the final state declares. -/
def globalsOf (fin : Checker) : Globals := ⟨fin.records, fin.cells, fin.aliases⟩

/-- The state goes on to the final one, and nothing has been reported. -/
def Reaches (fin s : Checker) : Prop := s.diagnostics = [] ∧ s.Extends fin

theorem Reaches.before {fin s t : Checker} (h : Reaches fin t) (hst : Onward s t) : Reaches fin s := by
  obtain ⟨hs, hext⟩ := hst h.1
  exact ⟨hs, hext.toExtends.trans h.2⟩

/-- **What has been declared is in order**: signatures leave nothing open, and the instances are well typed. -/
structure Healthy (globals : Table String) (fin s : Checker) : Prop where
  fresh : s.Fresh
  sigs : ∀ {n sig}, s.cells.find? n = some sig → sig.Settled (ClosedRecord fin.records)
  instances : ∀ c ∈ s.instances, ∃ sig, fin.cells.find? c.name.name = some sig ∧
    CellTyped (globalsOf fin) globals c sig

namespace Healthy

variable {globals : Table String} {fin s t : Checker}

/-- Where nothing is declared, nothing changes. -/
theorem of_same (h : Healthy globals fin s) (hr : t.records = s.records) (hn : t.recordCount = s.recordCount)
    (hc : t.cells = s.cells) (hi : t.instances = s.instances) : Healthy globals fin t where
  fresh := fun b k hk => by
    rw [hr]
    rw [hn] at hk
    exact h.fresh b k hk
  sigs := fun hs => h.sigs (by rwa [hc] at hs)
  instances := fun c hm => h.instances c (by rwa [hi] at hm)

theorem onPlace (h : Healthy globals fin s) (f : Place → Place) : Healthy globals fin (s.onPlace f) :=
  h.of_same rfl rfl rfl rfl

end Healthy

/-- The global types are at the bottom of the place, and something is above them. -/
def Rooted (globals : Table String) (p : Place) : Prop := ∃ scope inner, p.types = scope :: (inner ++ [globals])

namespace Rooted

variable {globals : Table String} {p q : Place}

theorem within (h : Rooted globals p) (hw : p.Within q) : Rooted globals q := by
  obtain ⟨scope, inner, hp⟩ := h
  obtain ⟨hlen, htail⟩ := hw.types
  cases hq : q.types with
  | nil => simp [hq, hp] at hlen
  | cons scope' rest =>
    simp only [hq, hp, List.tail_cons] at htail
    exact ⟨scope', inner, by rw [hq, htail]⟩

theorem pushScope (h : Rooted globals p) : Rooted globals p.pushScope := by
  obtain ⟨scope, inner, hp⟩ := h
  exact ⟨[], scope :: inner, by simp [Place.pushScope, hp]⟩

theorem outer (h : Rooted globals p) : CheckM.outer p = .outside globals := by
  obtain ⟨scope, inner, hp⟩ := h
  unfold CheckM.outer
  rw [hp, ← List.cons_append, List.getLastD_concat]

end Rooted

/-! ## Places outside of templates -/

theorem mem_of_findSome? {α : Type} {ts : List (Table α)} {n : String} {a : α}
    (h : ts.findSome? (Table.find? · n) = some a) : ∃ t ∈ ts, (n, a) ∈ t := by
  obtain ⟨t, ht, ha⟩ := List.exists_of_findSome?_eq_some h
  exact ⟨t, ht, Table.mem_of_find? ha⟩

/-- **A place where nothing is put off.** -/
structure Concrete (fin : Checker) (p : Place) : Prop where
  templates : p.templates = []
  scope : p.scope.Settled (ClosedRecord fin.records)

namespace Concrete

variable {fin : Checker} {p q : Place}

theorem left (h : Concrete fin p) (hl : p.Left q) : Concrete fin q ∧ q.scope = p.scope := by
  have hs : q.scope = p.scope := by
    obtain ⟨hw, hv, ht⟩ := hl
    simp only [Place.scope, hv, ht, hw.rets, hw.loopDepth]
  exact ⟨⟨hl.1.templates.trans h.templates, hs ▸ h.scope⟩, hs⟩

theorem pushScope (h : Concrete fin p) : Concrete fin p.pushScope := by
  refine ⟨h.templates, ⟨?_, ?_, h.scope.ret⟩⟩
  · intro table ht
    rcases List.mem_cons.1 ht with rfl | ht
    · simp
    · exact h.scope.values table ht
  · intro table ht
    rcases List.mem_cons.1 ht with rfl | ht
    · simp
    · exact h.scope.types table ht

theorem enterLoop (h : Concrete fin p) : Concrete fin p.enterLoop :=
  ⟨h.templates, ⟨h.scope.values, h.scope.types, h.scope.ret⟩⟩

theorem enterLocal (h : Concrete fin p) : Concrete fin p.enterLocal :=
  ⟨h.templates, ⟨h.pushScope.scope.values, h.pushScope.scope.types, h.scope.ret⟩⟩

end Concrete

theorem scope_enterLoop (p : Place) : p.enterLoop.scope = p.scope.looped := by
  simp [Place.scope, Place.enterLoop, Scope.looped]

theorem scope_enterLocal (p : Place) : p.enterLocal.scope = p.scope.opened := rfl

theorem val?_type {P : String → Prop} {Γ : Scope} (h : Γ.Settled P) {n : String} {v : ValInfo}
    (hv : Γ.val? n = some v) : v.type.Settled P := by
  obtain ⟨table, ht, hm⟩ := mem_of_findSome? hv
  exact h.values table ht _ hm

/-! ## One level down -/

/-- **What is one level down does the same**: it keeps what is declared in order, and outside of templates it leaves a
well-typed statement. -/
structure Deeper.Sound (globals : Table String) (fin : Checker) (deeper : Deeper) : Prop where
  orderly : deeper.Orderly
  settles : ∀ P, deeper.Settles P
  opens : ∀ {x s r s'}, deeper.stmt x s = .ok r s' → ∃ d : Deeper, d.Orderly ∧ Check.stmt d x s = .ok r s'
  stmt : ∀ {x s r s'}, deeper.stmt x s = .ok r s' → Reaches fin s' → Healthy globals fin s → Rooted globals s.place →
    Healthy globals fin s' ∧ (Concrete fin s.place → (∀ n ∈ r.typeNames, Spelled (ClosedRecord fin.records) fin n) →
      StmtTyped (globalsOf fin) s.place.scope r s'.place.scope ∧ Concrete fin s'.place)

section

variable {globals : Table String} {fin : Checker} {deeper : Deeper} {s s' : Checker}

/-- What holds of names in the end holds of them on the way. -/
theorem spelled_before {P : String → Prop} (hs : s.Fresh) (hr : Reaches fin s) {n : String} (h : Spelled P fin n) :
    Spelled P s n := by
  intro hq hc
  refine h hq ?_
  unfold Table.contains at hc ⊢
  obtain ⟨r, hfind⟩ := Option.isSome_iff_exists.1 hc
  rw [hr.2.records hs hfind]
  rfl

theorem Concrete.grounded (hfin : Final globals fin) (hr : Reaches fin s) (hc : Concrete fin s.place) :
    Grounded (ClosedRecord fin.records) s where
  templates := hc.templates
  types := fun h => by
    obtain ⟨table, ht, hm⟩ := mem_of_findSome? h
    exact hc.scope.types table ht _ hm
  plain := fun h => hfin.plain (by rwa [← hr.2.aliases] at h)
  generic := fun h m hm hq => absurd hq ((hfin.generic (by rwa [← hr.2.aliases] at h)).2 m hm)

/-- Outside of templates every written type is known, whatever its records are. -/
theorem Concrete.known (hfin : Final globals fin) (hr : Reaches fin s) (hc : Concrete fin s.place) :
    Grounded (fun _ => True) s where
  templates := hc.templates
  types := fun _ => trivial
  plain := fun h => (hfin.plain (by rwa [← hr.2.aliases] at h)).mono fun _ _ => trivial
  generic := fun _ _ _ _ _ => trivial

theorem knownBinaryType_settled {P : String → Prop} {op : BinOp} {l r t : Ty} (h : knownBinaryType? op l r = some t) :
    t.Settled P := by
  unfold knownBinaryType? at h
  split at h
  case h_7 | h_8 =>
    split at h
    · cases h
      trivial
    · cases h
  all_goals cases h
  all_goals trivial

theorem nameExpr_typed {sp : Span} {id : Ident} {r : Typed} (h : nameExpr sp id s = .ok r s')
    (hc : Concrete fin s.place) :
    ExprTyped (globalsOf fin) s.place.scope r.1 r.2 ∧ r.2.Settled (ClosedRecord fin.records) := by
  obtain ⟨e, t⟩ := r
  obtain ⟨rfl, he, ⟨v, hv, ht⟩ | ⟨-, ⟨n, hp⟩, -⟩⟩ := nameExpr_ok h
  · simp only at he ht
    rw [he, ht]
    exact ⟨.name hv, val?_type hc.scope hv⟩
  · unfold Place.param? at hp
    rw [hc.templates] at hp
    cases hp

theorem memberAccess_typed (hs : s.Fresh) (hr : Reaches fin s) {base : Expr} {type : Ty} {m : Ident} {r : Typed}
    (h : memberAccess base type m s = .ok r s') {Γ : Scope} (hb : ExprTyped (globalsOf fin) Γ base type)
    (ht : type.Settled (ClosedRecord fin.records)) :
    ExprTyped (globalsOf fin) Γ r.1 r.2 ∧ r.2.Settled (ClosedRecord fin.records) := by
  obtain ⟨t, hm, rfl⟩ := memberAccess_ok h
  obtain ⟨-, ⟨hu, -⟩ | ⟨-, n, info, f, rfl, hinfo, hf, -, rfl⟩⟩ := memberType_ok hm
  · rw [ht.known.1] at hu
    cases hu
  · have hfin := hr.2.records hs hinfo
    refine ⟨.member hb hfin hf, ?_⟩
    obtain ⟨info', hinfo', hall⟩ := closes_closedRecord _ n ht
    rw [hfin] at hinfo'
    cases hinfo'
    exact hall f (List.mem_of_find?_eq_some hf)

theorem elementAccess_typed {sp bs is : Span} {b i r : Typed} (h : elementAccess sp bs is b i s = .ok r s') {Γ : Scope}
    (hb : ExprTyped (globalsOf fin) Γ b.1 b.2) (hbt : b.2.Settled (ClosedRecord fin.records))
    (hi : ExprTyped (globalsOf fin) Γ i.1 i.2) (hit : i.2.Settled (ClosedRecord fin.records)) :
    ExprTyped (globalsOf fin) Γ r.1 r.2 ∧ r.2.Settled (ClosedRecord fin.records) := by
  obtain ⟨-, hint, he, ⟨elem, len, ha, ht, -⟩ | ⟨-, hu, -⟩⟩ := elementAccess_ok h
  · have hint' : i.2 = .int := by
      rcases hint with hint | hu
      · exact hint
      · rw [hit.known.1] at hu
        cases hu
    rw [ha] at hb hbt
    rw [hint'] at hi
    cases len with
    | none => exact absurd hbt id
    | some n =>
      rw [he, ht]
      exact ⟨.index hb hi, hbt⟩
  · rw [hbt.known.1] at hu
    cases hu

/-- An assignable type is the same, where both are known. -/
theorem Assignable.eq {P : String → Prop} {a b : Ty} (h : Assignable a b) (ha : a.Settled P) (hb : b.Settled P) :
    a = b := by
  rcases h with h | h | h
  · rw [ha.known.1] at h
    cases h
  · rw [hb.known.1] at h
    cases h
  · exact h

theorem builtin_not_record {n m : String} : Ty.builtin? n ≠ some (.record m) := by
  intro h
  unfold Ty.builtin? at h
  split at h <;> cases h

theorem contains_before (hs : s.Fresh) (hr : Reaches fin s) {n : String} (h : s.records.contains n = true) :
    fin.records.contains n = true := by
  unfold Table.contains at h ⊢
  obtain ⟨r, hfind⟩ := Option.isSome_iff_exists.1 h
  rw [hr.2.records hs hfind]
  rfl

/-- **The name of a literal is resolved in the end as it was when it was checked.** -/
theorem literal_resolved (hfin : Final globals fin) (hs : s.Fresh) (hr : Reaches fin s) {id : Ident} {what : Plain}
    {n : String} (hm : meaning id s = .ok (.plain what (.record n)) s') :
    (globalsOf fin).literal? s.place.scope id.name = some n := by
  unfold Globals.literal?
  obtain ⟨-, ⟨b, hb, hm⟩ | ⟨-, ⟨_, _, -, hm⟩ | ⟨-, ⟨c, hc, hm⟩ | ⟨hnone, ⟨a, ha, hm⟩ | ⟨_, _, -, hm⟩⟩⟩⟩⟩ := meaning_ok hm
  · cases hm
    exact absurd hb builtin_not_record
  · cases hm
  · cases hm
    unfold Checker.recordName? at hc
    dsimp only [Place.scope]
    cases hf : s.place.types.findSome? (Table.find? · id.name) with
    | some c' =>
      simp only [hf] at hc
      exact hc
    | none =>
      simp only [hf] at hc
      split at hc
      · rename_i hq
        simp only [Bool.and_eq_true] at hq
        simp only [globalsOf, hq.1, contains_before hs hr hq.2, Bool.and_self, if_true]
        exact hc
      · cases hc
  · cases hm
    unfold Checker.recordName? at hnone
    have ha' : fin.aliases.find? id.name = some (.plain (.record n)) := by rwa [hr.2.aliases]
    have hunq : id.name.toList.contains '\'' = false := by
      simpa using hfin.unquoted ha'
    dsimp only [Place.scope]
    cases hf : s.place.types.findSome? (Table.find? · id.name) with
    | some c' => simp [hf] at hnone
    | none => simp only [globalsOf, hunq, ha', Bool.false_and, Bool.false_eq_true, if_false]
  · cases hm

theorem literalRecord_typed (hfin : Final globals fin) (hd : deeper.Sound globals fin) (hs : s.Fresh)
    (hr : Reaches fin s) (hc : Concrete fin s.place) {id : Ident} {r : Ty × Option RecordInfo}
    (h : literalRecord deeper id s = .ok r s') (hn : Spelled (ClosedRecord fin.records) fin id.name) :
    ∃ n info, r = (.record n, some info) ∧ (globalsOf fin).literal? s.place.scope id.name = some n ∧
      fin.records.find? n = some info ∧ ClosedRecord fin.records n := by
  obtain ⟨t, ht, hcase⟩ := literalRecord_ok h
  have hsame := typeRef_same hd.orderly ht
  subst hsame
  have hnames : ∀ m ∈ (TypeRef.named id.span id []).names, Spelled (ClosedRecord fin.records) s m := by
    intro m hm
    simp only [TypeRef.names, TypeArg.allNames, List.mem_singleton] at hm
    exact hm ▸ spelled_before hs hr hn
  have hset := typeRef_settled hd.orderly (hd.settles _) (hc.grounded hfin hr) hnames ht
  obtain ⟨hu, -⟩ | ⟨-, n, info, rfl, hinfo, rfl⟩ := hcase
  · rw [hset.known.1] at hu
    cases hu
  · refine ⟨n, info, rfl, ?_, hr.2.records hs hinfo, hset⟩
    obtain ⟨m, hm, ⟨what, rfl, -, -⟩ | ⟨ps, u, as, rfl, hlen, -, -⟩⟩ := typeRef_named_ok ht
    · exact literal_resolved hfin hs hr hm
    · obtain ⟨target, ha⟩ := meaning_generic hm
      have hne := (hfin.generic (by rwa [← hr.2.aliases] at ha)).1
      exact absurd (List.length_eq_zero_iff.1 hlen.symm) hne

/-! ## Cells -/

theorem recordLocal_scope (p : Place) (name : String) : (p.recordLocal name).scope = p.scope := by
  unfold Place.recordLocal
  cases p.locals <;> rfl

/-- **A declared value is in the innermost scope**, and that is all that happens. -/
theorem defineVal_scope {id : Ident} {t : Ty} {m : Bool} {u : Unit} (h : defineVal id t m s = .ok u s') :
    s'.place.scope = s.place.scope.define id.name ⟨t, m⟩ ∧ ∃ f, s' = s.onPlace f := by
  obtain ⟨scope, rest, hv, -, -, rfl⟩ := defineVal_ok h
  refine ⟨?_, _, rfl⟩
  show (Place.recordLocal id.name _).scope = _
  rw [recordLocal_scope]
  simp [Place.scope, Scope.define, hv]

theorem define_settled {P : String → Prop} {Γ : Scope} (h : Γ.Settled P) {n : String} {v : ValInfo}
    (hv : v.type.Settled P) : (Γ.define n v).Settled P := by
  refine ⟨?_, h.types, h.ret⟩
  intro table ht p hp
  unfold Scope.define at ht
  cases hvs : Γ.values with
  | nil => simp [hvs] at ht
  | cons scope outer =>
    simp only [hvs, List.mem_cons] at ht
    rcases ht with rfl | ht
    · rcases List.mem_cons.1 hp with rfl | hp
      · exact hv
      · exact h.values scope (by simp [hvs]) p hp
    · exact h.values table (by simp [hvs, ht]) p hp

theorem Concrete.defineVal (hc : Concrete fin s.place) {id : Ident} {t : Ty} {m : Bool} {u : Unit}
    (h : Check.defineVal id t m s = .ok u s') (ht : t.Settled (ClosedRecord fin.records)) : Concrete fin s'.place := by
  refine ⟨(defineVal_moves h).2.templates.trans hc.templates, ?_⟩
  rw [(defineVal_scope h).1]
  exact define_settled hc.scope ht

theorem Healthy.defineVal (hs : Healthy globals fin s) {id : Ident} {t : Ty} {m : Bool} {u : Unit}
    (h : Check.defineVal id t m s = .ok u s') : Healthy globals fin s' := by
  obtain ⟨-, f, rfl⟩ := defineVal_scope h
  exact hs.onPlace f

/-- The entry of a parameter. -/
def paramEntry (p : CellParam) : String × ValInfo := (p.name, ⟨p.type, p.mutable⟩)

theorem defineParams_sound : ∀ {ps : List CellParam} {as : List Param} {s s' : Checker} {u : Unit},
    defineParams ps as s = .ok u s' → Healthy globals fin s → as.map (·.name.name) = ps.map (·.name) →
      Healthy globals fin s' ∧ (Concrete fin s.place → (∀ p ∈ ps, p.type.Settled (ClosedRecord fin.records)) →
        Concrete fin s'.place) ∧
      ∀ t rest, s.place.scope.values = t :: rest →
        s'.place.scope = { s.place.scope with values := ((ps.map paramEntry).reverse ++ t) :: rest }
  | [], as, s, s', u, h, hs, _ => by
    simp only [defineParams, pure_ok] at h
    obtain ⟨-, rfl⟩ := h
    refine ⟨hs, fun hc _ => hc, fun t rest hv => ?_⟩
    simp only [List.map_nil, List.reverse_nil, List.nil_append]
    rw [← hv]
  | p :: ps, [], s, s', u, h, hs, hn => by simp at hn
  | p :: ps, a :: as, s, s', u, h, hs, hn => by
    simp only [defineParams, bind_ok] at h
    obtain ⟨_, v, hv, hps⟩ := h
    simp only [List.map_cons, List.cons.injEq] at hn
    obtain ⟨hs', hc', hscope⟩ := defineParams_sound hps (hs.defineVal hv) hn.2
    refine ⟨hs', fun hc hall => ?_, fun t rest ht => ?_⟩
    · exact hc' (hc.defineVal hv (hall p (List.mem_cons_self ..))) fun q hq => hall q (List.mem_cons_of_mem _ hq)
    · have hv' : v.place.scope = { s.place.scope with values := (paramEntry p :: t) :: rest } := by
        rw [(defineVal_scope hv).1]
        simp only [Scope.define, ht, Table.insert, paramEntry, hn.1]
      rw [hscope (paramEntry p :: t) rest (by rw [hv']), hv']
      simp

theorem cellStmts_sound (hd : deeper.Sound globals fin) : ∀ {xs : List Stmt} {s s' : Checker} {r : List Stmt},
    cellStmts deeper xs s = .ok r s' → Reaches fin s' → Healthy globals fin s → Rooted globals s.place →
      Healthy globals fin s' ∧ (Concrete fin s.place →
        (∀ n ∈ Stmt.allTypeNames r, Spelled (ClosedRecord fin.records) fin n) →
        StmtsTyped (globalsOf fin) s.place.scope r)
  | [], s, s', r, h, _, hs, _ => by
    simp only [cellStmts, pure_ok] at h
    obtain ⟨rfl, rfl⟩ := h
    exact ⟨hs, fun _ _ => .nil⟩
  | x :: xs, s, s', r, h, hr, hs, hroot => by
    obtain ⟨x', t, rest, hx, hxs, rfl⟩ | ⟨t, rest, ht, hxs⟩ := cellStmts_cons_ok h
    · have hrt := hr.before (cellStmts_onward hd.orderly hxs)
      obtain ⟨hst, htyped⟩ := hd.stmt hx hrt hs hroot
      obtain ⟨hs', hrest⟩ := cellStmts_sound hd hxs hr hst (hroot.within (hd.orderly.stmt hx).2)
      refine ⟨hs', fun hc hn => ?_⟩
      simp only [Stmt.allTypeNames, List.mem_append] at hn
      obtain ⟨hx', hc'⟩ := htyped hc fun n hm => hn n (.inl hm)
      exact .cons hx' (hrest hc' fun n hm => hn n (.inr hm))
    · exact absurd (hr.before (cellStmts_onward hd.orderly hxs)).1 ht

/-- **The body of a cell** is checked in a place of its own; if that is outside of templates, the cell can run. -/
theorem cellBody_sound (hfin : Final globals fin) (hd : deeper.Sound globals fin) {c r : CellDef} {sig : CellSig}
    (h : cellBody deeper c sig s = .ok r s') (hr : Reaches fin s') (hs : Healthy globals fin s)
    (htypes : s.place.types = [globals]) (hnames : c.args.map (·.name.name) = sig.params.map (·.name)) :
    Healthy globals fin s' ∧ (s.place = .outside globals → sig.Settled (ClosedRecord fin.records) →
      (∀ n ∈ r.body.typeNames, Spelled (ClosedRecord fin.records) fin n) →
      CellTyped (globalsOf fin) globals r sig) := by
  obtain ⟨t, ss, hp, hss, rfl⟩ := cellBody_ok h
  obtain ⟨ht, hct, hscope⟩ := defineParams_sound hp (hs.onPlace _) hnames
  have hroot : Rooted globals (s.onPlace Place.pushScope).place := ⟨[], [], by simp [Checker.onPlace, Place.pushScope, htypes]⟩
  have hroot' : Rooted globals t.place := hroot.within (defineParams_moves hp).2
  obtain ⟨hs', htyped⟩ := cellStmts_sound hd hss hr (ht.onPlace _) hroot'
  refine ⟨hs', fun hplace hsig hn => ⟨hnames, ?_⟩⟩
  have hin : (s.onPlace Place.pushScope).place.scope = ⟨[[], []], [[], globals], .unit, false⟩ := by
    simp [Checker.onPlace, Place.scope, Place.pushScope, hplace, Place.outside]
  have hcin : Concrete fin (s.onPlace Place.pushScope).place := by
    refine ⟨by simp [Checker.onPlace, Place.pushScope, hplace, Place.outside], ?_⟩
    rw [hin]
    refine ⟨by simp, ?_, trivial⟩
    simp only [List.mem_cons, List.not_mem_nil, or_false]
    rintro table (rfl | rfl)
    · simp
    · exact hfin.types
  have hct' := hct hcin hsig.1
  have hbody : t.place.scope = ⟨[(sig.params.map paramEntry).reverse, []], [[], globals], .unit, false⟩ := by
    rw [hscope [] [[]] (by rw [hin]), hin, List.append_nil]
  have hall : (Place.scope { t.place with rets := sig.ret :: t.place.rets, cell := some c.name.name }) =
      bodyScope globals sig := by
    have hv := congrArg Scope.values hbody
    have hty := congrArg Scope.types hbody
    have hl := congrArg Scope.inLoop hbody
    simp only [Place.scope] at hv hty hl
    simp only [Place.scope, bodyScope, hv, hty, hl, List.headD_cons]
    rfl
  have hc : Concrete fin { t.place with rets := sig.ret :: t.place.rets, cell := some c.name.name } :=
    ⟨hct'.templates, ⟨hct'.scope.values, hct'.scope.types, hsig.2⟩⟩
  rw [← hall]
  exact htyped hc hn

theorem Healthy.modifyGeneric (hs : Healthy globals fin s) (name : String) (f : GenericInfo → GenericInfo) :
    Healthy globals fin (Check.modifyGeneric name f s) := by
  unfold Check.modifyGeneric
  split
  · exact hs.of_same rfl rfl rfl rfl
  · exact hs

theorem forall₂_mem_right {α β : Type} {R : α → β → Prop} {as : List α} {bs : List β} (h : List.Forall₂ R as bs) {b : β}
    (hb : b ∈ bs) : ∃ a ∈ as, R a b := by
  induction h with
  | nil => cases hb
  | cons hr _ ih =>
    rcases List.mem_cons.1 hb with rfl | hb
    · exact ⟨_, List.mem_cons_self .., hr⟩
    · obtain ⟨a, ha, hab⟩ := ih hb
      exact ⟨a, List.mem_cons_of_mem _ ha, hab⟩

theorem params_names {as : List Param} {ps : List CellParam} (h : List.Forall₂ (ParamFor deeper s) as ps) :
    as.map (·.name.name) = ps.map (·.name) := by
  induction h with
  | nil => rfl
  | cons hp _ ih => simp [hp.1, ih]

theorem elaborateTemplate_sound (hfin : Final globals fin) (hd : deeper.Sound globals fin) {name : String} {u : Unit}
    (h : elaborateTemplate deeper name s = .ok u s') (hr : Reaches fin s') (hs : Healthy globals fin s)
    (houter : CheckM.outer s.place = .outside globals) : Healthy globals fin s' := by
  obtain rfl | ⟨g, sig, t, c, t', hg, -, hsig, hc, rfl⟩ := elaborateTemplate_ok h
  · exact hs
  · obtain ⟨rfl, hparams, -⟩ := signature_ok hd.orderly hsig
    have hwt : Healthy globals fin (underWay name g s) := hs.of_same rfl rfl rfl rfl
    have htypes : (underWay name g s).place.types = [globals] := by
      show (CheckM.outer s.place).types = _
      rw [houter]
      rfl
    have hrt := hr.before (elaborated_onward hd.orderly hg hc)
    obtain ⟨ht', -⟩ := cellBody_sound hfin hd hc hrt hwt htypes (params_names hparams)
    refine Healthy.modifyGeneric (Healthy.modifyGeneric ?_ _ _) _ _
    exact ht'.of_same rfl rfl rfl rfl

/-- **Outside of all cells a signature is settled**, where its written types name no open record. -/
theorem signature_settled (hfin : Final globals fin) (hd : deeper.Sound globals fin) {t : Checker} {fr : Frames}
    (hrt : Reaches fin t) (hst : Healthy globals fin t) (houter : CheckM.outer t.place = .outside globals)
    {c concrete : CellDef} {sig : CellSig} (hn : ∀ n ∈ c.typeNames, Spelled (ClosedRecord fin.records) fin n)
    (hargs : c.args = concrete.args) (hret : c.ret = concrete.ret)
    (hp : List.Forall₂ (ParamFor deeper (({ t with frames := fr } : Checker).onPlace CheckM.outer)) concrete.args sig.params)
    (hr : concrete.ret = none ∧ sig.ret = .unit ∨ ∃ w, concrete.ret = some w ∧
      typeRef deeper w (({ t with frames := fr } : Checker).onPlace CheckM.outer) =
        .ok sig.ret (({ t with frames := fr } : Checker).onPlace CheckM.outer)) :
    sig.Settled (ClosedRecord fin.records) := by
  have hplace : (({ t with frames := fr } : Checker).onPlace CheckM.outer).place = .outside globals := houter
  have hg : Grounded (ClosedRecord fin.records) (({ t with frames := fr } : Checker).onPlace CheckM.outer) := by
    refine ⟨by rw [hplace]; rfl, fun {n c} h => ?_, fun {n t'} h => ?_, fun {n ps target} h m hm hq => ?_⟩
    · rw [hplace] at h
      obtain ⟨table, ht, hm⟩ := mem_of_findSome? h
      cases List.mem_singleton.1 ht
      exact hfin.types _ hm
    · exact hfin.plain (by rw [hrt.2.aliases]; exact h)
    · exact absurd hq ((hfin.generic (by rw [hrt.2.aliases]; exact h)).2 m hm)
  have hspelled : ∀ {w : TypeRef}, (∀ n ∈ w.names, n ∈ c.typeNames) → ∀ n ∈ w.names,
      Spelled (ClosedRecord fin.records) (({ t with frames := fr } : Checker).onPlace CheckM.outer) n :=
    fun hw n hm => spelled_before hst.fresh hrt (hn n (hw n hm))
  constructor
  · intro p hmem
    obtain ⟨a, ha, hpa⟩ := forall₂_mem_right hp hmem
    refine typeRef_settled hd.orderly (hd.settles _) hg (hspelled fun n hm => ?_) hpa.2.2
    rw [CellDef.typeNames, hargs]
    exact List.mem_append_left _ (List.mem_flatMap.2 ⟨a, ha, hm⟩)
  · obtain ⟨-, hr⟩ | ⟨w, hw, ht⟩ := hr
    · rw [hr]
      trivial
    · refine typeRef_settled hd.orderly (hd.settles _) hg (hspelled fun n hm => ?_) ht
      rw [CellDef.typeNames, hret, hw]
      exact List.mem_append_right _ (List.mem_append_left _ hm)

/-- **An instance is well typed**, and so are all that were made on the way. -/
theorem instantiateCell_sound (hfin : Final globals fin) (hd : deeper.Sound globals fin) {id : Ident}
    {args : List TemplateArg} {r : String × CellSig} (h : instantiateCell deeper id args s = .ok r s')
    (hr : Reaches fin s') (hs : Healthy globals fin s) (hroot : Rooted globals s.place) :
    Healthy globals fin s' ∧ fin.cells.find? r.1 = some r.2 ∧ r.2.Settled (ClosedRecord fin.records) := by
  have hknown := hr.2.kept ((instantiateCell_steady hd.orderly h).2 hr.1)
  obtain ⟨-, -, ⟨rfl, hfound⟩ | ⟨t, g, fr, concrete, c, u, v, hnone, ht, hg, -, hsub, hsig, hbody, rfl⟩⟩ :=
    instantiateCell_ok h
  · exact ⟨hs, hknown, hs.sigs hfound⟩
  obtain ⟨rfl, hparams, hret⟩ := signature_ok hd.orderly hsig
  obtain ⟨hst, hplace⟩ := elaborateTemplate_steady hd.orderly ht
  obtain ⟨hdiag, hv⟩ := cellBody_onward hd.orderly hbody hr.1
  have hname := instance_name hsub hbody
  have hmem : c ∈ fin.instances := hr.2.instances.subset (by simp [instantiated])
  -- The template is checked before the instance is known, so what it found has to be found in the end, too.
  have hrt : Reaches fin t := by
    refine ⟨hdiag, (extends_instance (.refl t) ?_ hv.toExtends hname (generics_ne hg)).trans hr.2⟩
    cases htn : t.cells.find? r.1 with
    | none => rfl
    | some sg =>
      obtain ⟨c', hc', he⟩ := (hst hdiag).2.made hnone (by simp [htn])
      have honce := hfin.once.sublist ((hr.2.instances.sublist).map (fun c : CellDef => c.name.name))
      rw [show (instantiated id r.1 c r.2 t v).instances = c :: v.instances from rfl, List.map_cons,
        List.nodup_cons] at honce
      refine absurd (List.mem_map.2 ⟨c', hv.instances.subset hc', ?_⟩) honce.1
      rw [he, hname]
  have htemplate := elaborateTemplate_sound hfin hd ht hrt hs hroot.outer
  have houter : CheckM.outer t.place = .outside globals := by
    rw [hplace]
    exact hroot.outer
  have hsig := signature_settled hfin hd hrt htemplate houter (hfin.spelled c hmem) (cellBody_header hbody).2.2.1
    (cellBody_header hbody).2.2.2 hparams hret
  have hknows : Healthy globals fin (knowing fr r.1 r.2 t) := by
    refine ⟨htemplate.fresh, fun {n sg} hn => ?_, htemplate.instances⟩
    simp only [knowing, Table.find?_insert] at hn
    split at hn
    · cases hn
      exact hsig
    · exact htemplate.sigs hn
  have hrv : Reaches fin v :=
    ⟨hr.1, (extends_instantiated (fun h => generics_ne hg (hv.generics.nil.1 h))).trans hr.2⟩
  have htypes : (knowing fr r.1 r.2 t).place.types = [globals] := by
    show (CheckM.outer t.place).types = _
    rw [houter]
    rfl
  obtain ⟨hsv, htyped⟩ := cellBody_sound hfin hd hbody hrv hknows htypes (params_names hparams)
  refine ⟨⟨hsv.fresh, hsv.sigs, fun c' hc' => ?_⟩, hknown, hsig⟩
  rcases List.mem_cons.1 hc' with rfl | hc'
  · refine ⟨r.2, by rw [hname]; exact hknown, htyped houter hsig fun n hn => ?_⟩
    exact hfin.spelled _ hmem n (by simp [CellDef.typeNames, hn])
  · exact hsv.instances c' hc'

/-! ## Calls -/

/-- The arguments fit the parameters, one by one. -/
theorem checkCall_typed {name : String} {sig : CellSig} {args : List Expr} {types : List Ty} {sp : Span} {u : Unit}
    {places : List Span} (h : checkCall name sig places types sp s = .ok u s') {Γ : Scope}
    (hlen : types.length = places.length) (hsig : sig.Settled (ClosedRecord fin.records))
    (hargs : List.Forall₂ (fun e t => ExprTyped (globalsOf fin) Γ e t ∧ t.Settled (ClosedRecord fin.records)) args types) :
    args.length = sig.params.length ∧ ∀ (i : Nat) e p, args[i]? = some e → sig.params[i]? = some p →
      ExprTyped (globalsOf fin) Γ e p.type := by
  obtain ⟨-, hcount, hfit⟩ := checkCall_ok h
  have hfit := hfit hlen
  refine ⟨?_, fun i e p he hp => ?_⟩
  · rw [hargs.length_eq, hlen, hcount]
  · obtain ⟨hi, rfl⟩ := List.getElem?_eq_some_iff.1 he
    obtain ⟨hj, rfl⟩ := List.getElem?_eq_some_iff.1 hp
    have hk : i < types.length := by rwa [← hargs.length_eq]
    obtain ⟨hty, hset⟩ := hargs.get hi hk
    have hassign := hfit.get hj hk
    simp only [List.get_eq_getElem] at hty hset hassign
    rw [hassign.eq (hsig.1 _ (List.getElem_mem hj)) hset]
    exact hty

theorem instance_not_builtin {id : Ident} {args : List TemplateArg} {r : String × CellSig}
    (h : instantiateCell deeper id args s = .ok r s') : isBuiltin r.1 = false := by
  obtain ⟨-, hname, -⟩ := instantiateCell_ok h
  have hp : r.1 ≠ "print" := hname ▸ mangle_ne (by decide)
  have hl : r.1 ≠ "len" := hname ▸ mangle_ne (by decide)
  simp [isBuiltin, hp, hl]

theorem cellCall_typeNames {sp : Span} {callee : Ident} {generic : List TypeArg} {args : List Expr} {types : List Ty}
    {places : List Span} {r : Typed} (h : cellCall deeper sp callee generic args types places s = .ok r s') :
    r.1.typeNames = Expr.allTypeNames args := by
  obtain ⟨_, -, -, -, rfl⟩ | ⟨-, _, _, _, -, -, ⟨_, _, _, _, _, -, -, -, -, -, rfl⟩ | ⟨-, -, rfl⟩⟩ := cellCall_ok h
  · rfl
  · rfl
  · rfl

theorem exprs_length {es : List Expr} {s s' : Checker} {r : List Expr × List Ty} (h : exprs deeper es s = .ok r s') :
    r.1.length = es.length := by
  induction es generalizing s s' r with
  | nil =>
    simp only [exprs, pure_ok] at h
    rw [← h.1]
  | cons e es ih =>
    simp only [exprs, bind_ok, pure_ok] at h
    obtain ⟨_, u, -, ⟨es', ts⟩, v, hes, rfl, -⟩ := h
    simp [ih hes]

theorem Concrete.constant? {p : Place} (hc : Concrete fin p) (n : String) : p.constant? n = none :=
  constant?_outside hc.templates n

theorem evalIndex_known {env : String → Option Const} (henv : ∀ n, env n = none) {e : Expr} :
    Const.evalIndex env e ≠ .ok none := by
  intro h
  unfold Const.evalIndex at h
  simp only [except_bind_ok] at h
  obtain ⟨c, hc, h⟩ := h
  cases c with
  | dependent => exact absurd rfl (eval_known (fun n => by simp [henv n]) hc)
  | bool b => cases h
  | int n =>
    simp only at h
    split at h <;> cases h

theorem any_unknown {types : List Ty} {P : String → Prop} (h : ∀ t ∈ types, t.Settled P) :
    types.any Ty.isUnknown = false := by
  rw [List.any_eq_false]
  intro t ht
  rw [(h t ht).known.1]
  exact Bool.false_ne_true

theorem forall₂_mem_left {α β : Type} {R : α → β → Prop} {Q : β → Prop} {as : List α} {bs : List β}
    (h : List.Forall₂ R as bs) (hQ : ∀ a b, R a b → Q b) : ∀ b ∈ bs, Q b := by
  intro b hb
  obtain ⟨a, -, hab⟩ := forall₂_mem_right h hb
  exact hQ a b hab

theorem cellCall_sound (hfin : Final globals fin) (hd : deeper.Sound globals fin) {sp : Span} {callee : Ident}
    {generic : List TypeArg} {args : List Expr} {types : List Ty} {places : List Span} {r : Typed}
    (h : cellCall deeper sp callee generic args types places s = .ok r s') (hr : Reaches fin s')
    (hs : Healthy globals fin s) (hroot : Rooted globals s.place) :
    Healthy globals fin s' ∧ (Concrete fin s.place → isBuiltin callee.name = false → types.length = places.length →
      List.Forall₂ (fun e t => ExprTyped (globalsOf fin) s.place.scope e t ∧ t.Settled (ClosedRecord fin.records)) args
        types → ExprTyped (globalsOf fin) s.place.scope r.1 r.2 ∧ r.2.Settled (ClosedRecord fin.records)) := by
  obtain ⟨sig, hsig, -, hc, rfl⟩ | ⟨-, g, given, t, -, hgiven, h⟩ := cellCall_ok h
  · have hsame := (checkCall_ok hc).1
    subst hsame
    refine ⟨hs, fun _ hb hlen hargs => ?_⟩
    obtain ⟨hcount, htyped⟩ := checkCall_typed hc hlen (hs.sigs hsig) hargs
    exact ⟨.call hb (hr.2.kept hsig) hcount htyped, (hs.sigs hsig).2⟩
  have hsame := templateArgs_same hd.orderly hgiven
  subst hsame
  obtain ⟨known, full, name, sig, u, -, -, -, hi, hc, rfl⟩ | ⟨hput, rfl, -⟩ := h
  · have hsame := (checkCall_ok hc).1
    subst hsame
    obtain ⟨hsu, hknown, hset⟩ := instantiateCell_sound hfin hd hi hr hs hroot
    refine ⟨hsu, fun _ _ hlen hargs => ?_⟩
    obtain ⟨hcount, htyped⟩ := checkCall_typed hc hlen hset hargs
    exact ⟨.call (instance_not_builtin hi) hknown hcount htyped, hset.2⟩
  · refine ⟨hs, fun hcon _ _ hargs => ?_⟩
    rcases hput with hput | hput
    · obtain ⟨as, has, hall⟩ := templateArgs_ok hgiven
      obtain ⟨full, hfull, -⟩ := allKnown_some (argsFor_settled hd.orderly (hd.settles _)
        (hcon.known hfin hr) (fun _ _ _ _ => trivial) has)
      rw [hput, hfull] at hall
      cases hall
    · rw [any_unknown (forall₂_mem_left hargs fun _ _ h => h.2)] at hput
      cases hput

/-! ## Expressions -/

/-- Each name in the list is that of a record that leaves nothing open, if it is that of a record at all. -/
def AllSpelled (fin : Checker) (names : List String) : Prop :=
  ∀ n ∈ names, Spelled (ClosedRecord fin.records) fin n

theorem AllSpelled.append {as bs : List String} (h : AllSpelled fin (as ++ bs)) : AllSpelled fin as ∧ AllSpelled fin bs :=
  ⟨fun n hn => h n (List.mem_append_left _ hn), fun n hn => h n (List.mem_append_right _ hn)⟩

/-- The expression is well typed, with a type that leaves nothing open. -/
def Fits (fin : Checker) (Γ : Scope) (e : Expr) (t : Ty) : Prop :=
  ExprTyped (globalsOf fin) Γ e t ∧ t.Settled (ClosedRecord fin.records)

theorem unaryType_fits {sp : Span} {op : UnaryOp} {e : Expr} {t r : Ty} (h : unaryType sp op t s = .ok r s') {Γ : Scope}
    (he : Fits fin Γ e t) : Fits fin Γ (.unary sp op e) r := by
  obtain ⟨-, ⟨hu, -⟩ | ⟨-, ⟨rfl, rfl, rfl⟩ | ⟨rfl, rfl, rfl⟩⟩⟩ := unaryType_ok h
  · rw [he.2.known.1] at hu
    cases hu
  · exact ⟨.neg he.1, trivial⟩
  · exact ⟨.not he.1, trivial⟩

theorem binaryType_fits {sp : Span} {op : BinOp} {l r : Expr} {lt rt t : Ty}
    (h : binaryType sp op lt rt s = .ok t s') {Γ : Scope} (hl : Fits fin Γ l lt) (hr : Fits fin Γ r rt) :
    Fits fin Γ (.binary sp l op r) t := by
  obtain ⟨-, ⟨hu | hu, -⟩ | ⟨-, -, hk⟩⟩ := binaryType_ok h
  · rw [hl.2.known.1] at hu
    cases hu
  · rw [hr.2.known.1] at hu
    cases hu
  · exact ⟨.binary hl.1 hr.1 hk, knownBinaryType_settled hk⟩

theorem builtinCall_fits {sp : Span} {callee : Ident} {args : List Expr} {types : List Ty} {places : List Span}
    {r : Typed} (h : builtinCall sp callee args types places s = .ok r s') (hb : isBuiltin callee.name = true) {Γ : Scope}
    (hargs : List.Forall₂ (Fits fin Γ) args types) : Fits fin Γ r.1 r.2 := by
  obtain ⟨e, t⟩ := r
  obtain ⟨-, t', rfl, he, hcase⟩ := builtinCall_ok h
  obtain ⟨arg, args, ⟨harg, hset⟩, hnil, rfl⟩ := List.forall₂_cons_right_iff.1 hargs
  obtain rfl := List.forall₂_nil_right_iff.1 hnil
  simp only at he hcase
  obtain ⟨hn, ⟨elem, len, rfl⟩ | hu, rfl⟩ | ⟨hn, rfl⟩ := hcase
  · cases len with
    | none => exact absurd hset id
    | some n => exact he ▸ ⟨.len hn harg, trivial⟩
  · rw [hset.known.1] at hu
    cases hu
  · have hp : callee.name = "print" := by simpa [isBuiltin, hn] using hb
    exact he ▸ ⟨.print hp harg, trivial⟩

mutual

/-- **Outside of templates an expression that passes is well typed.** -/
theorem expr_sound (hfin : Final globals fin) (hd : deeper.Sound globals fin) : ∀ {e : Expr} {s s' : Checker} {r : Typed},
    expr deeper e s = .ok r s' → Reaches fin s' → Healthy globals fin s → Rooted globals s.place →
      Healthy globals fin s' ∧ (Concrete fin s.place → AllSpelled fin r.1.typeNames → Fits fin s.place.scope r.1 r.2)
  | .name sp id, s, s', r, h, hr, hs, hroot => by
    have hn : nameExpr sp id s = .ok r s' := by simpa only [expr] using h
    have hsame := (nameExpr_ok hn).1
    subst hsame
    exact ⟨hs, fun hc _ => nameExpr_typed hn hc⟩
  | .int _ _, s, s', r, h, hr, hs, hroot | .char _ _, s, s', r, h, hr, hs, hroot
  | .bool _ _, s, s', r, h, hr, hs, hroot | .text _ _, s, s', r, h, hr, hs, hroot => by
    simp only [expr, pure_ok] at h
    obtain ⟨rfl, rfl⟩ := h
    exact ⟨hs, fun _ _ => ⟨by constructor, trivial⟩⟩
  | .list sp items, s, s', r, h, hr, hs, hroot => by
    rw [expr_list] at h
    exact absurd h fail_ok
  | .array sp items, s, s', r, h, hr, hs, hroot => by
    obtain ⟨hne, es, elem, he, rfl⟩ := expr_array_ok h
    obtain ⟨hs', htyped⟩ := elements_sound hfin hd he hr hs hroot
    refine ⟨hs', fun hc hn => ?_⟩
    obtain ⟨hall, hset, -⟩ := htyped hc hn fun t ht => absurd ht (by simp)
    exact ⟨.array hall, hset (.inl hne)⟩
  | .record sp type fs, s, s', r, h, hr, hs, hroot => by
    obtain ⟨t, record, u, es, hl, he, hcomplete, rfl⟩ := expr_record_ok h
    have hsame := literalRecord_same hd.orderly hl
    subst hsame
    obtain ⟨hs', htyped⟩ := fields_sound hfin hd he hr hs hroot
    refine ⟨hs', fun hc hn => ?_⟩
    have hrs := hr.before (fields_steady hd.orderly he).1
    obtain ⟨hname, hfs⟩ := @AllSpelled.append fin [type.name] _ hn
    obtain ⟨n, info, hrec, hlit, hinfo, hclosed⟩ :=
      literalRecord_typed hfin hd hs.fresh hrs hc hl (hname _ (List.mem_singleton_self _))
    obtain ⟨rfl, rfl⟩ := Prod.mk.inj hrec
    obtain ⟨info', hinfo', hset⟩ := closes_closedRecord _ n hclosed
    rw [hinfo] at hinfo'
    cases hinfo'
    obtain ⟨hnames, hnodup, -, hsome, hty⟩ := htyped hc hfs info rfl hset
    exact ⟨.record hlit hinfo hnodup (by rw [hnames]; exact hcomplete info rfl) hsome hty, hclosed⟩
  | .unary sp op e, s, s', r, h, hr, hs, hroot => by
    simp only [expr, bind_ok, pure_ok] at h
    obtain ⟨⟨e', t⟩, u, he, t', _, ht, rfl, rfl⟩ := h
    have hsame := (unaryType_ok ht).1
    subst hsame
    obtain ⟨hs', htyped⟩ := expr_sound hfin hd he hr hs hroot
    exact ⟨hs', fun hc hn => unaryType_fits ht (htyped hc hn)⟩
  | .binary sp l op r, s, s', _, h, hr, hs, hroot => by
    simp only [expr, bind_ok, pure_ok] at h
    obtain ⟨⟨l', lt⟩, u, hl, ⟨r', rt⟩, v, hrr, t', _, ht, rfl, rfl⟩ := h
    have hsame := (binaryType_ok ht).1
    subst hsame
    have hru := hr.before (expr_steady hd.orderly hrr).1
    have hplace := (expr_steady hd.orderly hl).2
    obtain ⟨hsu, hltyped⟩ := expr_sound hfin hd hl hru hs hroot
    obtain ⟨hs', hrtyped⟩ := expr_sound hfin hd hrr hr hsu (by rwa [hplace])
    refine ⟨hs', fun hc hn => ?_⟩
    obtain ⟨hnl, hnr⟩ := AllSpelled.append hn
    rw [hplace] at hrtyped
    exact binaryType_fits ht (hltyped hc hnl) (hrtyped hc hnr)
  | .member sp base m, s, s', r, h, hr, hs, hroot => by
    simp only [expr, bind_ok] at h
    obtain ⟨⟨b, t⟩, u, hb, h⟩ := h
    obtain ⟨t', ht, he⟩ := memberAccess_ok h
    have hsame := (memberType_ok ht).1
    subst hsame
    obtain ⟨hs', htyped⟩ := expr_sound hfin hd hb hr hs hroot
    refine ⟨hs', fun hc hn => ?_⟩
    rw [he] at hn
    obtain ⟨hbt, hset⟩ := htyped hc hn
    exact memberAccess_typed hs'.fresh hr h hbt hset
  | .index sp base i, s, s', r, h, hr, hs, hroot => by
    simp only [expr, bind_ok] at h
    obtain ⟨b, u, hb, i', v, hi, h⟩ := h
    have hsame := (elementAccess_ok h).1
    have he := (elementAccess_ok h).2.2.1
    subst hsame
    have hru := hr.before (expr_steady hd.orderly hi).1
    have hplace := (expr_steady hd.orderly hb).2
    obtain ⟨hsu, hbtyped⟩ := expr_sound hfin hd hb hru hs hroot
    obtain ⟨hs', hityped⟩ := expr_sound hfin hd hi hr hsu (by rwa [hplace])
    refine ⟨hs', fun hc hn => ?_⟩
    rw [he] at hn
    obtain ⟨hnb, hni⟩ := AllSpelled.append hn
    rw [hplace] at hityped
    obtain ⟨hbt, hbset⟩ := hbtyped hc hnb
    obtain ⟨hit, hiset⟩ := hityped hc hni
    exact elementAccess_typed h hbt hbset hit hiset
  | .call sp callee generic args, s, s', r, h, hr, hs, hroot => by
    obtain ⟨es, ts, u, -, he, hcase⟩ := expr_call_ok h
    have hplace := (exprs_steady hd.orderly he).2
    obtain ⟨hb, hcall⟩ | ⟨hb, hcall⟩ := hcase
    · have hsame := (builtinCall_ok hcall).1
      subst hsame
      obtain ⟨hs', htyped⟩ := exprs_sound hfin hd he hr hs hroot
      refine ⟨hs', fun hc hn => ?_⟩
      obtain ⟨t, -, hre, -⟩ := (builtinCall_ok hcall).2
      rw [hre] at hn
      exact builtinCall_fits hcall hb (htyped hc hn)
    · have hru := hr.before (cellCall_steady hd.orderly hcall).1
      obtain ⟨hsu, htyped⟩ := exprs_sound hfin hd he hru hs hroot
      obtain ⟨hs', hctyped⟩ := cellCall_sound hfin hd hcall hr hsu (by rwa [hplace])
      refine ⟨hs', fun hc hn => ?_⟩
      have hargs := htyped hc (by rwa [cellCall_typeNames hcall] at hn)
      rw [hplace] at hctyped
      exact hctyped hc hb (by rw [← hargs.length_eq, List.length_map]; exact (exprs_length he)) hargs
  | .listSelect sp list index, s, s', r, h, hr, hs, hroot => by
    -- by cases: after a substitution the items would no longer be seen as a part of the expression
    cases list with
    | list lsp items =>
      obtain ⟨i, -, hn⟩ | ⟨hnone, es, ts, he, rfl⟩ := expr_listSelect_ok h
      · exact nth_sound hfin hd hn hr hs hroot
      · obtain ⟨hs', -⟩ := exprs_sound hfin hd he hr hs hroot
        exact ⟨hs', fun hc _ => absurd hnone (evalIndex_known (fun n => hc.constant? n))⟩
    | _ =>
      obtain ⟨_, _, hlist⟩ := expr_listSelect_list h
      cases hlist
  | .memberSelect sp base ms index, s, s', r, h, hr, hs, hroot => by
    obtain ⟨b, t, u, hb, ⟨i, m, -, -, hm⟩ | ⟨hnone, rfl, rfl⟩⟩ := expr_memberSelect_ok h
    · obtain ⟨t', ht, he⟩ := memberAccess_ok hm
      have hsame := (memberType_ok ht).1
      subst hsame
      obtain ⟨hs', htyped⟩ := expr_sound hfin hd hb hr hs hroot
      refine ⟨hs', fun hc hn => ?_⟩
      rw [he] at hn
      obtain ⟨hbt, hset⟩ := htyped hc hn
      exact memberAccess_typed hs'.fresh hr hm hbt hset
    · obtain ⟨hs', -⟩ := expr_sound hfin hd hb hr hs hroot
      rw [(expr_steady hd.orderly hb).2] at hnone
      exact ⟨hs', fun hc _ => absurd hnone (evalIndex_known (fun n => hc.constant? n))⟩
termination_by structural e => e

theorem exprs_sound (hfin : Final globals fin) (hd : deeper.Sound globals fin) : ∀ {es : List Expr} {s s' : Checker}
    {r : List Expr × List Ty}, exprs deeper es s = .ok r s' → Reaches fin s' → Healthy globals fin s →
      Rooted globals s.place → Healthy globals fin s' ∧ (Concrete fin s.place → AllSpelled fin (Expr.allTypeNames r.1) →
        List.Forall₂ (Fits fin s.place.scope) r.1 r.2)
  | [], s, s', r, h, hr, hs, hroot => by
    simp only [exprs, pure_ok] at h
    obtain ⟨rfl, rfl⟩ := h
    exact ⟨hs, fun _ _ => .nil⟩
  | e :: es, s, s', r, h, hr, hs, hroot => by
    simp only [exprs, bind_ok, pure_ok] at h
    obtain ⟨⟨e', t⟩, u, he, ⟨es', ts⟩, v, hes, rfl, rfl⟩ := h
    have hru := hr.before (exprs_steady hd.orderly hes).1
    have hplace := (expr_steady hd.orderly he).2
    obtain ⟨hsu, htyped⟩ := expr_sound hfin hd he hru hs hroot
    obtain ⟨hs', hrest⟩ := exprs_sound hfin hd hes hr hsu (by rwa [hplace])
    refine ⟨hs', fun hc hn => ?_⟩
    obtain ⟨hne, hnes⟩ := AllSpelled.append hn
    rw [hplace] at hrest
    exact .cons (htyped hc hne) (hrest hc hnes)
termination_by structural es => es

theorem elements_sound (hfin : Final globals fin) (hd : deeper.Sound globals fin) : ∀ {es : List Expr}
    {sofar : Option Ty} {s s' : Checker} {r : List Expr × Ty}, elements deeper sofar es s = .ok r s' → Reaches fin s' →
      Healthy globals fin s → Rooted globals s.place → Healthy globals fin s' ∧ (Concrete fin s.place →
        AllSpelled fin (Expr.allTypeNames r.1) → (∀ t, sofar = some t → t.Settled (ClosedRecord fin.records)) →
          (∀ e ∈ r.1, ExprTyped (globalsOf fin) s.place.scope e r.2) ∧
            (es ≠ [] ∨ sofar ≠ none → r.2.Settled (ClosedRecord fin.records)) ∧ ∀ t, sofar = some t → r.2 = t)
  | [], sofar, s, s', r, h, hr, hs, hroot => by
    simp only [elements, pure_ok] at h
    obtain ⟨rfl, rfl⟩ := h
    refine ⟨hs, fun hc _ hset => ⟨by simp, fun hne => ?_, fun t ht => by rw [ht]; rfl⟩⟩
    cases sofar with
    | none => simp at hne
    | some t => exact hset t rfl
  | e :: es, sofar, s, s', r, h, hr, hs, hroot => by
    simp only [elements, bind_ok, pure_ok] at h
    obtain ⟨⟨e', t⟩, u, he, elem, v, ht, ⟨es', elem'⟩, w, hes, rfl, rfl⟩ := h
    have hsame := (elementType_ok ht).1
    subst hsame
    have hru := hr.before (elements_steady hd.orderly hes).1
    have hplace := (expr_steady hd.orderly he).2
    obtain ⟨hsu, htyped⟩ := expr_sound hfin hd he hru hs hroot
    obtain ⟨hs', hrest⟩ := elements_sound hfin hd hes hr hsu (by rwa [hplace])
    refine ⟨hs', fun hc hn hset => ?_⟩
    obtain ⟨hne, hnes⟩ := AllSpelled.append hn
    obtain ⟨hte, hts⟩ := htyped hc hne
    have helem : elem = t ∧ ∀ first, sofar = some first → elem = first := by
      obtain ⟨rfl, rfl⟩ | ⟨first, rfl, ⟨hu, -⟩ | ⟨-, hcase, rfl⟩⟩ := (elementType_ok ht).2
      · exact ⟨rfl, fun _ h => absurd h (by simp)⟩
      · rw [(hset first rfl).known.1] at hu
        cases hu
      · rcases hcase with hu | rfl
        · rw [hts.known.1] at hu
          cases hu
        · exact ⟨rfl, fun _ h => by cases h; rfl⟩
    obtain ⟨rfl, hfirst⟩ := helem
    rw [hplace] at hrest
    obtain ⟨hall, hsettled, hsame⟩ := hrest hc hnes fun t ht => by cases ht; exact hts
    have helem : elem' = elem := hsame elem rfl
    subst helem
    refine ⟨?_, fun _ => hts, hfirst⟩
    simp only [List.mem_cons, forall_eq_or_imp]
    exact ⟨hte, hall⟩
termination_by structural es => es

theorem fields_sound (hfin : Final globals fin) (hd : deeper.Sound globals fin) : ∀ {fs : List (Ident × Expr)}
    {type : Ty} {record : Option RecordInfo} {seen : List String} {s s' : Checker} {r : List (Ident × Expr)},
    fields deeper type record seen fs s = .ok r s' → Reaches fin s' → Healthy globals fin s → Rooted globals s.place →
      Healthy globals fin s' ∧ (Concrete fin s.place → AllSpelled fin (Expr.fieldTypeNames r) → ∀ info,
        record = some info → (∀ f ∈ info.fields, f.type.Settled (ClosedRecord fin.records)) →
          r.map (·.1.name) = fs.map (·.1.name) ∧ (r.map (·.1.name)).Nodup ∧ (∀ f ∈ r, f.1.name ∉ seen) ∧
            (∀ f ∈ r, (info.field? f.1.name).isSome) ∧
            ∀ f ∈ r, ∀ i, info.field? f.1.name = some i → ExprTyped (globalsOf fin) s.place.scope f.2 i.type)
  | [], type, record, seen, s, s', r, h, hr, hs, hroot => by
    simp only [fields, pure_ok] at h
    obtain ⟨rfl, rfl⟩ := h
    exact ⟨hs, fun _ _ _ _ _ => ⟨rfl, .nil, by simp, by simp, by simp⟩⟩
  | (f, e) :: fs, type, record, seen, s, s', r, h, hr, hs, hroot => by
    obtain ⟨info, e', t, u, rest, hl, he, hfit, hfs, rfl⟩ := fields_cons_ok h
    have hru := hr.before (fields_steady hd.orderly hfs).1
    have hplace := (expr_steady hd.orderly he).2
    obtain ⟨hsu, htyped⟩ := expr_sound hfin hd he hru hs hroot
    obtain ⟨hs', hrest⟩ := fields_sound hfin hd hfs hr hsu (by rwa [hplace])
    refine ⟨hs', fun hc hn r hrec hset => ?_⟩
    subst hrec
    obtain ⟨-, ⟨hnone, -⟩ | ⟨r', i, hr', hi, hseen, rfl⟩⟩ := literalField_ok hl
    · cases hnone
    cases hr'
    obtain ⟨hne, hnfs⟩ := AllSpelled.append hn
    obtain ⟨hte, hts⟩ := htyped hc hne
    rw [hplace] at hrest
    obtain ⟨hnames, hnodup, hnew, hsome, hall⟩ := hrest hc hnfs r rfl hset
    have hit : i.type = t := (hfit i rfl).eq (hset i (List.mem_of_find?_eq_some hi)) hts
    refine ⟨by simp [hnames], ?_, ?_, ?_, ?_⟩
    · simp only [List.map_cons, List.nodup_cons, List.mem_map, not_exists, not_and]
      exact ⟨fun g hg he => hnew g hg (by simp [he]), hnodup⟩
    · simp only [List.mem_cons, forall_eq_or_imp]
      exact ⟨hseen, fun g hg hm => hnew g hg (List.mem_cons_of_mem _ hm)⟩
    · simp only [List.mem_cons, forall_eq_or_imp]
      exact ⟨by rw [hi]; rfl, hsome⟩
    · simp only [List.mem_cons, forall_eq_or_imp]
      refine ⟨fun j hj => ?_, hall⟩
      rw [hi] at hj
      cases hj
      rw [hit]
      exact hte
termination_by structural fs => fs

theorem nth_sound (hfin : Final globals fin) (hd : deeper.Sound globals fin) : ∀ {es : List Expr} {sp : Span}
    {count index n : Nat} {s s' : Checker} {r : Typed}, nth deeper sp count index es n s = .ok r s' → Reaches fin s' →
      Healthy globals fin s → Rooted globals s.place →
      Healthy globals fin s' ∧ (Concrete fin s.place → AllSpelled fin r.1.typeNames → Fits fin s.place.scope r.1 r.2)
  | [], sp, count, index, n, s, s', r, h, hr, hs, hroot => by
    cases n <;> simp only [nth] at h <;> exact absurd h fail_ok
  | e :: es, sp, count, index, 0, s, s', r, h, hr, hs, hroot =>
    expr_sound hfin hd (by simpa only [nth] using h) hr hs hroot
  | e :: es, sp, count, index, n + 1, s, s', r, h, hr, hs, hroot =>
    nth_sound hfin hd (by simpa only [nth] using h) hr hs hroot
termination_by structural es => es

end

/-- The range of an expansion: a list, or an expression that is well typed. -/
def RangeFits (fin : Checker) (Γ : Scope) (e : Expr) (t : Ty) : Prop :=
  (∃ sp es ts, e = .list sp es ∧ t = .list ts ∧ es.length = ts.length) ∨ Fits fin Γ e t

theorem rangeExpr_sound (hfin : Final globals fin) (hd : deeper.Sound globals fin) {e : Expr} {r : Typed}
    (h : rangeExpr deeper e s = .ok r s') (hr : Reaches fin s') (hs : Healthy globals fin s)
    (hroot : Rooted globals s.place) :
    Healthy globals fin s' ∧
      (Concrete fin s.place → AllSpelled fin r.1.typeNames → RangeFits fin s.place.scope r.1 r.2) := by
  cases e with
  | list sp items =>
    simp only [rangeExpr, listExpr, bind_ok, pure_ok] at h
    obtain ⟨⟨es, ts⟩, _, he, rfl, rfl⟩ := h
    obtain ⟨hs', htyped⟩ := exprs_sound hfin hd he hr hs hroot
    exact ⟨hs', fun hc hn => .inl ⟨sp, es, ts, rfl, rfl, (htyped hc hn).length_eq⟩⟩
  | _ =>
    obtain ⟨hs', htyped⟩ := expr_sound hfin hd h hr hs hroot
    exact ⟨hs', fun hc hn => .inr (htyped hc hn)⟩

/-! ## Declared names -/

theorem fields_names {fs : List RecordField} {is : List FieldInfo} (h : List.Forall₂ (FieldFor deeper s) fs is) :
    is.map (·.name) = fs.map (·.name.name) := by
  induction h with
  | nil => rfl
  | cons hf _ ih => simp [hf.1, ih]

theorem declare_settled {P : String → Prop} {Γ : Scope} (h : Γ.Settled P) {n c : String} (hc : P c) :
    (Γ.declare n c).Settled P := by
  refine ⟨h.values, ?_, h.ret⟩
  intro table ht p hp
  unfold Scope.declare at ht
  cases hts : Γ.types with
  | nil => simp [hts] at ht
  | cons scope outer =>
    simp only [hts, List.mem_cons] at ht
    rcases ht with rfl | ht
    · rcases List.mem_cons.1 hp with rfl | hp
      · exact hc
      · exact h.types scope (by simp [hts]) p hp
    · exact h.types table (by simp [hts, ht]) p hp

theorem declared_settled (hfin : Final globals fin) (hd : deeper.Sound globals fin) {w : Option TypeRef} {t : Option Ty}
    (h : w.mapM (typeRef deeper) s = .ok t s') (hr : Reaches fin s) (hs : s.Fresh) (hc : Concrete fin s.place)
    (hn : AllSpelled fin (TypeRef.names? w)) : ∀ ty, t = some ty → ty.Settled (ClosedRecord fin.records) := by
  obtain ⟨-, rfl, -⟩ | ⟨w, ty, rfl, rfl, hty⟩ := declared_ok h
  · simp
  · rintro _ ⟨⟩
    exact typeRef_settled hd.orderly (hd.settles _) (hc.grounded hfin hr)
      (fun n hm => spelled_before hs hr (hn n hm)) hty

theorem initialValue_sound (hfin : Final globals fin) (hd : deeper.Sound globals fin) {declared : Option Ty} {e : Expr}
    {r : Typed} (h : initialValue deeper declared e s = .ok r s') (hr : Reaches fin s') (hs : Healthy globals fin s)
    (hroot : Rooted globals s.place) :
    Healthy globals fin s' ∧ (Concrete fin s.place → AllSpelled fin r.1.typeNames →
      (∀ ty, declared = some ty → ty.Settled (ClosedRecord fin.records)) → Fits fin s.place.scope r.1 r.2) := by
  obtain ⟨sp, elem, rfl, hdecl, rfl, rfl⟩ | he := initialValue_ok h
  · exact ⟨hs, fun _ _ hset => ⟨.array (by simp), hset _ hdecl⟩⟩
  · obtain ⟨hs', htyped⟩ := expr_sound hfin hd he hr hs hroot
    exact ⟨hs', fun hc hn _ => htyped hc hn⟩

/-- **A declared value** is in scope with the type of its expression. -/
theorem valDecl_sound (hfin : Final globals fin) (hd : deeper.Sound globals fin) {d r : ValDecl}
    (h : valDecl deeper d s = .ok r s') (hr : Reaches fin s') (hs : Healthy globals fin s)
    (hroot : Rooted globals s.place) :
    Healthy globals fin s' ∧ (Concrete fin s.place → AllSpelled fin r.typeNames → Concrete fin s'.place ∧
      ∃ t, ExprTyped (globalsOf fin) s.place.scope r.expr t ∧
        s'.place.scope = s.place.scope.define r.name.name ⟨t, r.mutable⟩) := by
  obtain ⟨declared, t, e, type, u, ht, he, hfit, hv, rfl⟩ := valDecl_ok h
  have hsame := declared_same hd.orderly ht
  subst hsame
  have hru := hr.before (defineVal_moves hv).1
  have hplace := (initialValue_steady hd.orderly he).2
  obtain ⟨hsu, htyped⟩ := initialValue_sound hfin hd he hru hs hroot
  refine ⟨hsu.defineVal hv, fun hc hn => ?_⟩
  obtain ⟨hnt, hne⟩ := AllSpelled.append hn
  have hrs := hru.before (initialValue_steady hd.orderly he).1
  have hset := declared_settled hfin hd ht hrs hs.fresh hc hnt
  obtain ⟨hte, hts⟩ := htyped hc hne hset
  have htype : declared.getD type = type := by
    cases declared with
    | none => rfl
    | some expected => exact (hfit expected rfl).eq (hset expected rfl) hts
  rw [htype] at hv
  have hcu : Concrete fin u.place := by rwa [hplace]
  refine ⟨hcu.defineVal hv hts, type, hte, ?_⟩
  rw [(defineVal_scope hv).1, hplace]

theorem initStmt_sound (hfin : Final globals fin) (hd : deeper.Sound globals fin) {i r : Option Init}
    (h : initStmt deeper i s = .ok r s') (hr : Reaches fin s') (hs : Healthy globals fin s)
    (hroot : Rooted globals s.place) :
    Healthy globals fin s' ∧ (Concrete fin s.place → AllSpelled fin (Init.typeNames r) → Concrete fin s'.place ∧
      InitTyped (globalsOf fin) s.place.scope r s'.place.scope) := by
  rcases i with _ | d | e
  · simp only [initStmt, pure_ok] at h
    obtain ⟨rfl, rfl⟩ := h
    exact ⟨hs, fun hc _ => ⟨hc, .none⟩⟩
  · simp only [initStmt, bind_ok, pure_ok] at h
    obtain ⟨d', _, hv, rfl, rfl⟩ := h
    obtain ⟨hs', htyped⟩ := valDecl_sound hfin hd hv hr hs hroot
    refine ⟨hs', fun hc hn => ?_⟩
    obtain ⟨hc', t, ht, hscope⟩ := htyped hc hn
    exact ⟨hc', hscope ▸ .val ht⟩
  · simp only [initStmt, bind_ok, pure_ok] at h
    obtain ⟨⟨e', t⟩, _, he, rfl, rfl⟩ := h
    obtain ⟨hs', htyped⟩ := expr_sound hfin hd he hr hs hroot
    have hplace := (expr_steady hd.orderly he).2
    refine ⟨hs', fun hc hn => ?_⟩
    rw [hplace]
    exact ⟨hc, .expr (htyped hc hn).1⟩

/-- **A declared record** is in scope; outside of templates it leaves nothing open. -/
theorem defineRecord_sound (hfin : Final globals fin) (hd : deeper.Sound globals fin) {id : Ident}
    {fs : List RecordField} {t : Ty} (h : defineRecord deeper id fs s = .ok t s') (hr : Reaches fin s')
    (hs : Healthy globals fin s) :
    Healthy globals fin s' ∧ (Concrete fin s.place → AllSpelled fin (fs.flatMap (·.type.names)) →
      Concrete fin s'.place ∧ ∃ canonical r, fin.records.find? canonical = some r ∧
        r.fields.map (·.name) = fs.map (·.name.name) ∧ s'.place.scope = s.place.scope.declare id.name canonical) := by
  have hmoves := defineRecord_moves hd.orderly h
  have hrs := hr.before hmoves.1
  obtain ⟨is, u, canonical, hfs, -, -, hcan, -, hs'⟩ := defineRecord_ok h
  obtain ⟨rfl, hall, -, -⟩ := recordFields_ok hd.orderly hfs
  have hinst : s'.instances = s.instances := by rw [hs']; rfl
  have hcells : s'.cells = s.cells := by rw [hs']; rfl
  refine ⟨⟨(hmoves.1 hr.1).2.fresh hs.fresh, fun hsig => hs.sigs (by rwa [hcells] at hsig),
    fun c hm => hs.instances c (by rwa [hinst] at hm)⟩, fun hc hn => ?_⟩
  have hfind : s'.records.find? canonical = some ⟨canonical, is⟩ := by
    rw [hs']
    show (s.records.insert canonical ⟨canonical, is⟩).find? canonical = _
    rw [Table.find?_insert, if_pos rfl]
  have hfinal := hr.2.records ((hmoves.1 hr.1).2.fresh hs.fresh) hfind
  have hclosed : ClosedRecord fin.records canonical := by
    refine closedRecord_of_fields hfinal fun i hi => ?_
    obtain ⟨f, hf, -, -, hft⟩ := forall₂_mem_right hall hi
    exact typeRef_settled hd.orderly (hd.settles _) (hc.grounded hfin hrs)
      (fun n hm => spelled_before hs.fresh hrs (hn n (List.mem_flatMap.2 ⟨f, hf, hm⟩))) hft
  have hscope : s'.place.scope = s.place.scope.declare id.name canonical := by
    rw [hs']
    show (Place.recordLocal id.name _).scope = _
    rw [recordLocal_scope]
    rfl
  refine ⟨⟨hmoves.2.templates.trans hc.templates, ?_⟩, canonical, _, hfinal, fields_names hall, hscope⟩
  rw [hscope]
  exact declare_settled hc.scope hclosed

end

end Check
end Unroll
