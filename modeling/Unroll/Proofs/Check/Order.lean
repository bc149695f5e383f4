import Unroll.Proofs.Check.Reordering
import Unroll.Proofs.Check.InStepStmt
import Unroll.Proofs.Check.Kept
/-!
# The order of the cells

A concrete cell is checked against what the program declares.  What other cells have left behind by then are the records
of their blocks, and these only make it count on from a later number: its check is in step with the one that begins
right after the declarations.  So each concrete cell is checked on its own, and a program without generic cells is
accepted in every order of its cells that declares the same, or in none.
-/
namespace Unroll

/-! ## Counting on -/

theorem localName_inj {a b : String} {j k : Nat} (h : localName a j = localName b k) : a = b ∧ j = k := by
  obtain rfl := localName_number h
  refine ⟨String.toList_injective ?_, rfl⟩
  have hl := congrArg String.toList h
  rw [localName_toList, localName_toList] at hl
  exact List.append_cancel_right hl

/-- The name of a record that a block declares, where the count began at zero. -/
def LocalRecord (n : String) : Prop := ∃ q : String × Nat, n = localName q.1 (q.2 + 1)

open Classical in
/-- The name that the record of a block has where the count began at `k`. -/
noncomputable def countedOn (k : Nat) (n : String) : String :=
  if h : LocalRecord n then localName h.choose.1 (h.choose.2 + 1 + k) else n

theorem countedOn_local (k : Nat) (base : String) (i : Nat) :
    countedOn k (localName base (i + 1)) = localName base (i + 1 + k) := by
  have h : LocalRecord (localName base (i + 1)) := ⟨(base, i), rfl⟩
  obtain ⟨hbase, hi⟩ := localName_inj h.choose_spec
  unfold countedOn
  rw [dif_pos h, ← hbase, ← hi]

theorem countedOn_other {k : Nat} {n : String} (h : ¬ LocalRecord n) : countedOn k n = n := dif_neg h

theorem localRecord_countedOn {k : Nat} {n : String} : LocalRecord (countedOn k n) ↔ LocalRecord n := by
  by_cases h : LocalRecord n
  · obtain ⟨⟨base, i⟩, rfl⟩ := h
    rw [countedOn_local]
    exact iff_of_true ⟨(base, i + k), by rw [Nat.add_right_comm]⟩ ⟨(base, i), rfl⟩
  · rw [countedOn_other h]

/-- **Counting on** from a later number gives the records of blocks other names, and nothing else. -/
noncomputable def Renaming.countingOn (k : Nat) : Renaming where
  name := countedOn k
  injective := fun n m h => by
    by_cases hn : LocalRecord n
    · have hm : LocalRecord m := localRecord_countedOn.1 (h ▸ localRecord_countedOn.2 hn)
      obtain ⟨⟨a, i⟩, rfl⟩ := hn
      obtain ⟨⟨b, j⟩, rfl⟩ := hm
      rw [countedOn_local, countedOn_local] at h
      obtain ⟨rfl, hij⟩ := localName_inj h
      rw [Nat.add_right_cancel hij]
    · have hm : ¬ LocalRecord m := fun hm => hn (localRecord_countedOn.1 (h ▸ localRecord_countedOn.2 hm))
      rwa [countedOn_other hn, countedOn_other hm] at h
  plain := fun {n} hq => countedOn_other fun ⟨q, hn⟩ => hq (hn ▸ quote_mem_localName q.1 (q.2 + 1))

theorem Ty.Settled.renamed {ρ : Renaming} {P : String → Prop} (hP : ∀ n, P n → ρ.name n = n) :
    ∀ {t : Ty}, t.Settled P → t.renamed ρ = t
  | .unit, _ | .bool, _ | .int, _ | .char, _ | .text, _ => rfl
  | .record n, h => congrArg Ty.record (hP n h)
  | .array elem (some n), h => congrArg (Ty.array · (some n)) (Ty.Settled.renamed hP (t := elem) h)

namespace Check

open CheckM Outcome Checker

/-! ## What the bodies leave behind -/

/-- **The records that are new are records of blocks**, counted from where the first state stands. -/
structure Recorded (s t : Checker) : Prop where
  count : s.recordCount ≤ t.recordCount
  records : ∀ n, s.records.find? n = none → t.records.find? n ≠ none →
    ∃ base k, s.recordCount < k ∧ k ≤ t.recordCount ∧ n = localName base k

theorem recorded_of_same {s t u : Checker} (h : Recorded s t) (hr : u.records = t.records)
    (hn : u.recordCount = t.recordCount) : Recorded s u where
  count := hn ▸ h.count
  records := by
    rw [hr, hn]
    exact h.records

instance : IsPreorder Checker Recorded where
  refl s := ⟨Nat.le_refl _, fun _ h h' => absurd h h'⟩
  trans s t u h h' := by
    refine ⟨h.count.trans h'.count, fun n hs hu => ?_⟩
    by_cases ht : t.records.find? n = none
    · obtain ⟨base, k, hlt, hle, rfl⟩ := h'.records n ht hu
      exact ⟨base, k, Nat.lt_of_le_of_lt h.count hlt, hle, rfl⟩
    · obtain ⟨base, k, hlt, hle, rfl⟩ := h.records n hs ht
      exact ⟨base, k, hlt, hle.trans h'.count, rfl⟩

theorem modifyGeneric_recorded {s t : Checker} (h : Recorded s t) (name : String) (f : GenericInfo → GenericInfo) :
    Recorded s (modifyGeneric name f t) := by
  unfold modifyGeneric
  split
  · exact recorded_of_same h rfl rfl
  · exact h

theorem recorded_from {s s' t : Checker} (h : Recorded s' t) (hr : s'.records = s.records)
    (hn : s'.recordCount = s.recordCount) : Recorded s t := by
  obtain ⟨hcount, hrecords⟩ := h
  rw [hr, hn] at hrecords
  exact ⟨hn ▸ hcount, hrecords⟩

theorem tried_recorded {name : String} {g : GenericInfo} {s t : Checker} (h : Recorded (underWay name g s) t) :
    Recorded s (tried name s t) := by
  have hback : Recorded s { t.onPlace (fun _ => s.place) with elaborating := t.elaborating.erase name } :=
    recorded_of_same (recorded_from h rfl rfl) rfl rfl
  exact modifyGeneric_recorded hback name _

instance : Lasting Recorded where
  onPlace s _ := recorded_of_same (refl_of Recorded s) rfl rfl
  event := fun {s e} _ => recorded_of_same (refl_of Recorded s) rfl rfl
  report s _ := recorded_of_same (refl_of Recorded s) rfl rfl
  record s base fs := by
    refine ⟨Nat.le_succ _, fun n hs ht => ?_⟩
    simp only [addRecord, Table.find?_insert] at ht
    split at ht
    · rename_i hn
      exact ⟨base, s.recordCount + 1, Nat.lt_succ_self _, Nat.le_refl _, hn⟩
    · exact absurd hs ht
  within := fun _ h => recorded_of_same (recorded_from h rfl rfl) rfl rfl
  tried := fun _ _ h => tried_recorded h
  elaborated := fun _ _ _ h => modifyGeneric_recorded (tried_recorded h) _ _
  instantiated := fun _ hst _ _ _ _ _ h => by
    refine trans_of Recorded hst ?_
    exact recorded_of_same (recorded_from h rfl rfl) rfl rfl
  forgotten := fun {name f fr s t v} _ hst _ h => by
    refine trans_of Recorded hst ?_
    rcases h with rfl | ⟨_, -, h⟩
    · exact recorded_of_same (refl_of Recorded t) rfl rfl
    · exact recorded_of_same (recorded_from h rfl rfl) rfl rfl

/-! ## What the declarations have in common -/

variable {n : Nat} {x : Stmt} {s s' t start : Checker} {p : Program} {globals : Table String}

/-- The parameters of an alias are words. -/
def ParamsWorded : Stmt → Prop
  | .typeAlias _ _ params _ => ∀ a ∈ params, Worded a.name.name
  | _ => True

/-- **The tables are in order**: what is declared under a name has that name, and an alias is kept as it is written. -/
structure Tidy (s : Checker) : Prop where
  keyed : ∀ scope ∈ s.place.types, ∀ e ∈ scope, e.1 = e.2
  named : ∀ n r, s.records.find? n = some r → r.name = n
  generic : ∀ n ps target, s.aliases.find? n = some (.generic ps target) → target.Written ∧ ∀ m ∈ ps.names, Worded m

theorem tidy_new (config : Config) : Tidy (.new config) where
  keyed := fun scope hs e he => by
    obtain rfl : scope = [] := List.mem_singleton.1 hs
    exact absurd he List.not_mem_nil
  named := fun _ _ h => nomatch h
  generic := fun _ _ _ h => nomatch h

namespace Tidy

theorem of_same (h : Tidy s) (hp : s'.place = s.place) (hr : s'.records = s.records) (ha : s'.aliases = s.aliases) :
    Tidy s' := by
  obtain ⟨hkeyed, hnamed, hgeneric⟩ := h
  rw [← hp] at hkeyed
  rw [← hr] at hnamed
  rw [← ha] at hgeneric
  exact ⟨hkeyed, hnamed, hgeneric⟩

theorem addRecord (h : Tidy s) (canonical : String) (fs : List FieldInfo) : Tidy (s.addRecord canonical fs) where
  keyed := h.keyed
  named := fun n r hr => by
    simp only [Checker.addRecord, Table.find?_insert] at hr
    split at hr
    · rename_i hn
      cases hr
      exact hn.symm
    · exact h.named n r hr
  generic := h.generic

theorem addGlobal_keyed (name : String) : ∀ {types : List (Table String)}, (∀ scope ∈ types, ∀ e ∈ scope, e.1 = e.2) →
    ∀ scope ∈ addGlobal name types, ∀ e ∈ scope, e.1 = e.2
  | [], h => h
  | [globals], h => by
    intro scope hs e he
    obtain rfl := List.mem_singleton.1 hs
    rcases List.mem_cons.1 he with rfl | he
    · rfl
    · exact h globals (List.mem_singleton_self _) e he
  | scope :: inner :: outer, h => by
    obtain ⟨hscope, hrest⟩ := List.forall_mem_cons.1 h
    exact List.forall_mem_cons.2 ⟨hscope, addGlobal_keyed name hrest⟩

theorem declareName (h : Tidy s) (hx : declareName x s = .ok () s') : Tidy s' := by
  cases x with
  | trait sp id =>
    simp only [Check.declareName, declareTrait, bind_ok, get_ok] at hx
    obtain ⟨_, _, ⟨rfl, rfl⟩, hx⟩ := hx
    split at hx
    · simp only [bind_ok] at hx
      obtain ⟨_, _, hx, -⟩ := hx
      exact absurd hx fail_ok
    · simp only [modify_ok] at hx
      subst hx
      exact h.of_same rfl rfl rfl
  | record d =>
    simp only [Check.declareName, declareRecord, bind_ok, modify_ok, onPlace_ok] at hx
    obtain ⟨_, t, ht, _, _, rfl, rfl⟩ := hx
    obtain rfl := checkTypeName_ok ht
    have hadded := h.addRecord d.name.name []
    exact ⟨addGlobal_keyed d.name.name hadded.keyed, hadded.named, hadded.generic⟩
  | typeAlias _ _ _ _ | cell _ =>
    simp only [Check.declareName, pure_ok] at hx
    exact hx.2 ▸ h
  | _ =>
    simp only [Check.declareName] at hx
    exact absurd hx fail_ok

end Tidy

theorem paramDecls_names : ∀ {ps : List TemplateParam} {seen : List String} {ds : List ParamDecl},
    paramDecls s seen ps = .ok ds → ds.map (·.name) = ps.map (·.name.name)
  | [], seen, ds, h => by
    cases h
    rfl
  | p :: ps, seen, ds, h => by
    have hcons : ∀ sort : Except Diagnostic ParamSort, (do
        let sort ← sort
        return (⟨p.name.name, sort⟩ : ParamDecl) :: (← paramDecls s (p.name.name :: seen) ps)) = .ok ds →
          ds.map (·.name) = (p :: ps).map (·.name.name) := by
      intro sort h
      simp only [except_bind_ok, except_pure_ok] at h
      obtain ⟨_, -, ds', hds, rfl⟩ := h
      exact congrArg (p.name.name :: ·) (paramDecls_names hds)
    simp only [paramDecls] at h
    split at h
    · cases h
    · split at h
      · split at h <;> exact hcons _ h
      · exact hcons _ h
      · exact hcons _ h
      · exact hcons _ h

theorem Tidy.declare (h : Tidy s) (hw : x.Written) (hp : ParamsWorded x)
    (hc : ∀ c, x = .cell c → c.isGeneric = false) (hx : declare (levels n) x s = .ok () s') :
    Tidy s' := by
  cases x with
  | record d =>
    simp only [Check.declare, bind_ok, modify_ok] at hx
    obtain ⟨fields, t, hf, rfl⟩ := hx
    obtain ⟨rfl, -, -, -⟩ := recordFields_ok (levels_orderly n) hf
    exact h.addRecord _ _
  | typeAlias sp id params target =>
    have hinsert : ∀ {info : AliasInfo}, (∀ ps target', info = .generic ps target' →
        target'.Written ∧ ∀ m ∈ ps.names, Worded m) → Tidy { s with aliases := s.aliases.insert id.name info } := by
      refine fun {info} hinfo => ⟨h.keyed, h.named, fun m ps target' hm => ?_⟩
      simp only [Table.find?_insert] at hm
      split at hm
      · cases hm
        exact hinfo ps target' rfl
      · exact h.generic m ps target' hm
    simp only [Check.declare, declareAlias, bind_ok] at hx
    obtain ⟨_, t, hname, hx⟩ := hx
    obtain rfl := checkTypeName_ok hname
    split at hx
    · simp only [bind_ok, map_ok, modify_ok] at hx
      obtain ⟨_, u, ⟨ty, hty, rfl⟩, rfl⟩ := hx
      obtain rfl := typeRef_same (levels_orderly n) hty
      refine hinsert fun _ _ he => ?_
      cases he
    · simp only [bind_ok, get_ok, ofExcept_ok, pure_ok, modify_ok] at hx
      obtain ⟨_, _, ⟨rfl, rfl⟩, decls, _, ⟨hdecls, rfl⟩, _, _, ⟨rfl, rfl⟩, rfl⟩ := hx
      refine hinsert fun ps target' he => ?_
      cases he
      refine ⟨hw.2, fun m hm => ?_⟩
      have hm' : m ∈ decls.map (·.name) := hm
      rw [paramDecls_names hdecls] at hm'
      obtain ⟨a, ha, rfl⟩ := List.mem_map.1 hm'
      exact hp a ha
  | cell c =>
    obtain ⟨-, -, -, sig, -, rfl⟩ := (declare_concrete (hc c rfl)).1 hx
    exact h.of_same rfl rfl rfl
  | _ =>
    simp only [Check.declare, pure_ok, true_and] at hx
    exact hx ▸ h

/-- **What stands before the bodies are checked**, in a program without generic cells. -/
structure Base (globals : Table String) (p : Program) (start : Checker) : Prop where
  declared : Declared globals p start
  tidy : Tidy start
  clean : start.diagnostics = []
  concrete : start.generics = []

/-- A program whose declarations go well. -/
theorem base_of_passes (hp : ∀ x ∈ p, x.Written) (hparams : ∀ x ∈ p, ParamsWorded x)
    (hc : ∀ c, .cell c ∈ p → c.isGeneric = false) {config : Config} {u v : Unit}
    (hnames : p.forM (fun x => collecting (declareName x)) (.new config) = .ok u s)
    (hdecls : p.forM declareNext s = .ok v start) (hclean : start.diagnostics = []) : ∃ globals, Base globals p start := by
  obtain ⟨globals, hd⟩ := declarations_ok hp hnames hdecls hclean
  have hpar : ∀ c, .cell c ∈ p → c.params = [] := fun c hm => by
    have hg := hc c hm
    rw [← Bool.not_eq_true, isGeneric_iff, not_not] at hg
    exact hg
  refine ⟨globals, hd, ?_, hclean, hd.concrete hpar⟩
  obtain ⟨hsclean, hlast⟩ := forM_ok (C := fun s => s.diagnostics = []) (P := fun _ => Tidy) []
    (fun x hx s s' _ hstep hc' => ⟨declareNext_start (hp x hx) hstep hc', fun ht =>
      ht.declare (hp x hx) (hparams x hx) (fun c he => hc c (he ▸ hx)) (declareNext_clean hstep hc')⟩) hdecls hclean
  obtain ⟨-, hfirst⟩ := forM_ok (C := fun s => s.diagnostics = []) (P := fun _ => Tidy) []
    (fun x hx s s' _ hstep hc' => by
      have hx' := (collecting_ok hstep).resolve_right fun hd => hd hc'
      exact ⟨(declareName_ok hx' (hp x hx)).1 ▸ hc', fun ht => ht.declareName hx'⟩) hnames hsclean
  exact hlast (hfirst (tidy_new config))

/-- **The second state comes after the first one**, with nothing but bodies checked in between. -/
structure Later (s t : Checker) : Prop where
  known : s.Extends t
  place : t.place = s.place
  frames : t.frames = s.frames
  recorded : Recorded s t

theorem Later.refl (s : Checker) : Later s s := ⟨.refl s, rfl, rfl, refl_of Recorded s⟩

theorem Later.trans {u : Checker} (h : Later s t) (h' : Later t u) : Later s u :=
  ⟨h.known.trans h'.known, h'.place.trans h.place, h'.frames.trans h.frames,
    trans_of Recorded h.recorded h'.recorded⟩

namespace Base

variable {ρ : Renaming}

theorem global_fixed (h : Base globals p start) (n : String) (hn : Global globals n) : ρ.name n = n := by
  obtain ⟨q, hq, rfl⟩ := hn
  exact (h.declared.worded q hq).fixed

theorem settled_fixed (h : Base globals p start) {ty : Ty} (ht : ty.Settled (Global globals)) : ty.renamed ρ = ty :=
  ht.renamed h.global_fixed

theorem stays (h : Base globals p start) : Stays ρ start.aliases start.cells where
  alias_name := fun n a ha => (h.declared.aliased ha).fixed
  plain := fun ha => h.settled_fixed (h.declared.plain ha)
  generic := fun ha => by
    obtain ⟨htarget, hnames⟩ := h.tidy.generic _ _ _ ha
    exact ⟨htarget.renamed, fun m hm => (hnames m hm).fixed⟩
  cells := fun {n sig} hc => by
    obtain ⟨-, hparams, hret⟩ := h.declared.cells hc
    obtain ⟨ps, ret⟩ := sig
    refine congrArg₂ CellSig.mk ?_ (h.settled_fixed hret)
    refine (List.map_congr_left fun q hq => ?_).trans (List.map_id ps)
    exact congrArg (fun ty => ({ q with type := ty } : CellParam)) (h.settled_fixed (hparams q hq))

theorem place_fixed (h : Base globals p start) : start.place.renamed ρ = start.place ∧ start.place.Fixed ρ := by
  have hkeyed := h.tidy.keyed
  rw [h.declared.place] at hkeyed ⊢
  have hglobals := hkeyed globals (List.mem_singleton_self _)
  have hmap : Table.mapVals ρ.name globals = globals := by
    refine (List.map_congr_left fun e he => ?_).trans (List.map_id globals)
    exact Prod.ext rfl (h.declared.worded e he).fixed
  refine ⟨?_, fun scope hs e he => ?_, fun l hl => absurd hl List.not_mem_nil⟩
  · show ({ Place.outside globals with types := [Table.mapVals ρ.name globals] } : Place) = _
    rw [hmap]
    rfl
  · obtain rfl := List.mem_singleton.1 hs
    rw [hglobals e he]
    exact (h.declared.worded e he).fixed

theorem record_fixed (h : Base globals p start) {n : String} {r : RecordInfo} (hr : start.records.find? n = some r) :
    ρ.name n = n ∧ r.renamed ρ = r := by
  obtain ⟨hn, hfields⟩ := h.declared.records hr
  have hname := h.tidy.named n r hr
  obtain ⟨name, fs⟩ := r
  obtain rfl : name = n := hname
  refine ⟨h.global_fixed _ hn, congrArg₂ RecordInfo.mk (h.global_fixed _ hn) ?_⟩
  refine (List.map_congr_left fun f hf => ?_).trans (List.map_id fs)
  exact congrArg (fun ty => ({ f with type := ty } : FieldInfo)) (h.settled_fixed (hfields f hf))

/-- **Whatever has been checked in between**, the state is the one before the bodies, but for how far records are
counted. -/
theorem sameUpTo (h : Base globals p start) {start' : Checker} (hs : SameCells start start') (hl : Later start' t)
    (hclean : t.diagnostics = []) : SameUpTo (.countingOn t.recordCount) start t where
  config := hl.known.config.trans (by rw [hs.rest]; rfl)
  traits := hl.known.traits.trans (by rw [hs.rest]; rfl)
  aliases := hl.known.aliases.trans (by rw [hs.rest]; rfl)
  cells := fun n => by
    rw [← hs.cells n]
    cases hf : start'.cells.find? n with
    | some sig => exact hl.known.kept hf
    | none =>
      by_contra hne
      have hgen : start'.generics = [] := by
        rw [hs.rest]
        exact h.concrete
      have hinst : start'.instances = [] := by
        rw [hs.rest]
        exact h.declared.instances
      obtain ⟨c, hc, -⟩ := hl.known.made hf hne
      rw [hl.known.concrete hgen, hinst] at hc
      exact absurd hc List.not_mem_nil
  noGenerics := ⟨h.concrete, hl.known.generics.nil.2 (by rw [hs.rest]; exact h.concrete)⟩
  records := fun n => by
    have hrec : start'.records = start.records := by
      rw [hs.rest]
      rfl
    have hcount : start'.recordCount = 0 := by
      rw [hs.rest]
      exact h.declared.count
    cases hf : start.records.find? n with
    | some r =>
      obtain ⟨hn, hr⟩ := h.record_fixed (ρ := .countingOn t.recordCount) hf
      rw [hn, Option.map_some, hr]
      refine hl.known.records ?_ (hrec ▸ hf)
      intro base k hk
      rw [hrec]
      exact h.declared.fresh base k (by rw [h.declared.count]; omega)
    | none =>
      by_contra hne
      have hnone : start'.records.find? ((Renaming.countingOn t.recordCount).name n) = none := by
        rw [hrec]
        cases hf' : start.records.find? ((Renaming.countingOn t.recordCount).name n) with
        | none => rfl
        | some r =>
          have hn := (Renaming.countingOn t.recordCount).injective (h.record_fixed hf').1
          rw [hn, hf] at hf'
          cases hf'
      obtain ⟨base, k, hlt, hle, hname⟩ := hl.recorded.records _ hnone hne
      rw [hcount] at hlt
      obtain ⟨i, rfl⟩ := Nat.exists_eq_succ_of_ne_zero (Nat.ne_of_gt hlt)
      have hloc : LocalRecord n := localRecord_countedOn.1 ⟨(base, i), hname⟩
      obtain ⟨⟨b, j⟩, rfl⟩ := hloc
      have hsame := localName_inj ((countedOn_local t.recordCount b j).symm.trans hname)
      omega
  place := by
    rw [hl.place, h.place_fixed.1, hs.rest]
    rfl
  frames := by
    rw [hl.frames, hs.rest]
    exact ⟨rfl, rfl⟩
  numbers := fun base k => by
    rw [h.declared.count, Nat.zero_add]
    refine (countedOn_local t.recordCount base k).trans (congrArg (localName base) ?_)
    omega
  clean := iff_of_true hclean h.clean
  fixed := h.place_fixed.2
  stays := h.stays

end Base

/-! ## Each cell on its own -/

theorem concreteCell_inStep {ρ : Renaming} {d : Deeper} (hd : d.InStep ρ) {c : CellDef}
    (hc : Stmt.AllUnchanged ρ c.body.stmts) : InStep ρ (fun r r' => r' = r) (concreteCell d c) (concreteCell d c) := by
  refine .bind .get fun {s t} hst => ?_
  rw [hst.cells]
  cases hf : s.cells.find? c.name.name with
  | none => exact .pure rfl
  | some sig => exact .apart (cellBody_inStep hd hc (hst.stays.cells hf))

theorem elaborateStmt_concrete {d : Deeper} {c : CellDef} (hc : c.isGeneric = false) : elaborateStmt d (.cell c) = (do
    try .cell <$> concreteCell d c
    catch e =>
      modify (·.report e)
      pure (.cell c)) := by
  simp only [elaborateStmt, hc, Bool.false_eq_true, if_false]

theorem elaborateStmt_inStep {ρ : Renaming} {d : Deeper} (hd : d.InStep ρ) (hw : x.Written)
    (hc : ∀ c, x = .cell c → c.isGeneric = false) :
    InStep ρ (fun r r' => r' = r) (elaborateStmt d x) (elaborateStmt d x) := by
  cases x with
  | cell c =>
    have hbody : InStep ρ (fun r r' => r' = r) (concreteCell d c) (concreteCell d c) :=
      concreteCell_inStep hd (CellDef.Written.parts hw).2.2.2.unchanged
    rw [elaborateStmt_concrete (hc c rfl)]
    exact .tryCatch (.map hbody fun h => congrArg Stmt.cell h) fun e e' =>
      .bind (.modify fun _ _ hst => hst.report e e') fun _ => .pure rfl
  | _ => exact .pure rfl

/-- One declaration of the last pass. -/
def elaborateNext (x : Stmt) : CheckM Stmt := do elaborateStmt (fromHere (← get)) x

theorem elaborateNext_ok {r : Stmt} : elaborateNext x s = .ok r s' ↔ elaborateStmt (fromHere s) x s = .ok r s' := by
  simp only [elaborateNext, bind_ok, get_ok]
  constructor
  · rintro ⟨_, _, ⟨rfl, rfl⟩, h⟩
    exact h
  · exact fun h => ⟨s, s, ⟨rfl, rfl⟩, h⟩

theorem elaborateNext_later {r : Stmt} (h : elaborateNext x s = .ok r s') (hclean : s'.diagnostics = []) :
    s.diagnostics = [] ∧ Later s s' := by
  have hx := elaborateNext_ok.1 h
  obtain ⟨honward, hplace⟩ := elaborateStmt_steady hx hclean
  obtain ⟨hs, hfollows⟩ := honward hclean
  exact ⟨hs, hfollows.toExtends, hplace, ((elaborateStmt_lasting (T := PutBack) _ x).ok hx).frames,
    (elaborateStmt_lasting (T := Recorded) _ x).ok hx⟩

/-- The declaration is checked well right after the declarations, with this result. -/
def Alone (start : Checker) (x r : Stmt) : Prop := ∃ u, elaborateNext x start = .ok r u ∧ u.diagnostics = []

namespace Base

variable {r : Stmt}

theorem inStep (h : Base globals p start) {start' : Checker} (hs : SameCells start start') (hl : Later start' t)
    (hclean : t.diagnostics = []) (hw : x.Written) (hc : ∀ c, x = .cell c → c.isGeneric = false) :
    EndAlike (.countingOn t.recordCount) (fun r r' => r' = r) (elaborateNext x start) (elaborateNext x t) := by
  have hst := h.sameUpTo hs hl hclean
  have hlevel : fromHere t = fromHere start := by
    unfold fromHere
    rw [hst.config, hst.noGenerics.1, hst.noGenerics.2]
  have hstep := elaborateStmt_inStep (levels_inStep (ρ := .countingOn t.recordCount)
    (start.config.maxInstantiationDepth + start.generics.length + 1)) hw hc start t hst
  have ht : elaborateNext x t = elaborateStmt (fromHere t) x t := rfl
  rw [ht, hlevel]
  exact hstep

/-- **What is checked well is checked well on its own**, before all others. -/
theorem alone (h : Base globals p start) {start' : Checker} (hs : SameCells start start') (hl : Later start' t)
    (hclean : t.diagnostics = []) (hw : x.Written) (hc : ∀ c, x = .cell c → c.isGeneric = false)
    (hx : elaborateNext x t = .ok r s') (hclean' : s'.diagnostics = []) : Alone start x r := by
  have hend := h.inStep hs hl hclean hw hc
  rw [hx] at hend
  cases hstart : elaborateNext x start with
  | ok r' u =>
    rw [hstart] at hend
    obtain ⟨rfl, hu⟩ := hend
    exact ⟨u, hstart, hu.clean.1 hclean'⟩
  | error d u =>
    rw [hstart] at hend
    exact hend.elim

/-- **What is checked well on its own** is checked well behind others, with the same result. -/
theorem behind (h : Base globals p start) {start' : Checker} (hs : SameCells start start') (hl : Later start' t)
    (hclean : t.diagnostics = []) (hw : x.Written) (hc : ∀ c, x = .cell c → c.isGeneric = false) (hx : Alone start x r) :
    ∃ t', elaborateNext x t = .ok r t' ∧ t'.diagnostics = [] ∧ Later start' t' := by
  obtain ⟨u, hstart, hu⟩ := hx
  have hend := h.inStep hs hl hclean hw hc
  rw [hstart] at hend
  cases ht : elaborateNext x t with
  | ok r' t' =>
    rw [ht] at hend
    obtain ⟨rfl, hsame⟩ := hend
    have hclean' := hsame.clean.2 hu
    exact ⟨t', rfl, hclean', hl.trans (elaborateNext_later ht hclean').2⟩
  | error d t' =>
    rw [ht] at hend
    exact hend.elim

/-- **Every declaration of a program that passes** is checked well on its own. -/
theorem all_alone (h : Base globals p start) (hp : ∀ x ∈ p, x.Written) (hc : ∀ c, .cell c ∈ p → c.isGeneric = false)
    {stmts : List Stmt} {fin : Checker} (hall : p.mapM elaborateNext start = .ok stmts fin) (hclean : fin.diagnostics = []) :
    Later start fin ∧ List.Forall₂ (Alone start) p stmts := by
  have hsame : SameCells start start := ⟨rfl, fun _ => rfl⟩
  obtain ⟨-, hlast⟩ := mapM_ok (C := fun s => s.diagnostics = []) (P := fun _ s => s.diagnostics = [] ∧ Later start s)
    (R := Alone start) [] (fun x hx s r s' done hstep hcl => by
      have hcx : ∀ c, x = .cell c → c.isGeneric = false := fun c he => hc c (he ▸ hx)
      obtain ⟨hs, hl⟩ := elaborateNext_later hstep hcl
      refine ⟨hs, fun ⟨_, hstart⟩ => ⟨⟨hcl, hstart.trans hl⟩, ?_⟩⟩
      exact h.alone hsame hstart hs (hp x hx) hcx hstep hcl) hall hclean
  obtain ⟨⟨-, hlater⟩, halone⟩ := hlast ⟨h.clean, .refl start⟩
  exact ⟨hlater, halone⟩

/-- No instance is made. -/
theorem no_instances (h : Base globals p start) {start' : Checker} (hs : SameCells start start') (hl : Later start' t) :
    t.instances = [] := by
  have hgen : start'.generics = [] := by
    rw [hs.rest]
    exact h.concrete
  rw [hl.known.concrete hgen, hs.rest]
  exact h.declared.instances

/-- **Declarations that are all checked well on their own** are checked well one after another. -/
theorem all_behind (h : Base globals p start) {start' : Checker} (hs : SameCells start start') : ∀ {q rs : Program}
    {t : Checker}, (∀ x ∈ q, x.Written) → (∀ c, .cell c ∈ q → c.isGeneric = false) → List.Forall₂ (Alone start) q rs →
      Later start' t → t.diagnostics = [] →
        ∃ fin, q.mapM elaborateNext t = .ok rs fin ∧ fin.diagnostics = [] ∧ Later start' fin := by
  intro q rs t hq hc hall hl hclean
  induction hall generalizing t with
  | nil => exact ⟨t, by rw [List.mapM_nil]; rfl, hclean, hl⟩
  | @cons x r q rs hx _ ih =>
    obtain ⟨hw, hq⟩ := List.forall_mem_cons.1 hq
    obtain ⟨u, hu, huclean, hlu⟩ := h.behind hs hl hclean hw (fun c he => hc c (he ▸ List.mem_cons_self ..)) hx
    obtain ⟨fin, hfin, hfclean, hlf⟩ := ih hq (fun c hm => hc c (List.mem_cons_of_mem _ hm)) hlu huclean
    refine ⟨fin, ?_, hfclean, hlf⟩
    simp only [List.mapM_cons, bind_ok, pure_ok]
    exact ⟨r, u, hu, rs, fin, hfin, rfl, rfl⟩

end Base

/-! ## The whole program -/

theorem names_reordered {q : Program} (h : Program.Reordered p q) :
    p.forM (fun x => collecting (declareName x)) = q.forM fun x => collecting (declareName x) := by
  have hcell : ∀ {x : Stmt}, x.isCell = true → collecting (declareName x) = pure () := by
    intro x hx
    obtain ⟨c, rfl⟩ := Stmt.eq_cell hx
    rfl
  induction h with
  | refl p => rfl
  | cons x _ ih =>
    simp only [List.forM_eq_forM, List.forM_cons] at ih ⊢
    rw [ih]
  | swap p hex =>
    simp only [List.forM_eq_forM, List.forM_cons]
    obtain ⟨hx, -⟩ | ⟨hy, -⟩ := hex
    · simp only [hcell hx, pure_bind]
    · simp only [hcell hy, pure_bind]
  | trans _ _ ih ih' => exact ih.trans ih'

/-- Without generic cells there are no templates to check. -/
theorem templates_concrete : ∀ {p : Program}, (∀ c, .cell c ∈ p → c.isGeneric = false) →
    p.forM (fun x => (do collecting (elaborateTemplates (fromHere (← get)) x) : CheckM Unit)) s = .ok () s
  | [], _ => rfl
  | x :: p, hc => by
    have hx : (do collecting (elaborateTemplates (fromHere (← get)) x) : CheckM Unit) s = .ok () s := by
      cases x with
      | cell c =>
        have hg := hc c (List.mem_cons_self ..)
        simp only [elaborateTemplates, hg, bind_ok, get_ok, collecting, tryCatch_ok]
        exact ⟨s, s, ⟨rfl, rfl⟩, .inl rfl⟩
      | _ => rfl
    exact forM_cons_ok.2 ⟨s, hx, templates_concrete fun c hm => hc c (List.mem_cons_of_mem _ hm)⟩

/-- What the passes leave is the checked program. -/
theorem program_of_passes {config : Config} {fin : Checker} {stmts : List Stmt}
    (hnames : p.forM (fun x => collecting (declareName x)) (.new config) = .ok () s) (hdecls : p.forM declareNext s = .ok () t)
    (htemplates : p.forM (fun x => (do collecting (elaborateTemplates (fromHere (← get)) x) : CheckM Unit)) t = .ok () start)
    (hstmts : p.mapM elaborateNext start = .ok stmts fin) (hclean : fin.diagnostics = []) :
    p.check config = .ok ⟨stmts, fin.instances.reverse⟩ := by
  have hp : Check.program p (.new config) = .ok ⟨stmts, fin.instances.reverse⟩ { fin with instances := [] } := by
    simp only [Check.program, bind_ok, modify_ok]
    refine ⟨(), _, rfl, (), s, hnames, (), t, hdecls, (), start, htemplates, stmts, fin, hstmts, fin, fin,
      get_ok.2 ⟨rfl, rfl⟩, ?_⟩
    have hnone : fin.diagnostics.getLast? = none := by
      rw [hclean]
      rfl
    simp only [hnone, bind_ok, modify_ok, pure_ok]
    exact ⟨(), _, rfl, trivial, rfl⟩
  unfold Program.check
  rw [hp]

theorem map_of_forall₂ {α β : Type} {R : α → β → Prop} {f : α → β} (hf : ∀ a b, R a b → b = f a) {as : List α}
    {bs : List β} (h : List.Forall₂ R as bs) : bs = as.map f := by
  induction h with
  | nil => rfl
  | cons hr _ ih => rw [hf _ _ hr, ih, List.map_cons]

/-- What the declaration is checked to, right after the declarations. -/
def outcome (start : Checker) (x : Stmt) : Stmt :=
  match elaborateNext x start with
  | .ok r _ => r
  | .error _ _ => x

theorem Alone.outcome {r : Stmt} (h : Alone start x r) : r = Check.outcome start x := by
  obtain ⟨u, hu, -⟩ := h
  unfold Check.outcome
  rw [hu]

theorem check_ok {config : Config} {checked : CheckedProgram} (h : p.check config = .ok checked) :
    ∃ last, Check.program p (.new config) = .ok checked last := by
  unfold Program.check at h
  cases hp : Check.program p (.new config) with
  | ok c last =>
    rw [hp] at h
    cases h
    exact ⟨last, rfl⟩
  | error d last =>
    rw [hp] at h
    cases h

end Check

open Check in
/-- **The order of concrete cells does not matter**: a program without generic cells that is accepted is accepted in every
order that exchanges its cells with declarations next to them, aliases apart, and each declaration is checked to the same. -/
theorem Program.check_reordered {p q : Program} {config : Config} {checked : CheckedProgram} (hp : ∀ x ∈ p, x.Written)
    (hparams : ∀ x ∈ p, ParamsWorded x) (hc : ∀ c, .cell c ∈ p → c.isGeneric = false) (h : Reordered p q)
    (hok : p.check config = .ok checked) :
    ∃ f : Stmt → Stmt, checked = ⟨p.map f, []⟩ ∧ q.check config = .ok ⟨q.map f, []⟩ := by
  obtain ⟨last, hlast⟩ := check_ok hok
  obtain ⟨s, start, t, _, _, _, stmts, fin, hnames, hdecls, htemplates, hstmts, hclean, rfl, -⟩ := program_ok hlast
  have hsame : SameCells start start := ⟨rfl, fun _ => rfl⟩
  have hstart := (bodies_since htemplates hstmts hclean).1
  obtain ⟨globals, hbase⟩ := base_of_passes hp hparams hc hnames hdecls hstart
  obtain ⟨-, rfl⟩ := EStateM.Result.ok.inj (htemplates.symm.trans (templates_concrete hc))
  obtain ⟨hlater, halone⟩ := hbase.all_alone hp hc hstmts hclean
  -- The other order, pass by pass.
  have hq : ∀ x ∈ q, x.Written := fun x hx => hp x (h.perm.mem_iff.2 hx)
  have hcq : ∀ c, .cell c ∈ q → c.isGeneric = false := fun c hm => hc c (h.perm.mem_iff.2 hm)
  obtain ⟨start', hdecls', hs⟩ := declareAll_reordered h hp hc hdecls hstart ⟨rfl, fun _ => rfl⟩
  have hclean' : start'.diagnostics = [] := by
    rw [hs.rest]
    exact hstart
  have halone' : List.Forall₂ (Alone t) q (q.map (outcome t)) := by
    refine List.forall₂_map_right_iff.2 (List.forall₂_same.2 fun x hx => ?_)
    obtain ⟨r, -, hr⟩ := forall₂_left halone (h.perm.mem_iff.2 hx)
    exact hr.outcome ▸ hr
  obtain ⟨fin', hstmts', hfclean, hlater'⟩ := hbase.all_behind hs hq hcq halone' (.refl start') hclean'
  have hcheck := program_of_passes (names_reordered h ▸ hnames) hdecls' (templates_concrete hcq) hstmts' hfclean
  rw [hbase.no_instances hs hlater'] at hcheck
  refine ⟨outcome t, ?_, hcheck⟩
  rw [hbase.no_instances hsame hlater, map_of_forall₂ (fun x r hr => hr.outcome) halone]
  rfl

open Check in
/-- **Cells may change places among themselves** in a program without generic cells whose aliases all stand before its
cells: it is accepted in both orders or in none. -/
theorem Program.check_permuted {p q : Program} (config : Config) (hp : ∀ x ∈ p, x.Written)
    (hparams : ∀ x ∈ p, ParamsWorded x) (hc : ∀ c, .cell c ∈ p → c.isGeneric = false) (h : p.Perm q)
    (hothers : p.filter (!·.isCell) = q.filter (!·.isCell)) (hpa : p.AliasesFirst) (hqa : q.AliasesFirst) :
    (∃ checked, p.check config = .ok checked) ↔ ∃ checked, q.check config = .ok checked := by
  have hre : Reordered p q := reordered_of_perm h hothers hpa hqa
  constructor
  · rintro ⟨checked, hok⟩
    obtain ⟨f, -, hq⟩ := check_reordered hp hparams hc hre hok
    exact ⟨_, hq⟩
  · rintro ⟨checked, hok⟩
    obtain ⟨f, -, hq⟩ := check_reordered (fun x hx => hp x (h.mem_iff.2 hx)) (fun x hx => hparams x (h.mem_iff.2 hx))
      (fun c hm => hc c (h.mem_iff.2 hm)) hre.symm hok
    exact ⟨_, hq⟩

/-- An alias `Count` for int, and a cell `size(n: Count)`. -/
def countAlias : Stmt := .typeAlias nowhere (bareName "Count") [] (.named nowhere (bareName "int") [])

def sizeCell : Stmt :=
  .cell ⟨nowhere, bareName "size", [], [⟨nowhere, bareName "n", false, .named nowhere (bareName "Count") []⟩], none,
    ⟨nowhere, []⟩⟩

/-- A cell may not be taken before an alias that its signature mentions. -/
example : (Program.check [countAlias, sizeCell] .standard).toOption.isSome = true ∧
    (Program.check [sizeCell, countAlias] .standard).toOption.isSome = false := by decide +kernel

end Unroll
