import Unroll.Proofs.Accepted
import Unroll.Proofs.Check.Whole
import Unroll.Proofs.Grammar.Reading
import Unroll.Proofs.Machine.SafeCode
/-!
# A checked program runs safely

Calls go down level by level, and at each level a call gives what its signature says, unless its cell ends without
giving anything.  So a checked program comes to a value of the declared type, is given up, or stops with an error that
types cannot rule out; and where some cell may end without giving the value it is to give, the errors about the unit that
then stands for it are all that is added.
-/
namespace Unroll

/-! ## Calls -/

/-- Entry by entry, a value of the declared type stands under the declared name. -/
theorem Holds.of_entries {records : Table RecordInfo} {lapse : Prop} {table : Table Value} {values : Table ValInfo}
    (h : List.Forall₂ (fun e i => e.1 = i.1 ∧ e.2.Has records lapse i.2.type) table values) :
    Holds records lapse values table := by
  induction h with
  | nil => exact .nil
  | @cons e i table values he _ ih =>
    obtain ⟨n, v⟩ := e
    obtain ⟨m, i⟩ := i
    obtain ⟨rfl, hv⟩ := he
    exact ih.insert hv

theorem params_hold {records : Table RecordInfo} {lapse : Prop} : ∀ {ps : List CellParam} {names : List String}
    {args : List Value}, names = ps.map (·.name) → List.Forall₂ (Value.Has records lapse) args (ps.map (·.type)) →
      List.Forall₂ (fun (e : String × Value) (i : String × ValInfo) => e.1 = i.1 ∧ e.2.Has records lapse i.2.type)
        (names.zip args) (ps.map fun p => (p.name, ⟨p.type, p.mutable⟩))
  | [], _, _, rfl, h => by
    cases h
    exact .nil
  | p :: ps, _, _, rfl, h => by
    cases h with
    | cons hv hrest => exact .cons ⟨rfl, hv⟩ (params_hold rfl hrest)

namespace Eval

open Run

variable {g : Globals} {globals : Table String} {lapse : Prop} {w : World}

/-- **A call gives what its signature says.** -/
theorem cell_safe (hw : w.Keeps g lapse) {c : CellDef} {sig : CellSig} (hc : CellTyped g globals c sig)
    (hlapse : sig.ret = .unit ∨ c.gives = true ∨ lapse) {args : List Value}
    (hargs : List.Forall₂ (Value.Has g.records lapse) args (sig.params.map (·.type))) (fs : List (List (Table Value))) :
    Safe lapse (fun m => m.frames = fs) (Gives (fun m => m.frames = fs) (Value.Has g.records lapse · sig.ret))
      (cell w c args) := by
  have hparams := Holds.of_entries (List.rel_reverse (params_hold hc.params hargs))
  have hret : sig.ret = .unit ∨ Stmt.waysAll c.body.stmts = .none ∨ lapse :=
    hlapse.imp_right (Or.imp_left CellDef.ways_of_gives)
  have hbody := @stmts_safe g lapse w fs hw _ _ hc.body
  unfold cell
  refine .inFrame fun m hm => ?_
  refine (hbody.bind fun f => ?_) m ⟨_, [], hm, .cons hparams .base⟩
  rintro m ⟨hf, Γ, -, table, tables, hframes, -⟩
  have htail : m.frames.tail = fs := by rw [hframes, List.tail_cons]
  obtain rfl | ⟨v, rfl⟩ := hf.outside rfl
  · exact ⟨hf.fallen hret, htail⟩
  · cases hf with
    | give hv => exact ⟨hv, htail⟩

/-- **At every level calls give what their signatures say.** -/
theorem callAt_keeps {cells : Table CellDef} {limit rounds : Nat}
    (hcells : ∀ {n sig}, g.cells.find? n = some sig → ∃ c, cells.find? n = some c ∧ CellTyped g globals c sig ∧
      (sig.ret = .unit ∨ c.gives = true ∨ lapse)) :
    ∀ depth, World.Keeps g lapse ⟨cells, callAt cells limit rounds depth, rounds⟩
  | 0 =>
    { calls := fun hsig => by
        obtain ⟨c, hc, -⟩ := hcells hsig
        exact ⟨c, hc, fun _ _ _ => .ordinary .callDepth⟩ }
  | depth + 1 =>
    { calls := fun hsig => by
        obtain ⟨c, hc, ht, hlapse⟩ := hcells hsig
        exact ⟨c, hc, fun hargs _ fs => cell_safe (callAt_keeps hcells depth) ht hlapse hargs fs⟩ }

end Eval

/-! ## Programs -/

/-- Some cell that is to give a value may end without giving one. -/
def CheckedProgram.lapses (sigs : Table CellSig) (p : CheckedProgram) : Bool :=
  p.cells.any fun c => !c.gives && (sigs.find? c.name.name).any (·.ret ≠ .unit)

/-- **How the run of an entry may end.** -/
inductive SafeEnd (records : Table RecordInfo) (sigs : Table CellSig) (lapse : Prop) (entry : String) :
    Except RunError Outcome → Prop
  | value {o sig} : sigs.find? entry = some sig → o.value.Has records lapse sig.ret →
      SafeEnd records sigs lapse entry (.ok o)
  | noEntry {sp} : sigs.find? entry = none → SafeEnd records sigs lapse entry (.error (.runtime ⟨.noEntry entry, sp⟩))
  | entryParams {sig sp} : sigs.find? entry = some sig → sig.params ≠ [] →
      SafeEnd records sigs lapse entry (.error (.runtime ⟨.entryParams entry, sp⟩))
  | error {e : RuntimeError} : e.fault.Excused lapse → SafeEnd records sigs lapse entry (.error (.runtime e))
  | exhausted : SafeEnd records sigs lapse entry (.error .exhausted)

theorem mem_of_cellTable {p : CheckedProgram} {n : String} {c : CellDef}
    (h : (Machine.cellTable p).find? n = some c) : c ∈ p.cells ∧ c.name.name = n := by
  obtain ⟨c', hc', he⟩ := List.mem_map.1 (List.mem_reverse.1 (Table.mem_of_find? h))
  cases he
  exact ⟨hc', rfl⟩

theorem cellTable_of_mem {p : CheckedProgram} {c : CellDef} (h : c ∈ p.cells) :
    ∃ c', (Machine.cellTable p).find? c.name.name = some c' := by
  have hmem : (c.name.name, c) ∈ Machine.cellTable p := List.mem_reverse.2 (List.mem_map_of_mem h)
  exact Option.isSome_iff_exists.1 (List.lookup_isSome_iff.2 ⟨_, hmem, beq_self_eq_true _⟩)

section

variable {globals : Table String} {fin : Checker} {checked : CheckedProgram}

/-- Only a lapse keeps a cell from giving what it is to give. -/
theorem gives_or_lapses {c : CellDef} {sig : CellSig} {sigs : Table CellSig} (hc : c ∈ checked.cells)
    (hsig : sigs.find? c.name.name = some sig) : sig.ret = .unit ∨ c.gives = true ∨ checked.lapses sigs = true := by
  by_cases hret : sig.ret = .unit
  · exact .inl hret
  by_cases hgives : c.gives = true
  · exact .inr (.inl hgives)
  · refine .inr (.inr (List.any_eq_true.2 ⟨c, hc, ?_⟩))
    simp [hgives, hsig, hret]

/-- **The machine finds the cell of a signature**, and it is typed against it. -/
theorem Check.WellTyped.cellAt (h : Check.WellTyped globals fin checked) {n : String} {sig : CellSig}
    (hsig : fin.cells.find? n = some sig) : ∃ c, (Machine.cellTable checked).find? n = some c ∧
      CellTyped (Check.globalsOf fin) globals c sig ∧
      (sig.ret = .unit ∨ c.gives = true ∨ checked.lapses fin.cells = true) := by
  obtain ⟨c₀, hc₀, rfl⟩ := h.known hsig
  obtain ⟨c, hfind⟩ := cellTable_of_mem hc₀
  obtain ⟨hc, hname⟩ := mem_of_cellTable hfind
  obtain ⟨sig', hsig', ht⟩ := h.cells c hc
  rw [hname, hsig] at hsig'
  cases hsig'
  exact ⟨c, hfind, ht, gives_or_lapses hc (by rw [hname, hsig])⟩

/-- **A well-typed program runs safely.** -/
theorem run_safe (h : Check.WellTyped globals fin checked) (b : Bounds) (entry : String) :
    SafeEnd fin.records fin.cells (checked.lapses fin.cells = true) entry (checked.run b entry) := by
  have hrun := Machine.runEntry_eq checked b entry .new
  unfold CheckedProgram.run
  rw [hrun]
  cases hfind : (Machine.cellTable checked).find? entry with
  | none =>
    refine .noEntry ?_
    cases hsig : fin.cells.find? entry with
    | none => rfl
    | some sig =>
      obtain ⟨c, hc, -⟩ := h.cellAt hsig
      rw [hfind] at hc
      cases hc
  | some c =>
    obtain ⟨hc, hname⟩ := mem_of_cellTable hfind
    obtain ⟨sig, hsig, ht⟩ := h.cells c hc
    rw [hname] at hsig
    have hparams := ht.params
    cases hargs : c.args with
    | cons a as =>
      simp only [hargs, List.isEmpty_cons, Bool.false_eq_true, if_false]
      refine .entryParams hsig fun hnone => ?_
      rw [hargs, hnone] at hparams
      cases hparams
    | nil =>
      have hnone : sig.params = [] := by
        rw [hargs] at hparams
        exact List.map_eq_nil_iff.1 hparams.symm
      have hkeeps := @Eval.callAt_keeps (Check.globalsOf fin) globals _ _ b.callDepth b.loopRounds
        (fun hsig => h.cellAt hsig) b.callDepth
      obtain ⟨c', hc', hcall⟩ := hkeeps.calls hsig
      obtain rfl := Option.some.inj (hfind.symm.trans hc')
      have hsafe : Run.Safe _ _ _ (Eval.callAt (Machine.cellTable checked) b.callDepth b.loopRounds b.callDepth c []
          c.name.span) := @hcall [] (by rw [hnone]; exact .nil) c.name.span []
      have hend := hsafe .new rfl
      simp only [hargs, List.isEmpty_nil, if_true]
      cases hrun : Eval.callAt (Machine.cellTable checked) b.callDepth b.loopRounds b.callDepth c [] c.name.span .new with
      | ok v m =>
        rw [hrun] at hend
        exact .value hsig hend.1
      | error e m =>
        rw [hrun] at hend
        cases e with
        | error e => exact .error hend
        | exhausted => exact .exhausted

/-- **The instances are in order**: none was made twice, and none names a record that leaves something open. -/
structure Check.InOrder (checked : CheckedProgram) (last : Checker) : Prop where
  once : (checked.instances.map (·.name.name)).Nodup
  closed : ∀ c ∈ checked.instances, ∀ n ∈ c.typeNames, Check.Spelled (ClosedRecord last.records) last n

theorem Check.Passed.wellTyped {p : Program} {last : Checker} (hp : Check.Passed p checked last globals fin)
    (h : Check.InOrder checked last) : Check.WellTyped globals fin checked := by
  obtain ⟨honce, hclosed⟩ := h
  rw [hp.instances] at honce hclosed
  rw [List.map_reverse, (List.reverse_perm _).nodup_iff] at honce
  refine hp.typed (hp.final honce fun c hc n hn => ?_)
  have hspelled := hclosed c (List.mem_reverse.2 hc) n hn
  rw [hp.last] at hspelled
  exact hspelled

/-- Without generic cells there are no instances. -/
theorem Check.Passed.inOrder {p : Program} {last : Checker} (hp : Check.Passed p checked last globals fin)
    (hconcrete : ∀ c, .cell c ∈ p → c.params = []) : Check.InOrder checked last := by
  have hnone : checked.instances = [] := by rw [hp.instances, hp.concrete hconcrete, List.reverse_nil]
  exact ⟨by rw [hnone]; exact .nil, by simp [hnone]⟩

section

variable {p : Program} {config : Config} {last : Checker}

/-- **A program that is accepted runs safely**, where its instances are in order: whatever the entry and the bounds, the
run comes to a value of the declared type, or it is given up, or it stops with an error that types cannot rule out, unless
some cell may end without giving the value it is to give. -/
theorem accepted_run_safe (hp : ∀ x ∈ p, x.Written) (h : Check.program p (.new config) = .ok checked last)
    (horder : Check.InOrder checked last) (b : Bounds) (entry : String) :
    SafeEnd last.records last.cells (checked.lapses last.cells = true) entry (checked.run b entry) := by
  obtain ⟨globals, fin, hpassed⟩ := Check.passed hp h
  have hsafe := run_safe (hpassed.wellTyped horder) b entry
  rw [hpassed.last]
  exact hsafe

/-- **A text without generic cells is sound** once it is accepted and its cells give what they are to give: no run of it
stops with an error about the kind of a value, and what comes out is of the declared type all the way down. -/
theorem source_run_sound {source : String} {edition : Option String} (hsource : Source.program source edition = .ok p)
    (hconcrete : ∀ c, .cell c ∈ p → c.params = []) (h : Check.program p (.new config) = .ok checked last)
    (hgives : checked.lapses last.cells = false) (b : Bounds) (entry : String) :
    SafeEnd last.records last.cells False entry (checked.run b entry) := by
  obtain ⟨globals, fin, hpassed⟩ := Check.passed (source_written hsource) h
  have hsafe := accepted_run_safe (source_written hsource) h (hpassed.inOrder hconcrete) b entry
  rw [hgives] at hsafe
  simpa only [Bool.false_eq_true] using hsafe

/-- A cell that falls off its end is what the unit comes from. -/
example : accepts "cell f() -> int:\n    print(1)\n\ncell main():\n    print(f() + 1)\n"
    (fun _ checked last => checked.lapses last.cells && match checked.run .standard "main" with
      | .error (.runtime e) => decide (e.fault = .operator .add .unit .int)
      | _ => false) = true := by
  decide +kernel

end

end

end Unroll
