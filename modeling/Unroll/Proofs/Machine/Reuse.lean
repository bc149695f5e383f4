import Mathlib.Data.List.DropRight
import Unroll.Proofs.Machine.Alike
/-!
# A machine can be used again

A call leaves the frames as it found them and adds to what was printed, so a run ends on a machine without frames and
the next one begins as on a new machine.  All that one run hands to the next is what a failed one printed.
-/
namespace Unroll
namespace Eval

open Run

/-- What an expression is evaluated in, where so many more calls may be active at once. -/
def worldAt (cells : Table CellDef) (limit loopRounds n : Nat) : World :=
  ⟨cells, callAt cells limit loopRounds n, loopRounds⟩

/-- Calls a cell where the limit is held against the frames that stand on the machine; so many levels down at most. -/
def countedCall (cells : Table CellDef) (limit loopRounds : Nat) : Nat → CellDef → List Value → Span → Run Value
  | 0, _, _, _ => throw .exhausted
  | n + 1, c, args, span => do
    if limit ≤ (← get).frames.length then fail (.callDepth limit) span
    else cell ⟨cells, countedCall cells limit loopRounds n, loopRounds⟩ c args

variable {cells : Table CellDef} {limit loopRounds : Nat}

theorem countedCall_eq (n : Nat) (c : CellDef) (args : List Value) (span : Span) (m : Machine) :
    countedCall cells limit loopRounds (n + 1) c args span m =
      if limit ≤ m.frames.length then fail (.callDepth limit) span m
      else cell ⟨cells, countedCall cells limit loopRounds n, loopRounds⟩ c args m := by
  show (if limit ≤ m.frames.length then fail (.callDepth limit) span
    else cell ⟨cells, countedCall cells limit loopRounds n, loopRounds⟩ c args) m = _
  split <;> rfl

/-- **A call does the same on every machine.** -/
theorem callAt_closed : ∀ n count c args span,
    Closed count (callAt cells limit loopRounds n c args span) (callAt cells limit loopRounds n c args span)
  | 0, _, _, _, span => .fail _ span
  | n + 1, _, c, args, _ => cell_closed ⟨rfl, rfl, callAt_closed n _⟩ c args

theorem worldAt_worlds (n count : Nat) :
    Worlds count (worldAt cells limit loopRounds n) (worldAt cells limit loopRounds n) :=
  ⟨rfl, rfl, callAt_closed n count⟩

/-- **The calls that are left and the frames that stand make up the limit.** -/
theorem callAt_counted : ∀ n count, count + n = limit → ∀ c args span,
    Closed count (callAt cells limit loopRounds n c args span) (countedCall cells limit loopRounds (n + 1) c args span)
  | 0, count, hcount, c, args, span => by
    intro frames frames' hframes
    obtain ⟨r, text, hends⟩ := Closed.fail (α := Value) (.callDepth limit) span frames frames' hframes
    refine ⟨r, text, fun out out' => ⟨(hends out out').1, ?_⟩⟩
    have hfull : limit ≤ frames'.length := by omega
    rw [countedCall_eq, if_pos hfull]
    exact (hends out out').2
  | n + 1, count, hcount, c, args, span => by
    intro frames frames' hframes
    have hnext : count + 1 + n = limit := by omega
    have hworlds : Worlds (count + 1) (worldAt cells limit loopRounds n)
        ⟨cells, countedCall cells limit loopRounds (n + 1), loopRounds⟩ := ⟨rfl, rfl, callAt_counted n _ hnext⟩
    obtain ⟨r, text, hends⟩ := cell_closed hworlds c args frames frames' hframes
    refine ⟨r, text, fun out out' => ⟨(hends out out').1, ?_⟩⟩
    have hroom : ¬ limit ≤ frames'.length := by omega
    rw [countedCall_eq, if_neg hroom]
    exact (hends out out').2

end Eval

namespace Machine

open Run Eval

variable {α : Type}

/-- The machine that a step leaves. -/
def left : EStateM.Result Halt Machine α → Machine
  | .ok _ m => m
  | .error _ m => m

/-- What a step gives. -/
def given : EStateM.Result Halt Machine α → Except Halt α
  | .ok a _ => .ok a
  | .error h _ => .error h

variable (p : CheckedProgram) (b : Bounds)

/-- What a run of the cell on the machine gives. -/
def answer (m : Machine) (entry : String) : Except Halt Outcome := given (runEntry p b entry m)

/-- The machine after runs of the cells, one after the other, the first one on a new machine. -/
def after (entries : List String) : Machine := entries.foldl (fun m entry => left (runEntry p b entry m)) .new

/-- Whether a run of the cell on a new machine fails. -/
def fails (entry : String) : Bool := (answer p b .new entry).toOption.isNone

/-- What a run of the cell on a new machine has printed and not shown. -/
def unshown (entry : String) : String := (left (runEntry p b entry .new)).out

/-- What all those runs printed that failed after the last success, in order. -/
def pending (entries : List String) : String := String.join ((entries.rtakeWhile (fails p b)).map (unshown p b))

/-- **A run on a machine without frames** is the run on a new one, behind what was printed before. -/
theorem runEntry_again (entry out : String) : runEntry p b entry ⟨[], out⟩ = match runEntry p b entry .new with
    | .ok o _ => .ok ⟨o.value, out ++ o.out⟩ .new
    | .error h m => .error h ⟨[], out ++ m.out⟩ := by
  rw [runEntry_eq, runEntry_eq]
  cases (cellTable p).find? entry with
  | none => simp [new]
  | some c =>
    cases hargs : c.args.isEmpty with
    | false => simp only [hargs, Bool.false_eq_true, if_false, new, String.append_empty]
    | true =>
      obtain ⟨r, text, hends⟩ := @callAt_closed (cellTable p) b.callDepth b.loopRounds b.callDepth 0 c [] c.name.span
        [] [] rfl
      obtain ⟨hcall, hnew⟩ := hends out ""
      simp only [hargs, if_true, new, hcall, hnew, String.empty_append]
      cases r <;> rfl

theorem after_concat (entries : List String) (entry : String) :
    after p b (entries ++ [entry]) = left (runEntry p b entry (after p b entries)) := by
  simp [after]

/-- What a sequence of runs leaves is what its failed runs printed since the last success. -/
theorem after_eq (entries : List String) : after p b entries = ⟨[], pending p b entries⟩ := by
  induction entries using List.reverseRecOn with
  | nil => rfl
  | append_singleton entries entry ih =>
    rw [after_concat, ih, runEntry_again]
    cases h : runEntry p b entry .new with
    | ok o m =>
      have hfails : ¬ fails p b entry = true := by simp [fails, answer, h, given, Except.toOption]
      have hpending : pending p b (entries ++ [entry]) = "" := by
        rw [pending, List.rtakeWhile_concat_neg _ _ _ hfails]
        rfl
      rw [hpending]
      rfl
    | error d m =>
      have hfails : fails p b entry = true := by simp [fails, answer, h, given, Except.toOption]
      have hunshown : unshown p b entry = m.out := by rw [unshown, h]; rfl
      rw [pending, pending, List.rtakeWhile_concat_pos _ _ _ hfails]
      simp [left, hunshown, String.join]

/-- **A machine can be used again.**  An expression keeps every scope of every frame and only adds to what is printed,
and so does a call, whether they succeed or fail; the limit on calls is one on the frames that stand.  After any sequence
of runs, a run gives the value or the error that it gives on a new machine, and a success shows what all those printed
that failed after the last success, and then what it shows on a new machine. -/
theorem reusable :
    (∀ n e scopes outer out, ∃ r text,
      expr (worldAt (cellTable p) b.callDepth b.loopRounds n) e ⟨scopes :: outer, out⟩ =
        ending r ⟨scopes :: outer, out ++ text⟩) ∧
    (∀ n c args span frames out, ∃ r text,
      callAt (cellTable p) b.callDepth b.loopRounds n c args span ⟨frames, out⟩ = ending r ⟨frames, out ++ text⟩) ∧
    (∀ n c args span m,
      callAt (cellTable p) (m.frames.length + n) b.loopRounds n c args span m =
        countedCall (cellTable p) (m.frames.length + n) b.loopRounds (n + 1) c args span m) ∧
    ∀ entries entry, answer p b (after p b entries) entry =
      (answer p b .new entry).map fun o => ⟨o.value, pending p b entries ++ o.out⟩ := by
  refine ⟨?_, ?_, ?_, ?_⟩
  · intro n e scopes outer out
    obtain ⟨r, _, text, rfl, hends⟩ := expr_alike (worldAt_worlds n _) e scopes outer outer rfl
    exact ⟨r, text, (hends out out).1⟩
  · intro n c args span frames out
    obtain ⟨r, text, hends⟩ := callAt_closed n _ c args span frames frames rfl
    exact ⟨r, text, (hends out out).1⟩
  · intro n c args span m
    obtain ⟨r, text, hends⟩ := callAt_counted n _ rfl c args span m.frames m.frames rfl
    exact (hends m.out m.out).1.trans (hends m.out m.out).2.symm
  · intro entries entry
    rw [after_eq, answer, answer, runEntry_again]
    cases runEntry p b entry .new <;> rfl

end Machine
end Unroll
