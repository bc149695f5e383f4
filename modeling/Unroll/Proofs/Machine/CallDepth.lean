import Unroll.Proofs.Accepted
import Unroll.Proofs.Machine.Reuse
/-!
# The limit on calls only cuts off

A call beyond the limit ends the run: nothing that runs around it goes on after a halt, or turns it into another one.
So a run under a larger limit is the run under the smaller one, wherever that one is not cut off, and no run ever has
more frames than the limit allows.
-/
namespace Unroll
namespace Run

open Outcome

variable {α β : Type} {cut : Halt → Prop}

/-- **The second step does what the first one does**, on every machine where the first one is not cut off. -/
def Extends (cut : Halt → Prop) (x y : Run α) : Prop :=
  ∀ m, (∃ h m', x m = .error h m' ∧ cut h) ∨ y m = x m

namespace Extends

theorem refl (x : Run α) : Extends cut x x := fun _ => .inr rfl

/-- What is cut off asks nothing of the second step. -/
theorem of_cut {h : Halt} (hcut : cut h) (y : Run α) : Extends cut (throw h) y := fun m => .inl ⟨h, m, rfl, hcut⟩

theorem bind {x y : Run α} {f g : α → Run β} (hx : Extends cut x y) (hf : ∀ a, Extends cut (f a) (g a)) :
    Extends cut (x >>= f) (y >>= g) := by
  intro m
  obtain ⟨h, m', hend, hcut⟩ | hsame := hx m
  · exact .inl ⟨h, m', bind_error.2 (.inl hend), hcut⟩
  cases hend : x m with
  | error h m' =>
    rw [hend] at hsame
    rw [bind_error.2 (.inl hend), bind_error.2 (.inl hsame)]
    exact .inr rfl
  | ok a m' =>
    rw [hend] at hsame
    rw [bind_of_ok hend, bind_of_ok hsame]
    exact hf a m'

theorem before {x y : Run α} (f : α → Run β) (hx : Extends cut x y) : Extends cut (x >>= f) (y >>= f) :=
  hx.bind fun a => refl (f a)

theorem map {x y : Run α} (f : α → β) (hx : Extends cut x y) : Extends cut (f <$> x) (f <$> y) := by
  rw [map_eq_pure_bind, map_eq_pure_bind]
  exact hx.before _

theorem ite {b : Bool} {x y u v : Run α} (hx : Extends cut x y) (hu : Extends cut u v) :
    Extends cut (if b then x else u) (if b then y else v) := by
  cases b with
  | true => exact hx
  | false => exact hu

/-- What is done whether a step succeeds or fails does not hide that it was cut off. -/
theorem always {x y : Run α} (after : Machine → Machine) (hx : Extends cut x y) :
    Extends cut (Run.always x after) (Run.always y after) := by
  intro m
  unfold Run.always
  obtain ⟨h, m', hend, hcut⟩ | hsame := hx m
  · rw [hend]
    exact .inl ⟨h, after m', rfl, hcut⟩
  · rw [hsame]
    exact .inr rfl

theorem inScope {x y : Run α} (hx : Extends cut x y) : Extends cut (Run.inScope x) (Run.inScope y) :=
  (refl _).bind fun _ => hx.always _

theorem inFrame {x y : Run α} (scope : Table Value) (hx : Extends cut x y) :
    Extends cut (Run.inFrame scope x) (Run.inFrame scope y) :=
  (refl _).bind fun _ => hx.always _

end Extends
end Run

namespace Eval

open Run

/-! ## Evaluation only passes on what its calls do -/

/-- **Two worlds with the same cells**, the second of which makes the calls that the first one makes uncut. -/
structure Wider (cut : Halt → Prop) (w w' : World) : Prop where
  cells : w'.cells = w.cells
  rounds : w'.rounds = w.rounds
  call : ∀ c args span, Extends cut (w.call c args span) (w'.call c args span)

variable {cut : Halt → Prop} {w w' : World}

theorem call_extends (hw : Wider cut w w') (span : Span) (name : String) (args : List Value) :
    Extends cut (call w span name args) (call w' span name args) := by
  unfold call
  split
  · exact .refl _
  · exact .refl _
  · rw [hw.cells]
    cases w.cells.find? name with
    | some c => exact hw.call c args span
    | none => exact .refl _

mutual

theorem expr_extends (hw : Wider cut w w') : ∀ e, Extends cut (expr w e) (expr w' e)
  | .name _ _ | .int _ _ | .char _ _ | .bool _ _ | .text _ _ | .list _ _ => .refl _
  | .array _ items => (exprs_extends hw items).map _
  | .record _ _ fs => (fields_extends hw fs).map _
  | .unary _ _ e => (expr_extends hw e).before _
  | .binary span l op r => by
    have hl := expr_extends hw l
    have hr := expr_extends hw r
    cases op with
    | and => exact hl.bind fun _ => (Extends.refl _).bind fun _ => .ite (hr.before _) (.refl _)
    | or => exact hl.bind fun _ => (Extends.refl _).bind fun _ => .ite (.refl _) (hr.before _)
    | add | sub | mul | div | rem | eq | ne | lt | gt | le | ge => exact hl.bind fun _ => hr.before _
  | .member _ base _ => (expr_extends hw base).before _
  | .index _ base index => (expr_extends hw base).bind fun _ => (expr_extends hw index).before _
  | .call span callee _ args => (exprs_extends hw args).bind fun vs => call_extends hw span callee.name vs
  | .listSelect span list index => by
    cases list with
    | list _ items =>
      exact (expr_extends hw index).bind fun _ => (Extends.refl _).bind fun i => nth_extends hw span i items i
    | _ => exact .refl _
  | .memberSelect _ base members index =>
    (expr_extends hw index).bind fun _ => (Extends.refl _).bind fun i => by
      cases members[i]? with
      | none => exact .refl _
      | some _ => exact (expr_extends hw base).before _

theorem exprs_extends (hw : Wider cut w w') : ∀ es, Extends cut (exprs w es) (exprs w' es)
  | [] => .refl _
  | e :: es => (expr_extends hw e).bind fun _ => (exprs_extends hw es).before _

theorem fields_extends (hw : Wider cut w w') : ∀ fs, Extends cut (fields w fs) (fields w' fs)
  | [] => .refl _
  | (_, e) :: fs => (expr_extends hw e).bind fun _ => (fields_extends hw fs).before _

theorem nth_extends (hw : Wider cut w w') (span : Span) (index : Nat) :
    ∀ es n, Extends cut (nth w span index es n) (nth w' span index es n)
  | e :: _, 0 => expr_extends hw e
  | _ :: es, n + 1 => nth_extends hw span index es n
  | [], _ => .refl _

end

theorem condition_extends (hw : Wider cut w w') (e : Expr) : Extends cut (condition w e) (condition w' e) :=
  (expr_extends hw e).before _

theorem rounds_extends {c c' : Run Bool} {body body' : Run Flow} (hc : Extends cut c c')
    (hbody : Extends cut body body') : ∀ n, Extends cut (rounds c body n) (rounds c' body' n)
  | 0 => .refl _
  | n + 1 => by
    refine hc.bind fun b => .ite (hbody.bind fun flow => ?_) (.refl _)
    cases flow with
    | next | again => exact rounds_extends hc hbody n
    | leave | give => exact .refl _

theorem init_extends (hw : Wider cut w w') : ∀ first, Extends cut (init w first) (init w' first)
  | none => .refl _
  | some (.val d) => (expr_extends hw d.expr).before _
  | some (.expr e) => (expr_extends hw e).before _

theorem binding_extends (hw : Wider cut w w') : ∀ range, Extends cut (binding w range) (binding w' range)
  | none => .refl _
  | some d => (expr_extends hw d.expr).before _

theorem emptyRange_extends (hw : Wider cut w w') (range : Expr) :
    Extends cut (emptyRange w range) (emptyRange w' range) := by
  cases range with
  | list => exact .refl _
  | _ => exact (expr_extends hw _).before _

mutual

theorem stmt_extends (hw : Wider cut w w') : ∀ s, Extends cut (stmt w s) (stmt w' s)
  | .typeAlias _ _ _ _ | .trait _ _ | .record _ | .cell _ | .leave _ | .next _ | .give _ none => .refl _
  | .val d => (expr_extends hw d.expr).before _
  | .assign _ _ e => (expr_extends hw e).before _
  | .cond _ c yes none => (condition_extends hw c).bind fun _ => .ite (block_extends hw yes) (.refl _)
  | .cond _ c yes (some no) =>
    (condition_extends hw c).bind fun _ => .ite (block_extends hw yes) (block_extends hw no)
  | .loop _ c body => by
    unfold stmt
    rw [hw.rounds]
    exact rounds_extends (condition_extends hw c) (block_extends hw body) w.rounds
  | .expand x => .inScope (expansion_extends hw x)
  | .give _ (some e) => (expr_extends hw e).map _
  | .assert _ e => (condition_extends hw e).before _
  | .expr e => (expr_extends hw e).before _

theorem stmts_extends (hw : Wider cut w w') : ∀ ss, Extends cut (stmts w ss) (stmts w' ss)
  | [] => .refl _
  | s :: ss => (stmt_extends hw s).bind fun flow => by
    cases flow with
    | next => exact stmts_extends hw ss
    | leave | again | give => exact .refl _

theorem block_extends (hw : Wider cut w w') : ∀ b, Extends cut (block w b) (block w' b)
  | ⟨_, ss⟩ => .inScope (stmts_extends hw ss)

theorem expansion_extends (hw : Wider cut w w') : ∀ x, Extends cut (expansion w x) (expansion w' x)
  | ⟨_, keyword, first, _, range, _, _, state⟩ =>
    (init_extends hw first).bind fun _ => unrolling_extends hw keyword range state

theorem unrolling_extends (hw : Wider cut w w') (keyword : Span) (range : Expr) :
    ∀ u, Extends cut (unrolling w keyword range u) (unrolling w' keyword range u)
  | .pending | .deferred => .refl _
  | .empty => (emptyRange_extends hw range).before _
  | .unrolled b cs => (binding_extends hw b).bind fun _ => copies_extends hw cs

theorem copies_extends (hw : Wider cut w w') : ∀ cs, Extends cut (copies w cs) (copies w' cs)
  | [] => .refl _
  | c :: cs => (copy_extends hw c).bind fun flow => by
    cases flow with
    | next | again => exact copies_extends hw cs
    | leave | give => exact .refl _

theorem copy_extends (hw : Wider cut w w') : ∀ c, Extends cut (copy w c) (copy w' c)
  | ⟨_, body⟩ => block_extends hw body

end

theorem cell_extends (hw : Wider cut w w') (c : CellDef) (args : List Value) :
    Extends cut (cell w c args) (cell w' c args) :=
  .inFrame _ ((stmts_extends hw c.body.stmts).before _)

/-! ## The limit -/

variable {cells : Table CellDef} {limit limit' loopRounds : Nat}

/-- A halt at a call beyond some limit. -/
def PastLimit (h : Halt) : Prop := ∃ limit span, h = .error ⟨.callDepth limit, span⟩

/-- **More calls that are left change nothing**, but for a run that needs them. -/
theorem callAt_extends : ∀ {n n' : Nat}, n ≤ n' → ∀ c args span,
    Extends PastLimit (callAt cells limit loopRounds n c args span) (callAt cells limit' loopRounds n' c args span)
  | 0, _, _, _, _, span => .of_cut ⟨limit, span, rfl⟩ _
  | n + 1, 0, hn, _, _, _ => absurd hn (Nat.not_succ_le_zero n)
  | n + 1, n' + 1, hn, c, args, _ => by
    have hwider : Wider PastLimit (worldAt cells limit loopRounds n) (worldAt cells limit' loopRounds n') :=
      ⟨rfl, rfl, callAt_extends (Nat.le_of_succ_le_succ hn)⟩
    exact cell_extends hwider c args

/-- Goes off where more frames stand than the limit allows. -/
def watch (limit : Nat) (alarm : Halt) : Run Unit := do
  if limit < (← get).frames.length then throw alarm

/-- The body of a cell, in the frame that stands for it. -/
def cellBody (w : World) (c : CellDef) : Run Value := do
  match ← stmts w c.body.stmts with
  | .give v => return v
  | _ => return .unit

/-- Calls a cell, and watches the frames as soon as the frame of the call stands. -/
def watchedCall (cells : Table CellDef) (limit loopRounds : Nat) (alarm : Halt) :
    Nat → CellDef → List Value → Span → Run Value
  | 0, _, _, span => fail (.callDepth limit) span
  | n + 1, c, args, _ => inFrame ((c.args.map (·.name.name)).zip args).reverse do
    watch limit alarm
    cellBody ⟨cells, watchedCall cells limit loopRounds alarm n, loopRounds⟩ c

variable {alarm : Halt}

theorem watch_quiet {m : Machine} (h : m.frames.length ≤ limit) : watch limit alarm m = .ok () m := by
  show (if limit < m.frames.length then throw alarm else pure () : Run Unit) m = _
  rw [if_neg (Nat.not_lt.2 h)]
  rfl

theorem cellBody_alike {count : Nat} (hw : Worlds count w w') (c : CellDef) :
    Alike List.length count (cellBody w c) (cellBody w' c) :=
  (stmts_alike hw c.body.stmts).bind fun flow => by
    cases flow with
    | give v => exact .pure v
    | next | leave | again => exact .pure _

/-- **The calls that are left make up for the frames that stand**, so the alarm never goes off. -/
theorem callAt_watched : ∀ n count, count + n = limit → ∀ c args span, Closed count
    (callAt cells limit loopRounds n c args span) (watchedCall cells limit loopRounds alarm n c args span)
  | 0, _, _, _, _, span => .fail (.callDepth limit) span
  | n + 1, count, hcount, c, args, span => by
    have hnext : count + 1 + n = limit := by omega
    have hworlds : Worlds (count + 1) (worldAt cells limit loopRounds n)
        ⟨cells, watchedCall cells limit loopRounds alarm n, loopRounds⟩ := ⟨rfl, rfl, callAt_watched n _ hnext⟩
    refine .inFrame _ fun scopes outer outer' houter => ?_
    obtain ⟨r, scopes', text, hkept, hends⟩ := cellBody_alike hworlds c scopes outer outer' houter
    refine ⟨r, scopes', text, hkept, fun out out' => ⟨(hends out out').1, ?_⟩⟩
    have hfits : (Machine.mk (scopes :: outer') out').frames.length ≤ limit := by
      show outer'.length + 1 ≤ limit
      omega
    rw [Outcome.bind_of_ok (watch_quiet hfits)]
    exact (hends out out').2

end Eval

namespace Machine

open Run Eval

/-- Runs a cell without parameters, and watches the frames. -/
def watchedEntry (p : CheckedProgram) (b : Bounds) (alarm : Halt) (entry : String) : Run Outcome := do
  let cells := cellTable p
  match cells.find? entry with
  | none => Run.fail (.noEntry entry) ⟨0, 0⟩
  | some c =>
    if !c.args.isEmpty then Run.fail (.entryParams entry) c.name.span
    let v ← watchedCall cells b.callDepth b.loopRounds alarm b.callDepth c [] c.name.span
    let out := (← get).out
    modify fun m => { m with out := "" }
    return ⟨v, out⟩

theorem runEntry_extends (p : CheckedProgram) {limit limit' : Nat} (hlimit : limit ≤ limit') (loopRounds : Nat)
    (entry : String) :
    Extends PastLimit (runEntry p ⟨limit, loopRounds⟩ entry) (runEntry p ⟨limit', loopRounds⟩ entry) := by
  unfold runEntry
  dsimp only
  cases (cellTable p).find? entry with
  | none => exact .refl _
  | some c =>
    have hcall := @callAt_extends (cellTable p) limit limit' loopRounds limit limit' hlimit c [] c.name.span
    exact .ite ((Extends.refl _).bind fun _ => hcall.before _) (hcall.before _)

theorem watchedEntry_eq (p : CheckedProgram) (b : Bounds) (alarm : Halt) (entry out : String) :
    watchedEntry p b alarm entry ⟨[], out⟩ = runEntry p b entry ⟨[], out⟩ := by
  unfold watchedEntry runEntry
  dsimp only
  cases (cellTable p).find? entry with
  | none => rfl
  | some c =>
    dsimp only
    cases c.args.isEmpty with
    | false => rfl
    | true =>
      have hcall := @callAt_watched (cellTable p) b.callDepth b.loopRounds alarm b.callDepth 0 (Nat.zero_add _) c []
        c.name.span
      obtain ⟨r, text, hends⟩ := hcall [] [] rfl
      obtain ⟨hplain, hwatched⟩ := hends out out
      show EStateM.bind _ _ _ = EStateM.bind _ _ _
      unfold EStateM.bind
      rw [hplain, hwatched]

/-- **The limit on calls only cuts off.**  A run that does not end in a call beyond its limit ends under any larger
limit as it does: in the same value and output, or in the same error, and on the same machine.  And under any limit, from
a machine without frames, never more frames stand than the limit: an alarm that is to go off where they do, whatever it
would end the run with, changes no run. -/
theorem call_limit_cuts_off (p : CheckedProgram) (loopRounds : Nat) (entry : String) :
    (∀ limit limit', limit ≤ limit' → ∀ m,
      (∀ past span t, runEntry p ⟨limit, loopRounds⟩ entry m ≠ .error (.error ⟨.callDepth past, span⟩) t) →
      runEntry p ⟨limit', loopRounds⟩ entry m = runEntry p ⟨limit, loopRounds⟩ entry m) ∧
    ∀ limit alarm out,
      watchedEntry p ⟨limit, loopRounds⟩ alarm entry ⟨[], out⟩ = runEntry p ⟨limit, loopRounds⟩ entry ⟨[], out⟩ := by
  refine ⟨fun limit limit' hlimit m huncut => ?_, fun limit alarm out => watchedEntry_eq p _ alarm entry out⟩
  obtain ⟨h, t, hend, past, span, rfl⟩ | hsame := runEntry_extends p hlimit loopRounds entry m
  · exact absurd hend (huncut past span t)
  · exact hsame

/-- Has four frames at its deepest. -/
def countdown : String :=
  "cell down(n: int) -> int:\n    if n == 0:\n        return 7\n    print(n)\n    return down(n - 1)\n\ncell main() -> int:\n    return down(2)\n"

/-- The run was cut off at the limit. -/
def isCutOff (limit : Nat) : EStateM.Result Halt Machine Outcome → Bool
  | .error (.error e) _ => decide (e.fault = .callDepth limit)
  | _ => false

theorem of_isCutOff {limit : Nat} {r : EStateM.Result Halt Machine Outcome} (h : isCutOff limit r = true) :
    ∃ span t, r = .error (.error ⟨.callDepth limit, span⟩) t := by
  unfold isCutOff at h
  split at h
  · rename_i e t
    obtain ⟨fault, span⟩ := e
    obtain rfl : fault = .callDepth limit := of_decide_eq_true h
    exact ⟨span, t, rfl⟩
  · cases h

/-- The run ended well, with the outcome, on a new machine. -/
def isOutcome (outcome : Outcome) : EStateM.Result Halt Machine Outcome → Bool
  | .ok o m => decide (o = outcome) && m.frames.isEmpty && decide (m.out = "")
  | .error _ _ => false

theorem of_isOutcome {outcome : Outcome} {r : EStateM.Result Halt Machine Outcome} (h : isOutcome outcome r = true) :
    r = .ok outcome .new := by
  unfold isOutcome at h
  split at h
  · rename_i o m
    obtain ⟨frames, out⟩ := m
    simp only [Bool.and_eq_true, decide_eq_true_eq, List.isEmpty_iff] at h
    obtain ⟨⟨rfl, rfl⟩, rfl⟩ := h
    rfl
  · cases h

/-- Three frames are too few, and a run with four is as one with many. -/
theorem call_limit_cuts_off_countdown : ∃ p checked last, Source.program countdown none = .ok p ∧
    Check.program p (.new .standard) = .ok checked last ∧
    (∃ span t, runEntry checked ⟨3, 1⟩ "main" .new = .error (.error ⟨.callDepth 3, span⟩) t) ∧
    4 ≤ 256 ∧ (∀ past span t, runEntry checked ⟨4, 1⟩ "main" .new ≠ .error (.error ⟨.callDepth past, span⟩) t) ∧
    runEntry checked ⟨256, 1⟩ "main" .new = .ok ⟨.int 7, "2\n1\n"⟩ .new ∧
    ∀ alarm, watchedEntry checked ⟨4, 1⟩ alarm "main" .new = .ok ⟨.int 7, "2\n1\n"⟩ .new := by
  have h : accepts countdown (fun _ checked _ => isCutOff 3 (runEntry checked ⟨3, 1⟩ "main" .new) &&
      isOutcome ⟨.int 7, "2\n1\n"⟩ (runEntry checked ⟨4, 1⟩ "main" .new)) = true := by decide +kernel
  obtain ⟨p, checked, last, hp, hc, h⟩ := of_accepts h
  obtain ⟨hcut, h⟩ := Bool.and_eq_true_iff.1 h
  have hpast := of_isCutOff hcut
  have hrun := of_isOutcome h
  have huncut : ∀ past span t, runEntry checked ⟨4, 1⟩ "main" .new ≠ .error (.error ⟨.callDepth past, span⟩) t := by
    intro past span t he
    cases hrun.symm.trans he
  have hlimits := call_limit_cuts_off checked 1 "main"
  exact ⟨p, checked, last, hp, hc, hpast, by decide, huncut, (hlimits.1 4 256 (by decide) .new huncut).trans hrun,
    fun alarm => (hlimits.2 4 alarm "").trans hrun⟩

end Machine
end Unroll
