import Unroll.Proofs.Check.Endings
import Unroll.Proofs.Machine.Steps
/-!
# Two machines side by side

A step of the machine works in the frame of its own call.  The frames below and what was printed before make no
difference to it, and it makes none to them.  So two machines that agree on the innermost frame go through the same
steps: they end alike, print the same, and keep the rest, whether the step succeeds or fails.

The two machines may run in two worlds, as long as calls are alike in both.  What a call may depend on beyond its
arguments is the number of frames that stand.
-/
namespace Unroll
namespace Run

open Outcome

variable {α β γ : Type}

/-- The end of a step with the given result, on the given machine. -/
def ending (r : Except Halt α) (m : Machine) : EStateM.Result Halt Machine α :=
  match r with
  | .ok a => .ok a m
  | .error h => .error h m

/-- **The steps do the same in the innermost frame and nothing outside of it.**  Of its scopes they keep what `view`
sees; the second one begins with so many frames. -/
def Alike (view : List (Table Value) → γ) (count : Nat) (x y : Run α) : Prop :=
  ∀ scopes outer outer', outer'.length + 1 = count → ∃ r scopes' text, view scopes' = view scopes ∧ ∀ out out',
    x ⟨scopes :: outer, out⟩ = ending r ⟨scopes' :: outer, out ++ text⟩ ∧
      y ⟨scopes :: outer', out'⟩ = ending r ⟨scopes' :: outer', out' ++ text⟩

/-- **The steps do the same on all machines and keep every frame**; the second one begins with so many frames. -/
def Closed (count : Nat) (x y : Run α) : Prop :=
  ∀ frames frames', frames'.length = count → ∃ r text, ∀ out out',
    x ⟨frames, out⟩ = ending r ⟨frames, out ++ text⟩ ∧ y ⟨frames', out'⟩ = ending r ⟨frames', out' ++ text⟩

theorem Closed.alike {view : List (Table Value) → γ} {count : Nat} {x y : Run α} (h : Closed count x y) :
    Alike view count x y := by
  intro scopes outer outer' hcount
  obtain ⟨r, text, hends⟩ := h (scopes :: outer) (scopes :: outer') hcount
  exact ⟨r, scopes, text, rfl, hends⟩

theorem Closed.fail {count : Nat} (fault : Fault) (span : Span) :
    Closed count (Run.fail fault span : Run α) (Run.fail fault span) := by
  intro frames frames' _
  refine ⟨.error (.error ⟨fault, span⟩), "", fun out out' => ?_⟩
  rw [String.append_empty, String.append_empty]
  exact ⟨rfl, rfl⟩

namespace Alike

variable {view : List (Table Value) → γ} {count : Nat} {x y : Run α} {f g : α → Run β}

/-- Where all scopes are kept, everything seen of them is. -/
theorem of_kept (h : Alike id count x y) : Alike view count x y := by
  intro scopes outer outer' hcount
  obtain ⟨r, scopes', text, hkept, hends⟩ := h scopes outer outer' hcount
  exact ⟨r, scopes', text, congrArg view hkept, hends⟩

theorem bind (hx : Alike view count x y) (hf : ∀ a, Alike view count (f a) (g a)) :
    Alike view count (x >>= f) (y >>= g) := by
  intro scopes outer outer' hcount
  obtain ⟨r, scopes', text, hkept, hends⟩ := hx scopes outer outer' hcount
  cases r with
  | error h =>
    refine ⟨.error h, scopes', text, hkept, fun out out' => ⟨?_, ?_⟩⟩
    · exact bind_error.2 (.inl (hends out out').1)
    · exact bind_error.2 (.inl (hends out out').2)
  | ok a =>
    obtain ⟨r', scopes'', text', hkept', hends'⟩ := hf a scopes' outer outer' hcount
    refine ⟨r', scopes'', text ++ text', hkept'.trans hkept, fun out out' => ⟨?_, ?_⟩⟩
    · rw [bind_of_ok (hends out out').1, ← String.append_assoc]
      exact (hends' _ (out' ++ text)).1
    · rw [bind_of_ok (hends out out').2, ← String.append_assoc]
      exact (hends' (out ++ text) _).2

/-- A step that neither reads nor changes the machine. -/
theorem of_ending (r : Except Halt α) (h : ∀ m, x m = ending r m) : Alike view count x x := by
  intro scopes outer outer' _
  refine ⟨r, scopes, "", rfl, fun out out' => ?_⟩
  rw [String.append_empty, String.append_empty]
  exact ⟨h _, h _⟩

theorem pure (a : α) : Alike view count (Pure.pure a) (Pure.pure a) := of_ending (.ok a) fun _ => rfl

theorem throw (h : Halt) : Alike view count (MonadExcept.throw h : Run α) (MonadExcept.throw h) :=
  of_ending (.error h) fun _ => rfl

theorem fail (fault : Fault) (span : Span) : Alike view count (Run.fail fault span : Run α) (Run.fail fault span) :=
  throw _

theorem map (h : α → β) (hx : Alike view count x y) : Alike view count (h <$> x) (h <$> y) := by
  rw [map_eq_pure_bind, map_eq_pure_bind]
  exact hx.bind fun a => pure (h a)

theorem ite {b : Bool} {u v : Run α} (hx : Alike view count x y) (hu : Alike view count u v) :
    Alike view count (if b then x else u) (if b then y else v) := by
  cases b with
  | true => exact hx
  | false => exact hu

/-! ## The frame of the call -/

theorem lookup (name : String) (span : Span) : Alike view count (Run.lookup name span) (Run.lookup name span) := by
  intro scopes outer outer' _
  simp only [lookup_eq]
  cases scopes.findSome? (Table.find? · name) with
  | some v => exact pure v scopes outer outer' ‹_›
  | none => exact fail (.unboundName name) span scopes outer outer' ‹_›

theorem print (s : String) : Alike view count (Run.print s) (Run.print s) :=
  fun scopes _ _ _ => ⟨.ok (), scopes, s, rfl, fun _ _ => ⟨rfl, rfl⟩⟩

theorem onScopes {change : List (Table Value) → List (Table Value)} (h : ∀ scopes, view (change scopes) = view scopes) :
    Alike view count (Run.onScopes change) (Run.onScopes change) := by
  intro scopes outer outer' _
  refine ⟨.ok (), change scopes, "", h scopes, fun out out' => ?_⟩
  rw [String.append_empty, String.append_empty]
  exact ⟨rfl, rfl⟩

theorem define (name : String) (v : Value) : Alike List.length count (Run.define name v) (Run.define name v) := by
  refine onScopes fun scopes => ?_
  cases scopes <;> rfl

theorem update?_length {name : String} {v : Value} : ∀ {scopes scopes' : List (Table Value)},
    update? name v scopes = some scopes' → scopes'.length = scopes.length
  | [], _, h => nomatch h
  | scope :: outer, scopes', h => by
    unfold update? at h
    split at h
    · cases h
      rfl
    · obtain ⟨outer', houter, rfl⟩ := Option.map_eq_some_iff.1 h
      rw [List.length_cons, List.length_cons, update?_length houter]

theorem assign (name : String) (v : Value) (span : Span) :
    Alike List.length count (Run.assign name v span) (Run.assign name v span) := by
  intro scopes outer outer' _
  simp only [assign_eq]
  cases h : update? name v scopes with
  | some scopes' =>
    refine ⟨.ok (), scopes', "", update?_length h, fun out out' => ?_⟩
    rw [String.append_empty, String.append_empty]
    exact ⟨rfl, rfl⟩
  | none => exact fail (.unboundName name) span scopes outer outer' ‹_›

/-- **A scope that is opened is closed**, also where the step in it fails. -/
theorem inScope (hx : Alike List.length count x y) : Alike List.length count (Run.inScope x) (Run.inScope y) := by
  intro scopes outer outer' hcount
  obtain ⟨r, scopes', text, hkept, hends⟩ := hx ([] :: scopes) outer outer' hcount
  obtain ⟨scope, left, rfl⟩ := List.exists_cons_of_length_eq_add_one hkept
  refine ⟨r, left, text, Nat.succ.inj hkept, fun out out' => ?_⟩
  rw [inScope_eq, inScope_eq, (hends out out').1, (hends out out').2]
  cases r <;> exact ⟨rfl, rfl⟩

end Alike

/-- **A frame that is pushed is popped**, also where the step in it fails. -/
theorem Closed.inFrame {count : Nat} {x y : Run α} (scope : Table Value) (hx : Alike List.length (count + 1) x y) :
    Closed count (Run.inFrame scope x) (Run.inFrame scope y) := by
  intro frames frames' hcount
  obtain ⟨r, scopes', text, -, hends⟩ := hx [scope] frames frames' (congrArg (· + 1) hcount)
  refine ⟨r, text, fun out out' => ?_⟩
  rw [inFrame_eq, inFrame_eq, (hends out out').1, (hends out out').2]
  cases r <;> exact ⟨rfl, rfl⟩

end Run

namespace Eval

open Run

variable {γ : Type} {view : List (Table Value) → γ} {count : Nat}

/-! ## Operations -/

theorem ofArith_alike (span : Span) : ∀ r, Alike view count (ofArith span r) (ofArith span r)
  | .ok v => .pure (Value.int v)
  | .error .overflow => .fail .overflow span
  | .error .division => .fail .division span

theorem asBool_alike (span : Span) : ∀ v, Alike view count (asBool span v) (asBool span v)
  | .bool b => .pure b
  | .int _ | .char _ | .text _ | .array _ | .record _ _ | .unit => .fail _ span

theorem asIndex_alike (span : Span) : ∀ v, Alike view count (asIndex span v) (asIndex span v)
  | .int n => by
    by_cases hn : 0 ≤ n
    · simp only [asIndex, if_pos hn]
      exact .pure n.toNat
    · simp only [asIndex, if_neg hn]
      exact .fail _ span
  | .bool _ | .char _ | .text _ | .array _ | .record _ _ | .unit => .fail _ span

theorem unary_alike (span : Span) (op : UnaryOp) (v : Value) :
    Alike view count (unary span op v) (unary span op v) := by
  unfold unary
  split
  · exact ofArith_alike span _
  · exact .pure _
  · exact .fail _ span

theorem comparison_alike (span : Span) (accept : Ordering → Bool) (l r : Value) :
    Alike view count (comparison span accept l r) (comparison span accept l r) := by
  unfold comparison
  cases order? l r with
  | some o => exact .pure _
  | none => exact .fail _ span

theorem binary_alike (span : Span) (op : BinOp) (l r : Value) :
    Alike view count (binary span op l r) (binary span op l r) := by
  unfold binary
  split
  case h_1 | h_2 | h_3 | h_4 | h_5 => exact ofArith_alike span _
  case h_6 | h_7 | h_8 => exact .pure _
  case h_9 | h_10 | h_11 | h_12 => exact comparison_alike span _ l r
  case h_13 => exact .fail _ span

theorem member_alike (span : Span) (base : Value) (name : String) :
    Alike view count (member span base name) (member span base name) := by
  unfold member
  cases base.field? name with
  | some v => exact .pure v
  | none => exact .fail _ span

theorem element_alike (span indexSpan : Span) (base : Value) (index : Nat) :
    Alike view count (element span indexSpan base index) (element span indexSpan base index) := by
  unfold element
  split
  · split
    · exact .pure _
    · exact .fail _ indexSpan
  · exact .fail _ span

/-! ## Expressions -/

/-- **Two worlds with the same cells**, whose calls are alike where so many frames stand. -/
structure Worlds (count : Nat) (w w' : World) : Prop where
  cells : w'.cells = w.cells
  rounds : w'.rounds = w.rounds
  call : ∀ c args span, Closed count (w.call c args span) (w'.call c args span)

variable {w w' : World}

theorem call_alike (hw : Worlds count w w') (span : Span) (name : String) (args : List Value) :
    Alike view count (call w span name args) (call w' span name args) := by
  unfold call
  split
  · exact (Alike.print _).bind fun _ => .pure _
  · split
    · exact .pure _
    · exact .fail _ span
  · rw [hw.cells]
    cases w.cells.find? name with
    | some c => exact (hw.call c args span).alike
    | none => exact .fail _ span

mutual

/-- **An expression keeps the scopes of its frame** and does the same on machines that agree on them. -/
theorem expr_alike (hw : Worlds count w w') : ∀ e, Alike id count (expr w e) (expr w' e)
  | .name _ id => .lookup id.name id.span
  | .int _ _ | .char _ _ | .bool _ _ | .text _ _ => .pure _
  | .list span _ => .fail _ span
  | .array _ items => (exprs_alike hw items).map _
  | .record _ _ fs => (fields_alike hw fs).map _
  | .unary span op e => (expr_alike hw e).bind fun v => unary_alike span op v
  | .binary span l op r => by
    have hl := expr_alike hw l
    have hr := expr_alike hw r
    have hlogic : ∀ b : Bool, Alike id count (do return Value.bool (← asBool r.span (← expr w r)))
        (do return Value.bool (← asBool r.span (← expr w' r))) := fun _ =>
      hr.bind fun v => (asBool_alike r.span v).bind fun _ => .pure _
    have hboth : ∀ op, Alike id count (do binary span op (← expr w l) (← expr w r))
        (do binary span op (← expr w' l) (← expr w' r)) := fun op =>
      hl.bind fun a => hr.bind fun b => binary_alike span op a b
    cases op with
    | and => exact hl.bind fun v => (asBool_alike l.span v).bind fun b => (hlogic b).ite (.pure _)
    | or => exact hl.bind fun v => (asBool_alike l.span v).bind fun b => .ite (.pure _) (hlogic b)
    | add | sub | mul | div | rem | eq | ne | lt | gt | le | ge => exact hboth _
  | .member _ base m => (expr_alike hw base).bind fun v => member_alike m.span v m.name
  | .index span base index =>
    (expr_alike hw base).bind fun b => (expr_alike hw index).bind fun v =>
      (asIndex_alike index.span v).bind fun i => element_alike span index.span b i
  | .call span callee _ args => (exprs_alike hw args).bind fun vs => call_alike hw span callee.name vs
  | .listSelect span list index => by
    cases list with
    | list _ items =>
      exact (expr_alike hw index).bind fun v => (asIndex_alike index.span v).bind fun i => nth_alike hw span i items i
    | _ => exact .fail _ span
  | .memberSelect span base members index =>
    (expr_alike hw index).bind fun v => (asIndex_alike index.span v).bind fun i => by
      cases members[i]? with
      | none => exact .fail _ span
      | some m =>
        refine (expr_alike hw base).bind fun b => ?_
        cases b.field? m.name with
        | some v => exact .pure v
        | none => exact .fail _ span

theorem exprs_alike (hw : Worlds count w w') : ∀ es, Alike id count (exprs w es) (exprs w' es)
  | [] => .pure _
  | e :: es => (expr_alike hw e).bind fun _ => (exprs_alike hw es).bind fun _ => .pure _

theorem fields_alike (hw : Worlds count w w') : ∀ fs, Alike id count (fields w fs) (fields w' fs)
  | [] => .pure _
  | (_, e) :: fs => (expr_alike hw e).bind fun _ => (fields_alike hw fs).bind fun _ => .pure _

theorem nth_alike (hw : Worlds count w w') (span : Span) (index : Nat) :
    ∀ es n, Alike id count (nth w span index es n) (nth w' span index es n)
  | e :: _, 0 => expr_alike hw e
  | _ :: es, n + 1 => nth_alike hw span index es n
  | [], _ => .fail _ span

end

/-! ## Statements -/

theorem condition_alike (hw : Worlds count w w') (e : Expr) : Alike view count (condition w e) (condition w' e) :=
  (expr_alike hw e).of_kept.bind fun v => asBool_alike e.span v

theorem rounds_alike {c c' : Run Bool} {body body' : Run Flow} (hc : Alike view count c c')
    (hbody : Alike view count body body') : ∀ n, Alike view count (rounds c body n) (rounds c' body' n)
  | 0 => .throw .exhausted
  | n + 1 => by
    refine hc.bind fun b => .ite (hbody.bind fun flow => ?_) (.pure _)
    cases flow with
    | next | again => exact rounds_alike hc hbody n
    | leave | give => exact .pure _

theorem init_alike (hw : Worlds count w w') : ∀ first, Alike List.length count (init w first) (init w' first)
  | none => .pure _
  | some (.val d) => (expr_alike hw d.expr).of_kept.bind fun v => .define d.name.name v
  | some (.expr e) => (expr_alike hw e).of_kept.bind fun _ => .pure _

theorem binding_alike (hw : Worlds count w w') : ∀ range, Alike List.length count (binding w range) (binding w' range)
  | none => .pure _
  | some d => (expr_alike hw d.expr).of_kept.bind fun v => .define d.name.name v

theorem emptyRange_alike (hw : Worlds count w w') (range : Expr) :
    Alike view count (emptyRange w range) (emptyRange w' range) := by
  cases range with
  | list => exact .pure _
  | _ => exact (expr_alike hw _).of_kept.bind fun _ => .pure _

mutual

/-- **A statement leaves as many scopes as it found** and does the same on machines that agree on them. -/
theorem stmt_alike (hw : Worlds count w w') : ∀ s, Alike List.length count (stmt w s) (stmt w' s)
  | .typeAlias _ _ _ _ | .trait _ _ | .record _ | .cell _ => .pure _
  | .val d => (expr_alike hw d.expr).of_kept.bind fun v => (Alike.define d.name.name v).bind fun _ => .pure _
  | .assign _ target e =>
    (expr_alike hw e).of_kept.bind fun v => (Alike.assign target.name v target.span).bind fun _ => .pure _
  | .cond _ c yes none => (condition_alike hw c).bind fun _ => .ite (block_alike hw yes) (.pure _)
  | .cond _ c yes (some no) => (condition_alike hw c).bind fun _ => .ite (block_alike hw yes) (block_alike hw no)
  | .loop _ c body => by
    unfold stmt
    rw [hw.rounds]
    exact rounds_alike (condition_alike hw c) (block_alike hw body) w.rounds
  | .expand x => .inScope (expansion_alike hw x)
  | .leave _ | .next _ | .give _ none => .pure _
  | .give _ (some e) => (expr_alike hw e).of_kept.map _
  | .assert _ e => (condition_alike hw e).bind fun _ => .ite (.pure _) (.fail _ e.span)
  | .expr e => (expr_alike hw e).of_kept.bind fun _ => .pure _

theorem stmts_alike (hw : Worlds count w w') : ∀ ss, Alike List.length count (stmts w ss) (stmts w' ss)
  | [] => .pure _
  | s :: ss => (stmt_alike hw s).bind fun flow => by
    cases flow with
    | next => exact stmts_alike hw ss
    | leave | again | give => exact .pure _

theorem block_alike (hw : Worlds count w w') : ∀ b, Alike List.length count (block w b) (block w' b)
  | ⟨_, ss⟩ => .inScope (stmts_alike hw ss)

theorem expansion_alike (hw : Worlds count w w') : ∀ x, Alike List.length count (expansion w x) (expansion w' x)
  | ⟨_, keyword, first, _, range, _, _, state⟩ => (init_alike hw first).bind fun _ => unrolling_alike hw keyword range state

theorem unrolling_alike (hw : Worlds count w w') (keyword : Span) (range : Expr) :
    ∀ u, Alike List.length count (unrolling w keyword range u) (unrolling w' keyword range u)
  | .pending | .deferred => .fail _ keyword
  | .empty => (emptyRange_alike hw range).bind fun _ => .pure _
  | .unrolled b cs => (binding_alike hw b).bind fun _ => copies_alike hw cs

theorem copies_alike (hw : Worlds count w w') : ∀ cs, Alike List.length count (copies w cs) (copies w' cs)
  | [] => .pure _
  | c :: cs => (copy_alike hw c).bind fun flow => by
    cases flow with
    | next | again => exact copies_alike hw cs
    | leave | give => exact .pure _

theorem copy_alike (hw : Worlds count w w') : ∀ c, Alike List.length count (copy w c) (copy w' c)
  | ⟨_, body⟩ => block_alike hw body

end

/-- **A call keeps every frame**: the body runs in a frame of its own, with one frame more standing. -/
theorem cell_closed (hw : Worlds (count + 1) w w') (c : CellDef) (args : List Value) :
    Closed count (cell w c args) (cell w' c args) :=
  .inFrame _ <| (stmts_alike hw c.body.stmts).bind fun flow => by
    cases flow with
    | give v => exact .pure v
    | next | leave | again => exact .pure _

end Eval
end Unroll
