import Unroll.Machine.Run
import Unroll.Proofs.Outcome
/-!
# What a step of the machine does to its frames

A step works on the frame of the call that is running.  Each lemma here has that frame before it, and says which one is
left.
-/
namespace Unroll
namespace Run

variable {α : Type} {x : Run α} {outer : List (List (Table Value))} {scopes : List (Table Value)} {out : String}

theorem onScopes_eq (f : List (Table Value) → List (Table Value)) :
    onScopes f ⟨scopes :: outer, out⟩ = .ok () ⟨f scopes :: outer, out⟩ := rfl

theorem inScope_eq : inScope x ⟨scopes :: outer, out⟩ = match x ⟨([] :: scopes) :: outer, out⟩ with
    | .ok a m => .ok a (popScope m)
    | .error h m => .error h (popScope m) := rfl

theorem inFrame_eq (scope : Table Value) (m : Machine) :
    inFrame scope x m = match x ⟨[scope] :: m.frames, m.out⟩ with
      | .ok a m => .ok a ⟨m.frames.tail, m.out⟩
      | .error h m => .error h ⟨m.frames.tail, m.out⟩ := rfl

theorem lookup_eq (n : String) (sp : Span) : lookup n sp ⟨scopes :: outer, out⟩ =
    match scopes.findSome? (Table.find? · n) with
    | some v => .ok v ⟨scopes :: outer, out⟩
    | none => .error (.error ⟨.unboundName n, sp⟩) ⟨scopes :: outer, out⟩ := by
  show (match scopes.findSome? (Table.find? · n) with
    | some v => (pure v : Run Value)
    | none => fail (.unboundName n) sp) ⟨scopes :: outer, out⟩ = _
  cases scopes.findSome? (Table.find? · n) <;> rfl

theorem assign_eq (n : String) (v : Value) (sp : Span) : assign n v sp ⟨scopes :: outer, out⟩ =
    match update? n v scopes with
    | some scopes' => .ok () ⟨scopes' :: outer, out⟩
    | none => .error (.error ⟨.unboundName n, sp⟩) ⟨scopes :: outer, out⟩ := by
  show (match update? n v scopes with
    | some scopes' => onScopes fun _ => scopes'
    | none => fail (.unboundName n) sp) ⟨scopes :: outer, out⟩ = _
  cases update? n v scopes <;> rfl

end Run

namespace Eval

theorem asIndex_nat (sp : Span) (i : Nat) : asIndex sp (.int i) = pure i := by
  show (if 0 ≤ (i : Int) then pure (i : Int).toNat else Run.fail (.indexNegative i) sp) = _
  rw [if_pos (Int.natCast_nonneg i), Int.toNat_natCast]

/-- All operators but two evaluate both operands. -/
theorem binary_strict {w : World} {op : BinOp} (hand : op ≠ .and) (hor : op ≠ .or) (span : Span) (l r : Expr) :
    expr w (.binary span l op r) = (do
      let a ← expr w l
      let b ← expr w r
      binary span op a b) := by
  cases op with
  | and => exact absurd rfl hand
  | or => exact absurd rfl hor
  | _ => rfl

end Eval

namespace Machine

/-- A run is one call, and shows what was printed where the call succeeds. -/
theorem runEntry_eq (p : CheckedProgram) (b : Bounds) (entry : String) (m : Machine) : runEntry p b entry m =
    match (cellTable p).find? entry with
    | none => .error (.error ⟨.noEntry entry, ⟨0, 0⟩⟩) m
    | some c =>
      if c.args.isEmpty then
        match Eval.callAt (cellTable p) b.callDepth b.loopRounds b.callDepth c [] c.name.span m with
        | .ok v t => .ok ⟨v, t.out⟩ ⟨t.frames, ""⟩
        | .error h t => .error h t
      else .error (.error ⟨.entryParams entry, c.name.span⟩) m := by
  unfold runEntry
  dsimp only
  cases (cellTable p).find? entry with
  | none => rfl
  | some c =>
    dsimp only
    cases c.args.isEmpty with
    | false => rfl
    | true =>
      show EStateM.bind _ _ m = _
      unfold EStateM.bind
      cases Eval.callAt (cellTable p) b.callDepth b.loopRounds b.callDepth c [] c.name.span m <;> rfl

end Machine
end Unroll
