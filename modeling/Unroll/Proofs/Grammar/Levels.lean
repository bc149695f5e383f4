import Unroll.Proofs.Grammar.Phrases
import Unroll.Proofs.Grammar.Steps
/-!
# The levels of the reader

The phrases of `Grammar.Expr` by the level they read, the operators each level joins, and which tokens behind an operand
would belong to it: where none of them comes next, a level has nothing more to take.
-/
namespace Unroll.Grammar

open Parse Cursor Outcome

/-! ## Operators -/

/-- The operators that a level joins. -/
def opAt : Prec → TokenKind → Option BinOp
  | .or => orOp?
  | .and => andOp?
  | .comparison => comparison?
  | .sum => sumOp?
  | .product => productOp?
  | .lowest | .unary | .suffix => fun _ => none

/-- **Each level joins the operators of its own precedence.** -/
theorem opAt_iff {level : Prec} {k : TokenKind} {op : BinOp} :
    opAt level k = some op ↔ k = .symbol op.symbol ∧ op.prec = level := by
  constructor
  · intro h
    cases level <;> simp only [opAt, orOp?, andOp?, comparison?, sumOp?, productOp?, reduceCtorEq] at h <;>
      split at h <;> cases h <;> exact ⟨rfl, rfl⟩
  · rintro ⟨rfl, rfl⟩
    cases op <;> rfl

@[simp] theorem binary_unplaced (l r : Expr) (op : BinOp) :
    (Grammar.binary l op r).unplaced = .binary nowhere l.unplaced op r.unplaced := by
  simp [Grammar.binary]

/-- The test that the reader makes on the token behind a name. -/
theorem any_arithmetic (k? : Option TokenKind) :
    (k?.bind fun k => (sumOp? k).orElse fun _ => productOp? k).isSome = k?.any arithmetic := by
  cases k? with
  | none => rfl
  | some k =>
    cases k with
    | symbol s => cases s <;> rfl
    | _ => rfl

/-! ## Readers -/

/-- The phrases of one bound. -/
def bounded (n : Nat) : Inner := ⟨expr n, sum n, unary n, typeRef n⟩

/-- What reads a level where at most `n + 1` tokens are left. -/
def reader (n : Nat) : Prec → Parse Expr
  | .lowest | .or => exprWith (n + 1) (bounded n)
  | .and => chain andOp? (comparisonWith (n + 1) (bounded n)) (n + 1)
  | .comparison => comparisonWith (n + 1) (bounded n)
  | .sum => sumWith (n + 1) (bounded n)
  | .product => chain productOp? (unaryWith (n + 1) (bounded n)) (n + 1)
  | .unary => unaryWith (n + 1) (bounded n)
  | .suffix => primary (n + 1) (bounded n) >>= suffixesFrom (n + 1) (bounded n) (n + 1)

/-- How the reader of a level goes on with what it has read so far.  Three levels have no more to take. -/
def goOn (n : Nat) (level : Prec) (m : Nat) (e : Expr) : Parse Expr :=
  match level with
  | .lowest | .comparison | .unary => pure e
  | .suffix => suffixesFrom (n + 1) (bounded n) m e
  | level => chainFrom (opAt level) (reader n level.tighter) m e

/-! ## What follows -/

/-- How tightly a token takes hold of an operand before it; 0 where it leaves it alone. -/
def grip : TokenKind → Nat
  | .symbol .orOr => Prec.or.rank
  | .symbol .andAnd => Prec.and.rank
  | .symbol .eq | .symbol .ne | .symbol .lt | .symbol .gt | .symbol .le | .symbol .ge => Prec.comparison.rank
  | .symbol .plus | .symbol .minus => Prec.sum.rank
  | .symbol .star | .symbol .slash | .symbol .percent => Prec.product.rank
  | .symbol .dot | .symbol .lbracket | .symbol .lparen | .symbol .lbrace | .symbol .pathSep => Prec.suffix.rank
  | _ => 0

/-- The next token takes no tighter hold than said. -/
def Ends (b : Nat) (c : Cursor) : Prop := ∀ k, c.kind? = some k → grip k ≤ b

/-- How tight a hold the token behind an operand of the level may take, for the reader to go on from there. -/
def room (level : Prec) : Nat :=
  match level with
  | .lowest | .comparison | .unary => level.rank - 1
  | _ => level.rank

section follow

variable {c c' : Cursor} {n m : Nat} {level : Prec} {e : Expr}

theorem grip_op (op : BinOp) : grip (.symbol op.symbol) = op.prec.rank := by
  cases op <;> rfl

theorem grip_le (k : TokenKind) : grip k ≤ Prec.suffix.rank := by
  cases k with
  | symbol s => cases s <;> decide
  | _ => exact Nat.zero_le _

theorem Ends.mono {b b' : Nat} (h : Ends b c) (hb : b ≤ b') : Ends b' c := fun k hk => Nat.le_trans (h k hk) hb

theorem Ends.of_kind? {k : TokenKind} {b : Nat} (hk : c.kind? = some k) (hb : grip k ≤ b) : Ends b c := by
  intro k' hk'
  cases hk.symm.trans hk'
  exact hb

theorem Ends.no_op {b : Nat} (h : Ends b c) (hb : b < level.rank) : c.kind?.bind (opAt level) = none := by
  rw [Option.bind_eq_none_iff]
  intro k hk
  cases hop : opAt level k with
  | none => rfl
  | some op =>
    obtain ⟨rfl, rfl⟩ := opAt_iff.1 hop
    have := h _ hk
    rw [grip_op] at this
    omega

theorem chainFrom_done {operand : Parse Expr} (h : c.kind?.bind (opAt level) = none) :
    chainFrom (opAt level) operand m e c = .ok e c := by
  cases m with
  | zero => rfl
  | succ m =>
    unfold chainFrom
    rw [peek_bind, h]
    rfl

theorem suffix_done {inner : Inner} (h : Ends Prec.unary.rank c) : suffix? n inner e c = .ok none c := by
  unfold suffix?
  rw [peek_bind]
  generalize hk : c.kind? = k
  split
  case h_6 => rfl
  all_goals exact absurd (h _ hk) (by decide)

theorem suffixesFrom_done {inner : Inner} (h : Ends Prec.unary.rank c) : suffixesFrom n inner m e c = .ok e c := by
  cases m with
  | zero => rfl
  | succ m =>
    unfold suffixesFrom
    rw [bind_of_ok (suffix_done h)]
    rfl

theorem goOn_done (h : Ends (level.rank - 1) c) : goOn n level m e c = .ok e c := by
  cases level with
  | lowest | comparison | unary => rfl
  | suffix => exact suffixesFrom_done h
  | or | and | sum | product => exact chainFrom_done (h.no_op (by decide))

end follow

end Unroll.Grammar
