import Unroll.Checker.Stmt
import Unroll.Proofs.Check.OneMeaning
import Unroll.Proofs.Check.Settled
import Unroll.Proofs.Machine.Steps
/-!
# Constants and the machine

What is computed at compile time is what the machine would compute.  Compile time evaluates both operands of every
operator; the machine leaves the right operand of `&&` and `||` alone where the left one decides.  Where both operands
are constants that makes no difference, since neither of them prints or changes anything.
-/
namespace Unroll

open Outcome

/-- The value of a constant at run time; an open one has none. -/
def Const.value? : Const → Option Value
  | .int n => some (.int n)
  | .bool b => some (.bool b)
  | .dependent => none

/-- What a name stands for in the call that is running. -/
def Machine.visible? (m : Machine) (name : String) : Option Value :=
  (m.frames.headD []).findSome? (Table.find? · name)

/-- **The machine shows the constants of the expression**: each name in it that stands for a known one has its value. -/
def Machine.Shows (m : Machine) (env : String → Option Const) (e : Expr) : Prop :=
  ∀ n ∈ e.constants, ∀ c v, env n = some c → c.value? = some v → m.visible? n = some v

theorem Const.value?_isSome {c : Const} : c.value?.isSome = true ↔ c ≠ .dependent := by
  cases c <;> simp [value?]

namespace Eval

open Run

variable {w : World} {m : Machine} {span : Span} {c : Const} {v : Value}

/-! ## Operators -/

theorem ofArith_const {r : Except Arith.Fault Int} (h : Const.ofArith span r = .ok c) (hc : c.value? = some v)
    (span' : Span) : ofArith span' r = pure v := by
  rcases r with fault | n
  · cases fault <;> cases h
  · cases h
    cases hc
    rfl

theorem unary_const {op : UnaryOp} {a : Const} {x : Value} (h : Const.unary span op a = .ok c)
    (ha : a.value? = some x) (hc : c.value? = some v) (span' : Span) : unary span' op x = pure v := by
  cases a with
  | dependent => cases ha
  | int n =>
    cases ha
    cases op with
    | neg => exact ofArith_const h hc span'
    | not => cases h
  | bool b =>
    cases ha
    cases op with
    | neg => cases h
    | not =>
      cases h
      cases hc
      rfl

/-- The four tests of how two integers compare. -/
theorem compare_tests (a b : Int) : (compare a b).isLT = decide (a < b) ∧ (compare a b).isGT = decide (a > b) ∧
    (compare a b).isLE = decide (a ≤ b) ∧ (compare a b).isGE = decide (a ≥ b) := by
  have hcompare : compare a b = if a < b then .lt else if a = b then .eq else .gt := rfl
  rcases Int.lt_trichotomy a b with h | rfl | h
  · have hle : a ≤ b := by omega
    have hgt : ¬ a > b := by omega
    have hge : ¬ a ≥ b := by omega
    rw [hcompare, if_pos h, decide_eq_true h, decide_eq_true hle, decide_eq_false hgt, decide_eq_false hge]
    decide
  · rw [hcompare, if_neg (Int.lt_irrefl a), if_pos rfl]
    simp
  · have hlt : ¬ a < b := by omega
    have heq : a ≠ b := by omega
    have hle : ¬ a ≤ b := by omega
    have hge : a ≥ b := by omega
    rw [hcompare, if_neg hlt, if_neg heq, decide_eq_true h, decide_eq_false hlt, decide_eq_false hle,
      decide_eq_true hge]
    decide

/-- Operators on integers, near the limits too. -/
theorem binary_ints {op : BinOp} {a b : Int} (h : Const.onInts span op a b = .ok c) (hc : c.value? = some v)
    (span' : Span) : binary span' op (.int a) (.int b) = pure v := by
  cases op with
  | add | sub | mul | div | rem => exact ofArith_const h hc span'
  | and | or => cases h
  | eq | ne =>
    cases h
    cases hc
    simp [binary]
  | lt | gt | le | ge =>
    cases h
    cases hc
    obtain ⟨hlt, hgt, hle, hge⟩ := compare_tests a b
    simp only [binary, comparison, order?, hlt, hgt, hle, hge]

theorem binary_bools {op : BinOp} (hand : op ≠ .and) (hor : op ≠ .or) {a b : Bool}
    (h : Const.onBools span op a b = .ok c) (hc : c.value? = some v) (span' : Span) :
    binary span' op (.bool a) (.bool b) = pure v := by
  cases op with
  | and => exact absurd rfl hand
  | or => exact absurd rfl hor
  | eq | ne =>
    cases h
    cases hc
    simp [binary]
  | add | sub | mul | div | rem | lt | gt | le | ge => cases h

/-- The operands of a constant are constants. -/
theorem binary_operands {op : BinOp} {a b : Const} (h : Const.binary span op a b = .ok c) (hc : c.value? = some v) :
    (∃ i j, a = .int i ∧ b = .int j ∧ Const.onInts span op i j = .ok c) ∨
      ∃ p q, a = .bool p ∧ b = .bool q ∧ Const.onBools span op p q = .ok c := by
  have hopen : Except.ok Const.dependent ≠ (Except.ok c : Except Diagnostic Const) := by
    rintro hopen
    cases hopen
    cases hc
  cases a with
  | dependent => exact absurd h hopen
  | int i =>
    cases b with
    | dependent => exact absurd h hopen
    | int j => exact .inl ⟨i, j, rfl, rfl, h⟩
    | bool _ => cases h
  | bool p =>
    cases b with
    | dependent => exact absurd h hopen
    | int _ => cases h
    | bool q => exact .inr ⟨p, q, rfl, rfl, h⟩

/-! ## Expressions -/

/-- The right operand of `&&` and `||` may be left out, since it is a constant too. -/
theorem binary_runs {op : BinOp} {l r : Expr} {a b : Const} (h : Const.binary span op a b = .ok c)
    (hc : c.value? = some v) (hl : ∀ x, a.value? = some x → expr w l m = .ok x m)
    (hr : ∀ y, b.value? = some y → expr w r m = .ok y m) : expr w (.binary span l op r) m = .ok v m := by
  obtain ⟨i, j, rfl, rfl, h⟩ | ⟨p, q, rfl, rfl, h⟩ := binary_operands h hc
  · have hand : op ≠ .and := by
      rintro rfl
      cases h
    have hor : op ≠ .or := by
      rintro rfl
      cases h
    rw [binary_strict hand hor, bind_of_ok (hl _ rfl), bind_of_ok (hr _ rfl), binary_ints h hc]
    rfl
  · by_cases hand : op = .and
    · subst hand
      cases h
      cases hc
      have hleft : expr w (.binary span l .and r) m = _ := bind_of_ok (hl _ rfl)
      rw [hleft]
      cases p with
      | false => rfl
      | true => exact bind_of_ok (hr _ rfl)
    by_cases hor : op = .or
    · subst hor
      cases h
      cases hc
      have hleft : expr w (.binary span l .or r) m = _ := bind_of_ok (hl _ rfl)
      rw [hleft]
      cases p with
      | true => rfl
      | false => exact bind_of_ok (hr _ rfl)
    · rw [binary_strict hand hor, bind_of_ok (hl _ rfl), bind_of_ok (hr _ rfl), binary_bools hand hor h hc]
      rfl

theorem lookup_visible {n : String} (h : m.visible? n = some v) : lookup n span m = .ok v m := by
  unfold Machine.visible? at h
  unfold lookup
  refine (bind_of_ok rfl).trans ?_
  rw [h]
  rfl

/-- **A constant is what the machine makes of the expression**, which leaves the machine as it was. -/
theorem expr_const {env : String → Option Const} : ∀ {e : Expr} {c : Const} {v : Value},
    Const.eval env e = .ok c → c.value? = some v → m.Shows env e → expr w e m = .ok v m
  | .int _ _, c, v, h, hc, _ | .bool _ _, c, v, h, hc, _ => by
    cases h
    cases hc
    rfl
  | .name _ id, c, v, h, hc, hm => by
    unfold Const.eval at h
    split at h
    · rename_i hn
      cases h
      exact lookup_visible (hm id.name (List.mem_singleton_self _) _ v hn hc)
    · cases h
  | .unary span op e, c, v, h, hc, hm => by
    unfold Const.eval at h
    obtain ⟨a, ha, h⟩ := except_bind_ok.1 h
    obtain ⟨x, hx⟩ : ∃ x, a.value? = some x := by
      cases a with
      | dependent =>
        cases h
        cases hc
      | int n => exact ⟨_, rfl⟩
      | bool b => exact ⟨_, rfl⟩
    have he : expr w e m = .ok x m := expr_const ha hx hm
    have hop : expr w (.unary span op e) m = unary span op x m := bind_of_ok he
    rw [hop, unary_const h hx hc]
    rfl
  | .binary span l op r, c, v, h, hc, hm => by
    unfold Const.eval at h
    obtain ⟨a, ha, h⟩ := except_bind_ok.1 h
    obtain ⟨b, hb, h⟩ := except_bind_ok.1 h
    refine binary_runs h hc (fun x hx => ?_) fun y hy => ?_
    · exact expr_const ha hx fun n hn => hm n (List.mem_append_left _ hn)
    · exact expr_const hb hy fun n hn => hm n (List.mem_append_right _ hn)
  | .char _ _, c, v, h, _, _ | .text _ _, c, v, h, _, _ | .list _ _, c, v, h, _, _ | .array _ _, c, v, h, _, _
  | .record _ _ _, c, v, h, _, _ | .member _ _ _, c, v, h, _, _ | .index _ _ _, c, v, h, _, _
  | .call _ _ _ _, c, v, h, _, _ | .listSelect _ _ _, c, v, h, _, _ | .memberSelect _ _ _ _, c, v, h, _, _ => by
    cases h

/-! ## What is decided by constants -/

theorem stmt_assert {e : Expr} {b : Bool} (h : expr w e m = .ok (.bool b) m) :
    stmt w (.assert span e) m = if b then .ok .next m else .error (.error ⟨.assertionFailed, e.span⟩) m := by
  have hcond : condition w e m = .ok b m := bind_of_ok h
  have hstmt : stmt w (.assert span e) m = (if b then pure .next else fail .assertionFailed e.span : Run Flow) m :=
    bind_of_ok hcond
  rw [hstmt]
  cases b <;> rfl

theorem asIndex_ok {k : Int} {i : Nat} {m' : Machine} :
    asIndex span (.int k) m = .ok i m' ↔ (0 ≤ k ∧ k.toNat = i) ∧ m = m' := by
  unfold asIndex
  by_cases hk : 0 ≤ k
  · simp [hk]
  · simp [hk, Run.fail]

/-- An element of an array is there, or the index is out of its bounds. -/
theorem expr_index {base index : Expr} {items : List Value} {k : Int} {start m' : Machine} {x : Value}
    (hbase : expr w base start = .ok (.array items) m) (hindex : expr w index m = .ok (.int k) m) :
    expr w (.index span base index) start = .ok x m' ↔ (0 ≤ k ∧ items[k.toNat]? = some x) ∧ m = m' := by
  have hrun : expr w (.index span base index) start =
      (asIndex index.span (.int k) >>= element span index.span (.array items)) m := by
    have hrest : expr w (.index span base index) start = _ := bind_of_ok hbase
    rw [hrest, bind_of_ok hindex]
  rw [hrun, bind_ok]
  constructor
  · rintro ⟨i, t, hi, helement⟩
    obtain ⟨⟨hk, rfl⟩, rfl⟩ := asIndex_ok.1 hi
    unfold element at helement
    cases hx : items[k.toNat]? with
    | none =>
      simp only [hx] at helement
      cases helement
    | some y =>
      simp only [hx] at helement
      cases helement
      exact ⟨⟨hk, rfl⟩, rfl⟩
  · rintro ⟨⟨hk, hx⟩, rfl⟩
    refine ⟨k.toNat, m, asIndex_ok.2 ⟨⟨hk, rfl⟩, rfl⟩, ?_⟩
    unfold element
    simp only [hx]
    rfl

end Eval

namespace Const

/-- Where the names stand for known constants, so does the expression. -/
theorem eval_value {env : String → Option Const} (henv : ∀ n, env n ≠ some .dependent) {e : Expr} {c : Const}
    (h : eval env e = .ok c) : ∃ v, c.value? = some v := by
  have hknown : c ≠ .dependent := Check.eval_known henv h
  exact Option.isSome_iff_exists.1 (value?_isSome.2 hknown)

end Const

/-- The checker knows no value of a name, so that every machine shows what it does know. -/
theorem Place.shows (p : Place) (m : Machine) (e : Expr) : m.Shows p.constant? e := by
  intro n _ c v hc hv
  unfold Place.constant? at hc
  split at hc
  · cases hc
    cases hv
  · cases hc

namespace Check

theorem checkBounds_iff {index : Expr} {place : Span} {length : Nat} {s : Checker} {k : Int}
    (h : Const.eval s.place.constant? index = .ok (.int k)) :
    checkBounds index place (some length) s = .ok () s ↔ 0 ≤ k ∧ k < length := by
  have hplace : CheckM.place s = .ok s.place s := rfl
  unfold checkBounds
  rw [bind_of_ok hplace, h]
  by_cases hk : k < 0 ∨ length ≤ k
  · simp only [hk, if_true]
    constructor
    · intro hfail
      cases hfail
    · omega
  · simp only [hk, if_false]
    exact ⟨fun _ => by omega, fun _ => rfl⟩

end Check

/-- **What the checker finds constant is what the machine computes.**  An expression over known constants has its value
in every machine that shows them, and evaluation leaves the machine as it was.  A constant assertion is let through if
and only if it passes when it is reached, and a constant index if and only if the array has such an element. -/
theorem constants_run :
    (∀ env e c, (∀ n, env n ≠ some .dependent) → Const.eval env e = .ok c →
      ∃ v, c.value? = some v ∧ ∀ w m, m.Shows env e → Eval.expr w e m = .ok v m) ∧
    (∀ deeper span e checked s s' b, Check.condition deeper .assertion e s = .ok checked s' →
      Const.eval s'.place.constant? checked = .ok (.bool b) →
      Check.assertion deeper span e s =
          (if b then .ok (.assert span checked) s' else .error (.of .assertionFails e.span) s') ∧
        ∀ w m, Eval.stmt w (.assert span checked) m =
          if b then .ok .next m else .error (.error ⟨.assertionFailed, checked.span⟩) m) ∧
    ∀ s index k place length, Const.eval s.place.constant? index = .ok (.int k) →
      (Check.checkBounds index place (some length) s = .ok () s ↔ 0 ≤ k ∧ k < length) ∧
        ∀ w span base start items m, Eval.expr w base start = .ok (.array items) m → items.length = length →
          (Check.checkBounds index place (some length) s = .ok () s ↔
            ∃ x, Eval.expr w (.index span base index) start = .ok x m) := by
  refine ⟨fun env e c henv h => ?_, fun deeper span e checked s s' b hcond h => ?_, fun s index k place length h => ?_⟩
  · obtain ⟨v, hv⟩ := Const.eval_value henv h
    exact ⟨v, hv, fun w m hm => Eval.expr_const h hv hm⟩
  · refine ⟨?_, fun w m => Eval.stmt_assert (Eval.expr_const h rfl (s'.place.shows m checked))⟩
    have hstart : Check.assertion deeper span e s = _ := bind_of_ok hcond
    have hplace : CheckM.place s' = .ok s'.place s' := rfl
    rw [hstart, bind_of_ok hplace, h]
    cases b <;> rfl
  · have hchecked : Check.checkBounds index place (some length) s = .ok () s ↔ 0 ≤ k ∧ k < length :=
      Check.checkBounds_iff h
    refine ⟨hchecked, fun w span base start items m hbase hlength => ?_⟩
    have hindex : Eval.expr w index m = .ok (.int k) m := Eval.expr_const h rfl (s.place.shows m index)
    rw [hchecked, ← hlength]
    simp only [Eval.expr_index hbase hindex, and_true, exists_and_left]
    refine and_congr_right fun hk => ⟨fun hlt => ?_, ?_⟩
    · have hin : k.toNat < items.length := by omega
      exact ⟨_, List.getElem?_eq_getElem hin⟩
    · rintro ⟨x, hx⟩
      have hin : k.toNat < items.length := (List.getElem?_eq_some_iff.1 hx).1
      omega

/-- At the least integer: `-(lo + 1) == 9223372036854775807 && lo / 1 < 0`, the assertion that
`-9223372036854775807 - 1 >= 0`, which fails at once, and an index one past the end. -/
theorem constants_run_at_limits :
    let here : Span := ⟨0, 0⟩
    let int (n : Int) : Expr := .int here n
    let lo : Expr := .name here ⟨"lo", here⟩
    let e : Expr := .binary here
      (.binary here (.unary here .neg (.binary here lo .add (int 1))) .eq (int 9223372036854775807)) .and
      (.binary here (.binary here lo .div (int 1)) .lt (int 0))
    let fails : Expr := .binary here (.binary here (int (-9223372036854775807)) .sub (int 1)) .ge (int 0)
    let w : Eval.World := ⟨[], fun _ _ _ => pure .unit, 0⟩
    let m : Machine := ⟨[[[("lo", .int (-9223372036854775808))]]], "out"⟩
    let s : Checker := .new .standard
    Eval.expr w e m = .ok (.bool true) m ∧
      Check.assertion ⟨fun _ => pure .unit, pure⟩ here fails s = .error (.of .assertionFails here) s ∧
      Eval.stmt w (.assert here fails) m = .error (.error ⟨.assertionFailed, here⟩) m ∧
      (Check.checkBounds (int 1) here (some 1) s = .ok () s ↔
        ∃ x, Eval.expr w (.index here (.array here [int 7]) (int 1)) m = .ok x m) := by
  intro here int lo e fails w m s
  have henv : ∀ n, (fun n => if n = "lo" then some (Const.int (-9223372036854775808)) else none) n ≠
      some .dependent := by
    intro n
    dsimp only
    split <;> simp
  obtain ⟨v, hv, hrun⟩ := constants_run.1 _ e (.bool true) henv rfl
  have hshown : m.Shows (fun n => if n = "lo" then some (.int (-9223372036854775808)) else none) e := by
    intro n hn c v hc hcv
    obtain rfl : n = "lo" := by simpa [e, lo, int, Expr.constants] using hn
    cases hc
    cases hcv
    rfl
  obtain ⟨hassertion, hstmt⟩ := constants_run.2.1 ⟨fun _ => pure .unit, pure⟩ here fails fails s s false rfl rfl
  refine ⟨?_, hassertion, hstmt w m, ?_⟩
  · cases hv
    exact hrun w m hshown
  · exact (constants_run.2.2 s (int 1) 1 here 1 rfl).2 w here (.array here [int 7]) m [.int 7] m rfl rfl

end Unroll
