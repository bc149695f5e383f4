import Unroll.Proofs.Check.Endings
import Unroll.Proofs.Check.Onward
import Unroll.Proofs.Levels
import Unroll.Proofs.Renaming
import Unroll.Proofs.Unplaced
/-!
# What a template decides

A constant that is known in a template is known to be the same in each of its instances, and one that is in error stays in
error.  An operator that meets an open operand is open, whatever the other operand is; but the other operand has been
evaluated by then, so no error is lost on the way.  What is open is all that may still become anything.

Selections are left out.  An instance may collapse one, and what it collapses to is no longer a selection.
-/
namespace Unroll

/-- **No selection is met on the way down through the operators.**  What stands inside of calls and literals does not
matter, for they are no constants. -/
def Expr.Unselected : Expr → Prop
  | .unary _ _ e => e.Unselected
  | .binary _ l _ r => l.Unselected ∧ r.Unselected
  | .listSelect .. | .memberSelect .. => False
  | _ => True

namespace Const

open Outcome

/-! ## Constants that stay -/

/-- **What was decided before is decided so after.** -/
def Stays (before after : Except Diagnostic Const) : Prop :=
  match before with
  | .ok .dependent => True
  | .ok c => after = .ok c
  | .error _ => ∃ d, after = .error d

namespace Stays

theorem refl (r : Except Diagnostic Const) : Stays r r := by
  rcases r with d | c
  · exact ⟨d, rfl⟩
  · cases c <;> trivial

variable {a a' b b' : Except Diagnostic Const} {c : Const}

theorem error {d : Diagnostic} (h : Stays (.error d) a') : ∃ d', a' = .error d' := h

theorem known (h : Stays (.ok c) a') (hc : c ≠ .dependent) : a' = .ok c := by
  cases c with
  | dependent => exact absurd rfl hc
  | int _ | bool _ => exact h

theorem unary (sp : Span) (op : UnaryOp) (h : Stays a a') : Stays (a >>= Const.unary sp op) (a' >>= Const.unary sp op) := by
  rcases a with d | c
  · obtain ⟨d', rfl⟩ := h.error
    exact ⟨d', rfl⟩
  · by_cases hc : c = .dependent
    · subst hc
      trivial
    · rw [h.known hc]
      exact .refl _

/-- **An open operand hides no error of the other one.** -/
theorem binary (sp : Span) (op : BinOp) (ha : Stays a a') (hb : Stays b b') :
    Stays (a >>= fun x => b >>= fun y => Const.binary sp op x y)
      (a' >>= fun x => b' >>= fun y => Const.binary sp op x y) := by
  rcases a with d | x
  · obtain ⟨d', rfl⟩ := ha.error
    exact ⟨d', rfl⟩
  rcases b with d | y
  · obtain ⟨d', rfl⟩ := hb.error
    cases a' with
    | error d'' => exact ⟨d'', rfl⟩
    | ok x' => exact ⟨d', rfl⟩
  by_cases hx : x = .dependent
  · subst hx
    trivial
  by_cases hy : y = .dependent
  · subst hy
    have hopen : Const.binary sp op x .dependent = .ok .dependent := by cases x <;> rfl
    show Stays (Const.binary sp op x .dependent) _
    rw [hopen]
    trivial
  rw [ha.known hx, hb.known hy]
  exact .refl _

end Stays

/-! ## Assignments -/

/-- **The levels put values where the first environment leaves names open.**  Of a name that they leave alone, the second
environment says what the first one does, if that is anything. -/
structure Fills (ls : ArgLevels) (env env' : String → Option Const) : Prop where
  opens : ∀ {n v}, ls.lookup? n = some (.value v) → env n = some .dependent
  keeps : ∀ {n}, ls.lookup? n = none → env n ≠ some .dependent → env' n = env n

variable {ls : ArgLevels} {env env' : String → Option Const}

theorem eval_name_stays (h : Fills ls env env') {sp : Span} {id : Ident} {r : Expr}
    (hr : Subst.name ls sp id = .ok r) : Stays (eval env (.name sp id)) (eval env' r) := by
  unfold Subst.name at hr
  split at hr
  · rename_i v hv
    rw [eval, h.opens hv]
    trivial
  · cases hr
  · rename_i hn
    cases hr
    by_cases hd : env id.name = some .dependent
    · rw [eval, hd]
      trivial
    · rw [eval, eval, h.keeps hn hd]
      exact .refl _

/-- **A constant stays as it was decided** when the names that were open are filled in. -/
theorem eval_stays (h : Fills ls env env') : ∀ {e r : Expr}, e.Unselected → Subst.expr ls e = .ok r →
    Stays (eval env e) (eval env' r)
  | .name sp id, r, _, hr => eval_name_stays h (by simpa only [Subst.expr] using hr)
  | .unary sp op e, r, he, hr => by
    simp only [Subst.expr, except_bind_ok, except_pure_ok] at hr
    obtain ⟨e', he', rfl⟩ := hr
    exact (eval_stays h (e := e) he he').unary sp op
  | .binary sp x op y, r, he, hr => by
    simp only [Subst.expr, except_bind_ok, except_pure_ok] at hr
    obtain ⟨x', hx, y', hy, rfl⟩ := hr
    exact (eval_stays h he.1 hx).binary sp op (eval_stays h he.2 hy)
  | .int _ _, r, _, hr | .bool _ _, r, _, hr | .char _ _, r, _, hr | .text _ _, r, _, hr => by
    cases hr
    exact .refl _
  | .list _ _, r, _, hr | .array _ _, r, _, hr | .record _ _ _, r, _, hr | .member _ _ _, r, _, hr => by
    simp only [Subst.expr, except_bind_ok, except_pure_ok] at hr
    obtain ⟨_, -, rfl⟩ := hr
    exact ⟨_, rfl⟩
  | .index _ _ _, r, _, hr | .call _ _ _ _, r, _, hr => by
    simp only [Subst.expr, except_bind_ok, except_pure_ok] at hr
    obtain ⟨_, -, _, -, rfl⟩ := hr
    exact ⟨_, rfl⟩

theorem subst_unselected : ∀ {e r : Expr}, e.Unselected → Subst.expr ls e = .ok r → r.Unselected
  | .name sp id, r, _, hr => by
    simp only [Subst.expr, Subst.name] at hr
    split at hr <;> cases hr <;> trivial
  | .unary sp op e, r, he, hr => by
    simp only [Subst.expr, except_bind_ok, except_pure_ok] at hr
    obtain ⟨e', he', rfl⟩ := hr
    exact subst_unselected (e := e) (r := e') he he'
  | .binary sp x op y, r, he, hr => by
    simp only [Subst.expr, except_bind_ok, except_pure_ok] at hr
    obtain ⟨x', hx, y', hy, rfl⟩ := hr
    exact ⟨subst_unselected he.1 hx, subst_unselected he.2 hy⟩
  | .int _ _, r, _, hr | .bool _ _, r, _, hr | .char _ _, r, _, hr | .text _ _, r, _, hr => by
    cases hr
    trivial
  | .list _ _, r, _, hr | .array _ _, r, _, hr | .record _ _ _, r, _, hr | .member _ _ _, r, _, hr => by
    simp only [Subst.expr, except_bind_ok, except_pure_ok] at hr
    obtain ⟨_, -, rfl⟩ := hr
    trivial
  | .index _ _ _, r, _, hr | .call _ _ _ _, r, _, hr => by
    simp only [Subst.expr, except_bind_ok, except_pure_ok] at hr
    obtain ⟨_, -, _, -, rfl⟩ := hr
    trivial

end Const

/-! ## What checking makes of a constant -/

namespace Const

theorem ofArith_int {sp : Span} {r : Except Arith.Fault Int} {c : Const} (h : ofArith sp r = .ok c) :
    ∃ v, c = .int v := by
  rcases r with f | v
  · cases f <;> cases h
  · cases h
    exact ⟨v, rfl⟩

theorem unary_open {sp : Span} {op : UnaryOp} {a c : Const} (hc : c ≠ .dependent) (h : unary sp op a = .ok c) :
    a ≠ .dependent := by
  rintro rfl
  cases h
  exact hc rfl

theorem binary_open {sp : Span} {op : BinOp} {a b c : Const} (hc : c ≠ .dependent) (h : binary sp op a b = .ok c) :
    a ≠ .dependent ∧ b ≠ .dependent := by
  constructor
  · rintro rfl
    cases h
    exact hc rfl
  · rintro rfl
    cases a <;> cases h <;> exact hc rfl

theorem unary_toOption (sp : Span) (op : UnaryOp) (env : String → Option Const) (e : Expr) :
    (eval env (.unary sp op e)).toOption = (eval env e).toOption.bind fun a => (unary sp op a).toOption := by
  rw [eval, toOption_bind]

theorem binary_toOption (sp : Span) (op : BinOp) (env : String → Option Const) (l r : Expr) :
    (eval env (.binary sp l op r)).toOption =
      (eval env l).toOption.bind fun a => (eval env r).toOption.bind fun b => (binary sp op a b).toOption := by
  simp only [eval, toOption_bind]

end Const

namespace Check

open CheckM Outcome

variable {deeper : Deeper} {s s' : Checker}

/-- The type of a constant. -/
def constType : Const → Ty
  | .int _ => .int
  | .bool _ => .bool
  | .dependent => .dependent

theorem unaryType_const {sp sp' : Span} {op : UnaryOp} {a c : Const} (hc : c ≠ .dependent)
    (h : Const.unary sp op a = .ok c) : unaryType sp' op (constType a) s = .ok (constType c) s := by
  cases a with
  | dependent =>
    cases h
    exact absurd rfl hc
  | int n =>
    cases op with
    | neg =>
      obtain ⟨v, rfl⟩ := Const.ofArith_int h
      rfl
    | not => cases h
  | bool b =>
    cases op with
    | neg => cases h
    | not =>
      cases h
      rfl

theorem binaryType_const {sp sp' : Span} {op : BinOp} {a b c : Const} (hc : c ≠ .dependent)
    (h : Const.binary sp op a b = .ok c) : binaryType sp' op (constType a) (constType b) s = .ok (constType c) s := by
  cases a with
  | dependent =>
    cases h
    exact absurd rfl hc
  | int m =>
    cases b with
    | dependent =>
      cases h
      exact absurd rfl hc
    | bool _ => cases h
    | int n =>
      cases op with
      | add | sub | mul | div | rem =>
        obtain ⟨v, rfl⟩ := Const.ofArith_int h
        rfl
      | eq | ne | lt | gt | le | ge =>
        cases h
        rfl
      | and | or => cases h
  | bool p =>
    cases b with
    | dependent =>
      cases h
      exact absurd rfl hc
    | int _ => cases h
    | bool q =>
      cases op with
      | and | or | eq | ne =>
        cases h
        rfl
      | add | sub | mul | div | rem | lt | gt | le | ge => cases h

/-- No name stands for a known constant in any place. -/
theorem constant?_open {n : String} {c : Const} (h : s.place.constant? n = some c) : c = .dependent := by
  unfold Place.constant? at h
  split at h
  · exact (Option.some.inj h).symm
  · cases h

/-- **A constant that is known in a place mentions no name**, so checking leaves it as it is. -/
theorem expr_known : ∀ {e : Expr} {c : Const}, Const.eval s.place.constant? e = .ok c → c ≠ .dependent →
    expr deeper e s = .ok (e, constType c) s
  | .int _ _, c, h, _ | .bool _ _, c, h, _ => by
    cases h
    rfl
  | .name sp id, c, h, hc => by
    simp only [Const.eval] at h
    split at h
    · rename_i hn
      cases h
      exact absurd (constant?_open hn) hc
    · cases h
  | .unary sp op e, c, h, hc => by
    simp only [Const.eval, except_bind_ok] at h
    obtain ⟨a, ha, hop⟩ := h
    have he := expr_known ha (Const.unary_open hc hop)
    simp only [expr, bind_ok, pure_ok]
    exact ⟨(e, constType a), s, he, constType c, s, unaryType_const hc hop, rfl, rfl⟩
  | .binary sp l op r, c, h, hc => by
    simp only [Const.eval, except_bind_ok] at h
    obtain ⟨a, ha, b, hb, hop⟩ := h
    have hl := expr_known ha (Const.binary_open hc hop).1
    have hr := expr_known hb (Const.binary_open hc hop).2
    simp only [expr, bind_ok, pure_ok]
    exact ⟨(l, constType a), s, hl, (r, constType b), s, hr, constType c, s, binaryType_const hc hop, rfl, rfl⟩
  | .char _ _, c, h, _ | .text _ _, c, h, _ | .list _ _, c, h, _ | .array _ _, c, h, _ | .record _ _ _, c, h, _
  | .member _ _ _, c, h, _ | .index _ _ _, c, h, _ | .call _ _ _ _, c, h, _ | .listSelect _ _ _, c, h, _
  | .memberSelect _ _ _ _, c, h, _ => by cases h

/-- **Checking changes no constant**, and makes none of what is not one. -/
theorem expr_constant (env : String → Option Const) : ∀ {e : Expr} {s s' : Checker} {r : Typed}, e.Unselected →
    expr deeper e s = .ok r s' → (Const.eval env r.1).toOption = (Const.eval env e).toOption
  | .name sp id, s, s', r, _, h => by
    obtain ⟨-, hr, -⟩ := nameExpr_ok (show nameExpr sp id s = .ok r s' from h)
    rw [hr]
  | .int _ _, s, s', r, _, h | .bool _ _, s, s', r, _, h | .char _ _, s, s', r, _, h | .text _ _, s, s', r, _, h => by
    cases h
    rfl
  | .list _ _, s, s', r, _, h => absurd h fail_ok
  | .array sp items, s, s', r, _, h => by
    obtain ⟨-, es, elem, -, rfl⟩ := expr_array_ok h
    rfl
  | .record _ _ _, s, s', r, _, h => by
    obtain ⟨t, record, u, es, -, -, -, rfl⟩ := expr_record_ok h
    rfl
  | .unary sp op e, s, s', r, he, h => by
    simp only [expr, bind_ok, pure_ok] at h
    obtain ⟨⟨e', t⟩, u, hx, _, _, _, rfl, rfl⟩ := h
    have hsame := expr_constant env (e := e) he hx
    rw [Const.unary_toOption, Const.unary_toOption, hsame]
  | .binary sp l op r, s, s', x, he, h => by
    simp only [expr, bind_ok, pure_ok] at h
    obtain ⟨⟨l', lt⟩, u, hl, ⟨r', rt⟩, v, hr, _, _, _, rfl, rfl⟩ := h
    have hleft := expr_constant env he.1 hl
    have hright := expr_constant env he.2 hr
    rw [Const.binary_toOption, Const.binary_toOption, hleft, hright]
  | .member _ _ _, s, s', r, _, h => by
    simp only [expr, bind_ok] at h
    obtain ⟨⟨b, t⟩, u, -, h⟩ := h
    obtain ⟨t', -, rfl⟩ := memberAccess_ok h
    rfl
  | .index _ _ _, s, s', r, _, h => by
    simp only [expr, bind_ok] at h
    obtain ⟨b, u, -, i, v, -, h⟩ := h
    obtain ⟨-, -, hr, -⟩ := elementAccess_ok h
    rw [hr]
    rfl
  | .call _ _ _ _, s, s', r, _, h => by
    obtain ⟨es, ts, u, -, -, ⟨-, hcall⟩ | ⟨-, hcall⟩⟩ := expr_call_ok h
    · obtain ⟨-, t, -, hr, -⟩ := builtinCall_ok hcall
      rw [hr]
      rfl
    · obtain ⟨-, -, -, -, rfl⟩ | ⟨-, -, -, -, -, -, ⟨-, -, -, -, -, -, -, -, -, -, rfl⟩ | ⟨-, -, rfl⟩⟩ :=
        cellCall_ok hcall <;> rfl

end Check

/-! ## Instances -/

/-- The argument is of the sort that the parameter accepts. -/
def ParamDecl.Takes (p : ParamDecl) (a : TemplateArg) : Prop :=
  match p.sort, a with
  | .type _, .type _ => True
  | .const, .value _ => True
  | _, _ => False

/-- **The second place is in an instance of a template that encloses the first one.**  The template's value parameters are
open in the first place. -/
structure Place.Filled (level : ParamLevel) (args : List TemplateArg) (p q : Place) : Prop where
  stack : ∃ inner outer, p.templates = inner ++ level :: outer ∧ q.templates = inner ++ outer
  takes : List.Forall₂ ParamDecl.Takes level.params args
  opens : ∀ d ∈ level.params, d.sort = .const → p.constant? d.name = some .dependent

namespace Place.Filled

variable {level : ParamLevel} {args : List TemplateArg} {p q : Place}

theorem value_const (h : p.Filled level args q) {n : String} {v : Int}
    (hv : (level.names.idxOf? n).bind (args[·]?) = some (.value v)) :
    ∃ d ∈ level.params, d.name = n ∧ d.sort = .const := by
  obtain ⟨i, hi, ha⟩ := Option.bind_eq_some_iff.1 hv
  obtain ⟨hlt, hname, -⟩ := List.idxOf?_eq_some_iff.1 hi
  obtain ⟨hia, ha⟩ := List.getElem?_eq_some_iff.1 ha
  have hip : i < level.params.length := by simpa [ParamLevel.names] using hlt
  have htakes := h.takes.get hip hia
  refine ⟨level.params[i], List.getElem_mem hip, by simpa [ParamLevel.names] using hname, ?_⟩
  simp only [List.get_eq_getElem, ha] at htakes
  unfold ParamDecl.Takes at htakes
  cases hs : level.params[i].sort with
  | const => rfl
  | type b =>
    rw [hs] at htakes
    exact htakes.elim

/-- A name that is not one of the template's parameters means the same in both places. -/
theorem param?_eq (h : p.Filled level args q) {n : String} (hn : n ∉ level.names) : q.param? n = p.param? n := by
  obtain ⟨inner, outer, hp, hq⟩ := h.stack
  have hlevel : level.find? n = none := by
    refine List.find?_eq_none.2 fun d hd hdn => hn ?_
    exact List.mem_map.2 ⟨d, hd, by simpa using hdn⟩
  unfold Place.param?
  rw [hp, hq, List.findSome?_append, List.findSome?_append, List.findSome?_cons, hlevel]

theorem fills (h : p.Filled level args q) (k : Nat) :
    Const.Fills ((ArgLevels.retaining k).bind level.names args) p.constant? q.constant? where
  opens := fun hv => by
    rw [ArgLevels.lookup?_retaining_bind] at hv
    obtain ⟨d, hd, rfl, hsort⟩ := h.value_const hv
    exact h.opens d hd hsort
  keeps := fun {n} hn _ => by
    rw [ArgLevels.lookup?_retaining_bind] at hn
    have hlen : args.length = level.names.length := by simp [ParamLevel.names, h.takes.length_eq]
    have hfree : n ∉ level.names := by
      intro hmem
      obtain ⟨a, ha⟩ := level_some hlen hmem
      rw [ha] at hn
      cases hn
    unfold Place.constant?
    rw [h.param?_eq hfree]

end Place.Filled

namespace Check

open CheckM Outcome

variable {deeper : Deeper} {s t : Checker}

/-! ## Lengths, arguments and assertions -/

theorem const_run (e : Expr) : const e s =
    match Const.eval s.place.constant? e with
    | .ok c => .ok c s
    | .error d => .error d s := by
  show (ofExcept (Const.eval s.place.constant? e) : CheckM Const) s = _
  cases Const.eval s.place.constant? e <;> rfl

theorem length_run (elem : Ty) (e : Expr) : length elem e s =
    match Const.eval s.place.constant? e with
    | .ok (.int n) => if 0 ≤ n then .ok (.array elem (some n.toNat)) s else .error (.of .lengthNegative e.span) s
    | .ok .dependent => .ok (.array elem none) s
    | .ok (.bool _) => .error (.of .lengthNotInt e.span) s
    | .error d => .error d s := by
  have hc := const_run (s := s) e
  show EStateM.bind (const e) _ s = _
  unfold EStateM.bind
  rw [hc]
  rcases Const.eval s.place.constant? e with d | ⟨n | b | _⟩
  · rfl
  · by_cases hn : 0 ≤ n <;> simp only [hn, if_true, if_false] <;> rfl
  · rfl
  · rfl

theorem valueArg_run (p : ParamDecl) (e : Expr) : valueArg p e s =
    match Const.eval s.place.constant? e with
    | .ok (.int v) => .ok (some (.value v)) s
    | .ok .dependent => .ok none s
    | .ok (.bool _) => .error (.of (.intArgExpected p.name) e.span) s
    | .error d => .error d s := by
  have hc := const_run (s := s) e
  show EStateM.bind (const e) _ s = _
  unfold EStateM.bind
  rw [hc]
  rcases Const.eval s.place.constant? e with d | ⟨n | b | _⟩ <;> rfl

/-- How an assertion ends that is decided. -/
def assertionEnd (holds : Bool) (sp place : Span) (checked : Expr) (s : Checker) : EStateM.Result Diagnostic Checker Stmt :=
  if holds then .ok (.assert sp checked) s else .error (.of .assertionFails place) s

theorem assertion_run {sp : Span} {e checked : Expr} {u : Checker}
    (h : condition deeper .assertion e s = .ok checked u) : assertion deeper sp e s =
      match Const.eval u.place.constant? checked with
      | .ok (.bool false) => .error (.of .assertionFails e.span) u
      | _ => .ok (.assert sp checked) u := by
  unfold assertion
  rw [bind_of_ok h]
  show (match Const.eval u.place.constant? checked with
    | .ok (.bool false) => (fail .assertionFails e.span : CheckM Stmt)
    | _ => pure (.assert sp checked)) u = _
  generalize Const.eval u.place.constant? checked = value
  split <;> rfl

theorem assertion_decided {sp : Span} {e checked : Expr} {u : Checker} {b : Bool}
    (h : condition deeper .assertion e s = .ok checked u)
    (hb : Const.eval u.place.constant? checked = .ok (.bool b)) :
    assertion deeper sp e s = assertionEnd b sp e.span checked u := by
  rw [assertion_run h, hb]
  cases b <;> rfl

/-- **What the one expression decides in the first state, the other one decides in the second.** -/
structure Decides (s t : Checker) (e r : Expr) : Prop where
  length : ∀ {elem : Ty} {n : Nat}, Check.length elem e s = .ok (.array elem (some n)) s →
    ∀ elem', Check.length elem' r t = .ok (.array elem' (some n)) t
  lengthFails : ∀ {elem : Ty} {d : Diagnostic}, Check.length elem e s = .error d s →
    ∀ elem', ∃ d', Check.length elem' r t = .error d' t
  arg : ∀ {p : ParamDecl} {a : TemplateArg}, valueArg p e s = .ok (some a) s → valueArg p r t = .ok (some a) t
  argFails : ∀ {p : ParamDecl} {d : Diagnostic}, valueArg p e s = .error d s → ∃ d', valueArg p r t = .error d' t
  asserts : ∀ {n : Nat} {sp : Span} {x : Expr} {before : Checker} {b : Bool},
    condition (levels n) .assertion x before = .ok e s → Const.eval s.place.constant? e = .ok (.bool b) →
      assertion (levels n) sp x before = assertionEnd b sp x.span e s ∧
        ∀ m sp', assertion (levels m) sp' r t = assertionEnd b sp' r.span r t
  undecided : ∀ {d : Diagnostic}, Const.eval s.place.constant? e = .error d → ∀ (m : Nat) (sp : Span),
    assertion (levels m) sp r t = (do return Stmt.assert sp (← condition (levels m) .assertion r)) t

theorem condition_known {what : Condition} {e : Expr} {b : Bool} (h : Const.eval s.place.constant? e = .ok (.bool b)) :
    condition deeper what e s = .ok e s := by
  have he : expr deeper e s = .ok (e, constType (.bool b)) s := expr_known h (by simp)
  unfold condition
  rw [bind_of_ok he]
  rfl

/-- An assertion that is in error as a constant is left to the run. -/
theorem assertion_undecided {n : Nat} {e : Expr} {d : Diagnostic} (he : e.Unselected)
    (h : Const.eval s.place.constant? e = .error d) (sp : Span) :
    assertion (levels n) sp e s = (do return Stmt.assert sp (← condition (levels n) .assertion e)) s := by
  cases hc : condition (levels n) .assertion e s with
  | error d' u =>
    have hleft : assertion (levels n) sp e s = .error d' u := by
      unfold assertion
      exact bind_error.2 (.inl hc)
    rw [hleft]
    exact (bind_error.2 (.inl hc)).symm
  | ok checked u =>
    obtain ⟨t, hx, -⟩ := condition_ok hc
    have hplace : u.place = s.place := (expr_steady (levels_orderly n) hx).2
    have hnone : (Const.eval u.place.constant? checked).toOption = none := by
      rw [hplace, expr_constant s.place.constant? he hx, h]
      rfl
    rw [assertion_run hc, bind_of_ok hc]
    cases hv : Const.eval u.place.constant? checked with
    | error _ => rfl
    | ok c =>
      rw [hv] at hnone
      cases hnone

theorem decides_of_stays {e r : Expr} (hr : r.Unselected)
    (h : Const.Stays (Const.eval s.place.constant? e) (Const.eval t.place.constant? r)) : Decides s t e r where
  length := fun hl elem' => by
    obtain ⟨-, ⟨v, hv, he, hlen⟩ | ⟨-, hlen⟩⟩ := length_ok hl
    · rw [he] at h
      cases hlen
      rw [length_run, h.known (by simp)]
      simp only [hv, if_true]
    · cases hlen
  lengthFails := fun {elem d} hl elem' => by
    rw [length_run] at hl ⊢
    rcases hs : Const.eval s.place.constant? e with d₀ | ⟨n | b | _⟩ <;> rw [hs] at h hl
    · obtain ⟨d', hd⟩ := h.error
      exact ⟨d', by rw [hd]⟩
    · by_cases hn : 0 ≤ n
      · simp only [hn, if_true] at hl
        cases hl
      · rw [h.known (by simp)]
        simp only [hn, if_false]
        exact ⟨_, rfl⟩
    · rw [h.known (by simp)]
      exact ⟨_, rfl⟩
    · cases hl
  arg := fun hl => by
    obtain ⟨-, ⟨v, he, ha⟩ | ⟨-, ha⟩⟩ := valueArg_ok hl
    · rw [he] at h
      rw [valueArg_run, h.known (by simp), ha]
    · cases ha
  argFails := fun {p d} hl => by
    rw [valueArg_run] at hl ⊢
    rcases hs : Const.eval s.place.constant? e with d₀ | ⟨n | b | _⟩ <;> rw [hs] at h hl
    · obtain ⟨d', hd⟩ := h.error
      exact ⟨d', by rw [hd]⟩
    · cases hl
    · rw [h.known (by simp)]
      exact ⟨_, rfl⟩
    · cases hl
  asserts := fun hx hb => by
    refine ⟨assertion_decided hx hb, fun m sp' => ?_⟩
    rw [hb] at h
    have hr := h.known (by simp)
    exact assertion_decided (condition_known hr) hr
  undecided := fun he m sp => by
    rw [he] at h
    obtain ⟨d', hd⟩ := h.error
    exact assertion_undecided hr hd sp

/-- **What a template decides, its instances decide in the same way.**  A constant that was known is known to be the same,
and one that was in error is in error again; so are lengths and arguments, and an assertion that held or failed as a
constant does so wherever the template's parameters have been filled in. -/
theorem decided_stays {e r : Expr} (he : e.Unselected) :
    (∀ {ls env env'}, Const.Fills ls env env' → Subst.expr ls e = .ok r →
        Const.Stays (Const.eval env e) (Const.eval env' r)) ∧
      ∀ {level args k} {s t : Checker}, s.place.Filled level args t.place →
        Subst.expr ((ArgLevels.retaining k).bind level.names args) e = .ok r → Decides s t e r :=
  ⟨fun h hr => Const.eval_stays h he hr, fun {_ _ k} _ _ h hr =>
    decides_of_stays (Const.subst_unselected he hr) (Const.eval_stays (h.fills k) he hr)⟩

/-- The one level of a template with a value parameter `N`. -/
def sized : ParamLevel := ⟨0, [⟨"N", .const⟩]⟩

/-- `N - 1 / 0`, with what stands for `N`. -/
def reduced (count : Expr) : Expr := .binary nowhere count .sub (.binary nowhere (.int nowhere 1) .div (.int nowhere 0))

/-- Before `N` is known this is in error, though its left operand is open; so it is as a length where `N` is three. -/
theorem decided_stays_division :
    (∃ d, Const.eval (fun _ => none) (reduced (.int nowhere 3)) = .error d) ∧
      ∃ d, length .int (reduced (.int nowhere 3)) (.new .standard) = .error d (.new .standard) := by
  have hfilled : ((Checker.new .standard).onPlace (.pushTemplate sized)).place.Filled sized [.value 3]
      (Checker.new .standard).place :=
    ⟨⟨[], [], rfl, rfl⟩, .cons trivial .nil, by decide⟩
  obtain ⟨heval, hchecked⟩ := decided_stays (e := reduced (.name nowhere (bareName "N"))) (r := reduced (.int nowhere 3))
    ⟨trivial, trivial, trivial⟩
  obtain ⟨d, hbefore⟩ : ∃ d, length .int (reduced (.name nowhere (bareName "N")))
      ((Checker.new .standard).onPlace (.pushTemplate sized)) =
        .error d ((Checker.new .standard).onPlace (.pushTemplate sized)) := ⟨_, rfl⟩
  exact ⟨heval (hfilled.fills 0) rfl, (hchecked (k := 0) hfilled rfl).lengthFails hbefore .int⟩

end Check

end Unroll
