import Unroll.Proofs.Check.InStepExpr
import Unroll.Proofs.Check.TypedStmt
/-!
# Statements and cells in step

What is checked keeps its names, in templates and in copies, so that the two checks give the same statement.  A cell that
goes on after an error does so in both.
-/
namespace Unroll
namespace Check

open CheckM Outcome Checker

variable {ρ : Renaming} {d : Deeper}

/-! ## Declarations -/

theorem declaredTypes_inStep (hd : d.InStep ρ) {t : Option TypeRef} (ht : TypeRef.Unchanged? ρ t) :
    InStep ρ (fun r r' => r' = r.map (Ty.renamed ρ)) (t.mapM (typeRef d)) (t.mapM (typeRef d)) := by
  cases t with
  | none =>
    rw [Option.mapM_none]
    exact .pure rfl
  | some w =>
    rw [Option.mapM_some]
    refine .map (typeRef_fixed hd (ht w rfl)) fun h => ?_
    subst h
    rfl

theorem initialValue_inStep (hd : d.InStep ρ) (declared : Option Ty) {e : Expr} (he : e.renamed ρ = e) :
    InStep ρ (TypedLike ρ) (initialValue d declared e) (initialValue d (declared.map (Ty.renamed ρ)) e) := by
  by_cases hempty : ∃ sp elem, e = .array sp [] ∧ declared = some (.array elem (some 0))
  · obtain ⟨sp, elem, rfl, rfl⟩ := hempty
    exact .pure ⟨rfl, rfl⟩
  · have hsame : ∀ {t : Option Ty}, (¬ ∃ sp elem, e = .array sp [] ∧ t = some (.array elem (some 0))) →
        initialValue d t e = expr d e := by
      intro t ht
      unfold initialValue
      split
      · exact absurd ⟨_, _, rfl, rfl⟩ ht
      · rfl
    have hempty' : ¬ ∃ sp elem, e = .array sp [] ∧ declared.map (Ty.renamed ρ) = some (.array elem (some 0)) := by
      rintro ⟨sp, elem, rfl, ht⟩
      obtain ⟨t, rfl, hr⟩ := Option.map_eq_some_iff.1 ht
      cases t with
      | array elem' n =>
        obtain ⟨-, rfl⟩ := Ty.array.inj hr
        exact hempty ⟨sp, elem', rfl, rfl⟩
      | _ => cases hr
    rw [hsame hempty, hsame hempty']
    exact expr_inStep hd e he

theorem declaredType_inStep (declared : Option Ty) (actual : Ty) (p : Span) :
    InStep ρ (fun a b => b = a.renamed ρ) (declaredType declared actual p)
      (declaredType (declared.map (Ty.renamed ρ)) (actual.renamed ρ) p) := by
  cases declared with
  | none => exact .pure rfl
  | some expected => exact .bind (checkAssignable_inStep expected actual p) fun _ => .pure rfl

theorem valDecl_inStep (hd : d.InStep ρ) {v : ValDecl} (hv : v.Unchanged ρ) :
    InStep ρ (fun r r' => r' = r ∧ r.Unchanged ρ) (valDecl d v) (valDecl d v) := by
  refine .bind (declaredTypes_inStep hd hv.type) fun {declared declared'} h => ?_
  subst h
  refine .bind (initialValue_inStep hd declared hv.expr) fun {r r'} h => ?_
  obtain ⟨rfl, hr⟩ := h
  refine .bind (declaredType_inStep declared r.2 v.expr.span) fun {t t'} h => ?_
  subst h
  exact .bind (defineVal_inStep v.name t v.mutable) fun _ => .pure ⟨rfl, hv.type, hr⟩

theorem initStmt_inStep (hd : d.InStep ρ) : ∀ {i : Option Init}, Init.Unchanged ρ i →
    InStep ρ (fun r r' => r' = r ∧ Init.Unchanged ρ r) (initStmt d i) (initStmt d i)
  | none, _ => .pure ⟨rfl, trivial⟩
  | some (.val v), hi => by
    refine .bind (valDecl_inStep hd hi) fun h => .pure ?_
    obtain ⟨rfl, hr⟩ := h
    exact ⟨rfl, hr⟩
  | some (.expr e), hi => by
    refine .bind (expr_inStep hd e hi) fun h => .pure ?_
    obtain ⟨rfl, hr⟩ := h
    exact ⟨rfl, hr⟩

/-! ## Ranges -/

theorem rangeExpr_inStep (hd : d.InStep ρ) {e : Expr} (he : e.renamed ρ = e) :
    InStep ρ (TypedLike ρ) (rangeExpr d e) (rangeExpr d e) := by
  cases e with
  | list sp items =>
    simp only [Expr.renamed, Expr.list.injEq, true_and] at he
    refine .bind (exprs_inStep hd items he) fun {r r'} h => .pure ?_
    obtain ⟨rfl, hr⟩ := h
    exact ⟨by rw [Ty.renamed, Ty.allRenamed_eq], by rw [Expr.renamed, hr]⟩
  | _ => exact expr_inStep hd _ he

variable (ρ) in
def Walk.renamed : Walk → Walk
  | .array n elem => .array n (elem.renamed ρ)
  | .list ts => .list (ts.map (Ty.renamed ρ))
  | .members r ms => .members (ρ.name r) ms
  | .dependent => .dependent

theorem Walk.renamed_count? (w : Walk) : (w.renamed ρ).count? = w.count? := by
  cases w with
  | list ts => exact congrArg some (List.length_map _)
  | _ => rfl

theorem Walk.renamed_needsBinding (w : Walk) : (w.renamed ρ).needsBinding = w.needsBinding := by cases w <;> rfl

theorem selector_renamed (w : Walk) (range base index : Expr) :
    selector (w.renamed ρ) range base index = selector w range base index := by cases w <;> rfl

theorem isAccessible_renamed (r : RecordInfo) (m : String) : isAccessible (r.renamed ρ) m = isAccessible r m := by
  unfold isAccessible
  rw [field?_renamed]
  cases r.field? m <;> rfl

theorem walkOf_renamed {s t : Checker} (h : SameUpTo ρ s t) (sp : Span) (ty : Ty) :
    (walkOf t sp (ty.renamed ρ)).toOption = (walkOf s sp ty).toOption.map (Walk.renamed ρ) := by
  cases ty with
  | list ts => exact congrArg (fun us => some (Walk.list us)) (Ty.allRenamed_eq ts)
  | array elem n => cases n <;> rfl
  | record n =>
    have hr : t.record? (.record (ρ.name n)) = (s.record? (.record n)).map (RecordInfo.renamed ρ) := h.record? (.record n)
    simp only [walkOf, Ty.renamed, hr]
    cases s.record? (.record n) with
    | none => rfl
    | some r =>
      have hfind : (r.renamed ρ).fields.find? (fun f => !isAccessiblePath t (r.renamed ρ) [f.name]) =
          (r.fields.find? fun f => !isAccessiblePath s r [f.name]).map (FieldInfo.renamed ρ) := by
        show (r.fields.map _).find? (fun f : FieldInfo => !isAccessible (r.renamed ρ) f.name) = _
        rw [List.find?_map]
        simp only [isAccessible_renamed]
        rfl
      have hmembers : ((r.renamed ρ).fields.map fun f => (⟨f.name, sp⟩ : Ident)) =
          r.fields.map fun f => ⟨f.name, sp⟩ := by
        show (r.fields.map _).map _ = _
        rw [List.map_map]
        rfl
      simp only [Option.map_some, hfind, hmembers]
      cases r.fields.find? fun f => !isAccessiblePath s r [f.name] <;> rfl
  | _ => rfl

/-! ## Expansions -/

/-- An open expansion whose head has kept its names; of its type the second one has another. -/
structure PendingLike (ρ : Renaming) (p p' : Pending) : Prop where
  same : p' = { p with rangeType := p.rangeType.renamed ρ }
  init : Init.Unchanged ρ p.init
  var : TypeRef.Unchanged? ρ p.var.type
  range : p.range.renamed ρ = p.range
  index : ρ.name p.index.name = p.index.name

theorem pointed_fixed {prefix_ : String} (hp : '\'' ∉ prefix_.toList) (n : Nat) :
    ρ.name (prefix_ ++ toString n) = prefix_ ++ toString n := by
  refine ρ.plain fun hq => ?_
  rw [String.toList_append, toString_toList] at hq
  exact (List.mem_append.1 hq).elim hp (quote_notMem_digits n)

theorem renamed_pushScope (p : Place) : p.pushScope.renamed ρ = (p.renamed ρ).pushScope := rfl

theorem renamed_enterLocal (p : Place) : p.enterLocal.renamed ρ = (p.renamed ρ).enterLocal := by
  unfold Place.enterLocal
  rw [Place.renamed_mark]
  rfl

theorem beginExpansion_inStep (hd : d.InStep ρ) {x : Expansion} (hi : Init.Unchanged ρ x.init)
    (hv : TypeRef.Unchanged? ρ x.var.type) (hr : x.range.renamed ρ = x.range) :
    InStep ρ (PendingLike ρ) (beginExpansion d x) (beginExpansion d x) := by
  refine .bind .place fun {p q} hpq => ?_
  obtain ⟨rfl, -⟩ := hpq
  have hindex : IndexParam.make (p.renamed ρ) x.depth x.keyword = IndexParam.make p x.depth x.keyword := rfl
  refine .bind (.onPlace renamed_pushScope fun h => h.pushScope) fun _ => ?_
  rw [hindex, Place.renamed_mark]
  refine .tryCatch ?_ fun e e' => ?_
  · refine .bind (initStmt_inStep hd hi) fun {i i'} h => ?_
    obtain ⟨rfl, hi⟩ := h
    refine .bind (rangeExpr_inStep hd hr) fun {r r'} h => .pure ?_
    obtain ⟨rfl, hr⟩ := h
    exact ⟨rfl, hi, hv, hr, pointed_fixed (by decide) _⟩
  · exact .bind (.onPlace (fun q => Place.renamed_restore _) fun h => h.restore _) fun _ => .throw _ _

theorem mapM_inStep (hd : d.InStep ρ) : ∀ {xs : List Stmt}, Stmt.AllUnchanged ρ xs →
    InStep ρ (fun r r' => r' = r) (xs.mapM d.stmt) (xs.mapM d.stmt)
  | [], _ => by
    rw [List.mapM_nil]
    exact .pure rfl
  | x :: xs, h => by
    rw [List.mapM_cons]
    refine .bind (hd.stmt h.1) fun hr => .bind (mapM_inStep hd h.2) fun hrs => .pure ?_
    obtain ⟨rfl, -⟩ := hr
    subst hrs
    rfl

theorem instantiateBlock_inStep (hd : d.InStep ρ) {unit : Block} {ls : ArgLevels} (hls : Subst.Steady ρ ls)
    (hu : unit.Unchanged ρ) (f : Frame) :
    InStep ρ (fun r r' => r' = r) (instantiateBlock d unit ls f) (instantiateBlock d unit ls f) := by
  refine .within _ _ ?_
  refine .bind (.onPlace renamed_enterLocal fun h => ?_) fun _ => ?_
  · exact ⟨h.pushScope.types, h.templates⟩
  refine .bind (.onPlace (fun _ => rfl) fun h => ⟨h.types, h.templates⟩) fun _ => ?_
  refine .always (V := fun r r' => r' = r) ?_ fun hst => hst.onPlace_self (fun _ => Place.renamed_exitLocal) fun h => h.exitLocal
  cases hb : Subst.block ls unit with
  | error e => exact fun _ _ hst => hst
  | ok b =>
    have hsame : InStep ρ (fun r r' : Block => r' = r ∧ r.Unchanged ρ) (ofExcept (.ok b)) (ofExcept (.ok b)) :=
      .pure ⟨rfl, Subst.block_unchanged hls hu hb⟩
    refine .bind hsame fun {r r'} h => ?_
    obtain ⟨rfl, hr⟩ := h
    obtain ⟨sp, ss⟩ := r'
    refine .bind (mapM_inStep hd hr) fun h => .pure ?_
    rw [h]

theorem copyArgs_steady {index : IndexParam} (h : ρ.name index.name = index.name) (i : Nat) :
    Subst.Steady ρ (copyArgs index i) := by
  refine ⟨?_, fun n a hn => ?_⟩
  · simp [copyArgs, ArgLevels.renamed, ArgLevels.bind, ArgLevels.retaining, ArgLevel.renamed, TemplateArg.renamed]
  · rw [copyArgs_lookup] at hn
    split at hn
    · rename_i heq
      exact heq ▸ h
    · cases hn

theorem copyAt_inStep (hd : d.InStep ρ) {template : Block} (ht : template.Unchanged ρ) {index : IndexParam}
    (hidx : ρ.name index.name = index.name) (keyword : Span) (i : Nat) :
    InStep ρ (fun r r' => r' = r) (copyAt d template index keyword i) (copyAt d template index keyword i) := by
  have hbody := instantiateBlock_inStep hd (copyArgs_steady hidx i) ht ⟨.copy index.depth i, keyword⟩
  refine .bind (.tryCatch hbody fun _ _ => .throw _ _) fun {b b'} h => ?_
  subst h
  split
  · exact .bind (.modify fun _ _ hst => hst.addEvent _ _) fun _ => .pure rfl
  · exact .pure rfl

theorem copiesFrom_inStep {copy : Nat → CheckM Copy} (h : ∀ i, InStep ρ (fun r r' => r' = r) (copy i) (copy i)) :
    ∀ left i : Nat, InStep ρ (fun r r' => r' = r) (copiesFrom copy left i) (copiesFrom copy left i)
  | 0, _ => .pure rfl
  | left + 1, i => by
    refine .bind (h i) fun hc => .bind (copiesFrom_inStep h left (i + 1)) fun hcs => .pure ?_
    subst hc hcs
    rfl

theorem checkSize_inStep (keyword : Span) (count : Option Nat) :
    InStep ρ (fun _ _ => True) (checkSize keyword count) (checkSize keyword count) := by
  refine .bind .get fun {s t} hst => ?_
  rw [hst.config]
  cases count with
  | none => exact .pure trivial
  | some n =>
    dsimp only
    split
    · exact .fail _ _ _ _
    · exact .pure trivial

theorem bindRange_inStep (p : Pending) (w : Walk) :
    InStep ρ (fun _ _ => True) (bindRange p w) (bindRange { p with rangeType := p.rangeType.renamed ρ } (w.renamed ρ)) := by
  unfold bindRange
  rw [Walk.renamed_needsBinding]
  split
  · exact defineVal_inStep _ p.rangeType false
  · exact .pure trivial

theorem loopDecl_renamed (p : Pending) (w : Walk) :
    loopDecl { p with rangeType := p.rangeType.renamed ρ } (w.renamed ρ) = loopDecl p w := by
  unfold loopDecl rangeBase rangeBinding
  rw [selector_renamed, Walk.renamed_needsBinding]

theorem loopDecl_unchanged {p p' : Pending} (h : PendingLike ρ p p') (w : Walk) : (loopDecl p w).Unchanged ρ := by
  refine ⟨h.var, ?_⟩
  have hbase : (rangeBase p w).renamed ρ = rangeBase p w := by
    unfold rangeBase
    split
    · rfl
    · exact h.range
  show (selector w p.range (rangeBase p w) p.index.reference).renamed ρ = _
  cases w with
  | list ts => exact congrArg (Expr.listSelect _ · _) h.range
  | members r ms => exact congrArg (Expr.memberSelect _ · ms _) hbase
  | array n elem => exact congrArg (Expr.index _ · _) hbase
  | dependent => exact congrArg (Expr.index _ · _) hbase

theorem templateOf_inStep (hd : d.InStep ρ) {p p' : Pending} (h : PendingLike ρ p p') (w : Walk)
    {body : CheckM (List Stmt)} (hb : InStep ρ (fun r r' => r' = r ∧ Stmt.AllUnchanged ρ r) body body) :
    InStep ρ (fun r r' => r' = r ∧ r.1.Unchanged ρ ∧ Stmt.AllUnchanged ρ r.2) (templateOf d p w body)
      (templateOf d p' (w.renamed ρ) body) := by
  obtain rfl := h.same
  unfold templateOf
  rw [loopDecl_renamed]
  refine .inScope (.bind (.onPlace (fun _ => rfl) fun hq => ?_) fun _ => ?_)
  · refine ⟨hq.pushScope.types, (hq.pushTemplate ?_).templates⟩
    exact Renaming.fixes_cons.2 ⟨h.index, Renaming.fixes_nil⟩
  · refine .bind (valDecl_inStep hd (loopDecl_unchanged h w)) fun hv => .bind hb fun hs => .pure ?_
    obtain ⟨rfl, hv⟩ := hv
    obtain ⟨rfl, hs⟩ := hs
    exact ⟨rfl, hv, hs⟩

theorem unrolling_inStep (hd : d.InStep ρ) {p p' : Pending} (h : PendingLike ρ p p') (w : Walk) {template : Block}
    (ht : template.Unchanged ρ) :
    InStep ρ (fun r r' => r' = r) (unrolling d p w template) (unrolling d p' (w.renamed ρ) template) := by
  obtain rfl := h.same
  have hbinding : bindingFor { p with rangeType := p.rangeType.renamed ρ } (w.renamed ρ) = bindingFor p w := by
    unfold bindingFor rangeBinding
    rw [Walk.renamed_needsBinding]
  unfold unrolling
  rw [Walk.renamed_count?, hbinding]
  split
  · exact .pure rfl
  · exact .pure rfl
  · refine .bind (copiesFrom_inStep (copyAt_inStep hd ht h.index p.keyword) _ _) fun hcs => .pure ?_
    rw [hcs]

theorem finishExpansion_inStep (hd : d.InStep ρ) {p p' : Pending} (h : PendingLike ρ p p') (sp : Span)
    {body : CheckM (List Stmt)} (hb : InStep ρ (fun r r' => r' = r ∧ Stmt.AllUnchanged ρ r) body body) :
    InStep ρ (fun r r' => r' = r ∧ r.Unchanged ρ) (finishExpansion d p sp body) (finishExpansion d p' sp body) := by
  have hrange := h.same
  refine .always ?_ fun hst => ?_
  · refine .bind .get fun {s t} hst => ?_
    have hwalk := walkOf_renamed hst p.range.span p.rangeType
    refine .bind (.ofExcept (f := Walk.renamed ρ) (by rw [hrange]; exact hwalk)) fun {w w'} hw => ?_
    subst hw
    rw [show p'.keyword = p.keyword by rw [hrange], Walk.renamed_count?]
    refine .bind (checkSize_inStep p.keyword w.count?) fun _ => ?_
    refine .bind (by rw [hrange]; exact bindRange_inStep p w) fun _ => ?_
    refine .bind (templateOf_inStep hd h w hb) fun {r r'} hr => ?_
    obtain ⟨rfl, hvar, hstmts⟩ := hr
    have htemplate : Block.Unchanged ρ ⟨sp, .val r'.1 :: r'.2⟩ := ⟨hvar, hstmts⟩
    refine .bind (unrolling_inStep hd h w htemplate) fun hstate => .pure ?_
    subst hstate hrange
    exact ⟨rfl, h.init, h.var, h.range, hstmts⟩
  · rw [show p'.mark = p.mark by rw [hrange]]
    exact hst.onPlace_self (fun q => Place.renamed_restore _) fun hq => hq.restore _

/-! ## Statements -/

theorem condition_inStep (hd : d.InStep ρ) (what : Condition) {e : Expr} (he : e.renamed ρ = e) :
    InStep ρ (fun r r' => r' = r ∧ r.renamed ρ = r) (condition d what e) (condition d what e) := by
  refine .bind (expr_inStep hd e he) fun {r r'} h => ?_
  obtain ⟨rfl, hr⟩ := h
  have hbool : r.2.renamed ρ = .bool ↔ r.2 = .bool := Ty.renamed_eq_iff (u := .bool)
  simp only [hbool, Ty.renamed_isUnknown]
  split
  · exact .pure ⟨rfl, hr⟩
  · exact .fail _ _ _ _

theorem assignment_inStep (hd : d.InStep ρ) (sp : Span) (target : Ident) {e : Expr} (he : e.renamed ρ = e) :
    InStep ρ (fun r r' => r' = r ∧ r.Unchanged ρ) (assignment d sp target e) (assignment d sp target e) := by
  refine .bind .place fun {p q} hpq => ?_
  obtain ⟨rfl, -⟩ := hpq
  rw [Place.renamed_val?]
  cases p.val? target.name with
  | none => exact .fail _ _ _ _
  | some v =>
    refine .guard rfl fun _ => .bind (expr_inStep hd e he) fun {r r'} h => ?_
    obtain ⟨rfl, hr⟩ := h
    exact .bind (checkAssignable_inStep v.type r.2 e.span) fun _ => .pure ⟨rfl, hr⟩

theorem renamed_ret (p : Place) : (p.renamed ρ).rets.headD .unit = (p.rets.headD .unit).renamed ρ := by
  show (p.rets.map _).headD _ = _
  cases p.rets <;> rfl

theorem giveBack_inStep (hd : d.InStep ρ) (sp : Span) {e : Option Expr} (he : ∀ x, e = some x → x.renamed ρ = x) :
    InStep ρ (fun r r' => r' = r ∧ r.Unchanged ρ) (giveBack d sp e) (giveBack d sp e) := by
  refine .bind .place fun {p q} hpq => ?_
  obtain ⟨rfl, -⟩ := hpq
  rw [renamed_ret]
  cases e with
  | some e =>
    refine .bind (expr_inStep hd e (he e rfl)) fun {r r'} h => ?_
    obtain ⟨rfl, hr⟩ := h
    exact .bind (checkAssignable_inStep _ r.2 e.span) fun _ => .pure ⟨rfl, hr⟩
  | none =>
    have hunit : (p.rets.headD .unit).renamed ρ = .unit ↔ p.rets.headD .unit = .unit := Ty.renamed_eq_iff (u := .unit)
    simp only [hunit, Ty.renamed_isUnknown]
    split
    · exact .pure ⟨rfl, trivial⟩
    · exact .fail _ _ _ _

theorem assertion_inStep (hd : d.InStep ρ) (sp : Span) {e : Expr} (he : e.renamed ρ = e) :
    InStep ρ (fun r r' => r' = r ∧ r.Unchanged ρ) (assertion d sp e) (assertion d sp e) := by
  refine .bind (condition_inStep hd .assertion he) fun {r r'} h => ?_
  obtain ⟨rfl, hr⟩ := h
  refine .bind .place fun {p q} hpq => ?_
  obtain ⟨rfl, -⟩ := hpq
  rw [show (p.renamed ρ).constant? = p.constant? from rfl]
  split
  · exact .fail _ _ _ _
  · exact .pure ⟨rfl, hr⟩

theorem jump_inStep (keyword : String) {x : Stmt} (hx : x.Unchanged ρ) (sp : Span) :
    InStep ρ (fun r r' => r' = r ∧ r.Unchanged ρ) (jump keyword x sp) (jump keyword x sp) := by
  refine .bind .place fun {p q} hpq => ?_
  obtain ⟨rfl, -⟩ := hpq
  show InStep ρ _ (if p.loopDepth = 0 then _ else _) (if p.loopDepth = 0 then _ else _)
  split
  · exact .fail _ _ _ _
  · exact .pure ⟨rfl, hx⟩

theorem blockWith_inStep (sp : Span) {body : CheckM (List Stmt)}
    (hb : InStep ρ (fun r r' => r' = r ∧ Stmt.AllUnchanged ρ r) body body) :
    InStep ρ (fun r r' => r' = r ∧ r.Unchanged ρ) (blockWith sp body) (blockWith sp body) := by
  refine .inScope (.bind (.onPlace renamed_pushScope fun h => h.pushScope) fun _ => .bind hb fun h => .pure ?_)
  obtain ⟨rfl, h⟩ := h
  exact ⟨rfl, h⟩

theorem loopBodyWith_inStep (sp : Span) {body : CheckM (List Stmt)}
    (hb : InStep ρ (fun r r' => r' = r ∧ Stmt.AllUnchanged ρ r) body body) :
    InStep ρ (fun r r' => r' = r ∧ r.Unchanged ρ) (loopBodyWith sp body) (loopBodyWith sp body) :=
  .inScope (.bind (.onPlace (fun _ => rfl) fun h => ⟨h.types, h.templates⟩) fun _ => blockWith_inStep sp hb)

mutual

/-- **A statement is checked in step**, into the same statement. -/
theorem stmt_inStep (hd : d.InStep ρ) : ∀ x : Stmt, x.Unchanged ρ →
    InStep ρ (fun r r' => r' = r ∧ r.Unchanged ρ) (stmt d x) (stmt d x)
  | .typeAlias _ _ _ _, _ => .fail _ _ _ _
  | .trait _ _, _ => .fail _ _ _ _
  | .cell _, _ => .fail _ _ _ _
  | .record _, h => .bind (defineRecord_inStep hd h.1 h.2) fun _ => .pure ⟨rfl, h⟩
  | .val v, h => by
    refine .map (valDecl_inStep hd (v := v) h) fun hr => ?_
    obtain ⟨rfl, hr⟩ := hr
    exact ⟨rfl, hr⟩
  | .assign sp target _, h => assignment_inStep hd sp target h
  | .cond sp c yes none, h => by
    refine .bind (condition_inStep hd .cond h.1) fun hc => .bind (block_inStep hd yes h.2) fun hy => .pure ?_
    obtain ⟨rfl, hc⟩ := hc
    obtain ⟨rfl, hy⟩ := hy
    exact ⟨rfl, hc, hy⟩
  | .cond sp c yes (some no), h => by
    refine .bind (condition_inStep hd .cond h.1) fun hc => .bind (block_inStep hd yes h.2.1) fun hy => ?_
    refine .bind (block_inStep hd no h.2.2) fun hn => .pure ?_
    obtain ⟨rfl, hc⟩ := hc
    obtain ⟨rfl, hy⟩ := hy
    obtain ⟨rfl, hn⟩ := hn
    exact ⟨rfl, hc, hy, hn⟩
  | .loop sp c ⟨bsp, ss⟩, h => by
    unfold stmt
    refine .bind (condition_inStep hd .loop h.1) fun hc => ?_
    refine .bind (loopBodyWith_inStep bsp (stmts_inStep hd ss h.2)) fun hb => .pure ?_
    obtain ⟨rfl, hc⟩ := hc
    obtain ⟨rfl, hb⟩ := hb
    exact ⟨rfl, hc, hb⟩
  | .expand x, h => by
    refine .map (expansion_inStep hd x h) fun hr => ?_
    obtain ⟨rfl, hr⟩ := hr
    exact ⟨rfl, hr⟩
  | .leave sp, _ => jump_inStep "break" (x := .leave sp) trivial sp
  | .next sp, _ => jump_inStep "continue" (x := .next sp) trivial sp
  | .give sp none, _ => by
    unfold stmt
    exact giveBack_inStep hd sp fun _ hx => absurd hx nofun
  | .give sp (some e), h => by
    unfold stmt
    exact giveBack_inStep hd sp fun x hx => Option.some.inj hx ▸ h
  | .assert sp e, h => assertion_inStep hd sp h
  | .expr e, h => by
    refine .bind (expr_inStep hd e h) fun hr => .pure ?_
    obtain ⟨rfl, hr⟩ := hr
    exact ⟨rfl, hr⟩

theorem stmts_inStep (hd : d.InStep ρ) : ∀ xs : List Stmt, Stmt.AllUnchanged ρ xs →
    InStep ρ (fun r r' => r' = r ∧ Stmt.AllUnchanged ρ r) (stmts d xs) (stmts d xs)
  | [], _ => .pure ⟨rfl, trivial⟩
  | x :: xs, h => by
    refine .bind (stmt_inStep hd x h.1) fun hr => .bind (stmts_inStep hd xs h.2) fun hrs => .pure ?_
    obtain ⟨rfl, hr⟩ := hr
    obtain ⟨rfl, hrs⟩ := hrs
    exact ⟨rfl, hr, hrs⟩

theorem block_inStep (hd : d.InStep ρ) : ∀ b : Block, b.Unchanged ρ →
    InStep ρ (fun r r' => r' = r ∧ r.Unchanged ρ) (block d b) (block d b)
  | ⟨sp, ss⟩, h => by
    unfold block
    exact blockWith_inStep sp (stmts_inStep hd ss h)

theorem expansion_inStep (hd : d.InStep ρ) : ∀ x : Expansion, x.Unchanged ρ →
    InStep ρ (fun r r' => r' = r ∧ r.Unchanged ρ) (expansion d x) (expansion d x)
  | ⟨span, keyword, init, var, range, ⟨bsp, ss⟩, depth, state⟩, h => by
    unfold expansion
    exact .bind (beginExpansion_inStep hd h.1 h.2.1 h.2.2.1) fun hp =>
      finishExpansion_inStep hd hp bsp (stmts_inStep hd ss h.2.2.2)

end

theorem levels_inStep : ∀ n : Nat, (levels n).InStep ρ
  | 0 => ⟨typeRefAt_inStep 0, fun _ => .fail _ _ _ _⟩
  | n + 1 => ⟨typeRefAt_inStep (n + 1), fun {x} h => stmt_inStep (levels_inStep n) x h⟩

/-! ## Cells -/

/-- What a statement directly in a cell does when it fails. -/
theorem recover_inStep (x : Stmt) (e e' : Diagnostic) :
    InStep ρ (fun r r' : Option Stmt => r' = r)
      (do
        if (← get).frames.isEmpty then
          if let .val v := x then
            try defineVal v.name .error true catch _ => pure ()
          modify (·.report e)
          pure none
        else throw e)
      (do
        if (← get).frames.isEmpty then
          if let .val v := x then
            try defineVal v.name .error true catch _ => pure ()
          modify (·.report e')
          pure none
        else throw e') := by
  have hreport : InStep ρ (fun r r' : Option Stmt => r' = r) (do modify (·.report e); pure none)
      (do modify (·.report e'); pure none) :=
    .bind (.modify fun _ _ hst => hst.report e e') fun _ => .pure rfl
  refine .bind .get fun {s t} hst => ?_
  rw [hst.isEmpty_frames]
  split
  · cases x with
    | val v =>
      exact .bind (.tryCatch (V := fun _ _ => True) (defineVal_inStep v.name .error true) fun _ _ => .pure trivial)
        fun _ => hreport
    | _ => exact hreport
  · exact .throw _ _

theorem cellStmts_inStep (hd : d.InStep ρ) : ∀ xs : List Stmt, Stmt.AllUnchanged ρ xs →
    InStep ρ (fun r r' => r' = r) (cellStmts d xs) (cellStmts d xs)
  | [], _ => .pure rfl
  | x :: xs, h => by
    have hx : InStep ρ (fun r r' : Option Stmt => r' = r) (some <$> d.stmt x) (some <$> d.stmt x) := by
      refine .map (hd.stmt h.1) fun hr => ?_
      rw [hr.1]
    refine .bind (.tryCatch hx (recover_inStep x)) fun hr => .bind (cellStmts_inStep hd xs h.2) fun hrs => .pure ?_
    subst hr hrs
    rfl

theorem defineParams_inStep : ∀ (ps : List CellParam) (as : List Param),
    InStep ρ (fun _ _ => True) (defineParams ps as) (defineParams (ps.map (CellParam.renamed ρ)) as)
  | [], _ => .pure trivial
  | _ :: _, [] => .pure trivial
  | p :: ps, a :: as => .bind (defineVal_inStep a.name p.type p.mutable) fun _ => defineParams_inStep ps as

theorem cellBody_inStep (hd : d.InStep ρ) {c : CellDef} (hc : Stmt.AllUnchanged ρ c.body.stmts) {sig : CellSig}
    (hsig : sig.renamed ρ = sig) : InStep ρ (fun r r' => r' = r) (cellBody d c sig) (cellBody d c sig) := by
  have hparams := defineParams_inStep (ρ := ρ) sig.params c.args
  rw [show sig.params.map (CellParam.renamed ρ) = sig.params from congrArg CellSig.params hsig] at hparams
  have hret : sig.ret.renamed ρ = sig.ret := congrArg CellSig.ret hsig
  refine .bind (.onPlace renamed_pushScope fun h => h.pushScope) fun _ => .bind hparams fun _ => ?_
  refine .bind (.onPlace (fun p => ?_) fun h => ⟨h.types, h.templates⟩) fun _ => ?_
  · simp only [Place.renamed, List.map_cons, hret]
  · refine .bind (cellStmts_inStep hd _ hc) fun h => .pure ?_
    rw [h]

end Check

end Unroll
