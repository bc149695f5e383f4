import Unroll.Proofs.Check.WellTyped
/-!
# Well-typed statements

An expansion is the one statement that is checked more than once: its body as a template, of which only the
declarations are kept, and then each copy outside of the template.  A copy begins with the declaration of the iteration
variable, and what that reads is known from the range.
-/
namespace Unroll
namespace Check

open CheckM Outcome Checker

variable {globals : Table String} {fin : Checker} {deeper : Deeper} {s s' : Checker}

/-! ## Selectors -/

theorem rangeName_ne (d e : Nat) : rangeName d ≠ indexName e := by
  intro h
  have hl := congrArg String.toList h
  unfold rangeName indexName at hl
  rw [String.toList_append, String.toList_append] at hl
  simp at hl

/-- Only the index of the copy is filled in. -/
theorem copyArgs_lookup (index : IndexParam) (i : Nat) (n : String) :
    (copyArgs index i).lookup? n = if n = index.name then some (.value i) else none := by
  unfold copyArgs
  rw [ArgLevels.lookup?_retaining_bind]
  by_cases hn : n = index.name
  · subst hn
    simp [List.idxOf?_cons]
  · rw [level_none (by simpa using hn), if_neg hn]

theorem evalIndex_name {p : Place} {sp : Span} {id : Ident} {i : Nat} :
    Const.evalIndex p.constant? (.name sp id) ≠ .ok (some i) := by
  intro h
  unfold Const.evalIndex at h
  simp only [except_bind_ok, Const.eval] at h
  obtain ⟨c, hc, h⟩ := h
  have hdep : c = .dependent := by
    unfold Place.constant? at hc
    rcases hp : p.param? id.name with _ | ⟨n, b | _⟩
    · simp [hp] at hc
    · simp [hp] at hc
    · simp only [hp, Except.ok.injEq] at hc
      exact hc.symm
  rw [hdep] at h
  cases h

/-- What the copies of an expansion read. -/
def elementsOf (p : Pending) : Walk → Elements
  | .list ts => .list ts.length
  | .array n _ => .array (rangeName p.index.depth) n
  | .members _ ms => .members (rangeName p.index.depth) (ms.map (·.name))
  | .dependent => .list 0

theorem nameExpr_eq {sp : Span} {id : Ident} {r : Typed} (h : nameExpr sp id s = .ok r s') : r.1 = .name sp id :=
  (nameExpr_ok h).2.1

theorem initialValue_expr {declared : Option Ty} {e : Expr} {r : Typed} (hne : ∀ sp, e ≠ .array sp [])
    (h : initialValue deeper declared e s = .ok r s') : expr deeper e s = .ok r s' := by
  obtain ⟨sp, _, he, -⟩ | he := initialValue_ok h
  · exact absurd he (hne sp)
  · exact he

/-- Checking the template leaves a selector from a hidden name as it is. -/
theorem template_selector {p : Pending} {walk : Walk} (hw : walk.needsBinding = true) {var : ValDecl}
    (h : valDecl deeper (loopDecl p walk) s = .ok var s') : var.expr = (loopDecl p walk).expr := by
  obtain ⟨declared, t, e, type, u, -, he, -, -, rfl⟩ := valDecl_ok h
  cases walk with
  | list ts => cases hw
  | dependent => cases hw
  | array n elem =>
    have hexpr : (loopDecl p (.array n elem)).expr =
        .index p.range.span (.ofIdent (rangeBinding p).name) p.index.reference := rfl
    rw [hexpr] at he ⊢
    have he := initialValue_expr (fun sp => by simp) he
    simp only [IndexParam.reference, Expr.ofIdent, expr, bind_ok] at he
    obtain ⟨b, v, hb, i, w, hi, he⟩ := he
    have hres := (elementAccess_ok he).2.2.1
    rw [nameExpr_eq hb, nameExpr_eq hi] at hres
    exact hres
  | members r ms =>
    have hexpr : (loopDecl p (.members r ms)).expr =
        .memberSelect p.range.span (.ofIdent (rangeBinding p).name) ms p.index.reference := rfl
    rw [hexpr] at he ⊢
    have he := initialValue_expr (fun sp => by simp) he
    obtain ⟨b, bt, v, hb, ⟨i, m, hi, -⟩ | ⟨-, -, hres⟩⟩ := expr_memberSelect_ok he
    · exact absurd hi evalIndex_name
    · simp only [Expr.ofIdent, expr] at hb
      have hbase : b = .ofIdent (rangeBinding p).name := nameExpr_eq hb
      rw [hbase] at hres
      exact (Prod.mk.inj hres).1

/-- **A copy reads its own element.** -/
theorem copy_selects {p : Pending} {walk : Walk} (hidx : p.index.name = indexName p.index.depth) {var v d : ValDecl}
    {i : Nat} (hvar : walk.needsBinding = true → var.expr = (loopDecl p walk).expr)
    (hsub : Subst.valDecl (copyArgs p.index i) var = .ok v) (h : valDecl deeper v s = .ok d s') :
    (elementsOf p walk).Selects i d.expr := by
  obtain ⟨declared, t, e, type, u, -, he, -, -, rfl⟩ := valDecl_ok h
  simp only [Subst.valDecl, except_bind_ok, except_pure_ok] at hsub
  obtain ⟨_, -, e', hsub, rfl⟩ := hsub
  have hbase : (copyArgs p.index i).lookup? (rangeName p.index.depth) = none := by
    rw [copyArgs_lookup, hidx, if_neg (rangeName_ne _ _)]
  have hindex : (copyArgs p.index i).lookup? p.index.name = some (.value i) := by
    rw [copyArgs_lookup, if_pos rfl]
  cases walk with
  | list ts => trivial
  | dependent => trivial
  | array n elem =>
    rw [hvar rfl] at hsub
    simp only [loopDecl, attachInitializer, selector, rangeBase, Walk.needsBinding, if_true, rangeBinding, Expr.ofIdent,
      IndexParam.reference, Subst.expr, Subst.name, hbase, hindex, except_bind_ok, except_pure_ok, Except.ok.injEq,
      exists_eq_left'] at hsub
    subst hsub
    have he := initialValue_expr (fun sp => by simp) he
    simp only [expr, bind_ok, pure_ok] at he
    obtain ⟨b, v, hb, i', w, ⟨rfl, rfl⟩, he⟩ := he
    have hres := (elementAccess_ok he).2.2.1
    rw [nameExpr_eq hb] at hres
    exact ⟨_, _, _, _, hres, rfl⟩
  | members r ms =>
    rw [hvar rfl] at hsub
    simp only [loopDecl, attachInitializer, selector, rangeBase, Walk.needsBinding, if_true, rangeBinding, Expr.ofIdent,
      IndexParam.reference, Subst.expr, Subst.name, hbase, hindex, except_bind_ok, Except.ok.injEq, exists_eq_left',
      Subst.foldMemberSelect, Subst.literal?, Subst.item?] at hsub
    rw [if_pos (Int.natCast_nonneg i)] at hsub
    simp only [Int.toNat_natCast] at hsub
    cases hm : ms[i]? with
    | none =>
      rw [hm] at hsub
      cases hsub
    | some m =>
      rw [hm] at hsub
      cases hsub
      have he := initialValue_expr (fun sp => by simp) he
      simp only [expr, bind_ok] at he
      obtain ⟨⟨b, bt⟩, v, hb, he⟩ := he
      obtain ⟨t', -, hres⟩ := memberAccess_ok he
      have hbase : b = .name p.range.span ⟨rangeName p.index.depth, p.range.span⟩ := nameExpr_eq hb
      rw [hbase] at hres
      refine ⟨_, _, _, m, (Prod.mk.inj hres).1, rfl, ?_⟩
      rw [List.getElem?_map, hm]
      rfl

/-! ## Copies -/

theorem mapM_sound (hd : deeper.Sound globals fin) : ∀ {xs : List Stmt} {s s' : Checker} {r : List Stmt},
    xs.mapM deeper.stmt s = .ok r s' → Reaches fin s' → Healthy globals fin s → Rooted globals s.place →
      Healthy globals fin s' ∧ (Concrete fin s.place → AllSpelled fin (Stmt.allTypeNames r) →
        StmtsTyped (globalsOf fin) s.place.scope r)
  | [], s, s', r, h, _, hs, _ => by
    simp only [List.mapM_nil, pure_ok] at h
    obtain ⟨rfl, rfl⟩ := h
    exact ⟨hs, fun _ _ => .nil⟩
  | x :: xs, s, s', r, h, hr, hs, hroot => by
    simp only [List.mapM_cons, bind_ok, pure_ok] at h
    obtain ⟨x', t, hx, rest, _, hxs, rfl, rfl⟩ := h
    have hmoves := hd.orderly.stmt hx
    obtain ⟨ht, htyped⟩ := hd.stmt hx (hr.before (mapM_moves hd.orderly hxs).1) hs hroot
    obtain ⟨hs', hrest⟩ := mapM_sound hd hxs hr ht (hroot.within hmoves.2)
    refine ⟨hs', fun hc hn => ?_⟩
    obtain ⟨hnx, hnxs⟩ := AllSpelled.append hn
    obtain ⟨hx', hc'⟩ := htyped hc hnx
    exact .cons hx' (hrest hc' hnxs)

theorem mapM_head {x : Stmt} {xs r : List Stmt} (h : (x :: xs).mapM deeper.stmt s = .ok r s') :
    ∃ x' xs' t, deeper.stmt x s = .ok x' t ∧ r = x' :: xs' := by
  simp only [List.mapM_cons, bind_ok, pure_ok] at h
  obtain ⟨x', t, hx, xs', _, -, rfl, -⟩ := h
  exact ⟨x', xs', t, hx, rfl⟩

theorem substBlock_cons {ls : ArgLevels} {sp : Span} {d : ValDecl} {ss : List Stmt} {b : Block}
    (h : Subst.block ls ⟨sp, .val d :: ss⟩ = .ok b) :
    ∃ d' ss', Subst.valDecl ls d = .ok d' ∧ Subst.stmts ls ss = .ok ss' ∧ b = ⟨sp, .val d' :: ss'⟩ := by
  simp only [Subst.block, Subst.stmts, Subst.stmt, except_bind_ok, except_map_ok, except_pure_ok] at h
  obtain ⟨_, ⟨_, ⟨d', hd, rfl⟩, ss', hss, rfl⟩, rfl⟩ := h
  exact ⟨d', ss', hd, hss, rfl⟩

theorem substValDecl_name {ls : ArgLevels} {d d' : ValDecl} (h : Subst.valDecl ls d = .ok d') : d'.name = d.name := by
  simp only [Subst.valDecl, except_bind_ok, except_pure_ok] at h
  obtain ⟨_, -, _, -, rfl⟩ := h
  rfl

/-- **One copy** declares the iteration variable as its element, and then goes through the body. -/
theorem copyAt_sound (hd : deeper.Sound globals fin) {p : Pending} {walk : Walk}
    (hidx : p.index.name = indexName p.index.depth) {sp : Span} {var : ValDecl} {ss : List Stmt}
    (hvar : walk.needsBinding = true → var.expr = (loopDecl p walk).expr) {keyword : Span} {i : Nat} {c : Copy}
    (h : copyAt deeper ⟨sp, .val var :: ss⟩ p.index keyword i s = .ok c s') (hr : Reaches fin s')
    (hs : Healthy globals fin s) (hroot : Rooted globals s.place) :
    Healthy globals fin s' ∧ (Concrete fin s.place → AllSpelled fin c.body.typeNames →
      ∃ d rest, c = ⟨i, ⟨sp, .val d :: rest⟩⟩ ∧ d.name = var.name ∧ (elementsOf p walk).Selects i d.expr ∧
        StmtsTyped (globalsOf fin) s.place.scope.opened.looped (.val d :: rest)) := by
  obtain ⟨body, t, news, hb, rfl, rfl, hnews⟩ := copyAt_ok h
  obtain ⟨fr, b, xs, u, -, hsub, hxs, rfl, rfl⟩ := instantiateBlock_ok hb
  have hu : Reaches fin u := hr.before (((Onward.onPlace u _).trans (.frames _ _)).trans (.events _ hnews))
  have hin : Healthy globals fin (copying fr s) := hs.of_same rfl rfl rfl rfl
  have hrin : Rooted globals (copying fr s).place := hroot.pushScope
  obtain ⟨hsu, htyped⟩ := mapM_sound hd hxs hu hin hrin
  refine ⟨hsu.of_same rfl rfl rfl rfl, fun hc hn => ?_⟩
  have hst := htyped hc.enterLocal.enterLoop hn
  obtain ⟨v, rest, hv, -, rfl⟩ := substBlock_cons hsub
  obtain ⟨x, xs', t, hx, rfl⟩ := @mapM_head _ _ _ (.val v) rest _ hxs
  obtain ⟨d, hd', hx⟩ := hd.opens hx
  simp only [stmt, map_ok] at hx
  obtain ⟨dv, hdv, rfl⟩ := hx
  refine ⟨dv, xs', rfl, ?_, copy_selects hidx hvar hv hdv, ?_⟩
  · have hname := substValDecl_name hv
    obtain ⟨_, _, _, _, _, -, -, -, -, rfl⟩ := valDecl_ok hdv
    exact hname
  · have hscope : (copying fr s).place.scope = s.place.scope.opened.looped := by
      show (s.place.enterLocal.enterLoop).scope = _
      rw [scope_enterLoop, scope_enterLocal]
    rwa [hscope] at hst

theorem copiesFrom_sound (hd : deeper.Sound globals fin) {p : Pending} {walk : Walk}
    (hidx : p.index.name = indexName p.index.depth) {sp : Span} {var : ValDecl} {ss : List Stmt}
    (hvar : walk.needsBinding = true → var.expr = (loopDecl p walk).expr) {v : LoopVar} (hname : v.name = var.name)
    {keyword : Span} : ∀ {left i : Nat} {s s' : Checker} {cs : List Copy},
      copiesFrom (copyAt deeper ⟨sp, .val var :: ss⟩ p.index keyword) left i s = .ok cs s' → Reaches fin s' →
        Healthy globals fin s → Rooted globals s.place → Healthy globals fin s' ∧ cs.length = left ∧
          (Concrete fin s.place → AllSpelled fin (Copy.allTypeNames cs) →
            CopiesTyped (globalsOf fin) s.place.scope v (elementsOf p walk) i cs)
  | 0, i, s, s', cs, h, _, hs, _ => by
    simp only [copiesFrom, pure_ok] at h
    obtain ⟨rfl, rfl⟩ := h
    exact ⟨hs, rfl, fun _ _ => .nil⟩
  | left + 1, i, s, s', cs, h, hr, hs, hroot => by
    simp only [copiesFrom, bind_ok, pure_ok] at h
    obtain ⟨c, t, hc, cs', _, hcs, rfl, rfl⟩ := h
    have hleft := copyAt_leaves hd.orderly hc
    have hrt := hr.before (copiesFrom_leaves (copyAt_leaves hd.orderly) hcs).1
    obtain ⟨ht, htyped⟩ := copyAt_sound hd hidx hvar hc hrt hs hroot
    obtain ⟨hs', hlen, hrest⟩ := copiesFrom_sound hd hidx hvar hname hcs hr ht (hroot.within hleft.2.1)
    refine ⟨hs', by simp [hlen], fun hcon hn => ?_⟩
    obtain ⟨hcon', hscope⟩ := hcon.left hleft.2
    obtain ⟨j, body⟩ := c
    obtain ⟨hnc, hncs⟩ := AllSpelled.append hn
    obtain ⟨d, rest, hcopy, hdn, hsel, hst⟩ := htyped hcon hnc
    obtain ⟨rfl, rfl⟩ := Copy.mk.inj hcopy
    have hcopies := hrest hcon' hncs
    rw [hscope] at hcopies
    exact .cons (by rw [hdn, hname]) hsel hst hcopies

/-! ## Expansions -/

/-- **The range tells how many copies there are**, and it is bound where they read from it. -/
theorem bindRange_sound {p : Pending} {walk : Walk} {u : Unit}
    (hw : walkOf s p.range.span p.rangeType = .ok walk) (h : bindRange p walk s = .ok u s') (hr : Reaches fin s')
    (hs : Healthy globals fin s) :
    Healthy globals fin s' ∧ (Concrete fin s.place → RangeFits fin s.place.scope p.range p.rangeType →
      Concrete fin s'.place ∧ walk.count? = some (elementsOf p walk).count ∧
        RangeTyped (globalsOf fin) s.place.scope p.range (bindingFor p walk) s'.place.scope (elementsOf p walk)) := by
  have hrs := hr.before (bindRange_moves h).1
  refine ⟨?_, fun hc hfits => ?_⟩
  · obtain ⟨-, hv⟩ | ⟨-, rfl⟩ := bindRange_ok h
    · exact hs.defineVal hv
    · exact hs
  obtain ⟨sp, es, ts, hes, hts, hlen⟩ | ⟨hty, hset⟩ := hfits
  · rw [hts] at hw
    cases hw
    obtain ⟨hnb, -⟩ | ⟨-, rfl⟩ := bindRange_ok h
    · cases hnb
    · refine ⟨hc, rfl, ?_⟩
      rw [show elementsOf p (.list ts) = .list es.length by rw [hlen]; rfl]
      exact .list hes
  · cases htype : p.rangeType with
    | array elem len =>
      rw [htype] at hw hty hset
      cases len with
      | none => exact absurd hset id
      | some n =>
        cases hw
        obtain ⟨-, hv⟩ | ⟨hnb, -⟩ := bindRange_ok h
        · rw [htype] at hv
          refine ⟨hc.defineVal hv hset, rfl, ?_⟩
          rw [(defineVal_scope hv).1]
          exact .array rfl hty
        · cases hnb
    | record n =>
      rw [htype] at hw hty hset
      simp only [walkOf] at hw
      cases hrec : s.record? (.record n) with
      | none =>
        rw [hrec] at hw
        cases hw
      | some r =>
        simp only [hrec] at hw
        split at hw
        · cases hw
        · cases hw
          obtain ⟨-, hv⟩ | ⟨hnb, -⟩ := bindRange_ok h
          · rw [htype] at hv
            refine ⟨hc.defineVal hv hset, by simp [Walk.count?, elementsOf, Elements.count], ?_⟩
            rw [(defineVal_scope hv).1]
            have hels : elementsOf p (.members r.name (r.fields.map fun f => ⟨f.name, p.range.span⟩)) =
                .members (rangeBinding p).name.name (r.fields.map (·.name)) := by
              simp [elementsOf, rangeBinding, Function.comp_def]
            rw [hels]
            exact .members rfl hty (hrs.2.records hs.fresh hrec)
          · cases hnb
    | unit | bool | int | char | text | error =>
      rw [htype] at hw
      cases hw
    | list _ | param _ | dependent =>
      rw [htype] at hset
      exact absurd hset id

/-- **The copies**, where the range tells how many there are. -/
theorem unrolling_sound (hd : deeper.Sound globals fin) {p : Pending} {walk : Walk}
    (hidx : p.index.name = indexName p.index.depth) {sp : Span} {var : ValDecl} {ss : List Stmt}
    (hvar : walk.needsBinding = true → var.expr = (loopDecl p walk).expr) (hname : p.var.name = var.name)
    {state : Unrolling} (h : unrolling deeper p walk ⟨sp, .val var :: ss⟩ s = .ok state s') (hr : Reaches fin s')
    (hs : Healthy globals fin s) (hroot : Rooted globals s.place) :
    Healthy globals fin s' ∧ (Concrete fin s.place → walk.count? = some (elementsOf p walk).count →
      AllSpelled fin state.typeNames → ∀ {Γ}, RangeTyped (globalsOf fin) Γ p.range (bindingFor p walk) s.place.scope
        (elementsOf p walk) → UnrollingTyped (globalsOf fin) Γ p.var p.range state) := by
  obtain ⟨hnone, -, rfl⟩ | ⟨hzero, rfl, rfl⟩ | ⟨n, cs, hsome, rfl, hcs⟩ := unrolling_ok h
  · refine ⟨hs, fun _ hcount _ _ _ => ?_⟩
    rw [hnone] at hcount
    cases hcount
  · refine ⟨hs, fun _ hcount _ Γ ht => ?_⟩
    rw [hzero] at hcount
    exact .empty ht (Option.some.inj hcount).symm
  · obtain ⟨hs', hlen, htyped⟩ := copiesFrom_sound hd hidx hvar hname hcs hr hs hroot
    refine ⟨hs', fun hc hcount hn Γ ht => ?_⟩
    rw [hsome] at hcount
    exact .unrolled ht (hlen.trans (Option.some.inj hcount)) (htyped hc (AllSpelled.append hn).2)

/-- What a run of the check on a list of statements does. -/
def BodySound (globals : Table String) (fin : Checker) (body : CheckM (List Stmt)) : Prop :=
  ∀ {s r s'}, body s = .ok r s' → Moves s s' ∧ (Reaches fin s' → Healthy globals fin s → Rooted globals s.place →
    Healthy globals fin s' ∧ (Concrete fin s.place → AllSpelled fin (Stmt.allTypeNames r) →
      StmtsTyped (globalsOf fin) s.place.scope r))

theorem templateOf_sound (hfin : Final globals fin) (hd : deeper.Sound globals fin) {p : Pending} {walk : Walk}
    {body : CheckM (List Stmt)} (hbody : BodySound globals fin body) {r : ValDecl × List Stmt}
    (h : templateOf deeper p walk body s = .ok r s') (hr : Reaches fin s') (hs : Healthy globals fin s)
    (hroot : Rooted globals s.place) : Healthy globals fin s' := by
  obtain ⟨t, u, hv, hb, rfl⟩ := templateOf_ok h
  obtain ⟨hmoves, hsound⟩ := hbody hb
  have hru := hr.before (.onPlace u _)
  have hin : Rooted globals (symbolic p.index s).place := hroot.pushScope
  obtain ⟨ht, -⟩ := valDecl_sound hfin hd hv (hru.before hmoves.1) (hs.onPlace _) hin
  obtain ⟨hu, -⟩ := hsound hru ht (hin.within (valDecl_moves hd.orderly hv).2)
  exact hu.onPlace _

theorem template_name {p : Pending} {walk : Walk} {var : ValDecl}
    (h : valDecl deeper (loopDecl p walk) s = .ok var s') : var.name = p.var.name := by
  obtain ⟨_, _, _, _, _, -, -, -, -, rfl⟩ := valDecl_ok h
  rfl

/-- **An expansion outside of templates is replaced by its copies**, as many as its range has elements. -/
theorem expansion_sound (hfin : Final globals fin) (hd : deeper.Sound globals fin) {x : Expansion} {p : Pending}
    {sp : Span} {body : CheckM (List Stmt)} (hbody : BodySound globals fin body) {t : Checker} {r : Expansion}
    (hp : beginExpansion deeper x s = .ok p t) (h : finishExpansion deeper p sp body t = .ok r s') (hr : Reaches fin s')
    (hs : Healthy globals fin s) (hroot : Rooted globals s.place) :
    Healthy globals fin s' ∧ (Concrete fin s.place → AllSpelled fin r.typeNames →
      StmtTyped (globalsOf fin) s.place.scope (.expand r) s'.place.scope ∧ Concrete fin s'.place) := by
  have hleaves := finishExpansion_leaves hd.orderly (fun h => (hbody h).1) hp h
  obtain ⟨init, u, range, type, hi, hrange, rfl⟩ := beginExpansion_ok hp
  obtain ⟨walk, v, var, ss, w, state, z, hwalk, hbind, ht, hu, rfl, rfl⟩ := finishExpansion_ok h
  obtain ⟨t₁, t₂, hvar, -, -⟩ := templateOf_ok ht
  have hrz := hr.before (.onPlace z _)
  have hrw := hrz.before (unrolling_leaves hd.orderly hu).1
  have htl := templateOf_leaves hd.orderly (fun h => (hbody h).1) ht
  have hrv := hrw.before htl.1
  have hrt := hrv.before (bindRange_moves hbind).1
  have hru := hrt.before (rangeExpr_steady hd.orderly hrange).1
  have hroot₁ : Rooted globals (opened s).place := hroot.pushScope
  obtain ⟨hsu, hinit⟩ := initStmt_sound hfin hd hi hru (hs.onPlace _) hroot₁
  have hroot₂ := hroot₁.within (initStmt_moves hd.orderly hi).2
  obtain ⟨hst, hfits⟩ := rangeExpr_sound hfin hd hrange hrt hsu hroot₂
  have hplace := (rangeExpr_steady hd.orderly hrange).2
  obtain ⟨hsv, hbound⟩ := bindRange_sound hwalk hbind hrv hst
  have hroot₃ : Rooted globals v.place := by
    refine Rooted.within ?_ (bindRange_moves hbind).2
    rwa [hplace]
  have hsw := templateOf_sound hfin hd hbody ht hrw hsv hroot₃
  have hroot₄ := hroot₃.within htl.2.1
  obtain ⟨hsz, hstate⟩ := unrolling_sound hd rfl (template_selector · hvar) (template_name hvar).symm hu hrz hsw hroot₄
  refine ⟨hsz.onPlace _, fun hc hn => ?_⟩
  obtain ⟨hc', hscope⟩ := hc.left hleaves.2
  obtain ⟨hni, hn⟩ := AllSpelled.append hn
  obtain ⟨-, hn⟩ := AllSpelled.append hn
  obtain ⟨hnr, hn⟩ := AllSpelled.append hn
  obtain ⟨-, hns⟩ := AllSpelled.append hn
  obtain ⟨hcu, hti⟩ := hinit hc.pushScope hni
  rw [hplace] at hbound
  obtain ⟨hcv, hcount, htr⟩ := hbound hcu (hfits hcu hnr)
  obtain ⟨hcw, hscope'⟩ := hcv.left htl.2
  rw [← hscope'] at htr
  refine ⟨?_, hc'⟩
  rw [hscope]
  exact .expand hti (hstate hcw hcount hns htr)

/-! ## Statements -/

theorem condition_sound (hfin : Final globals fin) (hd : deeper.Sound globals fin) {what : Condition} {e r : Expr}
    (h : condition deeper what e s = .ok r s') (hr : Reaches fin s') (hs : Healthy globals fin s)
    (hroot : Rooted globals s.place) :
    Healthy globals fin s' ∧ (Concrete fin s.place → AllSpelled fin r.typeNames →
      ExprTyped (globalsOf fin) s.place.scope r .bool) := by
  obtain ⟨t, he, ht⟩ := condition_ok h
  obtain ⟨hs', htyped⟩ := expr_sound hfin hd he hr hs hroot
  refine ⟨hs', fun hc hn => ?_⟩
  obtain ⟨hte, hset⟩ := htyped hc hn
  rcases ht with rfl | hu
  · exact hte
  · rw [hset.known.1] at hu
    cases hu

theorem blockWith_sound {sp : Span} {ss : CheckM (List Stmt)} (hss : BodySound globals fin ss) {b : Block}
    (h : blockWith sp ss s = .ok b s') (hr : Reaches fin s') (hs : Healthy globals fin s)
    (hroot : Rooted globals s.place) :
    Healthy globals fin s' ∧ (Concrete fin s.place → AllSpelled fin b.typeNames →
      BlockTyped (globalsOf fin) s.place.scope b) := by
  obtain ⟨r, t, hr', rfl, rfl⟩ := blockWith_ok h
  obtain ⟨-, hsound⟩ := hss hr'
  obtain ⟨ht, htyped⟩ := hsound (hr.before (.onPlace t _)) (hs.onPlace _) hroot.pushScope
  exact ⟨ht.onPlace _, fun hc hn => .mk (htyped hc.pushScope hn)⟩

theorem loopBodyWith_sound {sp : Span} {ss : CheckM (List Stmt)} (hss : BodySound globals fin ss) {b : Block}
    (h : loopBodyWith sp ss s = .ok b s') (hr : Reaches fin s') (hs : Healthy globals fin s)
    (hroot : Rooted globals s.place) :
    Healthy globals fin s' ∧ (Concrete fin s.place → AllSpelled fin b.typeNames →
      BlockTyped (globalsOf fin) s.place.scope.looped b) := by
  obtain ⟨t, hb, rfl⟩ := loopBodyWith_ok h
  have hroot' : Rooted globals (s.onPlace Place.enterLoop).place := hroot
  obtain ⟨ht, htyped⟩ := blockWith_sound hss hb (hr.before (.onPlace t _)) (hs.onPlace _) hroot'
  refine ⟨ht.onPlace _, fun hc hn => ?_⟩
  have hb := htyped hc.enterLoop hn
  rwa [show (s.onPlace Place.enterLoop).place.scope = s.place.scope.looped from scope_enterLoop _] at hb

mutual

/-- **Outside of templates a statement that passes is well typed.** -/
theorem stmt_sound (hfin : Final globals fin) (hd : deeper.Sound globals fin) : ∀ {x : Stmt} {s s' : Checker} {r : Stmt},
    stmt deeper x s = .ok r s' → Reaches fin s' → Healthy globals fin s → Rooted globals s.place →
      Healthy globals fin s' ∧ (Concrete fin s.place → AllSpelled fin r.typeNames →
        StmtTyped (globalsOf fin) s.place.scope r s'.place.scope ∧ Concrete fin s'.place)
  | .typeAlias _ _ _ _, s, s', r, h, hr, hs, hroot | .trait _ _, s, s', r, h, hr, hs, hroot
  | .cell _, s, s', r, h, hr, hs, hroot => by
    simp only [stmt] at h
    exact absurd h fail_ok
  | .record d, s, s', r, h, hr, hs, hroot => by
    simp only [stmt, bind_ok, pure_ok] at h
    obtain ⟨t, _, hrec, rfl, rfl⟩ := h
    obtain ⟨hs', htyped⟩ := defineRecord_sound hfin hd hrec hr hs
    refine ⟨hs', fun hc hn => ?_⟩
    obtain ⟨hc', canonical, info, hinfo, hnames, hscope⟩ := htyped hc hn
    exact ⟨hscope ▸ .record hinfo hnames, hc'⟩
  | .val d, s, s', r, h, hr, hs, hroot => by
    simp only [stmt, map_ok] at h
    obtain ⟨d', hv, rfl⟩ := h
    obtain ⟨hs', htyped⟩ := valDecl_sound hfin hd hv hr hs hroot
    refine ⟨hs', fun hc hn => ?_⟩
    obtain ⟨hc', t, ht, hscope⟩ := htyped hc hn
    exact ⟨hscope ▸ .val ht, hc'⟩
  | .assign sp target e, s, s', r, h, hr, hs, hroot => by
    obtain ⟨v, e', t, hv, -, he, hfit, rfl⟩ := assignment_ok (by simpa only [stmt] using h)
    obtain ⟨hs', htyped⟩ := expr_sound hfin hd he hr hs hroot
    refine ⟨hs', fun hc hn => ?_⟩
    obtain ⟨hte, hset⟩ := htyped hc hn
    rw [(expr_steady hd.orderly he).2]
    have heq : v.type = t := hfit.eq (val?_type hc.scope hv) hset
    exact ⟨.assign hv (heq ▸ hte), hc⟩
  | .cond sp c yes none, s, s', r, h, hr, hs, hroot => by
    simp only [stmt, bind_ok, pure_ok] at h
    obtain ⟨c', t, hc', yes', _, hy, rfl, rfl⟩ := h
    have hyl := block_leaves hd.orderly hy
    have hplace := (condition_steady hd.orderly hc').2
    obtain ⟨ht, hctyped⟩ := condition_sound hfin hd hc' (hr.before hyl.1) hs hroot
    obtain ⟨hs', hytyped⟩ := block_sound hfin hd hy hr ht (by rwa [hplace])
    refine ⟨hs', fun hc hn => ?_⟩
    obtain ⟨hnc, hny⟩ := AllSpelled.append hn
    have hleft := hyl.2
    rw [hplace] at hytyped hleft
    obtain ⟨hcon, hscope⟩ := hc.left hleft
    rw [hscope]
    exact ⟨.cond (hctyped hc hnc) (hytyped hc hny), hcon⟩
  | .cond sp c yes (some no), s, s', r, h, hr, hs, hroot => by
    simp only [stmt, bind_ok, pure_ok] at h
    obtain ⟨c', t, hc', yes', u, hy, no', _, hno, rfl, rfl⟩ := h
    have hyl := block_leaves hd.orderly hy
    have hnl := block_leaves hd.orderly hno
    have hplace := (condition_steady hd.orderly hc').2
    have hru := hr.before hnl.1
    obtain ⟨ht, hctyped⟩ := condition_sound hfin hd hc' (hru.before hyl.1) hs hroot
    have hroot' : Rooted globals t.place := by rwa [hplace]
    obtain ⟨hsu, hytyped⟩ := block_sound hfin hd hy hru ht hroot'
    obtain ⟨hs', hntyped⟩ := block_sound hfin hd hno hr hsu (hroot'.within hyl.2.1)
    refine ⟨hs', fun hc hn => ?_⟩
    obtain ⟨hnc, hn⟩ := AllSpelled.append hn
    obtain ⟨hny, hnn⟩ := AllSpelled.append hn
    have hleft := hyl.2
    rw [hplace] at hytyped hleft
    obtain ⟨hcu, hscope⟩ := hc.left hleft
    obtain ⟨hcon, hscope'⟩ := hcu.left hnl.2
    rw [hscope'.trans hscope]
    refine ⟨.choice (hctyped hc hnc) (hytyped hc hny) ?_, hcon⟩
    rw [← hscope]
    exact hntyped hcu hnn
  | .loop sp c ⟨bsp, ss⟩, s, s', r, h, hr, hs, hroot => by
    simp only [stmt, bind_ok, pure_ok] at h
    obtain ⟨c', t, hc', b, _, hb, rfl, rfl⟩ := h
    have hbl := loopBodyWith_leaves (stmts_moves hd.orderly) hb
    have hplace := (condition_steady hd.orderly hc').2
    obtain ⟨ht, hctyped⟩ := condition_sound hfin hd hc' (hr.before hbl.1) hs hroot
    obtain ⟨hs', hbtyped⟩ := loopBodyWith_sound (fun h => ⟨stmts_moves hd.orderly h, stmts_sound hfin hd h⟩) hb hr ht
      (by rwa [hplace])
    refine ⟨hs', fun hc hn => ?_⟩
    obtain ⟨hnc, hnb⟩ := AllSpelled.append hn
    have hleft := hbl.2
    rw [hplace] at hbtyped hleft
    obtain ⟨hcon, hscope⟩ := hc.left hleft
    rw [hscope]
    exact ⟨.loop (hctyped hc hnc) (hbtyped hc hnb), hcon⟩
  | .expand ⟨span, keyword, init, var, range, ⟨bsp, ss⟩, depth, state⟩, s, s', r, h, hr, hs, hroot => by
    simp only [stmt, expansion, map_ok, bind_ok] at h
    obtain ⟨x, ⟨p, t, hp, hx⟩, rfl⟩ := h
    exact expansion_sound hfin hd (fun h => ⟨stmts_moves hd.orderly h, stmts_sound hfin hd h⟩) hp hx hr hs hroot
  | .leave sp, s, s', r, h, hr, hs, hroot => by
    obtain ⟨rfl, hl, rfl⟩ := jump_ok (by simpa only [stmt] using h)
    exact ⟨hs, fun hc _ => ⟨.leave (by simpa [Place.scope] using hl), hc⟩⟩
  | .next sp, s, s', r, h, hr, hs, hroot => by
    obtain ⟨rfl, hl, rfl⟩ := jump_ok (by simpa only [stmt] using h)
    exact ⟨hs, fun hc _ => ⟨.next (by simpa [Place.scope] using hl), hc⟩⟩
  | .give sp e, s, s', r, h, hr, hs, hroot => by
    obtain ⟨e, e', t, rfl, he, hfit, rfl⟩ | ⟨rfl, hfit, rfl, rfl⟩ := giveBack_ok (by simpa only [stmt] using h)
    · obtain ⟨hs', htyped⟩ := expr_sound hfin hd he hr hs hroot
      refine ⟨hs', fun hc hn => ?_⟩
      obtain ⟨hte, hset⟩ := htyped hc hn
      rw [(expr_steady hd.orderly he).2]
      have heq : s.place.scope.ret = t := hfit.eq hc.scope.ret hset
      exact ⟨.give (heq ▸ hte), hc⟩
    · refine ⟨hs, fun hc _ => ⟨.giveUnit ?_, hc⟩⟩
      exact hfit.eq (P := ClosedRecord fin.records) hc.scope.ret trivial
  | .assert sp e, s, s', r, h, hr, hs, hroot => by
    obtain ⟨e', he, rfl⟩ := assertion_ok (by simpa only [stmt] using h)
    obtain ⟨hs', htyped⟩ := condition_sound hfin hd he hr hs hroot
    refine ⟨hs', fun hc hn => ?_⟩
    rw [(condition_steady hd.orderly he).2]
    exact ⟨.assert (htyped hc hn), hc⟩
  | .expr e, s, s', r, h, hr, hs, hroot => by
    simp only [stmt, bind_ok, pure_ok] at h
    obtain ⟨⟨e', t⟩, _, he, rfl, rfl⟩ := h
    obtain ⟨hs', htyped⟩ := expr_sound hfin hd he hr hs hroot
    refine ⟨hs', fun hc hn => ?_⟩
    rw [(expr_steady hd.orderly he).2]
    exact ⟨.expr (htyped hc hn).1, hc⟩

theorem stmts_sound (hfin : Final globals fin) (hd : deeper.Sound globals fin) : ∀ {xs : List Stmt} {s s' : Checker}
    {r : List Stmt}, stmts deeper xs s = .ok r s' → Reaches fin s' → Healthy globals fin s → Rooted globals s.place →
      Healthy globals fin s' ∧ (Concrete fin s.place → AllSpelled fin (Stmt.allTypeNames r) →
        StmtsTyped (globalsOf fin) s.place.scope r)
  | [], s, s', r, h, hr, hs, hroot => by
    simp only [stmts, pure_ok] at h
    obtain ⟨rfl, rfl⟩ := h
    exact ⟨hs, fun _ _ => .nil⟩
  | x :: xs, s, s', r, h, hr, hs, hroot => by
    simp only [stmts, bind_ok, pure_ok] at h
    obtain ⟨x', t, hx, xs', _, hxs, rfl, rfl⟩ := h
    have hmoves := stmt_moves hd.orderly hx
    obtain ⟨ht, htyped⟩ := stmt_sound hfin hd hx (hr.before (stmts_moves hd.orderly hxs).1) hs hroot
    obtain ⟨hs', hrest⟩ := stmts_sound hfin hd hxs hr ht (hroot.within hmoves.2)
    refine ⟨hs', fun hc hn => ?_⟩
    obtain ⟨hnx, hnxs⟩ := AllSpelled.append hn
    obtain ⟨hx', hc'⟩ := htyped hc hnx
    exact .cons hx' (hrest hc' hnxs)

theorem block_sound (hfin : Final globals fin) (hd : deeper.Sound globals fin) : ∀ {b : Block} {s s' : Checker} {r : Block},
    block deeper b s = .ok r s' → Reaches fin s' → Healthy globals fin s → Rooted globals s.place →
      Healthy globals fin s' ∧ (Concrete fin s.place → AllSpelled fin r.typeNames →
        BlockTyped (globalsOf fin) s.place.scope r)
  | ⟨sp, ss⟩, s, s', r, h, hr, hs, hroot => by
    simp only [block] at h
    exact blockWith_sound (fun h => ⟨stmts_moves hd.orderly h, stmts_sound hfin hd h⟩) h hr hs hroot

end

/-! ## Levels -/

theorem levels_sound (hfin : Final globals fin) : ∀ n : Nat, (levels n).Sound globals fin
  | 0 => ⟨levels_orderly 0, fun P => levels_settle P 0, fun h => absurd h fail_ok, fun h => absurd h fail_ok⟩
  | n + 1 => ⟨levels_orderly (n + 1), fun P => levels_settle P (n + 1), fun h => ⟨levels n, levels_orderly n, h⟩,
      fun h => stmt_sound hfin (levels_sound hfin n) h⟩

end Check
end Unroll
