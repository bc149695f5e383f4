import Unroll.Proofs.Extraction
/-!
# Checking keeps the outline

Whatever is checked is direct: it never names the index of an expansion, and filling that in changes nothing but the
selector that a copy begins with.  So an expression keeps its outline.  A statement keeps it, too, where it is written,
up to what the checker has made up in it already.
-/
namespace Unroll
namespace Check

open CheckM Outcome Checker

/-! ## Filling in an index -/

/-- Only names of indices are filled in, and only by values. -/
structure FillsIndex (ls : ArgLevels) : Prop where
  others : ∀ {n}, (∀ d, n ≠ indexName d) → ls.lookup? n = none
  values : ∀ {n t}, ls.lookup? n ≠ some (.type t)

section

variable {ls : ArgLevels}

theorem FillsIndex.worded (h : FillsIndex ls) {n : String} (hn : Worded n) : ls.lookup? n = none :=
  h.others hn.ne_indexName

theorem FillsIndex.recordName (h : FillsIndex ls) (id : Ident) : Subst.recordName ls id = id := by
  unfold Subst.recordName
  split
  · rename_i hty
    exact absurd hty h.values
  · rfl

mutual

theorem substExpr_outline (hls : FillsIndex ls) : ∀ {e e' : Expr}, e.Direct →
    Subst.expr ls e = .ok e' → e'.outline = e.outline
  | .name sp id, e', hw, h => by
    simp only [Subst.expr, Subst.name, hls.others hw, Except.ok.injEq] at h
    rw [← h]
  | .int _ _, e', _, h | .char _ _, e', _, h | .bool _ _, e', _, h | .text _ _, e', _, h => by
    simp only [Subst.expr, Except.ok.injEq] at h
    rw [← h]
  | .list sp items, e', hw, h | .array sp items, e', hw, h => by
    simp only [Subst.expr, except_bind_ok, except_pure_ok] at h
    obtain ⟨es, hes, rfl⟩ := h
    simp only [Expr.outline, substExprs_outline hls hw hes]
  | .record sp type fs, e', hw, h => by
    simp only [Subst.expr, except_bind_ok, except_pure_ok] at h
    obtain ⟨fs', hfs, rfl⟩ := h
    simp only [Expr.outline, hls.recordName, substFields_outline hls hw hfs]
  | .unary sp op e, e', hw, h => by
    simp only [Subst.expr, except_bind_ok, except_pure_ok] at h
    obtain ⟨e₁, he, rfl⟩ := h
    simp only [Expr.outline, substExpr_outline (e := e) hls hw he]
  | .binary sp l op r, e', hw, h => by
    simp only [Subst.expr, except_bind_ok, except_pure_ok] at h
    obtain ⟨l', hl, r', hr, rfl⟩ := h
    simp only [Expr.outline, substExpr_outline hls hw.1 hl, substExpr_outline hls hw.2 hr]
  | .member sp base m, e', hw, h => by
    simp only [Subst.expr, except_bind_ok, except_pure_ok] at h
    obtain ⟨b, hb, rfl⟩ := h
    simp only [Expr.outline, substExpr_outline (e := base) hls hw hb]
  | .index sp base i, e', hw, h => by
    simp only [Subst.expr, except_bind_ok, except_pure_ok] at h
    obtain ⟨b, hb, i', hi, rfl⟩ := h
    simp only [Expr.outline, substExpr_outline hls hw.1 hb, substExpr_outline hls hw.2 hi]
  | .call sp callee generic args, e', hw, h => by
    simp only [Subst.expr, except_bind_ok, except_pure_ok] at h
    obtain ⟨_, -, es, hes, rfl⟩ := h
    simp only [Expr.outline, substExprs_outline hls hw hes]

theorem substExprs_outline (hls : FillsIndex ls) : ∀ {es es' : List Expr},
    Expr.AllDirect es → Subst.exprs ls es = .ok es' → Expr.outlines es' = Expr.outlines es
  | [], es', _, h => by
    cases h
    rfl
  | e :: es, es', hw, h => by
    simp only [Subst.exprs, except_bind_ok, except_pure_ok] at h
    obtain ⟨e', he, rest, hes, rfl⟩ := h
    simp only [Expr.outlines, substExpr_outline hls hw.1 he, substExprs_outline hls hw.2 hes]

theorem substFields_outline (hls : FillsIndex ls) : ∀ {fs fs' : List (Ident × Expr)},
    Expr.FieldsDirect fs → Subst.fields ls fs = .ok fs' →
      Expr.fieldOutlines fs' = Expr.fieldOutlines fs
  | [], fs', _, h => by
    cases h
    rfl
  | (f, e) :: fs, fs', hw, h => by
    simp only [Subst.fields, except_bind_ok, except_pure_ok] at h
    obtain ⟨e', he, rest, hfs, rfl⟩ := h
    simp only [Expr.fieldOutlines, substExpr_outline hls hw.1 he, substFields_outline hls hw.2 hfs]

end

theorem substTypeName_outline (hls : FillsIndex ls) {sp : Span} {id : Ident} {t : TypeRef}
    (hw : Worded id.name) (h : Subst.typeName ls sp id = .ok t) : t = .named sp id [] := by
  simp only [Subst.typeName, hls.worded hw, Except.ok.injEq] at h
  exact h.symm

mutual

theorem substTypeRef_outline (hls : FillsIndex ls) : ∀ {t t' : TypeRef}, t.outline.Written →
    Subst.typeRef ls t = .ok t' → t'.outline = t.outline
  | .named sp id [], t', hw, h => by
    simp only [Subst.typeRef] at h
    rw [substTypeName_outline hls hw.1 h]
  | .named sp id (a :: as), t', hw, h => by
    simp only [Subst.typeRef, except_bind_ok, except_pure_ok] at h
    obtain ⟨as', has, rfl⟩ := h
    simp only [TypeRef.outline, substTypeArgs_outline hls hw.2 has]
  | .array sp elem len, t', hw, h => by
    simp only [Subst.typeRef, except_bind_ok, except_pure_ok] at h
    obtain ⟨elem', he, len', hl, rfl⟩ := h
    simp only [TypeRef.outline, substTypeRef_outline hls hw.1 he, substExpr_outline hls (Expr.direct_of_outline hw.2) hl]

theorem substTypeArg_outline (hls : FillsIndex ls) : ∀ {a a' : TypeArg}, a.outline.Written →
    Subst.typeArg ls a = .ok a' → a'.outline = a.outline
  | .type (.named sp id []), a', hw, h => by
    have hid : Worded id.name := hw.1
    simp only [Subst.typeArg, hls.worded hid, except_map_ok] at h
    obtain ⟨t, ht, rfl⟩ := h
    rw [substTypeName_outline hls hid ht]
  | .type (.named sp id (b :: bs)), a', hw, h => by
    simp only [Subst.typeArg, except_map_ok] at h
    obtain ⟨t, ht, rfl⟩ := h
    simp only [TypeArg.outline, substTypeRef_outline hls hw ht]
  | .type (.array sp elem len), a', hw, h => by
    simp only [Subst.typeArg, except_map_ok] at h
    obtain ⟨t, ht, rfl⟩ := h
    simp only [TypeArg.outline, substTypeRef_outline hls hw ht]
  | .value e, a', hw, h => by
    simp only [Subst.typeArg, except_map_ok] at h
    obtain ⟨e', he, rfl⟩ := h
    simp only [TypeArg.outline, substExpr_outline hls (Expr.direct_of_outline hw) he]

theorem substTypeArgs_outline (hls : FillsIndex ls) : ∀ {as as' : List TypeArg},
    TypeArg.AllWritten (TypeArg.outlines as) → Subst.typeArgs ls as = .ok as' → TypeArg.outlines as' = TypeArg.outlines as
  | [], as', _, h => by
    cases h
    rfl
  | a :: as, as', hw, h => by
    simp only [Subst.typeArgs, except_bind_ok, except_pure_ok] at h
    obtain ⟨a', ha, rest, has, rfl⟩ := h
    simp only [TypeArg.outlines, substTypeArg_outline hls hw.1 ha, substTypeArgs_outline hls hw.2 has]

end

theorem substTypeRef?_outline (hls : FillsIndex ls) {t t' : Option TypeRef}
    (hw : TypeRef.Written? (t.map TypeRef.outline)) (h : Subst.typeRef? ls t = .ok t') :
    t'.map TypeRef.outline = t.map TypeRef.outline := by
  cases t with
  | none =>
    cases h
    rfl
  | some w =>
    simp only [Subst.typeRef?, except_map_ok] at h
    obtain ⟨w', hw', rfl⟩ := h
    exact congrArg some (substTypeRef_outline hls (hw _ rfl) hw')

theorem substValDecl_outline (hls : FillsIndex ls) {d d' : ValDecl} (hw : d.outline.Written)
    (h : Subst.valDecl ls d = .ok d') : d'.outline = d.outline := by
  simp only [Subst.valDecl, except_bind_ok, except_pure_ok] at h
  obtain ⟨t, ht, e, he, rfl⟩ := h
  simp only [ValDecl.outline, substTypeRef?_outline hls hw.type ht, substExpr_outline hls (Expr.direct_of_outline hw.expr) he]

theorem substInit_outline (hls : FillsIndex ls) : ∀ {i i' : Option Init},
    Init.Written (Init.outline i) → Subst.init ls i = .ok i' → Init.outline i' = Init.outline i
  | none, i', _, h => by
    cases h
    rfl
  | some (.val d), i', hw, h => by
    simp only [Subst.init, except_map_ok] at h
    obtain ⟨_, ⟨d', hd, rfl⟩, rfl⟩ := h
    simp only [Init.outline, substValDecl_outline hls hw hd]
  | some (.expr e), i', hw, h => by
    simp only [Subst.init, except_map_ok] at h
    obtain ⟨_, ⟨e', he, rfl⟩, rfl⟩ := h
    simp only [Init.outline, substExpr_outline hls (Expr.direct_of_outline hw) he]

theorem substRecordFields_outline (hls : FillsIndex ls) : ∀ {fs fs' : List RecordField},
    (∀ f ∈ fs, f.type.outline.Written) → fs.mapM (Subst.recordField ls) = .ok fs' →
      fs'.map (fun f => { f with type := f.type.outline }) = fs.map fun f => { f with type := f.type.outline }
  | [], fs', _, h => by
    cases h
    rfl
  | f :: fs, fs', hw, h => by
    simp only [List.mapM_cons, Subst.recordField, except_bind_ok, except_pure_ok] at h
    obtain ⟨_, ⟨t, ht, rfl⟩, rest, hfs, rfl⟩ := h
    have hf := substTypeRef_outline hls (hw f (List.mem_cons_self ..)) ht
    have hrest := substRecordFields_outline hls (fun g hg => hw g (List.mem_cons_of_mem _ hg)) hfs
    rw [List.map_cons, List.map_cons, hrest, hf]

mutual

theorem substStmt_outline (hls : FillsIndex ls) : ∀ {x x' : Stmt}, x.outline.Written →
    Subst.stmt ls x = .ok x' → x'.outline = x.outline
  | .typeAlias _ _ _ _, x', _, h | .trait _ _, x', _, h | .cell _, x', _, h | .leave _, x', _, h
  | .next _, x', _, h => by
    simp only [Subst.stmt, Except.ok.injEq] at h
    rw [← h]
  | .record d, x', hw, h => by
    simp only [Subst.stmt, except_bind_ok, except_pure_ok] at h
    obtain ⟨fs, hfs, rfl⟩ := h
    have hfields := substRecordFields_outline hls (fun f hf => ?_) hfs
    · simp only [Stmt.outline, RecordDef.outline, hfields]
    · exact hw.fields _ (List.mem_map.2 ⟨f, hf, rfl⟩)
  | .val d, x', hw, h => by
    simp only [Subst.stmt, except_map_ok] at h
    obtain ⟨d', hd, rfl⟩ := h
    simp only [Stmt.outline, substValDecl_outline hls hw hd]
  | .assign sp target e, x', hw, h => by
    simp only [Subst.stmt, except_bind_ok, except_pure_ok] at h
    obtain ⟨e', he, rfl⟩ := h
    simp only [Stmt.outline, substExpr_outline hls (Expr.direct_of_outline hw.2) he]
  | .cond sp c yes none, x', hw, h => by
    simp only [Subst.stmt, except_bind_ok, except_pure_ok] at h
    obtain ⟨c', hc, yes', hy, rfl⟩ := h
    simp only [Stmt.outline, substExpr_outline hls (Expr.direct_of_outline hw.1) hc, substBlock_outline hls hw.2 hy]
  | .cond sp c yes (some no), x', hw, h => by
    simp only [Subst.stmt, except_bind_ok, except_pure_ok] at h
    obtain ⟨c', hc, yes', hy, no', hn, rfl⟩ := h
    simp only [Stmt.outline, substExpr_outline hls (Expr.direct_of_outline hw.1) hc, substBlock_outline hls hw.2.1 hy,
      substBlock_outline hls hw.2.2 hn]
  | .loop sp c body, x', hw, h => by
    simp only [Subst.stmt, except_bind_ok, except_pure_ok] at h
    obtain ⟨c', hc, b', hb, rfl⟩ := h
    simp only [Stmt.outline, substExpr_outline hls (Expr.direct_of_outline hw.1) hc, substBlock_outline hls hw.2 hb]
  | .expand x, x', hw, h => by
    simp only [Subst.stmt, except_map_ok] at h
    obtain ⟨y, hy, rfl⟩ := h
    simp only [Stmt.outline, substExpansion_outline hls hw hy]
  | .give sp none, x', hw, h => by
    simp only [Subst.stmt, Subst.expr?, except_bind_ok, except_pure_ok, Except.ok.injEq, exists_eq_left'] at h
    rw [← h]
  | .give sp (some e), x', hw, h => by
    simp only [Subst.stmt, Subst.expr?, except_bind_ok, except_map_ok, except_pure_ok] at h
    obtain ⟨_, ⟨e', he, rfl⟩, rfl⟩ := h
    simp only [Stmt.outline, substExpr_outline hls (Expr.direct_of_outline hw) he]
  | .assert sp e, x', hw, h => by
    simp only [Subst.stmt, except_bind_ok, except_pure_ok] at h
    obtain ⟨e', he, rfl⟩ := h
    simp only [Stmt.outline, substExpr_outline hls (Expr.direct_of_outline hw) he]
  | .expr e, x', hw, h => by
    simp only [Subst.stmt, except_map_ok] at h
    obtain ⟨e', he, rfl⟩ := h
    simp only [Stmt.outline, substExpr_outline hls (Expr.direct_of_outline hw) he]
termination_by structural x => x

theorem substStmts_outline (hls : FillsIndex ls) : ∀ {xs xs' : List Stmt},
    Stmt.AllWritten (Stmt.outlines xs) → Subst.stmts ls xs = .ok xs' → Stmt.outlines xs' = Stmt.outlines xs
  | [], xs', _, h => by
    cases h
    rfl
  | x :: xs, xs', hw, h => by
    simp only [Subst.stmts, except_bind_ok, except_pure_ok] at h
    obtain ⟨x', hx, rest, hxs, rfl⟩ := h
    simp only [Stmt.outlines, substStmt_outline hls hw.1 hx, substStmts_outline hls hw.2 hxs]
termination_by structural xs => xs

theorem substBlock_outline (hls : FillsIndex ls) : ∀ {b b' : Block}, b.outline.Written →
    Subst.block ls b = .ok b' → b'.outline = b.outline
  | ⟨sp, ss⟩, b', hw, h => by
    simp only [Subst.block, except_bind_ok, except_pure_ok] at h
    obtain ⟨ss', hss, rfl⟩ := h
    simp only [Block.outline, substStmts_outline hls hw hss]
termination_by structural b => b

theorem substExpansion_outline (hls : FillsIndex ls) : ∀ {x x' : Expansion}, x.outline.Written →
    Subst.expansion ls x = .ok x' → x'.outline = x.outline
  | ⟨sp, keyword, first, var, range, body, depth, state⟩, x', hw, h => by
    simp only [Subst.expansion, Subst.loopVar, except_bind_ok, except_pure_ok] at h
    obtain ⟨first', hf, _, ⟨t, ht, rfl⟩, range', hr, body', hb, rfl⟩ := h
    simp only [Expansion.outline, LoopVar.outline, substInit_outline hls hw.1 hf,
      substTypeRef?_outline hls hw.2.1.type ht, substExpr_outline hls (Expr.direct_of_outline hw.2.2.1) hr, substBlock_outline hls hw.2.2.2 hb]
termination_by structural x => x

end

end

/-! ## Expressions -/

variable {deeper : Deeper} {s s' : Checker}

theorem cellCall_outline {sp : Span} {callee : Ident} {generic : List TypeArg} {args : List Expr} {types : List Ty}
    {places : List Span} {r : Typed} (h : cellCall deeper sp callee generic args types places s = .ok r s') :
    r.1.outline = .call sp ⟨baseName callee.name, callee.span⟩ [] (Expr.outlines args) := by
  obtain ⟨_, -, -, -, rfl⟩ | ⟨-, _, _, _, -, -, ⟨_, full, name, _, _, -, -, -, hi, -, rfl⟩ | ⟨-, -, rfl⟩⟩ := cellCall_ok h
  · rfl
  · have hname : name = mangle callee.name full := (instantiateCell_ok hi).2.1
    simp only [Expr.outline, hname, baseName_mangle]
  · rfl

mutual

theorem expr_outline : ∀ {e : Expr} {s s' : Checker} {r : Typed}, expr deeper e s = .ok r s' → e.Direct →
    r.1.outline = e.outline
  | .name sp id, s, s', r, h, _ => by
    rw [nameExpr_eq (by simpa only [expr] using h)]
  | .int _ _, s, s', r, h, _ | .char _ _, s, s', r, h, _ | .bool _ _, s, s', r, h, _ | .text _ _, s, s', r, h, _ => by
    simp only [expr, pure_ok] at h
    rw [← h.1]
  | .list sp items, s, s', r, h, _ => by
    rw [expr_list] at h
    exact absurd h fail_ok
  | .array sp items, s, s', r, h, hw => by
    obtain ⟨-, es, elem, he, rfl⟩ := expr_array_ok h
    simp only [Expr.outline, elements_outline he hw]
  | .record sp type fs, s, s', r, h, hw => by
    obtain ⟨t, record, u, es, -, he, -, rfl⟩ := expr_record_ok h
    simp only [Expr.outline, fields_outline he hw]
  | .unary sp op e, s, s', r, h, hw => by
    simp only [expr, bind_ok, pure_ok] at h
    obtain ⟨⟨e', t⟩, u, he, _, _, -, rfl, -⟩ := h
    have hout := expr_outline (e := e) he hw
    simp only [Expr.outline, hout]
  | .binary sp l op r, s, s', _, h, hw => by
    simp only [expr, bind_ok, pure_ok] at h
    obtain ⟨⟨l', lt⟩, u, hl, ⟨r', rt⟩, v, hr, _, _, -, rfl, -⟩ := h
    have hlo := expr_outline hl hw.1
    have hro := expr_outline hr hw.2
    simp only [Expr.outline, hlo, hro]
  | .member sp base m, s, s', r, h, hw => by
    simp only [expr, bind_ok] at h
    obtain ⟨⟨b, t⟩, u, hb, h⟩ := h
    obtain ⟨_, -, rfl⟩ := memberAccess_ok h
    have hout := expr_outline (e := base) hb hw
    simp only [Expr.outline, hout]
  | .index sp base i, s, s', r, h, hw => by
    simp only [expr, bind_ok] at h
    obtain ⟨b, u, hb, i', v, hi, h⟩ := h
    rw [(elementAccess_ok h).2.2.1]
    simp only [Expr.outline, expr_outline hb hw.1, expr_outline hi hw.2]
  | .call sp callee generic args, s, s', r, h, hw => by
    obtain ⟨es, ts, u, -, he, h⟩ := expr_call_ok h
    have hargs := exprs_outline he hw
    obtain ⟨-, hb⟩ | ⟨-, hc⟩ := h
    · obtain ⟨-, _, -, hres, -⟩ := builtinCall_ok hb
      simp only [hres, Expr.outline, hargs]
    · rw [cellCall_outline hc]
      simp only [Expr.outline, hargs]

theorem exprs_outline : ∀ {es : List Expr} {s s' : Checker} {r : List Expr × List Ty},
    exprs deeper es s = .ok r s' → Expr.AllDirect es → Expr.outlines r.1 = Expr.outlines es
  | [], s, s', r, h, _ => by
    simp only [exprs, pure_ok] at h
    rw [← h.1]
  | e :: es, s, s', r, h, hw => by
    simp only [exprs, bind_ok, pure_ok] at h
    obtain ⟨⟨e', t⟩, u, he, ⟨es', ts⟩, v, hes, rfl, -⟩ := h
    have hhead := expr_outline he hw.1
    have htail := exprs_outline hes hw.2
    simp only [Expr.outlines, hhead, htail]

theorem elements_outline : ∀ {es : List Expr} {sofar : Option Ty} {s s' : Checker} {r : List Expr × Ty},
    elements deeper sofar es s = .ok r s' → Expr.AllDirect es → Expr.outlines r.1 = Expr.outlines es
  | [], sofar, s, s', r, h, _ => by
    simp only [elements, pure_ok] at h
    rw [← h.1]
  | e :: es, sofar, s, s', r, h, hw => by
    simp only [elements, bind_ok, pure_ok] at h
    obtain ⟨⟨e', t⟩, u, he, _, v, -, ⟨es', elem⟩, w, hes, rfl, -⟩ := h
    have hhead := expr_outline he hw.1
    have htail := elements_outline hes hw.2
    simp only [Expr.outlines, hhead, htail]

theorem fields_outline : ∀ {fs : List (Ident × Expr)} {type : Ty} {record : Option RecordInfo} {seen : List String}
    {s s' : Checker} {r : List (Ident × Expr)}, fields deeper type record seen fs s = .ok r s' →
      Expr.FieldsDirect fs → Expr.fieldOutlines r = Expr.fieldOutlines fs
  | [], type, record, seen, s, s', r, h, _ => by
    simp only [fields, pure_ok] at h
    rw [← h.1]
  | (f, e) :: fs, type, record, seen, s, s', r, h, hw => by
    obtain ⟨info, e', t, u, rest, -, he, -, hfs, rfl⟩ := fields_cons_ok h
    have hhead := expr_outline he hw.1
    have htail := fields_outline hfs hw.2
    simp only [Expr.fieldOutlines, hhead, htail]

end

theorem exprs_types_length {es : List Expr} {r : List Expr × List Ty} (h : exprs deeper es s = .ok r s') :
    r.2.length = r.1.length := by
  induction es generalizing s s' r with
  | nil =>
    simp only [exprs, pure_ok] at h
    rw [← h.1]
    rfl
  | cons e es ih =>
    simp only [exprs, bind_ok, pure_ok] at h
    obtain ⟨_, u, -, ⟨es', ts⟩, v, hes, rfl, -⟩ := h
    exact congrArg (· + 1) (ih hes)

/-- **A range keeps its outline**, and a list has the types of its items. -/
theorem rangeExpr_outline {e : Expr} {r : Typed} (h : rangeExpr deeper e s = .ok r s') (hw : e.Direct) :
    r.1.outline = e.outline ∧ ∀ sp items, r.1 = .list sp items → ∃ ts, r.2 = .list ts ∧ ts.length = items.length := by
  by_cases hlist : ∃ sp items, e = .list sp items
  · obtain ⟨sp, items, rfl⟩ := hlist
    simp only [rangeExpr, listExpr, bind_ok, pure_ok] at h
    obtain ⟨⟨es, ts⟩, _, he, rfl, -⟩ := h
    have hout := exprs_outline he hw
    refine ⟨by simp only [Expr.outline, hout], fun _ _ hr => ⟨ts, rfl, ?_⟩⟩
    cases hr
    exact exprs_types_length he
  · have he : expr deeper e s = .ok r s' := by
      cases e with
      | list sp items => exact absurd ⟨sp, items, rfl⟩ hlist
      | _ => exact h
    have hout := expr_outline he hw
    refine ⟨hout, fun sp items hr => ?_⟩
    rw [hr] at hout
    cases e <;> simp only [Expr.outline, reduceCtorEq] at hout
    exact absurd ⟨_, _, rfl⟩ hlist

theorem initialValue_outline {declared : Option Ty} {e : Expr} {r : Typed}
    (h : initialValue deeper declared e s = .ok r s') (hw : e.Direct) : r.1.outline = e.outline := by
  obtain ⟨sp, _, rfl, -, hres, -⟩ | he := initialValue_ok h
  · rw [hres]
  · exact expr_outline he hw

theorem valDecl_outline {d r : ValDecl} (h : valDecl deeper d s = .ok r s') (hw : d.expr.Direct) :
    r.outline = d.outline := by
  obtain ⟨declared, t, e, type, u, -, he, -, -, rfl⟩ := valDecl_ok h
  have hout := initialValue_outline he hw
  simp only [ValDecl.outline, hout]

theorem initStmt_outline : ∀ {i r : Option Init} {s s' : Checker}, initStmt deeper i s = .ok r s' →
    Init.Direct i → Init.outline r = Init.outline i
  | none, r, s, s', h, _ => by
    simp only [initStmt, pure_ok] at h
    rw [← h.1]
  | some (.val d), r, s, s', h, hw => by
    simp only [initStmt, bind_ok, pure_ok] at h
    obtain ⟨d', _, hv, rfl, -⟩ := h
    simp only [Init.outline, valDecl_outline hv hw]
  | some (.expr e), r, s, s', h, hw => by
    simp only [initStmt, bind_ok, pure_ok] at h
    obtain ⟨⟨e', t⟩, _, he, rfl, -⟩ := h
    have hout := expr_outline (e := e) he hw
    simp only [Init.outline, hout]

theorem condition_outline {what : Condition} {e r : Expr} (h : condition deeper what e s = .ok r s')
    (hw : e.Direct) : r.outline = e.outline := by
  obtain ⟨t, he, -⟩ := condition_ok h
  exact expr_outline he hw

/-! ## Copies -/

/-- **What is one level down keeps the outline**, and makes faithful copies. -/
def Deeper.Outlines (deeper : Deeper) : Prop :=
  ∀ {x s r s'}, deeper.stmt x s = .ok r s' → x.outline.Written → r.outline = x.outline ∧ r.Faithful

theorem mapM_outline (hd : deeper.Outlines) : ∀ {xs : List Stmt} {s s' : Checker} {r : List Stmt},
    xs.mapM deeper.stmt s = .ok r s' → Stmt.AllWritten (Stmt.outlines xs) →
      Stmt.outlines r = Stmt.outlines xs ∧ Stmt.AllFaithful r
  | [], s, s', r, h, _ => by
    simp only [List.mapM_nil, pure_ok] at h
    obtain ⟨rfl, -⟩ := h
    exact ⟨rfl, trivial⟩
  | x :: xs, s, s', r, h, hw => by
    simp only [List.mapM_cons, bind_ok, pure_ok] at h
    obtain ⟨x', t, hx, rest, _, hxs, rfl, -⟩ := h
    obtain ⟨hout, hf⟩ := hd hx hw.1
    obtain ⟨houts, hfs⟩ := mapM_outline hd hxs hw.2
    exact ⟨by simp only [Stmt.outlines, hout, houts], hf, hfs⟩

theorem rangeName_not_worded (d : Nat) : ¬ Worded (rangeName d) := by
  intro h
  refine h.notMem (c := '.') (by decide) ?_
  unfold rangeName
  rw [String.toList_append]
  exact List.mem_append_left _ (by decide)

theorem copyArgs_fills {index : IndexParam} (hidx : index.name = indexName index.depth) (i : Nat) :
    FillsIndex (copyArgs index i) where
  others := fun hn => by
    rw [copyArgs_lookup, if_neg]
    rw [hidx]
    exact hn _
  values := fun h => by
    rw [copyArgs_lookup] at h
    split at h <;> cases h

theorem outlines_item {es es' : List Expr} (h : Expr.outlines es' = Expr.outlines es) (i : Nat) :
    (es'[i]?).map Expr.outline = (es[i]?).map Expr.outline := by
  rw [Expr.outlines_eq, Expr.outlines_eq] at h
  rw [← List.getElem?_map, ← List.getElem?_map, h]

/-- The template of a list holds the whole list, and its index. -/
theorem template_list {p : Pending} {ts : List Ty} {var : ValDecl} (hw : p.range.Direct)
    (h : valDecl deeper (loopDecl p (.list ts)) s = .ok var s') :
    ∃ lsp items es, p.range = .list lsp items ∧ Expr.outlines es = Expr.outlines items ∧
      var.expr = .listSelect p.range.span (.list lsp es) p.index.reference := by
  obtain ⟨declared, t, e, type, u, -, he, -, -, rfl⟩ := valDecl_ok h
  have hexpr : (loopDecl p (.list ts)).expr = .listSelect p.range.span p.range p.index.reference := rfl
  rw [hexpr] at he
  have he := initialValue_expr (fun sp => by simp) he
  obtain ⟨lsp, items, hrange⟩ := expr_listSelect_list he
  rw [hrange] at he
  obtain ⟨i, hi, -⟩ | ⟨-, es, tys, hes, hres⟩ := expr_listSelect_ok he
  · exact absurd hi evalIndex_name
  · rw [hrange] at hw ⊢
    exact ⟨lsp, items, es, rfl, exprs_outline hes hw, (Prod.mk.inj hres).1⟩

/-- **A copy out of a list declares its own element.** -/
theorem copy_item {p : Pending} (hidx : p.index.name = indexName p.index.depth) {lsp : Span} {items es : List Expr}
    (hw : Expr.AllDirect items) (hes : Expr.outlines es = Expr.outlines items) {var v d : ValDecl}
    {i : Nat} (hvar : var.expr = .listSelect p.range.span (.list lsp es) p.index.reference)
    (hsub : Subst.valDecl (copyArgs p.index i) var = .ok v) (h : valDecl deeper v s = .ok d s') :
    (items[i]?).map Expr.outline = some d.expr.outline := by
  have hindex : (copyArgs p.index i).lookup? p.index.name = some (.value i) := by
    rw [copyArgs_lookup, if_pos rfl]
  simp only [Subst.valDecl, hvar, Subst.expr, IndexParam.reference, Expr.ofIdent, Subst.name, hindex, except_bind_ok,
    except_pure_ok, Except.ok.injEq, exists_eq_left'] at hsub
  obtain ⟨t, -, e, ⟨_, ⟨es', hes', rfl⟩, he⟩, rfl⟩ := hsub
  have hdirect : ∀ {fs : List Expr}, Expr.outlines fs = Expr.outlines items → Expr.AllDirect fs :=
    fun hfs => (Expr.outlines_direct _).1 (hfs ▸ (Expr.outlines_direct items).2 hw)
  have hout := substExprs_outline (copyArgs_fills hidx i) (hdirect hes) hes'
  simp only [Subst.foldListSelect, Subst.literal?, Subst.item?, Int.natCast_nonneg, if_true, Int.toNat_natCast] at he
  cases hitem : es'[i]? with
  | none =>
    rw [hitem] at he
    cases he
  | some e₀ =>
    rw [hitem] at he
    cases he
    have hwe : e.Direct := Expr.allDirect_item hitem (hdirect (hout.trans hes))
    obtain ⟨declared, u, e', type, w, -, hinit, -, -, rfl⟩ := valDecl_ok h
    rw [← outlines_item (hout.trans hes), hitem]
    exact congrArg some (initialValue_outline hinit hwe).symm

theorem selects_no_typeNames {els : Elements} {i : Nat} {e : Expr} (h : els.Selects i e) (hl : ∀ n, els ≠ .list n) :
    e.typeNames = [] := by
  cases els with
  | list n => exact absurd rfl (hl n)
  | array base n =>
    obtain ⟨_, _, _, _, rfl, -⟩ := h
    rfl
  | members base ms =>
    obtain ⟨_, _, _, _, rfl, -, -⟩ := h
    rfl

/-- **What the template of an expansion begins with.** -/
structure Heads (p : Pending) (walk : Walk) (var : ValDecl) : Prop where
  header : var = { loopDecl p walk with expr := var.expr }
  read : walk.needsBinding = true → var.expr = (loopDecl p walk).expr ∧ ∀ sp items, p.range ≠ .list sp items
  listed : walk.needsBinding = false → ∃ lsp items es, p.range = .list lsp items ∧ Expr.outlines es = Expr.outlines items ∧
    walk.count? = some items.length ∧ var.expr = .listSelect p.range.span (.list lsp es) p.index.reference

theorem template_heads {p : Pending} {walk : Walk} {var : ValDecl} {t : Checker} (hw : p.range.Direct)
    (hlist : ∀ sp items, p.range = .list sp items → ∃ ts, p.rangeType = .list ts ∧ ts.length = items.length)
    (hwalk : walkOf t p.range.span p.rangeType = .ok walk) (hcount : walk ≠ .dependent)
    (h : valDecl deeper (loopDecl p walk) s = .ok var s') : Heads p walk var := by
  refine ⟨?_, fun hb => ⟨template_selector hb h, fun sp items hr => ?_⟩, fun hb => ?_⟩
  · obtain ⟨_, _, _, _, _, -, -, -, -, rfl⟩ := valDecl_ok h
    rfl
  · obtain ⟨ts, hts, -⟩ := hlist sp items hr
    rw [hts] at hwalk
    cases hwalk
    cases hb
  · cases walk with
    | array n elem => cases hb
    | members r ms => cases hb
    | dependent => exact absurd rfl hcount
    | list ts =>
      obtain ⟨lsp, items, es, hrange, hes, hexpr⟩ := template_list hw h
      obtain ⟨ts', hts, hlen⟩ := hlist lsp items hrange
      rw [hts] at hwalk
      cases hwalk
      exact ⟨lsp, items, es, hrange, hes, congrArg some hlen, hexpr⟩

/-- **A copy begins with its own element.** -/
theorem copy_initial {p : Pending} {walk : Walk} (hidx : p.index.name = indexName p.index.depth) (hw : p.range.Direct)
    {var v d : ValDecl} {i : Nat} (hvar : Heads p walk var) (hsub : Subst.valDecl (copyArgs p.index i) var = .ok v)
    (h : valDecl deeper v s = .ok d s') : (elementsOf p walk).Initial p.range i d.expr := by
  refine ⟨copy_selects hidx (fun hb => (hvar.read hb).1) hsub h, fun lsp items hr => ?_⟩
  cases hb : walk.needsBinding with
  | true => exact absurd hr ((hvar.read hb).2 lsp items)
  | false =>
    obtain ⟨lsp', items', es, hrange, hes, -, hexpr⟩ := hvar.listed hb
    rw [hrange] at hr hw
    obtain ⟨rfl, rfl⟩ := Expr.list.inj hr
    exact copy_item hidx hw hes hexpr hsub h

/-- A copy is the declaration of its element, checked, and the body with the index filled in, checked after it. -/
theorem copyAt_cons_ok (ho : ∀ {x s r s'}, deeper.stmt x s = .ok r s' → ∃ d, Check.stmt d x s = .ok r s')
    {index : IndexParam} {sp : Span} {var : ValDecl} {ss : List Stmt} {keyword : Span} {i : Nat} {c : Copy}
    (h : copyAt deeper ⟨sp, .val var :: ss⟩ index keyword i s = .ok c s') :
    ∃ d v x fr t u w rest rest', Subst.valDecl (copyArgs index i) var = .ok v ∧ Subst.stmts (copyArgs index i) ss = .ok rest ∧
      valDecl d v (copying fr s) = .ok x t ∧ deeper.stmt (.val v) (copying fr s) = .ok (.val x) t ∧
      rest.mapM deeper.stmt t = .ok rest' u ∧ c = ⟨i, ⟨sp, .val x :: rest'⟩⟩ ∧ s' = { copied u with events := w } := by
  obtain ⟨body, t, news, hb, rfl, rfl, -⟩ := copyAt_ok h
  obtain ⟨fr, b, xs, u, -, hsub, hxs, rfl, rfl⟩ := instantiateBlock_ok hb
  obtain ⟨v, rest, hv, hrest, rfl⟩ := substBlock_cons hsub
  simp only [List.mapM_cons, bind_ok, pure_ok] at hxs
  obtain ⟨x', w, hx, rest', _, hxs, rfl, rfl⟩ := hxs
  obtain ⟨d, hx'⟩ := ho hx
  simp only [stmt, map_ok] at hx'
  obtain ⟨x, hxv, rfl⟩ := hx'
  exact ⟨d, v, x, fr, w, _, _, rest, rest', hv, hrest, hxv, hx, hxs, rfl, rfl⟩

theorem copyAt_outline (hd : deeper.Outlines) (ho : ∀ {x s r s'}, deeper.stmt x s = .ok r s' → ∃ d, Check.stmt d x s = .ok r s')
    {p : Pending} (hidx : p.index.name = indexName p.index.depth) (hwr : p.range.Direct)
    (hwv : TypeRef.Written? (p.var.type.map TypeRef.outline)) {walk : Walk} {var : ValDecl}
    (hvar : Heads p walk var) {sp : Span} {ss : List Stmt} (hws : Stmt.AllWritten (Stmt.outlines ss)) {keyword : Span}
    {i : Nat} {c : Copy} (h : copyAt deeper ⟨sp, .val var :: ss⟩ p.index keyword i s = .ok c s') :
    ∃ d rest, c = ⟨i, ⟨sp, .val d :: rest⟩⟩ ∧ CopyOf p.var p.range ss i d rest ∧ Stmt.AllFaithful (.val d :: rest) := by
  obtain ⟨d', v, d, fr, t, u, w, rest, rest', hv, hrest, hdv, -, hxs, rfl, -⟩ := copyAt_cons_ok ho h
  have hfills := copyArgs_fills hidx i
  have hrout := substStmts_outline hfills hws hrest
  obtain ⟨hout, hf⟩ := mapM_outline hd hxs (hrout ▸ hws)
  obtain ⟨hselects, hitem⟩ := copy_initial hidx hwr hvar hv hdv
  have hvtype : var.type = p.var.type := congrArg ValDecl.type hvar.header
  have htype : d.type.map TypeRef.outline = p.var.type.map TypeRef.outline := by
    obtain ⟨_, _, _, _, _, -, -, -, -, rfl⟩ := valDecl_ok hdv
    simp only [Subst.valDecl, except_bind_ok, except_pure_ok] at hv
    obtain ⟨ty, hty, _, -, rfl⟩ := hv
    rw [← hvtype]
    exact substTypeRef?_outline hfills (hvtype ▸ hwv) hty
  refine ⟨d, rest', rfl, ⟨htype, hitem, fun hne => selects_no_typeNames hselects fun n => ?_, hout.trans hrout⟩, trivial, hf⟩
  cases hb : walk.needsBinding with
  | true => cases walk <;> simp_all [elementsOf, Walk.needsBinding]
  | false =>
    obtain ⟨lsp', items', _, hrange, -⟩ := hvar.listed hb
    exact absurd hrange (hne lsp' items')

theorem copiesFrom_outline (hd : deeper.Outlines)
    (ho : ∀ {x s r s'}, deeper.stmt x s = .ok r s' → ∃ d, Check.stmt d x s = .ok r s') {p : Pending}
    (hidx : p.index.name = indexName p.index.depth) (hwr : p.range.Direct)
    (hwv : TypeRef.Written? (p.var.type.map TypeRef.outline)) {walk : Walk} {var : ValDecl}
    (hvar : Heads p walk var) {sp : Span} {ss : List Stmt} (hws : Stmt.AllWritten (Stmt.outlines ss)) {keyword : Span} :
    ∀ {left i : Nat} {s s' : Checker} {cs : List Copy},
      copiesFrom (copyAt deeper ⟨sp, .val var :: ss⟩ p.index keyword) left i s = .ok cs s' →
        Copy.AllFaithful p.var p.range ss i cs
  | 0, i, s, s', cs, h => by
    simp only [copiesFrom, pure_ok] at h
    obtain ⟨rfl, -⟩ := h
    trivial
  | left + 1, i, s, s', cs, h => by
    simp only [copiesFrom, bind_ok, pure_ok] at h
    obtain ⟨c, t, hc, cs', _, hcs, rfl, -⟩ := h
    obtain ⟨d, rest, rfl, hcopy, hf⟩ := copyAt_outline hd ho hidx hwr hwv hvar hws hc
    exact ⟨⟨d, rest, rfl, hcopy⟩, hf, copiesFrom_outline hd ho hidx hwr hwv hvar hws hcs⟩

/-! ## Statements -/

theorem expansion_outline (hd : deeper.Outlines)
    (ho : ∀ {x s r s'}, deeper.stmt x s = .ok r s' → ∃ d, Check.stmt d x s = .ok r s') {span keyword bsp : Span}
    {init : Option Init} {var : LoopVar} {range : Expr} {ss : List Stmt} {depth : Option Nat} {state : Unrolling}
    (hw : (Expansion.mk span keyword init var range ⟨bsp, ss⟩ depth state).outline.Written)
    (hbody : ∀ {s s' : Checker} {r : List Stmt}, stmts deeper ss s = .ok r s' →
      Stmt.outlines r = Stmt.outlines ss ∧ Stmt.AllFaithful r)
    {r : Expansion} (h : expansion deeper ⟨span, keyword, init, var, range, ⟨bsp, ss⟩, depth, state⟩ s = .ok r s') :
    r.outline = (Expansion.mk span keyword init var range ⟨bsp, ss⟩ depth state).outline ∧ r.Faithful := by
  simp only [expansion, bind_ok] at h
  obtain ⟨p, t, hp, hx⟩ := h
  obtain ⟨init', u, range', type, hi, hr, rfl⟩ := beginExpansion_ok hp
  obtain ⟨walk, v, var', ss', w, state', z, hwalk, -, ht, hu, rfl, -⟩ := finishExpansion_ok hx
  obtain ⟨_, _, hv, hss, -⟩ := templateOf_ok ht
  obtain ⟨hwi, hwv, hwr, hwb⟩ := hw
  have hinit := initStmt_outline hi (Init.direct_of_outline hwi)
  obtain ⟨hrange, hlist⟩ := rangeExpr_outline hr (Expr.direct_of_outline hwr)
  obtain ⟨hout, hf⟩ := hbody hss
  have hws : Stmt.AllWritten (Stmt.outlines ss') := by
    rw [hout]
    exact hwb
  simp only at hinit hrange hlist hout hf
  refine ⟨by simp only [Expansion.outline, Block.outline, hinit, hrange, hout], hf, ?_⟩
  obtain ⟨-, rfl, -⟩ | ⟨-, rfl, -⟩ | ⟨n, cs, hcount, rfl, hcs⟩ := unrolling_ok hu
  · trivial
  · trivial
  have hne : walk ≠ .dependent := by
    rintro rfl
    cases hcount
  have hdirect : range'.Direct := (Expr.direct_of_outline hwr).of_outline hrange
  have hheads := template_heads hdirect hlist hwalk hne hv
  have hwtype : TypeRef.Written? (var.type.map TypeRef.outline) := hwv.type
  refine ⟨fun d hbound => ?_, copiesFrom_outline hd ho rfl hdirect hwtype hheads hws hcs⟩
  unfold bindingFor at hbound
  split at hbound
  · cases hbound
    exact ⟨rfl, rfl, rangeName_not_worded _⟩
  · cases hbound

mutual

theorem stmt_outline (hd : deeper.Outlines)
    (ho : ∀ {x s r s'}, deeper.stmt x s = .ok r s' → ∃ d, Check.stmt d x s = .ok r s') : ∀ {x : Stmt} {s s' : Checker}
      {r : Stmt}, stmt deeper x s = .ok r s' → x.outline.Written → r.outline = x.outline ∧ r.Faithful
  | .typeAlias _ _ _ _, s, s', r, h, _ | .trait _ _, s, s', r, h, _ | .cell _, s, s', r, h, _ => by
    simp only [stmt] at h
    exact absurd h fail_ok
  | .record d, s, s', r, h, _ => by
    simp only [stmt, bind_ok, pure_ok] at h
    obtain ⟨_, _, -, rfl, -⟩ := h
    exact ⟨rfl, trivial⟩
  | .val d, s, s', r, h, hw => by
    simp only [stmt, map_ok] at h
    obtain ⟨d', hd', rfl⟩ := h
    exact ⟨congrArg Stmt.val (valDecl_outline hd' (Expr.direct_of_outline hw.expr)), trivial⟩
  | .assign sp target e, s, s', r, h, hw => by
    obtain ⟨v, e', t, -, -, he, -, rfl⟩ := assignment_ok (by simpa only [stmt] using h)
    have hout := expr_outline he (Expr.direct_of_outline hw.2)
    exact ⟨congrArg (Stmt.assign sp target) hout, trivial⟩
  | .cond sp c yes none, s, s', r, h, hw => by
    simp only [stmt, bind_ok, pure_ok] at h
    obtain ⟨c', t, hc, yes', _, hy, rfl, -⟩ := h
    obtain ⟨hyo, hyf⟩ := block_outline hd ho hy hw.2
    exact ⟨by simp only [Stmt.outline, condition_outline hc (Expr.direct_of_outline hw.1), hyo], hyf⟩
  | .cond sp c yes (some no), s, s', r, h, hw => by
    simp only [stmt, bind_ok, pure_ok] at h
    obtain ⟨c', t, hc, yes', u, hy, no', _, hn, rfl, -⟩ := h
    obtain ⟨hyo, hyf⟩ := block_outline hd ho hy hw.2.1
    obtain ⟨hno, hnf⟩ := block_outline hd ho hn hw.2.2
    exact ⟨by simp only [Stmt.outline, condition_outline hc (Expr.direct_of_outline hw.1), hyo, hno], hyf, hnf⟩
  | .loop sp c ⟨bsp, ss⟩, s, s', r, h, hw => by
    simp only [stmt, bind_ok, pure_ok] at h
    obtain ⟨c', t, hc, b, _, hb, rfl, -⟩ := h
    obtain ⟨u, hb, -⟩ := loopBodyWith_ok hb
    obtain ⟨ss', v, hss, rfl, -⟩ := blockWith_ok hb
    obtain ⟨hout, hf⟩ := stmts_outline hd ho hss hw.2
    exact ⟨by simp only [Stmt.outline, Block.outline, condition_outline hc (Expr.direct_of_outline hw.1), hout], hf⟩
  | .expand ⟨span, keyword, init, var, range, ⟨bsp, ss⟩, depth, state⟩, s, s', r, h, hw => by
    simp only [stmt, map_ok] at h
    obtain ⟨x, hx, rfl⟩ := h
    obtain ⟨hout, hf⟩ := expansion_outline hd ho hw (fun hss => stmts_outline hd ho hss hw.2.2.2) hx
    exact ⟨congrArg Stmt.expand hout, hf⟩
  | .leave sp, s, s', r, h, _ => by
    obtain ⟨-, -, rfl⟩ := jump_ok (by simpa only [stmt] using h)
    exact ⟨rfl, trivial⟩
  | .next sp, s, s', r, h, _ => by
    obtain ⟨-, -, rfl⟩ := jump_ok (by simpa only [stmt] using h)
    exact ⟨rfl, trivial⟩
  | .give sp e, s, s', r, h, hw => by
    obtain ⟨e, e', t, rfl, he, -, rfl⟩ | ⟨rfl, -, rfl, -⟩ := giveBack_ok (by simpa only [stmt] using h)
    · have hout := expr_outline (e := e) he (Expr.direct_of_outline hw)
      exact ⟨by simp only [Stmt.outline, hout], trivial⟩
    · exact ⟨rfl, trivial⟩
  | .assert sp e, s, s', r, h, hw => by
    obtain ⟨e', he, rfl⟩ := assertion_ok (by simpa only [stmt] using h)
    have hout := condition_outline (e := e) he (Expr.direct_of_outline hw)
    exact ⟨congrArg (Stmt.assert sp) hout, trivial⟩
  | .expr e, s, s', r, h, hw => by
    simp only [stmt, bind_ok, pure_ok] at h
    obtain ⟨⟨e', t⟩, _, he, rfl, -⟩ := h
    have hout := expr_outline (e := e) he (Expr.direct_of_outline hw)
    exact ⟨congrArg Stmt.expr hout, trivial⟩

theorem stmts_outline (hd : deeper.Outlines)
    (ho : ∀ {x s r s'}, deeper.stmt x s = .ok r s' → ∃ d, Check.stmt d x s = .ok r s') : ∀ {xs : List Stmt}
      {s s' : Checker} {r : List Stmt}, stmts deeper xs s = .ok r s' → Stmt.AllWritten (Stmt.outlines xs) →
        Stmt.outlines r = Stmt.outlines xs ∧ Stmt.AllFaithful r
  | [], s, s', r, h, _ => by
    simp only [stmts, pure_ok] at h
    obtain ⟨rfl, -⟩ := h
    exact ⟨rfl, trivial⟩
  | x :: xs, s, s', r, h, hw => by
    simp only [stmts, bind_ok, pure_ok] at h
    obtain ⟨x', t, hx, xs', _, hxs, rfl, -⟩ := h
    obtain ⟨hout, hf⟩ := stmt_outline hd ho hx hw.1
    obtain ⟨houts, hfs⟩ := stmts_outline hd ho hxs hw.2
    exact ⟨by simp only [Stmt.outlines, hout, houts], hf, hfs⟩

theorem block_outline (hd : deeper.Outlines)
    (ho : ∀ {x s r s'}, deeper.stmt x s = .ok r s' → ∃ d, Check.stmt d x s = .ok r s') : ∀ {b : Block}
      {s s' : Checker} {r : Block}, block deeper b s = .ok r s' → b.outline.Written → r.outline = b.outline ∧ r.Faithful
  | ⟨sp, ss⟩, s, s', r, h, hw => by
    simp only [block] at h
    obtain ⟨ss', t, hss, rfl, -⟩ := blockWith_ok h
    obtain ⟨hout, hf⟩ := stmts_outline hd ho hss hw
    exact ⟨by simp only [Block.outline, hout], hf⟩

end

theorem levels_open : ∀ (n : Nat) {x : Stmt} {s s' : Checker} {r : Stmt}, (levels n).stmt x s = .ok r s' →
    ∃ d, Check.stmt d x s = .ok r s'
  | 0, _, _, _, _, h => absurd h fail_ok
  | n + 1, _, _, _, _, h => ⟨levels n, h⟩

/-- **A statement keeps its outline when it is checked, and its copies are faithful.** -/
theorem levels_outline : ∀ n : Nat, (levels n).Outlines
  | 0 => fun h => absurd h fail_ok
  | n + 1 => fun h => stmt_outline (levels_outline n) (levels_open n) h

end Check
end Unroll
