import Unroll.Proofs.Check.InStepTypes
/-!
# Expressions in step

The type of an expression is compared with others and taken apart, and its records are looked up; none of this tells one
name of a record from another.
-/
namespace Unroll
namespace Check

open CheckM Outcome Checker

variable {ρ : Renaming} {d : Deeper}

/-! ## Operators -/

theorem unaryType_inStep (sp : Span) (op : UnaryOp) (t : Ty) :
    InStep ρ (fun a b => b = a.renamed ρ) (unaryType sp op t) (unaryType sp op (t.renamed ρ)) := by
  unfold unaryType
  rw [Ty.renamed_isUnknown]
  split
  · exact .pure rfl
  · cases op with
    | neg =>
      cases t with
      | int => exact .pure rfl
      | _ => exact .fail _ _ _ _
    | not =>
      cases t with
      | bool => exact .pure rfl
      | _ => exact .fail _ _ _ _

theorem hasEquality_renamed (t : Ty) : hasEquality (t.renamed ρ) = hasEquality t := by cases t <;> rfl

theorem knownBinaryType?_renamed (op : BinOp) (l r : Ty) :
    knownBinaryType? op (l.renamed ρ) (r.renamed ρ) = knownBinaryType? op l r := by
  cases op with
  | eq | ne => simp only [knownBinaryType?, Ty.renamed_eq_iff, hasEquality_renamed]
  | _ => cases l <;> first | rfl | (cases r <;> rfl)

theorem knownBinaryType?_basic {op : BinOp} {l r t : Ty} (h : knownBinaryType? op l r = some t) : t.renamed ρ = t := by
  unfold knownBinaryType? at h
  split at h
  all_goals first | (cases h; rfl) | cases h | (split at h <;> cases h; rfl)

theorem binaryType_inStep (sp : Span) (op : BinOp) (l r : Ty) :
    InStep ρ (fun a b => b = a.renamed ρ) (binaryType sp op l r) (binaryType sp op (l.renamed ρ) (r.renamed ρ)) := by
  unfold binaryType
  rw [Ty.renamed_isUnknown, Ty.renamed_isUnknown, knownBinaryType?_renamed]
  split
  · exact .pure (by cases op <;> rfl)
  · cases h : knownBinaryType? op l r with
    | some t => exact .pure (knownBinaryType?_basic h).symm
    | none => exact .fail _ _ _ _

/-! ## Members and elements -/

theorem field?_renamed (r : RecordInfo) (n : String) : (r.renamed ρ).field? n = (r.field? n).map (FieldInfo.renamed ρ) := by
  unfold RecordInfo.field? RecordInfo.renamed
  rw [List.find?_map]
  rfl

theorem memberType_inStep (base : Expr) (t : Ty) (m : Ident) :
    InStep ρ (fun a b => b = a.renamed ρ) (memberType base t m) (memberType base (t.renamed ρ) m) := by
  unfold memberType
  simp only [Ty.renamed_isUnknown]
  split
  · exact .pure rfl
  · cases t with
    | record n =>
      refine .bind .get fun {s u} hsu => ?_
      rw [hsu.record?]
      cases s.record? (.record n) with
      | none => exact .fail _ _ _ _
      | some r =>
        simp only [Option.map_some, field?_renamed]
        cases r.field? m.name with
        | none => exact .fail _ _ _ _
        | some f =>
          show InStep ρ _ (if f.hidden = true then _ else _) (if f.hidden = true then _ else _)
          split
          · exact .fail _ _ _ _
          · exact .pure rfl
    | _ => exact .fail _ _ _ _

/-- The same expression, with a type that stands in place of the first one's. -/
def TypedLike (ρ : Renaming) (r r' : Typed) : Prop := r' = (r.1, r.2.renamed ρ) ∧ r.1.renamed ρ = r.1

theorem memberAccess_inStep {b : Expr} (hb : b.renamed ρ = b) (t : Ty) (m : Ident) :
    InStep ρ (TypedLike ρ) (memberAccess b t m) (memberAccess b (t.renamed ρ) m) := by
  refine .bind (memberType_inStep b t m) fun h => .pure ?_
  subst h
  exact ⟨rfl, by rw [Expr.renamed, hb]⟩

theorem checkBounds_inStep (index : Expr) (p : Span) (n : Option Nat) :
    InStep ρ (fun _ _ => True) (checkBounds index p n) (checkBounds index p n) := by
  refine .bind .place fun {p q} hpq => ?_
  obtain ⟨rfl, -⟩ := hpq
  rw [show (p.renamed ρ).constant? = p.constant? from rfl]
  split
  · split
    · exact .fail _ _ _ _
    · exact .pure trivial
  · exact .pure trivial

theorem elementAccess_inStep (sp bsp isp : Span) {b i b' i' : Typed} (hb : TypedLike ρ b b') (hi : TypedLike ρ i i') :
    InStep ρ (TypedLike ρ) (elementAccess sp bsp isp b i) (elementAccess sp bsp isp b' i') := by
  obtain ⟨b, bt⟩ := b
  obtain ⟨i, it⟩ := i
  obtain ⟨rfl, hb⟩ := hb
  obtain ⟨rfl, hi⟩ := hi
  have hexpr : (Expr.index sp b i).renamed ρ = .index sp b i := by rw [Expr.renamed, hb, hi]
  unfold elementAccess
  have hint : it.renamed ρ = .int ↔ it = .int := Ty.renamed_eq_iff (u := .int)
  simp only [ne_eq, hint, Ty.renamed_isUnknown]
  by_cases hidx : ¬ it = .int ∧ (!it.isUnknown) = true
  · simp only [if_pos hidx]
    exact fun _ _ hst => hst
  · simp only [if_neg hidx]
    cases bt with
    | array elem n => exact .bind (checkBounds_inStep i isp n) fun _ => .pure ⟨rfl, hexpr⟩
    | param n => exact .pure ⟨rfl, hexpr⟩
    | dependent | error => exact .pure ⟨rfl, hexpr⟩
    | list ts =>
      show InStep ρ _ (if (Ty.list ts).isUnknown = true then _ else _)
        (if ((Ty.list ts).renamed ρ).isUnknown = true then _ else _)
      rw [Ty.renamed_isUnknown]
      split
      · exact .pure ⟨rfl, hexpr⟩
      · exact .fail _ _ _ _
    | _ => exact .fail _ _ _ _

theorem elementType_inStep (sofar : Option Ty) (t : Ty) (p : Span) :
    InStep ρ (fun a b => b = a.renamed ρ) (elementType sofar t p) (elementType (sofar.map (Ty.renamed ρ)) (t.renamed ρ) p) := by
  cases sofar with
  | none => exact .pure rfl
  | some first =>
    simp only [Option.map_some, elementType, Ty.renamed_isUnknown, Ty.renamed_eq_iff]
    split
    · exact .pure rfl
    · split
      · exact .pure rfl
      · exact .fail _ _ _ _

/-! ## Calls -/

theorem builtinType_inStep (name : String) (t : Ty) (p : Span) :
    InStep ρ (fun a b => b = a.renamed ρ) (builtinType name t p) (builtinType name (t.renamed ρ) p) := by
  unfold builtinType
  split
  · cases t with
    | array elem n => exact .pure rfl
    | param n => exact .pure rfl
    | dependent | error => exact .pure rfl
    | list ts =>
      show InStep ρ _ (if (Ty.list ts).isUnknown = true then _ else _)
        (if ((Ty.list ts).renamed ρ).isUnknown = true then _ else _)
      rw [Ty.renamed_isUnknown]
      split
      · exact .pure rfl
      · exact .fail _ _ _ _
    | _ => exact .fail _ _ _ _
  · exact .pure rfl

theorem call_fixed {args : List Expr} (ha : Expr.allRenamed ρ args = args) (sp : Span) (callee : Ident) :
    (Expr.call sp callee [] args).renamed ρ = .call sp callee [] args := by
  rw [Expr.renamed, ha]
  rfl

theorem builtinCall_inStep (sp : Span) (callee : Ident) {args : List Expr} (ha : Expr.allRenamed ρ args = args)
    (types : List Ty) (ps : List Span) : InStep ρ (TypedLike ρ) (builtinCall sp callee args types ps)
      (builtinCall sp callee args (types.map (Ty.renamed ρ)) ps) := by
  rcases types with _ | ⟨t, _ | ⟨u, types⟩⟩
  · exact .fail _ _ _ _
  · rcases ps with _ | ⟨p, _ | ⟨q, ps⟩⟩
    · exact .fail _ _ _ _
    · refine .bind (builtinType_inStep callee.name t p) fun h => .pure ?_
      subst h
      exact ⟨rfl, call_fixed ha sp callee⟩
    · exact .fail _ _ _ _
  · exact .fail _ _ _ _

theorem checkParams_inStep : ∀ (ps : List CellParam) (sps : List Span) (ts : List Ty),
    InStep ρ (fun _ _ => True) (checkParams ps sps ts)
      (checkParams (ps.map (CellParam.renamed ρ)) sps (ts.map (Ty.renamed ρ)))
  | [], _, _ | _ :: _, [], _ | _ :: _, _ :: _, [] => by
    simp only [checkParams, List.map_nil, List.map_cons]
    exact .pure trivial
  | p :: ps, s :: sps, t :: ts => by
    simp only [checkParams, List.map_cons]
    exact .bind (checkAssignable_inStep p.type t s) fun _ => checkParams_inStep ps sps ts

theorem checkCall_inStep (name : String) (sig : CellSig) (ps : List Span) (ts : List Ty) (sp : Span) :
    InStep ρ (fun _ _ => True) (checkCall name sig ps ts sp) (checkCall name (sig.renamed ρ) ps (ts.map (Ty.renamed ρ)) sp) := by
  unfold checkCall
  simp only [CellSig.renamed, List.length_map]
  split
  · exact .fail _ _ _ _
  · exact checkParams_inStep sig.params ps ts

/-- Without generic cells, a call is one of a cell whose signature is known. -/
theorem cellCall_inStep (sp : Span) (callee : Ident) (generic : List TypeArg) {args : List Expr}
    (ha : Expr.allRenamed ρ args = args) (types : List Ty) (ps : List Span) : InStep ρ (TypedLike ρ)
      (cellCall d sp callee generic args types ps) (cellCall d sp callee generic args (types.map (Ty.renamed ρ)) ps) := by
  refine .bind .get fun {s t} hst => ?_
  rw [hst.cells]
  cases hsig : s.cells.find? callee.name with
  | some sig =>
    have hstay := hst.stays.cells hsig
    have hcall := checkCall_inStep (ρ := ρ) callee.name sig ps types sp
    rw [hstay] at hcall
    refine .guard rfl fun _ => .bind hcall fun _ => .pure ⟨?_, call_fixed ha sp callee⟩
    exact congrArg (Prod.mk _) (congrArg CellSig.ret hstay).symm
  | none =>
    refine .bind .get fun {s t} hst => ?_
    rw [hst.noGenerics.1, hst.noGenerics.2]
    exact .fail _ _ _ _

theorem nameExpr_inStep (sp : Span) (id : Ident) : InStep ρ (TypedLike ρ) (nameExpr sp id) (nameExpr sp id) := by
  refine .bind .get fun {s t} hst => ?_
  rw [hst.place, Place.renamed_val?]
  cases s.place.val? id.name with
  | some v => exact .pure ⟨rfl, rfl⟩
  | none =>
    simp only [Option.map_none]
    rw [show (s.place.renamed ρ).param? id.name = s.place.param? id.name from rfl]
    cases s.place.param? id.name with
    | some p =>
      obtain ⟨n, sort⟩ := p
      cases sort with
      | type b => exact .fail _ _ _ _
      | const => exact .pure ⟨rfl, rfl⟩
    | none =>
      dsimp only
      split <;> split <;> exact .fail _ _ _ _

theorem checkBuiltinArity_inStep (sp : Span) (callee : Ident) (n : Nat) :
    InStep ρ (fun _ _ => True) (checkBuiltinArity sp callee n) (checkBuiltinArity sp callee n) := by
  unfold checkBuiltinArity
  split
  · exact .fail _ _ _ _
  · exact .pure trivial

theorem constIndex_inStep (e : Expr) : InStep ρ (fun a b => b = a) (constIndex e) (constIndex e) := by
  refine .bind .place fun {p q} hpq => ?_
  obtain ⟨rfl, -⟩ := hpq
  exact .ofExcept_same rfl

/-! ## Record literals -/

theorem literalRecord_inStep (hd : d.InStep ρ) {id : Ident} (hid : ρ.ident id = id) :
    InStep ρ (fun r r' => r' = (r.1.renamed ρ, r.2.map (RecordInfo.renamed ρ))) (literalRecord d id)
      (literalRecord d id) := by
  have hw : (TypeRef.named id.span id []).renamed ρ = .named id.span id [] := by
    rw [TypeRef.renamed, hid]
    rfl
  refine .bind (typeRef_fixed hd hw) fun {t t'} ht => ?_
  subst ht
  rw [Ty.renamed_isUnknown]
  split
  · exact .pure rfl
  · refine .bind .get fun {s u} hsu => ?_
    rw [hsu.record?]
    cases s.record? t with
    | some r => exact .pure rfl
    | none => exact .fail _ _ _ _

theorem literalField_inStep (type : Ty) (record : Option RecordInfo) (seen : List String) (id : Ident) :
    InStep ρ (fun r r' => r' = r.map (FieldInfo.renamed ρ)) (literalField type record seen id)
      (literalField (type.renamed ρ) (record.map (RecordInfo.renamed ρ)) seen id) := by
  cases record with
  | none => exact .pure rfl
  | some r =>
    simp only [Option.map_some, literalField, field?_renamed]
    cases r.field? id.name with
    | none => exact .fail _ _ _ _
    | some f =>
      simp only [Option.map_some]
      split
      · exact .fail _ _ _ _
      · exact .pure rfl

theorem checkComplete_inStep (sp : Span) (type : Ty) (record : Option RecordInfo) (seen : List String) :
    InStep ρ (fun _ _ => True) (checkComplete sp type record seen)
      (checkComplete sp (type.renamed ρ) (record.map (RecordInfo.renamed ρ)) seen) := by
  have hmissing : ((record.map (RecordInfo.renamed ρ)).bind fun r => r.fields.find? fun f => !seen.contains f.name) =
      (record.bind fun r => r.fields.find? fun f => !seen.contains f.name).map (FieldInfo.renamed ρ) := by
    cases record with
    | none => rfl
    | some r =>
      show (r.fields.map _).find? _ = _
      rw [List.find?_map]
      rfl
  unfold checkComplete
  rw [hmissing]
  cases record.bind fun r => r.fields.find? fun f => !seen.contains f.name with
  | none => exact .pure trivial
  | some f => exact .fail _ _ _ _

/-! ## Expressions -/

mutual

/-- **An expression is checked in step**, into the same expression with a type that stands in place of the first one's. -/
theorem expr_inStep (hd : d.InStep ρ) : ∀ e : Expr, e.renamed ρ = e → InStep ρ (TypedLike ρ) (expr d e) (expr d e)
  | .name sp id, _ => nameExpr_inStep sp id
  | .int _ _, _ | .char _ _, _ | .bool _ _, _ | .text _ _, _ => .pure ⟨rfl, rfl⟩
  | .list _ _, _ => .fail _ _ _ _
  | .array sp items, he => by
    simp only [Expr.renamed, Expr.array.injEq, true_and] at he
    unfold expr
    refine .guard rfl fun _ => ?_
    refine .bind (elements_inStep hd items none he) fun h => .pure ?_
    obtain ⟨rfl, hes⟩ := h
    exact ⟨rfl, by rw [Expr.renamed, hes]⟩
  | .record sp type fs, he => by
    simp only [Expr.renamed, Expr.record.injEq, true_and] at he
    refine .bind (literalRecord_inStep hd he.1) fun {r r'} h => ?_
    subst h
    refine .bind (fields_inStep hd fs r.1 r.2 [] he.2) fun {es es'} h => ?_
    obtain ⟨rfl, hes⟩ := h
    refine .bind (checkComplete_inStep sp r.1 r.2 _) fun _ => .pure ⟨rfl, ?_⟩
    rw [Expr.renamed, he.1, hes]
  | .unary sp op e, he => by
    simp only [Expr.renamed, Expr.unary.injEq, true_and] at he
    refine .bind (expr_inStep hd e he) fun {r r'} h => ?_
    obtain ⟨rfl, hr⟩ := h
    refine .bind (unaryType_inStep sp op r.2) fun ht => .pure ?_
    subst ht
    exact ⟨rfl, by rw [Expr.renamed, hr]⟩
  | .binary sp l op r, he => by
    simp only [Expr.renamed, Expr.binary.injEq, true_and] at he
    refine .bind (expr_inStep hd l he.1) fun {a a'} h => ?_
    obtain ⟨rfl, ha⟩ := h
    refine .bind (expr_inStep hd r he.2) fun {b b'} h => ?_
    obtain ⟨rfl, hb⟩ := h
    refine .bind (binaryType_inStep sp op a.2 b.2) fun ht => .pure ?_
    subst ht
    exact ⟨rfl, by rw [Expr.renamed, ha, hb]⟩
  | .member sp base m, he => by
    simp only [Expr.renamed, Expr.member.injEq, true_and, and_true] at he
    refine .bind (expr_inStep hd base he) fun {r r'} h => ?_
    obtain ⟨rfl, hr⟩ := h
    exact memberAccess_inStep hr r.2 m
  | .index sp base i, he => by
    simp only [Expr.renamed, Expr.index.injEq, true_and] at he
    exact .bind (expr_inStep hd base he.1) fun hb => .bind (expr_inStep hd i he.2) fun hi =>
      elementAccess_inStep sp base.span i.span hb hi
  | .call sp callee generic args, he => by
    simp only [Expr.renamed, Expr.call.injEq, true_and] at he
    refine .bind (checkBuiltinArity_inStep sp callee args.length) fun _ => ?_
    refine .bind (exprs_inStep hd args he.2) fun {r r'} h => ?_
    obtain ⟨rfl, hr⟩ := h
    dsimp only
    split
    · exact builtinCall_inStep sp callee hr r.2 _
    · exact cellCall_inStep sp callee generic hr r.2 _
  | .listSelect sp (.list lsp items) i, he => by
    simp only [Expr.renamed, Expr.listSelect.injEq, Expr.list.injEq, true_and] at he
    unfold expr
    refine .bind (constIndex_inStep i) fun {k k'} h => ?_
    subst h
    cases k' with
    | some k => exact nth_inStep hd items k i.span items.length k he.1
    | none =>
      refine .bind (exprs_inStep hd items he.1) fun {r r'} h => .pure ?_
      obtain ⟨rfl, hr⟩ := h
      exact ⟨rfl, by rw [Expr.renamed, Expr.renamed, hr, he.2]⟩
  | .listSelect _ (.name _ _) _, _ => .fail _ _ _ _
  | .listSelect _ (.int _ _) _, _ => .fail _ _ _ _
  | .listSelect _ (.char _ _) _, _ => .fail _ _ _ _
  | .listSelect _ (.bool _ _) _, _ => .fail _ _ _ _
  | .listSelect _ (.text _ _) _, _ => .fail _ _ _ _
  | .listSelect _ (.array _ _) _, _ => .fail _ _ _ _
  | .listSelect _ (.record _ _ _) _, _ => .fail _ _ _ _
  | .listSelect _ (.unary _ _ _) _, _ => .fail _ _ _ _
  | .listSelect _ (.binary _ _ _ _) _, _ => .fail _ _ _ _
  | .listSelect _ (.member _ _ _) _, _ => .fail _ _ _ _
  | .listSelect _ (.index _ _ _) _, _ => .fail _ _ _ _
  | .listSelect _ (.call _ _ _ _) _, _ => .fail _ _ _ _
  | .listSelect _ (.listSelect _ _ _) _, _ => .fail _ _ _ _
  | .listSelect _ (.memberSelect _ _ _ _) _, _ => .fail _ _ _ _
  | .memberSelect sp base ms i, he => by
    simp only [Expr.renamed, Expr.memberSelect.injEq, true_and] at he
    refine .bind (expr_inStep hd base he.1) fun {r r'} h => ?_
    obtain ⟨rfl, hr⟩ := h
    refine .bind (constIndex_inStep i) fun {k k'} h => ?_
    subst h
    cases k' with
    | some k =>
      dsimp only
      cases ms[k]? with
      | some m => exact memberAccess_inStep hr r.2 m
      | none => exact .fail _ _ _ _
    | none => exact .pure ⟨rfl, by rw [Expr.renamed, hr, he.2]⟩

theorem exprs_inStep (hd : d.InStep ρ) : ∀ es : List Expr, Expr.allRenamed ρ es = es →
    InStep ρ (fun r r' => r' = (r.1, r.2.map (Ty.renamed ρ)) ∧ Expr.allRenamed ρ r.1 = r.1) (exprs d es) (exprs d es)
  | [], _ => .pure ⟨rfl, rfl⟩
  | e :: es, he => by
    simp only [Expr.allRenamed, List.cons.injEq] at he
    refine .bind (expr_inStep hd e he.1) fun {r r'} h => ?_
    obtain ⟨rfl, hr⟩ := h
    refine .bind (exprs_inStep hd es he.2) fun {rs rs'} h => .pure ?_
    obtain ⟨rfl, hrs⟩ := h
    exact ⟨rfl, by rw [Expr.allRenamed, hr, hrs]⟩

theorem elements_inStep (hd : d.InStep ρ) : ∀ (es : List Expr) (sofar : Option Ty), Expr.allRenamed ρ es = es →
    InStep ρ (fun r r' => r' = (r.1, r.2.renamed ρ) ∧ Expr.allRenamed ρ r.1 = r.1) (elements d sofar es)
      (elements d (sofar.map (Ty.renamed ρ)) es)
  | [], sofar, _ => .pure ⟨by cases sofar <;> rfl, rfl⟩
  | e :: es, sofar, he => by
    simp only [Expr.allRenamed, List.cons.injEq] at he
    refine .bind (expr_inStep hd e he.1) fun {r r'} h => ?_
    obtain ⟨rfl, hr⟩ := h
    refine .bind (elementType_inStep sofar r.2 e.span) fun {t t'} h => ?_
    subst h
    refine .bind (elements_inStep hd es (some t) he.2) fun {rs rs'} h => .pure ?_
    obtain ⟨rfl, hrs⟩ := h
    exact ⟨rfl, by rw [Expr.allRenamed, hr, hrs]⟩

theorem fields_inStep (hd : d.InStep ρ) : ∀ (fs : List (Ident × Expr)) (type : Ty) (record : Option RecordInfo)
    (seen : List String), Expr.fieldsRenamed ρ fs = fs →
      InStep ρ (fun r r' => r' = r ∧ Expr.fieldsRenamed ρ r = r) (fields d type record seen fs)
        (fields d (type.renamed ρ) (record.map (RecordInfo.renamed ρ)) seen fs)
  | [], _, _, _, _ => .pure ⟨rfl, rfl⟩
  | (f, e) :: fs, type, record, seen, he => by
    simp only [Expr.fieldsRenamed, List.cons.injEq, Prod.mk.injEq, true_and] at he
    refine .bind (literalField_inStep type record seen f) fun {i i'} h => ?_
    subst h
    refine .bind (expr_inStep hd e he.1) fun {r r'} h => ?_
    obtain ⟨rfl, hr⟩ := h
    have hrest : InStep ρ (fun q q' => q' = q ∧ Expr.fieldsRenamed ρ q = q)
        (do return (f, r.1) :: (← fields d type record (f.name :: seen) fs))
        (do return (f, r.1) :: (← fields d (type.renamed ρ) (record.map (RecordInfo.renamed ρ)) (f.name :: seen) fs)) := by
      refine .bind (fields_inStep hd fs type record (f.name :: seen) he.2) fun {q q'} h => .pure ?_
      obtain ⟨rfl, hq⟩ := h
      exact ⟨rfl, by rw [Expr.fieldsRenamed, hr, hq]⟩
    cases i with
    | none => exact hrest
    | some i => exact .bind (checkAssignable_inStep i.type r.2 e.span) fun _ => hrest

theorem nth_inStep (hd : d.InStep ρ) : ∀ (es : List Expr) (k : Nat) (p : Span) (count index : Nat),
    Expr.allRenamed ρ es = es → InStep ρ (TypedLike ρ) (nth d p count index es k) (nth d p count index es k)
  | [], _, _, _, _, _ => by
    unfold nth
    exact .fail _ _ _ _
  | e :: es, 0, _, _, _, he => by
    simp only [Expr.allRenamed, List.cons.injEq] at he
    unfold nth
    exact expr_inStep hd e he.1
  | e :: es, k + 1, p, count, index, he => by
    simp only [Expr.allRenamed, List.cons.injEq] at he
    unfold nth
    exact nth_inStep hd es k p count index he.2

end

end Check

end Unroll
