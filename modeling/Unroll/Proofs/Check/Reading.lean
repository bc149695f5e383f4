import Unroll.Proofs.Check.Endings
/-!
# Steps that only read

Most steps of a check change nothing, and all that they read of the state is what names stand for.  Two states that
differ in something else, in the limits say or in how many scopes are open, are the same to such a step.
-/
namespace Unroll
namespace Check

open CheckM Outcome Checker

/-- **The same names in sight**: whatever a name leads to at the first state it leads to at the second one. -/
structure SameNames (s t : Checker) : Prop where
  values : t.place.val? = s.place.val?
  params : t.place.param? = s.place.param?
  types : t.recordName? = s.recordName?
  aliases : t.aliases = s.aliases
  traits : t.traits = s.traits
  records : t.records = s.records
  cells : t.cells = s.cells
  generics : t.generics = s.generics

namespace SameNames

variable {s t : Checker}

theorem constants (h : SameNames s t) : t.place.constant? = s.place.constant? := by
  unfold Place.constant?
  rw [h.params]

theorem record? (h : SameNames s t) (type : Ty) : t.record? type = s.record? type := by
  unfold Checker.record?
  rw [h.records]

end SameNames

variable {α β : Type}

/-- The step changes nothing, and it ends alike where the same names are in sight. -/
structure Blind (x : CheckM α) : Prop where
  still : Always Eq x
  ok : ∀ {s t a}, SameNames s t → x s = .ok a s → x t = .ok a t
  error : ∀ {s t d}, SameNames s t → x s = .error d s → x t = .error d t

namespace Blind

/-- What changes nothing keeps whatever is to be kept. -/
theorem always {R : Checker → Checker → Prop} [IsPreorder Checker R] {x : CheckM α} (h : Blind x) : Always R x :=
  .of_eq h.still

theorem pure (a : α) : Blind (pure a : CheckM α) :=
  ⟨.pure a, fun _ h => pure_ok.2 ⟨(pure_ok.1 h).1, rfl⟩, fun _ h => absurd h pure_error⟩

theorem fail (c : Cause) (p : Span) : Blind (fail c p : CheckM α) :=
  ⟨.fail c p, fun _ h => absurd h fail_ok, fun _ h => fail_error.2 ⟨(fail_error.1 h).1, rfl⟩⟩

theorem ofExcept (e : Except Diagnostic α) : Blind (ofExcept e : CheckM α) :=
  ⟨.ofExcept e, fun _ h => ofExcept_ok.2 ⟨(ofExcept_ok.1 h).1, rfl⟩,
    fun _ h => ofExcept_error.2 ⟨(ofExcept_error.1 h).1, rfl⟩⟩

theorem bind {x : CheckM α} {f : α → CheckM β} (hx : Blind x) (hf : ∀ a, Blind (f a)) : Blind (x >>= f) := by
  refine ⟨.bind hx.still fun a => (hf a).still, fun hst h => ?_, fun hst h => ?_⟩
  · obtain ⟨a, u, ha, hb⟩ := bind_ok.1 h
    obtain rfl := hx.still.ok ha
    exact bind_ok.2 ⟨a, _, hx.ok hst ha, (hf a).ok hst hb⟩
  · obtain hd | ⟨a, u, ha, hd⟩ := bind_error.1 h
    · exact bind_error.2 (.inl (hx.error hst hd))
    · obtain rfl := hx.still.ok ha
      exact bind_error.2 (.inr ⟨a, _, hx.ok hst ha, (hf a).error hst hd⟩)

/-- What would come after a failure does not matter. -/
theorem fail_bind {c : Cause} {p : Span} {f : α → CheckM β} : Blind (CheckM.fail c p >>= f) :=
  ⟨.fail_bind, fun _ h => absurd (bind_ok.1 h) (by simp),
    fun _ h => bind_error.2 (.inl (fail_error.2 ⟨(fail_error.1 ((bind_error.1 h).resolve_right (by simp))).1, rfl⟩))⟩

/-- What is read of the state is what names lead to. -/
theorem get_bind {f : Checker → CheckM β} (hf : ∀ {s t}, SameNames s t → f t = f s) (h : ∀ s, Blind (f s)) :
    Blind (get >>= f) := by
  refine ⟨.bind .get fun s => (h s).still, fun {s t b} hst hb => ?_, fun {s t d} hst hd => ?_⟩
  · show f t t = _
    rw [hf hst]
    exact (h s).ok hst hb
  · show f t t = _
    rw [hf hst]
    exact (h s).error hst hd

/-- What is read of the place is what names stand for there. -/
theorem place_bind {f : Place → CheckM β} (hf : ∀ {s t}, SameNames s t → f t.place = f s.place) (h : ∀ p, Blind (f p)) :
    Blind (place >>= f) :=
  .get_bind (f := fun s => f s.place) hf fun s => h s.place

theorem const (e : Expr) : Blind (const e) :=
  .place_bind (fun h => by rw [h.constants]) fun _ => .ofExcept _

theorem constIndex (e : Expr) : Blind (constIndex e) :=
  .place_bind (fun h => by rw [h.constants]) fun _ => .ofExcept _

end Blind

/-! ## Written types -/

theorem meaning_blind (id : Ident) : Blind (meaning id) := by
  unfold meaning
  refine .get_bind (fun h => by simp only [h.params, h.types, h.aliases, h.traits]) fun s => ?_
  split
  · exact .pure _
  · split
    · exact .pure _
    · exact .fail _ _
    · split
      · exact .pure _
      · split
        · exact .pure _
        · exact .pure _
        · split <;> exact .fail _ _

theorem length_blind (elem : Ty) (len : Expr) : Blind (length elem len) := by
  refine .bind (.const len) fun c => ?_
  split
  · split
    · exact .pure _
    · exact .fail _ _
  · exact .pure _
  · exact .fail _ _

theorem valueArg_blind (p : ParamDecl) (e : Expr) : Blind (valueArg p e) := by
  refine .bind (.const e) fun c => ?_
  split
  · exact .pure _
  · exact .pure _
  · exact .fail _ _

theorem checkArgCount_blind (o : String) (ps : ParamLevel) (as : List TypeArg) : Blind (checkArgCount o ps as) := by
  unfold checkArgCount
  split
  · exact .fail _ _
  · exact .pure _

theorem checkAssignable_blind (e a : Ty) (sp : Span) : Blind (checkAssignable e a sp) := by
  unfold checkAssignable
  split
  · exact .pure _
  · exact .fail _ _

/-! ## Expressions -/

theorem nameExpr_blind (sp : Span) (id : Ident) : Blind (nameExpr sp id) := by
  refine .get_bind (fun h => by simp only [h.values, h.params, h.cells, h.generics]) fun s => ?_
  split
  · exact .pure _
  · split
    · exact .pure _
    · exact .fail _ _
    · split <;> exact .fail _ _

theorem unaryType_blind (sp : Span) (op : UnaryOp) (t : Ty) : Blind (unaryType sp op t) := by
  unfold unaryType
  split
  · exact .pure _
  · split
    · exact .pure _
    · exact .pure _
    · exact .fail _ _
    · exact .fail _ _

theorem binaryType_blind (sp : Span) (op : BinOp) (l r : Ty) : Blind (binaryType sp op l r) := by
  unfold binaryType
  split
  · exact .pure _
  · split
    · exact .pure _
    · exact .fail _ _

theorem memberType_blind (base : Expr) (t : Ty) (m : Ident) : Blind (memberType base t m) := by
  unfold memberType
  split
  · exact .pure _
  · split
    · refine .get_bind (fun h => by simp only [h.record?]) fun s => ?_
      split
      · exact .fail _ _
      · split
        · exact .fail _ _
        · split
          · exact .fail _ _
          · exact .pure _
    · exact .fail _ _

theorem memberAccess_blind (base : Expr) (t : Ty) (m : Ident) : Blind (memberAccess base t m) :=
  .bind (memberType_blind base t m) fun _ => .pure _

theorem checkBounds_blind (i : Expr) (sp : Span) (len : Option Nat) : Blind (checkBounds i sp len) := by
  refine .place_bind (fun h => by simp only [h.constants]) fun p => ?_
  split
  · split
    · exact .fail _ _
    · exact .pure _
  · exact .pure _

theorem elementAccess_blind (sp bs is : Span) (b i : Typed) : Blind (elementAccess sp bs is b i) := by
  obtain ⟨b, bt⟩ := b
  obtain ⟨i, it⟩ := i
  unfold elementAccess
  simp only
  split
  · exact .fail_bind
  · split
    · exact .bind (checkBounds_blind _ _ _) fun _ => .pure _
    · split
      · exact .pure _
      · exact .fail _ _

theorem elementType_blind (sofar : Option Ty) (t : Ty) (sp : Span) : Blind (elementType sofar t sp) := by
  unfold elementType
  split
  · exact .pure _
  · split
    · exact .pure _
    · split
      · exact .pure _
      · exact .fail _ _

theorem checkBuiltinArity_blind (sp : Span) (id : Ident) (k : Nat) : Blind (checkBuiltinArity sp id k) := by
  unfold checkBuiltinArity
  split
  · exact .fail _ _
  · exact .pure _

theorem builtinType_blind (name : String) (t : Ty) (sp : Span) : Blind (builtinType name t sp) := by
  unfold builtinType
  split
  · split
    · exact .pure _
    · split
      · exact .pure _
      · exact .fail _ _
  · exact .pure _

theorem builtinCall_blind (sp : Span) (id : Ident) (es : List Expr) (ts : List Ty) (ps : List Span) :
    Blind (builtinCall sp id es ts ps) := by
  unfold builtinCall
  split
  · exact .bind (builtinType_blind _ _ _) fun _ => .pure _
  · exact .fail _ _

theorem checkParams_blind : ∀ (ps : List CellParam) (ss : List Span) (ts : List Ty), Blind (checkParams ps ss ts)
  | [], _, _ => .pure _
  | _ :: _, [], _ => .pure _
  | _ :: _, _ :: _, [] => .pure _
  | _ :: ps, _ :: ss, _ :: ts => .bind (checkAssignable_blind _ _ _) fun _ => checkParams_blind ps ss ts

theorem checkCall_blind (name : String) (sig : CellSig) (ps : List Span) (ts : List Ty) (sp : Span) :
    Blind (checkCall name sig ps ts sp) := by
  unfold checkCall
  split
  · exact .fail _ _
  · exact checkParams_blind _ _ _

theorem literalField_blind (t : Ty) (r : Option RecordInfo) (seen : List String) (id : Ident) :
    Blind (literalField t r seen id) := by
  unfold literalField
  split
  · exact .pure _
  · split
    · exact .fail _ _
    · split
      · exact .fail _ _
      · exact .pure _

theorem checkComplete_blind (sp : Span) (t : Ty) (r : Option RecordInfo) (seen : List String) :
    Blind (checkComplete sp t r seen) := by
  unfold checkComplete
  split
  · exact .fail _ _
  · exact .pure _

theorem declaredType_blind (declared : Option Ty) (a : Ty) (sp : Span) : Blind (declaredType declared a sp) := by
  unfold declaredType
  split
  · exact .bind (checkAssignable_blind _ _ _) fun _ => .pure _
  · exact .pure _

end Check
end Unroll
