import Unroll.Proofs.Check.OneMeaning
import Unroll.Proofs.Check.Unwinding
/-!
# A scope that nothing is declared in

A scope in which nothing is declared does not show.  No name is found in it, and what leaves the place for another cell
leaves it behind.  So what passes inside of such a scope passes outside of it, in the same way: the range of an expansion,
which is checked in the scope that the expansion opens, is a range where the expansion stands.
-/
namespace Unroll

theorem Place.outer_pushScope (p : Place) : CheckM.outer p.pushScope = CheckM.outer p := by
  have hlast : ([] :: p.types : List (Table String)).getLastD [] = p.types.getLastD [] := by
    cases p.types <;> rfl
  show Place.outside (([] :: p.types).getLastD []) = Place.outside (p.types.getLastD [])
  rw [hlast]

namespace Check

open CheckM Outcome Checker

/-- Nothing is found in a scope that is empty. -/
theorem sameNames_opened (s : Checker) : SameNames (opened s) s := ⟨rfl, rfl, rfl, rfl, rfl, rfl, rfl, rfl⟩

/-- **What the action does in an empty scope it does outside of it**, where it passes. -/
def Overlooks {α : Type} (x : CheckM α) : Prop :=
  ∀ (s : Checker) (a : α) (u : Checker), x (opened s) = .ok a u → ∃ v, x s = .ok a v ∧ u = opened v

namespace Overlooks

variable {α β : Type}

theorem of_blind {x : CheckM α} (h : Blind x) : Overlooks x := by
  intro s a u hx
  obtain rfl := h.still.ok hx
  exact ⟨s, h.ok (sameNames_opened s) hx, rfl⟩

theorem pure (a : α) : Overlooks (pure a : CheckM α) := .of_blind (.pure a)

theorem fail (c : Cause) (p : Span) : Overlooks (CheckM.fail c p : CheckM α) := fun _ _ _ h => absurd h fail_ok

theorem ofExcept (e : Except Diagnostic α) : Overlooks (ofExcept e : CheckM α) := fun s _ _ h =>
  ⟨s, ofExcept_ok.2 ⟨(ofExcept_ok.1 h).1, rfl⟩, (ofExcept_ok.1 h).2.symm⟩

theorem bind {x : CheckM α} {f : α → CheckM β} (hx : Overlooks x) (hf : ∀ a, Overlooks (f a)) : Overlooks (x >>= f) := by
  intro s b u h
  obtain ⟨a, t, ha, hb⟩ := bind_ok.1 h
  obtain ⟨v, hv, rfl⟩ := hx _ _ _ ha
  obtain ⟨w, hw, rfl⟩ := hf a _ _ _ hb
  exact ⟨w, bind_ok.2 ⟨a, v, hv, hw⟩, rfl⟩

theorem get_bind {f : Checker → CheckM β} (hf : ∀ s, f (opened s) = f s) (h : ∀ s, Overlooks (f s)) :
    Overlooks (get >>= f) := by
  intro s b u hb
  have hb' : f (opened s) (opened s) = .ok b u := hb
  rw [hf] at hb'
  exact h s _ _ _ hb'

theorem modify {f : Checker → Checker} (hf : ∀ s, f (opened s) = opened (f s)) : Overlooks (modify f : CheckM Unit) := by
  intro s a u h
  exact ⟨f s, rfl, (modify_ok.1 h).symm.trans (hf s)⟩

theorem always {x : CheckM α} {f : Checker → Checker} (hx : Overlooks x) (hf : ∀ s, f (opened s) = opened (f s)) :
    Overlooks (always x f) := by
  intro s a u h
  obtain ⟨t, ht, rfl⟩ := always_ok.1 h
  obtain ⟨v, hv, rfl⟩ := hx _ _ _ ht
  exact ⟨f v, always_ok.2 ⟨v, hv, rfl⟩, hf v⟩

/-- The place is left for one that knows the global names only. -/
theorem apart (x : CheckM α) : Overlooks (apart x) := by
  intro s a u h
  obtain ⟨t, ht, rfl⟩ := apart_ok.1 h
  have hin : (opened s).onPlace outer = s.onPlace outer :=
    congrArg (fun p => ({ s with place := p } : Checker)) (Place.outer_pushScope s.place)
  rw [hin] at ht
  exact ⟨t.onPlace fun _ => s.place, apart_ok.2 ⟨t, ht, rfl⟩, rfl⟩

theorem within {x : CheckM α} (f : Frame) (hx : Overlooks x) : Overlooks (within f x) := by
  intro s a u h
  obtain ⟨fr, t, hf, ht, rfl⟩ := within_ok.1 h
  obtain ⟨v, hv, rfl⟩ := hx { s with frames := fr } _ _ ht
  exact ⟨_, within_ok.2 ⟨fr, v, hf, hv, rfl⟩, rfl⟩

/-- What is caught here is thrown again. -/
theorem forInstance {x : CheckM α} (hx : Overlooks x) (name : String) (asked : Span) :
    Overlooks (forInstance name asked x) := by
  intro s a u h
  obtain h | ⟨d, t, -, h⟩ := tryCatch_ok.1 h
  · obtain ⟨v, hv, rfl⟩ := hx _ _ _ h
    exact ⟨v, tryCatch_ok.2 (.inl hv), rfl⟩
  · obtain ⟨_, _, -, h⟩ := bind_ok.1 h
    exact absurd h throw_ok

end Overlooks

/-! ## Written types -/

variable {n : Nat}

/-- The two places agree in every name. -/
theorem alike_opened (s : Checker) : Alike (fun _ => True) (opened s) s :=
  ⟨rfl, rfl, fun _ _ => rfl, fun _ _ => rfl⟩

theorem closed_all (s : Checker) : ClosedNames (fun _ => True) s :=
  ⟨fun _ => trivial, fun _ _ => trivial, fun _ _ _ _ => trivial, fun _ _ _ _ => trivial⟩

theorem typeRef_overlooks (w : TypeRef) : Overlooks (typeRef (levels n) w) := by
  intro s t u h
  obtain rfl := typeRef_same (levels_orderly n) h
  refine ⟨s, (typeRef_alike (levels_orderly n) (typeRefAt_reads_alike (Nat.le_refl n)) (alike_opened s) (closed_all _)
    (Nat.le_refl _) (fun _ _ => trivial) h).1, rfl⟩

theorem templateArgs_overlooks (o : String) (ps : ParamLevel) (as : List TypeArg) :
    Overlooks (templateArgs (levels n) o ps as) := by
  refine .bind (.of_blind (checkArgCount_blind _ _ _)) fun _ => .bind (fun s r u h => ?_) fun _ => .pure _
  obtain rfl := argsFor_same (levels_orderly n) h
  exact ⟨s, (argsFor_alike (levels_orderly n) (typeRefAt_reads_alike (Nat.le_refl n)) (alike_opened s) (closed_all _)
    (Nat.le_refl _) (fun _ _ => trivial) h).1, rfl⟩

/-! ## Cells -/

variable {deeper : Deeper}

theorem modifyGeneric_opened (name : String) (f : GenericInfo → GenericInfo) (s : Checker) :
    modifyGeneric name f (opened s) = opened (modifyGeneric name f s) := by
  unfold modifyGeneric
  rw [show (opened s).generics = s.generics from rfl]
  split <;> rfl

theorem elaborateTemplate_overlooks (name : String) : Overlooks (elaborateTemplate deeper name) := by
  refine .get_bind (fun _ => rfl) fun s => ?_
  split
  · exact .pure _
  · split
    · exact .pure _
    · refine .bind (.modify fun _ => rfl) fun _ => ?_
      refine .bind (.always (.apart _) fun s => ?_) fun c => ?_
      · exact modifyGeneric_opened name _ { s with elaborating := s.elaborating.erase name }
      · exact .modify fun s => modifyGeneric_opened name _ s

theorem instantiateCell_overlooks (id : Ident) (args : List TemplateArg) :
    Overlooks (instantiateCell deeper id args) := by
  refine .get_bind (fun _ => rfl) fun s => .bind (.ofExcept _) fun _ => .get_bind (fun _ => rfl) fun s => ?_
  split
  · exact .pure _
  · refine .bind (elaborateTemplate_overlooks _) fun _ => .get_bind (fun _ => rfl) fun s => ?_
    split
    · exact .fail _ _
    · refine .bind (.within _ (.forInstance (.bind (.ofExcept _) fun _ => .apart _) _ _)) fun r => ?_
      exact .bind (.modify fun _ => rfl) fun _ => .bind (.modify fun _ => rfl) fun _ => .pure _

/-! ## Expressions -/

theorem literalRecord_overlooks (id : Ident) : Overlooks (literalRecord (levels n) id) := by
  refine .bind (typeRef_overlooks _) fun t => ?_
  split
  · exact .pure _
  · refine .get_bind (fun _ => rfl) fun s => ?_
    split
    · exact .pure _
    · exact .fail _ _

theorem cellCall_overlooks (sp : Span) (callee : Ident) (generic : List TypeArg) (args : List Expr) (types : List Ty)
    (places : List Span) : Overlooks (cellCall (levels n) sp callee generic args types places) := by
  refine .get_bind (fun _ => rfl) fun s => ?_
  split
  · dsimp only
    split
    · exact .of_blind .fail_bind
    · exact .bind (.of_blind (checkCall_blind _ _ _ _ _)) fun _ => .pure _
  · refine .get_bind (fun _ => rfl) fun s => ?_
    split
    · exact .fail _ _
    · refine .bind (templateArgs_overlooks _ _ _) fun given => ?_
      split
      · refine .get_bind (fun _ => rfl) fun s => .bind (.ofExcept _) fun full => ?_
        refine .bind (instantiateCell_overlooks _ _) fun r => ?_
        exact .bind (.of_blind (checkCall_blind _ _ _ _ _)) fun _ => .pure _
      · exact .pure _

mutual

/-- **An expression is elaborated alike** inside of an empty scope and outside of it. -/
theorem expr_overlooks : ∀ e : Expr, Overlooks (expr (levels n) e)
  | .name _ _ => by
    unfold expr
    exact .of_blind (nameExpr_blind _ _)
  | .int _ _ | .char _ _ | .bool _ _ | .text _ _ => by
    unfold expr
    exact .pure _
  | .list _ _ => by
    rw [expr_list]
    exact .fail _ _
  | .array _ items => by
    unfold expr
    dsimp only
    split
    · exact .of_blind .fail_bind
    · exact .bind (elements_overlook items none) fun _ => .pure _
  | .record _ _ fs => by
    unfold expr
    refine .bind (literalRecord_overlooks _) fun r => .bind (fields_overlook fs _ _ _) fun _ => ?_
    exact .bind (.of_blind (checkComplete_blind _ _ _ _)) fun _ => .pure _
  | .unary _ _ e => by
    unfold expr
    exact .bind (expr_overlooks e) fun _ => .bind (.of_blind (unaryType_blind _ _ _)) fun _ => .pure _
  | .binary _ l _ r => by
    unfold expr
    refine .bind (expr_overlooks l) fun _ => .bind (expr_overlooks r) fun _ => ?_
    exact .bind (.of_blind (binaryType_blind _ _ _ _)) fun _ => .pure _
  | .member _ base _ => by
    unfold expr
    exact .bind (expr_overlooks base) fun _ => .of_blind (memberAccess_blind _ _ _)
  | .index _ base i => by
    unfold expr
    refine .bind (expr_overlooks base) fun _ => .bind (expr_overlooks i) fun _ => ?_
    exact .of_blind (elementAccess_blind _ _ _ _ _)
  | .call _ callee _ args => by
    unfold expr
    refine .bind (.of_blind (checkBuiltinArity_blind _ _ _)) fun _ => .bind (exprs_overlook args) fun r => ?_
    dsimp only
    split
    · exact .of_blind (builtinCall_blind _ _ _ _ _)
    · exact cellCall_overlooks _ _ _ _ _ _
  | .listSelect _ (.list _ items) _ => by
    unfold expr
    refine .bind (.of_blind (.constIndex _)) fun i => ?_
    split
    · exact nth_overlooks items _ _ _ _
    · exact .bind (exprs_overlook items) fun _ => .pure _
  | .listSelect _ (.name _ _) _ | .listSelect _ (.int _ _) _ | .listSelect _ (.char _ _) _
  | .listSelect _ (.bool _ _) _ | .listSelect _ (.text _ _) _ | .listSelect _ (.array _ _) _
  | .listSelect _ (.record _ _ _) _ | .listSelect _ (.unary _ _ _) _ | .listSelect _ (.binary _ _ _ _) _
  | .listSelect _ (.member _ _ _) _ | .listSelect _ (.index _ _ _) _ | .listSelect _ (.call _ _ _ _) _
  | .listSelect _ (.listSelect _ _ _) _ | .listSelect _ (.memberSelect _ _ _ _) _ => by
    unfold expr
    exact .fail _ _
  | .memberSelect _ base _ _ => by
    unfold expr
    refine .bind (expr_overlooks base) fun _ => .bind (.of_blind (.constIndex _)) fun i => ?_
    split
    · split
      · exact .of_blind (memberAccess_blind _ _ _)
      · exact .fail _ _
    · exact .pure _

theorem exprs_overlook : ∀ es : List Expr, Overlooks (exprs (levels n) es)
  | [] => .pure _
  | e :: es => by
    unfold exprs
    exact .bind (expr_overlooks e) fun _ => .bind (exprs_overlook es) fun _ => .pure _

theorem elements_overlook : ∀ (es : List Expr) (sofar : Option Ty), Overlooks (elements (levels n) sofar es)
  | [], _ => .pure _
  | e :: es, sofar => by
    unfold elements
    refine .bind (expr_overlooks e) fun _ => .bind (.of_blind (elementType_blind _ _ _)) fun _ => ?_
    exact .bind (elements_overlook es _) fun _ => .pure _

theorem fields_overlook : ∀ (fs : List (Ident × Expr)) (type : Ty) (record : Option RecordInfo) (seen : List String),
    Overlooks (fields (levels n) type record seen fs)
  | [], _, _, _ => .pure _
  | (f, e) :: fs, type, record, seen => by
    unfold fields
    refine .bind (.of_blind (literalField_blind _ _ _ _)) fun info => .bind (expr_overlooks e) fun r => ?_
    have hrest := fun r : Expr => Overlooks.bind (fields_overlook fs type record (f.name :: seen))
      fun rest => .pure ((f, r) :: rest)
    dsimp only
    split
    · exact .bind (.of_blind (checkAssignable_blind _ _ _)) fun _ => hrest _
    · exact hrest _

theorem nth_overlooks : ∀ (es : List Expr) (sp : Span) (count index k : Nat),
    Overlooks (nth (levels n) sp count index es k)
  | [], _, _, _, 0 | [], _, _, _, _ + 1 => .fail _ _
  | e :: _, _, _, _, 0 => by
    unfold nth
    exact expr_overlooks e
  | _ :: es, _, _, _, k + 1 => by
    unfold nth
    exact nth_overlooks es _ _ _ k

end

/-- **A range is the same range** inside of an empty scope and outside of it. -/
theorem rangeExpr_overlooks (e : Expr) : Overlooks (rangeExpr (levels n) e) := by
  cases e with
  | list sp items => exact .bind (exprs_overlook items) fun _ => .pure _
  | _ => exact expr_overlooks _

end Check
end Unroll
