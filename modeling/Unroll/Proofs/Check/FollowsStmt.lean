import Unroll.Proofs.Check.FollowsTypes
/-!
# Expressions and statements under wider limits

An expansion is the one place where a limit is looked at outside of the stack of frames, and it looks before anything
is copied.  With that, statements follow as their parts do, and so does every level of a check that has room for it.
-/
namespace Unroll
namespace Check

open CheckM Outcome Checker

/-- How a type is walked does not depend on limits. -/
theorem isAccessiblePath_under (c : Config) (s : Checker) : ∀ (path : List String) (r : RecordInfo),
    isAccessiblePath (s.under c) r path = isAccessiblePath s r path
  | [], _ => rfl
  | [_], _ => rfl
  | m :: next :: rest, r => by
    unfold isAccessiblePath
    cases r.field? m with
    | none => rfl
    | some f =>
      simp only [show (s.under c).record? f.type = s.record? f.type from rfl, isAccessiblePath_under c s (next :: rest)]

theorem walkOf_under (c : Config) (s : Checker) (sp : Span) (t : Ty) : walkOf (s.under c) sp t = walkOf s sp t := by
  unfold walkOf
  simp only [isAccessiblePath_under]
  rfl

variable {w : Leeway} {n : Nat} {d e : Deeper}

theorem jump_follows (k : String) (x : Stmt) (sp : Span) : Along w n (jump k x sp) (jump k x sp) := by
  refine .place_bind fun p => ?_
  split
  · exact .fail _ _
  · exact .pure _

/-- **The size of an expansion is refused, or it is accepted under wider limits**, too. -/
theorem checkSize_follows (keyword : Span) (count : Option Nat) :
    Along w n (checkSize keyword count) (checkSize keyword count) := by
  refine .of_ends (fun _ s _ t h hs => (checkSize_always (R := Eq) keyword count).ok h ▸ hs) (fun {s a t} hs h => ?_)
    fun he s err t hs h => ?_
  · obtain rfl := (checkSize_always (R := Eq) keyword count).ok h
    refine .inr ⟨?_, hs⟩
    cases count with
    | none => rfl
    | some k =>
      have hsizes := hs.within.sizes
      simp only [checkSize, bind_ok, get_ok] at h ⊢
      obtain ⟨_, _, ⟨rfl, rfl⟩, h⟩ := h
      refine ⟨_, _, ⟨rfl, rfl⟩, ?_⟩
      split at h
      · exact absurd h fail_ok
      · rename_i hk
        rw [if_neg]
        · rfl
        · show ¬w.config.maxExpansionSize < k
          omega
  · obtain rfl := (checkSize_always (R := Eq) keyword count).error h
    rw [hs.within.under_self he]
    exact ⟨h, hs⟩

/-! ## Expressions -/

theorem literalRecord_follows (hd : TypesBelow w n d e) (id : Ident) :
    Along w n (literalRecord d id) (literalRecord e id) := by
  refine .bind (typeRef_follows hd _) fun t => ?_
  split
  · exact .pure _
  · refine .get_bind (fun _ => rfl) fun s => ?_
    split
    · exact .pure _
    · exact .fail _ _

theorem cellCall_follows (hd : Below w n d e) (sp : Span) (callee : Ident) (generic : List TypeArg) (args : List Expr)
    (types : List Ty) (places : List Span) :
    Along w n (cellCall d sp callee generic args types places) (cellCall e sp callee generic args types places) := by
  refine .get_bind (fun _ => rfl) fun s => ?_
  cases s.cells.find? callee.name with
  | some sig =>
    dsimp only
    split
    · exact .throw _
    · exact .bind (checkCall_blind _ _ _ _ _).along fun _ => .pure _
  | none =>
    refine .get_bind (fun _ => rfl) fun s => ?_
    cases s.generics.find? callee.name with
    | none => exact .fail _ _
    | some g =>
      refine .bind (templateArgs_follows hd.types _ _ _) fun given => ?_
      split
      · refine .get_bind (fun _ => rfl) fun s => .bind (.ofExcept _) fun full => ?_
        exact .bind (instantiateCell_follows hd _ _) fun r => .bind (checkCall_blind _ _ _ _ _).along fun _ => .pure _
      · exact .pure _

mutual

/-- **An expression is checked alike** under wider limits. -/
theorem expr_follows (hd : Below w n d e) : ∀ x : Expr, Along w n (expr d x) (expr e x)
  | .name _ _ => (nameExpr_blind _ _).along
  | .int _ _ | .char _ _ | .bool _ _ | .text _ _ => .pure _
  | .list _ _ => .fail _ _
  | .array _ items => by
    unfold expr
    dsimp only
    split
    · exact .throw _
    · exact .bind (elements_follows hd items none) fun _ => .pure _
  | .record _ _ fs => .bind (literalRecord_follows hd.types _) fun _ => .bind (fields_follows hd fs _ _ _) fun _ =>
      .bind (checkComplete_blind _ _ _ _).along fun _ => .pure _
  | .unary _ _ x => .bind (expr_follows hd x) fun _ => .bind (unaryType_blind _ _ _).along fun _ => .pure _
  | .binary _ l _ r => .bind (expr_follows hd l) fun _ => .bind (expr_follows hd r) fun _ =>
      .bind (binaryType_blind _ _ _ _).along fun _ => .pure _
  | .member _ base _ => .bind (expr_follows hd base) fun _ => (memberAccess_blind _ _ _).along
  | .index _ base i => .bind (expr_follows hd base) fun _ => .bind (expr_follows hd i) fun _ =>
      (elementAccess_blind _ _ _ _ _).along
  | .call _ callee _ args => by
    unfold expr
    refine .bind (checkBuiltinArity_blind _ _ _).along fun _ => .bind (exprs_follows hd args) fun r => ?_
    dsimp only
    split
    · exact (builtinCall_blind _ _ _ _ _).along
    · exact cellCall_follows hd _ _ _ _ _ _
  | .listSelect _ (.list _ items) _ => by
    unfold expr
    refine .bind (Blind.constIndex _).along fun i => ?_
    split
    · exact nth_follows hd items _ _ _ _
    · exact .bind (exprs_follows hd items) fun _ => .pure _
  | .listSelect _ (.name _ _) _ | .listSelect _ (.int _ _) _ | .listSelect _ (.char _ _) _
  | .listSelect _ (.bool _ _) _ | .listSelect _ (.text _ _) _ | .listSelect _ (.array _ _) _
  | .listSelect _ (.record _ _ _) _ | .listSelect _ (.unary _ _ _) _ | .listSelect _ (.binary _ _ _ _) _
  | .listSelect _ (.member _ _ _) _ | .listSelect _ (.index _ _ _) _ | .listSelect _ (.call _ _ _ _) _
  | .listSelect _ (.listSelect _ _ _) _ | .listSelect _ (.memberSelect _ _ _ _) _ => .fail _ _
  | .memberSelect _ base _ _ => by
    unfold expr
    refine .bind (expr_follows hd base) fun _ => .bind (Blind.constIndex _).along fun i => ?_
    split
    · split
      · exact (memberAccess_blind _ _ _).along
      · exact .fail _ _
    · exact .pure _

theorem exprs_follows (hd : Below w n d e) : ∀ xs : List Expr, Along w n (exprs d xs) (exprs e xs)
  | [] => .pure _
  | x :: xs => .bind (expr_follows hd x) fun _ => .bind (exprs_follows hd xs) fun _ => .pure _

theorem elements_follows (hd : Below w n d e) : ∀ (xs : List Expr) (sofar : Option Ty),
    Along w n (elements d sofar xs) (elements e sofar xs)
  | [], _ => .pure _
  | x :: xs, _ => .bind (expr_follows hd x) fun _ => .bind (elementType_blind _ _ _).along fun _ =>
      .bind (elements_follows hd xs _) fun _ => .pure _

theorem fields_follows (hd : Below w n d e) : ∀ (fs : List (Ident × Expr)) (type : Ty) (record : Option RecordInfo)
    (seen : List String), Along w n (fields d type record seen fs) (fields e type record seen fs)
  | [], _, _, _ => .pure _
  | (f, x) :: fs, type, record, seen => by
    refine .bind (literalField_blind _ _ _ _).along fun info => .bind (expr_follows hd x) fun r => ?_
    have hrest := fun r : Expr => Follows.bind (fields_follows hd fs type record (f.name :: seen))
      fun rest => .pure ((f, r) :: rest)
    cases info with
    | some info => exact .bind (checkAssignable_blind _ _ _).along fun _ => hrest _
    | none => exact hrest _

theorem nth_follows (hd : Below w n d e) : ∀ (xs : List Expr) (sp : Span) (count index k : Nat),
    Along w n (nth d sp count index xs k) (nth e sp count index xs k)
  | [], _, _, _, 0 | [], _, _, _, _ + 1 => .fail _ _
  | x :: _, _, _, _, 0 => expr_follows hd x
  | _ :: xs, _, _, _, k + 1 => nth_follows hd xs _ _ _ k

end

theorem rangeExpr_follows (hd : Below w n d e) (x : Expr) : Along w n (rangeExpr d x) (rangeExpr e x) := by
  cases x with
  | list sp items => exact .bind (exprs_follows hd items) fun _ => .pure _
  | _ => exact expr_follows hd _

/-! ## Statements -/

theorem condition_follows (hd : Below w n d e) (what : Condition) (x : Expr) :
    Along w n (condition d what x) (condition e what x) := by
  refine .bind (expr_follows hd x) fun r => ?_
  dsimp only
  split
  · exact .pure _
  · exact .fail _ _

theorem assignment_follows (hd : Below w n d e) (sp : Span) (id : Ident) (x : Expr) :
    Along w n (assignment d sp id x) (assignment e sp id x) := by
  refine .place_bind fun p => ?_
  split
  · exact .fail _ _
  · dsimp only
    split
    · exact .throw _
    · exact .bind (expr_follows hd x) fun _ => .bind (checkAssignable_blind _ _ _).along fun _ => .pure _

theorem giveBack_follows (hd : Below w n d e) (sp : Span) (x : Option Expr) :
    Along w n (giveBack d sp x) (giveBack e sp x) := by
  refine .place_bind fun p => ?_
  cases x with
  | some x => exact .bind (expr_follows hd x) fun _ => .bind (checkAssignable_blind _ _ _).along fun _ => .pure _
  | none =>
    dsimp only
    split
    · exact .pure _
    · exact .fail _ _

theorem assertion_follows (hd : Below w n d e) (sp : Span) (x : Expr) :
    Along w n (assertion d sp x) (assertion e sp x) := by
  refine .bind (condition_follows hd _ x) fun _ => .place_bind fun _ => ?_
  split
  · exact .fail _ _
  · exact .pure _

theorem initialValue_follows (hd : Below w n d e) (declared : Option Ty) (x : Expr) :
    Along w n (initialValue d declared x) (initialValue e declared x) := by
  unfold initialValue
  split
  · exact .pure _
  · exact expr_follows hd x

theorem valDecl_follows (hd : Below w n d e) (v : ValDecl) : Along w n (valDecl d v) (valDecl e v) :=
  .bind (.optionMapM (typeRef_follows hd.types) v.type) fun _ => .bind (initialValue_follows hd _ _) fun _ =>
    .bind (declaredType_blind _ _ _).along fun _ => .bind (defineVal_follows _ _ _) fun _ => .pure _

theorem initStmt_follows (hd : Below w n d e) : ∀ i : Option Init, Along w n (initStmt d i) (initStmt e i)
  | none => .pure _
  | some (.val v) => .bind (valDecl_follows hd v) fun _ => .pure _
  | some (.expr x) => .bind (expr_follows hd x) fun _ => .pure _

theorem beginExpansion_follows (hd : Below w n d e) (x : Expansion) :
    Along w n (beginExpansion d x) (beginExpansion e x) := by
  refine .place_bind fun p => .bind (.onPlace _) fun _ => .tryCatch ?_ (fun _ {err s a t} h => ?_) fun _ err => ?_
  · exact .bind (initStmt_follows hd _) fun _ => .bind (rangeExpr_follows hd _) fun _ => .pure _
  · simp only [bind_ok, throw_ok, and_false, exists_false] at h
  · exact .bind (.onPlace _) fun _ => .throw _

theorem blockWith_follows {xs ys : CheckM (List Stmt)} (h : Along w n xs ys) (sp : Span) :
    Along w n (blockWith sp xs) (blockWith sp ys) :=
  .inScope (.bind (.onPlace _) fun _ => .bind h fun _ => .pure _)

theorem loopBodyWith_follows {xs ys : CheckM (List Stmt)} (h : Along w n xs ys) (sp : Span) :
    Along w n (loopBodyWith sp xs) (loopBodyWith sp ys) :=
  .inScope (.bind (.onPlace _) fun _ => blockWith_follows h sp)

theorem instantiateBlock_follows (hd : Below w n d e) (unit : Block) (ls : ArgLevels) (f : Frame) :
    Along w n (instantiateBlock d unit ls f) (instantiateBlock e unit ls f) := by
  refine .within fun hn => .bind (.onPlace _) fun _ => .bind (.onPlace _) fun _ => ?_
  refine .always (.bind (.ofExcept _) fun b => .bind (.mapM (hd.stmts _ hn) _) fun _ => .pure _)
    (fun _ hs => hs.onPlace _) (fun _ _ => rfl) fun _ => id

theorem copyAt_follows (hd : Below w n d e) (template : Block) (index : IndexParam) (keyword : Span) (i : Nat) :
    Along w n (copyAt d template index keyword i) (copyAt e template index keyword i) := by
  refine .bind (.rethrow (instantiateBlock_follows hd _ _ _)) fun body => ?_
  dsimp only
  split
  · exact .modify_bind (fun _ hs => hs.congr rfl rfl rfl rfl) (fun _ _ => rfl) (fun _ => id) (.pure _)
  · exact .pure _

theorem copiesFrom_follows {x y : Nat → CheckM Copy} (h : ∀ i, Along w n (x i) (y i)) :
    ∀ left i : Nat, Along w n (copiesFrom x left i) (copiesFrom y left i)
  | 0, _ => .pure _
  | left + 1, i => .bind (h i) fun _ => .bind (copiesFrom_follows h left (i + 1)) fun _ => .pure _

theorem unrolling_follows (hd : Below w n d e) (p : Pending) (walk : Walk) (template : Block) :
    Along w n (unrolling d p walk template) (unrolling e p walk template) := by
  unfold unrolling
  split
  · exact .pure _
  · exact .pure _
  · exact .bind (copiesFrom_follows (copyAt_follows hd _ _ _) _ _) fun _ => .pure _

theorem bindRange_follows (p : Pending) (walk : Walk) : Along w n (bindRange p walk) (bindRange p walk) := by
  unfold bindRange
  split
  · exact defineVal_follows _ _ _
  · exact .pure _

theorem templateOf_follows (hd : Below w n d e) (p : Pending) (walk : Walk) {xs ys : CheckM (List Stmt)}
    (h : Along w n xs ys) : Along w n (templateOf d p walk xs) (templateOf e p walk ys) :=
  .inScope (.bind (.onPlace _) fun _ => .bind (valDecl_follows hd _) fun _ => .bind h fun _ => .pure _)

theorem unroll_follows (hd : Below w n d e) (p : Pending) (sp : Span) {xs ys : CheckM (List Stmt)} (h : Along w n xs ys) :
    Along w n (unroll d p sp xs) (unroll e p sp ys) := by
  refine .get_bind (fun s => ?_) fun s => .bind (.ofExcept _) fun walk => .bind (checkSize_follows _ _) fun _ => ?_
  · rw [walkOf_under]
  · exact .bind (bindRange_follows p walk) fun _ => .bind (templateOf_follows hd p walk h) fun _ =>
      .bind (unrolling_follows hd _ _ _) fun _ => .pure _

theorem finishExpansion_follows (hd : Below w n d e) (p : Pending) (sp : Span) {xs ys : CheckM (List Stmt)}
    (h : Along w n xs ys) : Along w n (finishExpansion d p sp xs) (finishExpansion e p sp ys) :=
  .always (unroll_follows hd p sp h) (fun _ hs => hs.onPlace _) (fun _ _ => rfl) fun _ => id

mutual

/-- **A statement is checked alike** under wider limits. -/
theorem stmt_follows (hd : Below w n d e) : ∀ x : Stmt, Along w n (stmt d x) (stmt e x)
  | .typeAlias _ _ _ _ | .trait _ _ | .cell _ => .fail _ _
  | .record _ => .bind (defineRecord_follows hd.types _ _) fun _ => .pure _
  | .val v => .map (valDecl_follows hd v)
  | .assign _ _ _ => assignment_follows hd _ _ _
  | .cond _ c yes none => .bind (condition_follows hd _ c) fun _ => .bind (block_follows hd yes) fun _ => .pure _
  | .cond _ c yes (some no) => .bind (condition_follows hd _ c) fun _ => .bind (block_follows hd yes) fun _ =>
      .bind (block_follows hd no) fun _ => .pure _
  | .loop _ c ⟨sp, xs⟩ => .bind (condition_follows hd _ c) fun _ =>
      .bind (loopBodyWith_follows (stmts_follows hd xs) sp) fun _ => .pure _
  | .expand x => .map (expansion_follows hd x)
  | .leave _ | .next _ => jump_follows _ _ _
  | .give _ _ => giveBack_follows hd _ _
  | .assert _ _ => assertion_follows hd _ _
  | .expr x => .bind (expr_follows hd x) fun _ => .pure _

theorem stmts_follows (hd : Below w n d e) : ∀ xs : List Stmt, Along w n (stmts d xs) (stmts e xs)
  | [] => .pure _
  | x :: xs => .bind (stmt_follows hd x) fun _ => .bind (stmts_follows hd xs) fun _ => .pure _

theorem block_follows (hd : Below w n d e) : ∀ b : Block, Along w n (block d b) (block e b)
  | ⟨sp, xs⟩ => blockWith_follows (stmts_follows hd xs) sp

theorem expansion_follows (hd : Below w n d e) : ∀ x : Expansion, Along w n (expansion d x) (expansion e x)
  | ⟨_, _, _, _, _, ⟨sp, xs⟩, _, _⟩ => .bind (beginExpansion_follows hd _) fun p =>
      finishExpansion_follows hd p sp (stmts_follows hd xs)

end

end Check
end Unroll
