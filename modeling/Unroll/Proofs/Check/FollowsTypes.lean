import Unroll.Proofs.Check.Follows
import Unroll.Proofs.Check.Unwinding
/-!
# Types and cells under wider limits

Most steps look at neither limits nor frames, so they are the same steps under any limits.  What they read of the state
is what both checks have in common.  Written types go down a level through aliases, cells through their templates and
instances; each way down takes room, and what is below is known to follow wherever there is less room.
-/
namespace Unroll
namespace Check

open CheckM Outcome Checker

variable {α β : Type}

/-! ## Written types -/

variable {w : Leeway} {n : Nat} {d e : Deeper}

/-- The steps follow each other with so much room. -/
abbrev Along (w : Leeway) (n : Nat) (x y : CheckM α) : Prop := Follows w (Bounded w n) (Bounded w n) x y

theorem sameNames_under (c : Config) (s : Checker) : SameNames s (s.under c) := ⟨rfl, rfl, rfl, rfl, rfl, rfl, rfl, rfl⟩

theorem Blind.follows {x : CheckM α} (h : Blind x) (w : Leeway) (P : Checker → Prop) : Follows w P P x x := by
  refine .of_ends (fun _ s a t hx hs => h.still.ok hx ▸ hs) (fun {s a t} hs hx => ?_) fun _ s d t hs hx => ?_
  · obtain rfl := h.still.ok hx
    exact .inr ⟨h.ok (sameNames_under w.config s) hx, hs⟩
  · obtain rfl := h.still.error hx
    exact ⟨h.error (sameNames_under w.config s) hx, hs⟩

theorem Blind.along {x : CheckM α} (h : Blind x) : Along w n x x := h.follows w _

/-- Below, with less room, types follow. -/
def TypesBelow (w : Leeway) (n : Nat) (d e : Deeper) : Prop :=
  ∀ m, (w.exact → m < n) → ∀ t, Along w m (d.typeRef t) (e.typeRef t)

theorem instantiateAlias_follows (hd : TypesBelow w n d e) (id : Ident) (args : List TemplateArg) :
    Along w n (instantiateAlias d id args) (instantiateAlias e id args) := by
  refine .get_bind (fun _ => rfl) fun s => .bind (.ofExcept _) fun _ => ?_
  cases s.aliases.find? id.name with
  | none => exact .fail _ _
  | some a =>
    cases a with
    | plain t => exact .fail _ _
    | generic ps target => exact .within fun hn => .bind (.ofExcept _) fun t => hd _ hn t

mutual

/-- **A written type is resolved alike** under wider limits. -/
theorem typeRef_follows (hd : TypesBelow w n d e) : ∀ t : TypeRef, Along w n (typeRef d t) (typeRef e t)
  | .array _ elem len => .bind (typeRef_follows hd elem) fun _ => (length_blind _ _).along
  | .named _ id args => by
    refine .bind (meaning_blind id).along fun m => ?_
    cases m with
    | plain what t =>
      dsimp only
      split
      · exact .pure _
      · exact .fail _ _
    | generic ps =>
      dsimp only
      split
      · exact .fail _ _
      · refine .bind (argsFor_follows hd args _) fun as => ?_
        cases allKnown as with
        | some full => exact instantiateAlias_follows hd _ _
        | none => exact .pure _

theorem argsFor_follows (hd : TypesBelow w n d e) : ∀ (as : List TypeArg) (ps : List ParamDecl),
    Along w n (argsFor d ps as) (argsFor e ps as)
  | [], ps => by
    cases ps <;> exact .pure _
  | a :: as, [] => .pure _
  | a :: as, p :: ps => .bind (argFor_follows hd a p) fun _ => .bind (argsFor_follows hd as ps) fun _ => .pure _

theorem argFor_follows (hd : TypesBelow w n d e) : ∀ (a : TypeArg) (p : ParamDecl),
    Along w n (argFor d p a) (argFor e p a)
  | .value _, ⟨_, .type _⟩ => .fail _ _
  | .value v, ⟨_, .const⟩ => (valueArg_blind _ v).along
  | .type t, ⟨_, .type _⟩ => .bind (typeRef_follows hd t) fun _ => .pure _
  | .type (.named _ _ []), ⟨_, .const⟩ => (valueArg_blind _ _).along
  | .type (.named _ _ (_ :: _)), ⟨_, .const⟩ | .type (.array _ _ _), ⟨_, .const⟩ => .fail _ _

end

theorem templateArgs_follows (hd : TypesBelow w n d e) (o : String) (ps : ParamLevel) (as : List TypeArg) :
    Along w n (templateArgs d o ps as) (templateArgs e o ps as) :=
  .bind (checkArgCount_blind _ _ _).along fun _ => .bind (argsFor_follows hd as _) fun _ => .pure _

theorem signature_follows (hd : TypesBelow w n d e) (c : CellDef) : Along w n (signature d c) (signature e c) := by
  refine .bind (.mapM (fun p => .bind (typeRef_follows hd _) fun _ => .pure _) _) fun ps => ?_
  cases c.ret with
  | some t => exact .bind (typeRef_follows hd t) fun _ => .pure _
  | none => exact .pure _

/-! ## Declared names -/

theorem defineVal_follows (id : Ident) (t : Ty) (m : Bool) : Along w n (defineVal id t m) (defineVal id t m) := by
  refine .place_bind fun p => ?_
  dsimp only
  split
  · exact Blind.fail_bind.along
  · split
    · exact .fail _ _
    · split
      · exact .fail _ _
      · exact .onPlace _

theorem defineParams_follows : ∀ (ps : List CellParam) (as : List Param),
    Along w n (defineParams ps as) (defineParams ps as)
  | [], _ => .pure _
  | _ :: _, [] => .pure _
  | _ :: ps, _ :: as => .bind (defineVal_follows _ _ _) fun _ => defineParams_follows ps as

theorem recordFields_follows (hd : TypesBelow w n d e) (id : Ident) : ∀ (fs : List RecordField) (seen : List String),
    Along w n (recordFields d id seen fs) (recordFields e id seen fs)
  | [], _ => .pure _
  | f :: fs, seen => by
    unfold recordFields
    split
    · exact .throw _
    · exact .bind (typeRef_follows hd _) fun _ => .bind (recordFields_follows hd id fs _) fun _ => .pure _

theorem defineRecord_follows (hd : TypesBelow w n d e) (id : Ident) (fs : List RecordField) :
    Along w n (defineRecord d id fs) (defineRecord e id fs) := by
  refine .place_bind fun p => ?_
  dsimp only
  split
  · exact .throw _
  · split
    · exact .throw _
    · refine .bind (recordFields_follows hd id fs []) fun infos => ?_
      refine .modify_bind (fun _ hs => hs.congr rfl rfl rfl rfl) (fun _ _ => rfl) (fun _ h => h) ?_
      refine .get_bind (fun _ => rfl) fun s => ?_
      refine .modify_bind (fun _ hs => hs.congr rfl rfl rfl rfl) (fun _ _ => rfl) (fun _ h => h) ?_
      refine .bind (.onPlace _) fun _ => ?_
      refine .modify_bind (fun _ hs => hs.congr rfl rfl rfl rfl) (fun _ _ => rfl) (fun _ h => h) ?_
      exact .pure _

/-! ## Cells -/

/-- What stands in a cell follows; it need not stand below. -/
def StmtsAlong (w : Leeway) (n : Nat) (d e : Deeper) : Prop := ∀ x, Along w n (d.stmt x) (e.stmt x)

/-- **An error in a statement is reported**, or it goes further up. -/
theorem recovered_follows (hd : StmtsAlong w n d e) (x : Stmt) : Along w n (recovered d x) (recovered e x) := by
  refine .tryCatch (.map (hd x)) (fun _ {err s a t} h => ?_) fun he err => ?_
  · simp only [bind_ok, get_ok] at h
    obtain ⟨_, _, ⟨rfl, rfl⟩, h⟩ := h
    split at h
    · split at h <;>
        · simp only [bind_ok, modify_ok, pure_ok] at h
          obtain ⟨u, hu⟩ : ∃ u, Checker.report err u = t := by grind
          rw [← hu]
          exact List.cons_ne_nil _ _
    · exact absurd h throw_ok
  · have hreport : Along w n (modify (Checker.report err) >>= fun _ => pure none : CheckM (Option Stmt))
        (modify (Checker.report err) >>= fun _ => pure none) :=
      .modify_bind (fun _ hs => hs.congr rfl rfl rfl rfl) (fun _ _ => rfl) (fun _ _ => List.cons_ne_nil _ _) (.pure _)
    refine .get_bind (fun _ => rfl) fun s => ?_
    split
    · split
      · refine .bind (.tryCatch (defineVal_follows _ _ _) (fun h => absurd he h) fun _ _ => .pure _) fun _ => hreport
      · exact hreport
    · exact .throw _

theorem cellStmts_follows (hd : StmtsAlong w n d e) (xs : List Stmt) : Along w n (cellStmts d xs) (cellStmts e xs) := by
  induction xs with
  | nil => exact .pure _
  | cons x xs ih =>
    rw [cellStmts_cons, cellStmts_cons]
    exact .bind (recovered_follows hd x) fun _ => .bind ih fun _ => .pure _

theorem cellBody_follows (hd : StmtsAlong w n d e) (c : CellDef) (sig : CellSig) :
    Along w n (cellBody d c sig) (cellBody e c sig) :=
  .bind (.onPlace _) fun _ => .bind (defineParams_follows _ _) fun _ => .bind (.onPlace _) fun _ =>
    .bind (cellStmts_follows hd _) fun _ => .pure _

/-- Below, with less room, everything follows. -/
structure Below (w : Leeway) (n : Nat) (d e : Deeper) : Prop where
  types : TypesBelow w n d e
  stmts : ∀ m, (w.exact → m < n) → StmtsAlong w m d e

theorem Below.less {m : Nat} (h : Below w n d e) (hm : w.exact → m ≤ n) : Below w m d e :=
  ⟨fun k hk => h.types k fun he => Nat.lt_of_lt_of_le (hk he) (hm he),
    fun k hk => h.stmts k fun he => Nat.lt_of_lt_of_le (hk he) (hm he)⟩

theorem modifyGeneric_under (name : String) (f : GenericInfo → GenericInfo) (c : Config) (s : Checker) :
    modifyGeneric name f (s.under c) = (modifyGeneric name f s).under c := by
  unfold modifyGeneric
  rw [show (s.under c).generics = s.generics from rfl]
  cases s.generics.find? name <;> rfl

/-- **A template is tried with less room**, and the end of its check gives none back. -/
theorem elaborateTemplate_follows (hd : Below w n d e) (name : String) :
    Along w n (elaborateTemplate d name) (elaborateTemplate e name) := by
  refine .reading fun s => ?_
  rw [show (s.under w.config).generics = s.generics from rfl]
  cases hg : s.generics.find? name with
  | none => exact .mono (.pure _) (fun _ hs => hs.2) fun _ => id
  | some g =>
    dsimp only
    split
    · rename_i hdone
      refine .mono ?_ (fun _ hs => hs.2) fun _ => id
      rw [if_pos (show (g.elaborated || (s.under w.config).elaborating.contains name) = true from hdone)]
      exact .pure _
    · rename_i hnew
      rw [if_neg (show ¬(g.elaborated || (s.under w.config).elaborating.contains name) = true from hnew)]
      have huntried : s.untried name = true := untried_iff.2 ⟨g, hg, Bool.eq_false_iff.2 hnew⟩
      -- with leeway there is nothing to count, and without it a template was left
      refine .assuming (p := w.exact → n - 1 < n) (fun he he' => absurd he' he) (fun t ht => ?_) fun hn => ?_
      · obtain ⟨rfl, ht⟩ := ht
        exact (ht.trying huntried).1
      refine .modify_bind (Q := Bounded w (n - 1)) (fun t ht => ?_) (fun _ _ => rfl) (fun _ => id) ?_
      · obtain ⟨rfl, ht⟩ := ht
        exact (ht.trying huntried).2
      have hin := hd.less fun he => Nat.le_of_lt (hn he)
      have hcheck : Along w (n - 1) (CheckM.apart do
            CheckM.onPlace (Place.pushTemplate g.params)
            cellBody d g.cell (← signature d g.cell))
          (CheckM.apart do
            CheckM.onPlace (Place.pushTemplate g.params)
            cellBody e g.cell (← signature e g.cell)) :=
        .apart (.bind (.onPlace _) fun _ => .bind (signature_follows hin.types _) fun sig =>
          cellBody_follows (hd.stmts _ hn) _ _)
      refine .bind_weaken (Q := Bounded w (n - 1)) (fun t ht => ht.mono fun he => Nat.le_of_lt (hn he))
        (.always hcheck (fun t ht => ?_) (fun c t => ?_) fun t ht => ?_) fun cell => ?_
      · exact ht.less (modifyGeneric_config ..) (modifyGeneric_putBack ..).frames (templatesLeft_tried name t)
      · exact modifyGeneric_under name _ c { t with elaborating := t.elaborating.erase name }
      · rwa [modifyGeneric_diagnostics]
      · refine .modify (fun t ht => ?_) (fun c t => modifyGeneric_under _ _ _ _) fun t ht => ?_
        · refine ⟨ht.within.congr (modifyGeneric_config ..) (modifyGeneric_putBack ..).frames, fun he => ?_⟩
          have hroom := ht.room he
          have hmore := templatesLeft_withCell name cell t
          have hless := hn he
          unfold Checker.room at hroom ⊢
          rw [(modifyGeneric_putBack name _ t).frames]
          omega
        · rwa [modifyGeneric_diagnostics]

theorem instanceBody_follows (hd : Below w (n + 1) d e) (template : CellDef) (ls : ArgLevels) (name : String) :
    Along w n (instanceBody d template ls name) (instanceBody e template ls name) := by
  have hin := hd.less fun _ => Nat.le_succ n
  refine .bind (.ofExcept _) fun concrete => .apart (.bind (signature_follows hin.types _) fun sig => ?_)
  refine .modify_bind (fun _ hs => hs.congr rfl rfl rfl rfl) (fun _ _ => rfl) (fun _ => id) ?_
  exact .bind (cellBody_follows (hd.stmts n fun _ => Nat.lt_succ_self n) _ _) fun _ => .pure _

theorem forInstance_follows {x y : CheckM α} (h : Along w n x y) (name : String) (asked : Span) :
    Along w n (forInstance name asked x) (forInstance name asked y) := by
  refine .tryCatch h (fun _ {err s a t} h => ?_) fun _ err => ?_
  · simp only [bind_ok, throw_ok, and_false, exists_false] at h
  · exact .modify_bind (fun _ hs => hs.congr rfl rfl rfl rfl) (fun _ _ => rfl) (fun _ => id) (.throw _)

/-- **An instance is made alike**; its body has less room. -/
theorem instantiateCell_follows (hd : Below w n d e) (id : Ident) (args : List TemplateArg) :
    Along w n (instantiateCell d id args) (instantiateCell e id args) := by
  refine .get_bind (fun _ => rfl) fun s => .bind (.ofExcept _) fun _ => .get_bind (fun _ => rfl) fun s => ?_
  dsimp only
  cases s.cells.find? (mangle id.name args) with
  | some sig => exact .pure _
  | none =>
    refine .bind (elaborateTemplate_follows hd _) fun _ => .get_bind (fun _ => rfl) fun s => ?_
    cases s.generics.find? id.name with
    | none => exact .fail _ _
    | some g =>
      refine .bind (.within fun hn => forInstance_follows (instanceBody_follows (hd.less fun he => ?_) _ _ _) _ _) fun r => ?_
      · have := hn he
        omega
      · refine .modify_bind (fun _ hs => hs.congr rfl rfl rfl rfl) (fun _ _ => rfl) (fun _ h => h) ?_
        refine .modify_bind (fun _ hs => hs.congr rfl rfl rfl rfl) (fun _ _ => rfl) (fun _ h => h) ?_
        exact .pure _

end Check
end Unroll
