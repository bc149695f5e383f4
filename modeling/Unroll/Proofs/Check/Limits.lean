import Unroll.Proofs.Accepted
import Unroll.Proofs.Check.FollowsStmt
/-!
# What the limits are for

Nothing in a check bounds how far down it goes but the stack of frames and the number of templates.  They are enough:
a check that starts with a level for each of them never gets to the last one, so it does not matter what stands below,
and it does not matter how many more levels there are.  Nor does it matter what a level would do that finds more frames
than are allowed, for none does.

The limits have no other effect.  A program that passes under some limits passes under wider ones, and everything about
it is the same.
-/
namespace Unroll
namespace Check

open CheckM Outcome Checker

/-- A level that looks at the frames before it begins. -/
def guarded (limit : Nat) (alarm d : Deeper) : Deeper where
  typeRef t := do if limit < (← get).frames.depth then alarm.typeRef t else d.typeRef t
  stmt x := do if limit < (← get).frames.depth then alarm.stmt x else d.stmt x

/-- Levels above some ground.  Each one sounds the alarm where it finds more frames than the limit. -/
def tower (limit : Nat) (alarm ground : Deeper) : Nat → Deeper
  | 0 => ground
  | n + 1 => guarded limit alarm ⟨typeRef (tower limit alarm ground n), stmt (tower limit alarm ground n)⟩

/-- The answer to a program, once its declarations have been gone over. -/
def answer (stmts : List Stmt) : CheckM CheckedProgram := do
  let s ← get
  match s.diagnostics.getLast? with
  | some first => throw first
  | none =>
    modify fun s => { s with instances := [] }
    return ⟨stmts, s.instances.reverse⟩

/-- The passes over a program, with whatever each state is given to go down to. -/
def passesBy (below : Checker → Deeper) (p : Program) : CheckM CheckedProgram := do
  p.forM fun s => collecting (declareName s)
  p.forM fun s => do collecting (declare (below (← get)) s)
  p.forM fun s => do collecting (elaborateTemplates (below (← get)) s)
  answer (← p.mapM fun s => do elaborateStmt (below (← get)) s)

/-- The check of a program, with whatever each state is given to go down to. -/
def programBy (below : Checker → Deeper) (p : Program) : CheckM CheckedProgram := do
  modify fun s => { s with diagnostics := [] }
  passesBy below p

theorem programBy_fromHere : programBy fromHere = program := rfl

theorem programBy_run (below : Checker → Deeper) (p : Program) (s : Checker) :
    programBy below p s = passesBy below p { s with diagnostics := [] } := rfl

/-- A level for each frame that the state may open and for each of its templates, and one to stand on. -/
def levelsNeeded (s : Checker) : Nat := s.config.maxInstantiationDepth + s.generics.length + 1

/-- The levels that the state may need, and more of them. -/
def spare (alarm ground : Deeper) (more : Checker → Nat) (s : Checker) : Deeper :=
  tower s.config.maxInstantiationDepth alarm ground (levelsNeeded s + more s)

variable {w : Leeway} {n : Nat} {d e : Deeper} (alarm ground : Deeper)

/-! ## Levels -/

theorem guard_follows {α : Type} {x y z : CheckM α} (h : Along w n x y) :
    Along w n x (do if w.config.maxInstantiationDepth < (← get).frames.depth then z else y) := by
  refine ⟨h.reported, fun s hs => ?_⟩
  have hdepth : ¬w.config.maxInstantiationDepth < (s.under w.config).frames.depth := by
    show ¬w.config.maxInstantiationDepth < s.frames.depth
    have hin := hs.within.depth
    have hlimit := hs.within.limit
    have hdepths := hs.within.depths
    omega
  show Matches w _ (x s) ((if w.config.maxInstantiationDepth < (s.under w.config).frames.depth then z else y)
    (s.under w.config))
  rw [if_neg hdepth]
  exact h.follows s hs

/-- **A level with more levels below it than there is room never meets the ground.** -/
theorem tower_follows : ∀ (a b n : Nat), a ≤ b → (w.exact → n < a) →
    (∀ t, Along w n (typeRefAt a t) ((tower w.config.maxInstantiationDepth alarm ground b).typeRef t)) ∧
      ∀ x, Along w n (stmtAt a x) ((tower w.config.maxInstantiationDepth alarm ground b).stmt x)
  | 0, b, n, _, hn => by
    have he : ¬w.exact := fun he => Nat.not_lt_zero n (hn he)
    exact ⟨fun t => .of_error he fun s => ⟨_, s, rfl⟩, fun x => .of_error he fun s => ⟨_, s, rfl⟩⟩
  | a + 1, 0, _, hab, _ => absurd hab (Nat.not_succ_le_zero a)
  | a + 1, b + 1, n, hab, hn => by
    have hin : ∀ m, (w.exact → m < n) → _ := fun m hm =>
      tower_follows a b m (Nat.le_of_succ_le_succ hab) fun he => Nat.lt_of_lt_of_le (hm he) (Nat.le_of_lt_succ (hn he))
    have hbelow : Below w n (levels a) (tower w.config.maxInstantiationDepth alarm ground b) :=
      ⟨fun m hm => (hin m hm).1, fun m hm => (hin m hm).2⟩
    exact ⟨fun t => guard_follows (typeRef_follows (fun m hm => (hin m hm).1) t),
      fun x => guard_follows (stmt_follows hbelow x)⟩

theorem tower_below {a b : Nat} (hab : a ≤ b) (hn : w.exact → n < a) :
    Below w (n + 1) (levels a) (tower w.config.maxInstantiationDepth alarm ground b) :=
  have hin := fun m (hm : w.exact → m < n + 1) => tower_follows alarm ground a b m hab
    fun he => Nat.lt_of_le_of_lt (Nat.le_of_lt_succ (hm he)) (hn he)
  ⟨fun m hm => (hin m hm).1, fun m hm => (hin m hm).2⟩

/-! ## Declarations -/

variable {P Q : Checker → Prop} {α : Type}

namespace Follows

/-- Whatever room there is, levels enough are given. -/
theorem from_here {x : Deeper → CheckM α} {more : Checker → Nat}
    (h : ∀ n {d e}, Below w (n + 1) d e → Follows w (Bounded w n) (Within w) (x d) (x e)) :
    Follows w (Within w) (Within w) (do x (fromHere (← get)))
      (do x (spare alarm ground more (← get))) := by
  refine ⟨fun he s a t hx hs => ?_, fun s hs => ?_⟩
  · have hbelow : Below w 1 (fromHere s) (tower w.config.maxInstantiationDepth alarm ground (levelsNeeded s)) :=
      tower_below alarm ground (Nat.le_refl _) fun h => absurd h he
    exact (h 0 hbelow).reported he hx hs
  · have hroom : w.exact → s.room w.config < levelsNeeded s := by
      intro he
      have hleft := s.templatesLeft_le
      unfold Checker.room levelsNeeded
      rw [hs.same he]
      omega
    have hmore : levelsNeeded s ≤ levelsNeeded (s.under w.config) + more (s.under w.config) := by
      have hdepths := hs.depths
      show s.config.maxInstantiationDepth + s.generics.length + 1 ≤
        w.config.maxInstantiationDepth + s.generics.length + 1 + more (s.under w.config)
      omega
    exact (h _ (tower_below alarm ground hmore hroom)).follows s ⟨hs, fun _ => Nat.le_refl _⟩

theorem of_bounded {x y : CheckM α} (h : Along w n x y) : Follows w (Bounded w n) (Within w) x y :=
  h.mono (fun _ => id) fun _ hs => hs.within

end Follows

theorem collecting_follows {x y : CheckM Unit} (h : Follows w P (Within w) x y) :
    Follows w P (Within w) (collecting x) (collecting y) := by
  refine .tryCatch h (fun _ {err s _ t} ht => ?_) fun _ err => ?_
  · rw [← modify_ok.1 ht]
    exact List.cons_ne_nil _ _
  · exact .modify (fun _ hs => hs.congr rfl rfl) (fun _ _ => rfl) fun _ _ => List.cons_ne_nil _ _

theorem checkTypeName_blind (id : Ident) : Blind (checkTypeName id) := by
  refine .get_bind (fun h => by rw [h.records, h.aliases]) fun s => ?_
  split
  · exact .fail _ _
  · exact .pure _

theorem declareName_follows : ∀ x : Stmt, Follows w (Within w) (Within w) (declareName x) (declareName x)
  | .trait _ id => by
    refine .get_bind (fun _ => rfl) fun s => ?_
    dsimp only
    split
    · exact .throw _
    · exact .modify (fun _ hs => hs.congr rfl rfl) (fun _ _ => rfl) fun _ h => h
  | .record r => by
    refine .bind ((checkTypeName_blind _).follows _ _) fun _ => ?_
    refine .modify_bind (fun _ hs => hs.congr rfl rfl) (fun _ _ => rfl) (fun _ h => h) ?_
    exact .modify (fun _ hs => hs.congr rfl rfl) (fun _ _ => rfl) fun _ h => h
  | .typeAlias _ _ _ _ | .cell _ => .pure _
  | .val _ | .assign _ _ _ | .cond _ _ _ _ | .loop _ _ _ | .expand _ | .leave _ | .next _ | .give _ _ | .assert _ _
  | .expr _ => .fail _ _

theorem paramDecls_under (c : Config) (s : Checker) : ∀ (ps : List TemplateParam) (seen : List String),
    paramDecls (s.under c) seen ps = paramDecls s seen ps
  | [], _ => rfl
  | p :: ps, seen => by
    unfold paramDecls
    simp only [paramDecls_under c s ps]
    rfl

theorem declareAlias_follows (hd : Below w n d e) (id : Ident) (params : List TemplateParam) (target : TypeRef) :
    Along w n (declareAlias d id params target) (declareAlias e id params target) := by
  refine .bind (checkTypeName_blind _).along fun _ => ?_
  have hinsert : ∀ info : AliasInfo, Along w n
      (modify fun s => { s with aliases := s.aliases.insert id.name info } : CheckM Unit)
      (modify fun s => { s with aliases := s.aliases.insert id.name info }) :=
    fun info => .modify (fun _ hs => hs.congr rfl rfl rfl rfl) (fun _ _ => rfl) fun _ h => h
  cases params with
  | nil => exact .bind (.map (typeRef_follows hd.types target)) hinsert
  | cons p ps =>
    exact .get_bind (fun s => by rw [paramDecls_under]) fun s => .bind (.ofExcept _) fun decls => hinsert _

/-- A generic cell that is declared makes room; nothing is checked after it. -/
theorem declareCell_follows (hd : Below w n d e) (c : CellDef) :
    Follows w (Bounded w n) (Within w) (declareCell d c) (declareCell e c) := by
  unfold declareCell
  dsimp only
  split
  · exact .of_bounded (.throw _)
  · refine .get_bind (fun s => ?_) fun s => ?_
    · rw [paramDecls_under]
      rfl
    split
    · exact .of_bounded (.throw _)
    · by_cases hg : c.isGeneric = true
      · simp only [hg, if_true]
        refine .bind (.of_bounded (.ofExcept _)) fun decls => ?_
        exact .modify (fun _ hs => hs.congr rfl rfl) (fun _ _ => rfl) fun _ h => h
      · simp only [hg]
        refine .bind (.of_bounded (signature_follows hd.types c)) fun sig => ?_
        exact .modify (fun _ hs => hs.congr rfl rfl) (fun _ _ => rfl) fun _ h => h

theorem declare_follows (hd : Below w n d e) : ∀ x : Stmt, Follows w (Bounded w n) (Within w) (declare d x) (declare e x)
  | .record _ => .of_bounded (.bind (recordFields_follows hd.types _ _ _) fun _ =>
      .modify (fun _ hs => hs.congr rfl rfl rfl rfl) (fun _ _ => rfl) fun _ h => h)
  | .typeAlias _ _ _ _ => .of_bounded (declareAlias_follows hd _ _ _)
  | .cell c => declareCell_follows hd c
  | .trait _ _ | .val _ | .assign _ _ _ | .cond _ _ _ _ | .loop _ _ _ | .expand _ | .leave _ | .next _ | .give _ _
  | .assert _ _ | .expr _ => .of_bounded (.pure _)

theorem elaborateTemplates_follows (hd : Below w n d e) : ∀ x : Stmt,
    Follows w (Bounded w n) (Within w) (elaborateTemplates d x) (elaborateTemplates e x)
  | .cell c => by
    unfold elaborateTemplates
    dsimp only
    by_cases hg : c.isGeneric = true
    · rw [if_pos hg, if_pos hg]
      exact .of_bounded (elaborateTemplate_follows hd _)
    · rw [if_neg hg, if_neg hg]
      exact .of_bounded (.pure _)
  | .record _ | .typeAlias _ _ _ _ | .trait _ _ | .val _ | .assign _ _ _ | .cond _ _ _ _ | .loop _ _ _ | .expand _
  | .leave _ | .next _ | .give _ _ | .assert _ _ | .expr _ => .of_bounded (.pure _)

theorem concreteCell_follows (hd : Below w (n + 1) d e) (c : CellDef) :
    Along w n (concreteCell d c) (concreteCell e c) := by
  refine .get_bind (fun _ => rfl) fun s => ?_
  split
  · exact .pure _
  · exact .apart (cellBody_follows (hd.stmts n fun _ => Nat.lt_succ_self n) _ _)

theorem elaborateStmt_follows (hd : Below w (n + 1) d e) : ∀ x : Stmt,
    Follows w (Bounded w n) (Within w) (elaborateStmt d x) (elaborateStmt e x)
  | .cell c => by
    unfold elaborateStmt
    dsimp only
    by_cases hg : c.isGeneric = true
    · rw [if_pos hg, if_pos hg]
      exact .of_bounded (.get_bind (fun _ => rfl) fun _ => .pure _)
    · rw [if_neg hg, if_neg hg]
      refine .of_bounded (.tryCatch (.map (concreteCell_follows hd c)) (fun _ {err s _ t} ht => ?_) fun _ err => ?_)
      · simp only [bind_ok, modify_ok, pure_ok] at ht
        obtain ⟨_, _, rfl, -, rfl⟩ := ht
        exact List.cons_ne_nil _ _
      · exact .modify_bind (fun _ hs => hs.congr rfl rfl rfl rfl) (fun _ _ => rfl) (fun _ _ => List.cons_ne_nil _ _) (.pure _)
  | .record _ | .typeAlias _ _ _ _ | .trait _ _ | .val _ | .assign _ _ _ | .cond _ _ _ _ | .loop _ _ _ | .expand _
  | .leave _ | .next _ | .give _ _ | .assert _ _ | .expr _ => .of_bounded (.pure _)

/-! ## Programs -/

theorem answer_follows (stmts : List Stmt) : Follows w (Within w) (Within w) (answer stmts) (answer stmts) := by
  refine .get_bind (fun _ => rfl) fun s => ?_
  cases s.diagnostics.getLast? with
  | some first => exact .throw _
  | none => exact .modify_bind (fun _ hs => hs.congr rfl rfl) (fun _ _ => rfl) (fun _ => id) (.pure _)

theorem answer_clean {stmts : List Stmt} {checked : CheckedProgram} {s t : Checker} (h : answer stmts s = .ok checked t) :
    t.diagnostics = [] := by
  simp only [answer, bind_ok, get_ok] at h
  obtain ⟨_, _, ⟨rfl, rfl⟩, h⟩ := h
  cases hlast : s.diagnostics.getLast? with
  | some first =>
    simp only [hlast] at h
    exact absurd h throw_ok
  | none =>
    simp only [hlast, bind_ok, modify_ok, pure_ok] at h
    obtain ⟨_, _, rfl, -, rfl⟩ := h
    exact List.getLast?_eq_none_iff.1 hlast

theorem passesBy_follows (more : Checker → Nat) (p : Program) :
    Follows w (Within w) (Within w) (passesBy fromHere p)
      (passesBy (spare alarm ground more) p) := by
  refine .bind (.forM (fun y => collecting_follows (declareName_follows y)) p) fun _ => ?_
  refine .bind (.forM (fun y => .from_here alarm ground (x := fun d => collecting (declare d y)) fun n _ _ hd => ?_) p) fun _ => ?_
  · exact collecting_follows (declare_follows (hd.less fun _ => Nat.le_succ n) y)
  refine .bind (.forM (fun y => .from_here alarm ground (x := fun d => collecting (elaborateTemplates d y)) fun n _ _ hd => ?_) p)
    fun _ => ?_
  · exact collecting_follows (elaborateTemplates_follows (hd.less fun _ => Nat.le_succ n) y)
  exact .bind (.mapM (fun y => .from_here alarm ground (x := fun d => elaborateStmt d y) fun n _ _ hd => elaborateStmt_follows hd y) p)
    answer_follows

/-- **A program is checked alike**, whatever there is below as long as it is far enough down. -/
theorem programBy_follows (more : Checker → Nat) (p : Program) {s : Checker} (hs : Within w s) :
    Matches w (Within w) (program p s)
      (programBy (spare alarm ground more) p (s.under w.config)) := by
  rw [← programBy_fromHere, programBy_run, programBy_run]
  exact (passesBy_follows alarm ground more p).follows { s with diagnostics := [] } (hs.congr rfl rfl)

theorem within_new {config : Config} (hd : config.maxInstantiationDepth ≤ w.config.maxInstantiationDepth)
    (hs : config.maxExpansionSize ≤ w.config.maxExpansionSize) (he : w.exact → config = w.config) :
    Within w (.new config) :=
  ⟨rfl, Nat.zero_le _, hd, hs, he⟩

/-- Without leeway the two checks end in the same way. -/
theorem Matches.eq {r r' : EStateM.Result Diagnostic Checker α} (h : Matches w (Within w) r r') (he : w.exact) : r' = r := by
  cases r with
  | ok a t =>
    obtain ⟨hr, ht⟩ := h.resolve_left fun h => h.1 he
    rw [hr, ht.under_self he]
  | error d t =>
    obtain ⟨hr, ht⟩ := h.resolve_left (absurd he)
    rw [hr, ht.under_self he]

theorem programBy_spare (more : Checker → Nat) (p : Program) (config : Config) :
    programBy (spare alarm ground more) p (.new config) =
      program p (.new config) :=
  (programBy_follows (w := ⟨config, True⟩) alarm ground more p (within_new (Nat.le_refl _) (Nat.le_refl _) fun _ => rfl)).eq trivial

theorem program_clean {p : Program} {checked : CheckedProgram} {s t : Checker} (h : program p s = .ok checked t) :
    t.diagnostics = [] := by
  rw [← programBy_fromHere, programBy_run] at h
  simp only [passesBy, bind_ok] at h
  obtain ⟨_, _, -, _, _, -, _, _, -, stmts, u, -, hanswer⟩ := h
  exact answer_clean hanswer

/-- **Checking terminates, and it stays within its limit of frames.**  A check goes down one level at a time, and what
it does on a level it does in finitely many steps.  However many levels there are beyond those that the frames and the
templates need, and whatever they stand on, the check ends in the same way: no check goes down further than that.  It is
also the same whatever is done where a level finds more frames than the limit.  Frames are added by `Frames.push` alone,
and never beyond the limit. -/
theorem program_terminates (p : Program) (config : Config) :
    (∀ (alarm ground : Deeper) (more : Checker → Nat),
      programBy (spare alarm ground more) p (.new config) =
        program p (.new config)) ∧
    ∀ (fs fs' : Frames) (f : Frame), fs.push f = .ok fs' → fs'.limit = fs.limit ∧ fs'.depth ≤ fs.limit := by
  refine ⟨fun alarm ground more => programBy_spare alarm ground more p config, fun fs fs' f h => ?_⟩
  unfold Frames.push at h
  split at h
  · rename_i hroom
    cases h
    exact ⟨rfl, hroom⟩
  · cases h

/-- **Limits only reject.**  A program that is accepted under some limits is accepted under wider ones, as the same
checked program and with the same events. -/
theorem program_wider {p : Program} {config wider : Config} {checked : CheckedProgram} {last : Checker}
    (hd : config.maxInstantiationDepth ≤ wider.maxInstantiationDepth)
    (hs : config.maxExpansionSize ≤ wider.maxExpansionSize) (h : program p (.new config) = .ok checked last) :
    ∃ last', program p (.new wider) = .ok checked last' ∧ last'.events = last.events := by
  have hmatch := programBy_follows (w := ⟨wider, False⟩) (levels 0) (levels 0) (fun _ => 0) p (within_new hd hs False.elim)
  rw [h] at hmatch
  obtain ⟨-, hdiag⟩ | ⟨hwide, -⟩ := hmatch
  · exact absurd (program_clean h) hdiag
  · exact ⟨last.under wider, (programBy_spare _ _ _ p wider).symm.trans hwide, rfl⟩

/-- An alias, an instance and the copies of an expansion in it. -/
def eachOfPair : String :=
  "type Pair<T> = [T; 2]\n\ncell show<T>(xs: Pair<T>):\n    expand val x in xs:\n        print(x)\n\ncell main():\n    show::<int>([1, 2])\n"

set_option maxRecDepth 100000 in
theorem program_wider_eachOfPair : ∃ p checked last last', Source.program eachOfPair none = .ok p ∧
    program p (.new .standard) = .ok checked last ∧ program p (.new ⟨2048, 131072⟩) = .ok checked last' ∧
      last'.events = last.events ∧ checked.instances.length = 1 := by
  have h : accepts eachOfPair (fun _ checked _ => decide (checked.instances.length = 1)) = true := by decide +kernel
  obtain ⟨p, checked, last, hp, hc, h⟩ := of_accepts h
  have hdepth : Config.standard.maxInstantiationDepth ≤ (⟨2048, 131072⟩ : Config).maxInstantiationDepth := by decide
  have hsize : Config.standard.maxExpansionSize ≤ (⟨2048, 131072⟩ : Config).maxExpansionSize := by decide
  obtain ⟨last', hwide, hevents⟩ := program_wider hdepth hsize hc
  exact ⟨p, checked, last, last', hp, hc, hwide, hevents, of_decide_eq_true h⟩

end Check
end Unroll
