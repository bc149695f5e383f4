import Unroll.Proofs.Check.Onward
import Unroll.Proofs.Check.Reading
/-!
# What a check puts back

A check enters scopes, loops, templates and other cells, and it puts back what it entered on every way out, an error
included.  The place is compared before and after; what else is to be kept is a relation of its own, and the rules of
`Lasting` say what the few steps that change more than the place have to do for it.  With that, one walk through the
checker serves every such relation.
-/
namespace Unroll
namespace Check

open CheckM Outcome Checker

/-! ## What is kept -/

/-- The template as a check leaves it that has failed: it is not checked again. -/
def tried (name : String) (s t : Checker) : Checker :=
  modifyGeneric name (fun g => { g with elaborated := true })
    { t.onPlace (fun _ => s.place) with elaborating := t.elaborating.erase name }

/-- The state after an instance that has failed, where its check left `v`. -/
def forgotten (name : String) (t v : Checker) : Checker :=
  { v.onPlace fun _ => t.place with cells := v.cells.erase name, frames := v.frames.pop.2 }

/-- The signature is that of a cell, as it is resolved for an instance: outside of all cells. -/
def Signs (fr : Frames) (t : Checker) (sig : CellSig) : Prop :=
  ∃ n c u, signature (levels n) c (({ t with frames := fr } : Checker).onPlace outer) = .ok sig u

/-- **A relation that a check keeps**, wherever it stands. -/
class Lasting (T : Checker → Checker → Prop) : Prop extends IsPreorder Checker T where
  onPlace : ∀ s f, T s (s.onPlace f)
  event : ∀ {s e}, e.kind ≠ .cell → T s (s.addEvent e)
  report : ∀ s d, T s (s.report d)
  record : ∀ s base fs, T s (({ s with recordCount := s.recordCount + 1 } : Checker).addRecord
    (localName base (s.recordCount + 1)) fs)
  within : ∀ {s t f fr}, s.frames.push f = .ok fr → T { s with frames := fr } t → T s { t with frames := t.frames.pop.2 }
  /-- A template that is checked for the first time. -/
  tried : ∀ {name g s t}, s.generics.find? name = some g → (g.elaborated || s.elaborating.contains name) = false →
    T (underWay name g s) t → T s (tried name s t)
  elaborated : ∀ {n name g sig c s t}, s.generics.find? name = some g →
    (g.elaborated || s.elaborating.contains name) = false →
    cellBody (levels n) g.cell sig (underWay name g s) = .ok c t → T (underWay name g s) t → T s (elaborated name c s t)
  /-- An instance that was not known when it was asked for.  Its template has been checked since. -/
  instantiated : ∀ {n id g args fr concrete sig c s t v}, s.cells.find? (mangle id.name args) = none → T s t →
    t.generics.find? id.name = some g → t.frames.push ⟨.cell (mangle id.name args), id.span⟩ = .ok fr →
    Subst.cell (ArgLevels.bind [] g.params.names args) g.cell (mangle id.name args) = .ok concrete → Signs fr t sig →
    cellBody (levels n) concrete sig (knowing fr (mangle id.name args) sig t) = .ok c v →
    T (knowing fr (mangle id.name args) sig t) v → T s (instantiated id (mangle id.name args) c sig t v)
  forgotten : ∀ {name f fr s t v}, s.cells.find? name = none → T s t → t.frames.push f = .ok fr →
    v = { t with frames := fr } ∨ (∃ sig, Signs fr t sig ∧ T (knowing fr name sig t) v) → T s (forgotten name t v)

/-- The second state stands as the first one does, as far as the first relation tells, and it is related to it by the
second. -/
structure Keeps (P : Place → Place → Prop) (T : Checker → Checker → Prop) (s t : Checker) : Prop where
  place : P s.place t.place
  rest : T s t

instance : IsPreorder Place Place.Left where
  refl := .refl
  trans _ _ _ := .trans

instance : IsPreorder Place Place.Within where
  refl := .refl
  trans _ _ _ := .trans

instance {P : Place → Place → Prop} {T : Checker → Checker → Prop} [IsPreorder Place P] [IsPreorder Checker T] :
    IsPreorder Checker (Keeps P T) where
  refl s := ⟨refl_of P _, refl_of T s⟩
  trans _ _ _ h h' := ⟨trans_of P h.place h'.place, trans_of T h.rest h'.rest⟩

variable {T : Checker → Checker → Prop}

namespace Keeps

variable {P : Place → Place → Prop} {s t : Checker}

theorem of_eq [IsPreorder Place P] (h : Keeps Eq T s t) : Keeps P T s t := ⟨h.place ▸ refl_of P _, h.rest⟩

theorem within (h : Keeps Place.Left T s t) : Keeps Place.Within T s t := ⟨h.place.1, h.rest⟩

end Keeps

/-- The statements that declare a name. -/
def declares : Stmt → Bool
  | .val _ | .record _ => true
  | _ => false

/-- What the check of a statement keeps: only a declaration that passes leaves something behind. -/
structure StmtKeeps (T : Checker → Checker → Prop) (x : Stmt) {α : Type} (check : CheckM α) : Prop where
  moves : Always (Keeps Place.Within T) check
  fails : Fails (Keeps Place.Left T) check
  leaves : declares x = false → Always (Keeps Place.Left T) check

theorem StmtKeeps.of_left {x : Stmt} {α : Type} {check : CheckM α} (h : Always (Keeps Place.Left T) check) :
    StmtKeeps T x check :=
  ⟨h.mono .within, .of_always h, fun _ => h⟩

/-! ## Written types -/

variable {deeper : Deeper}

theorem within_reads {α : Type} {f : Frame} {x : CheckM α} (hx : Always Eq x) : Always Eq (within f x) := by
  refine .within (fun _ => rfl) (fun {s t fr} hpush h => ?_) hx
  subst h
  rw [pop_push hpush]

theorem instantiateAlias_reads (hd : ∀ w, Always Eq (deeper.typeRef w)) (id : Ident) (args : List TemplateArg) :
    Always Eq (instantiateAlias deeper id args) := by
  refine .bind .get fun s => .bind (.ofExcept _) fun _ => ?_
  split
  · exact within_reads (.bind (.ofExcept _) fun w => hd w)
  · exact .fail _ _

mutual

/-- **A written type is only read**, also where it means nothing. -/
theorem typeRef_reads (hd : ∀ w, Always Eq (deeper.typeRef w)) : ∀ w : TypeRef, Always Eq (typeRef deeper w)
  | .array _ elem len => by
    unfold typeRef
    exact .bind (typeRef_reads hd elem) fun _ => (length_blind _ _).always
  | .named _ id args => by
    unfold typeRef
    refine .bind (meaning_blind id).always fun m => ?_
    split
    · split
      · exact .pure _
      · exact .fail _ _
    · split
      · exact .fail _ _
      · refine .bind (argsFor_reads hd args _) fun as => ?_
        split
        · exact instantiateAlias_reads hd _ _
        · exact .pure _

theorem argsFor_reads (hd : ∀ w, Always Eq (deeper.typeRef w)) : ∀ (as : List TypeArg) (ps : List ParamDecl),
    Always Eq (argsFor deeper ps as)
  | [], ps => by
    cases ps <;> exact .pure _
  | a :: as, [] => .pure _
  | a :: as, p :: ps => by
    unfold argsFor
    exact .bind (argFor_reads hd a p) fun _ => .bind (argsFor_reads hd as ps) fun _ => .pure _

theorem argFor_reads (hd : ∀ w, Always Eq (deeper.typeRef w)) : ∀ (a : TypeArg) (p : ParamDecl),
    Always Eq (argFor deeper p a)
  | .value e, ⟨_, .type _⟩ => .fail _ _
  | .value e, ⟨_, .const⟩ => (valueArg_blind _ _).always
  | .type t, ⟨_, .type _⟩ => by
    unfold argFor
    exact .bind (typeRef_reads hd t) fun _ => .pure _
  | .type (.named sp id []), ⟨_, .const⟩ => (valueArg_blind _ _).always
  | .type (.named sp id (b :: bs)), ⟨_, .const⟩ => .fail _ _
  | .type (.array _ _ _), ⟨_, .const⟩ => .fail _ _

end

theorem templateArgs_reads (hd : ∀ w, Always Eq (deeper.typeRef w)) (o : String) (ps : ParamLevel) (as : List TypeArg) :
    Always Eq (templateArgs deeper o ps as) :=
  .bind (checkArgCount_blind _ _ _).always fun _ => .bind (argsFor_reads hd as _) fun _ => .pure _

theorem recordFields_reads (hd : ∀ w, Always Eq (deeper.typeRef w)) (id : Ident) : ∀ (fs : List RecordField)
    (seen : List String), Always Eq (recordFields deeper id seen fs)
  | [], seen => .pure _
  | f :: fs, seen => by
    unfold recordFields
    split
    · exact .fail_bind
    · exact .bind (typeRef_reads hd _) fun _ => .bind (recordFields_reads hd id fs _) fun _ => .pure _

theorem signature_reads (hd : ∀ w, Always Eq (deeper.typeRef w)) (c : CellDef) : Always Eq (signature deeper c) := by
  refine .bind (.mapM (fun p => .bind (typeRef_reads hd _) fun _ => .pure _) _) fun ps => ?_
  split
  · exact .bind (typeRef_reads hd _) fun _ => .pure _
  · exact .pure _

theorem literalRecord_reads (hd : ∀ w, Always Eq (deeper.typeRef w)) (id : Ident) :
    Always Eq (literalRecord deeper id) := by
  refine .bind (typeRef_reads hd _) fun t => ?_
  split
  · exact .pure _
  · refine .bind .get fun s => ?_
    split
    · exact .pure _
    · exact .fail _ _

theorem typeRefAt_reads : ∀ (n : Nat) (w : TypeRef), Always Eq (typeRefAt n w)
  | 0, _ => .fail _ _
  | n + 1, w => by
    unfold typeRefAt
    exact typeRef_reads (typeRefAt_reads n) w

/-! ## Declared names -/

variable {s s' : Checker} {d : Diagnostic}

theorem defineVal_fails (id : Ident) (t : Ty) (m : Bool) : Fails Eq (defineVal id t m) := by
  unfold defineVal
  refine .bind .place fun p => ?_
  dsimp only
  split
  · exact .of_always .fail_bind
  · split
    · exact .of_always (.fail _ _)
    · split
      · exact .of_always (.fail _ _)
      · exact fun _ _ _ h => absurd h onPlace_error

theorem defineRecord_fails (hd : ∀ w, Always Eq (deeper.typeRef w)) (id : Ident) (fs : List RecordField) :
    Fails Eq (defineRecord deeper id fs) := by
  unfold defineRecord
  refine .bind .place fun p => ?_
  dsimp only
  split
  · exact .of_always .fail_bind
  · split
    · exact .of_always .fail_bind
    · refine .bind (recordFields_reads hd id fs []) fun infos => ?_
      intro s d s' h
      simp [CheckM.onPlace] at h

variable {n : Nat} [Lasting T]

theorem defineVal_keeps (id : Ident) (t : Ty) (m : Bool) : Always (Keeps Place.Within T) (defineVal id t m) := by
  refine .of_ends (fun {s _ s'} h => ⟨(defineVal_moves h).2, ?_⟩) fun s d s' h => defineVal_fails id t m s d s' h ▸ refl_of _ _
  obtain ⟨_, _, -, -, -, rfl⟩ := defineVal_ok h
  exact Lasting.onPlace s _

theorem defineRecord_keeps (id : Ident) (fs : List RecordField) :
    Always (Keeps Place.Within T) (defineRecord (levels n) id fs) := by
  refine .of_ends (fun {s _ s'} h => ⟨(defineRecord_moves (levels_orderly n) h).2, ?_⟩)
    fun s d s' h => defineRecord_fails (typeRefAt_reads n) id fs s d s' h ▸ refl_of _ _
  obtain ⟨infos, u, canonical, hfs, -, -, rfl, -, rfl⟩ := defineRecord_ok h
  obtain rfl := (recordFields_reads (typeRefAt_reads n) id fs []).ok hfs
  exact trans_of T (trans_of T (Lasting.record s id.name infos) (Lasting.onPlace _ _)) (Lasting.event (by simp))

theorem defineParams_keeps : ∀ (ps : List CellParam) (as : List Param),
    Always (Keeps Place.Within T) (defineParams ps as)
  | [], _ => .pure _
  | _ :: _, [] => .pure _
  | _ :: ps, _ :: as => .bind (defineVal_keeps _ _ _) fun _ => defineParams_keeps ps as

/-! ## Cells -/

theorem onPlace_lasting (f : Place → Place) : Always T (CheckM.onPlace f) := .onPlace fun s => Lasting.onPlace s f

/-- The check of one statement of a cell, which goes on after an error. -/
def recovered (deeper : Deeper) (x : Stmt) : CheckM (Option Stmt) := do
  try some <$> deeper.stmt x
  catch d => do
    if (← get).frames.isEmpty then
      if let .val v := x then
        try defineVal v.name .error true catch _ => pure ()
      modify (·.report d)
      pure none
    else throw d

theorem cellStmts_cons (deeper : Deeper) (x : Stmt) (xs : List Stmt) : cellStmts deeper (x :: xs) = do
    let checked ← recovered deeper x
    let rest ← cellStmts deeper xs
    return match checked with
      | some s => s :: rest
      | none => rest :=
  rfl

theorem recovered_some {x r : Stmt} (h : recovered deeper x s = .ok (some r) s') : deeper.stmt x s = .ok r s' := by
  simp only [recovered, tryCatch_ok, map_ok, bind_ok, get_ok] at h
  rcases h with ⟨_, h, he⟩ | ⟨_, _, -, _, _, ⟨rfl, rfl⟩, h⟩
  · cases he
    exact h
  · split at h
    · split at h <;> simp [bind_ok] at h
    · exact absurd h throw_ok

theorem recovered_keeps (hd : ∀ x, Always (Keeps Place.Within T) (stmtAt n x)) (x : Stmt) :
    Always (Keeps Place.Within T) (recovered (levels n) x) := by
  refine .tryCatch (.map (hd x)) fun d => .bind .get fun s => ?_
  split
  · have hreport : Always (Keeps Place.Within T) (modify (Checker.report d) >>= fun _ => pure none : CheckM (Option Stmt)) :=
      .bind (.modify fun s => ⟨refl_of Place.Within _, Lasting.report s d⟩) fun _ => .pure _
    split
    · exact .bind (.tryCatch (defineVal_keeps _ _ _) fun _ => .pure _) fun _ => hreport
    · exact hreport
  · exact .throw d

theorem cellStmts_keeps (hd : ∀ x, Always (Keeps Place.Within T) (stmtAt n x)) (xs : List Stmt) :
    Always (Keeps Place.Within T) (cellStmts (levels n) xs) := by
  induction xs with
  | nil => exact .pure _
  | cons x xs ih =>
    rw [cellStmts_cons]
    exact .bind (recovered_keeps hd x) fun _ => .bind ih fun _ => .pure _

theorem cellBody_lasting (hd : ∀ x, Always (Keeps Place.Within T) (stmtAt n x)) (c : CellDef) (sig : CellSig) :
    Always T (cellBody (levels n) c sig) :=
  .bind (onPlace_lasting _) fun _ => .bind ((defineParams_keeps _ _).mono Keeps.rest) fun _ =>
    .bind (onPlace_lasting _) fun _ => .bind ((cellStmts_keeps hd _).mono Keeps.rest) fun _ => .pure _

/-- **A template whose check fails** is not checked again. -/
theorem elaborateTemplate_error {name : String} (h : elaborateTemplate deeper name s = .error d s') :
    ∃ g t, s.generics.find? name = some g ∧ (g.elaborated || s.elaborating.contains name) = false ∧
      (signature deeper g.cell >>= cellBody deeper g.cell) (underWay name g s) = .error d t ∧ s' = tried name s t := by
  unfold elaborateTemplate at h
  simp only [bind_error, get_error, get_ok, false_or] at h
  obtain ⟨_, _, ⟨rfl, rfl⟩, h⟩ := h
  cases hg : s.generics.find? name with
  | none =>
    simp only [hg] at h
    exact absurd h pure_error
  | some g =>
    simp only [hg] at h
    split at h
    · exact absurd h pure_error
    · rename_i hnew
      simp only [bind_error, modify_error, modify_ok, always_error, apart_error, onPlace_error, onPlace_ok, false_or,
        and_false, exists_false, or_false] at h
      obtain ⟨_, _, rfl, _, ⟨t, ⟨_, _, rfl, h⟩, rfl⟩, rfl⟩ := h
      exact ⟨g, t, rfl, Bool.eq_false_iff.2 hnew, bind_error.2 h, rfl⟩

theorem elaborateTemplate_keeps (hd : ∀ x, Always (Keeps Place.Within T) (stmtAt n x)) (name : String) :
    Always (Keeps Eq T) (elaborateTemplate (levels n) name) := by
  refine .of_ends (fun {s _ s'} h => ⟨(elaborateTemplate_steady (levels_orderly n) h).2.symm, ?_⟩) fun s d s' h => ?_
  · obtain rfl | ⟨g, sig, t, c, t', hg, hnew, hsig, hc, rfl⟩ := elaborateTemplate_ok h
    · exact refl_of T s
    · obtain rfl := (signature_reads (typeRefAt_reads n) _).ok hsig
      exact Lasting.elaborated hg hnew hc ((cellBody_lasting hd _ _).ok hc)
  · obtain ⟨g, t, hg, hnew, hc, rfl⟩ := elaborateTemplate_error h
    refine ⟨Eq.symm (modifyGeneric_place _ name _), Lasting.tried hg hnew ?_⟩
    exact (Always.bind (.of_eq (signature_reads (typeRefAt_reads n) _)) (cellBody_lasting hd _)).error hc

/-- An instance that fails does so in its body: its signature is only read. -/
theorem instanceBody_error (hr : ∀ w, Always Eq (deeper.typeRef w)) {template : CellDef} {ls : ArgLevels} {name : String}
    (h : instanceBody deeper template ls name s = .error d s') :
    s = s' ∨ ∃ concrete sig t, Subst.cell ls template name = .ok concrete ∧
      signature deeper concrete (s.onPlace outer) = .ok sig (s.onPlace outer) ∧
      cellBody deeper concrete sig ({ s.onPlace outer with cells := s.cells.insert name sig }) = .error d t ∧
      t.onPlace (fun _ => s.place) = s' := by
  unfold instanceBody at h
  simp only [bind_error, ofExcept_error, ofExcept_ok, apart_error, modify_error, modify_ok, pure_error,
    and_false, exists_false, or_false, false_or] at h
  rcases h with ⟨-, h⟩ | ⟨concrete, _, ⟨hsub, rfl⟩, t, h, hs⟩
  · exact .inl h
  · rcases h with h | ⟨sig, u, hsig, _, _, rfl, h⟩
    · obtain rfl := (signature_reads hr _).error h
      exact .inl hs
    · obtain rfl := (signature_reads hr _).ok hsig
      exact .inr ⟨concrete, sig, t, hsub, hsig, h, hs⟩

/-- **An instance that fails is forgotten**, however far its check has come. -/
theorem instantiateCell_error (hr : ∀ w, Always Eq (deeper.typeRef w)) {id : Ident} {args : List TemplateArg}
    (h : instantiateCell deeper id args s = .error d s') :
    s = s' ∨ elaborateTemplate deeper id.name s = .error d s' ∨
      ∃ t, s.cells.find? (mangle id.name args) = none ∧ elaborateTemplate deeper id.name s = .ok () t ∧ (t = s' ∨ ∃ fr v,
        t.frames.push ⟨.cell (mangle id.name args), id.span⟩ = .ok fr ∧ s' = forgotten (mangle id.name args) t v ∧
          (v = { t with frames := fr } ∨ ∃ concrete sig u d',
            signature deeper concrete (({ t with frames := fr } : Checker).onPlace outer) = .ok sig u ∧
            cellBody deeper concrete sig (knowing fr (mangle id.name args) sig t) = .error d' v)) := by
  unfold instantiateCell at h
  simp only [bind_error, get_error, get_ok, ofExcept_error, ofExcept_ok, false_or] at h
  obtain ⟨_, _, ⟨rfl, rfl⟩, ⟨-, h⟩ | ⟨_, _, ⟨-, rfl⟩, _, _, ⟨rfl, rfl⟩, h⟩⟩ := h
  · exact .inl h
  cases hc : s.cells.find? (mangle id.name args) with
  | some sig =>
    simp only [hc] at h
    exact absurd h pure_error
  | none =>
    simp only [hc, bind_error, get_error, get_ok, false_or] at h
    obtain h | ⟨_, t, ht, _, _, ⟨rfl, rfl⟩, h⟩ := h
    · exact .inr (.inl h)
    refine .inr (.inr ⟨t, rfl, ht, ?_⟩)
    cases hg : t.generics.find? id.name with
    | none =>
      simp only [hg, fail_error] at h
      exact .inl h.2
    | some g =>
      simp only [hg, bind_error, within_error, modify_error, pure_error, and_false, exists_false, or_false] at h
      obtain ⟨-, h⟩ | ⟨fr, w, hfr, h, rfl⟩ := h
      · exact .inl h
      refine .inr ⟨fr, ?_⟩
      simp only [forInstance, tryCatch_error, bind_error, modify_error, modify_ok, throw_error, false_or] at h
      obtain ⟨d', u, hb, _, _, rfl, -, rfl⟩ := h
      obtain rfl | ⟨concrete, sig, v, -, hsig, hbody, rfl⟩ := instanceBody_error hr hb
      · exact ⟨_, hfr, rfl, .inl rfl⟩
      · exact ⟨v, hfr, rfl, .inr ⟨concrete, sig, _, d', hsig, hbody⟩⟩

theorem instantiateCell_keeps (hd : ∀ x, Always (Keeps Place.Within T) (stmtAt n x)) (id : Ident)
    (args : List TemplateArg) : Always (Keeps Eq T) (instantiateCell (levels n) id args) := by
  have htemplate := elaborateTemplate_keeps hd id.name
  refine .of_ends (fun {s r s'} h => ⟨(instantiateCell_steady (levels_orderly n) h).1.2.symm, ?_⟩) fun s d s' h => ?_
  · obtain ⟨-, hname, ⟨rfl, -⟩ | ⟨t, g, fr, concrete, c, u, v, hnone, ht, hg, hfr, hsub, hsig, hbody, rfl⟩⟩ :=
      instantiateCell_ok h
    · exact refl_of T s
    · have hsigns : Signs fr t r.2 := ⟨n, concrete, u, hsig⟩
      obtain rfl := (signature_reads (typeRefAt_reads n) _).ok hsig
      rw [hname] at hnone hfr hsub hbody ⊢
      exact Lasting.instantiated hnone (htemplate.ok ht).rest hg hfr hsub hsigns hbody ((cellBody_lasting hd _ _).ok hbody)
  · obtain rfl | ht | ⟨t, hnone, ht, rfl | ⟨fr, v, hfr, rfl, hv⟩⟩ := instantiateCell_error (typeRefAt_reads n) h
    · exact refl_of _ _
    · exact htemplate.error ht
    · exact htemplate.ok ht
    · have hplace : t.place = (forgotten (mangle id.name args) t v).place := rfl
      have hkept : Keeps Eq T s t := htemplate.ok ht
      refine ⟨hkept.place.trans hplace, ?_⟩
      obtain hv | ⟨concrete, sig, u, d', hsig, hb⟩ := hv
      · exact Lasting.forgotten hnone hkept.rest hfr (.inl hv)
      · exact Lasting.forgotten hnone hkept.rest hfr
          (.inr ⟨sig, ⟨n, concrete, u, hsig⟩, (cellBody_lasting hd _ _).error hb⟩)

/-! ## Expressions -/

theorem cellCall_keeps (hd : ∀ x, Always (Keeps Place.Within T) (stmtAt n x)) (sp : Span) (callee : Ident)
    (generic : List TypeArg) (args : List Expr) (types : List Ty) (places : List Span) :
    Always (Keeps Eq T) (cellCall (levels n) sp callee generic args types places) := by
  unfold cellCall
  refine .bind .get fun s => ?_
  split
  · dsimp only
    split
    · exact .fail_bind
    · exact .bind (checkCall_blind _ _ _ _ _).always fun _ => .pure _
  · refine .bind .get fun s => ?_
    split
    · exact .fail _ _
    · refine .bind (.of_eq (templateArgs_reads (typeRefAt_reads n) _ _ _)) fun given => ?_
      split
      · refine .bind .get fun s => .bind (.ofExcept _) fun full => .bind (instantiateCell_keeps hd _ _) fun r => ?_
        exact .bind (checkCall_blind _ _ _ _ _).always fun _ => .pure _
      · exact .pure _

mutual

/-- **An expression ends where it began**, well or badly. -/
theorem expr_keeps (hd : ∀ x, Always (Keeps Place.Within T) (stmtAt n x)) :
    ∀ e : Expr, Always (Keeps Eq T) (expr (levels n) e)
  | .name _ _ => by
    unfold expr
    exact (nameExpr_blind _ _).always
  | .int _ _ | .char _ _ | .bool _ _ | .text _ _ => by
    unfold expr
    exact .pure _
  | .list _ _ => by
    rw [expr_list]
    exact .fail _ _
  | .array _ items => by
    unfold expr
    dsimp only
    split
    · exact .fail_bind
    · exact .bind (elements_keeps hd items none) fun _ => .pure _
  | .record _ _ fs => by
    unfold expr
    refine .bind (.of_eq (literalRecord_reads (typeRefAt_reads n) _)) fun r => ?_
    exact .bind (fields_keeps hd fs _ _ _) fun _ => .bind (checkComplete_blind _ _ _ _).always fun _ => .pure _
  | .unary _ _ e => by
    unfold expr
    exact .bind (expr_keeps hd e) fun _ => .bind (unaryType_blind _ _ _).always fun _ => .pure _
  | .binary _ l _ r => by
    unfold expr
    refine .bind (expr_keeps hd l) fun _ => .bind (expr_keeps hd r) fun _ => ?_
    exact .bind (binaryType_blind _ _ _ _).always fun _ => .pure _
  | .member _ base _ => by
    unfold expr
    exact .bind (expr_keeps hd base) fun _ => (memberAccess_blind _ _ _).always
  | .index _ base i => by
    unfold expr
    exact .bind (expr_keeps hd base) fun _ => .bind (expr_keeps hd i) fun _ => (elementAccess_blind _ _ _ _ _).always
  | .call _ callee _ args => by
    unfold expr
    refine .bind (checkBuiltinArity_blind _ _ _).always fun _ => .bind (exprs_keeps hd args) fun r => ?_
    dsimp only
    split
    · exact (builtinCall_blind _ _ _ _ _).always
    · exact cellCall_keeps hd _ _ _ _ _ _
  | .listSelect _ (.list _ items) _ => by
    unfold expr
    refine .bind (.constIndex _) fun i => ?_
    split
    · exact nth_keeps hd items _ _ _ _
    · exact .bind (exprs_keeps hd items) fun _ => .pure _
  | .listSelect _ (.name _ _) _ | .listSelect _ (.int _ _) _ | .listSelect _ (.char _ _) _
  | .listSelect _ (.bool _ _) _ | .listSelect _ (.text _ _) _ | .listSelect _ (.array _ _) _
  | .listSelect _ (.record _ _ _) _ | .listSelect _ (.unary _ _ _) _ | .listSelect _ (.binary _ _ _ _) _
  | .listSelect _ (.member _ _ _) _ | .listSelect _ (.index _ _ _) _ | .listSelect _ (.call _ _ _ _) _
  | .listSelect _ (.listSelect _ _ _) _ | .listSelect _ (.memberSelect _ _ _ _) _ => by
    unfold expr
    exact .fail _ _
  | .memberSelect _ base _ _ => by
    unfold expr
    refine .bind (expr_keeps hd base) fun _ => .bind (.constIndex _) fun i => ?_
    split
    · split
      · exact (memberAccess_blind _ _ _).always
      · exact .fail _ _
    · exact .pure _

theorem exprs_keeps (hd : ∀ x, Always (Keeps Place.Within T) (stmtAt n x)) :
    ∀ es : List Expr, Always (Keeps Eq T) (exprs (levels n) es) := by
  intro es
  cases es with
  | nil => exact .pure _
  | cons e es =>
    unfold exprs
    exact .bind (expr_keeps hd e) fun _ => .bind (exprs_keeps hd es) fun _ => .pure _

theorem elements_keeps (hd : ∀ x, Always (Keeps Place.Within T) (stmtAt n x)) :
    ∀ (es : List Expr) (sofar : Option Ty), Always (Keeps Eq T) (elements (levels n) sofar es)
  | [], _ => .pure _
  | e :: es, sofar => by
    unfold elements
    refine .bind (expr_keeps hd e) fun _ => .bind (elementType_blind _ _ _).always fun _ => ?_
    exact .bind (elements_keeps hd es _) fun _ => .pure _

theorem fields_keeps (hd : ∀ x, Always (Keeps Place.Within T) (stmtAt n x)) :
    ∀ (fs : List (Ident × Expr)) (type : Ty) (record : Option RecordInfo) (seen : List String),
      Always (Keeps Eq T) (fields (levels n) type record seen fs)
  | [], _, _, _ => .pure _
  | (f, e) :: fs, type, record, seen => by
    unfold fields
    refine .bind (literalField_blind _ _ _ _).always fun info => .bind (expr_keeps hd e) fun r => ?_
    have hrest := fun r : Expr => Always.bind (fields_keeps hd fs type record (f.name :: seen))
      fun rest => .pure ((f, r) :: rest)
    dsimp only
    split
    · exact .bind (checkAssignable_blind _ _ _).always fun _ => hrest _
    · exact hrest _

theorem nth_keeps (hd : ∀ x, Always (Keeps Place.Within T) (stmtAt n x)) :
    ∀ (es : List Expr) (sp : Span) (count index k : Nat), Always (Keeps Eq T) (nth (levels n) sp count index es k)
  | [], _, _, _, 0 | [], _, _, _, _ + 1 => .fail _ _
  | e :: _, _, _, _, 0 => by
    unfold nth
    exact expr_keeps hd e
  | _ :: es, _, _, _, k + 1 => by
    unfold nth
    exact nth_keeps hd es _ _ _ k

end

theorem rangeExpr_keeps (hd : ∀ x, Always (Keeps Place.Within T) (stmtAt n x)) (e : Expr) :
    Always (Keeps Eq T) (rangeExpr (levels n) e) := by
  cases e with
  | list sp items => exact .bind (exprs_keeps hd items) fun _ => .pure _
  | _ => exact expr_keeps hd _

/-! ## Statements -/

theorem condition_keeps (hd : ∀ x, Always (Keeps Place.Within T) (stmtAt n x)) (what : Condition) (e : Expr) :
    Always (Keeps Eq T) (condition (levels n) what e) := by
  refine .bind (expr_keeps hd e) fun r => ?_
  dsimp only
  split
  · exact .pure _
  · exact .fail _ _

theorem assignment_keeps (hd : ∀ x, Always (Keeps Place.Within T) (stmtAt n x)) (sp : Span) (id : Ident) (e : Expr) :
    Always (Keeps Eq T) (assignment (levels n) sp id e) := by
  refine .bind .place fun p => ?_
  split
  · exact .fail _ _
  · dsimp only
    split
    · exact .fail_bind
    · exact .bind (expr_keeps hd e) fun _ => .bind (checkAssignable_blind _ _ _).always fun _ => .pure _

theorem giveBack_keeps (hd : ∀ x, Always (Keeps Place.Within T) (stmtAt n x)) (sp : Span) (e : Option Expr) :
    Always (Keeps Eq T) (giveBack (levels n) sp e) := by
  refine .bind .place fun p => ?_
  cases e with
  | some e => exact .bind (expr_keeps hd e) fun _ => .bind (checkAssignable_blind _ _ _).always fun _ => .pure _
  | none =>
    dsimp only
    split
    · exact .pure _
    · exact .fail _ _

theorem assertion_keeps (hd : ∀ x, Always (Keeps Place.Within T) (stmtAt n x)) (sp : Span) (e : Expr) :
    Always (Keeps Eq T) (assertion (levels n) sp e) := by
  refine .bind (condition_keeps hd _ e) fun _ => .bind .place fun _ => ?_
  split
  · exact .fail _ _
  · exact .pure _

theorem initialValue_keeps (hd : ∀ x, Always (Keeps Place.Within T) (stmtAt n x)) (declared : Option Ty) (e : Expr) :
    Always (Keeps Eq T) (initialValue (levels n) declared e) := by
  unfold initialValue
  split
  · exact .pure _
  · exact expr_keeps hd e

/-- The steps of a declaration that come before it declares something. -/
theorem valDecl_keeps (hd : ∀ x, Always (Keeps Place.Within T) (stmtAt n x)) (d : ValDecl) :
    Always (Keeps Place.Within T) (valDecl (levels n) d) ∧ Fails (Keeps Eq T) (valDecl (levels n) d) := by
  have htype : Always (Keeps Eq T) (d.type.mapM (typeRef (levels n))) :=
    .optionMapM (fun w => .of_eq (typeRef_reads (typeRefAt_reads n) w)) d.type
  have hvalue := fun declared => initialValue_keeps hd declared d.expr
  constructor
  · refine .bind (htype.mono .of_eq) fun declared => .bind ((hvalue declared).mono .of_eq) fun r => ?_
    exact .bind (declaredType_blind _ _ _).always fun _ => .bind (defineVal_keeps _ _ _) fun _ => .pure _
  · refine .bind htype fun declared => .bind (hvalue declared) fun r => .bind (declaredType_blind _ _ _).always fun t => ?_
    intro s e s' h
    simp only [bind_error, pure_error, and_false, exists_false, or_false] at h
    exact defineVal_fails _ _ _ _ _ _ h ▸ refl_of (Keeps Eq T) s

theorem initStmt_keeps (hd : ∀ x, Always (Keeps Place.Within T) (stmtAt n x)) :
    ∀ i : Option Init, Always (Keeps Place.Within T) (initStmt (levels n) i)
  | none => .pure _
  | some (.val d) => .bind (valDecl_keeps hd d).1 fun _ => .pure _
  | some (.expr e) => .bind ((expr_keeps hd e).mono .of_eq) fun _ => .pure _

/-- **A scope that was opened is left** by cutting back to where it began. -/
theorem Keeps.scoped {s t : Checker} (h : Keeps Place.Within T (opened s) t) :
    Keeps Place.Left T s (t.onPlace (·.restore s.place.mark)) :=
  ⟨Place.restore_pushScope h.place, trans_of T (trans_of T (Lasting.onPlace s _) h.rest) (Lasting.onPlace t _)⟩

theorem beginExpansion_fails (hd : ∀ x, Always (Keeps Place.Within T) (stmtAt n x)) (x : Expansion) :
    Fails (Keeps Place.Left T) (beginExpansion (levels n) x) := by
  intro s d s' h
  simp only [beginExpansion, bind_error, place_error, place_ok, onPlace_error, onPlace_ok, tryCatch_error, throw_error,
    pure_error, and_false, exists_false, or_false, false_or] at h
  obtain ⟨_, _, ⟨rfl, rfl⟩, _, _, rfl, d', t, hhead, _, _, rfl, -, rfl⟩ := h
  refine Keeps.scoped ?_
  rcases hhead with hi | ⟨init, u, hi, hr⟩
  · exact (initStmt_keeps hd _).error hi
  · exact trans_of _ ((initStmt_keeps hd _).ok hi) ((rangeExpr_keeps hd _).error hr).of_eq

theorem blockWith_keeps {ss : CheckM (List Stmt)} (hss : Always (Keeps Place.Within T) ss) (sp : Span) :
    Always (Keeps Place.Left T) (blockWith sp ss) := by
  intro s
  rw [blockWith, ends_inScope]
  rw [ends_onPlace]
  exact Keeps.scoped (Always.bind hss (fun _ => .pure _) (opened s))

theorem loopBodyWith_keeps {ss : CheckM (List Stmt)} (hss : Always (Keeps Place.Within T) ss) (sp : Span) :
    Always (Keeps Place.Left T) (loopBodyWith sp ss) := by
  intro s
  rw [loopBodyWith, ends_inScope]
  obtain ⟨hleft, hrest⟩ := blockWith_keeps hss sp (s.onPlace Place.enterLoop)
  exact ⟨Place.restore_enterLoop hleft, trans_of T (trans_of T (Lasting.onPlace s _) hrest) (Lasting.onPlace _ _)⟩

theorem templateOf_keeps (hd : ∀ x, Always (Keeps Place.Within T) (stmtAt n x)) (p : Pending) (walk : Walk)
    {body : CheckM (List Stmt)} (hbody : Always (Keeps Place.Within T) body) :
    Always (Keeps Place.Left T) (templateOf (levels n) p walk body) := by
  intro s
  rw [templateOf, ends_inScope]
  have hin : Keeps Place.Within T (symbolic p.index s) (ends _ (symbolic p.index s)) :=
    Always.bind (valDecl_keeps hd (loopDecl p walk)).1 (fun var => .bind hbody fun ss => .pure (var, ss)) _
  refine ⟨Place.restore_left hin.place.values hin.place.types ?_ hin.place.rets hin.place.cell hin.place.locals,
    trans_of T (trans_of T (Lasting.onPlace s _) hin.rest) (Lasting.onPlace _ _)⟩
  exact hin.place.templates ▸ Place.cut_tail rfl rfl

theorem instantiateBlock_keeps (hd : ∀ x, Always (Keeps Place.Within T) (stmtAt n x)) (unit : Block) (ls : ArgLevels)
    (f : Frame) : Always (Keeps Place.Left T) (instantiateBlock (levels n) unit ls f) := by
  refine .within (fun s => refl_of _ s) (fun hf h => ⟨h.place, Lasting.within hf h.rest⟩) ?_
  intro s
  rw [ends_onPlace, ends_onPlace, ends_always]
  have hin := Always.bind (R := Keeps Place.Within T) (.ofExcept (Subst.block ls unit))
    (fun b => .bind (.mapM hd b.stmts) fun ss => .pure ({ b with stmts := ss } : Block))
    ((s.onPlace Place.enterLocal).onPlace Place.enterLoop)
  refine ⟨Place.exitLocal_left hin.place, ?_⟩
  exact trans_of T (trans_of T (trans_of T (Lasting.onPlace s _) (Lasting.onPlace _ _)) hin.rest) (Lasting.onPlace _ _)

theorem copyAt_keeps (hd : ∀ x, Always (Keeps Place.Within T) (stmtAt n x)) (template : Block) (index : IndexParam)
    (keyword : Span) (i : Nat) : Always (Keeps Place.Left T) (copyAt (levels n) template index keyword i) := by
  refine .bind (.tryCatch (instantiateBlock_keeps hd _ _ _) fun _ => .throw _) fun body => ?_
  dsimp only
  split
  · refine .bind (.modify fun s => ⟨refl_of Place.Left _, Lasting.event ?_⟩) fun _ => .pure _
    simp
  · exact .pure _

theorem copiesFrom_keeps {copy : Nat → CheckM Copy} (hcopy : ∀ i, Always (Keeps Place.Left T) (copy i)) :
    ∀ left i : Nat, Always (Keeps Place.Left T) (copiesFrom copy left i)
  | 0, _ => .pure _
  | left + 1, i => .bind (hcopy i) fun _ => .bind (copiesFrom_keeps hcopy left (i + 1)) fun _ => .pure _

theorem unrolling_keeps (hd : ∀ x, Always (Keeps Place.Within T) (stmtAt n x)) (p : Pending) (walk : Walk)
    (template : Block) : Always (Keeps Place.Left T) (unrolling (levels n) p walk template) := by
  unfold unrolling
  split
  · exact .pure _
  · exact .pure _
  · exact .bind (copiesFrom_keeps (copyAt_keeps hd _ _ _) _ _) fun _ => .pure _

theorem bindRange_keeps (p : Pending) (walk : Walk) : Always (Keeps Place.Within T) (bindRange p walk) := by
  unfold bindRange
  split
  · exact defineVal_keeps _ _ _
  · exact .pure _

theorem unroll_keeps (hd : ∀ x, Always (Keeps Place.Within T) (stmtAt n x)) (p : Pending) (sp : Span)
    {body : CheckM (List Stmt)} (hbody : Always (Keeps Place.Within T) body) :
    Always (Keeps Place.Within T) (unroll (levels n) p sp body) := by
  refine .bind .get fun s => .bind (.ofExcept _) fun walk => .bind (checkSize_always _ _) fun _ =>
    .bind (bindRange_keeps p walk) fun _ => .bind ((templateOf_keeps hd p walk hbody).mono .within) fun r => ?_
  exact .bind ((unrolling_keeps hd p walk _).mono .within) fun _ => .pure _

/-- **An open expansion is left** when its body has been taken to it. -/
theorem finishExpansion_keeps {m : Nat} (hm : ∀ x, Always (Keeps Place.Within T) (stmtAt m x))
    (hd : ∀ x, Always (Keeps Place.Within T) (stmtAt n x)) {x : Expansion} {p : Pending} {s t : Checker}
    (hp : beginExpansion (levels m) x s = .ok p t) (sp : Span) {body : CheckM (List Stmt)}
    (hbody : Always (Keeps Place.Within T) body) :
    Keeps Place.Left T s (ends (finishExpansion (levels n) p sp body) t) := by
  obtain ⟨init, u, range, type, hi, hr, rfl⟩ := beginExpansion_ok hp
  rw [finishExpansion, ends_always]
  refine Keeps.scoped (trans_of (Keeps Place.Within T) ?_ (unroll_keeps hd _ sp hbody t))
  exact trans_of _ ((initStmt_keeps hm _).ok hi) (((rangeExpr_keeps hm _).ok hr).of_eq)

mutual

/-- **A statement leaves what it entered**, well or badly; what it declares stands in the innermost scope. -/
theorem stmt_keeps (hd : ∀ x, Always (Keeps Place.Within T) (stmtAt n x)) :
    ∀ x : Stmt, StmtKeeps T x (stmt (levels n) x)
  | .typeAlias _ _ _ _ | .trait _ _ | .cell _ => by
    unfold stmt
    exact .of_left (.fail _ _)
  | .record r => by
    unfold stmt
    refine ⟨.bind (defineRecord_keeps _ _) fun _ => .pure _, fun s d s' h => ?_, fun h => by cases h⟩
    simp only [bind_error, pure_error, and_false, exists_false, or_false] at h
    exact defineRecord_fails (typeRefAt_reads n) _ _ _ _ _ h ▸ refl_of (Keeps Place.Left T) s
  | .val v => by
    unfold stmt
    refine ⟨.map (valDecl_keeps hd v).1, fun s d s' h => ?_, fun h => by cases h⟩
    exact ((valDecl_keeps hd v).2 s d s' (map_error.1 h)).of_eq
  | .assign sp id e => by
    unfold stmt
    exact .of_left (.mono .of_eq (assignment_keeps hd sp id e))
  | .cond sp c yes none => by
    unfold stmt
    exact .of_left (.bind (.mono .of_eq (condition_keeps hd _ c)) fun _ => .bind (block_keeps hd yes) fun _ => .pure _)
  | .cond sp c yes (some no) => by
    unfold stmt
    exact .of_left (.bind (.mono .of_eq (condition_keeps hd _ c)) fun _ =>
      .bind (block_keeps hd yes) fun _ => .bind (block_keeps hd no) fun _ => .pure _)
  | .loop sp c ⟨bsp, ss⟩ => by
    unfold stmt
    exact .of_left (.bind (.mono .of_eq (condition_keeps hd _ c)) fun _ =>
      .bind (loopBodyWith_keeps (stmts_keeps hd ss) bsp) fun _ => .pure _)
  | .expand x => by
    unfold stmt
    exact .of_left (.map (expansion_keeps hd x))
  | .leave sp | .next sp => by
    unfold stmt
    exact .of_left (jump_always _ _ _)
  | .give sp e => by
    unfold stmt
    exact .of_left (.mono .of_eq (giveBack_keeps hd sp e))
  | .assert sp e => by
    unfold stmt
    exact .of_left (.mono .of_eq (assertion_keeps hd sp e))
  | .expr e => by
    unfold stmt
    exact .of_left (.bind (.mono .of_eq (expr_keeps hd e)) fun _ => .pure _)

theorem stmts_keeps (hd : ∀ x, Always (Keeps Place.Within T) (stmtAt n x)) :
    ∀ xs : List Stmt, Always (Keeps Place.Within T) (stmts (levels n) xs) := by
  intro xs
  cases xs with
  | nil => exact .pure _
  | cons x xs =>
    unfold stmts
    exact .bind (stmt_keeps hd x).moves fun _ => .bind (stmts_keeps hd xs) fun _ => .pure _

theorem block_keeps (hd : ∀ x, Always (Keeps Place.Within T) (stmtAt n x)) :
    ∀ b : Block, Always (Keeps Place.Left T) (block (levels n) b)
  | ⟨sp, ss⟩ => by
    unfold block
    exact blockWith_keeps (stmts_keeps hd ss) sp

theorem expansion_keeps (hd : ∀ x, Always (Keeps Place.Within T) (stmtAt n x)) :
    ∀ x : Expansion, Always (Keeps Place.Left T) (expansion (levels n) x)
  | ⟨span, keyword, init, var, range, ⟨bsp, ss⟩, depth, state⟩ => by
    unfold expansion
    intro s
    rw [ends_bind]
    split
    · rename_i p t hp
      exact finishExpansion_keeps hd hd hp bsp (stmts_keeps hd ss)
    · rename_i d t hp
      exact beginExpansion_fails hd _ s d t hp

end

/-! ## Levels -/

theorem stmtAt_keeps : ∀ (n : Nat) (x : Stmt), Always (Keeps Place.Within T) (stmtAt n x)
  | 0, _ => .fail _ _
  | n + 1, x => (stmt_keeps (stmtAt_keeps n) x).moves

end Check

/-! ## What is put back -/

namespace Place

/-- The place with one more value in its innermost scope. -/
def addVal (name : String) (v : ValInfo) (p : Place) : Place := { p with values := p.values.modifyHead (·.insert name v) }

/-- The place with one more record in its innermost scope. -/
def addRecord (name canonical : String) (p : Place) : Place :=
  { p with types := p.types.modifyHead (·.insert name canonical) }

theorem left_recordLocal (p : Place) (name : String) : Left p (p.recordLocal name) := by
  refine ⟨.recordLocal p name, ?_⟩
  unfold recordLocal
  split <;> exact ⟨rfl, rfl⟩

end Place

namespace Check

open CheckM Outcome Checker

/-- The place with one more record in its innermost scope, as a body that is copied takes note of it. -/
def declaring (base canonical : String) (p : Place) : Place := (p.addRecord base canonical).recordLocal base

theorem declaring_eq (base canonical : String) (p : Place) :
    ({ p with types := match p.types with
      | [] => []
      | scope :: outer => scope.insert base canonical :: outer } : Place).recordLocal base = declaring base canonical p := by
  unfold declaring Place.addRecord
  cases p.types <;> rfl

/-- The templates that are being checked and the instantiations under way are those from before. -/
structure PutBack (s t : Checker) : Prop where
  elaborating : t.elaborating = s.elaborating
  frames : t.frames = s.frames

theorem modifyGeneric_putBack (name : String) (f : GenericInfo → GenericInfo) (s : Checker) :
    PutBack s (modifyGeneric name f s) := by
  unfold modifyGeneric
  split <;> exact ⟨rfl, rfl⟩

instance : IsPreorder Checker PutBack where
  refl _ := ⟨rfl, rfl⟩
  trans _ _ _ h h' := ⟨h'.elaborating.trans h.elaborating, h'.frames.trans h.frames⟩

theorem tried_putBack {name : String} {g : GenericInfo} {s t : Checker} (h : PutBack (underWay name g s) t) :
    PutBack s (tried name s t) := by
  have hback : PutBack s { t.onPlace (fun _ => s.place) with elaborating := t.elaborating.erase name } := by
    refine ⟨?_, h.frames⟩
    show t.elaborating.erase name = s.elaborating
    rw [h.elaborating]
    exact @List.erase_cons_head _ _ _ name s.elaborating
  exact trans_of PutBack hback (modifyGeneric_putBack name _ _)

theorem popped {f : Frame} {fr : Frames} {s t : Checker} (hf : s.frames.push f = .ok fr) (h : t.frames = fr) :
    t.frames.pop.2 = s.frames := by
  rw [h]
  exact pop_push hf

instance : Lasting PutBack where
  onPlace _ _ := ⟨rfl, rfl⟩
  event _ := ⟨rfl, rfl⟩
  report _ _ := ⟨rfl, rfl⟩
  record _ _ _ := ⟨rfl, rfl⟩
  within hf h := ⟨h.elaborating, popped hf h.frames⟩
  tried _ _ h := tried_putBack h
  elaborated _ _ _ h := trans_of PutBack (tried_putBack h) (modifyGeneric_putBack _ _ _)
  instantiated _ hst _ hf _ _ _ h := ⟨h.elaborating.trans hst.elaborating, (popped hf h.frames).trans hst.frames⟩
  forgotten _ hst hf h := by
    refine trans_of PutBack hst ?_
    rcases h with rfl | ⟨_, -, h⟩
    · exact ⟨rfl, pop_push hf⟩
    · exact ⟨h.elaborating, popped hf h.frames⟩

/-- **Everything that was entered has been left**, and no name has been added. -/
def Unwound : Checker → Checker → Prop := Keeps Place.Left PutBack

/-- **What is left of a statement that has passed**: of a declared value or record the one name, which the innermost
scope did not have before, and nothing of any other. -/
def LeftBy : Stmt → Place → Place → Prop
  | .val d, p, q => (∃ scope outer, p.values = scope :: outer ∧ scope.contains d.name.name = false) ∧
      ∃ v, (p.addVal d.name.name v).Left q
  | .record d, p, q => (p.types.headD []).contains d.name.name = false ∧
      ∃ canonical, (p.addRecord d.name.name canonical).Left q
  | _, p, q => p.Left q

variable {n : Nat} {s s' : Checker}

theorem valDecl_leftBy {d r : ValDecl} (h : valDecl (levels n) d s = .ok r s') : LeftBy (.val d) s.place s'.place := by
  obtain ⟨declared, t, e, type, u, ht, he, -, hv, -⟩ := valDecl_ok h
  obtain rfl := declared_same (levels_orderly n) ht
  have hplace := (initialValue_steady (levels_orderly n) he).2
  obtain ⟨scope, outer, hscope, -, hnew, rfl⟩ := defineVal_ok hv
  rw [hplace] at hscope
  refine ⟨⟨scope, outer, hscope, hnew⟩, ⟨declared.getD type, d.mutable⟩, ?_⟩
  have hin : s.place.addVal d.name.name ⟨declared.getD type, d.mutable⟩ =
      { u.place with values := scope.insert d.name.name ⟨declared.getD type, d.mutable⟩ :: outer } := by
    rw [hplace, Place.addVal, hscope]
    rfl
  rw [hin]
  exact Place.left_recordLocal _ _

theorem defineRecord_leftBy {d : RecordDef} {t : Ty} (h : defineRecord (levels n) d.name d.fields s = .ok t s') :
    LeftBy (.record d) s.place s'.place := by
  obtain ⟨infos, u, canonical, hfs, -, hnew, -, -, rfl⟩ := defineRecord_ok h
  obtain rfl := (recordFields_reads (typeRefAt_reads n) _ _ _).ok hfs
  refine ⟨hnew, canonical, ?_⟩
  cases hty : s.place.types <;>
    · simp only [addEvent, Checker.onPlace, Checker.addRecord, Place.addRecord, hty]
      exact Place.left_recordLocal _ _

theorem stmt_leftBy {x r : Stmt} (h : stmt (levels n) x s = .ok r s') : LeftBy x s.place s'.place := by
  have hquiet := fun hx => (((stmt_keeps (T := PutBack) (stmtAt_keeps n) x).leaves hx).ok h).place
  cases x with
  | val d =>
    simp only [stmt, map_ok] at h
    obtain ⟨_, hv, -⟩ := h
    exact valDecl_leftBy hv
  | record d =>
    simp only [stmt, bind_ok, pure_ok] at h
    obtain ⟨_, _, hr, -, rfl⟩ := h
    exact defineRecord_leftBy hr
  | _ => exact hquiet rfl

/-- **Every check is unwound, well or badly.** -/
theorem checks_unwind (n : Nat) (s : Checker) :
    (∀ x, match stmt (levels n) x s with
      | .ok _ t => LeftBy x s.place t.place ∧ PutBack s t
      | .error _ t => Unwound s t) ∧
    (∀ e, Unwound s (ends (expr (levels n) e) s)) ∧
    (∀ x, match beginExpansion (levels n) x s with
      | .ok p t => ∀ m span body, Unwound s (ends (finishExpansion (levels m) p span (stmts (levels m) body)) t)
      | .error _ t => Unwound s t) ∧
    ∀ id args, Unwound s (ends (instantiateCell (levels n) id args) s) := by
  have hd : ∀ n x, Always (Keeps Place.Within PutBack) (stmtAt n x) := stmtAt_keeps
  refine ⟨fun x => ?_, fun e => (expr_keeps (hd n) e s).of_eq, fun x => ?_,
    fun id args => (instantiateCell_keeps (hd n) id args s).of_eq⟩
  · cases h : stmt (levels n) x s with
    | ok r t => exact ⟨stmt_leftBy h, ((stmt_keeps (hd n) x).moves.ok h).rest⟩
    | error d t => exact (stmt_keeps (hd n) x).fails s d t h
  · cases h : beginExpansion (levels n) x s with
    | ok p t => exact fun m span body => finishExpansion_keeps (hd n) (hd m) h span (stmts_keeps (hd m) body)
    | error d t => exact beginExpansion_fails (hd n) x s d t h

end Check
end Unroll
