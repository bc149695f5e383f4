import Mathlib.Data.List.Forall2
import Unroll.Checker.Stmt
import Unroll.Proofs.Outcome
/-!
# What a successful check did

One lemma for each step of the checker that is not a walk over a tree: it says everything a success of that step
says.  Steps that only read leave the state as it was, and their lemmas say so.  Nothing later opens these
definitions again.
-/
namespace Unroll
namespace Check

open CheckM Outcome

variable {deeper : Deeper} {s s' : Checker}

/-! ## Written types -/

/-- **What a type name stands for**, in the order in which the kinds of names are tried. -/
theorem meaning_ok {id : Ident} {m : Meaning} (h : meaning id s = .ok m s') :
    s = s' ∧ ((∃ t, Ty.builtin? id.name = some t ∧ m = .plain .builtin t) ∨
      Ty.builtin? id.name = none ∧ ((∃ n b, s.place.param? id.name = some ⟨n, .type b⟩ ∧
          m = .plain .typeParam (.param id.name)) ∨
        s.place.param? id.name = none ∧ ((∃ c, s.recordName? id.name = some c ∧
            m = .plain .record (.record c)) ∨
          s.recordName? id.name = none ∧ ((∃ t, s.aliases.find? id.name = some (.plain t) ∧
              m = .plain .typeAlias t) ∨
            ∃ ps r, s.aliases.find? id.name = some (.generic ps r) ∧ m = .generic ps)))) := by
  unfold meaning at h
  simp only [bind_ok, get_ok] at h
  obtain ⟨_, _, ⟨rfl, rfl⟩, h⟩ := h
  cases hb : Ty.builtin? id.name with
  | some t =>
    simp only [hb, pure_ok] at h
    exact ⟨h.2, .inl ⟨t, rfl, h.1.symm⟩⟩
  | none =>
    simp only [hb] at h
    rcases hp : s.place.param? id.name with _ | ⟨n, b | _⟩
    · cases hr : s.recordName? id.name with
      | some c =>
        simp only [hp, hr, pure_ok] at h
        exact ⟨h.2, .inr ⟨rfl, .inr ⟨rfl, .inl ⟨c, rfl, h.1.symm⟩⟩⟩⟩
      | none =>
        rcases ha : s.aliases.find? id.name with _ | t | ⟨ps, r⟩
        · simp only [hp, hr, ha] at h
          split at h <;> exact absurd h fail_ok
        · simp only [hp, hr, ha, pure_ok] at h
          exact ⟨h.2, .inr ⟨rfl, .inr ⟨rfl, .inr ⟨rfl, .inl ⟨t, rfl, h.1.symm⟩⟩⟩⟩⟩
        · simp only [hp, hr, ha, pure_ok] at h
          exact ⟨h.2, .inr ⟨rfl, .inr ⟨rfl, .inr ⟨rfl, .inr ⟨ps, r, rfl, h.1.symm⟩⟩⟩⟩⟩
    · simp only [hp, pure_ok] at h
      exact ⟨h.2, .inr ⟨rfl, .inl ⟨n, b, rfl, h.1.symm⟩⟩⟩
    · simp only [hp] at h
      exact absurd h fail_ok

theorem length_ok {elem t : Ty} {len : Expr} (h : length elem len s = .ok t s') :
    s = s' ∧ ((∃ n : Int, 0 ≤ n ∧ Const.eval s.place.constant? len = .ok (.int n) ∧ t = .array elem (some n.toNat)) ∨
      Const.eval s.place.constant? len = .ok .dependent ∧ t = .array elem none) := by
  unfold length at h
  simp only [bind_ok, const_ok] at h
  obtain ⟨c, _, ⟨hc, rfl⟩, h⟩ := h
  split at h
  · rename_i n
    split at h
    · rename_i hn
      simp only [pure_ok] at h
      exact ⟨h.2, .inl ⟨n, hn, hc, h.1.symm⟩⟩
    · exact absurd h fail_ok
  · simp only [pure_ok] at h
    exact ⟨h.2, .inr ⟨hc, h.1.symm⟩⟩
  · exact absurd h fail_ok

theorem valueArg_ok {p : ParamDecl} {e : Expr} {a : Option TemplateArg} (h : valueArg p e s = .ok a s') :
    s = s' ∧ ((∃ v, Const.eval s.place.constant? e = .ok (.int v) ∧ a = some (.value v)) ∨
      Const.eval s.place.constant? e = .ok .dependent ∧ a = none) := by
  unfold valueArg at h
  simp only [bind_ok, const_ok] at h
  obtain ⟨c, _, ⟨hc, rfl⟩, h⟩ := h
  split at h
  · simp only [pure_ok] at h
    exact ⟨h.2, .inl ⟨_, hc, h.1.symm⟩⟩
  · simp only [pure_ok] at h
    exact ⟨h.2, .inr ⟨hc, h.1.symm⟩⟩
  · exact absurd h fail_ok

/-- **A generic alias is resolved** by filling its target in and resolving that one level down. -/
theorem instantiateAlias_ok {id : Ident} {args : List TemplateArg} {t : Ty}
    (h : instantiateAlias deeper id args s = .ok t s') :
    ∃ ps target r fr u, s.aliases.find? id.name = some (.generic ps target) ∧
      Subst.typeRef (ArgLevels.bind [] ps.names args) target = .ok r ∧
      s.frames.push ⟨.typeAlias (mangle id.name args), id.span⟩ = .ok fr ∧
      deeper.typeRef r { s with frames := fr } = .ok t u ∧ { u with frames := u.frames.pop.2 } = s' := by
  unfold instantiateAlias at h
  simp only [bind_ok, get_ok, ofExcept_ok] at h
  obtain ⟨_, _, ⟨rfl, rfl⟩, _, _, ⟨-, rfl⟩, h⟩ := h
  rcases ha : s.aliases.find? id.name with _ | t' | ⟨ps, target⟩
  · simp only [ha] at h
    exact absurd h fail_ok
  · simp only [ha] at h
    exact absurd h fail_ok
  · simp only [ha, within_ok, bind_ok, ofExcept_ok] at h
    obtain ⟨fr, u, hf, ⟨r, _, ⟨hr, rfl⟩, hx⟩, rfl⟩ := h
    exact ⟨ps, target, r, fr, u, rfl, hr, hf, hx, rfl⟩

theorem checkArgCount_ok {o : String} {ps : ParamLevel} {as : List TypeArg} {u : Unit}
    (h : checkArgCount o ps as s = .ok u s') : s = s' ∧ as.length ≤ ps.params.length := by
  unfold checkArgCount at h
  cases hn : as[ps.params.length]? with
  | some a =>
    simp only [hn] at h
    exact absurd h fail_ok
  | none =>
    simp only [hn, pure_ok] at h
    exact ⟨h.2, by simpa using hn⟩

/-- **A written type**, by its form. -/
theorem typeRef_named_ok {sp : Span} {id : Ident} {args : List TypeArg} {t : Ty}
    (h : typeRef deeper (.named sp id args) s = .ok t s') :
    ∃ m, meaning id s = .ok m s ∧
      ((∃ w, m = .plain w t ∧ args = [] ∧ s = s') ∨
        ∃ ps u as, m = .generic ps ∧ args.length = ps.params.length ∧ argsFor deeper ps.params args s = .ok as u ∧
          ((∃ full, allKnown as = some full ∧ instantiateAlias deeper id full u = .ok t s') ∨
            allKnown as = none ∧ t = .dependent ∧ u = s')) := by
  simp only [typeRef, bind_ok] at h
  obtain ⟨m, _, hm, h⟩ := h
  obtain ⟨rfl, -⟩ := meaning_ok hm
  refine ⟨m, hm, ?_⟩
  cases m with
  | plain w t' =>
    simp only at h
    split at h
    · rename_i hargs
      simp only [pure_ok] at h
      obtain ⟨rfl, rfl⟩ := h
      exact .inl ⟨w, rfl, List.isEmpty_iff.1 hargs, rfl⟩
    · exact absurd h fail_ok
  | generic ps =>
    simp only at h
    split at h
    · exact absurd h fail_ok
    · rename_i hlen
      simp only [bind_ok] at h
      obtain ⟨as, u, has, h⟩ := h
      refine .inr ⟨ps, u, as, rfl, by simpa using hlen, has, ?_⟩
      cases hk : allKnown as with
      | some full =>
        simp only [hk] at h
        exact .inl ⟨full, rfl, h⟩
      | none =>
        simp only [hk, pure_ok] at h
        exact .inr ⟨rfl, h.1.symm, h.2⟩

/-- A bare name is the one type that can stand for a value. -/
theorem argFor_const_ok {name : String} {t : TypeRef} {a : Option TemplateArg}
    (h : argFor deeper ⟨name, .const⟩ (.type t) s = .ok a s') :
    ∃ sp id, t = .named sp id [] ∧ valueArg ⟨name, .const⟩ (.name sp ⟨id.name, sp⟩) s = .ok a s' := by
  rcases t with ⟨sp, id, _ | ⟨b, bs⟩⟩ | ⟨sp, elem, len⟩
  · simp only [argFor] at h
    exact ⟨sp, id, rfl, h⟩
  · simp only [argFor] at h
    exact absurd h fail_ok
  · simp only [argFor] at h
    exact absurd h fail_ok

theorem templateArgs_ok {o : String} {ps : ParamLevel} {as : List TypeArg} {full : Option (List TemplateArg)}
    (h : templateArgs deeper o ps as s = .ok full s') :
    ∃ given, argsFor deeper ps.params as s = .ok given s' ∧ full = allKnown given := by
  unfold templateArgs at h
  simp only [bind_ok, pure_ok] at h
  obtain ⟨_, _, hc, given, _, hg, rfl, rfl⟩ := h
  obtain ⟨rfl, -⟩ := checkArgCount_ok hc
  exact ⟨given, hg, rfl⟩

/-! ## Declared names -/

/-- **A value is declared** in the innermost scope, which did not have its name. -/
theorem defineVal_ok {id : Ident} {t : Ty} {m : Bool} {u : Unit} (h : defineVal id t m s = .ok u s') :
    ∃ scope rest, s.place.values = scope :: rest ∧ s.place.param? id.name = none ∧ scope.contains id.name = false ∧
      s' = s.onPlace fun p => { p with values := scope.insert id.name ⟨t, m⟩ :: rest }.recordLocal id.name := by
  unfold defineVal at h
  simp only [bind_ok, place_ok] at h
  obtain ⟨_, _, ⟨rfl, rfl⟩, h⟩ := h
  split at h
  · simp only [bind_ok] at h
    obtain ⟨_, _, h, -⟩ := h
    exact absurd h fail_ok
  · rename_i hp
    cases hv : s.place.values with
    | nil =>
      simp only [hv] at h
      exact absurd h fail_ok
    | cons scope rest =>
      simp only [hv] at h
      split at h
      · exact absurd h fail_ok
      · rename_i hc
        simp only [onPlace_ok] at h
        exact ⟨scope, rest, rfl, by simpa using hp, by simpa using hc, h.symm⟩

/-- **A local record is declared** under a canonical name that nothing had before. -/
theorem defineRecord_ok {id : Ident} {fs : List RecordField} {t : Ty} (h : defineRecord deeper id fs s = .ok t s') :
    ∃ infos u canonical, recordFields deeper id [] fs s = .ok infos u ∧ s.place.param? id.name = none ∧
      (s.place.types.headD []).contains id.name = false ∧
      canonical = id.name ++ "'" ++ toString (u.recordCount + 1) ∧ t = .record canonical ∧
      s' = (((({ u with recordCount := u.recordCount + 1 } : Checker).addRecord canonical infos).onPlace fun p =>
        { p with types := match p.types with
          | [] => []
          | scope :: outer => scope.insert id.name canonical :: outer }.recordLocal id.name).addEvent
        ⟨.record, id.name, some (.record canonical), id.span, none⟩) := by
  unfold defineRecord at h
  simp only [bind_ok, place_ok] at h
  obtain ⟨_, _, ⟨rfl, rfl⟩, h⟩ := h
  split at h
  · simp only [bind_ok] at h
    obtain ⟨_, _, h, -⟩ := h
    exact absurd h fail_ok
  · rename_i hp
    split at h
    · simp only [bind_ok] at h
      obtain ⟨_, _, h, -⟩ := h
      exact absurd h fail_ok
    · rename_i hc
      simp only [bind_ok, modify_ok, get_ok, onPlace_ok, pure_ok] at h
      obtain ⟨infos, u, hi, _, _, rfl, _, _, ⟨rfl, rfl⟩, _, _, rfl, _, _, rfl, _, _, rfl, rfl, rfl⟩ := h
      exact ⟨infos, u, _, hi, by simpa using hp, by simpa using hc, rfl, rfl, rfl⟩

/-- A value of the second type may stand where the first is expected, for all that is known. -/
def Assignable (e a : Ty) : Prop := e.isUnknown = true ∨ a.isUnknown = true ∨ e = a

theorem checkAssignable_ok {e a : Ty} {sp : Span} {u : Unit} (h : checkAssignable e a sp s = .ok u s') :
    s = s' ∧ Assignable e a := by
  unfold checkAssignable at h
  split at h
  · rename_i hc
    simp only [pure_ok] at h
    exact ⟨h.2, by simpa [Assignable, or_assoc] using hc⟩
  · exact absurd h fail_ok

/-! ## Cells -/

/-- **A statement directly in a cell** passed, or its error was kept and the check went on. -/
theorem cellStmts_cons_ok {x : Stmt} {xs r : List Stmt} (h : cellStmts deeper (x :: xs) s = .ok r s') :
    (∃ x' t rest, deeper.stmt x s = .ok x' t ∧ cellStmts deeper xs t = .ok rest s' ∧ r = x' :: rest) ∨
      ∃ t rest, t.diagnostics ≠ [] ∧ cellStmts deeper xs t = .ok rest s' := by
  simp only [cellStmts, bind_ok, tryCatch_ok, map_ok] at h
  obtain ⟨checked, t, hx, rest, u, hrest, h⟩ := h
  rcases hx with ⟨x', hx, rfl⟩ | ⟨d, t₀, -, hx⟩
  · simp only [pure_ok] at h
    obtain ⟨rfl, rfl⟩ := h
    exact .inl ⟨x', t, rest, hx, hrest, rfl⟩
  · have hu : u = s' := by cases checked <;> simp only [pure_ok] at h <;> exact h.2
    subst hu
    obtain ⟨t₁, t₂, -, hx⟩ := hx
    split at hx
    · have ht : t.diagnostics ≠ [] := by
        split at hx
        · simp only [bind_ok, modify_ok, pure_ok] at hx
          obtain ⟨_, t₃, -, _, _, rfl, -, rfl⟩ := hx
          simp [Checker.report]
        · simp only [bind_ok, modify_ok, pure_ok] at hx
          obtain ⟨_, _, rfl, -, rfl⟩ := hx
          simp [Checker.report]
      exact .inr ⟨t, rest, ht, hrest⟩
    · exact absurd hx throw_ok

theorem cellBody_ok {c r : CellDef} {sig : CellSig} (h : cellBody deeper c sig s = .ok r s') :
    ∃ t ss, defineParams sig.params c.args (s.onPlace Place.pushScope) = .ok () t ∧
      cellStmts deeper c.body.stmts
        (t.onPlace fun p => { p with rets := sig.ret :: p.rets, cell := some c.name.name }) = .ok ss s' ∧
      r = { c with body := { c.body with stmts := ss } } := by
  simp only [cellBody, bind_ok, onPlace_ok, pure_ok] at h
  obtain ⟨_, _, rfl, _, t, hp, _, _, rfl, ss, _, hss, rfl, rfl⟩ := h
  exact ⟨t, ss, hp, hss, rfl⟩

/-- The state in which the template of a generic cell is checked. -/
def underWay (name : String) (g : GenericInfo) (s : Checker) : Checker :=
  (({ s with elaborating := name :: s.elaborating } : Checker).onPlace outer).onPlace (Place.pushTemplate g.params)

/-- The state after it, where `t` is the one that its check left. -/
def elaborated (name : String) (c : CellDef) (s t : Checker) : Checker :=
  modifyGeneric name (fun g => { g with cell := c })
    (modifyGeneric name (fun g => { g with elaborated := true })
      { t.onPlace (fun _ => s.place) with elaborating := t.elaborating.erase name })

/-- **A template is checked** apart, with its parameters unknown. -/
theorem elaborateTemplate_new {name : String} {g : GenericInfo} {u : Unit} (hg : s.generics.find? name = some g)
    (hnew : (g.elaborated || s.elaborating.contains name) = false) (h : elaborateTemplate deeper name s = .ok u s') :
    ∃ sig t c t', signature deeper g.cell (underWay name g s) = .ok sig t ∧ cellBody deeper g.cell sig t = .ok c t' ∧
      s' = elaborated name c s t' := by
  unfold elaborateTemplate at h
  simp only [bind_ok, get_ok] at h
  obtain ⟨_, _, ⟨rfl, rfl⟩, h⟩ := h
  simp only [hg, if_neg (Bool.eq_false_iff.1 hnew)] at h
  simp only [bind_ok, modify_ok, always_ok, apart_ok, onPlace_ok] at h
  obtain ⟨_, _, rfl, c, _, ⟨_, ⟨t', ⟨_, _, rfl, sig, t, hsig, hc⟩, rfl⟩, rfl⟩, rfl⟩ := h
  exact ⟨sig, t, c, t', hsig, hc, rfl⟩

/-- **A template is checked once.** -/
theorem elaborateTemplate_ok {name : String} {u : Unit} (h : elaborateTemplate deeper name s = .ok u s') :
    s = s' ∨ ∃ g sig t c t', s.generics.find? name = some g ∧ (g.elaborated || s.elaborating.contains name) = false ∧
      signature deeper g.cell (underWay name g s) = .ok sig t ∧ cellBody deeper g.cell sig t = .ok c t' ∧
      s' = elaborated name c s t' := by
  have hrun := h
  unfold elaborateTemplate at h
  simp only [bind_ok, get_ok] at h
  obtain ⟨_, _, ⟨rfl, rfl⟩, h⟩ := h
  cases hg : s.generics.find? name with
  | none =>
    simp only [hg, pure_ok] at h
    exact .inl h.2
  | some g =>
    simp only [hg] at h
    split at h
    · simp only [pure_ok] at h
      exact .inl h.2
    · rename_i hnew
      obtain ⟨sig, t, c, t', hsig, hc, hs⟩ := elaborateTemplate_new hg (Bool.eq_false_iff.2 hnew) hrun
      exact .inr ⟨g, sig, t, c, t', rfl, Bool.eq_false_iff.2 hnew, hsig, hc, hs⟩

/-- **An instance is checked apart**, with its own signature known. -/
theorem instanceBody_ok {template : CellDef} {ls : ArgLevels} {name : String} {r : CellDef × CellSig}
    (h : instanceBody deeper template ls name s = .ok r s') :
    ∃ concrete sig t c t', Subst.cell ls template name = .ok concrete ∧
      signature deeper concrete (s.onPlace outer) = .ok sig t ∧
      cellBody deeper concrete sig { t with cells := t.cells.insert name sig } = .ok c t' ∧
      r = (c, sig) ∧ t'.onPlace (fun _ => s.place) = s' := by
  unfold instanceBody at h
  simp only [bind_ok, ofExcept_ok, apart_ok, modify_ok, pure_ok] at h
  obtain ⟨concrete, _, ⟨hc, rfl⟩, _, ⟨sig, t, hs, _, _, rfl, c, _, hb, rfl, rfl⟩, rfl⟩ := h
  exact ⟨concrete, sig, t, c, _, hc, hs, hb, rfl, rfl⟩

/-- The state in which the body of an instance is checked: it knows the instance already. -/
def knowing (fr : Frames) (name : String) (sig : CellSig) (t : Checker) : Checker :=
  { ({ t with frames := fr } : Checker).onPlace outer with cells := t.cells.insert name sig }

/-- The state after an instance has been checked, where its check left `v`. -/
def instantiated (id : Ident) (name : String) (c : CellDef) (sig : CellSig) (t v : Checker) : Checker :=
  let u := ({ v.onPlace fun _ => t.place with frames := v.frames.pop.2 } : Checker).addEvent
    ⟨.cell, name, some sig.ret, id.span, none⟩
  { u with instances := c :: u.instances }

/-- **An instance is known already, or it is checked now**: its template first, then its own copy. -/
theorem instantiateCell_ok {id : Ident} {args : List TemplateArg} {r : String × CellSig}
    (h : instantiateCell deeper id args s = .ok r s') :
    checkArgs s .cell id args = .ok () ∧ r.1 = mangle id.name args ∧
      ((s = s' ∧ s.cells.find? r.1 = some r.2) ∨
        ∃ t g fr concrete c u v, s.cells.find? r.1 = none ∧ elaborateTemplate deeper id.name s = .ok () t ∧
          t.generics.find? id.name = some g ∧ t.frames.push ⟨.cell r.1, id.span⟩ = .ok fr ∧
          Subst.cell (ArgLevels.bind [] g.params.names args) g.cell r.1 = .ok concrete ∧
          signature deeper concrete (({ t with frames := fr } : Checker).onPlace outer) = .ok r.2 u ∧
          cellBody deeper concrete r.2 { u with cells := u.cells.insert r.1 r.2 } = .ok c v ∧
          s' = instantiated id r.1 c r.2 t v) := by
  unfold instantiateCell at h
  simp only [bind_ok, get_ok, ofExcept_ok] at h
  obtain ⟨_, _, ⟨rfl, rfl⟩, _, _, ⟨hargs, rfl⟩, _, _, ⟨rfl, rfl⟩, h⟩ := h
  refine ⟨hargs, ?_⟩
  cases hc : s.cells.find? (mangle id.name args) with
  | some sig =>
    simp only [hc, pure_ok] at h
    obtain ⟨rfl, rfl⟩ := h
    exact ⟨rfl, .inl ⟨rfl, hc⟩⟩
  | none =>
    simp only [hc, bind_ok, get_ok] at h
    obtain ⟨_, t, ht, _, _, ⟨rfl, rfl⟩, h⟩ := h
    cases hg : t.generics.find? id.name with
    | none =>
      simp only [hg] at h
      exact absurd h fail_ok
    | some g =>
      simp only [hg, bind_ok, within_ok, forInstance, tryCatch_ok, modify_ok, pure_ok] at h
      obtain ⟨⟨c, sig⟩, _, ⟨fr, w, hfr, hb, rfl⟩, _, _, rfl, _, _, rfl, rfl, rfl⟩ := h
      rcases hb with hb | ⟨_, _, -, _, _, -, hb⟩
      · obtain ⟨concrete, sig', u, c', v, hsub, hsig, hbody, he, rfl⟩ := instanceBody_ok hb
        cases he
        exact ⟨rfl, .inr ⟨t, g, fr, concrete, c, u, v, hc, ht, hg, hfr, hsub, hsig, hbody, rfl⟩⟩
      · exact absurd hb throw_ok

/-! ## Expressions -/

theorem nameExpr_ok {sp : Span} {id : Ident} {r : Typed} (h : nameExpr sp id s = .ok r s') :
    s = s' ∧ r.1 = .name sp id ∧ ((∃ v, s.place.val? id.name = some v ∧ r.2 = v.type) ∨
      s.place.val? id.name = none ∧ (∃ n, s.place.param? id.name = some ⟨n, .const⟩) ∧ r.2 = .int) := by
  unfold nameExpr at h
  simp only [bind_ok, get_ok] at h
  obtain ⟨_, _, ⟨rfl, rfl⟩, h⟩ := h
  cases hv : s.place.val? id.name with
  | some v =>
    simp only [hv, pure_ok] at h
    obtain ⟨rfl, rfl⟩ := h
    exact ⟨rfl, rfl, .inl ⟨v, rfl, rfl⟩⟩
  | none =>
    rcases hp : s.place.param? id.name with _ | ⟨n, b | _⟩
    · simp only [hv, hp] at h
      split at h <;> exact absurd h fail_ok
    · simp only [hv, hp] at h
      exact absurd h fail_ok
    · simp only [hv, hp, pure_ok] at h
      obtain ⟨rfl, rfl⟩ := h
      exact ⟨rfl, rfl, .inr ⟨rfl, ⟨n, rfl⟩, rfl⟩⟩

theorem unaryType_ok {sp : Span} {op : UnaryOp} {t r : Ty} (h : unaryType sp op t s = .ok r s') :
    s = s' ∧ (t.isUnknown = true ∧ r = t ∨
      t.isUnknown = false ∧ (op = .neg ∧ t = .int ∧ r = .int ∨ op = .not ∧ t = .bool ∧ r = .bool)) := by
  unfold unaryType at h
  split at h
  · rename_i hu
    simp only [pure_ok] at h
    exact ⟨h.2, .inl ⟨hu, h.1.symm⟩⟩
  · rename_i hu
    split at h
    · simp only [pure_ok] at h
      exact ⟨h.2, .inr ⟨by simpa using hu, .inl ⟨rfl, rfl, h.1.symm⟩⟩⟩
    · simp only [pure_ok] at h
      exact ⟨h.2, .inr ⟨by simpa using hu, .inr ⟨rfl, rfl, h.1.symm⟩⟩⟩
    · exact absurd h fail_ok
    · exact absurd h fail_ok

theorem binaryType_ok {sp : Span} {op : BinOp} {l r t : Ty} (h : binaryType sp op l r s = .ok t s') :
    s = s' ∧ ((l.isUnknown = true ∨ r.isUnknown = true) ∧ t = unknownBinaryType op ∨
      l.isUnknown = false ∧ r.isUnknown = false ∧ knownBinaryType? op l r = some t) := by
  unfold binaryType at h
  split at h
  · rename_i hu
    simp only [pure_ok] at h
    exact ⟨h.2, .inl ⟨by simpa using hu, h.1.symm⟩⟩
  · rename_i hu
    simp only [Bool.or_eq_true, not_or, Bool.not_eq_true] at hu
    cases hk : knownBinaryType? op l r with
    | some t' =>
      simp only [hk, pure_ok] at h
      obtain ⟨rfl, rfl⟩ := h
      exact ⟨rfl, .inr ⟨hu.1, hu.2, rfl⟩⟩
    | none =>
      simp only [hk] at h
      exact absurd h fail_ok

/-- **A member is read** off a record that is known and has it in the open. -/
theorem memberType_ok {base : Expr} {type t : Ty} {m : Ident} (h : memberType base type m s = .ok t s') :
    s = s' ∧ (type.isUnknown = true ∧ t = type ∨ type.isUnknown = false ∧ ∃ n r f, type = .record n ∧
      s.records.find? n = some r ∧ r.field? m.name = some f ∧ f.hidden = false ∧ t = f.type) := by
  unfold memberType at h
  split at h
  · rename_i hu
    simp only [pure_ok] at h
    exact ⟨h.2, .inl ⟨hu, h.1.symm⟩⟩
  · rename_i hu
    split at h
    · rename_i n
      simp only [bind_ok, get_ok] at h
      obtain ⟨_, _, ⟨rfl, rfl⟩, h⟩ := h
      cases hr : s.record? (.record n) with
      | none =>
        simp only [hr] at h
        exact absurd h fail_ok
      | some r =>
        cases hf : r.field? m.name with
        | none =>
          simp only [hr, hf] at h
          exact absurd h fail_ok
        | some f =>
          simp only [hr, hf] at h
          split at h
          · exact absurd h fail_ok
          · rename_i hh
            simp only [pure_ok] at h
            exact ⟨h.2, .inr ⟨by simpa using hu, n, r, f, rfl, hr, hf, by simpa using hh, h.1.symm⟩⟩
    · exact absurd h fail_ok

theorem memberAccess_ok {base : Expr} {type : Ty} {m : Ident} {r : Typed}
    (h : memberAccess base type m s = .ok r s') :
    ∃ t, memberType base type m s = .ok t s' ∧ r = (.member (base.span.join m.span) base m, t) := by
  simp only [memberAccess, bind_ok, pure_ok] at h
  obtain ⟨t, _, ht, rfl, rfl⟩ := h
  exact ⟨t, ht, rfl⟩

theorem checkBounds_ok {i : Expr} {sp : Span} {len : Option Nat} {u : Unit} (h : checkBounds i sp len s = .ok u s') :
    s = s' ∧ ∀ n k, len = some n → Const.eval s.place.constant? i = .ok (.int k) → 0 ≤ k ∧ k < n := by
  unfold checkBounds at h
  simp only [bind_ok, place_ok] at h
  obtain ⟨_, _, ⟨rfl, rfl⟩, h⟩ := h
  cases len with
  | none =>
    simp only [pure_ok] at h
    exact ⟨h.2, fun n k hn => by cases hn⟩
  | some n =>
    rcases hc : Const.eval s.place.constant? i with d | ⟨k | b | _⟩
    · simp only [hc, pure_ok] at h
      exact ⟨h.2, fun n k _ hk => by cases hk⟩
    · simp only [hc] at h
      split at h
      · exact absurd h fail_ok
      · rename_i hb
        simp only [pure_ok] at h
        refine ⟨h.2, fun n' k' hn hk => ?_⟩
        simp only [Option.some.injEq, Except.ok.injEq, Const.int.injEq] at hn hk
        omega
    · simp only [hc, pure_ok] at h
      exact ⟨h.2, fun n k _ hk => by cases hk⟩
    · simp only [hc, pure_ok] at h
      exact ⟨h.2, fun n k _ hk => by cases hk⟩

theorem elementAccess_ok {sp bs is : Span} {b i r : Typed} (h : elementAccess sp bs is b i s = .ok r s') :
    s = s' ∧ (i.2 = .int ∨ i.2.isUnknown = true) ∧ r.1 = .index sp b.1 i.1 ∧
      ((∃ elem len, b.2 = .array elem len ∧ r.2 = elem ∧
          ∀ n k, len = some n → Const.eval s.place.constant? i.1 = .ok (.int k) → 0 ≤ k ∧ k < n) ∨
        (∀ elem len, b.2 ≠ .array elem len) ∧ b.2.isUnknown = true ∧ r.2 = .dependent) := by
  obtain ⟨b, bt⟩ := b
  obtain ⟨i, it⟩ := i
  unfold elementAccess at h
  simp only at h
  split at h
  · simp only [bind_ok] at h
    obtain ⟨_, _, h, -⟩ := h
    exact absurd h fail_ok
  · rename_i hi
    simp only [ne_eq, Bool.not_eq_true', not_and, Bool.not_eq_false] at hi
    have hi' : it = .int ∨ it.isUnknown = true := by
      by_cases he : it = .int
      · exact .inl he
      · exact .inr (hi he)
    split at h
    · rename_i elem len
      simp only [bind_ok, pure_ok] at h
      obtain ⟨_, _, hb, rfl, rfl⟩ := h
      obtain ⟨rfl, hin⟩ := checkBounds_ok hb
      exact ⟨rfl, hi', rfl, .inl ⟨elem, len, rfl, rfl, hin⟩⟩
    · rename_i hne
      split at h
      · rename_i hu
        simp only [pure_ok] at h
        obtain ⟨rfl, rfl⟩ := h
        exact ⟨rfl, hi', rfl, .inr ⟨fun elem len he => hne elem len he, hu, rfl⟩⟩
      · exact absurd h fail_ok

theorem elementType_ok {sofar : Option Ty} {t r : Ty} {sp : Span} (h : elementType sofar t sp s = .ok r s') :
    s = s' ∧ (sofar = none ∧ r = t ∨ ∃ first, sofar = some first ∧ (first.isUnknown = true ∧ r = t ∨
      first.isUnknown = false ∧ (t.isUnknown = true ∨ first = t) ∧ r = first)) := by
  unfold elementType at h
  cases sofar with
  | none =>
    simp only [pure_ok] at h
    exact ⟨h.2, .inl ⟨rfl, h.1.symm⟩⟩
  | some first =>
    simp only at h
    split at h
    · rename_i hu
      simp only [pure_ok] at h
      exact ⟨h.2, .inr ⟨first, rfl, .inl ⟨hu, h.1.symm⟩⟩⟩
    · rename_i hu
      split at h
      · rename_i ht
        simp only [pure_ok] at h
        exact ⟨h.2, .inr ⟨first, rfl, .inr ⟨by simpa using hu, by simpa using ht, h.1.symm⟩⟩⟩
      · exact absurd h fail_ok

/-! ## Calls -/

theorem checkBuiltinArity_ok {sp : Span} {callee : Ident} {n : Nat} {u : Unit}
    (h : checkBuiltinArity sp callee n s = .ok u s') : s = s' ∧ (isBuiltin callee.name = true → n = 1) := by
  unfold checkBuiltinArity at h
  split at h
  · exact absurd h fail_ok
  · rename_i hn
    simp only [pure_ok] at h
    exact ⟨h.2, fun hb => by simpa [hb] using hn⟩

theorem builtinType_ok {name : String} {t r : Ty} {sp : Span} (h : builtinType name t sp s = .ok r s') :
    s = s' ∧ (name = "len" ∧ ((∃ e l, t = .array e l) ∨ t.isUnknown = true) ∧ r = .int ∨
      name ≠ "len" ∧ r = .unit) := by
  unfold builtinType at h
  split at h
  · rename_i hn
    split at h
    · simp only [pure_ok] at h
      exact ⟨h.2, .inl ⟨hn, .inl ⟨_, _, rfl⟩, h.1.symm⟩⟩
    · split at h
      · rename_i hu
        simp only [pure_ok] at h
        exact ⟨h.2, .inl ⟨hn, .inr hu, h.1.symm⟩⟩
      · exact absurd h fail_ok
  · rename_i hn
    simp only [pure_ok] at h
    exact ⟨h.2, .inr ⟨hn, h.1.symm⟩⟩

theorem builtinCall_ok {sp : Span} {callee : Ident} {args : List Expr} {types : List Ty} {places : List Span}
    {r : Typed} (h : builtinCall sp callee args types places s = .ok r s') :
    s = s' ∧ ∃ t, types = [t] ∧ r.1 = .call sp callee [] args ∧
      (callee.name = "len" ∧ ((∃ e l, t = .array e l) ∨ t.isUnknown = true) ∧ r.2 = .int ∨
        callee.name ≠ "len" ∧ r.2 = .unit) := by
  unfold builtinCall at h
  split at h
  · rename_i t place
    simp only [bind_ok, pure_ok] at h
    obtain ⟨t', _, ht, rfl, rfl⟩ := h
    obtain ⟨rfl, hty⟩ := builtinType_ok ht
    exact ⟨rfl, t, rfl, rfl, hty⟩
  · exact absurd h fail_ok

theorem checkParams_ok : ∀ {ps : List CellParam} {places : List Span} {types : List Ty} {s s' : Checker} {u : Unit},
    checkParams ps places types s = .ok u s' → s = s' ∧ (ps.length = places.length → types.length = places.length →
      List.Forall₂ (fun p t => Assignable p.type t) ps types)
  | [], [], [], s, s', u, h => by
    simp only [checkParams, pure_ok] at h
    exact ⟨h.2, fun _ _ => .nil⟩
  | p :: ps, q :: places, t :: types, s, s', u, h => by
    simp only [checkParams, bind_ok] at h
    obtain ⟨_, _, ha, h⟩ := h
    obtain ⟨rfl, hfit⟩ := checkAssignable_ok ha
    obtain ⟨rfl, hrest⟩ := checkParams_ok h
    exact ⟨rfl, fun h1 h2 => .cons hfit (hrest (by simpa using h1) (by simpa using h2))⟩
  | [], _ :: _, _, s, s', u, h | _ :: _, [], _, s, s', u, h => by
    simp only [checkParams, pure_ok] at h
    exact ⟨h.2, fun h1 _ => absurd h1 (by simp)⟩
  | [], [], _ :: _, s, s', u, h | _ :: _, _ :: _, [], s, s', u, h => by
    simp only [checkParams, pure_ok] at h
    exact ⟨h.2, fun _ h2 => absurd h2 (by simp)⟩

theorem checkCall_ok {name : String} {sig : CellSig} {places : List Span} {types : List Ty} {sp : Span} {u : Unit}
    (h : checkCall name sig places types sp s = .ok u s') :
    s = s' ∧ places.length = sig.params.length ∧
      (types.length = places.length → List.Forall₂ (fun p t => Assignable p.type t) sig.params types) := by
  unfold checkCall at h
  split at h
  · exact absurd h fail_ok
  · rename_i hn
    have hlen : places.length = sig.params.length := by simpa using hn
    obtain ⟨rfl, hp⟩ := checkParams_ok h
    exact ⟨rfl, hlen, hp hlen.symm⟩

/-- **A call of a cell**: of one that can be called as it is, of an instance that is made for it, or of a generic cell
whose arguments are not known yet. -/
theorem cellCall_ok {sp : Span} {callee : Ident} {generic : List TypeArg} {args : List Expr} {types : List Ty}
    {places : List Span} {r : Typed} (h : cellCall deeper sp callee generic args types places s = .ok r s') :
    (∃ sig, s.cells.find? callee.name = some sig ∧ generic = [] ∧ checkCall callee.name sig places types sp s = .ok () s' ∧
        r = (.call sp callee [] args, sig.ret)) ∨
      s.cells.find? callee.name = none ∧ ∃ g given t, s.generics.find? callee.name = some g ∧
        templateArgs deeper callee.name g.params generic s = .ok given t ∧
        ((∃ known full name sig u, given = some known ∧ types.any Ty.isUnknown = false ∧
            deduce t callee known types = .ok full ∧ instantiateCell deeper callee full t = .ok (name, sig) u ∧
            checkCall name sig places types sp u = .ok () s' ∧ r = (.call sp ⟨name, callee.span⟩ [] args, sig.ret)) ∨
          (given = none ∨ types.any Ty.isUnknown = true) ∧ t = s' ∧ r = (.call sp callee generic args, .dependent)) := by
  unfold cellCall at h
  simp only [bind_ok, get_ok] at h
  obtain ⟨_, _, ⟨rfl, rfl⟩, h⟩ := h
  cases hc : s.cells.find? callee.name with
  | some sig =>
    simp only [hc] at h
    split at h
    · simp only [bind_ok] at h
      obtain ⟨_, _, h, -⟩ := h
      exact absurd h fail_ok
    · rename_i hg
      simp only [bind_ok, pure_ok] at h
      obtain ⟨_, _, hcall, rfl, rfl⟩ := h
      exact .inl ⟨sig, rfl, by simpa using hg, hcall, rfl⟩
  | none =>
    simp only [hc, bind_ok, get_ok] at h
    obtain ⟨_, _, ⟨rfl, rfl⟩, h⟩ := h
    cases hg : s.generics.find? callee.name with
    | none =>
      simp only [hg] at h
      exact absurd h fail_ok
    | some g =>
      simp only [hg, bind_ok] at h
      obtain ⟨given, t, ht, h⟩ := h
      refine .inr ⟨rfl, g, given, t, rfl, ht, ?_⟩
      cases given with
      | none =>
        simp only [pure_ok] at h
        obtain ⟨rfl, rfl⟩ := h
        exact .inr ⟨.inl rfl, rfl, rfl⟩
      | some known =>
        cases hu : types.any Ty.isUnknown with
        | true =>
          simp only [hu, pure_ok] at h
          obtain ⟨rfl, rfl⟩ := h
          exact .inr ⟨.inr rfl, rfl, rfl⟩
        | false =>
          simp only [hu, bind_ok, get_ok, ofExcept_ok, pure_ok] at h
          obtain ⟨_, _, ⟨rfl, rfl⟩, full, _, ⟨hd, rfl⟩, ⟨name, sig⟩, u, hi, _, _, hcall, rfl, rfl⟩ := h
          exact .inl ⟨known, full, name, sig, u, rfl, rfl, hd, hi, hcall, rfl⟩

/-! ## Record literals -/

theorem literalRecord_ok {id : Ident} {r : Ty × Option RecordInfo} (h : literalRecord deeper id s = .ok r s') :
    ∃ t, typeRef deeper (.named id.span id []) s = .ok t s' ∧
      (t.isUnknown = true ∧ r = (t, none) ∨
        t.isUnknown = false ∧ ∃ n info, t = .record n ∧ s'.records.find? n = some info ∧ r = (t, some info)) := by
  simp only [literalRecord, bind_ok] at h
  obtain ⟨t, u, ht, h⟩ := h
  split at h
  · rename_i hu
    simp only [pure_ok] at h
    obtain ⟨rfl, rfl⟩ := h
    exact ⟨t, ht, .inl ⟨hu, rfl⟩⟩
  · rename_i hu
    simp only [bind_ok, get_ok] at h
    obtain ⟨_, _, ⟨rfl, rfl⟩, h⟩ := h
    cases hr : u.record? t with
    | none =>
      simp only [hr] at h
      exact absurd h fail_ok
    | some info =>
      simp only [hr, pure_ok] at h
      obtain ⟨rfl, rfl⟩ := h
      refine ⟨t, ht, .inr ⟨by simpa using hu, ?_⟩⟩
      cases t with
      | record n => exact ⟨n, info, rfl, hr, rfl⟩
      | _ => simp [Checker.record?] at hr

theorem literalField_ok {t : Ty} {record : Option RecordInfo} {seen : List String} {id : Ident}
    {r : Option FieldInfo} (h : literalField t record seen id s = .ok r s') :
    s = s' ∧ (record = none ∧ r = none ∨ ∃ info f, record = some info ∧ info.field? id.name = some f ∧
      id.name ∉ seen ∧ r = some f) := by
  unfold literalField at h
  cases record with
  | none =>
    simp only [pure_ok] at h
    exact ⟨h.2, .inl ⟨rfl, h.1.symm⟩⟩
  | some info =>
    cases hf : info.field? id.name with
    | none =>
      simp only [hf] at h
      exact absurd h fail_ok
    | some f =>
      simp only [hf] at h
      split at h
      · exact absurd h fail_ok
      · rename_i hs
        simp only [pure_ok] at h
        exact ⟨h.2, .inr ⟨info, f, rfl, hf, by simpa using hs, h.1.symm⟩⟩

theorem checkComplete_ok {sp : Span} {t : Ty} {record : Option RecordInfo} {seen : List String} {u : Unit}
    (h : checkComplete sp t record seen s = .ok u s') :
    s = s' ∧ ∀ info, record = some info → ∀ f ∈ info.fields, f.name ∈ seen := by
  unfold checkComplete at h
  cases hm : (record.bind fun r => r.fields.find? fun f => !seen.contains f.name) with
  | some missing =>
    simp only [hm] at h
    exact absurd h fail_ok
  | none =>
    simp only [hm, pure_ok] at h
    refine ⟨h.2, ?_⟩
    rintro info rfl f hf
    simpa using List.find?_eq_none.1 hm f hf

/-! ## Expressions of several parts -/

theorem expr_array_ok {sp : Span} {items : List Expr} {r : Typed} (h : expr deeper (.array sp items) s = .ok r s') :
    items ≠ [] ∧ ∃ es elem, elements deeper none items s = .ok (es, elem) s' ∧
      r = (.array sp es, .array elem (some es.length)) := by
  simp only [expr] at h
  split at h
  · simp only [bind_ok] at h
    obtain ⟨_, _, h, -⟩ := h
    exact absurd h fail_ok
  · rename_i hne
    simp only [bind_ok, pure_ok] at h
    obtain ⟨⟨es, elem⟩, _, he, rfl, rfl⟩ := h
    exact ⟨by simpa using hne, es, elem, he, rfl⟩

theorem expr_record_ok {sp : Span} {type : Ident} {fs : List (Ident × Expr)} {r : Typed}
    (h : expr deeper (.record sp type fs) s = .ok r s') :
    ∃ t record u es, literalRecord deeper type s = .ok (t, record) u ∧ fields deeper t record [] fs u = .ok es s' ∧
      (∀ info, record = some info → ∀ f ∈ info.fields, f.name ∈ fs.map (·.1.name)) ∧ r = (.record sp type es, t) := by
  simp only [expr, bind_ok, pure_ok] at h
  obtain ⟨⟨t, record⟩, u, hl, es, v, he, _, _, hc, rfl, rfl⟩ := h
  obtain ⟨rfl, hall⟩ := checkComplete_ok hc
  exact ⟨t, record, u, es, hl, he, hall, rfl⟩

theorem expr_call_ok {sp : Span} {callee : Ident} {generic : List TypeArg} {args : List Expr} {r : Typed}
    (h : expr deeper (.call sp callee generic args) s = .ok r s') :
    ∃ es ts u, (isBuiltin callee.name = true → args.length = 1) ∧ exprs deeper args s = .ok (es, ts) u ∧
      (isBuiltin callee.name = true ∧ builtinCall sp callee es ts (args.map Expr.span) u = .ok r s' ∨
        isBuiltin callee.name = false ∧
          cellCall deeper sp callee generic es ts (args.map Expr.span) u = .ok r s') := by
  simp only [expr, bind_ok] at h
  obtain ⟨_, _, harity, ⟨es, ts⟩, u, he, h⟩ := h
  obtain ⟨rfl, hone⟩ := checkBuiltinArity_ok harity
  refine ⟨es, ts, u, hone, he, ?_⟩
  simp only at h
  split at h
  · rename_i hb
    exact .inl ⟨hb, h⟩
  · rename_i hb
    exact .inr ⟨by simpa using hb, h⟩

/-- Only a list that is written out can be selected from. -/
theorem expr_listSelect_list {sp : Span} {list index : Expr} {r : Typed}
    (h : expr deeper (.listSelect sp list index) s = .ok r s') : ∃ lsp items, list = .list lsp items := by
  cases list with
  | list lsp items => exact ⟨lsp, items, rfl⟩
  | _ =>
    simp only [expr] at h
    exact absurd h fail_ok

theorem expr_listSelect_ok {sp lsp : Span} {items : List Expr} {index : Expr} {r : Typed}
    (h : expr deeper (.listSelect sp (.list lsp items) index) s = .ok r s') :
    (∃ i, Const.evalIndex s.place.constant? index = .ok (some i) ∧
        nth deeper index.span items.length i items i s = .ok r s') ∨
      Const.evalIndex s.place.constant? index = .ok none ∧ ∃ es ts, exprs deeper items s = .ok (es, ts) s' ∧
        r = (.listSelect sp (.list lsp es) index, .dependent) := by
  simp only [expr, bind_ok, constIndex_ok] at h
  obtain ⟨i, _, ⟨hi, rfl⟩, h⟩ := h
  cases i with
  | some i => exact .inl ⟨i, hi, h⟩
  | none =>
    simp only [bind_ok, pure_ok] at h
    obtain ⟨⟨es, ts⟩, _, he, rfl, rfl⟩ := h
    exact .inr ⟨hi, es, ts, he, rfl⟩

theorem expr_memberSelect_ok {sp : Span} {base index : Expr} {ms : List Ident} {r : Typed}
    (h : expr deeper (.memberSelect sp base ms index) s = .ok r s') :
    ∃ b t u, expr deeper base s = .ok (b, t) u ∧
      ((∃ i m, Const.evalIndex u.place.constant? index = .ok (some i) ∧ ms[i]? = some m ∧
          memberAccess b t m u = .ok r s') ∨
        Const.evalIndex u.place.constant? index = .ok none ∧ u = s' ∧ r = (.memberSelect sp b ms index, .dependent)) := by
  simp only [expr, bind_ok, constIndex_ok] at h
  obtain ⟨⟨b, t⟩, u, hb, i, _, ⟨hi, rfl⟩, h⟩ := h
  refine ⟨b, t, u, hb, ?_⟩
  cases i with
  | some i =>
    cases hm : ms[i]? with
    | some m =>
      simp only [hm] at h
      exact .inl ⟨i, m, hi, hm, h⟩
    | none =>
      simp only [hm] at h
      exact absurd h fail_ok
  | none =>
    simp only [pure_ok] at h
    obtain ⟨rfl, rfl⟩ := h
    exact .inr ⟨hi, rfl, rfl⟩

theorem fields_cons_ok {type : Ty} {record : Option RecordInfo} {seen : List String} {f : Ident} {e : Expr}
    {fs r : List (Ident × Expr)} (h : fields deeper type record seen ((f, e) :: fs) s = .ok r s') :
    ∃ info e' t u rest, literalField type record seen f s = .ok info s ∧ expr deeper e s = .ok (e', t) u ∧
      (∀ i, info = some i → Assignable i.type t) ∧ fields deeper type record (f.name :: seen) fs u = .ok rest s' ∧
      r = (f, e') :: rest := by
  simp only [fields, bind_ok] at h
  obtain ⟨info, _, hl, ⟨e', t⟩, u, he, h⟩ := h
  have hsame := (literalField_ok hl).1
  subst hsame
  cases info with
  | none =>
    simp only [bind_ok, pure_ok] at h
    obtain ⟨rest, _, hfs, rfl, rfl⟩ := h
    exact ⟨none, e', t, u, rest, hl, he, fun _ hn => absurd hn (by simp), hfs, rfl⟩
  | some i =>
    simp only [bind_ok, pure_ok] at h
    obtain ⟨_, _, ha, rest, _, hfs, rfl, rfl⟩ := h
    obtain ⟨rfl, hfit⟩ := checkAssignable_ok ha
    refine ⟨some i, e', t, u, rest, hl, he, fun j hj => ?_, hfs, rfl⟩
    cases hj
    exact hfit

/-! ## Declared values -/

theorem declared_ok {t : Option TypeRef} {r : Option Ty} (h : t.mapM (typeRef deeper) s = .ok r s') :
    t = none ∧ r = none ∧ s = s' ∨ ∃ w ty, t = some w ∧ r = some ty ∧ typeRef deeper w s = .ok ty s' := by
  cases t with
  | none =>
    simp only [Option.mapM_none, pure_ok] at h
    exact .inl ⟨rfl, h.1.symm, h.2⟩
  | some w =>
    simp only [Option.mapM_some, map_ok] at h
    obtain ⟨ty, hty, rfl⟩ := h
    exact .inr ⟨w, ty, rfl, rfl, hty⟩

theorem initialValue_ok {declared : Option Ty} {e : Expr} {r : Typed} (h : initialValue deeper declared e s = .ok r s') :
    (∃ sp elem, e = .array sp [] ∧ declared = some (.array elem (some 0)) ∧ r = (.array sp [], .array elem (some 0)) ∧
        s = s') ∨
      expr deeper e s = .ok r s' := by
  unfold initialValue at h
  split at h
  · simp only [pure_ok] at h
    exact .inl ⟨_, _, rfl, rfl, h.1.symm, h.2⟩
  · exact .inr h

theorem declaredType_ok {declared : Option Ty} {actual t : Ty} {sp : Span}
    (h : declaredType declared actual sp s = .ok t s') :
    s = s' ∧ t = declared.getD actual ∧ ∀ expected, declared = some expected → Assignable expected actual := by
  unfold declaredType at h
  cases declared with
  | none =>
    simp only [pure_ok] at h
    exact ⟨h.2, h.1.symm, fun _ hn => absurd hn (by simp)⟩
  | some expected =>
    simp only [bind_ok, pure_ok] at h
    obtain ⟨_, _, ha, rfl, rfl⟩ := h
    obtain ⟨rfl, hfit⟩ := checkAssignable_ok ha
    refine ⟨rfl, rfl, fun other hother => ?_⟩
    cases hother
    exact hfit

/-- **The declared value** has the type that is written, or else the type of its expression. -/
theorem valDecl_ok {d r : ValDecl} (h : valDecl deeper d s = .ok r s') :
    ∃ declared t e type u, d.type.mapM (typeRef deeper) s = .ok declared t ∧
      initialValue deeper declared d.expr t = .ok (e, type) u ∧
      (∀ expected, declared = some expected → Assignable expected type) ∧
      defineVal d.name (declared.getD type) d.mutable u = .ok () s' ∧ r = { d with expr := e } := by
  simp only [valDecl, bind_ok, pure_ok] at h
  obtain ⟨declared, t, hd, ⟨e, type⟩, u, he, _, _, ht, _, _, hv, rfl, rfl⟩ := h
  obtain ⟨rfl, rfl, hfit⟩ := declaredType_ok ht
  exact ⟨declared, t, e, type, u, hd, he, hfit, hv, rfl⟩

/-! ## Expansions -/

/-- The state in which the init and the range of an expansion are checked. -/
def opened (s : Checker) : Checker := s.onPlace Place.pushScope

theorem beginExpansion_ok {x : Expansion} {p : Pending} (h : beginExpansion deeper x s = .ok p s') :
    ∃ init t range type, initStmt deeper x.init (opened s) = .ok init t ∧
      rangeExpr deeper x.range t = .ok (range, type) s' ∧
      p = ⟨x.span, x.keyword, init, x.var, range, type, .make s.place x.depth x.keyword, s.place.mark⟩ := by
  simp only [beginExpansion, bind_ok, place_ok, onPlace_ok, tryCatch_ok, pure_ok] at h
  obtain ⟨_, _, ⟨rfl, rfl⟩, _, _, rfl, h⟩ := h
  rcases h with ⟨init, t, hi, ⟨range, type⟩, _, hr, rfl, rfl⟩ | ⟨_, _, -, _, _, -, h⟩
  · exact ⟨init, t, range, type, hi, hr, rfl⟩
  · exact absurd h throw_ok

/-- The state in which the statements of a copy are checked. -/
def copying (fr : Frames) (s : Checker) : Checker :=
  (({ s with frames := fr } : Checker).onPlace Place.enterLocal).onPlace Place.enterLoop

/-- The state after them. -/
def copied (t : Checker) : Checker :=
  { t.onPlace Place.exitLocal with frames := t.frames.pop.2 }

theorem instantiateBlock_ok {unit r : Block} {ls : ArgLevels} {f : Frame}
    (h : instantiateBlock deeper unit ls f s = .ok r s') :
    ∃ fr b ss t, s.frames.push f = .ok fr ∧ Subst.block ls unit = .ok b ∧
      b.stmts.mapM deeper.stmt (copying fr s) = .ok ss t ∧ r = { b with stmts := ss } ∧ s' = copied t := by
  simp only [instantiateBlock, within_ok, bind_ok, onPlace_ok, always_ok, ofExcept_ok, pure_ok] at h
  obtain ⟨fr, _, hfr, ⟨_, _, rfl, _, _, rfl, t, ⟨b, _, ⟨hb, rfl⟩, ss, _, hss, rfl, rfl⟩, rfl⟩, rfl⟩ := h
  exact ⟨fr, b, ss, _, hfr, hb, hss, rfl, rfl⟩

/-- The arguments that fill in the index of one copy. -/
def copyArgs (index : IndexParam) (i : Nat) : ArgLevels :=
  (ArgLevels.retaining index.depth).bind [index.name] [.value i]

/-- **One copy** is the template with its index filled in, checked again. -/
theorem copyAt_ok {template : Block} {index : IndexParam} {keyword : Span} {i : Nat} {c : Copy}
    (h : copyAt deeper template index keyword i s = .ok c s') :
    ∃ body t news, instantiateBlock deeper template (copyArgs index i) ⟨.copy index.depth i, keyword⟩ s = .ok body t ∧
      c = ⟨i, body⟩ ∧ s' = { t with events := news ++ t.events } ∧ ∀ e ∈ news, e.kind ≠ .cell := by
  simp only [copyAt, bind_ok, tryCatch_ok] at h
  obtain ⟨body, t, hb, h⟩ := h
  rcases hb with hb | ⟨_, _, -, hb⟩
  · generalize body.stmts.head? = first at h
    split at h
    · rename_i v
      simp only [bind_ok, modify_ok, pure_ok] at h
      obtain ⟨_, _, rfl, rfl, rfl⟩ := h
      exact ⟨body, t, [⟨.val, v.name.name, none, v.span, some i⟩], hb, rfl, rfl, by simp⟩
    · simp only [pure_ok] at h
      obtain ⟨rfl, rfl⟩ := h
      exact ⟨body, t, [], hb, rfl, rfl, by simp⟩
  · exact absurd hb throw_ok

theorem checkSize_ok {sp : Span} {count : Option Nat} {u : Unit} (h : checkSize sp count s = .ok u s') : s = s' := by
  simp only [checkSize, bind_ok, get_ok] at h
  obtain ⟨_, _, ⟨rfl, rfl⟩, h⟩ := h
  cases count with
  | none =>
    simp only [pure_ok] at h
    exact h.2
  | some n =>
    simp only at h
    split at h
    · exact absurd h fail_ok
    · simp only [pure_ok] at h
      exact h.2

theorem bindRange_ok {p : Pending} {walk : Walk} {u : Unit} (h : bindRange p walk s = .ok u s') :
    walk.needsBinding = true ∧ defineVal (rangeBinding p).name p.rangeType false s = .ok () s' ∨
      walk.needsBinding = false ∧ s = s' := by
  unfold bindRange at h
  split at h
  · rename_i hn
    exact .inl ⟨hn, h⟩
  · rename_i hn
    simp only [pure_ok] at h
    exact .inr ⟨by simpa using hn, h.2⟩

/-- The state in which the body is checked as a template. -/
def symbolic (index : IndexParam) (s : Checker) : Checker :=
  s.onPlace fun q => ((q.pushScope).pushTemplate index.level).enterLoop

/-- **The template** is the declaration of the iteration variable, and the body after it. -/
theorem templateOf_ok {p : Pending} {walk : Walk} {body : CheckM (List Stmt)} {r : ValDecl × List Stmt}
    (h : templateOf deeper p walk body s = .ok r s') :
    ∃ t u, valDecl deeper (loopDecl p walk) (symbolic p.index s) = .ok r.1 t ∧ body t = .ok r.2 u ∧
      s' = u.onPlace (·.restore s.place.mark) := by
  simp only [templateOf, inScope_ok, bind_ok, onPlace_ok, pure_ok] at h
  obtain ⟨u, ⟨_, _, rfl, var, t, hv, ss, _, hb, rfl, rfl⟩, rfl⟩ := h
  exact ⟨t, _, hv, hb, rfl⟩

theorem unrolling_ok {p : Pending} {walk : Walk} {template : Block} {r : Unrolling}
    (h : unrolling deeper p walk template s = .ok r s') :
    walk.count? = none ∧ r = .deferred ∧ s = s' ∨ walk.count? = some 0 ∧ r = .empty ∧ s = s' ∨
      ∃ n copies, walk.count? = some (n + 1) ∧ r = .unrolled (bindingFor p walk) copies ∧
        copiesFrom (copyAt deeper template p.index p.keyword) (n + 1) 0 s = .ok copies s' := by
  unfold unrolling at h
  rcases hc : walk.count? with _ | _ | n
  · simp only [hc, pure_ok] at h
    exact .inl ⟨rfl, h.1.symm, h.2⟩
  · simp only [hc, pure_ok] at h
    exact .inr (.inl ⟨rfl, h.1.symm, h.2⟩)
  · simp only [hc, bind_ok, pure_ok] at h
    obtain ⟨copies, _, hcs, rfl, rfl⟩ := h
    exact .inr (.inr ⟨n, copies, rfl, rfl, hcs⟩)

/-- **An expansion** is walked by the type of its range; its body is checked as a template, and then copied. -/
theorem finishExpansion_ok {p : Pending} {sp : Span} {body : CheckM (List Stmt)} {x : Expansion}
    (h : finishExpansion deeper p sp body s = .ok x s') :
    ∃ walk t var ss u state v, walkOf s p.range.span p.rangeType = .ok walk ∧ bindRange p walk s = .ok () t ∧
      templateOf deeper p walk body t = .ok (var, ss) u ∧
      unrolling deeper p walk ⟨sp, .val var :: ss⟩ u = .ok state v ∧
      x = ⟨p.span, p.keyword, p.init, p.var, p.range, ⟨sp, ss⟩, some p.index.depth, state⟩ ∧
      s' = v.onPlace (·.restore p.mark) := by
  simp only [finishExpansion, unroll, always_ok, bind_ok, get_ok, ofExcept_ok, pure_ok] at h
  obtain ⟨v, ⟨_, _, ⟨rfl, rfl⟩, walk, _, ⟨hwalk, rfl⟩, _, _, hsize, _, t, hb, ⟨var, ss⟩, u, ht, state, _, hu, rfl, rfl⟩,
    rfl⟩ := h
  obtain rfl := checkSize_ok hsize
  exact ⟨walk, t, var, ss, u, state, _, hwalk, hb, ht, hu, rfl, rfl⟩

/-! ## Statements -/

theorem condition_ok {what : Condition} {e r : Expr} (h : condition deeper what e s = .ok r s') :
    ∃ t, expr deeper e s = .ok (r, t) s' ∧ (t = .bool ∨ t.isUnknown = true) := by
  simp only [condition, bind_ok] at h
  obtain ⟨⟨r', t⟩, u, he, h⟩ := h
  simp only at h
  split at h
  · rename_i ht
    simp only [pure_ok] at h
    obtain ⟨rfl, rfl⟩ := h
    exact ⟨t, he, by simpa using ht⟩
  · exact absurd h fail_ok

theorem assignment_ok {sp : Span} {id : Ident} {e : Expr} {r : Stmt} (h : assignment deeper sp id e s = .ok r s') :
    ∃ v e' t, s.place.val? id.name = some v ∧ v.mutable = true ∧ expr deeper e s = .ok (e', t) s' ∧
      Assignable v.type t ∧ r = .assign sp id e' := by
  simp only [assignment, bind_ok, place_ok] at h
  obtain ⟨_, _, ⟨rfl, rfl⟩, h⟩ := h
  cases hv : s.place.val? id.name with
  | none =>
    simp only [hv] at h
    exact absurd h fail_ok
  | some v =>
    simp only [hv] at h
    split at h
    · simp only [bind_ok] at h
      obtain ⟨_, _, h, -⟩ := h
      exact absurd h fail_ok
    · rename_i hm
      simp only [bind_ok, pure_ok] at h
      obtain ⟨⟨e', t⟩, u, he, _, _, ha, rfl, rfl⟩ := h
      obtain ⟨rfl, hfit⟩ := checkAssignable_ok ha
      exact ⟨v, e', t, rfl, by simpa using hm, he, hfit, rfl⟩

theorem giveBack_ok {sp : Span} {e : Option Expr} {r : Stmt} (h : giveBack deeper sp e s = .ok r s') :
    (∃ e' e'' t, e = some e' ∧ expr deeper e' s = .ok (e'', t) s' ∧ Assignable (s.place.rets.headD .unit) t ∧
        r = .give sp (some e'')) ∨
      e = none ∧ Assignable (s.place.rets.headD .unit) .unit ∧ r = .give sp none ∧ s = s' := by
  simp only [giveBack, bind_ok, place_ok] at h
  obtain ⟨_, _, ⟨rfl, rfl⟩, h⟩ := h
  cases e with
  | some e' =>
    simp only [bind_ok, pure_ok] at h
    obtain ⟨⟨e'', t⟩, u, he, _, _, ha, rfl, rfl⟩ := h
    obtain ⟨rfl, hfit⟩ := checkAssignable_ok ha
    exact .inl ⟨e', e'', t, rfl, he, hfit, rfl⟩
  | none =>
    simp only at h
    split at h
    · rename_i hu
      simp only [pure_ok] at h
      obtain ⟨rfl, rfl⟩ := h
      refine .inr ⟨rfl, ?_, rfl, rfl⟩
      simp only [Bool.or_eq_true, decide_eq_true_eq] at hu
      rcases hu with hu | hu
      · exact .inr (.inr hu)
      · exact .inl hu
    · exact absurd h fail_ok

theorem assertion_ok {sp : Span} {e : Expr} {r : Stmt} (h : assertion deeper sp e s = .ok r s') :
    ∃ e', condition deeper .assertion e s = .ok e' s' ∧ r = .assert sp e' := by
  simp only [assertion, bind_ok, place_ok] at h
  obtain ⟨e', u, he, _, _, ⟨rfl, rfl⟩, h⟩ := h
  generalize Const.eval u.place.constant? e' = value at h
  split at h
  · exact absurd h fail_ok
  · simp only [pure_ok] at h
    obtain ⟨rfl, rfl⟩ := h
    exact ⟨e', he, rfl⟩

theorem jump_ok {what : String} {st r : Stmt} {sp : Span} (h : jump what st sp s = .ok r s') :
    s = s' ∧ s.place.loopDepth ≠ 0 ∧ r = st := by
  simp only [jump, bind_ok, place_ok] at h
  obtain ⟨_, _, ⟨rfl, rfl⟩, h⟩ := h
  split at h
  · exact absurd h fail_ok
  · rename_i hd
    simp only [pure_ok] at h
    exact ⟨h.2, hd, h.1.symm⟩

theorem blockWith_ok {sp : Span} {ss : CheckM (List Stmt)} {b : Block} (h : blockWith sp ss s = .ok b s') :
    ∃ r t, ss (opened s) = .ok r t ∧ b = ⟨sp, r⟩ ∧ s' = t.onPlace (·.restore s.place.mark) := by
  simp only [blockWith, inScope_ok, bind_ok, onPlace_ok, pure_ok] at h
  obtain ⟨_, ⟨_, _, rfl, r, t, hr, rfl, rfl⟩, rfl⟩ := h
  exact ⟨r, t, hr, rfl, rfl⟩

theorem loopBodyWith_ok {sp : Span} {ss : CheckM (List Stmt)} {b : Block} (h : loopBodyWith sp ss s = .ok b s') :
    ∃ t, blockWith sp ss (s.onPlace Place.enterLoop) = .ok b t ∧ s' = t.onPlace (·.restore s.place.mark) := by
  simp only [loopBodyWith, inScope_ok, bind_ok, onPlace_ok] at h
  obtain ⟨t, ⟨_, _, rfl, hb⟩, rfl⟩ := h
  exact ⟨t, hb, rfl⟩

end Check
end Unroll
