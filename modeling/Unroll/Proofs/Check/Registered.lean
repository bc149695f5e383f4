import Unroll.Proofs.Check.AtRest
/-!
# The cells that are registered

An instance is registered by its signature before its body is checked, so that the body can call it.  Where the check
fails it is forgotten; where it does not, the instance is there from then on, and nothing takes it away.  So whatever is
registered was declared or has a body, whatever has failed before.  That the cells such a body calls are registered too
holds of a program that passes alone; an instance that was made while the check of another one failed keeps its calls of
that one, which has been forgotten since.
-/
namespace Unroll
namespace Check

open CheckM Outcome Checker

variable {s t : Checker} {p : Program}

/-- **What is registered on the way** is a cell of the program, or its body is among the instances; and these only become
more. -/
structure Registers (p : Program) (s t : Checker) : Prop where
  instances : s.instances <:+ t.instances
  embodied : ∀ {n}, s.cells.find? n = none → t.cells.find? n ≠ none →
    (∃ c, .cell c ∈ p ∧ c.name.name = n) ∨ ∃ c ∈ t.instances, c.name.name = n

theorem Registers.of_same (hi : t.instances = s.instances) (hc : t.cells = s.cells) : Registers p s t := by
  refine ⟨hi ▸ List.suffix_refl _, fun hn hn' => ?_⟩
  rw [hc] at hn'
  exact absurd hn hn'

instance : IsPreorder Checker (Registers p) where
  refl _ := .of_same rfl rfl
  trans s t u h h' := by
    refine ⟨h.instances.trans h'.instances, fun {n} hs hu => ?_⟩
    cases ht : t.cells.find? n with
    | none => exact h'.embodied ht hu
    | some sig =>
      obtain hdeclared | ⟨c, hc, hn⟩ := h.embodied hs (by simp [ht])
      · exact .inl hdeclared
      · exact .inr ⟨c, h'.instances.subset hc, hn⟩

theorem modifyGeneric_registers (name : String) (f : GenericInfo → GenericInfo) (s : Checker) :
    Registers p s (modifyGeneric name f s) := by
  unfold modifyGeneric
  split <;> exact .of_same rfl rfl

theorem Registers.tried {name : String} {g : GenericInfo} (h : Registers p (underWay name g s) t) :
    Registers p s (tried name s t) := by
  have hbefore : Registers p s (underWay name g s) := .of_same rfl rfl
  have hafter : Registers p t { t.onPlace (fun _ => s.place) with elaborating := t.elaborating.erase name } :=
    .of_same rfl rfl
  exact trans_of _ (trans_of _ hbefore h) (trans_of _ hafter (modifyGeneric_registers name _ _))

/-- While an instance is being checked it is registered, and nothing else is that was not. -/
theorem knowing_other {fr : Frames} {name n : String} {sig : CellSig} (hn : n ≠ name) (h : t.cells.find? n = none) :
    (knowing fr name sig t).cells.find? n = none :=
  (Table.find?_insert ..).trans ((if_neg hn).trans h)

instance : Lasting (Registers p) where
  onPlace _ _ := .of_same rfl rfl
  event _ := .of_same rfl rfl
  report _ _ := .of_same rfl rfl
  record _ _ _ := .of_same rfl rfl
  within _ h := ⟨h.instances, h.embodied⟩
  tried _ _ h := h.tried
  elaborated _ _ _ h := trans_of _ h.tried (modifyGeneric_registers ..)
  instantiated {n id g args fr concrete sig c s t v} _ hst _ _ hsub _ hc h := by
    refine trans_of (Registers p) hst ⟨h.instances.trans (List.suffix_cons c v.instances), fun {m} hm hm' => ?_⟩
    by_cases he : m = mangle id.name args
    · exact .inr ⟨c, List.mem_cons_self .., (instance_name hsub hc).trans he.symm⟩
    · obtain hdeclared | ⟨c', hc', hname⟩ := h.embodied (knowing_other he hm) hm'
      · exact .inl hdeclared
      · exact .inr ⟨c', List.mem_cons_of_mem c hc', hname⟩
  forgotten {name f fr s t v} _ hst _ h := by
    refine trans_of (Registers p) hst ?_
    obtain rfl | ⟨sig, -, h⟩ := h
    · refine ⟨List.suffix_refl _, fun {m} hm hm' => absurd ?_ hm'⟩
      refine (Table.find?_erase ..).trans ?_
      split
      · rfl
      · exact hm
    · refine ⟨h.instances, fun {m} hm hm' => ?_⟩
      have hfound : (v.cells.erase name).find? m ≠ none := hm'
      rw [Table.find?_erase] at hfound
      split at hfound
      · exact absurd rfl hfound
      · rename_i he
        exact h.embodied (knowing_other he hm) hfound

/-! ## Programs -/

theorem declare_registers {n : Nat} {x : Stmt} (hx : x ∈ p) : Always (Registers p) (declare (levels n) x) := by
  refine declare_always (fun _ _ _ => .of_same rfl rfl) (fun _ _ _ _ => .of_same rfl rfl)
    (fun _ _ _ _ _ _ _ => .of_same rfl rfl) fun c hc s sig _ => ⟨List.suffix_refl _, fun {m} hm hm' => ?_⟩
  have hfound : (s.cells.insert c.name.name sig).find? m ≠ none := hm'
  rw [Table.find?_insert] at hfound
  split at hfound
  · rename_i hname
    exact .inl ⟨c, hc ▸ hx, hname.symm⟩
  · exact absurd hm hfound

/-- **A check registers what its program declares and what it has made**, whether the program passes or fails.  The
instances go out with a program that passes, and stay where they are with one that fails. -/
theorem program_registers (p : Program) (s : Checker) : ∃ fin, Registers p s fin ∧
    ((∃ checked, Check.program p s = .ok checked { fin with instances := [] } ∧ checked.instances = fin.instances.reverse) ∨
      ∃ d, Check.program p s = .error d fin) := by
  obtain ⟨named, declared, t, rs, fin, hnamed, hdeclared, ht, hfin, hverdict⟩ := program_runs p s
  have hcleared : Registers p s { s with diagnostics := [] } := .of_same rfl rfl
  have hnames := (Always.forM p fun x _ => collecting_lasting (T := Registers p) (declareName_always
    (fun _ _ => .of_same rfl rfl) (fun _ _ _ => .of_same rfl rfl) (fun _ _ => .of_same rfl rfl) x)).ok hnamed
  have hdecls := (Always.forM p fun x hx => Always.bind .get fun u => collecting_lasting (T := Registers p)
    (declare_registers hx)).ok hdeclared
  have htemplates := (Always.forM p fun x _ => Always.bind .get fun u => collecting_lasting (T := Registers p)
    (elaborateTemplates_lasting _ x)).ok ht
  have hbodies := (Always.mapM (fun x => Always.bind .get fun u => elaborateStmt_lasting (T := Registers p) _ x) p).ok hfin
  refine ⟨fin, trans_of _ (trans_of _ (trans_of _ (trans_of _ hcleared hnames) hdecls) htemplates) hbodies, ?_⟩
  cases hl : fin.diagnostics.getLast? with
  | some d =>
    rw [hl] at hverdict
    exact .inr ⟨d, hverdict⟩
  | none =>
    rw [hl] at hverdict
    exact .inl ⟨_, hverdict, rfl⟩

/-- What is registered is a cell of one of the programs, or its body is among these. -/
def Embodied (ps : List Program) (bodies : List CellDef) (s : Checker) : Prop :=
  ∀ {n}, s.cells.find? n ≠ none → (∃ p ∈ ps, ∃ c, .cell c ∈ p ∧ c.name.name = n) ∨ ∃ c ∈ bodies, c.name.name = n

theorem Registers.history {ps : List Program} {out : List CellDef} (h : Registers p s t)
    (hs : Embodied ps (s.instances ++ out) s) : Embodied (p :: ps) (t.instances ++ out) t := by
  intro n hn
  cases hfound : s.cells.find? n with
  | none =>
    obtain hdeclared | ⟨c, hc, hname⟩ := h.embodied hfound hn
    · exact .inl ⟨p, List.mem_cons_self .., hdeclared⟩
    · exact .inr ⟨c, List.mem_append_left out hc, hname⟩
  | some sig =>
    obtain ⟨q, hq, hdeclared⟩ | ⟨c, hc, hname⟩ := hs (n := n) (by simp [hfound])
    · exact .inl ⟨q, List.mem_cons_of_mem p hq, hdeclared⟩
    · refine .inr ⟨c, ?_, hname⟩
      obtain hc | hc := List.mem_append.1 hc
      · exact List.mem_append_left out (h.instances.subset hc)
      · exact List.mem_append_right t.instances hc

/-- **Whatever is registered was declared or has its body**, after any programs, those that failed among them: the body
has been given out with a program that passed, or it is still there. -/
theorem History.embodied {config : Config} {ps : List Program} {out : List CellDef} (h : History config ps out s) :
    Embodied ps (s.instances ++ out) s := by
  induction h with
  | new => exact fun hn => absurd rfl hn
  | @passed ps out s t p checked _ hp ih =>
    obtain ⟨fin, hreg, ⟨checked', hp', hout⟩ | ⟨d, hp'⟩⟩ := program_registers p s
    · rw [hp] at hp'
      cases hp'
      intro n hn
      obtain hdeclared | ⟨c, hc, hname⟩ := hreg.history ih hn
      · exact .inl hdeclared
      · refine .inr ⟨c, ?_, hname⟩
        rw [hout]
        simpa using hc
    · rw [hp] at hp'
      cases hp'
  | @failed ps out s t p d _ hp ih =>
    obtain ⟨fin, hreg, ⟨checked', hp', -⟩ | ⟨d', hp'⟩⟩ := program_registers p s
    · rw [hp] at hp'
      cases hp'
    · rw [hp] at hp'
      cases hp'
      exact hreg.history ih

end Check
end Unroll
