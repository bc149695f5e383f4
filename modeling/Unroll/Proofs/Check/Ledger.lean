import Mathlib.Data.List.Dedup
import Unroll.Proofs.Check.Unwinding
import Unroll.Proofs.Copies
/-!
# The books of a check

Each copy that a check makes is broadcast, and it ends up in one place: in the tree that the check gives back, in an
instance, or in the template of a generic cell once that has been checked.  So the news and the copies are kept in
balance by every step that leaves no diagnostic behind, and a tree that is given back is what is still to be put away.
A copy whose check fails is thrown away after it has been broadcast; then there is a diagnostic, or the check fails.
-/
namespace Unroll
namespace Check

open CheckM Outcome Checker

variable {deeper : Deeper} {s s' t u v : Checker}

/-! ## Templates -/

/-- The names of the generic cells, each once. -/
def templateNames (gs : Table GenericInfo) : List String := (gs.map Prod.fst).dedup

theorem mem_templateNames {gs : Table GenericInfo} {n : String} : n ∈ templateNames gs ↔ gs.find? n ≠ none := by
  unfold templateNames Table.find?
  rw [List.mem_dedup, ne_eq, List.lookup_eq_none_iff, List.mem_map]
  constructor
  · rintro ⟨p, hp, rfl⟩ h
    simpa using h p hp
  · intro h
    by_contra hn
    exact h fun p hp => by simpa using fun he => hn ⟨p, hp, Eq.symm he⟩

theorem templateNames_nodup (gs : Table GenericInfo) : (templateNames gs).Nodup := List.nodup_dedup _

theorem templateNames_insert {gs : Table GenericInfo} {n : String} (h : n ∈ templateNames gs) (g : GenericInfo) :
    templateNames (gs.insert n g) = templateNames gs :=
  List.dedup_cons_of_mem (List.mem_dedup.1 h)

/-- **A template stands as it is** while it is being checked, and once it has been; and there are no others. -/
structure Standing (s t : Checker) : Prop where
  elaborating : t.elaborating = s.elaborating
  names : templateNames t.generics = templateNames s.generics
  templates : ∀ n, s.started n = true → t.generics.find? n = s.generics.find? n

theorem Standing.of_same (he : t.elaborating = s.elaborating) (hg : t.generics = s.generics) : Standing s t :=
  ⟨he, by rw [hg], fun _ _ => by rw [hg]⟩

theorem Standing.started (h : Standing s t) {n : String} (hn : s.started n = true) : t.started n = true := by
  unfold Checker.started at hn ⊢
  rwa [h.elaborating, h.templates n hn]

instance : IsPreorder Checker Standing where
  refl _ := .of_same rfl rfl
  trans _ _ _ h h' := ⟨h'.elaborating.trans h.elaborating, h'.names.trans h.names, fun n hn =>
    (h'.templates n (h.started hn)).trans (h.templates n hn)⟩

theorem modifyGeneric_other {name n : String} (hn : n ≠ name) (f : GenericInfo → GenericInfo) (s : Checker) :
    (modifyGeneric name f s).generics.find? n = s.generics.find? n := by
  unfold modifyGeneric
  split
  · exact (Table.find?_insert ..).trans (if_neg hn)
  · rfl

theorem modifyGeneric_elaborating (name : String) (f : GenericInfo → GenericInfo) (s : Checker) :
    (modifyGeneric name f s).elaborating = s.elaborating := by
  unfold modifyGeneric
  split <;> rfl

theorem modifyGeneric_names (name : String) (f : GenericInfo → GenericInfo) (s : Checker) :
    templateNames (modifyGeneric name f s).generics = templateNames s.generics := by
  unfold modifyGeneric
  cases hg : s.generics.find? name with
  | none => rfl
  | some g => exact templateNames_insert (mem_templateNames.2 (by simp [hg])) _

theorem not_started {name : String} {g : GenericInfo} (hg : s.generics.find? name = some g)
    (hnew : (g.elaborated || s.elaborating.contains name) = false) : s.started name = false := by
  unfold Checker.started
  rw [hg, Bool.or_comm]
  exact hnew

theorem Standing.tried {name : String} {g : GenericInfo} (hnew : s.started name = false)
    (h : Standing (underWay name g s) t) : Standing s (tried name s t) := by
  refine ⟨?_, (modifyGeneric_names ..).trans h.names, fun n hn => ?_⟩
  · refine (modifyGeneric_elaborating ..).trans ?_
    show t.elaborating.erase name = _
    rw [h.elaborating]
    exact @List.erase_cons_head _ _ _ name s.elaborating
  · have hne : n ≠ name := by
      rintro rfl
      rw [hnew] at hn
      cases hn
    exact (modifyGeneric_other hne ..).trans (h.templates n ((Counted.started_underWay name g s).2 (.inr hn)))

instance : Lasting Standing where
  onPlace _ _ := .of_same rfl rfl
  event _ := .of_same rfl rfl
  report _ _ := .of_same rfl rfl
  record _ _ _ := .of_same rfl rfl
  within _ h := ⟨h.elaborating, h.names, h.templates⟩
  tried hg hnew h := h.tried (not_started hg hnew)
  elaborated hg hnew _ h := by
    have hnew := not_started hg hnew
    obtain ⟨he, hnames, ht⟩ := h.tried hnew
    refine ⟨(modifyGeneric_elaborating ..).trans he, (modifyGeneric_names ..).trans hnames, fun n hn => ?_⟩
    refine (modifyGeneric_other ?_ ..).trans (ht n hn)
    rintro rfl
    rw [hnew] at hn
    cases hn
  instantiated _ hst _ _ _ _ _ h := by
    refine trans_of Standing hst ?_
    exact ⟨h.elaborating, h.names, h.templates⟩
  forgotten _ hst _ h := by
    refine trans_of Standing hst ?_
    rcases h with rfl | ⟨_, -, h⟩
    · exact .of_same rfl rfl
    · exact ⟨h.elaborating, h.names, h.templates⟩

/-! ## Books -/

/-- How often a copy is among these that is known so from outside. -/
def tally (k : Option (String × Span × Nat)) (cs : List Copy) : Nat := (cs.map Copy.news).count k

theorem tally_append (k : Option (String × Span × Nat)) (cs ds : List Copy) :
    tally k (cs ++ ds) = tally k cs + tally k ds := by
  unfold tally
  rw [List.map_append, List.count_append]

/-- The copies in the template of a generic cell, once it has been checked. -/
def templateCopies (gs : Table GenericInfo) (n : String) : List Copy :=
  match gs.find? n with
  | some g => if g.elaborated then g.cell.body.copies true else []
  | none => []

/-- The copies that a state keeps. -/
def stored (s : Checker) : List Copy :=
  s.instances.flatMap (·.body.copies true) ++ (templateNames s.generics).flatMap (templateCopies s.generics)

/-- **The books balance**, where the copies are given back: whatever was broadcast of a copy on the way from the first
state to the second stands for one that is given back, or for one that the second state keeps and the first did not. -/
def Books (cs : List Copy) (s t : Checker) : Prop :=
  t.diagnostics = [] → s.diagnostics = [] ∧ ∀ k,
    (t.heard.map some).count k + tally k (stored s) = (s.heard.map some).count k + tally k (stored t) + tally k cs

namespace Books

variable {cs ds : List Copy}

theorem of_same (hd : t.diagnostics = s.diagnostics) (he : t.heard = s.heard) (hi : t.instances = s.instances)
    (hg : t.generics = s.generics) : Books [] s t := by
  intro ht
  refine ⟨hd ▸ ht, fun k => ?_⟩
  unfold stored
  rw [he, hi, hg]
  rfl

theorem refl (s : Checker) : Books [] s s := of_same rfl rfl rfl rfl

theorem trans (h : Books cs s t) (h' : Books ds t u) : Books (cs ++ ds) s u := by
  intro hu
  obtain ⟨ht, htu⟩ := h' hu
  obtain ⟨hs, hst⟩ := h ht
  refine ⟨hs, fun k => ?_⟩
  have hfirst := hst k
  have hsecond := htu k
  rw [tally_append]
  omega

/-- What goes before and gives nothing back. -/
theorem after (h : Books [] s t) (h' : Books cs t u) : Books cs s u := h.trans h'

/-- What comes after and gives nothing back. -/
theorem before (h : Books cs s t) (h' : Books [] t u) : Books cs s u := by
  rw [← List.append_nil cs]
  exact h.trans h'

theorem onPlace (s : Checker) (f : Place → Place) : Books [] s (s.onPlace f) := of_same rfl rfl rfl rfl

theorem of_made (hi : ∀ {id args r s s'}, instantiateCell deeper id args s = .ok r s' → Books [] s s')
    (h : Made deeper s t) : Books [] s t := by
  induction h with
  | refl => exact .refl s
  | tail _ hlast ih =>
    obtain ⟨id, args, r, hlast⟩ := hlast
    exact ih.trans (hi hlast)

end Books

/-- One more list among those that are put together. -/
theorem tally_flatMap_update {k : Option (String × Span × Nat)} {f f' : String → List Copy} {name : String}
    (hname : f name = []) (hother : ∀ m, m ≠ name → f' m = f m) : ∀ {ns : List String}, ns.Nodup → name ∈ ns →
      tally k (ns.flatMap f') = tally k (ns.flatMap f) + tally k (f' name)
  | n :: ns, hnodup, hmem => by
    obtain ⟨hn, hnodup⟩ := List.nodup_cons.1 hnodup
    rw [List.flatMap_cons, List.flatMap_cons, tally_append, tally_append]
    by_cases he : n = name
    · subst he
      have hrest : ns.flatMap f' = ns.flatMap f := List.flatMap_congr fun m hm => hother m fun h => hn (h ▸ hm)
      rw [hrest, hname]
      show _ = 0 + _ + _
      omega
    · have hrest := tally_flatMap_update hname hother (k := k) hnodup
        ((List.mem_cons.1 hmem).resolve_left fun h => he h.symm)
      rw [hother n he, hrest]
      omega

theorem modifyGeneric_generics {name : String} {g : GenericInfo} (hg : s.generics.find? name = some g)
    (f : GenericInfo → GenericInfo) : (modifyGeneric name f s).generics = s.generics.insert name (f g) := by
  unfold modifyGeneric
  rw [hg]

theorem modifyGeneric_instances (name : String) (f : GenericInfo → GenericInfo) (s : Checker) :
    (modifyGeneric name f s).instances = s.instances := by
  unfold modifyGeneric
  split <;> rfl

theorem modifyGeneric_heard (name : String) (f : GenericInfo → GenericInfo) (s : Checker) :
    (modifyGeneric name f s).heard = s.heard := by
  unfold modifyGeneric
  split <;> rfl

theorem elaborated_generics {name : String} {g : GenericInfo} (c : CellDef) (hg : t.generics.find? name = some g) :
    (elaborated name c s t).generics =
      (t.generics.insert name { g with elaborated := true }).insert name { g with elaborated := true, cell := c } := by
  have hfirst := modifyGeneric_generics
    (s := { t.onPlace (fun _ => s.place) with elaborating := t.elaborating.erase name }) hg
    fun g => { g with elaborated := true }
  unfold elaborated
  rw [modifyGeneric_generics (g := { g with elaborated := true }), hfirst]
  · rfl
  · rw [hfirst]
    exact (Table.find?_insert ..).trans (if_pos rfl)

/-- **A template that has been checked is put away**, with all the copies in it. -/
theorem stored_elaborated {name : String} {g : GenericInfo} (c : CellDef) (hg : t.generics.find? name = some g)
    (hnew : g.elaborated = false) (k : Option (String × Span × Nat)) :
    tally k (stored (elaborated name c s t)) = tally k (stored t) + tally k (c.body.copies true) := by
  have hgenerics := elaborated_generics (s := s) c hg
  have hinstances : (elaborated name c s t).instances = t.instances := by
    unfold elaborated
    rw [modifyGeneric_instances, modifyGeneric_instances]
    rfl
  have hnames : templateNames (elaborated name c s t).generics = templateNames t.generics :=
    (modifyGeneric_names ..).trans (modifyGeneric_names ..)
  have hold : templateCopies t.generics name = [] := by simp [templateCopies, hg, hnew]
  have hother : ∀ m, m ≠ name → templateCopies (elaborated name c s t).generics m = templateCopies t.generics m := by
    intro m hm
    unfold templateCopies
    rw [hgenerics, Table.find?_insert, if_neg hm, Table.find?_insert, if_neg hm]
  have hthis : templateCopies (elaborated name c s t).generics name = c.body.copies true := by
    unfold templateCopies
    rw [hgenerics, Table.find?_insert, if_pos rfl]
    rfl
  unfold stored
  rw [tally_append, tally_append, hinstances, hnames,
    tally_flatMap_update hold hother (templateNames_nodup _) (mem_templateNames.2 (by simp [hg])), hthis]
  omega

/-! ## Declared names -/

theorem defineVal_books {id : Ident} {ty : Ty} {m : Bool} {w : Unit} (h : defineVal id ty m s = .ok w s') :
    Books [] s s' := by
  obtain ⟨scope, rest, -, -, -, rfl⟩ := defineVal_ok h
  exact .onPlace s _

theorem defineRecord_books (hd : deeper.Orderly) {id : Ident} {fs : List RecordField} {ty : Ty}
    (h : defineRecord deeper id fs s = .ok ty s') : Books [] s s' := by
  obtain ⟨is, u, canonical, hfs, -, -, -, -, rfl⟩ := defineRecord_ok h
  obtain ⟨rfl, -⟩ := recordFields_ok hd hfs
  exact .of_same rfl rfl rfl rfl

theorem defineParams_books : ∀ {ps : List CellParam} {as : List Param} {s s' : Checker} {w : Unit},
    defineParams ps as s = .ok w s' → Books [] s s'
  | [], as, s, s', w, h => by
    simp only [defineParams, pure_ok] at h
    exact h.2 ▸ .refl s
  | p :: ps, [], s, s', w, h => by
    simp only [defineParams, pure_ok] at h
    exact h.2 ▸ .refl s
  | p :: ps, a :: as, s, s', w, h => by
    simp only [defineParams, bind_ok] at h
    obtain ⟨_, t, hv, hps⟩ := h
    exact (defineVal_books hv).after (defineParams_books hps)

/-! ## Cells -/

/-- **What is one level down keeps the books**: it gives back the copies in the checked statement. -/
structure Deeper.KeepsBooks (deeper : Deeper) : Prop where
  stmt : ∀ {x s r s'}, deeper.stmt x s = .ok r s' → Books (r.copies true) s s'
  /-- A declaration stays one, so that a copy begins with one. -/
  val : ∀ {d s r s'}, deeper.stmt (.val d) s = .ok r s' → ∃ v, r = .val v

theorem cellStmts_books (hb : deeper.KeepsBooks) : ∀ {xs : List Stmt} {s s' : Checker} {r : List Stmt},
    cellStmts deeper xs s = .ok r s' → Books (Stmt.copiesOf true r) s s'
  | [], s, s', r, h => by
    simp only [cellStmts, pure_ok] at h
    obtain ⟨rfl, rfl⟩ := h
    exact .refl s
  | x :: xs, s, s', r, h => by
    obtain ⟨x', t, rest, hx, hxs, rfl⟩ | ⟨t, rest, ht, hxs⟩ := cellStmts_cons_ok h
    · exact (hb.stmt hx).trans (cellStmts_books hb hxs)
    · exact fun hclean => absurd (cellStmts_books hb hxs hclean).1 ht

theorem cellBody_books (hb : deeper.KeepsBooks) {c r : CellDef} {sig : CellSig}
    (h : cellBody deeper c sig s = .ok r s') : Books (r.body.copies true) s s' := by
  obtain ⟨t, ss, hp, hss, rfl⟩ := cellBody_ok h
  exact (((Books.onPlace s _).after (defineParams_books hp)).after (.onPlace t _)).after (cellStmts_books hb hss)

variable {n : Nat}

/-- A template is not touched while it is being checked. -/
theorem Standing.template {name : String} {g : GenericInfo} (h : Standing (underWay name g s) t)
    (hg : s.generics.find? name = some g) : t.generics.find? name = some g :=
  (h.templates name ((Counted.started_underWay name g s).2 (.inl rfl))).trans hg

theorem elaborateTemplate_books (hb : (levels n).KeepsBooks) {name : String} {w : Unit}
    (h : elaborateTemplate (levels n) name s = .ok w s') : Books [] s s' := by
  obtain rfl | ⟨g, sig, t, c, t', hg, hnew, hsig, hc, rfl⟩ := elaborateTemplate_ok h
  · exact .refl s
  obtain ⟨rfl, -⟩ := signature_ok (levels_orderly n) hsig
  intro hclean
  have hdone : t'.diagnostics = [] := by
    unfold elaborated at hclean
    rwa [modifyGeneric_diagnostics, modifyGeneric_diagnostics] at hclean
  obtain ⟨hs, hbooks⟩ := cellBody_books hb hc hdone
  refine ⟨hs, fun k => ?_⟩
  have hk : (t'.heard.map some).count k + tally k (stored s) =
      (s.heard.map some).count k + tally k (stored t') + tally k (c.body.copies true) := hbooks k
  have hheard : (elaborated name c s t').heard = t'.heard := by
    unfold elaborated
    rw [modifyGeneric_heard, modifyGeneric_heard]
    rfl
  have hstands : Standing (underWay name g s) t' := (cellBody_lasting (stmtAt_keeps n) g.cell sig).ok hc
  rw [hheard, stored_elaborated c (hstands.template hg) (Bool.or_eq_false_iff.1 hnew).1 k]
  show _ = _ + 0
  omega

theorem instantiateCell_books (hb : (levels n).KeepsBooks) {id : Ident} {args : List TemplateArg} {r : String × CellSig}
    (h : instantiateCell (levels n) id args s = .ok r s') : Books [] s s' := by
  obtain ⟨-, -, ⟨rfl, -⟩ | ⟨t, g, fr, concrete, c, u, v, -, ht, -, -, -, hsig, hbody, rfl⟩⟩ := instantiateCell_ok h
  · exact .refl s
  obtain ⟨rfl, -⟩ := signature_ok (levels_orderly n) hsig
  refine (elaborateTemplate_books hb ht).after fun hclean => ?_
  obtain ⟨hs, hbooks⟩ := cellBody_books hb hbody hclean
  refine ⟨hs, fun k => ?_⟩
  have hk : (v.heard.map some).count k + tally k (stored t) =
      (t.heard.map some).count k + tally k (stored v) + tally k (c.body.copies true) := hbooks k
  have hheard : (instantiated id r.1 c r.2 t v).heard = v.heard := rfl
  have hstored : stored (instantiated id r.1 c r.2 t v) = c.body.copies true ++ stored v := by
    unfold stored
    rw [← List.append_assoc]
    rfl
  rw [hheard, hstored, tally_append]
  show _ = _ + 0
  omega

/-! ## Statements -/

theorem expr_books (hb : (levels n).KeepsBooks) {e : Expr} {r : Typed} (h : expr (levels n) e s = .ok r s') :
    Books [] s s' :=
  .of_made (instantiateCell_books hb) (expr_made (levels_orderly n) h)

theorem initialValue_books (hb : (levels n).KeepsBooks) {declared : Option Ty} {e : Expr} {r : Typed}
    (h : initialValue (levels n) declared e s = .ok r s') : Books [] s s' := by
  obtain ⟨_, _, -, -, -, rfl⟩ | he := initialValue_ok h
  · exact .refl s
  · exact expr_books hb he

theorem valDecl_books (hb : (levels n).KeepsBooks) {d r : ValDecl} (h : valDecl (levels n) d s = .ok r s') :
    Books [] s s' := by
  obtain ⟨declared, t, e, type, u, ht, he, -, hv, -⟩ := valDecl_ok h
  obtain rfl := declared_same (levels_orderly n) ht
  exact (initialValue_books hb he).trans (defineVal_books hv)

theorem initStmt_books (hb : (levels n).KeepsBooks) {i r : Option Init} (h : initStmt (levels n) i s = .ok r s') :
    Books [] s s' := by
  rcases i with _ | d | e
  · simp only [initStmt, pure_ok] at h
    exact h.2 ▸ .refl s
  · simp only [initStmt, bind_ok, pure_ok] at h
    obtain ⟨_, _, hv, -, rfl⟩ := h
    exact valDecl_books hb hv
  · simp only [initStmt, bind_ok, pure_ok] at h
    obtain ⟨_, _, he, -, rfl⟩ := h
    exact expr_books hb he

theorem condition_books (hb : (levels n).KeepsBooks) {what : Condition} {e r : Expr}
    (h : condition (levels n) what e s = .ok r s') : Books [] s s' := by
  obtain ⟨t, he, -⟩ := condition_ok h
  exact expr_books hb he

theorem mapM_books (hb : deeper.KeepsBooks) : ∀ {xs : List Stmt} {s s' : Checker} {r : List Stmt},
    xs.mapM deeper.stmt s = .ok r s' → Books (Stmt.copiesOf true r) s s'
  | [], s, s', r, h => by
    simp only [List.mapM_nil, pure_ok] at h
    obtain ⟨rfl, rfl⟩ := h
    exact .refl s
  | x :: xs, s, s', r, h => by
    simp only [List.mapM_cons, bind_ok, pure_ok] at h
    obtain ⟨_, t, hx, _, _, hxs, rfl, rfl⟩ := h
    exact (hb.stmt hx).trans (mapM_books hb hxs)

/-- What begins with a declaration still does so after substitution and check. -/
theorem instantiateBlock_val (hb : deeper.KeepsBooks) {unit r : Block} {d : ValDecl} {ss : List Stmt} {ls : ArgLevels}
    {f : Frame} (hunit : unit.stmts = .val d :: ss) (h : instantiateBlock deeper unit ls f s = .ok r s') :
    ∃ v rest, r.stmts = .val v :: rest := by
  obtain ⟨fr, b, rs, t, -, hsub, hrs, rfl, -⟩ := instantiateBlock_ok h
  obtain ⟨sp, _⟩ := unit
  subst hunit
  simp only [Subst.block, Subst.stmts, Subst.stmt, except_bind_ok, except_map_ok, except_pure_ok] at hsub
  obtain ⟨_, ⟨_, ⟨d', -, rfl⟩, _, -, rfl⟩, rfl⟩ := hsub
  simp only [List.mapM_cons, bind_ok, pure_ok] at hrs
  obtain ⟨_, _, hv, rest, _, -, rfl, -⟩ := hrs
  obtain ⟨v, rfl⟩ := hb.val hv
  exact ⟨v, rest, rfl⟩

/-- **A copy is broadcast when it has been checked**: the declaration that it begins with, with its index. -/
theorem copyAt_heard {template : Block} {index : IndexParam} {keyword : Span} {i : Nat} {c : Copy}
    (hval : ∀ {body t}, instantiateBlock deeper template (copyArgs index i) ⟨.copy index.depth i, keyword⟩ s = .ok body t →
      ∃ v rest, body.stmts = .val v :: rest) (h : copyAt deeper template index keyword i s = .ok c s') :
    ∃ sp v rest t, instantiateBlock deeper template (copyArgs index i) ⟨.copy index.depth i, keyword⟩ s =
      .ok ⟨sp, .val v :: rest⟩ t ∧ c = ⟨i, ⟨sp, .val v :: rest⟩⟩ ∧
        s' = t.addEvent ⟨.val, v.name.name, none, v.span, some i⟩ := by
  simp only [copyAt, bind_ok, tryCatch_ok] at h
  obtain ⟨⟨sp, ss⟩, t, hb | ⟨_, _, -, hb⟩, h⟩ := h
  · obtain ⟨v, rest, rfl⟩ := hval hb
    simp only [List.head?_cons, bind_ok, modify_ok, pure_ok] at h
    obtain ⟨_, _, rfl, rfl, rfl⟩ := h
    exact ⟨sp, v, rest, t, hb, rfl, rfl⟩
  · exact absurd hb throw_ok

theorem copyAt_books (hb : deeper.KeepsBooks) {template : Block} {d : ValDecl} {ss : List Stmt}
    (htemplate : template.stmts = .val d :: ss) {index : IndexParam} {keyword : Span} {i : Nat} {c : Copy}
    (h : copyAt deeper template index keyword i s = .ok c s') : Books (c :: c.body.copies true) s s' := by
  obtain ⟨sp, v, rest, t, hblock, rfl, rfl⟩ := copyAt_heard (instantiateBlock_val hb htemplate) h
  obtain ⟨fr, b, rs, u, -, -, hrs, hr, rfl⟩ := instantiateBlock_ok hblock
  have hin : Books (Block.copies true ⟨sp, .val v :: rest⟩) s (copied u) := by
    have hall := mapM_books hb hrs
    obtain ⟨_, _⟩ := b
    cases hr
    exact ((Books.of_same rfl rfl rfl rfl).after hall).before (.of_same rfl rfl rfl rfl)
  intro hclean
  obtain ⟨hs, hbooks⟩ := hin hclean
  refine ⟨hs, fun k => ?_⟩
  have hk := hbooks k
  have hheard : ((copied u).addEvent ⟨.val, v.name.name, none, v.span, some i⟩).heard =
      (v.name.name, v.span, i) :: (copied u).heard := rfl
  have hstored : stored ((copied u).addEvent ⟨.val, v.name.name, none, v.span, some i⟩) = stored (copied u) := rfl
  rw [hheard, hstored, List.map_cons, List.count_cons]
  unfold tally at hk ⊢
  rw [List.map_cons, List.count_cons]
  show _ + (if some (v.name.name, v.span, i) == k then 1 else 0) + _ =
    _ + (((Block.copies true ⟨sp, .val v :: rest⟩).map Copy.news).count k +
      (if some (v.name.name, v.span, i) == k then 1 else 0))
  omega

theorem copiesFrom_books {copy : Nat → CheckM Copy}
    (hcopy : ∀ {i s c s'}, copy i s = .ok c s' → Books (c :: c.body.copies true) s s') :
    ∀ {left i : Nat} {s s' : Checker} {cs : List Copy}, copiesFrom copy left i s = .ok cs s' →
      Books (Copy.copiesOf true cs) s s'
  | 0, i, s, s', cs, h => by
    simp only [copiesFrom, pure_ok] at h
    obtain ⟨rfl, rfl⟩ := h
    exact .refl s
  | left + 1, i, s, s', cs, h => by
    simp only [copiesFrom, bind_ok, pure_ok] at h
    obtain ⟨⟨_, _⟩, t, hc, _, _, hcs, rfl, rfl⟩ := h
    exact (hcopy hc).trans (copiesFrom_books hcopy hcs)

theorem blockWith_books {sp : Span} {ss : CheckM (List Stmt)} {b : Block}
    (hss : ∀ {s r s'}, ss s = .ok r s' → Books (Stmt.copiesOf true r) s s') (h : blockWith sp ss s = .ok b s') :
    Books (b.copies true) s s' := by
  obtain ⟨r, t, hr, rfl, rfl⟩ := blockWith_ok h
  exact ((Books.onPlace s _).after (hss hr)).before (.onPlace t _)

/-- **An expansion gives back the copies in its body and those it was unrolled into.** -/
theorem finishExpansion_books (hb : (levels n).KeepsBooks) {p : Pending} {sp : Span} {body : CheckM (List Stmt)}
    (hbody : ∀ {s r s'}, body s = .ok r s' → Books (Stmt.copiesOf true r) s s') {r : Expansion}
    (h : finishExpansion (levels n) p sp body s = .ok r s') : Books (r.copies true) s s' := by
  obtain ⟨walk, t, var, ss, u, state, v, -, hbind, ht, hu, rfl, rfl⟩ := finishExpansion_ok h
  have hbinding : Books [] s t := by
    obtain ⟨-, hv⟩ | ⟨-, rfl⟩ := bindRange_ok hbind
    · exact defineVal_books hv
    · exact .refl s
  have htemplate : Books (Stmt.copiesOf true ss) t u := by
    obtain ⟨w, x, hv, hss, rfl⟩ := templateOf_ok ht
    exact (((Books.onPlace t _).after (valDecl_books hb hv)).after (hbody hss)).before (.onPlace x _)
  have hcopies : Books (state.copiesIn true) u v := by
    obtain ⟨-, rfl, rfl⟩ | ⟨-, rfl, rfl⟩ | ⟨m, cs, -, rfl, hcs⟩ := unrolling_ok hu
    · exact .refl u
    · exact .refl u
    · exact copiesFrom_books (copyAt_books hb rfl) hcs
  exact ((hbinding.after htemplate).trans hcopies).before (.onPlace v _)

mutual

/-- **A statement gives back the copies that were made for it.** -/
theorem stmt_books (hb : (levels n).KeepsBooks) : ∀ {x : Stmt} {s s' : Checker} {r : Stmt},
    stmt (levels n) x s = .ok r s' → Books (r.copies true) s s'
  | .typeAlias _ _ _ _, s, s', r, h | .trait _ _, s, s', r, h | .cell _, s, s', r, h => by
    simp only [stmt] at h
    exact absurd h fail_ok
  | .record d, s, s', r, h => by
    simp only [stmt, bind_ok, pure_ok] at h
    obtain ⟨_, _, hr, rfl, rfl⟩ := h
    exact defineRecord_books (levels_orderly n) hr
  | .val d, s, s', r, h => by
    simp only [stmt, map_ok] at h
    obtain ⟨_, hv, rfl⟩ := h
    exact valDecl_books hb hv
  | .assign sp target e, s, s', r, h => by
    obtain ⟨_, _, _, -, -, he, -, rfl⟩ := assignment_ok (by simpa only [stmt] using h)
    exact expr_books hb he
  | .cond sp c yes none, s, s', r, h => by
    simp only [stmt, bind_ok, pure_ok] at h
    obtain ⟨_, _, hc, _, _, hy, rfl, rfl⟩ := h
    exact (condition_books hb hc).after (block_books hb hy)
  | .cond sp c yes (some no), s, s', r, h => by
    simp only [stmt, bind_ok, pure_ok] at h
    obtain ⟨_, _, hc, _, _, hy, _, _, hn, rfl, rfl⟩ := h
    exact ((condition_books hb hc).after (block_books hb hy)).trans (block_books hb hn)
  | .loop sp c ⟨bsp, ss⟩, s, s', r, h => by
    simp only [stmt, bind_ok, pure_ok] at h
    obtain ⟨_, _, hc, _, _, hl, rfl, rfl⟩ := h
    obtain ⟨t, hin, rfl⟩ := loopBodyWith_ok hl
    have hbody := blockWith_books (stmts_books hb) hin
    exact (condition_books hb hc).after (((Books.onPlace _ _).after hbody).before (.onPlace t _))
  | .expand x, s, s', r, h => by
    simp only [stmt, map_ok] at h
    obtain ⟨_, hx, rfl⟩ := h
    exact expansion_books hb hx
  | .leave sp, s, s', r, h | .next sp, s, s', r, h => by
    obtain ⟨rfl, -, rfl⟩ := jump_ok (by simpa only [stmt] using h)
    exact .refl s
  | .give sp e, s, s', r, h => by
    obtain ⟨_, _, _, -, he, -, rfl⟩ | ⟨-, -, rfl, rfl⟩ := giveBack_ok (by simpa only [stmt] using h)
    · exact expr_books hb he
    · exact .refl s
  | .assert sp e, s, s', r, h => by
    obtain ⟨_, he, rfl⟩ := assertion_ok (by simpa only [stmt] using h)
    exact condition_books hb he
  | .expr e, s, s', r, h => by
    simp only [stmt, bind_ok, pure_ok] at h
    obtain ⟨_, _, he, rfl, rfl⟩ := h
    exact expr_books hb he
termination_by structural x => x

theorem stmts_books (hb : (levels n).KeepsBooks) : ∀ {xs : List Stmt} {s s' : Checker} {r : List Stmt},
    stmts (levels n) xs s = .ok r s' → Books (Stmt.copiesOf true r) s s'
  | [], s, s', r, h => by
    simp only [stmts, pure_ok] at h
    obtain ⟨rfl, rfl⟩ := h
    exact .refl s
  | x :: xs, s, s', r, h => by
    simp only [stmts, bind_ok, pure_ok] at h
    obtain ⟨_, _, hx, _, _, hxs, rfl, rfl⟩ := h
    exact (stmt_books hb hx).trans (stmts_books hb hxs)
termination_by structural xs => xs

theorem block_books (hb : (levels n).KeepsBooks) : ∀ {b : Block} {s s' : Checker} {r : Block},
    block (levels n) b s = .ok r s' → Books (r.copies true) s s'
  | ⟨sp, ss⟩, s, s', r, h => by
    simp only [block] at h
    exact blockWith_books (stmts_books hb) h
termination_by structural b => b

theorem expansion_books (hb : (levels n).KeepsBooks) : ∀ {x : Expansion} {s s' : Checker} {r : Expansion},
    expansion (levels n) x s = .ok r s' → Books (r.copies true) s s'
  | ⟨span, keyword, init, var, range, ⟨bsp, ss⟩, depth, state⟩, s, s', r, h => by
    simp only [expansion, bind_ok] at h
    obtain ⟨p, t, hp, hx⟩ := h
    obtain ⟨init, u, range, type, hi, hr, rfl⟩ := beginExpansion_ok hp
    have hhead : Books [] s t := by
      have hrange := Books.of_made (instantiateCell_books hb) (rangeExpr_made (levels_orderly n) hr)
      exact ((Books.onPlace s _).trans (initStmt_books hb hi)).trans hrange
    exact hhead.after (finishExpansion_books hb (stmts_books hb) hx)
termination_by structural x => x

end

theorem levels_books : ∀ n : Nat, (levels n).KeepsBooks
  | 0 => ⟨fun h => absurd h fail_ok, fun h => absurd h fail_ok⟩
  | n + 1 => by
    refine ⟨fun h => stmt_books (levels_books n) h, fun {d s r s'} h => ?_⟩
    have hval : stmt (levels n) (.val d) s = .ok r s' := h
    simp only [stmt, map_ok] at hval
    obtain ⟨v, -, rfl⟩ := hval
    exact ⟨v, rfl⟩

end Check
end Unroll
