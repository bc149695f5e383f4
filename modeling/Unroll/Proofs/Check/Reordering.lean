import Unroll.Checker.Program
import Unroll.Proofs.Check.OneMeaning
import Unroll.Proofs.Check.Passes
/-!
# Declarations in another order

A concrete cell is declared by its signature alone, and no other declaration looks at it: so it may be exchanged with
whatever stands next to it, but for an alias, which its signature may mention only when the alias is known.  What the
declarations of a program declare is then the same, up to the order in which the cells are kept.
-/
namespace Unroll

namespace Stmt

def isCell : Stmt → Bool
  | .cell _ => true
  | _ => false

def isAlias : Stmt → Bool
  | .typeAlias _ _ _ _ => true
  | _ => false

theorem eq_cell {x : Stmt} (h : x.isCell = true) : ∃ c, x = .cell c := by
  cases x with
  | cell c => exact ⟨c, rfl⟩
  | _ => cases h

theorem ne_cell {x : Stmt} (h : x.isCell = false) (c : CellDef) : x ≠ .cell c := by
  rintro rfl
  cases h

/-- One of the declarations is a cell, and the other is no alias. -/
def Exchangeable (x y : Stmt) : Prop := x.isCell = true ∧ y.isAlias = false ∨ y.isCell = true ∧ x.isAlias = false

theorem isAlias_of_cell {x : Stmt} (h : x.isCell = true) : x.isAlias = false := by
  obtain ⟨c, rfl⟩ := eq_cell h
  rfl

theorem Exchangeable.noAlias {x y : Stmt} (h : Exchangeable x y) : x.isAlias = false ∧ y.isAlias = false :=
  h.elim (fun h => ⟨isAlias_of_cell h.1, h.2⟩) fun h => ⟨h.2, isAlias_of_cell h.1⟩

theorem Exchangeable.symm {x y : Stmt} (h : Exchangeable x y) : Exchangeable y x := Or.symm h

end Stmt

namespace Program

/-- **Declarations in another order**: again and again, two that stand next to each other are exchanged. -/
inductive Reordered : Program → Program → Prop
  | refl (p : Program) : Reordered p p
  | cons (x : Stmt) {p q : Program} : Reordered p q → Reordered (x :: p) (x :: q)
  | swap {x y : Stmt} (p : Program) : x.Exchangeable y → Reordered (x :: y :: p) (y :: x :: p)
  | trans {p q r : Program} : Reordered p q → Reordered q r → Reordered p r

namespace Reordered

variable {p q : Program}

theorem symm (h : Reordered p q) : Reordered q p := by
  induction h with
  | refl p => exact .refl p
  | cons x _ ih => exact .cons x ih
  | swap p h => exact .swap p h.symm
  | trans _ _ ih ih' => exact .trans ih' ih

theorem perm (h : Reordered p q) : p.Perm q := by
  induction h with
  | refl p => exact .refl p
  | cons x _ ih => exact .cons x ih
  | swap p _ => exact .swap _ _ p
  | trans _ _ ih ih' => exact .trans ih ih'

theorem append_left (front : Program) (h : Reordered p q) : Reordered (front ++ p) (front ++ q) := by
  induction front with
  | nil => exact h
  | cons x front ih => exact .cons x ih

/-- A cell is taken behind declarations that are no aliases. -/
theorem behind {x : Stmt} (hx : x.isCell = true) : ∀ {front : Program}, (∀ y ∈ front, y.isAlias = false) →
    ∀ rest, Reordered (x :: (front ++ rest)) (front ++ x :: rest)
  | [], _, rest => .refl _
  | y :: front, h, rest => by
    obtain ⟨hy, hfront⟩ := List.forall_mem_cons.1 h
    exact .trans (.swap _ (.inl ⟨hx, hy⟩)) (.cons y (behind hx hfront rest))

theorem of_perm_cells {cs ds : Program} (h : cs.Perm ds) : (∀ x ∈ cs, x.isCell = true) → Reordered cs ds := by
  induction h with
  | nil => exact fun _ => .refl []
  | cons x _ ih => exact fun hcs => .cons x (ih fun y hy => hcs y (List.mem_cons_of_mem _ hy))
  | swap x y cs =>
    intro hcs
    have hx := hcs x (List.mem_cons_of_mem _ (List.mem_cons_self ..))
    have hy := hcs y (List.mem_cons_self ..)
    exact .swap cs (.inl ⟨hy, Stmt.isAlias_of_cell hx⟩)
  | trans hl _ ih ih' => exact fun hcs => .trans (ih hcs) (ih' fun x hx => hcs x (hl.mem_iff.2 hx))

end Reordered

/-- No alias stands behind a cell. -/
def AliasesFirst (p : Program) : Prop := p.Pairwise fun x y => x.isCell = true → y.isAlias = false

/-- Where no alias stands behind a cell, all cells may be taken to the end. -/
theorem AliasesFirst.reordered : ∀ {p : Program}, AliasesFirst p →
    Reordered p (p.filter (!·.isCell) ++ p.filter (·.isCell))
  | [], _ => .refl []
  | x :: p, h => by
    obtain ⟨hx, hp⟩ := List.pairwise_cons.1 h
    have hrest : Reordered (x :: p) (x :: (p.filter (!·.isCell) ++ p.filter (·.isCell))) :=
      .cons x (AliasesFirst.reordered hp)
    cases hc : x.isCell with
    | false => simpa [List.filter_cons, hc] using hrest
    | true =>
      have hothers : ∀ y ∈ p.filter (!·.isCell), y.isAlias = false := fun y hy => hx y (List.mem_filter.1 hy).1 hc
      have hmove := Reordered.behind hc hothers (p.filter (·.isCell))
      simpa [List.filter_cons, hc] using hrest.trans hmove

/-- **Cells that change places among themselves** are declarations in another order, where no alias stands behind a
cell. -/
theorem reordered_of_perm {p q : Program} (h : p.Perm q) (hothers : p.filter (!·.isCell) = q.filter (!·.isCell))
    (hp : p.AliasesFirst) (hq : q.AliasesFirst) : Reordered p q := by
  have hcells : Reordered (p.filter (·.isCell)) (q.filter (·.isCell)) :=
    .of_perm_cells (h.filter _) fun x hx => (List.mem_filter.1 hx).2
  have hmid := hcells.append_left (p.filter (!·.isCell))
  rw [hothers] at hmid
  exact hp.reordered.trans (hothers ▸ hmid.trans hq.reordered.symm)

end Program

namespace Check

open CheckM Outcome Checker

/-! ## What a signature is read from -/

section

variable {α β : Type} {s s' t : Checker}

/-- What the step gives is read off the aliases, the traits and what names stand for. -/
def ReadOff (x : CheckM α) : Prop := ∀ (s t s' : Checker) (a : α), Alike (fun _ => True) s t → Roomier s t →
  x s = .ok a s' → s = s' ∧ x t = .ok a t

namespace ReadOff

theorem pure (a : α) : ReadOff (pure a : CheckM α) := by
  rintro s t s' b - - h
  obtain ⟨rfl, rfl⟩ := pure_ok.1 h
  exact ⟨rfl, rfl⟩

theorem fail (c : Cause) (p : Span) : ReadOff (fail c p : CheckM α) := fun _ _ _ _ _ _ h => absurd h fail_ok

theorem bind {x : CheckM α} {f : α → CheckM β} (hx : ReadOff x) (hf : ∀ a, ReadOff (f a)) : ReadOff (x >>= f) := by
  intro s t s' b ha hr h
  obtain ⟨a, u, h₁, h₂⟩ := bind_ok.1 h
  obtain ⟨rfl, ht₁⟩ := hx _ _ _ _ ha hr h₁
  obtain ⟨rfl, ht₂⟩ := hf a _ _ _ _ ha hr h₂
  exact ⟨rfl, bind_ok.2 ⟨a, t, ht₁, ht₂⟩⟩

theorem mapM {f : α → CheckM β} (hf : ∀ a, ReadOff (f a)) : ∀ as : List α, ReadOff (as.mapM f)
  | [] => by
    rw [List.mapM_nil]
    exact .pure []
  | a :: as => by
    rw [List.mapM_cons]
    exact .bind (hf a) fun b => .bind (mapM hf as) fun bs => .pure (b :: bs)

theorem typeRef (n : Nat) (w : TypeRef) : ReadOff (typeRef (levels n) w) := by
  intro s t s' ty ha hr h
  have hclosed : ClosedNames (fun _ => True) s :=
    ⟨fun _ => trivial, fun _ _ => trivial, fun _ _ _ _ => trivial, fun _ _ _ _ => trivial⟩
  exact ⟨typeRef_same (levels_orderly n) h,
    (typeRef_alike (levels_orderly n) (typeRefAt_reads_alike n.le_refl) ha hclosed hr (fun _ _ => trivial) h).1⟩

theorem signature (n : Nat) (c : CellDef) : ReadOff (signature (levels n) c) := by
  refine .bind (.mapM (fun p => .bind (.typeRef n p.type) fun _ => .pure _) c.args) fun ps => ?_
  cases c.ret with
  | none => exact .pure _
  | some w => exact .bind (.typeRef n w) fun _ => .pure _

theorem recordFields (n : Nat) (id : Ident) : ∀ (fs : List RecordField) (seen : List String),
    ReadOff (recordFields (levels n) id seen fs)
  | [], _ => .pure []
  | f :: fs, seen => by
    unfold Check.recordFields
    split
    · exact .bind (.fail _ _) fun _ => .bind (.typeRef n f.type) fun _ => .bind (recordFields n id fs _) fun _ => .pure _
    · exact .bind (.typeRef n f.type) fun _ => .bind (recordFields n id fs _) fun _ => .pure _

end ReadOff

/-- **The states are one for a declaration**: it goes as far down, and every name means the same. -/
structure Views (s t : Checker) : Prop where
  config : t.config = s.config
  generics : t.generics = s.generics
  frames : t.frames = s.frames
  alike : Alike (fun _ => True) s t

namespace Views

theorem symm (h : Views s t) : Views t s :=
  ⟨h.config.symm, h.generics.symm, h.frames.symm, h.alike.aliases.symm, h.alike.traits.symm,
    fun n hn => (h.alike.params n hn).symm, fun n hn => (h.alike.records n hn).symm⟩

theorem trans {u : Checker} (h : Views s t) (h' : Views t u) : Views s u :=
  ⟨h'.config.trans h.config, h'.generics.trans h.generics, h'.frames.trans h.frames,
    h'.alike.aliases.trans h.alike.aliases, h'.alike.traits.trans h.alike.traits,
    fun n hn => (h'.alike.params n hn).trans (h.alike.params n hn),
    fun n hn => (h'.alike.records n hn).trans (h.alike.records n hn)⟩

theorem fromHere (h : Views s t) : fromHere t = fromHere s := by
  unfold Check.fromHere
  rw [h.config, h.generics]

theorem roomier (h : Views s t) : Roomier s t := by
  unfold Roomier
  rw [h.frames]

theorem read {x : CheckM α} (h : Views s t) (hx : ReadOff x) {a : α} (hs : x s = .ok a s') : x t = .ok a t :=
  (hx _ _ _ _ h.alike h.roomier hs).2

end Views

end

/-! ## Single declarations -/

/-- The state with other cells. -/
def withCells (cells : Table CellSig) (s : Checker) : Checker := { s with cells }

variable {n : Nat} {x y : Stmt} {s s' t : Checker} {cells : Table CellSig}

theorem views_withCells (cells : Table CellSig) (s : Checker) : Views s (withCells cells s) :=
  ⟨rfl, rfl, rfl, rfl, rfl, fun _ _ => rfl, fun _ _ => rfl⟩

theorem paramDecls_withCells : ∀ (ps : List TemplateParam) (seen : List String),
    paramDecls (withCells cells s) seen ps = paramDecls s seen ps
  | [], _ => rfl
  | p :: ps, seen => by
    unfold paramDecls
    rw [paramDecls_withCells ps]
    rfl

/-- **What is no cell is declared without regard to the cells.** -/
theorem declare_withCells (hx : x.isCell = false) (h : declare (levels n) x s = .ok () s') (cells : Table CellSig) :
    declare (levels n) x (withCells cells s) = .ok () (withCells cells s') ∧ s'.cells = s.cells := by
  cases x with
  | record d =>
    simp only [declare, bind_ok, modify_ok] at h ⊢
    obtain ⟨fields, u, hf, rfl⟩ := h
    have hf' := (views_withCells cells s).read (.recordFields n d.name d.fields []) hf
    obtain ⟨rfl, -, -, -⟩ := recordFields_ok (levels_orderly n) hf
    exact ⟨⟨fields, _, hf', rfl⟩, rfl⟩
  | typeAlias sp id params target =>
    simp only [declare, declareAlias, bind_ok] at h ⊢
    obtain ⟨_, u, hname, h⟩ := h
    obtain rfl := checkTypeName_ok hname
    have hname' : checkTypeName id (withCells cells s) = .ok () (withCells cells s) := by
      simp only [checkTypeName, bind_ok, get_ok] at hname ⊢
      obtain ⟨_, _, ⟨rfl, rfl⟩, hname⟩ := hname
      refine ⟨_, _, ⟨rfl, rfl⟩, ?_⟩
      split at hname
      · exact absurd hname fail_ok
      · rename_i hnew
        exact (congrFun (if_neg hnew) _).trans rfl
    split at h
    · rename_i hempty
      simp only [bind_ok, map_ok, modify_ok] at h
      obtain ⟨_, u, ⟨ty, hty, rfl⟩, rfl⟩ := h
      have hty' := (views_withCells cells s).read (.typeRef n target) hty
      obtain rfl := typeRef_same (levels_orderly n) hty
      refine ⟨⟨(), _, hname', ?_⟩, rfl⟩
      simp only [if_pos hempty, bind_ok, map_ok, modify_ok]
      exact ⟨_, _, ⟨ty, hty', rfl⟩, rfl⟩
    · rename_i hne
      simp only [bind_ok, get_ok, ofExcept_ok, pure_ok, modify_ok] at h
      obtain ⟨_, _, ⟨rfl, rfl⟩, decls, _, ⟨hdecls, rfl⟩, _, _, ⟨rfl, rfl⟩, rfl⟩ := h
      refine ⟨⟨(), _, hname', ?_⟩, rfl⟩
      simp only [if_neg hne, bind_ok, get_ok, ofExcept_ok, pure_ok, modify_ok]
      refine ⟨_, _, ⟨rfl, rfl⟩, decls, _, ⟨?_, rfl⟩, _, _, ⟨rfl, rfl⟩, rfl⟩
      rw [paramDecls_withCells, hdecls]
  | cell c => cases hx
  | _ =>
    simp only [declare, pure_ok, true_and] at h ⊢
    subst h
    exact ⟨rfl, rfl⟩

/-- A concrete cell is declared by a name that is new and by its signature. -/
theorem declare_concrete {c : CellDef} (hc : c.isGeneric = false) :
    declare (levels n) (.cell c) s = .ok () s' ↔ isBuiltin c.name.name = false ∧ s.cells.find? c.name.name = none ∧
      s.generics.find? c.name.name = none ∧ ∃ sig, signature (levels n) c s = .ok sig s ∧
        s' = withCells (s.cells.insert c.name.name sig) s := by
  unfold declare declareCell
  cases hb : isBuiltin c.name.name with
  | true => simp [hb]
  | false =>
    cases hfound : s.cells.find? c.name.name with
    | some sig => simp [hb, Table.contains, hfound]
    | none =>
      cases hg : s.generics.find? c.name.name with
      | some g => simp [hb, Table.contains, hfound, hg]
      | none =>
        simp only [hb, hc, bind_ok, get_ok, Bool.false_eq_true, if_false, true_and]
        constructor
        · rintro ⟨_, _, ⟨rfl, rfl⟩, h⟩
          simp only [Table.contains, hfound, hg, Option.isSome_none, Bool.or_self, Bool.false_eq_true, if_false, bind_ok,
            modify_ok] at h
          obtain ⟨sig, u, hsig, rfl⟩ := h
          obtain ⟨rfl, -, -⟩ := signature_ok (levels_orderly n) hsig
          exact ⟨sig, hsig, rfl⟩
        · rintro ⟨sig, hsig, rfl⟩
          refine ⟨s, s, ⟨rfl, rfl⟩, ?_⟩
          simp only [Table.contains, hfound, hg, Option.isSome_none, Bool.or_self, Bool.false_eq_true, if_false, bind_ok,
            modify_ok]
          exact ⟨sig, s, hsig, rfl⟩

/-- What is no alias leaves the meaning of the names as it was, and declares no template. -/
theorem declare_views (hx : ∀ c, x = .cell c → c.isGeneric = false) (ha : x.isAlias = false) (hw : x.Written)
    (h : declare (levels n) x s = .ok () s') : Views s s' := by
  cases x with
  | record d =>
    simp only [declare, bind_ok, modify_ok] at h
    obtain ⟨fields, u, hf, rfl⟩ := h
    obtain ⟨rfl, -, -, -⟩ := recordFields_ok (levels_orderly n) hf
    refine ⟨rfl, rfl, rfl, rfl, rfl, fun _ _ => rfl, fun m _ => ?_⟩
    unfold recordName?
    rw [show (addRecord d.name.name fields s).place = s.place from rfl]
    cases s.place.types.findSome? (Table.find? · m) with
    | some c => rfl
    | none =>
      by_cases hq : '\'' ∈ m.toList
      · have hne : m ≠ d.name.name := by
          rintro rfl
          exact hw.name.notMem (by decide) hq
        simp only [addRecord, Table.contains, Table.find?_insert, if_neg hne]
        rfl
      · simp [hq]
  | cell c =>
    obtain ⟨-, -, -, sig, -, rfl⟩ := (declare_concrete (hx c rfl)).1 h
    exact views_withCells _ s
  | typeAlias _ _ _ _ => cases ha
  | _ =>
    simp only [declare, pure_ok, true_and] at h
    subst h
    exact ⟨rfl, rfl, rfl, rfl, rfl, fun _ _ => rfl, fun _ _ => rfl⟩

/-! ## The two passes -/

/-- **The states differ in nothing but how the cells are kept.** -/
structure SameCells (s t : Checker) : Prop where
  rest : t = withCells t.cells s
  cells : ∀ m, t.cells.find? m = s.cells.find? m

theorem SameCells.trans {u : Checker} (h : SameCells s t) (h' : SameCells t u) : SameCells s u where
  rest := by
    rw [h'.rest, h.rest]
    rfl
  cells := fun m => (h'.cells m).trans (h.cells m)

theorem SameCells.views (h : SameCells s t) : Views s t := h.rest ▸ views_withCells _ _

/-- **A declaration goes the same way** where the cells are kept in another order. -/
theorem declare_sameCells (hx : ∀ c, x = .cell c → c.isGeneric = false) (h : declare (levels n) x s = .ok () s')
    (hst : SameCells s t) : ∃ t', declare (levels n) x t = .ok () t' ∧ SameCells s' t' := by
  by_cases hcell : x.isCell = true
  · obtain ⟨c, rfl⟩ := Stmt.eq_cell hcell
    obtain ⟨hb, hf, hg, sig, hsig, rfl⟩ := (declare_concrete (hx c rfl)).1 h
    refine ⟨_, (declare_concrete (hx c rfl)).2 ⟨hb, (hst.cells _).trans hf, hst.views.generics.symm ▸ hg, sig,
      hst.views.read (.signature n c) hsig, rfl⟩, ?_, fun m => ?_⟩
    · rw [hst.rest]
      rfl
    · simp only [withCells, Table.find?_insert, hst.cells]
  · obtain ⟨ht, hsame⟩ := declare_withCells (Bool.not_eq_true _ ▸ hcell) h t.cells
    rw [← hst.rest] at ht
    exact ⟨_, ht, rfl, fun m => (hst.cells m).trans (congrArg (Table.find? · m) hsame.symm)⟩

/-- A cell is declared by the same signature in every state that is one with the first for a declaration. -/
theorem declare_concrete_at {c : CellDef} (hc : c.isGeneric = false) {sig : CellSig} (hb : isBuiltin c.name.name = false)
    (hg : s.generics.find? c.name.name = none) (hsig : signature (levels n) c s = .ok sig s) (h : Views s t)
    (hfree : t.cells.find? c.name.name = none) :
    declare (levels n) (.cell c) t = .ok () (withCells (t.cells.insert c.name.name sig) t) :=
  (declare_concrete hc).2 ⟨hb, hfree, h.generics ▸ hg, sig, h.read (.signature n c) hsig, rfl⟩

/-- **A cell and what stands behind it**, if that is no alias, may be declared the other way round. -/
theorem declare_exchange {c : CellDef} (hc : c.isGeneric = false) (hy : ∀ c, y = .cell c → c.isGeneric = false)
    (ha : y.isAlias = false) (hw : y.Written) {u : Checker} (h : declare (levels n) (.cell c) s = .ok () u)
    (h' : declare (levels n) y u = .ok () s') (hst : SameCells s t) :
    ∃ v t', declare (levels n) y t = .ok () v ∧ declare (levels n) (.cell c) v = .ok () t' ∧ SameCells s' t' := by
  obtain ⟨hb, hfree, hg, sig, hsig, rfl⟩ := (declare_concrete hc).1 h
  have hfree' : t.cells.find? c.name.name = none := (hst.cells _).trans hfree
  cases hcell : y.isCell with
  | true =>
    obtain ⟨d, rfl⟩ := Stmt.eq_cell hcell
    obtain ⟨hb', hfreed, hg', sig', hsig', rfl⟩ := (declare_concrete (hy d rfl)).1 h'
    simp only [withCells, Table.find?_insert] at hfreed
    split at hfreed
    · cases hfreed
    rename_i hne
    have hd := declare_concrete_at (t := t) (hy d rfl) hb' hg' hsig' ((views_withCells _ s).symm.trans hst.views)
      ((hst.cells _).trans hfreed)
    refine ⟨_, _, hd, declare_concrete_at hc hb hg hsig (hst.views.trans (views_withCells _ t)) ?_, ?_, fun m => ?_⟩
    · simp only [withCells, Table.find?_insert, if_neg (Ne.symm hne)]
      exact hfree'
    · rw [hst.rest]
      rfl
    · simp only [withCells, Table.find?_insert, hst.cells]
      split
      · rename_i hm
        rw [if_neg (hm ▸ Ne.symm hne)]
      · rfl
  | false =>
    obtain ⟨hv, hsame⟩ := declare_withCells hcell h' t.cells
    rw [show withCells t.cells (withCells (s.cells.insert c.name.name sig) s) = t from hst.rest.symm] at hv
    have hviews : Views s (withCells t.cells s') :=
      ((views_withCells _ s).trans (declare_views hy ha hw h')).trans (views_withCells _ s')
    refine ⟨_, _, hv, declare_concrete_at hc hb hg hsig hviews hfree', rfl, fun m => ?_⟩
    rw [hsame]
    simp only [withCells, Table.find?_insert, hst.cells]

/-- The same of a cell and what stands before it. -/
theorem declare_exchange' {c : CellDef} (hc : c.isGeneric = false) (hcell : x.isCell = false) (ha : x.isAlias = false)
    (hw : x.Written) {u : Checker} (h : declare (levels n) x s = .ok () u)
    (h' : declare (levels n) (.cell c) u = .ok () s') (hst : SameCells s t) :
    ∃ v t', declare (levels n) (.cell c) t = .ok () v ∧ declare (levels n) x v = .ok () t' ∧ SameCells s' t' := by
  obtain ⟨hb, hfree, hg, sig, hsig, rfl⟩ := (declare_concrete hc).1 h'
  have hsame := (declare_withCells hcell h s.cells).2
  have hviews : Views u t := (declare_views (fun c he => absurd he (Stmt.ne_cell hcell c)) ha hw h).symm.trans hst.views
  have hd := declare_concrete_at hc hb hg hsig hviews ((hst.cells _).trans (hsame ▸ hfree))
  have hx := (declare_withCells hcell h (t.cells.insert c.name.name sig)).1
  refine ⟨_, withCells (t.cells.insert c.name.name sig) u, hd, ?_, rfl, fun m => ?_⟩
  · rw [hst.rest]
    exact hx
  · simp only [withCells, Table.find?_insert, hst.cells, hsame]

/-- **Two declarations that may be exchanged** declare the same the other way round. -/
theorem declare_swap (hex : x.Exchangeable y) (hx : ∀ c, x = .cell c → c.isGeneric = false)
    (hy : ∀ c, y = .cell c → c.isGeneric = false) (hxw : x.Written) (hyw : y.Written) {u : Checker}
    (h : declare (levels n) x s = .ok () u) (h' : declare (levels n) y u = .ok () s') (hst : SameCells s t) :
    ∃ v t', declare (levels n) y t = .ok () v ∧ declare (levels n) x v = .ok () t' ∧ SameCells s' t' := by
  cases hcell : x.isCell with
  | true =>
    obtain ⟨c, rfl⟩ := Stmt.eq_cell hcell
    exact declare_exchange (hx c rfl) hy hex.noAlias.2 hyw h h' hst
  | false =>
    obtain ⟨hc, -⟩ | ⟨hc, ha⟩ := hex
    · rw [hcell] at hc
      cases hc
    · obtain ⟨c, rfl⟩ := Stmt.eq_cell hc
      exact declare_exchange' (hy c rfl) hcell ha hxw h h' hst

/-- One declaration of the second pass. -/
def declareNext (x : Stmt) : CheckM Unit := do collecting (declare (fromHere (← get)) x)

theorem declareNext_of_ok (h : declare (fromHere s) x s = .ok () s') : declareNext x s = .ok () s' := by
  simp only [Check.declareNext, bind_ok, get_ok, collecting, tryCatch_ok]
  exact ⟨s, s, ⟨rfl, rfl⟩, .inl h⟩

theorem declareNext_clean (h : declareNext x s = .ok () s') (hclean : s'.diagnostics = []) :
    declare (fromHere s) x s = .ok () s' := by
  simp only [Check.declareNext, bind_ok, get_ok] at h
  obtain ⟨_, _, ⟨rfl, rfl⟩, h⟩ := h
  exact (collecting_ok h).resolve_right fun hd => hd hclean

theorem declareNext_start (hw : x.Written) (h : declareNext x s = .ok () s') (hclean : s'.diagnostics = []) :
    s.diagnostics = [] :=
  declare_keeps_diagnostics hw (declareNext_clean h hclean) ▸ hclean

theorem declareAll_start {p : Program} (hp : ∀ x ∈ p, x.Written) {u : Unit} (h : p.forM declareNext s = .ok u s')
    (hclean : s'.diagnostics = []) : s.diagnostics = [] :=
  (forM_ok (C := fun s => s.diagnostics = []) (P := fun _ _ => True) []
    (fun x hx _ _ _ h hc => ⟨declareNext_start (hp x hx) h hc, fun _ => trivial⟩) h hclean).1

theorem forM_cons_ok {g : Stmt → CheckM Unit} {p : Program} :
    (x :: p).forM g s = .ok () s' ↔ ∃ u, g x s = .ok () u ∧ p.forM g u = .ok () s' := by
  simp only [List.forM_eq_forM, List.forM_cons, bind_ok]
  constructor
  · rintro ⟨_, u, h⟩
    exact ⟨u, h⟩
  · rintro ⟨u, h⟩
    exact ⟨(), u, h⟩

/-- A program is declared the same way where the cells are kept in another order. -/
theorem declareNext_sameCells (hx : ∀ c, x = .cell c → c.isGeneric = false) (h : declareNext x s = .ok () s')
    (hclean : s'.diagnostics = []) (hst : SameCells s t) : ∃ t', declareNext x t = .ok () t' ∧ SameCells s' t' := by
  obtain ⟨t', ht', hst'⟩ := declare_sameCells hx (declareNext_clean h hclean) hst
  exact ⟨t', declareNext_of_ok (hst.views.fromHere ▸ ht'), hst'⟩

theorem declareAll_sameCells : ∀ {p : Program} {s s' t : Checker}, (∀ x ∈ p, x.Written) →
    (∀ c, .cell c ∈ p → c.isGeneric = false) → p.forM declareNext s = .ok () s' → s'.diagnostics = [] → SameCells s t →
      ∃ t', p.forM declareNext t = .ok () t' ∧ SameCells s' t'
  | [], s, s', t, _, _, h, _, hst => by
    obtain ⟨-, rfl⟩ := pure_ok.1 h
    exact ⟨t, rfl, hst⟩
  | x :: p, s, s', t, hp, hc, h, hclean, hst => by
    obtain ⟨hx, hp⟩ := List.forall_mem_cons.1 hp
    obtain ⟨u, hu, h⟩ := forM_cons_ok.1 h
    obtain ⟨v, hv, huv⟩ := declareNext_sameCells (fun c he => hc c (he ▸ List.mem_cons_self ..)) hu
      (declareAll_start hp h hclean) hst
    obtain ⟨t', ht', hst'⟩ := declareAll_sameCells hp (fun c hm => hc c (List.mem_cons_of_mem _ hm)) h hclean huv
    exact ⟨t', forM_cons_ok.2 ⟨v, hv, ht'⟩, hst'⟩

/-- **What is declared does not depend on the order**: where one goes well so does the other, and they end in the same
state, but for how the cells are kept. -/
theorem declareAll_reordered {p q : Program} (h : Program.Reordered p q) : (∀ x ∈ p, x.Written) →
    (∀ c, .cell c ∈ p → c.isGeneric = false) → ∀ {s s' t : Checker}, p.forM declareNext s = .ok () s' →
      s'.diagnostics = [] → SameCells s t → ∃ t', q.forM declareNext t = .ok () t' ∧ SameCells s' t' := by
  induction h with
  | refl p => exact fun hp hc _ _ _ h hclean hst => declareAll_sameCells hp hc h hclean hst
  | cons x _ ih =>
    intro hp hc s s' t h hclean hst
    obtain ⟨hx, hp⟩ := List.forall_mem_cons.1 hp
    obtain ⟨u, hu, h⟩ := forM_cons_ok.1 h
    obtain ⟨v, hv, huv⟩ := declareNext_sameCells (fun c he => hc c (he ▸ List.mem_cons_self ..)) hu
      (declareAll_start hp h hclean) hst
    obtain ⟨t', ht', hst'⟩ := ih hp (fun c hm => hc c (List.mem_cons_of_mem _ hm)) h hclean huv
    exact ⟨t', forM_cons_ok.2 ⟨v, hv, ht'⟩, hst'⟩
  | @swap x y p hex =>
    intro hp hc s s' t h hclean hst
    obtain ⟨hx, hp⟩ := List.forall_mem_cons.1 hp
    obtain ⟨hy, hp⟩ := List.forall_mem_cons.1 hp
    obtain ⟨u, hu, h⟩ := forM_cons_ok.1 h
    obtain ⟨v, hv, h⟩ := forM_cons_ok.1 h
    have hvclean := declareAll_start hp h hclean
    have hxc : ∀ c, x = .cell c → c.isGeneric = false := fun c he => hc c (he ▸ List.mem_cons_self ..)
    have hyc : ∀ c, y = .cell c → c.isGeneric = false := fun c he =>
      hc c (List.mem_cons_of_mem _ (he ▸ List.mem_cons_self ..))
    have hu := declareNext_clean hu (declareNext_start hy hv hvclean)
    have hv := declareNext_clean hv hvclean
    rw [(declare_views hxc hex.noAlias.1 hx hu).fromHere] at hv
    obtain ⟨w, z, hw, hz, hvz⟩ := declare_swap hex hxc hyc hx hy hu hv hst
    have hw : declare (fromHere t) y t = .ok () w := hst.views.fromHere ▸ hw
    have hz : declare (fromHere w) x w = .ok () z :=
      (declare_views hyc hex.noAlias.2 hy hw).fromHere.trans hst.views.fromHere ▸ hz
    obtain ⟨t', ht', hst'⟩ := declareAll_sameCells hp
      (fun c hm => hc c (List.mem_cons_of_mem _ (List.mem_cons_of_mem _ hm))) h hclean hvz
    exact ⟨t', forM_cons_ok.2 ⟨w, declareNext_of_ok hw, forM_cons_ok.2 ⟨z, declareNext_of_ok hz, ht'⟩⟩, hst'⟩
  | trans hpq _ ih ih' =>
    intro hp hc s s' t h hclean hst
    obtain ⟨t', ht', hst'⟩ := ih hp hc h hclean ⟨rfl, fun _ => rfl⟩
    have hclean' : t'.diagnostics = [] := by
      rw [hst'.rest]
      exact hclean
    obtain ⟨u', hu', htu⟩ := ih' (fun x hx => hp x (hpq.perm.mem_iff.2 hx)) (fun c hm => hc c (hpq.perm.mem_iff.2 hm)) ht'
      hclean' hst
    exact ⟨u', hu', hst'.trans htu⟩

end Check

end Unroll
