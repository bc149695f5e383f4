import Mathlib.Logic.Relation
import Unroll.Proofs.Check.Instances
/-!
# What a check leaves as it was

A check only adds to what has been declared, and it ends at the place that it began at: an expression exactly there, a
statement with more names in the innermost scope, a block with none.  Errors that a cell recovers from leave a
diagnostic behind for good, so all of this is said of checks after which there is none.
-/
namespace Unroll
namespace Checker

/-- No number that is still to come has been given to a record. -/
def Fresh (s : Checker) : Prop := ∀ base k, s.recordCount < k → s.records.find? (localName base k) = none

/-- The same template, further elaborated at most. -/
structure SameHeader (g g' : GenericInfo) : Prop where
  level : g'.params = g.params
  name : g'.cell.name = g.cell.name
  params : g'.cell.params = g.cell.params
  args : g'.cell.args = g.cell.args
  ret : g'.cell.ret = g.cell.ret

/-- The same templates. -/
structure SameTemplates (gs gs' : Table GenericInfo) : Prop where
  nil : gs' = [] ↔ gs = []
  header : ∀ {n g'}, gs'.find? n = some g' → ∃ g, gs.find? n = some g ∧ SameHeader g g'

namespace SameTemplates

theorem refl (gs : Table GenericInfo) : SameTemplates gs gs := ⟨.rfl, fun h => ⟨_, h, rfl, rfl, rfl, rfl, rfl⟩⟩

theorem trans {gs hs ks : Table GenericInfo} (h : SameTemplates gs hs) (h' : SameTemplates hs ks) :
    SameTemplates gs ks where
  nil := h'.nil.trans h.nil
  header := fun hk => by
    obtain ⟨g', hg', e'⟩ := h'.header hk
    obtain ⟨g, hg, e⟩ := h.header hg'
    exact ⟨g, hg, e'.level.trans e.level, e'.name.trans e.name, e'.params.trans e.params, e'.args.trans e.args,
      e'.ret.trans e.ret⟩

end SameTemplates

/-- **The second state knows what the first one knows.**  Records keep their fields and cells their signatures, and a
cell that is new is an instance. -/
structure Extends (s t : Checker) : Prop where
  config : t.config = s.config
  traits : t.traits = s.traits
  aliases : t.aliases = s.aliases
  fresh : s.Fresh → t.Fresh
  records : s.Fresh → ∀ {n r}, s.records.find? n = some r → t.records.find? n = some r
  instances : s.instances <:+ t.instances
  made : ∀ {n}, s.cells.find? n = none → t.cells.find? n ≠ none → ∃ c ∈ t.instances, c.name.name = n
  kept : ∀ {n sig}, s.cells.find? n = some sig → t.cells.find? n = some sig
  generics : SameTemplates s.generics t.generics
  concrete : s.generics = [] → t.instances = s.instances

namespace Extends

/-- States that differ in nothing that is declared. -/
theorem of_same {s t : Checker} (hc : t.config = s.config) (ht : t.traits = s.traits) (ha : t.aliases = s.aliases)
    (hr : t.records = s.records) (hn : t.recordCount = s.recordCount) (hi : t.instances = s.instances)
    (hcells : t.cells = s.cells) (hg : SameTemplates s.generics t.generics) : Extends s t where
  config := hc
  traits := ht
  aliases := ha
  fresh := fun h base k hk => by
    rw [hr]
    rw [hn] at hk
    exact h base k hk
  records := fun _ {n r} h => by
    rw [hr]
    exact h
  instances := hi ▸ List.suffix_refl _
  made := fun {n} h h' => by
    rw [hcells] at h'
    exact absurd h h'
  kept := fun {n sig} h => by
    rw [hcells]
    exact h
  generics := hg
  concrete := fun _ => hi

theorem refl (s : Checker) : Extends s s := of_same rfl rfl rfl rfl rfl rfl rfl (.refl _)

theorem trans {s t u : Checker} (h : Extends s t) (h' : Extends t u) : Extends s u where
  config := h'.config.trans h.config
  traits := h'.traits.trans h.traits
  aliases := h'.aliases.trans h.aliases
  fresh := fun hs => h'.fresh (h.fresh hs)
  records := fun hs _ _ hr => h'.records (h.fresh hs) (h.records hs hr)
  instances := h.instances.trans h'.instances
  made := fun {n} hs hu => by
    cases ht : t.cells.find? n with
    | none => exact h'.made ht hu
    | some sig =>
      obtain ⟨c, hc, hn⟩ := h.made hs (by simp [ht])
      exact ⟨c, h'.instances.subset hc, hn⟩
  kept := fun hs => h'.kept (h.kept hs)
  generics := h.generics.trans h'.generics
  concrete := fun hs => (h'.concrete (h.generics.nil.2 hs)).trans (h.concrete hs)

end Extends

/-- The second state knows what the first one knows, and the instances made in between are accounted for. -/
structure Follows (s t : Checker) : Prop extends Extends s t, Counted s t

namespace Follows

theorem refl (s : Checker) : Follows s s := ⟨.refl s, .refl s⟩

theorem trans {s t u : Checker} (h : Follows s t) (h' : Follows t u) : Follows s u :=
  ⟨h.toExtends.trans h'.toExtends, h.toCounted.trans h'.toCounted⟩

end Follows

/-- **A check went on from the first state to the second**: where the second has no diagnostic, the first had none, and
everything the first knew is still known. -/
def Onward (s t : Checker) : Prop := t.diagnostics = [] → s.diagnostics = [] ∧ s.Follows t

namespace Onward

theorem refl (s : Checker) : Onward s s := fun h => ⟨h, .refl s⟩

theorem trans {s t u : Checker} (h : Onward s t) (h' : Onward t u) : Onward s u := by
  intro hu
  obtain ⟨ht, htu⟩ := h' hu
  obtain ⟨hs, hst⟩ := h ht
  exact ⟨hs, hst.trans htu⟩

/-- Nothing is said of a check that has reported something. -/
theorem of_reported {s t : Checker} (h : t.diagnostics ≠ []) : Onward s t := fun ht => absurd ht h

theorem of_follows {s t : Checker} (hd : t.diagnostics = s.diagnostics) (he : s.Extends t) (hc : s.Counted t) :
    Onward s t :=
  fun ht => ⟨hd ▸ ht, he, hc⟩

theorem onPlace (s : Checker) (f : Place → Place) : Onward s (s.onPlace f) :=
  of_follows rfl (.of_same rfl rfl rfl rfl rfl rfl rfl (.refl _)) (.of_same rfl rfl rfl (fun _ => rfl) fun _ h => h)

theorem frames (s : Checker) (fr : Frames) : Onward s { s with frames := fr } :=
  of_follows rfl (.of_same rfl rfl rfl rfl rfl rfl rfl (.refl _)) (.of_same rfl rfl rfl (fun _ => rfl) fun _ h => h)

/-- What is broadcast on the way is no cell. -/
theorem events (s : Checker) {news : List Event} (h : ∀ e ∈ news, e.kind ≠ .cell) :
    Onward s { s with events := news ++ s.events } := by
  have hnews : news.filter (·.kind = .cell) = [] := by simpa [List.filter_eq_nil_iff] using h
  refine of_follows rfl (.of_same rfl rfl rfl rfl rfl rfl rfl (.refl _)) (.of_same rfl rfl ?_ (fun _ => rfl) fun _ h => h)
  show ((news ++ s.events).filter (·.kind = .cell)).map (·.name) = _
  rw [List.filter_append, hnews]
  rfl

end Onward

end Checker

namespace Place

/-- **The second place differs from the first in its innermost scopes alone**, and in what the copy around it has
introduced. -/
structure Within (p q : Place) : Prop where
  values : q.values.length = p.values.length ∧ q.values.tail = p.values.tail
  types : q.types.length = p.types.length ∧ q.types.tail = p.types.tail
  templates : q.templates = p.templates
  loopDepth : q.loopDepth = p.loopDepth
  rets : q.rets = p.rets
  cell : q.cell = p.cell
  locals : q.locals.map (·.mark) = p.locals.map (·.mark) ∧ q.locals.tail = p.locals.tail

namespace Within

theorem refl (p : Place) : Within p p := ⟨⟨rfl, rfl⟩, ⟨rfl, rfl⟩, rfl, rfl, rfl, rfl, rfl, rfl⟩

theorem trans {p q r : Place} (h : Within p q) (h' : Within q r) : Within p r where
  values := ⟨h'.values.1.trans h.values.1, h'.values.2.trans h.values.2⟩
  types := ⟨h'.types.1.trans h.types.1, h'.types.2.trans h.types.2⟩
  templates := h'.templates.trans h.templates
  loopDepth := h'.loopDepth.trans h.loopDepth
  rets := h'.rets.trans h.rets
  cell := h'.cell.trans h.cell
  locals := ⟨h'.locals.1.trans h.locals.1, h'.locals.2.trans h.locals.2⟩

theorem recordLocal (p : Place) (name : String) : Within p (p.recordLocal name) := by
  unfold Place.recordLocal
  cases hl : p.locals with
  | nil => exact refl p
  | cons l ls => exact ⟨⟨rfl, rfl⟩, ⟨rfl, rfl⟩, rfl, rfl, rfl, rfl, by simp [hl]⟩

end Within

/-- **A place that is left again**: only what the copy around it has introduced may differ. -/
def Left (p q : Place) : Prop := Within p q ∧ q.values = p.values ∧ q.types = p.types

namespace Left

theorem refl (p : Place) : Left p p := ⟨.refl p, rfl, rfl⟩

theorem trans {p q r : Place} (h : Left p q) (h' : Left q r) : Left p r :=
  ⟨h.1.trans h'.1, h'.2.1.trans h.2.1, h'.2.2.trans h.2.2⟩

end Left

theorem cut_same {α : Type} (l : List α) : cut l l.length = l := by simp [cut]

theorem cut_tail {α : Type} {l t : List α} (hl : l.length = t.length + 1) (ht : l.tail = t) : cut l t.length = t := by
  cases l with
  | nil => simp at hl
  | cons a r => simp_all [cut]

/-- **Scopes that were entered are left by cutting back.** -/
theorem restore_left {p q : Place} (hv : q.values.length = p.values.length + 1 ∧ q.values.tail = p.values)
    (ht : q.types.length = p.types.length + 1 ∧ q.types.tail = p.types)
    (htm : cut q.templates p.templates.length = p.templates) (hr : q.rets = p.rets) (hc : q.cell = p.cell)
    (hl : q.locals.map (·.mark) = p.locals.map (·.mark) ∧ q.locals.tail = p.locals.tail) :
    Left p (q.restore p.mark) := by
  have hv' : (q.restore p.mark).values = p.values := cut_tail hv.1 hv.2
  have ht' : (q.restore p.mark).types = p.types := cut_tail ht.1 ht.2
  exact ⟨⟨by simp [hv'], by simp [ht'], htm, rfl, hr, hc, hl⟩, hv', ht'⟩

theorem restore_pushScope {p q : Place} (h : Within p.pushScope q) : Left p (q.restore p.mark) := by
  refine restore_left ?_ ?_ ?_ h.rets h.cell h.locals
  · exact ⟨h.values.1, h.values.2⟩
  · exact ⟨h.types.1, h.types.2⟩
  · rw [h.templates]
    exact cut_same p.templates

theorem restore_enterLoop {p q : Place} (h : Left p.enterLoop q) : Left p (q.restore p.mark) := by
  obtain ⟨hw, hv, ht⟩ := h
  have hv' : (q.restore p.mark).values = p.values := by
    show cut q.values p.values.length = _
    rw [hv]
    exact cut_same _
  have ht' : (q.restore p.mark).types = p.types := by
    show cut q.types p.types.length = _
    rw [ht]
    exact cut_same _
  have htm : (q.restore p.mark).templates = p.templates := by
    show cut q.templates p.templates.length = _
    rw [hw.templates]
    exact cut_same _
  exact ⟨⟨by simp [hv'], by simp [ht'], htm, rfl, hw.rets, hw.cell, hw.locals⟩, hv', ht'⟩

theorem exitLocal_left {p q : Place} (h : Within p.enterLocal.enterLoop q) : Left p q.exitLocal := by
  obtain ⟨hmarks, htail⟩ := h.locals
  cases hq : q.locals with
  | nil =>
    rw [hq] at hmarks
    simp [enterLoop, enterLocal] at hmarks
  | cons l ls =>
    rw [hq] at hmarks htail
    simp only [enterLoop, enterLocal, List.map_cons, List.cons.injEq, List.tail_cons] at hmarks htail
    obtain ⟨hmark, -⟩ := hmarks
    have hout : q.exitLocal = { q.restore p.mark with locals := ls } := by
      simp only [exitLocal, hq, hmark]
    rw [hout]
    obtain ⟨hw, hv, ht⟩ := restore_left (p := p) (q := { q with locals := ls }) h.values h.types
      (by rw [h.templates]; exact cut_same p.templates) h.rets h.cell (by simp [htail, pushScope])
    exact ⟨hw, hv, ht⟩

end Place

namespace Check

open CheckM Outcome Checker Relation

/-- A check that ends exactly where it began. -/
def Steady (s t : Checker) : Prop := Onward s t ∧ t.place = s.place

/-- A check that may have declared names in the innermost scope. -/
def Moves (s t : Checker) : Prop := Onward s t ∧ s.place.Within t.place

/-- A check that left every scope it entered. -/
def Leaves (s t : Checker) : Prop := Onward s t ∧ s.place.Left t.place

namespace Steady

variable {s t u : Checker}

theorem refl (s : Checker) : Steady s s := ⟨.refl s, rfl⟩

theorem trans (h : Steady s t) (h' : Steady t u) : Steady s u := ⟨h.1.trans h'.1, h'.2.trans h.2⟩

theorem moves (h : Steady s t) : Moves s t := ⟨h.1, h.2 ▸ .refl _⟩

theorem leaves (h : Steady s t) : Leaves s t := ⟨h.1, h.2 ▸ .refl _⟩

end Steady

namespace Moves

variable {s t u : Checker}

theorem refl (s : Checker) : Moves s s := ⟨.refl s, .refl _⟩

theorem trans (h : Moves s t) (h' : Moves t u) : Moves s u := ⟨h.1.trans h'.1, h.2.trans h'.2⟩

end Moves

namespace Leaves

variable {s t u : Checker}

theorem refl (s : Checker) : Leaves s s := ⟨.refl s, .refl _⟩

theorem trans (h : Leaves s t) (h' : Leaves t u) : Leaves s u := ⟨h.1.trans h'.1, h.2.trans h'.2⟩

theorem moves (h : Leaves s t) : Moves s t := ⟨h.1, h.2.1⟩

end Leaves

/-! ## Written types -/

/-- **What is one level down keeps to this, too.** -/
structure Deeper.Orderly (deeper : Deeper) : Prop where
  typeRef : ∀ {w s t s'}, deeper.typeRef w s = .ok t s' → s = s'
  stmt : ∀ {x s r s'}, deeper.stmt x s = .ok r s' → Moves s s'

variable {deeper : Deeper} {s s' : Checker}

theorem pop_push {fr fr' : Frames} {f : Frame} (h : fr.push f = .ok fr') : fr'.pop.2 = fr := by
  unfold Frames.push at h
  split at h
  · cases h
    rfl
  · cases h

theorem instantiateAlias_same (hd : deeper.Orderly) {id : Ident} {args : List TemplateArg} {t : Ty}
    (h : instantiateAlias deeper id args s = .ok t s') : s = s' := by
  obtain ⟨_, _, _, fr, u, -, -, hf, hx, rfl⟩ := instantiateAlias_ok h
  obtain rfl := hd.typeRef hx
  rw [pop_push hf]

mutual

theorem typeRef_same (hd : deeper.Orderly) : ∀ {w : TypeRef} {s s' : Checker} {t : Ty},
    typeRef deeper w s = .ok t s' → s = s'
  | .array _ elem len, s, s', t, h => by
    simp only [typeRef, bind_ok] at h
    obtain ⟨_, u, he, hl⟩ := h
    obtain rfl := typeRef_same hd he
    exact (length_ok hl).1
  | .named _ id args, s, s', t, h => by
    obtain ⟨_, -, ⟨_, -, -, hs⟩ | ⟨_, u, _, -, -, has, ⟨_, -, hi⟩ | ⟨-, -, rfl⟩⟩⟩ := typeRef_named_ok h
    · exact hs
    · obtain rfl := argsFor_same hd has
      exact instantiateAlias_same hd hi
    · exact argsFor_same hd has
termination_by structural w => w

theorem argsFor_same (hd : deeper.Orderly) : ∀ {as : List TypeArg} {ps : List ParamDecl} {s s' : Checker}
    {r : List (Option TemplateArg)}, argsFor deeper ps as s = .ok r s' → s = s'
  | [], ps, s, s', r, h => by
    cases ps <;> simp only [argsFor, pure_ok] at h <;> exact h.2
  | a :: as, [], s, s', r, h => by
    simp only [argsFor, pure_ok] at h
    exact h.2
  | a :: as, p :: ps, s, s', r, h => by
    simp only [argsFor, bind_ok, pure_ok] at h
    obtain ⟨_, u, ha, _, _, has, -, rfl⟩ := h
    obtain rfl := argFor_same hd ha
    exact argsFor_same hd has
termination_by structural as => as

theorem argFor_same (hd : deeper.Orderly) : ∀ {a : TypeArg} {p : ParamDecl} {s s' : Checker}
    {r : Option TemplateArg}, argFor deeper p a s = .ok r s' → s = s'
  | .value e, ⟨_, .type _⟩, s, s', r, h => by
    simp only [argFor] at h
    exact absurd h fail_ok
  | .value e, ⟨_, .const⟩, s, s', r, h => by
    simp only [argFor] at h
    exact (valueArg_ok h).1
  | .type t, ⟨_, .type _⟩, s, s', r, h => by
    simp only [argFor, bind_ok, pure_ok] at h
    obtain ⟨_, _, ht, -, rfl⟩ := h
    exact typeRef_same hd ht
  | .type t, ⟨_, .const⟩, s, s', r, h => by
    obtain ⟨_, _, -, hv⟩ := argFor_const_ok h
    exact (valueArg_ok hv).1
termination_by structural a => a

end

theorem templateArgs_same (hd : deeper.Orderly) {o : String} {ps : ParamLevel} {as : List TypeArg}
    {full : Option (List TemplateArg)} (h : templateArgs deeper o ps as s = .ok full s') : s = s' := by
  obtain ⟨_, hg, -⟩ := templateArgs_ok h
  exact argsFor_same hd hg

theorem declared_same (hd : deeper.Orderly) {t : Option TypeRef} {r : Option Ty}
    (h : t.mapM (typeRef deeper) s = .ok r s') : s = s' := by
  obtain ⟨-, -, rfl⟩ | ⟨w, ty, -, -, hty⟩ := declared_ok h
  · rfl
  · exact typeRef_same hd hty

/-- The field is what its declaration says. -/
def FieldFor (deeper : Deeper) (s : Checker) (f : RecordField) (i : FieldInfo) : Prop :=
  i.name = f.name.name ∧ i.hidden = f.hidden ∧ typeRef deeper f.type s = .ok i.type s

/-- **The fields of a record**, in the order in which they are declared; no two have one name. -/
theorem recordFields_ok (hd : deeper.Orderly) {id : Ident} : ∀ {fs : List RecordField} {seen : List String}
    {s s' : Checker} {is : List FieldInfo}, recordFields deeper id seen fs s = .ok is s' →
      s = s' ∧ List.Forall₂ (FieldFor deeper s) fs is ∧ (is.map (·.name)).Nodup ∧ ∀ i ∈ is, i.name ∉ seen
  | [], seen, s, s', is, h => by
    simp only [recordFields, pure_ok] at h
    obtain ⟨rfl, rfl⟩ := h
    exact ⟨rfl, .nil, .nil, by simp⟩
  | f :: fs, seen, s, s', is, h => by
    simp only [recordFields] at h
    split at h
    · simp only [bind_ok] at h
      obtain ⟨_, _, h, -⟩ := h
      exact absurd h fail_ok
    · rename_i hseen
      simp only [bind_ok, pure_ok] at h
      obtain ⟨t, u, ht, is', v, his, rfl, rfl⟩ := h
      obtain rfl := typeRef_same hd ht
      obtain ⟨rfl, hall, hnodup, hnew⟩ := recordFields_ok hd his
      refine ⟨rfl, .cons ⟨rfl, rfl, ht⟩ hall, ?_, ?_⟩
      · simp only [List.map_cons, List.nodup_cons, List.mem_map, not_exists, not_and]
        refine ⟨fun i hi hn => ?_, hnodup⟩
        exact hnew i hi (by simp [hn])
      · intro i hi
        rcases List.mem_cons.1 hi with rfl | hi
        · simpa using hseen
        · exact fun hm => hnew i hi (List.mem_cons_of_mem _ hm)

/-- The parameter is what its declaration says. -/
def ParamFor (deeper : Deeper) (s : Checker) (a : Param) (p : CellParam) : Prop :=
  p.name = a.name.name ∧ p.mutable = a.mutable ∧ typeRef deeper a.type s = .ok p.type s

theorem params_ok (hd : deeper.Orderly) : ∀ {as : List Param} {s s' : Checker} {ps : List CellParam},
    (as.mapM fun (p : Param) => do return (⟨p.name.name, ← typeRef deeper p.type, p.mutable⟩ : CellParam)) s = .ok ps s' →
      s = s' ∧ List.Forall₂ (ParamFor deeper s) as ps
  | [], s, s', ps, h => by
    simp only [List.mapM_nil, pure_ok] at h
    obtain ⟨rfl, rfl⟩ := h
    exact ⟨rfl, .nil⟩
  | a :: as, s, s', ps, h => by
    simp only [List.mapM_cons, bind_ok, pure_ok] at h
    obtain ⟨p, u, ⟨t, _, ht, rfl, rfl⟩, ps', v, hps, rfl, rfl⟩ := h
    obtain rfl := typeRef_same hd ht
    obtain ⟨rfl, hall⟩ := params_ok hd hps
    exact ⟨rfl, .cons ⟨rfl, rfl, ht⟩ hall⟩

/-- **A signature** is read off the written types alone. -/
theorem signature_ok (hd : deeper.Orderly) {c : CellDef} {sig : CellSig} (h : signature deeper c s = .ok sig s') :
    s = s' ∧ List.Forall₂ (ParamFor deeper s) c.args sig.params ∧
      (c.ret = none ∧ sig.ret = .unit ∨ ∃ w, c.ret = some w ∧ typeRef deeper w s = .ok sig.ret s) := by
  simp only [signature, bind_ok] at h
  obtain ⟨ps, u, hps, h⟩ := h
  obtain ⟨rfl, hall⟩ := params_ok hd hps
  cases hr : c.ret with
  | none =>
    simp only [hr, pure_ok] at h
    obtain ⟨rfl, rfl⟩ := h
    exact ⟨rfl, hall, .inl ⟨rfl, rfl⟩⟩
  | some w =>
    simp only [hr, bind_ok, pure_ok] at h
    obtain ⟨t, _, ht, rfl, rfl⟩ := h
    obtain rfl := typeRef_same hd ht
    exact ⟨rfl, hall, .inr ⟨w, rfl, ht⟩⟩

/-! ## Declarations -/

theorem defineVal_moves {id : Ident} {t : Ty} {m : Bool} {u : Unit} (h : defineVal id t m s = .ok u s') :
    Moves s s' := by
  obtain ⟨scope, rest, hv, -, -, rfl⟩ := defineVal_ok h
  refine ⟨.onPlace s _, ?_⟩
  refine Place.Within.trans ?_ (.recordLocal _ _)
  exact ⟨by simp [hv], ⟨rfl, rfl⟩, rfl, rfl, rfl, rfl, ⟨rfl, rfl⟩⟩

/-- The state that knows one more record. -/
theorem extends_addRecord (s : Checker) (base : String) (fs : List FieldInfo) :
    s.Extends (({ s with recordCount := s.recordCount + 1 } : Checker).addRecord
      (localName base (s.recordCount + 1)) fs) where
  config := rfl
  traits := rfl
  aliases := rfl
  fresh := fun h b k hk => by
    simp only [addRecord] at hk ⊢
    rw [Table.find?_insert]
    split
    · rename_i hn
      have := localName_number hn
      omega
    · exact h b k (by omega)
  records := fun h {n r} hr => by
    simp only [addRecord]
    rw [Table.find?_insert]
    split
    · rename_i hn
      subst hn
      rw [h base (s.recordCount + 1) (by omega)] at hr
      cases hr
    · exact hr
  instances := List.suffix_refl _
  made := fun h h' => absurd h h'
  kept := fun h => h
  generics := .refl _
  concrete := fun _ => rfl

theorem defineRecord_moves (hd : deeper.Orderly) {id : Ident} {fs : List RecordField} {t : Ty}
    (h : defineRecord deeper id fs s = .ok t s') : Moves s s' := by
  obtain ⟨is, u, canonical, hfs, -, -, hc, -, hs⟩ := defineRecord_ok h
  obtain ⟨rfl, -⟩ := recordFields_ok hd hfs
  constructor
  · have hadd := Onward.of_follows (by rfl) (extends_addRecord s id.name is)
      (.of_same rfl rfl rfl (fun _ => rfl) fun _ h => h)
    rw [hs, hc]
    exact (hadd.trans (.onPlace _ _)).trans (.events _ (List.forall_mem_singleton.2 (by simp)))
  · rw [hs]
    refine Place.Within.trans ?_ (.recordLocal _ _)
    refine ⟨⟨rfl, rfl⟩, ?_, rfl, rfl, rfl, rfl, ⟨rfl, rfl⟩⟩
    show _ ∧ _
    cases hty : s.place.types with
    | nil => simp [addRecord, hty]
    | cons scope outer => simp [addRecord, hty]

/-! ## Cells -/

theorem defineParams_moves : ∀ {ps : List CellParam} {as : List Param} {s s' : Checker} {u : Unit},
    defineParams ps as s = .ok u s' → Moves s s'
  | [], as, s, s', u, h => by
    simp only [defineParams, pure_ok] at h
    exact h.2 ▸ .refl s
  | p :: ps, [], s, s', u, h => by
    simp only [defineParams, pure_ok] at h
    exact h.2 ▸ .refl s
  | p :: ps, a :: as, s, s', u, h => by
    simp only [defineParams, bind_ok] at h
    obtain ⟨_, t, hv, hps⟩ := h
    exact (defineVal_moves hv).trans (defineParams_moves hps)

theorem cellStmts_onward (hd : deeper.Orderly) : ∀ {xs : List Stmt} {s s' : Checker} {r : List Stmt},
    cellStmts deeper xs s = .ok r s' → Onward s s'
  | [], s, s', r, h => by
    simp only [cellStmts, pure_ok] at h
    exact h.2 ▸ .refl s
  | x :: xs, s, s', r, h => by
    obtain ⟨x', t, rest, hx, hxs, -⟩ | ⟨t, rest, ht, hxs⟩ := cellStmts_cons_ok h
    · exact (hd.stmt hx).1.trans (cellStmts_onward hd hxs)
    · exact (Onward.of_reported ht).trans (cellStmts_onward hd hxs)

theorem cellBody_onward (hd : deeper.Orderly) {c r : CellDef} {sig : CellSig}
    (h : cellBody deeper c sig s = .ok r s') : Onward s s' := by
  obtain ⟨t, ss, hp, hss, -⟩ := cellBody_ok h
  exact (((Onward.onPlace s _).trans (defineParams_moves hp).1).trans (.onPlace t _)).trans (cellStmts_onward hd hss)

theorem generics_ne {t : Checker} {name : String} {g : GenericInfo} (h : t.generics.find? name = some g) :
    t.generics ≠ [] := by
  intro hn
  rw [hn] at h
  cases h

theorem modifyGeneric_extends {s : Checker} {name : String} {f : GenericInfo → GenericInfo}
    (hf : ∀ g, s.generics.find? name = some g → SameHeader g (f g)) : s.Extends (modifyGeneric name f s) := by
  unfold modifyGeneric
  cases hg : s.generics.find? name with
  | none => exact .refl s
  | some g =>
    refine .of_same rfl rfl rfl rfl rfl rfl rfl ⟨⟨fun hn => ?_, fun hn => absurd hn (generics_ne hg)⟩,
      fun {n g'} hg' => ?_⟩
    · simp [Table.insert] at hn
    · simp only [Table.find?_insert] at hg'
      split at hg'
      · rename_i hn
        cases hg'
        exact ⟨g, hn ▸ hg, hf g hg⟩
      · exact ⟨g', hg', rfl, rfl, rfl, rfl, rfl⟩

theorem modifyGeneric_config (name : String) (f : GenericInfo → GenericInfo) (s : Checker) :
    (modifyGeneric name f s).config = s.config := by
  unfold modifyGeneric
  split <;> rfl

theorem modifyGeneric_place (s : Checker) (name : String) (f : GenericInfo → GenericInfo) :
    (modifyGeneric name f s).place = s.place := by
  unfold modifyGeneric
  split <;> rfl

/-- The header of a cell is left as it is. -/
theorem cellBody_header {c r : CellDef} {sig : CellSig} (h : cellBody deeper c sig s = .ok r s') :
    r.name = c.name ∧ r.params = c.params ∧ r.args = c.args ∧ r.ret = c.ret := by
  obtain ⟨t, ss, -, -, rfl⟩ := cellBody_ok h
  exact ⟨rfl, rfl, rfl, rfl⟩

theorem modifyGeneric_find {t : Checker} {name n : String} {f : GenericInfo → GenericInfo} {g' : GenericInfo}
    (h : (modifyGeneric name f t).generics.find? n = some g') :
    ∃ g, t.generics.find? n = some g ∧ (g' = g ∨ n = name ∧ g' = f g) := by
  unfold modifyGeneric at h
  cases hg : t.generics.find? name with
  | none =>
    rw [hg] at h
    exact ⟨g', h, .inl rfl⟩
  | some g =>
    rw [hg] at h
    simp only [Table.find?_insert] at h
    split at h
    · rename_i hn
      cases h
      exact ⟨g, hn ▸ hg, .inr ⟨hn, rfl⟩⟩
    · exact ⟨g', h, .inl rfl⟩

theorem modifyGeneric_diagnostics (s : Checker) (name : String) (f : GenericInfo → GenericInfo) :
    (modifyGeneric name f s).diagnostics = s.diagnostics := by
  unfold modifyGeneric
  split <;> rfl

/-- **A template that has been checked is the same template**, with an elaborated body. -/
theorem elaborated_onward (hd : deeper.Orderly) {name : String} {g : GenericInfo} {sig : CellSig} {c : CellDef}
    {s t : Checker} (hg : s.generics.find? name = some g)
    (hc : cellBody deeper g.cell sig (underWay name g s) = .ok c t) : Onward t (elaborated name c s t) := by
  intro hdone
  have hclean : t.diagnostics = [] := by
    unfold elaborated at hdone
    rwa [modifyGeneric_diagnostics, modifyGeneric_diagnostics] at hdone
  have hbody := (cellBody_onward hd hc hclean).2
  have hsame : ∀ g', t.generics.find? name = some g' → SameHeader g g' := by
    intro g' hg'
    obtain ⟨g₀, hg₀, hh⟩ := hbody.generics.header hg'
    rw [show (underWay name g s).generics = s.generics from rfl, hg] at hg₀
    cases hg₀
    exact hh
  have hfound : t.generics.contains name = true := by
    rw [hbody.templates]
    exact Option.isSome_iff_exists.2 ⟨g, hg⟩
  obtain ⟨hn, hp, ha, hr⟩ := cellBody_header hc
  refine ⟨hclean, ?_, .elaborated hfound⟩
  refine Extends.trans (t := modifyGeneric name (fun g => { g with elaborated := true })
    { t.onPlace (fun _ => s.place) with elaborating := t.elaborating.erase name }) ?_
    (modifyGeneric_extends fun g' hg' => ?_)
  · refine Extends.trans ?_ (modifyGeneric_extends fun g' hg' => ⟨rfl, rfl, rfl, rfl, rfl⟩)
    exact .of_same rfl rfl rfl rfl rfl rfl rfl (.refl _)
  · obtain ⟨g₀, hg₀, hsame'⟩ := modifyGeneric_find hg'
    have hh := hsame g₀ hg₀
    rcases hsame' with rfl | ⟨-, rfl⟩
    · exact ⟨rfl, hn.trans hh.name.symm, hp.trans hh.params.symm, ha.trans hh.args.symm, hr.trans hh.ret.symm⟩
    · exact ⟨rfl, hn.trans hh.name.symm, hp.trans hh.params.symm, ha.trans hh.args.symm, hr.trans hh.ret.symm⟩

theorem underWay_onward (name : String) (g : GenericInfo) (s : Checker) : Onward s (underWay name g s) :=
  .of_follows rfl (.of_same rfl rfl rfl rfl rfl rfl rfl (.refl _)) (.underWay name g s)

theorem elaborateTemplate_steady (hd : deeper.Orderly) {name : String} {u : Unit}
    (h : elaborateTemplate deeper name s = .ok u s') : Steady s s' := by
  obtain rfl | ⟨g, sig, t, c, t', hg, -, hsig, hc, rfl⟩ := elaborateTemplate_ok h
  · exact .refl s
  · obtain ⟨rfl, -⟩ := signature_ok hd hsig
    refine ⟨((underWay_onward name g s).trans (cellBody_onward hd hc)).trans (elaborated_onward hd hg hc), ?_⟩
    unfold elaborated
    rw [modifyGeneric_place, modifyGeneric_place]
    rfl

/-- **A template that is checked costs each of its instances a chance.** -/
theorem elaborateTemplate_paid (hd : deeper.Orderly) {name : String} {u : Unit}
    (h : elaborateTemplate deeper name s = .ok u s') (hdone : s'.diagnostics = []) : s' = s ∨ (s.Unmangled →
      ∀ n, baseName n = name → s'.made.count n + s'.chances n + 1 ≤ s.made.count n + s.chances n) := by
  obtain rfl | ⟨g, sig, t, c, t', hg, hnew, hsig, hc, rfl⟩ := elaborateTemplate_ok h
  · exact .inl rfl
  obtain ⟨rfl, -⟩ := signature_ok hd hsig
  have hon := (cellBody_onward hd hc).trans (elaborated_onward hd hg hc)
  refine .inr fun hclear n hn => ?_
  have hfresh : s.started name = false := by
    unfold Checker.started
    rw [hg, Bool.or_comm]
    exact hnew
  have hpaid := Counted.chances_underWay (g := g) hfresh hn
  have hafter := (hon hdone).2.once (hclear.counted (.underWay name g s)) n
  rw [show (underWay name g s).made = s.made from rfl] at hafter
  omega

/-- The name of a cell is kept by substitution as it is given, and by the check as it is. -/
theorem instance_name {template concrete r : CellDef} {ls : ArgLevels} {name : String} {sig : CellSig}
    (hs : Subst.cell ls template name = .ok concrete) (h : cellBody deeper concrete sig s = .ok r s') :
    r.name.name = name := by
  obtain ⟨t, ss, -, -, rfl⟩ := cellBody_ok h
  simp only [Subst.cell, except_bind_ok, except_pure_ok] at hs
  obtain ⟨_, -, _, -, _, -, rfl⟩ := hs
  rfl

/-- **An instance that was not known** is added to what is known, together with all that its own check adds. -/
theorem extends_instance {u t v : Checker} {id : Ident} {name : String} {c : CellDef} {sig : CellSig} {fr : Frames}
    (hu : u.Extends t) (hnone : u.cells.find? name = none) (hv : (knowing fr name sig t).Extends v)
    (hname : c.name.name = name) (hg : t.generics ≠ []) : u.Extends (instantiated id name c sig t v) := by
  have hother : ∀ {n}, n ≠ name → (knowing fr name sig t).cells.find? n = t.cells.find? n := by
    intro n hn
    show (t.cells.insert name sig).find? n = _
    rw [Table.find?_insert, if_neg hn]
  refine ⟨hv.config.trans hu.config, hv.traits.trans hu.traits, hv.aliases.trans hu.aliases,
    fun hs => hv.fresh (hu.fresh hs), fun hs _ _ hr => hv.records (hu.fresh hs) (hu.records hs hr), ?_, ?_, ?_, hu.generics.trans hv.generics, ?_⟩
  · exact (hu.instances.trans hv.instances).trans (List.suffix_cons c _)
  · intro n hn hn'
    by_cases hr : n = name
    · exact ⟨c, by simp [instantiated], hname.trans hr.symm⟩
    cases htn : t.cells.find? n with
    | none =>
      obtain ⟨c', hc', he⟩ := hv.made ((hother hr).trans htn) hn'
      exact ⟨c', List.mem_cons_of_mem _ hc', he⟩
    | some sg =>
      obtain ⟨c', hc', he⟩ := hu.made hn (by simp [htn])
      exact ⟨c', List.mem_cons_of_mem _ (hv.instances.subset hc'), he⟩
  · intro n sg hn
    have hr : n ≠ name := by
      rintro rfl
      rw [hnone] at hn
      cases hn
    exact hv.kept ((hother hr).trans (hu.kept hn))
  · intro hn
    exact absurd (hu.generics.nil.2 hn) hg

/-- What the check of an instance has added is still there when the instance is. -/
theorem extends_instantiated {t v : Checker} {id : Ident} {name : String} {c : CellDef} {sig : CellSig}
    (hg : v.generics ≠ []) : v.Extends (instantiated id name c sig t v) :=
  ⟨rfl, rfl, rfl, fun h => h, fun _ _ _ h => h, List.suffix_cons c _, fun h h' => absurd h h', fun h => h, .refl _,
    fun h => absurd h hg⟩

/-- **A cell that can be called is known for good**, and the check ends where it began. -/
theorem instantiateCell_steady (hd : deeper.Orderly) {id : Ident} {args : List TemplateArg} {r : String × CellSig}
    (h : instantiateCell deeper id args s = .ok r s') :
    Steady s s' ∧ (s'.diagnostics = [] → s'.cells.find? r.1 = some r.2) := by
  obtain ⟨-, hmangle, ⟨rfl, hknown⟩ | ⟨t, g, fr, concrete, c, u, v, hnone, ht, hg, -, hsub, hsig, hbody, rfl⟩⟩ :=
    instantiateCell_ok h
  · exact ⟨.refl s, fun _ => hknown⟩
  obtain ⟨rfl, -⟩ := signature_ok hd hsig
  obtain ⟨hst, hplace⟩ := elaborateTemplate_steady hd ht
  have hname := instance_name hsub hbody
  refine ⟨⟨fun hdone => ?_, hplace⟩, fun hdone => ?_⟩
  · obtain ⟨hdiag, hv⟩ := cellBody_onward hd hbody hdone
    obtain ⟨hclean, hext⟩ := hst hdiag
    refine ⟨hclean, extends_instance hext.toExtends hnone hv.toExtends hname (generics_ne hg),
      hext.toCounted.instantiated (by simp [Table.contains, hnone]) hv.toCounted hname ?_⟩
    refine (elaborateTemplate_paid hd ht hdiag).imp_right fun hpaid hclear => hpaid hclear r.1 ?_
    have hfound : s.generics.contains id.name = true := by
      rw [← hext.templates]
      exact Option.isSome_iff_exists.2 ⟨g, hg⟩
    rw [hmangle, baseName_mangle, hclear id.name hfound]
  · obtain ⟨-, hv⟩ := cellBody_onward hd hbody hdone
    refine hv.kept ?_
    show (t.cells.insert r.1 r.2).find? r.1 = _
    rw [Table.find?_insert, if_pos rfl]

/-! ## Expressions -/

/-- The second state comes from the first by instances alone that are made or found. -/
abbrev Made (deeper : Deeper) : Checker → Checker → Prop :=
  ReflTransGen fun s t => ∃ id args r, instantiateCell deeper id args s = .ok r t

theorem literalRecord_same (hd : deeper.Orderly) {id : Ident} {r : Ty × Option RecordInfo}
    (h : literalRecord deeper id s = .ok r s') : s = s' := by
  obtain ⟨t, ht, -⟩ := literalRecord_ok h
  exact typeRef_same hd ht

theorem cellCall_made (hd : deeper.Orderly) {sp : Span} {callee : Ident} {generic : List TypeArg} {args : List Expr}
    {types : List Ty} {places : List Span} {r : Typed}
    (h : cellCall deeper sp callee generic args types places s = .ok r s') : Made deeper s s' := by
  obtain ⟨sig, -, -, hc, -⟩ | ⟨-, g, given, t, -, hgiven, h⟩ := cellCall_ok h
  · obtain ⟨rfl, -⟩ := checkCall_ok hc
    exact .refl
  obtain rfl := templateArgs_same hd hgiven
  obtain ⟨known, full, name, sig, u, -, -, -, hi, hc, -⟩ | ⟨-, rfl, -⟩ := h
  · obtain ⟨rfl, -⟩ := checkCall_ok hc
    exact .single ⟨callee, full, _, hi⟩
  · exact .refl

mutual

/-- **All that an expression does is ask for instances.** -/
theorem expr_made (hd : deeper.Orderly) : ∀ {e : Expr} {s s' : Checker} {r : Typed},
    expr deeper e s = .ok r s' → Made deeper s s'
  | .name sp id, s, s', r, h => by
    obtain ⟨rfl, -⟩ := nameExpr_ok (by simpa only [expr] using h)
    exact .refl
  | .int _ _, s, s', r, h | .char _ _, s, s', r, h | .bool _ _, s, s', r, h | .text _ _, s, s', r, h => by
    simp only [expr, pure_ok] at h
    exact h.2 ▸ .refl
  | .list sp items, s, s', r, h => by
    rw [expr_list] at h
    exact absurd h fail_ok
  | .array sp items, s, s', r, h => by
    obtain ⟨-, es, elem, he, -⟩ := expr_array_ok h
    exact elements_made hd he
  | .record sp type fs, s, s', r, h => by
    obtain ⟨t, record, u, es, hl, he, -⟩ := expr_record_ok h
    obtain rfl := literalRecord_same hd hl
    exact fields_made hd he
  | .unary sp op e, s, s', r, h => by
    simp only [expr, bind_ok, pure_ok] at h
    obtain ⟨⟨e', t⟩, u, he, t', _, ht, -, rfl⟩ := h
    obtain ⟨rfl, -⟩ := unaryType_ok ht
    exact expr_made hd he
  | .binary sp l op r, s, s', _, h => by
    simp only [expr, bind_ok, pure_ok] at h
    obtain ⟨⟨l', lt⟩, u, hl, ⟨r', rt⟩, v, hr, t', _, ht, -, rfl⟩ := h
    obtain ⟨rfl, -⟩ := binaryType_ok ht
    exact (expr_made hd hl).trans (expr_made hd hr)
  | .member sp base m, s, s', r, h => by
    simp only [expr, bind_ok] at h
    obtain ⟨⟨b, t⟩, u, hb, h⟩ := h
    obtain ⟨t', ht, -⟩ := memberAccess_ok h
    obtain ⟨rfl, -⟩ := memberType_ok ht
    exact expr_made hd hb
  | .index sp base i, s, s', r, h => by
    simp only [expr, bind_ok] at h
    obtain ⟨b, u, hb, i', v, hi, h⟩ := h
    obtain ⟨rfl, -⟩ := elementAccess_ok h
    exact (expr_made hd hb).trans (expr_made hd hi)
  | .call sp callee generic args, s, s', r, h => by
    obtain ⟨es, ts, u, -, he, h⟩ := expr_call_ok h
    refine (exprs_made hd he).trans ?_
    obtain ⟨-, hb⟩ | ⟨-, hc⟩ := h
    · obtain ⟨rfl, -⟩ := builtinCall_ok hb
      exact .refl
    · exact cellCall_made hd hc
  | .listSelect sp list index, s, s', r, h => by
    -- by cases: after a substitution the items would no longer be seen as a part of the expression
    cases list with
    | list lsp items =>
      obtain ⟨i, -, hn⟩ | ⟨-, es, ts, he, -⟩ := expr_listSelect_ok h
      · exact nth_made hd hn
      · exact exprs_made hd he
    | _ =>
      obtain ⟨_, _, hlist⟩ := expr_listSelect_list h
      cases hlist
  | .memberSelect sp base ms index, s, s', r, h => by
    obtain ⟨b, t, u, hb, ⟨i, m, -, -, hm⟩ | ⟨-, rfl, -⟩⟩ := expr_memberSelect_ok h
    · obtain ⟨t', ht, -⟩ := memberAccess_ok hm
      obtain ⟨rfl, -⟩ := memberType_ok ht
      exact expr_made hd hb
    · exact expr_made hd hb
termination_by structural e => e

theorem exprs_made (hd : deeper.Orderly) : ∀ {es : List Expr} {s s' : Checker} {r : List Expr × List Ty},
    exprs deeper es s = .ok r s' → Made deeper s s'
  | [], s, s', r, h => by
    simp only [exprs, pure_ok] at h
    exact h.2 ▸ .refl
  | e :: es, s, s', r, h => by
    simp only [exprs, bind_ok, pure_ok] at h
    obtain ⟨_, u, he, _, v, hes, -, rfl⟩ := h
    exact (expr_made hd he).trans (exprs_made hd hes)
termination_by structural es => es

theorem elements_made (hd : deeper.Orderly) : ∀ {es : List Expr} {sofar : Option Ty} {s s' : Checker}
    {r : List Expr × Ty}, elements deeper sofar es s = .ok r s' → Made deeper s s'
  | [], sofar, s, s', r, h => by
    simp only [elements, pure_ok] at h
    exact h.2 ▸ .refl
  | e :: es, sofar, s, s', r, h => by
    simp only [elements, bind_ok, pure_ok] at h
    obtain ⟨_, u, he, _, v, ht, _, w, hes, -, rfl⟩ := h
    obtain ⟨rfl, -⟩ := elementType_ok ht
    exact (expr_made hd he).trans (elements_made hd hes)
termination_by structural es => es

theorem fields_made (hd : deeper.Orderly) : ∀ {fs : List (Ident × Expr)} {type : Ty} {record : Option RecordInfo}
    {seen : List String} {s s' : Checker} {r : List (Ident × Expr)},
    fields deeper type record seen fs s = .ok r s' → Made deeper s s'
  | [], type, record, seen, s, s', r, h => by
    simp only [fields, pure_ok] at h
    exact h.2 ▸ .refl
  | (f, e) :: fs, type, record, seen, s, s', r, h => by
    obtain ⟨info, e', t, u, rest, hl, he, -, hfs, -⟩ := fields_cons_ok h
    exact (expr_made hd he).trans (fields_made hd hfs)
termination_by structural fs => fs

theorem nth_made (hd : deeper.Orderly) : ∀ {es : List Expr} {sp : Span} {count index n : Nat} {s s' : Checker}
    {r : Typed}, nth deeper sp count index es n s = .ok r s' → Made deeper s s'
  | [], sp, count, index, n, s, s', r, h => by
    cases n <;> simp only [nth] at h <;> exact absurd h fail_ok
  | e :: es, sp, count, index, 0, s, s', r, h => expr_made hd (by simpa only [nth] using h)
  | e :: es, sp, count, index, n + 1, s, s', r, h => nth_made hd (by simpa only [nth] using h)
termination_by structural es => es

end

theorem rangeExpr_made (hd : deeper.Orderly) {e : Expr} {r : Typed} (h : rangeExpr deeper e s = .ok r s') :
    Made deeper s s' := by
  cases e with
  | list sp items =>
    simp only [rangeExpr, listExpr, bind_ok, pure_ok] at h
    obtain ⟨_, _, he, -, rfl⟩ := h
    exact exprs_made hd he
  | _ => exact expr_made hd h

/-- **What only asks for instances stays where it stands**, and declares nothing there. -/
theorem Made.steady (hd : deeper.Orderly) (h : Made deeper s s') : Steady s s' := by
  induction h with
  | refl => exact .refl s
  | tail _ hi ih =>
    obtain ⟨id, args, r, hi⟩ := hi
    exact ih.trans (instantiateCell_steady hd hi).1

theorem cellCall_steady (hd : deeper.Orderly) {sp : Span} {callee : Ident} {generic : List TypeArg} {args : List Expr}
    {types : List Ty} {places : List Span} {r : Typed}
    (h : cellCall deeper sp callee generic args types places s = .ok r s') : Steady s s' :=
  (cellCall_made hd h).steady hd

/-- **An expression is checked where it stands**, and nothing is declared there. -/
theorem expr_steady (hd : deeper.Orderly) {e : Expr} {r : Typed} (h : expr deeper e s = .ok r s') : Steady s s' :=
  (expr_made hd h).steady hd

theorem exprs_steady (hd : deeper.Orderly) {es : List Expr} {r : List Expr × List Ty}
    (h : exprs deeper es s = .ok r s') : Steady s s' :=
  (exprs_made hd h).steady hd

theorem elements_steady (hd : deeper.Orderly) {es : List Expr} {sofar : Option Ty} {r : List Expr × Ty}
    (h : elements deeper sofar es s = .ok r s') : Steady s s' :=
  (elements_made hd h).steady hd

theorem fields_steady (hd : deeper.Orderly) {fs : List (Ident × Expr)} {type : Ty} {record : Option RecordInfo}
    {seen : List String} {r : List (Ident × Expr)} (h : fields deeper type record seen fs s = .ok r s') : Steady s s' :=
  (fields_made hd h).steady hd

theorem rangeExpr_steady (hd : deeper.Orderly) {e : Expr} {r : Typed} (h : rangeExpr deeper e s = .ok r s') :
    Steady s s' :=
  (rangeExpr_made hd h).steady hd

/-! ## Statements -/

theorem initialValue_steady (hd : deeper.Orderly) {declared : Option Ty} {e : Expr} {r : Typed}
    (h : initialValue deeper declared e s = .ok r s') : Steady s s' := by
  obtain ⟨_, _, -, -, -, rfl⟩ | he := initialValue_ok h
  · exact .refl s
  · exact expr_steady hd he

theorem valDecl_moves (hd : deeper.Orderly) {d r : ValDecl} (h : valDecl deeper d s = .ok r s') : Moves s s' := by
  obtain ⟨declared, t, e, type, u, ht, he, -, hv, -⟩ := valDecl_ok h
  obtain rfl := declared_same hd ht
  exact (initialValue_steady hd he).moves.trans (defineVal_moves hv)

theorem initStmt_moves (hd : deeper.Orderly) {i r : Option Init} (h : initStmt deeper i s = .ok r s') :
    Moves s s' := by
  rcases i with _ | d | e
  · simp only [initStmt, pure_ok] at h
    exact h.2 ▸ .refl s
  · simp only [initStmt, bind_ok, pure_ok] at h
    obtain ⟨_, _, hv, -, rfl⟩ := h
    exact valDecl_moves hd hv
  · simp only [initStmt, bind_ok, pure_ok] at h
    obtain ⟨_, _, he, -, rfl⟩ := h
    exact (expr_steady hd he).moves

theorem condition_steady (hd : deeper.Orderly) {what : Condition} {e r : Expr}
    (h : condition deeper what e s = .ok r s') : Steady s s' := by
  obtain ⟨t, he, -⟩ := condition_ok h
  exact expr_steady hd he

theorem mapM_moves (hd : deeper.Orderly) : ∀ {xs : List Stmt} {s s' : Checker} {r : List Stmt},
    xs.mapM deeper.stmt s = .ok r s' → Moves s s'
  | [], s, s', r, h => by
    simp only [List.mapM_nil, pure_ok] at h
    exact h.2 ▸ .refl s
  | x :: xs, s, s', r, h => by
    simp only [List.mapM_cons, bind_ok, pure_ok] at h
    obtain ⟨_, t, hx, _, _, hxs, -, rfl⟩ := h
    exact (hd.stmt hx).trans (mapM_moves hd hxs)

/-- **A block is left again**, with all that its statements declared. -/
theorem opened_leaves {t : Checker} (h : Moves (opened s) t) : Leaves s (t.onPlace (·.restore s.place.mark)) :=
  ⟨((Onward.onPlace s _).trans h.1).trans (.onPlace t _), Place.restore_pushScope h.2⟩

theorem copied_leaves {fr : Frames} {t : Checker} (h : Moves (copying fr s) t) : Leaves s (copied t) := by
  refine ⟨?_, Place.exitLocal_left h.2⟩
  have hin : Onward s (copying fr s) := ((Onward.frames s fr).trans (.onPlace _ _)).trans (.onPlace _ _)
  exact ((hin.trans h.1).trans (.onPlace t _)).trans (.frames _ _)

theorem copyAt_leaves (hd : deeper.Orderly) {template : Block} {index : IndexParam} {keyword : Span} {i : Nat}
    {c : Copy} (h : copyAt deeper template index keyword i s = .ok c s') : Leaves s s' := by
  obtain ⟨body, t, news, hb, -, rfl, hnews⟩ := copyAt_ok h
  obtain ⟨fr, b, ss, u, -, -, hss, -, rfl⟩ := instantiateBlock_ok hb
  obtain ⟨hon, hleft⟩ := copied_leaves (mapM_moves hd hss)
  exact ⟨hon.trans (.events _ hnews), hleft⟩

theorem copiesFrom_leaves {copy : Nat → CheckM Copy}
    (hcopy : ∀ {i s c s'}, copy i s = .ok c s' → Leaves s s') : ∀ {left i : Nat} {s s' : Checker} {cs : List Copy},
      copiesFrom copy left i s = .ok cs s' → Leaves s s'
  | 0, i, s, s', cs, h => by
    simp only [copiesFrom, pure_ok] at h
    exact h.2 ▸ .refl s
  | left + 1, i, s, s', cs, h => by
    simp only [copiesFrom, bind_ok, pure_ok] at h
    obtain ⟨c, t, hc, _, _, hcs, -, rfl⟩ := h
    exact (hcopy hc).trans (copiesFrom_leaves hcopy hcs)

theorem unrolling_leaves (hd : deeper.Orderly) {p : Pending} {walk : Walk} {template : Block} {r : Unrolling}
    (h : unrolling deeper p walk template s = .ok r s') : Leaves s s' := by
  obtain ⟨-, -, rfl⟩ | ⟨-, -, rfl⟩ | ⟨n, copies, -, -, hcs⟩ := unrolling_ok h
  · exact .refl s
  · exact .refl s
  · exact copiesFrom_leaves (copyAt_leaves hd) hcs

theorem bindRange_moves {p : Pending} {walk : Walk} {u : Unit} (h : bindRange p walk s = .ok u s') : Moves s s' := by
  obtain ⟨-, hv⟩ | ⟨-, rfl⟩ := bindRange_ok h
  · exact defineVal_moves hv
  · exact .refl s

theorem templateOf_leaves (hd : deeper.Orderly) {p : Pending} {walk : Walk} {body : CheckM (List Stmt)}
    (hbody : ∀ {s r s'}, body s = .ok r s' → Moves s s') {r : ValDecl × List Stmt}
    (h : templateOf deeper p walk body s = .ok r s') : Leaves s s' := by
  obtain ⟨t, u, hv, hb, rfl⟩ := templateOf_ok h
  obtain ⟨hon, hin⟩ := (valDecl_moves hd hv).trans (hbody hb)
  refine ⟨((Onward.onPlace s _).trans hon).trans (.onPlace u _), ?_⟩
  refine Place.restore_left hin.values hin.types ?_ hin.rets hin.cell hin.locals
  rw [hin.templates]
  exact Place.cut_tail rfl rfl

/-- **An expansion leaves every scope it entered**: that of its init, that of its template and those of its copies. -/
theorem finishExpansion_leaves (hd : deeper.Orderly) {x : Expansion} {p : Pending} {sp : Span}
    {body : CheckM (List Stmt)} (hbody : ∀ {s r s'}, body s = .ok r s' → Moves s s') {t : Checker} {r : Expansion}
    (hp : beginExpansion deeper x s = .ok p t) (h : finishExpansion deeper p sp body t = .ok r s') : Leaves s s' := by
  obtain ⟨init, u, range, type, hi, hr, rfl⟩ := beginExpansion_ok hp
  obtain ⟨walk, v, var, ss, w, state, z, -, hb, ht, hu, -, rfl⟩ := finishExpansion_ok h
  have hhead : Moves (opened s) v :=
    ((initStmt_moves hd hi).trans (rangeExpr_steady hd hr).moves).trans (bindRange_moves hb)
  have htail : Leaves v z := (templateOf_leaves hd hbody ht).trans (unrolling_leaves hd hu)
  exact opened_leaves (hhead.trans htail.moves)

theorem blockWith_leaves {sp : Span} {ss : CheckM (List Stmt)} (hss : ∀ {s r s'}, ss s = .ok r s' → Moves s s')
    {b : Block} (h : blockWith sp ss s = .ok b s') : Leaves s s' := by
  obtain ⟨r, t, hr, -, rfl⟩ := blockWith_ok h
  exact opened_leaves (hss hr)

theorem loopBodyWith_leaves {sp : Span} {ss : CheckM (List Stmt)} (hss : ∀ {s r s'}, ss s = .ok r s' → Moves s s')
    {b : Block} (h : loopBodyWith sp ss s = .ok b s') : Leaves s s' := by
  obtain ⟨t, hb, rfl⟩ := loopBodyWith_ok h
  obtain ⟨hon, hleft⟩ := blockWith_leaves hss hb
  exact ⟨((Onward.onPlace s _).trans hon).trans (.onPlace t _), Place.restore_enterLoop hleft⟩

mutual

/-- **A statement declares names in the innermost scope alone.** -/
theorem stmt_moves (hd : deeper.Orderly) : ∀ {x : Stmt} {s s' : Checker} {r : Stmt},
    stmt deeper x s = .ok r s' → Moves s s'
  | .typeAlias _ _ _ _, s, s', r, h | .trait _ _, s, s', r, h | .cell _, s, s', r, h => by
    simp only [stmt] at h
    exact absurd h fail_ok
  | .record d, s, s', r, h => by
    simp only [stmt, bind_ok, pure_ok] at h
    obtain ⟨_, _, hr, -, rfl⟩ := h
    exact defineRecord_moves hd hr
  | .val d, s, s', r, h => by
    simp only [stmt, map_ok] at h
    obtain ⟨_, hv, -⟩ := h
    exact valDecl_moves hd hv
  | .assign sp target e, s, s', r, h => by
    obtain ⟨_, _, _, -, -, he, -⟩ := assignment_ok (by simpa only [stmt] using h)
    exact (expr_steady hd he).moves
  | .cond sp c yes none, s, s', r, h => by
    simp only [stmt, bind_ok, pure_ok] at h
    obtain ⟨_, _, hc, _, _, hy, -, rfl⟩ := h
    exact ((condition_steady hd hc).leaves.trans (block_leaves hd hy)).moves
  | .cond sp c yes (some no), s, s', r, h => by
    simp only [stmt, bind_ok, pure_ok] at h
    obtain ⟨_, _, hc, _, _, hy, _, _, hn, -, rfl⟩ := h
    exact (((condition_steady hd hc).leaves.trans (block_leaves hd hy)).trans (block_leaves hd hn)).moves
  | .loop sp c ⟨bsp, ss⟩, s, s', r, h => by
    simp only [stmt, bind_ok, pure_ok] at h
    obtain ⟨_, _, hc, _, _, hb, -, rfl⟩ := h
    exact ((condition_steady hd hc).leaves.trans (loopBodyWith_leaves (stmts_moves hd) hb)).moves
  | .expand x, s, s', r, h => by
    simp only [stmt, map_ok] at h
    obtain ⟨_, hx, -⟩ := h
    exact (expansion_leaves hd hx).moves
  | .leave sp, s, s', r, h | .next sp, s, s', r, h => by
    obtain ⟨rfl, -⟩ := jump_ok (by simpa only [stmt] using h)
    exact .refl s
  | .give sp e, s, s', r, h => by
    obtain ⟨_, _, _, -, he, -⟩ | ⟨-, -, -, rfl⟩ := giveBack_ok (by simpa only [stmt] using h)
    · exact (expr_steady hd he).moves
    · exact .refl s
  | .assert sp e, s, s', r, h => by
    obtain ⟨_, he, -⟩ := assertion_ok (by simpa only [stmt] using h)
    exact (condition_steady hd he).moves
  | .expr e, s, s', r, h => by
    simp only [stmt, bind_ok, pure_ok] at h
    obtain ⟨_, _, he, -, rfl⟩ := h
    exact (expr_steady hd he).moves
termination_by structural x => x

theorem stmts_moves (hd : deeper.Orderly) : ∀ {xs : List Stmt} {s s' : Checker} {r : List Stmt},
    stmts deeper xs s = .ok r s' → Moves s s'
  | [], s, s', r, h => by
    simp only [stmts, pure_ok] at h
    exact h.2 ▸ .refl s
  | x :: xs, s, s', r, h => by
    simp only [stmts, bind_ok, pure_ok] at h
    obtain ⟨_, _, hx, _, _, hxs, -, rfl⟩ := h
    exact (stmt_moves hd hx).trans (stmts_moves hd hxs)
termination_by structural xs => xs

theorem block_leaves (hd : deeper.Orderly) : ∀ {b : Block} {s s' : Checker} {r : Block},
    block deeper b s = .ok r s' → Leaves s s'
  | ⟨sp, ss⟩, s, s', r, h => by
    simp only [block] at h
    exact blockWith_leaves (stmts_moves hd) h
termination_by structural b => b

theorem expansion_leaves (hd : deeper.Orderly) : ∀ {x : Expansion} {s s' : Checker} {r : Expansion},
    expansion deeper x s = .ok r s' → Leaves s s'
  | ⟨span, keyword, init, var, range, ⟨bsp, ss⟩, depth, state⟩, s, s', r, h => by
    simp only [expansion, bind_ok] at h
    obtain ⟨p, t, hp, hx⟩ := h
    exact finishExpansion_leaves hd (stmts_moves hd) hp hx
termination_by structural x => x

end

/-! ## Levels -/

/-- Levels that resolve types only are orderly where they leave the state alone. -/
theorem typesOnly_orderly {n : Nat} (h : ∀ {w s t s'}, typeRefAt n w s = .ok t s' → s = s') :
    Deeper.Orderly ⟨typeRefAt n, fun s => fail (.depthLimit 0) s.span⟩ :=
  ⟨h, fun h => absurd h fail_ok⟩

theorem levels_orderly : ∀ n : Nat, (levels n).Orderly
  | 0 => ⟨fun h => absurd h fail_ok, fun h => absurd h fail_ok⟩
  | n + 1 => ⟨fun h => typeRef_same (typesOnly_orderly (levels_orderly n).typeRef) h,
      fun h => stmt_moves (levels_orderly n) h⟩

theorem typeRefAt_orderly (n : Nat) : Deeper.Orderly ⟨typeRefAt n, fun s => fail (.depthLimit 0) s.span⟩ :=
  typesOnly_orderly (levels_orderly n).typeRef

end Check
end Unroll
