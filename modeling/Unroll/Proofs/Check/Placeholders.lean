import Unroll.Proofs.Check.OneMeaning
import Unroll.Proofs.Check.Passes
import Unroll.Proofs.Check.Unwinding
/-!
# What a placeholder lets pass

A declaration that fails leaves its name behind, with a placeholder for its type.  Where the place is outside of all
templates and there are no generic cells, every type that can be seen is definite but for such placeholders, and then
they only relax the check: what is accepted with some type for the name is accepted with a placeholder.

Expansions are left out, for two reasons.  A range must not have the placeholder that a failed declaration leaves
behind.  And a body is checked once with its index open, where more than placeholders is unknown: an array whose first
element is unknown takes the type of a later one, be that as wrong as it may, and the bounds of that are checked.
-/
namespace Unroll

/-- The type leaves nothing open, whatever its records are. -/
abbrev Ty.Definite (t : Ty) : Prop := t.Settled fun _ => True

/-- **The first type is definite, and the second one tells the same or less**: a placeholder may stand for the type, or
for that of the elements of an array. -/
inductive Ty.Blurred : Ty → Ty → Prop
  | same {t} : t.Definite → Blurred t t
  | error {t} : t.Definite → Blurred t .error
  | dependent {t} : t.Definite → Blurred t .dependent
  | array {a b n} : Blurred a b → Blurred (.array a (some n)) (.array b (some n))

namespace Ty.Blurred

variable {t u : Ty}

theorem definite (h : Blurred t u) : t.Definite := by
  induction h with
  | same ht | error ht | dependent ht => exact ht
  | array _ ih => exact ih

theorem known (h : Blurred t u) : t.isUnknown = false := h.definite.known.1

theorem eq_or_unknown (h : Blurred t u) : u = t ∨ u.isUnknown = true := by
  induction h with
  | same => exact .inl rfl
  | error | dependent => exact .inr rfl
  | array _ ih =>
    obtain rfl | hb := ih
    · exact .inl rfl
    · exact .inr (by simp [isUnknown, hb])

/-- What has no elements is told in full or not at all. -/
theorem basic (h : Blurred t u) (ht : ∀ a n, t ≠ .array a n) : u = t ∨ u = .error ∨ u = .dependent := by
  cases h with
  | same => exact .inl rfl
  | error => exact .inr (.inl rfl)
  | dependent => exact .inr (.inr rfl)
  | array => exact absurd rfl (ht _ _)

theorem elements {a : Ty} {n : Option Nat} (h : Blurred (.array a n) u) :
    (∃ b, u = .array b n ∧ Blurred a b) ∨ u = .error ∨ u = .dependent := by
  cases h with
  | same ht =>
    cases n with
    | none => exact ht.elim
    | some n => exact .inl ⟨a, rfl, .same ht⟩
  | error => exact .inr (.inl rfl)
  | dependent => exact .inr (.inr rfl)
  | array hab => exact .inl ⟨_, rfl, hab⟩

theorem element {a : Ty} {n : Option Nat} (h : Blurred (.array a n) u) : a.Definite := by
  have hdefinite := h.definite
  cases n with
  | none => exact hdefinite.elim
  | some n => exact hdefinite

end Ty.Blurred

/-- The second value can be assigned to where the first one can, and tells the same of its type or less. -/
structure ValInfo.Blurred (v w : ValInfo) : Prop where
  mutable : v.mutable = true → w.mutable = true
  type : v.type.Blurred w.type

mutual

/-- There is no expansion in the statement. -/
def Stmt.Unexpanded : Stmt → Prop
  | .cond _ _ yes none => yes.Unexpanded
  | .cond _ _ yes (some no) => yes.Unexpanded ∧ no.Unexpanded
  | .loop _ _ body => body.Unexpanded
  | .expand _ => False
  | _ => True

def Stmt.AllUnexpanded : List Stmt → Prop
  | [] => True
  | s :: ss => s.Unexpanded ∧ Stmt.AllUnexpanded ss

def Block.Unexpanded : Block → Prop
  | ⟨_, ss⟩ => Stmt.AllUnexpanded ss

end

namespace Check

open CheckM Outcome Checker

/-- The same names, with values of which the second scope tells less. -/
def BlurredScope : Table ValInfo → Table ValInfo → Prop := List.Forall₂ fun e f => f.1 = e.1 ∧ e.2.Blurred f.2

/-- The places are the same but for what is told of values. -/
def BlurredPlace (p q : Place) : Prop := ∃ vs, List.Forall₂ BlurredScope p.values vs ∧ q = { p with values := vs }

theorem BlurredScope.find? {a b : Table ValInfo} (h : BlurredScope a b) (n : String) :
    a.find? n = none ∧ b.find? n = none ∨ ∃ v w, a.find? n = some v ∧ b.find? n = some w ∧ v.Blurred w := by
  unfold BlurredScope at h
  unfold Table.find?
  induction h with
  | nil => exact .inl ⟨rfl, rfl⟩
  | @cons e f _ _ hef _ ih =>
    rw [List.lookup_cons, List.lookup_cons, hef.1]
    cases n == e.1 with
    | true => exact .inr ⟨_, _, rfl, rfl, hef.2⟩
    | false => exact ih

theorem BlurredScope.contains {a b : Table ValInfo} (h : BlurredScope a b) (n : String) : b.contains n = a.contains n := by
  unfold Table.contains
  obtain ⟨ha, hb⟩ | ⟨v, w, ha, hb, -⟩ := h.find? n
  · rw [ha, hb]
  · rw [ha, hb]
    rfl

theorem BlurredScope.insert {a b : Table ValInfo} (h : BlurredScope a b) (n : String) {v w : ValInfo} (hvw : v.Blurred w) :
    BlurredScope (a.insert n v) (b.insert n w) := .cons ⟨rfl, hvw⟩ h

namespace BlurredPlace

variable {p q : Place}

theorem val? (h : BlurredPlace p q) (n : String) :
    p.val? n = none ∧ q.val? n = none ∨ ∃ v w, p.val? n = some v ∧ q.val? n = some w ∧ v.Blurred w := by
  obtain ⟨vs, hvs, rfl⟩ := h
  show p.values.findSome? _ = _ ∧ vs.findSome? _ = _ ∨ ∃ v w, p.values.findSome? _ = _ ∧ vs.findSome? _ = _ ∧ _
  generalize p.values = ws at hvs
  induction hvs with
  | nil => exact .inl ⟨rfl, rfl⟩
  | cons hab _ ih =>
    rw [List.findSome?_cons, List.findSome?_cons]
    obtain ⟨ha, hb⟩ | ⟨v, w, ha, hb, hvw⟩ := hab.find? n
    · rw [ha, hb]
      exact ih
    · rw [ha, hb]
      exact .inr ⟨v, w, rfl, rfl, hvw⟩

theorem mark (h : BlurredPlace p q) : q.mark = p.mark := by
  obtain ⟨vs, hvs, rfl⟩ := h
  unfold Place.mark
  rw [hvs.length_eq]

theorem pushScope (h : BlurredPlace p q) : BlurredPlace p.pushScope q.pushScope := by
  obtain ⟨vs, hvs, rfl⟩ := h
  exact ⟨[] :: vs, .cons .nil hvs, rfl⟩

theorem enterLoop (h : BlurredPlace p q) : BlurredPlace p.enterLoop q.enterLoop := by
  obtain ⟨vs, hvs, rfl⟩ := h
  exact ⟨vs, hvs, rfl⟩

theorem restore (h : BlurredPlace p q) (m : Mark) : BlurredPlace (p.restore m) (q.restore m) := by
  obtain ⟨vs, hvs, rfl⟩ := h
  refine ⟨Place.cut vs m.values, ?_, rfl⟩
  show List.Forall₂ BlurredScope (p.values.drop _) (vs.drop _)
  rw [hvs.length_eq]
  exact List.forall₂_drop _ hvs

theorem recordLocal (h : BlurredPlace p q) (n : String) : BlurredPlace (p.recordLocal n) (q.recordLocal n) := by
  obtain ⟨vs, hvs, rfl⟩ := h
  obtain ⟨_, _, _, _, _, _, locals⟩ := p
  cases locals with
  | nil => exact ⟨vs, hvs, rfl⟩
  | cons l ls => exact ⟨vs, hvs, rfl⟩

end BlurredPlace

/-- **The states are the same but for what is told of values**, and but for what has been reported.  Outside of all
templates, and without generic cells, everything else in them is definite. -/
structure Blurred (s t : Checker) : Prop where
  noTemplates : s.place.templates = []
  noGenerics : s.generics = [] ∧ t.generics = []
  plain : ∀ {n ty}, s.aliases.find? n = some (.plain ty) → ty.Definite
  fields : ∀ {n r}, s.records.find? n = some r → ∀ f ∈ r.fields, f.type.Definite
  results : ∀ {n sig}, s.cells.find? n = some sig → sig.ret.Definite
  place : BlurredPlace s.place t.place
  aliases : t.aliases = s.aliases
  traits : t.traits = s.traits
  records : t.records = s.records
  cells : t.cells = s.cells
  frames : t.frames = s.frames
  count : t.recordCount = s.recordCount

namespace Blurred

variable {s t : Checker}

theorem grounded (h : Blurred s t) : Grounded (fun _ => True) s where
  templates := h.noTemplates
  types := fun _ => trivial
  plain := h.plain
  generic := fun _ _ _ _ _ => trivial

theorem params (h : Blurred s t) : t.place.templates = s.place.templates := by
  obtain ⟨vs, -, hplace⟩ := h.place
  rw [hplace]

theorem constant? (h : Blurred s t) : t.place.constant? = s.place.constant? := by
  funext n
  unfold Place.constant? Place.param?
  rw [h.params]

theorem param? (h : Blurred s t) (n : String) : t.place.param? n = none :=
  param?_outside (h.params.trans h.noTemplates) n

theorem alike (h : Blurred s t) : Alike (fun _ => True) s t where
  aliases := h.aliases
  traits := h.traits
  params n _ := (h.param? n).trans (h.grounded.param? n).symm
  records n _ := by
    obtain ⟨vs, -, hplace⟩ := h.place
    unfold Checker.recordName?
    rw [hplace, h.records]

theorem onPlace (h : Blurred s t) {f : Place → Place} (ht : (f s.place).templates = [])
    (hp : BlurredPlace (f s.place) (f t.place)) : Blurred (s.onPlace f) (t.onPlace f) :=
  { h with
    place := hp
    noTemplates := ht }

theorem addEvent (h : Blurred s t) (e : Event) : Blurred (s.addEvent e) (t.addEvent e) := { h with }

theorem restore (h : Blurred s t) (m : Mark) : Blurred (s.onPlace (·.restore m)) (t.onPlace (·.restore m)) := by
  refine h.onPlace ?_ (h.place.restore m)
  show s.place.templates.drop _ = []
  rw [h.noTemplates, List.drop_nil]

end Blurred

/-! ## Steps -/

section

variable {α β γ δ : Type}

/-- **Where the first step goes through, so does the second**, from a state in which less is told of values.  Nothing
new is reported. -/
def Allows (V : α → β → Prop) (x : CheckM α) (y : CheckM β) : Prop := ∀ s t a s', Blurred s t →
  x s = .ok a s' → ∃ b t', y t = .ok b t' ∧ V a b ∧ Blurred s' t' ∧ t'.diagnostics = t.diagnostics

namespace Allows

variable {V : α → β → Prop} {W : γ → δ → Prop} {x : CheckM α} {y : CheckM β}

theorem pure {a : α} {b : β} (h : V a b) : Allows V (pure a) (pure b) := fun _ _ _ _ hst hx =>
  ⟨b, _, rfl, (pure_ok.1 hx).1 ▸ h, (pure_ok.1 hx).2 ▸ hst, rfl⟩

/-- Nothing is asked of the second step where the first one fails. -/
theorem fail (c : Cause) (p : Span) : Allows V (CheckM.fail c p) y :=
  fun _ _ _ _ _ hx => absurd hx fail_ok

theorem fail_bind {c : Cause} {p : Span} {f : α → CheckM γ} {y : CheckM δ} : Allows W (CheckM.fail c p >>= f) y := by
  intro _ _ _ _ _ hx
  obtain ⟨_, _, hfail, -⟩ := bind_ok.1 hx
  exact absurd hfail fail_ok

theorem guard {b b' : Bool} (hb : b = false → b' = false) {c c' : Cause} {p p' : Span} {f : Unit → CheckM α}
    {g : Unit → CheckM β} (h : b = false → Allows V (f ()) (g ())) :
    Allows V (if b = true then CheckM.fail c p >>= f else f ()) (if b' = true then CheckM.fail c' p' >>= g else g ()) := by
  cases b with
  | true => exact .fail_bind
  | false =>
    rw [hb rfl]
    exact h rfl

theorem bind {f : α → CheckM γ} {g : β → CheckM δ} (h : Allows V x y) (hfg : ∀ {a b}, V a b → Allows W (f a) (g b)) :
    Allows W (x >>= f) (y >>= g) := by
  intro s t c s' hst hx
  obtain ⟨a, u, ha, hf⟩ := bind_ok.1 hx
  obtain ⟨b, v, hb, hab, huv, hd⟩ := h s t a _ hst ha
  obtain ⟨d, t', hg, hcd, hend, hd'⟩ := hfg hab u v c _ huv hf
  exact ⟨d, t', bind_ok.2 ⟨b, v, hb, hg⟩, hcd, hend, hd'.trans hd⟩

/-- What the first step only looks at, the second one need not. -/
theorem skip {f : α → CheckM γ} {z : CheckM δ} (hx : ∀ {s a s'}, x s = .ok a s' → s = s') (h : ∀ a, Allows W (f a) z) :
    Allows W (x >>= f) z := by
  intro s t c s' hst hf
  obtain ⟨a, u, ha, hf⟩ := bind_ok.1 hf
  obtain rfl := hx ha
  exact h a s t c s' hst hf

theorem map {f : α → γ} {g : β → δ} (h : Allows V x y) (hfg : ∀ {a b}, V a b → W (f a) (g b)) :
    Allows W (f <$> x) (g <$> y) := by
  intro s t c s' hst hx
  obtain ⟨a, ha, rfl⟩ := map_ok.1 hx
  obtain ⟨b, t', hb, hab, hend, hd⟩ := h s t a _ hst ha
  exact ⟨g b, t', map_ok.2 ⟨b, hb, rfl⟩, hfg hab, hend, hd⟩

theorem get : Allows Blurred get get := fun _ _ _ _ hst hx => by
  obtain ⟨rfl, rfl⟩ := get_ok.1 hx
  exact ⟨_, _, rfl, hst, hst, rfl⟩

theorem place : Allows (fun p q : Place => p.templates = [] ∧ BlurredPlace p q) place place := fun _ _ _ _ hst hx => by
  obtain ⟨rfl, rfl⟩ := place_ok.1 hx
  exact ⟨_, _, rfl, ⟨hst.noTemplates, hst.place⟩, hst, rfl⟩

theorem onPlace {f : Place → Place} (ht : ∀ p, p.templates = [] → (f p).templates = [])
    (hp : ∀ {p q}, BlurredPlace p q → BlurredPlace (f p) (f q)) :
    Allows (fun _ _ => True) (CheckM.onPlace f) (CheckM.onPlace f) := fun _ _ _ _ hst hx => by
  obtain rfl := onPlace_ok.1 hx
  exact ⟨(), _, rfl, trivial, hst.onPlace (ht _ hst.noTemplates) (hp hst.place), rfl⟩

theorem inScope (h : Allows V x y) : Allows V (inScope x) (inScope y) := fun s t a _ hst hx => by
  obtain ⟨u, hu, rfl⟩ := inScope_ok.1 hx
  obtain ⟨b, v, hb, hab, huv, hd⟩ := h s t a _ hst hu
  rw [← hst.place.mark]
  exact ⟨b, _, inScope_ok.2 ⟨v, hb, rfl⟩, hab, huv.restore _, hd⟩

end Allows

end

/-! ## Written types -/

variable {n : Nat}

/-- **A written type does not depend on values**, and it is definite. -/
theorem typeRef_allows (w : TypeRef) :
    Allows (fun a b => b = a ∧ a.Definite) (typeRef (levels n) w) (typeRef (levels n) w) := fun s t a _ hst hx => by
  obtain rfl := typeRef_same (levels_orderly n) hx
  have hdefinite := typeRef_settled (levels_orderly n) (levels_settle _ n) hst.grounded (fun _ _ _ _ => trivial) hx
  have hclosed : ClosedNames (fun _ => True) s := ⟨fun _ => trivial, fun _ _ => trivial, fun _ _ _ _ => trivial,
    fun _ _ _ _ => trivial⟩
  have hroom : Roomier s t := by
    unfold Roomier
    rw [hst.frames]
  have hreads : Reads (fun _ => True) (levels n).typeRef (levels n).typeRef := typeRefAt_reads_alike (Nat.le_refl n)
  obtain ⟨hy, -⟩ := typeRef_alike (levels_orderly n) hreads hst.alike hclosed hroom (fun _ _ => trivial) hx
  exact ⟨_, _, hy, ⟨rfl, hdefinite⟩, hst, rfl⟩

theorem declaredTypes_allows (w : Option TypeRef) : Allows (fun a b => b = a ∧ ∀ ty, a = some ty → ty.Definite)
    (w.mapM (typeRef (levels n))) (w.mapM (typeRef (levels n))) := by
  cases w with
  | none =>
    rw [Option.mapM_none]
    exact .pure ⟨rfl, fun _ h => by cases h⟩
  | some w =>
    rw [Option.mapM_some]
    refine .map (typeRef_allows w) fun {a b} h => ?_
    obtain ⟨rfl, hdefinite⟩ := h
    exact ⟨rfl, fun _ h => Option.some.inj h ▸ hdefinite⟩

theorem recordFields_allows (record : Ident) (fs : List RecordField) (seen : List String) :
    Allows (fun a b => b = a ∧ ∀ f ∈ a, f.type.Definite) (recordFields (levels n) record seen fs)
      (recordFields (levels n) record seen fs) := by
  induction fs generalizing seen with
  | nil => exact .pure ⟨rfl, fun _ h => by cases h⟩
  | cons f fs ih =>
    unfold recordFields
    refine .guard id fun _ => ?_
    refine .bind (typeRef_allows f.type) fun ht => .bind (ih _) fun hr => .pure ?_
    obtain ⟨rfl, hdefinite⟩ := ht
    obtain ⟨rfl, hdefinites⟩ := hr
    exact ⟨rfl, List.forall_mem_cons.2 ⟨hdefinite, hdefinites⟩⟩

/-! ## Names that are declared -/

theorem defineVal_run {id : Ident} {t : Ty} {m : Bool} {s : Checker} {scope : Table ValInfo} {rest : List (Table ValInfo)}
    (hv : s.place.values = scope :: rest) (hp : s.place.param? id.name = none) (hc : scope.contains id.name = false) :
    defineVal id t m s = .ok ()
      (s.onPlace fun p => { p with values := scope.insert id.name ⟨t, m⟩ :: rest }.recordLocal id.name) := by
  unfold defineVal
  refine bind_ok.2 ⟨_, _, place_ok.2 ⟨rfl, rfl⟩, ?_⟩
  simp only [hp, hv, hc]
  rfl

/-- **The placeholder takes the place of the value.** -/
theorem defineVal_allows (id : Ident) {t u : Ty} (htu : t.Blurred u) {m m' : Bool} (hm : m = true → m' = true) :
    Allows (fun _ _ => True) (defineVal id t m) (defineVal id u m') := by
  intro s s₂ a s' hst hx
  obtain ⟨scope, rest, hvalues, hparam, hcontains, rfl⟩ := defineVal_ok hx
  obtain ⟨vs, hvs, hplace⟩ := hst.place
  rw [hvalues] at hvs
  obtain ⟨scope', rest', hscope, hrest, rfl⟩ := List.forall₂_cons_left_iff.1 hvs
  have hrun := @defineVal_run id u m' s₂ scope' rest' (by rw [hplace]) (hst.param? id.name)
    ((hscope.contains id.name).trans hcontains)
  refine ⟨(), _, hrun, trivial, ?_, rfl⟩
  have hdeclared : BlurredPlace { s.place with values := scope.insert id.name ⟨t, m⟩ :: rest }
      { s₂.place with values := scope'.insert id.name ⟨u, m'⟩ :: rest' } := by
    rw [hplace]
    exact ⟨_, .cons (hscope.insert id.name ⟨hm, htu⟩) hrest, rfl⟩
  exact { hst with
    place := hdeclared.recordLocal id.name
    noTemplates := by
      show (Place.recordLocal id.name _).templates = []
      unfold Place.recordLocal
      split <;> exact hst.noTemplates }

/-! ## Rules -/

/-- The same expression, of whose type the second one tells less. -/
def BlurredTyped (r r' : Typed) : Prop := r'.1 = r.1 ∧ r.2.Blurred r'.2

theorem nameExpr_allows (sp : Span) (id : Ident) : Allows BlurredTyped (nameExpr sp id) (nameExpr sp id) := by
  refine .bind .get fun {s t} hst => ?_
  obtain ⟨hs, ht⟩ | ⟨v, w, hs, ht, hvw⟩ := hst.place.val? id.name
  · simp only [hs, hst.grounded.param?]
    split
    · exact .fail _ _
    · exact .fail _ _
  · simp only [hs, ht]
    exact .pure ⟨rfl, hvw.type⟩

variable {t u l l' r r' : Ty}

theorem unaryType_allows (sp : Span) (op : UnaryOp) (h : t.Blurred u) :
    Allows Ty.Blurred (unaryType sp op t) (unaryType sp op u) := by
  intro s s₂ a s' hst hx
  obtain ⟨rfl, ⟨hu, -⟩ | ⟨-, hcases⟩⟩ := unaryType_ok hx
  · rw [h.known] at hu
    cases hu
  · obtain ⟨rfl, rfl, rfl⟩ | ⟨rfl, rfl, rfl⟩ := hcases
    all_goals
      refine ⟨u, s₂, ?_, h, hst, rfl⟩
      obtain rfl | rfl | rfl := h.basic (by simp)
      all_goals rfl

/-- An operator whose operands are not known gives what it would give if they were, or a placeholder. -/
theorem unknownBinaryType_blurs {op : BinOp} (h : knownBinaryType? op l r = some t) : t.Blurred (unknownBinaryType op) := by
  unfold knownBinaryType? at h
  split at h
  all_goals first | cases h | (split at h <;> cases h)
  all_goals first | exact .dependent trivial | exact .same trivial

theorem binaryType_allows (sp : Span) (op : BinOp) (hl : l.Blurred l') (hr : r.Blurred r') :
    Allows Ty.Blurred (binaryType sp op l r) (binaryType sp op l' r') := by
  intro s s₂ a s' hst hx
  obtain ⟨rfl, ⟨hu | hu, -⟩ | ⟨-, -, hknown⟩⟩ := binaryType_ok hx
  · rw [hl.known] at hu
    cases hu
  · rw [hr.known] at hu
    cases hu
  · unfold binaryType
    cases hunknown : l'.isUnknown || r'.isUnknown with
    | true => exact ⟨_, s₂, rfl, unknownBinaryType_blurs hknown, hst, rfl⟩
    | false =>
      obtain ⟨hl', hr'⟩ := Bool.or_eq_false_iff.1 hunknown
      obtain rfl := hl.eq_or_unknown.resolve_right (by simp [hl'])
      obtain rfl := hr.eq_or_unknown.resolve_right (by simp [hr'])
      rw [hknown]
      exact ⟨a, s₂, rfl, .same (unknownBinaryType_blurs hknown).definite, hst, rfl⟩

theorem memberType_allows (base : Expr) (m : Ident) (h : t.Blurred u) :
    Allows Ty.Blurred (memberType base t m) (memberType base u m) := by
  intro s s₂ a s' hst hx
  obtain ⟨rfl, ⟨hu, -⟩ | ⟨-, k, info, f, rfl, hr, hf, hhidden, rfl⟩⟩ := memberType_ok hx
  · rw [h.known] at hu
    cases hu
  · have hdefinite := hst.fields hr f (List.mem_of_find?_eq_some hf)
    obtain rfl | rfl | rfl := h.basic (by simp)
    · have hr₂ : s₂.record? (.record k) = some info := by
        show s₂.records.find? k = some info
        rw [hst.records, hr]
      refine ⟨f.type, s₂, ?_, .same hdefinite, hst, rfl⟩
      simp [memberType, Ty.isUnknown, hr₂, hf, hhidden]
    · exact ⟨.error, s₂, rfl, .error hdefinite, hst, rfl⟩
    · exact ⟨.dependent, s₂, rfl, .dependent hdefinite, hst, rfl⟩

theorem memberAccess_allows (base : Expr) (m : Ident) (h : t.Blurred u) :
    Allows BlurredTyped (memberAccess base t m) (memberAccess base u m) :=
  .bind (memberType_allows base m h) fun ht => .pure ⟨rfl, ht⟩

theorem checkBounds_allows (index : Expr) (p : Span) (len : Option Nat) :
    Allows (fun _ _ => True) (checkBounds index p len) (checkBounds index p len) := by
  refine .bind .place fun {q q'} hq => ?_
  obtain ⟨-, vs, -, rfl⟩ := hq
  rw [show ({ q with values := vs } : Place).constant? = q.constant? from rfl]
  split
  · split
    · exact .fail _ _
    · exact .pure trivial
  · exact .pure trivial

theorem elementAccess_allows (sp bsp isp : Span) {b b' i i' : Typed} (hb : BlurredTyped b b') (hi : BlurredTyped i i') :
    Allows BlurredTyped (elementAccess sp bsp isp b i) (elementAccess sp bsp isp b' i') := by
  obtain ⟨b, bt⟩ := b
  obtain ⟨i, it⟩ := i
  obtain ⟨_, bt'⟩ := b'
  obtain ⟨_, it'⟩ := i'
  obtain ⟨rfl, hbt⟩ := hb
  obtain ⟨rfl, hit⟩ := hi
  dsimp only at hbt hit ⊢
  unfold elementAccess
  by_cases hint : it = .int
  · subst hint
    have hpass : ¬(it' ≠ .int ∧ (!it'.isUnknown) = true) := by
      rintro ⟨hne, hunknown⟩
      have hu := hit.eq_or_unknown.resolve_left hne
      simp [hu] at hunknown
    simp only [ne_eq, not_true_eq_false, false_and, if_false, if_neg hpass]
    cases bt with
    | array elem len =>
      obtain ⟨elem', rfl, helem⟩ | rfl | rfl := hbt.elements
      · exact .bind (checkBounds_allows _ _ _) fun _ => .pure ⟨rfl, helem⟩
      all_goals exact .skip (fun h => (checkBounds_ok h).1) fun _ => .pure ⟨rfl, .dependent hbt.element⟩
    | list ts => exact hbt.definite.elim
    | param _ => exact hbt.definite.elim
    | dependent | error => exact hbt.definite.elim
    | _ => exact .fail _ _
  · have hfail : it ≠ .int ∧ (!it.isUnknown) = true := ⟨hint, by simp [hit.known]⟩
    simp only [if_pos hfail]
    exact .fail_bind

theorem elementType_allows (p : Span) {sofar sofar' : Option Ty} (hs : Option.Rel Ty.Blurred sofar sofar')
    (h : t.Blurred u) : Allows Ty.Blurred (elementType sofar t p) (elementType sofar' u p) := by
  cases hs with
  | none => exact .pure h
  | @some first first' hfirst =>
    intro s s₂ a s' hst hx
    obtain ⟨rfl, ⟨hnone, -⟩ | ⟨_, hsome, ⟨hu, -⟩ | ⟨-, hsame, rfl⟩⟩⟩ := elementType_ok hx
    · cases hnone
    · cases hsome
      rw [hfirst.known] at hu
      cases hu
    · cases hsome
      obtain rfl := hsame.resolve_left (by simp [h.known])
      unfold elementType
      cases hu' : first'.isUnknown with
      | true =>
        refine ⟨u, s₂, ?_, h, hst, rfl⟩
        simp only [hu', if_true]
        rfl
      | false =>
        obtain rfl := hfirst.eq_or_unknown.resolve_right (by simp [hu'])
        have hu : (u.isUnknown || decide (first' = u)) = true := by
          obtain rfl | hu := h.eq_or_unknown
          · simp
          · simp [hu]
        refine ⟨_, s₂, ?_, hfirst, hst, rfl⟩
        simp only [hu', hu, Bool.false_eq_true, if_false, if_true]
        rfl

/-! ## Calls -/

theorem assignable_blurred (hl : l.Blurred l' ∨ l' = l) (hr : r.Blurred r') (h : Assignable l r) : Assignable l' r' := by
  have hl' : l' = l ∨ l'.isUnknown = true := hl.elim Ty.Blurred.eq_or_unknown .inl
  obtain rfl | hunknown := hl'
  · obtain rfl | hunknown := hr.eq_or_unknown
    · exact h
    · exact .inr (.inl hunknown)
  · exact .inl hunknown

theorem checkAssignable_run {s : Checker} {sp : Span} (h : Assignable l r) : checkAssignable l r sp s = .ok () s := by
  unfold checkAssignable
  rw [if_pos (by simpa [Assignable, or_assoc] using h)]
  rfl

theorem checkAssignable_allows (sp : Span) (hl : l.Blurred l' ∨ l' = l) (hr : r.Blurred r') :
    Allows (fun _ _ => True) (checkAssignable l r sp) (checkAssignable l' r' sp) := by
  intro s s₂ a s' hst hx
  obtain ⟨rfl, h⟩ := checkAssignable_ok hx
  exact ⟨(), s₂, checkAssignable_run (assignable_blurred hl hr h), trivial, hst, rfl⟩

theorem builtinType_allows (name : String) (p : Span) (h : t.Blurred u) :
    Allows Ty.Blurred (builtinType name t p) (builtinType name u p) := by
  intro s s₂ a s' hst hx
  obtain ⟨rfl, ⟨rfl, hcases, rfl⟩ | ⟨hname, rfl⟩⟩ := builtinType_ok hx
  · obtain ⟨elem, len, rfl⟩ := hcases.resolve_right (by simp [h.known])
    refine ⟨.int, s₂, ?_, .same trivial, hst, rfl⟩
    obtain ⟨_, rfl, -⟩ | rfl | rfl := h.elements
    all_goals rfl
  · refine ⟨.unit, s₂, ?_, .same trivial, hst, rfl⟩
    unfold builtinType
    rw [if_neg hname]
    rfl

theorem builtinCall_allows (sp : Span) (callee : Ident) (args : List Expr) {ts us : List Ty}
    (h : List.Forall₂ Ty.Blurred ts us) (ps : List Span) :
    Allows BlurredTyped (builtinCall sp callee args ts ps) (builtinCall sp callee args us ps) := by
  cases h with
  | nil => exact .fail _ _
  | cons hty hrest =>
    cases hrest with
    | nil =>
      rcases ps with _ | ⟨p, _ | ⟨q, ps⟩⟩
      · exact .fail _ _
      · exact .bind (builtinType_allows callee.name p hty) fun ht => .pure ⟨rfl, ht⟩
      · exact .fail _ _
    | cons => exact .fail _ _

theorem checkParams_allows (ps : List CellParam) (sps : List Span) {ts us : List Ty} (h : List.Forall₂ Ty.Blurred ts us) :
    Allows (fun _ _ => True) (checkParams ps sps ts) (checkParams ps sps us) := by
  induction h generalizing ps sps with
  | nil =>
    cases ps with
    | nil => exact .pure trivial
    | cons => cases sps <;> exact .pure trivial
  | cons hty _ ih =>
    cases ps with
    | nil => exact .pure trivial
    | cons p ps =>
      cases sps with
      | nil => exact .pure trivial
      | cons s sps => exact .bind (checkAssignable_allows s (.inr rfl) hty) fun _ => ih ps sps

theorem checkCall_allows (name : String) (sig : CellSig) (ps : List Span) (sp : Span) {ts us : List Ty}
    (h : List.Forall₂ Ty.Blurred ts us) : Allows (fun _ _ => True) (checkCall name sig ps ts sp) (checkCall name sig ps us sp) := by
  unfold checkCall
  split
  · exact .fail _ _
  · exact checkParams_allows sig.params ps h

/-- There are no generic cells that the call could be of. -/
theorem cellCall_allows (sp : Span) (callee : Ident) (generic : List TypeArg) (args : List Expr) {ts us : List Ty}
    (h : List.Forall₂ Ty.Blurred ts us) (ps : List Span) :
    Allows BlurredTyped (cellCall (levels n) sp callee generic args ts ps) (cellCall (levels n) sp callee generic args us ps) := by
  refine .bind .get fun {s s₂} hst => ?_
  rw [hst.cells]
  cases hsig : s.cells.find? callee.name with
  | none =>
    refine .bind .get fun {s s₂} hst => ?_
    rw [hst.noGenerics.1]
    exact .fail _ _
  | some sig =>
    refine .guard id fun _ => ?_
    exact .bind (checkCall_allows callee.name sig ps sp h) fun _ => .pure ⟨rfl, .same (hst.results hsig)⟩

/-! ## Expressions -/

theorem literalRecord_allows (id : Ident) :
    Allows (fun a b => b = a ∧ a.1.Definite) (literalRecord (levels n) id) (literalRecord (levels n) id) := by
  refine .bind (typeRef_allows _) fun {ty ty'} h => ?_
  obtain ⟨rfl, hdefinite⟩ := h
  simp only [hdefinite.known.1, Bool.false_eq_true, if_false]
  refine .bind .get fun {s s₂} hst => ?_
  have hrecord : s₂.record? ty' = s.record? ty' := by
    unfold Checker.record?
    rw [hst.records]
  rw [hrecord]
  split
  · exact .pure ⟨rfl, hdefinite⟩
  · exact .fail _ _

theorem literalField_allows (type : Ty) (record : Option RecordInfo) (seen : List String) (id : Ident) :
    Allows (fun a b => b = a) (literalField type record seen id) (literalField type record seen id) := by
  unfold literalField
  split
  · exact .pure rfl
  · split
    · exact .fail _ _
    · split
      · exact .fail _ _
      · exact .pure rfl

theorem checkComplete_allows (sp : Span) (type : Ty) (record : Option RecordInfo) (seen : List String) :
    Allows (fun _ _ => True) (checkComplete sp type record seen) (checkComplete sp type record seen) := by
  unfold checkComplete
  split
  · exact .fail _ _
  · exact .pure trivial

/-- Outside of templates every index that is a constant is known. -/
theorem constIndex_allows (e : Expr) :
    Allows (fun a b => b = a ∧ ∃ i, a = some i) (constIndex e) (constIndex e) := by
  intro s s₂ a s' hst hx
  obtain ⟨hindex, rfl⟩ := constIndex_ok.1 hx
  refine ⟨a, s₂, constIndex_ok.2 ⟨by rw [hst.constant?, hindex], rfl⟩, ⟨rfl, ?_⟩, hst, rfl⟩
  unfold Const.evalIndex at hindex
  obtain ⟨c, hc, hindex⟩ := except_bind_ok.1 hindex
  cases c with
  | dependent => exact absurd rfl (eval_known (fun n => by simp [hst.grounded.constant? n]) hc)
  | bool => cases hindex
  | int k =>
    dsimp only at hindex
    split at hindex
    · cases hindex
      exact ⟨_, rfl⟩
    · cases hindex

theorem checkBuiltinArity_allows (sp : Span) (callee : Ident) (k : Nat) :
    Allows (fun _ _ => True) (checkBuiltinArity sp callee k) (checkBuiltinArity sp callee k) := by
  unfold checkBuiltinArity
  split
  · exact .fail _ _
  · exact .pure trivial

mutual

/-- **An expression that is accepted where more is told is accepted where less is**, and less is told of it. -/
theorem expr_allows : ∀ e : Expr, Allows BlurredTyped (expr (levels n) e) (expr (levels n) e)
  | .name sp id => nameExpr_allows sp id
  | .int _ _ | .char _ _ | .bool _ _ | .text _ _ => .pure ⟨rfl, .same trivial⟩
  | .list _ _ => .fail _ _
  | .array sp items => by
    unfold expr
    refine .guard id fun hitems => .bind (elements_allows items .none) fun {r r'} h => .pure ?_
    obtain ⟨_, elem⟩ := r
    obtain ⟨es, elem'⟩ := r'
    obtain ⟨rfl, helem⟩ := h
    exact ⟨rfl, .array (helem (.inl (by rintro rfl; cases hitems)))⟩
  | .record sp type fs => by
    refine .bind (literalRecord_allows type) fun {r r'} h => ?_
    obtain ⟨rfl, hdefinite⟩ := h
    refine .bind (fields_allows fs r'.1 r'.2 []) fun {es es'} h => ?_
    obtain rfl := h
    exact .bind (checkComplete_allows sp r'.1 r'.2 _) fun _ => .pure ⟨rfl, .same hdefinite⟩
  | .unary sp op e => by
    refine .bind (expr_allows e) fun {r r'} h => .bind (unaryType_allows sp op h.2) fun ht => .pure ⟨?_, ht⟩
    rw [h.1]
  | .binary sp l op r => by
    refine .bind (expr_allows l) fun {a a'} ha => .bind (expr_allows r) fun {b b'} hb => ?_
    refine .bind (binaryType_allows sp op ha.2 hb.2) fun ht => .pure ⟨?_, ht⟩
    rw [ha.1, hb.1]
  | .member sp base m => by
    refine .bind (expr_allows base) fun {r r'} h => ?_
    obtain ⟨_, t⟩ := r
    obtain ⟨e, t'⟩ := r'
    obtain ⟨rfl, ht⟩ := h
    exact memberAccess_allows e m ht
  | .index sp base i =>
    .bind (expr_allows base) fun hb => .bind (expr_allows i) fun hi => elementAccess_allows sp base.span i.span hb hi
  | .call sp callee generic args => by
    refine .bind (checkBuiltinArity_allows sp callee args.length) fun _ => ?_
    refine .bind (exprs_allows args) fun {r r'} h => ?_
    obtain ⟨_, ts⟩ := r
    obtain ⟨es, ts'⟩ := r'
    obtain ⟨rfl, hts⟩ := h
    dsimp only
    split
    · exact builtinCall_allows sp callee es hts _
    · exact cellCall_allows sp callee generic es hts _
  | .listSelect sp (.list lsp items) i => by
    unfold expr
    refine .bind (constIndex_allows i) fun {k k'} h => ?_
    obtain ⟨rfl, k, rfl⟩ := h
    exact nth_allows items i.span items.length k k
  | .listSelect _ (.name _ _) _ => .fail _ _
  | .listSelect _ (.int _ _) _ => .fail _ _
  | .listSelect _ (.char _ _) _ => .fail _ _
  | .listSelect _ (.bool _ _) _ => .fail _ _
  | .listSelect _ (.text _ _) _ => .fail _ _
  | .listSelect _ (.array _ _) _ => .fail _ _
  | .listSelect _ (.record _ _ _) _ => .fail _ _
  | .listSelect _ (.unary _ _ _) _ => .fail _ _
  | .listSelect _ (.binary _ _ _ _) _ => .fail _ _
  | .listSelect _ (.member _ _ _) _ => .fail _ _
  | .listSelect _ (.index _ _ _) _ => .fail _ _
  | .listSelect _ (.call _ _ _ _) _ => .fail _ _
  | .listSelect _ (.listSelect _ _ _) _ => .fail _ _
  | .listSelect _ (.memberSelect _ _ _ _) _ => .fail _ _
  | .memberSelect sp base ms i => by
    refine .bind (expr_allows base) fun {r r'} h => ?_
    obtain ⟨_, t⟩ := r
    obtain ⟨e, t'⟩ := r'
    obtain ⟨rfl, ht⟩ := h
    refine .bind (constIndex_allows i) fun {k k'} h => ?_
    obtain ⟨rfl, k, rfl⟩ := h
    dsimp only
    cases ms[k]? with
    | some m => exact memberAccess_allows e m ht
    | none => exact .fail _ _

theorem exprs_allows : ∀ es : List Expr, Allows (fun r r' => r'.1 = r.1 ∧ List.Forall₂ Ty.Blurred r.2 r'.2)
    (exprs (levels n) es) (exprs (levels n) es)
  | [] => .pure ⟨rfl, .nil⟩
  | e :: es => by
    refine .bind (expr_allows e) fun h => .bind (exprs_allows es) fun hs => .pure ⟨?_, .cons h.2 hs.2⟩
    rw [h.1, hs.1]

theorem elements_allows : ∀ (es : List Expr) {sofar sofar' : Option Ty}, Option.Rel Ty.Blurred sofar sofar' →
    Allows (fun r r' => r'.1 = r.1 ∧ (es ≠ [] ∨ sofar ≠ none → r.2.Blurred r'.2)) (elements (levels n) sofar es)
      (elements (levels n) sofar' es)
  | [], _, _, hs => by
    refine .pure ⟨rfl, fun h => ?_⟩
    cases hs with
    | none => simp at h
    | some hab => exact hab
  | e :: es, _, _, hs => by
    refine .bind (expr_allows e) fun h => .bind (elementType_allows e.span hs h.2) fun ht => ?_
    refine .bind (elements_allows es (.some ht)) fun hes => .pure ⟨?_, fun _ => hes.2 (.inr (by simp))⟩
    rw [h.1, hes.1]

theorem fields_allows : ∀ (fs : List (Ident × Expr)) (type : Ty) (record : Option RecordInfo) (seen : List String),
    Allows (fun r r' => r' = r) (fields (levels n) type record seen fs) (fields (levels n) type record seen fs)
  | [], _, _, _ => .pure rfl
  | (f, e) :: fs, type, record, seen => by
    refine .bind (literalField_allows type record seen f) fun {i i'} h => ?_
    obtain rfl := h
    refine .bind (expr_allows e) fun {r r'} h => ?_
    obtain ⟨_, t⟩ := r
    obtain ⟨e₁, t'⟩ := r'
    obtain ⟨rfl, ht⟩ := h
    have hrest : Allows (fun q q' => q' = q) (do return (f, e₁) :: (← fields (levels n) type record (f.name :: seen) fs))
        (do return (f, e₁) :: (← fields (levels n) type record (f.name :: seen) fs)) :=
      .bind (fields_allows fs type record (f.name :: seen)) fun hq => .pure (by rw [hq])
    cases i' with
    | none => exact hrest
    | some i => exact .bind (checkAssignable_allows e.span (.inr rfl) ht) fun _ => hrest

theorem nth_allows : ∀ (es : List Expr) (p : Span) (count index k : Nat),
    Allows BlurredTyped (nth (levels n) p count index es k) (nth (levels n) p count index es k)
  | [], _, _, _, k => by
    cases k <;> exact .fail _ _
  | e :: _, _, _, _, 0 => expr_allows e
  | _ :: es, p, count, index, k + 1 => nth_allows es p count index k

end

/-! ## Declarations -/

theorem initialValue_allows {declared : Option Ty} (hdeclared : ∀ ty, declared = some ty → ty.Definite) (e : Expr) :
    Allows BlurredTyped (initialValue (levels n) declared e) (initialValue (levels n) declared e) := by
  unfold initialValue
  split
  · exact .pure ⟨rfl, .same (hdeclared _ rfl)⟩
  · exact expr_allows e

theorem declaredType_allows {declared : Option Ty} (hdeclared : ∀ ty, declared = some ty → ty.Definite) (p : Span)
    (h : t.Blurred u) : Allows Ty.Blurred (declaredType declared t p) (declaredType declared u p) := by
  cases declared with
  | none => exact .pure h
  | some expected =>
    exact .bind (checkAssignable_allows p (.inr rfl) h) fun _ => .pure (.same (hdeclared expected rfl))

theorem valDecl_allows (v : ValDecl) :
    Allows (fun r r' => r' = r) (valDecl (levels n) v) (valDecl (levels n) v) := by
  refine .bind (declaredTypes_allows v.type) fun {declared declared'} h => ?_
  obtain ⟨rfl, hdeclared⟩ := h
  refine .bind (initialValue_allows hdeclared v.expr) fun {r r'} h => ?_
  refine .bind (declaredType_allows hdeclared v.expr.span h.2) fun ht => ?_
  refine .bind (defineVal_allows v.name ht id) fun _ => .pure ?_
  rw [h.1]

theorem BlurredPlace.declaring {p q : Place} (h : BlurredPlace p q) (base canonical : String) :
    BlurredPlace (declaring base canonical p) (declaring base canonical q) := by
  obtain ⟨vs, hvs, rfl⟩ := h
  refine BlurredPlace.recordLocal ?_ base
  exact ⟨vs, hvs, rfl⟩

theorem declaring_templates (base canonical : String) (p : Place) :
    (declaring base canonical p).templates = p.templates := by
  unfold declaring Place.recordLocal
  split <;> rfl

theorem Blurred.addRecord {s s₂ : Checker} (h : Blurred s s₂) {infos : List FieldInfo}
    (hinfos : ∀ f ∈ infos, f.type.Definite) (canonical : String) :
    Blurred (({ s with recordCount := s.recordCount + 1 } : Checker).addRecord canonical infos)
      (({ s₂ with recordCount := s₂.recordCount + 1 } : Checker).addRecord canonical infos) :=
  { h with
    fields := fun {k r} hr f hf => by
      change (s.records.insert canonical ⟨canonical, infos⟩).find? k = some r at hr
      rw [Table.find?_insert] at hr
      split at hr
      · cases hr
        exact hinfos f hf
      · exact h.fields hr f hf
    records := congrArg (fun records : Table RecordInfo => records.insert canonical ⟨canonical, infos⟩) h.records
    count := congrArg (· + 1) h.count }

theorem defineRecord_allows (id : Ident) (fs : List RecordField) :
    Allows (fun _ _ => True) (defineRecord (levels n) id fs) (defineRecord (levels n) id fs) := by
  refine .bind .place fun {p q} hpq => ?_
  obtain ⟨-, vs, -, rfl⟩ := hpq
  refine .guard (fun h => h) fun _ => .guard (fun h => h) fun _ => .bind (recordFields_allows id fs []) fun {infos infos'} h => ?_
  obtain ⟨rfl, hinfos⟩ := h
  intro s s₂ a s' hst hx
  simp only [bind_ok, modify_ok, get_ok, onPlace_ok, pure_ok] at hx
  obtain ⟨_, _, rfl, _, _, ⟨rfl, rfl⟩, _, _, rfl, _, _, rfl, _, _, rfl, rfl, rfl⟩ := hx
  refine ⟨_, _, rfl, trivial, ?_, rfl⟩
  have hadded := hst.addRecord hinfos (id.name ++ "'" ++ toString (s.recordCount + 1))
  have hplaced := hadded.onPlace ((declaring_templates id.name (id.name ++ "'" ++ toString (s.recordCount + 1)) _).trans
    hadded.noTemplates) (hadded.place.declaring id.name _)
  simp only [hst.count, ← funext (declaring_eq _ _)] at hplaced ⊢
  exact hplaced.addEvent _

/-! ## Statements -/

theorem condition_allows (what : Condition) (e : Expr) :
    Allows (fun r r' => r' = r) (condition (levels n) what e) (condition (levels n) what e) := by
  refine .bind (expr_allows e) fun {r r'} h => ?_
  obtain ⟨_, t⟩ := r
  obtain ⟨e₁, t'⟩ := r'
  obtain ⟨rfl, ht⟩ := h
  dsimp only
  split
  · rename_i hbool
    have hbool' : (decide (t' = .bool) || t'.isUnknown) = true := by
      obtain rfl | hunknown := ht.eq_or_unknown
      · exact hbool
      · simp [hunknown]
    rw [if_pos hbool']
    exact .pure rfl
  · exact .fail _ _

theorem assignment_allows (sp : Span) (target : Ident) (e : Expr) :
    Allows (fun r r' => r' = r) (assignment (levels n) sp target e) (assignment (levels n) sp target e) := by
  refine .bind .place fun {p q} hpq => ?_
  obtain ⟨hp, hq⟩ | ⟨v, w, hp, hq, hvw⟩ := hpq.2.val? target.name
  · rw [hp]
    exact .fail _ _
  · rw [hp, hq]
    refine .guard (fun h => ?_) fun _ => .bind (expr_allows e) fun {r r'} h => ?_
    · simpa using hvw.mutable (by simpa using h)
    · refine .bind (checkAssignable_allows e.span (.inl hvw.type) h.2) fun _ => .pure ?_
      rw [h.1]

theorem giveBack_allows (sp : Span) (e : Option Expr) :
    Allows (fun r r' => r' = r) (giveBack (levels n) sp e) (giveBack (levels n) sp e) := by
  refine .bind .place fun {p q} hpq => ?_
  obtain ⟨-, vs, -, rfl⟩ := hpq
  cases e with
  | some e =>
    refine .bind (expr_allows e) fun h => .bind (checkAssignable_allows e.span (.inr rfl) h.2) fun _ => .pure ?_
    rw [h.1]
  | none =>
    dsimp only
    split
    · exact .pure rfl
    · exact .fail _ _

theorem assertion_allows (sp : Span) (e : Expr) :
    Allows (fun r r' => r' = r) (assertion (levels n) sp e) (assertion (levels n) sp e) := by
  refine .bind (condition_allows .assertion e) fun h => .bind .place fun {p q} hpq => ?_
  obtain rfl := h
  obtain ⟨-, vs, -, rfl⟩ := hpq
  rw [show ({ p with values := vs } : Place).constant? = p.constant? from rfl]
  split
  · exact .fail _ _
  · exact .pure rfl

theorem jump_allows (keyword : String) (x : Stmt) (sp : Span) :
    Allows (fun r r' => r' = r) (jump keyword x sp) (jump keyword x sp) := by
  refine .bind .place fun {p q} hpq => ?_
  obtain ⟨-, vs, -, rfl⟩ := hpq
  dsimp only
  split
  · exact .fail _ _
  · exact .pure rfl

theorem blockWith_allows (sp : Span) {body : CheckM (List Stmt)} (hb : Allows (fun r r' => r' = r) body body) :
    Allows (fun r r' => r' = r) (blockWith sp body) (blockWith sp body) := by
  refine .inScope (.bind (.onPlace (fun _ h => h) fun h => h.pushScope) fun _ => .bind hb fun h => .pure ?_)
  rw [h]

theorem loopBodyWith_allows (sp : Span) {body : CheckM (List Stmt)} (hb : Allows (fun r r' => r' = r) body body) :
    Allows (fun r r' => r' = r) (loopBodyWith sp body) (loopBodyWith sp body) :=
  .inScope (.bind (.onPlace (fun _ h => h) fun h => h.enterLoop) fun _ => blockWith_allows sp hb)

mutual

/-- **A statement that is accepted where more is told is accepted where less is**, if there is no expansion in it. -/
theorem stmt_allows : ∀ x : Stmt, x.Unexpanded → Allows (fun r r' => r' = r) (stmt (levels n) x) (stmt (levels n) x)
  | .typeAlias _ _ _ _, _ => .fail _ _
  | .trait _ _, _ => .fail _ _
  | .cell _, _ => .fail _ _
  | .record d, _ => .bind (defineRecord_allows d.name d.fields) fun _ => .pure rfl
  | .val v, _ => .map (valDecl_allows v) fun h => congrArg Stmt.val h
  | .assign sp target e, _ => assignment_allows sp target e
  | .cond sp c yes none, h => by
    refine .bind (condition_allows .cond c) fun hc => .bind (block_allows yes h) fun hy => .pure ?_
    rw [hc, hy]
  | .cond sp c yes (some no), h => by
    refine .bind (condition_allows .cond c) fun hc => .bind (block_allows yes h.1) fun hy => ?_
    refine .bind (block_allows no h.2) fun hn => .pure ?_
    rw [hc, hy, hn]
  | .loop sp c ⟨bsp, ss⟩, h => by
    unfold stmt
    refine .bind (condition_allows .loop c) fun hc => .bind (loopBodyWith_allows bsp (stmts_allows ss h)) fun hb => .pure ?_
    rw [hc, hb]
  | .expand _, h => h.elim
  | .leave sp, _ => jump_allows "break" (.leave sp) sp
  | .next sp, _ => jump_allows "continue" (.next sp) sp
  | .give sp e, _ => giveBack_allows sp e
  | .assert sp e, _ => assertion_allows sp e
  | .expr e, _ => .bind (expr_allows e) fun h => .pure (congrArg Stmt.expr h.1)

theorem stmts_allows : ∀ xs : List Stmt, Stmt.AllUnexpanded xs →
    Allows (fun r r' => r' = r) (stmts (levels n) xs) (stmts (levels n) xs)
  | [], _ => .pure rfl
  | x :: xs, h => by
    refine .bind (stmt_allows x h.1) fun hr => .bind (stmts_allows xs h.2) fun hrs => .pure ?_
    rw [hr, hrs]

theorem block_allows : ∀ b : Block, b.Unexpanded → Allows (fun r r' => r' = r) (block (levels n) b) (block (levels n) b)
  | ⟨sp, ss⟩, h => by
    unfold block
    exact blockWith_allows sp (stmts_allows ss h)

end

/-! ## After a declaration that failed -/

variable {s s' t : Checker}

theorem cellStmts_of_stmts {xs r : List Stmt} (h : stmts (levels n) xs s = .ok r s') :
    cellStmts (levels (n + 1)) xs s = .ok r s' := by
  induction xs generalizing s r with
  | nil => exact h
  | cons x xs ih =>
    simp only [stmts, bind_ok, pure_ok] at h
    obtain ⟨x', u, hx, rest, _, hrest, rfl, rfl⟩ := h
    rw [cellStmts_cons]
    refine bind_ok.2 ⟨some x', u, ?_, bind_ok.2 ⟨rest, _, ih hrest, rfl⟩⟩
    exact tryCatch_ok.2 (.inl (map_ok.2 ⟨x', hx, rfl⟩))

/-- **A placeholder has no consequences**: what follows a declaration, and would be accepted if the name had some type,
is accepted where there is a placeholder, and nothing is reported about it. -/
theorem cellStmts_after_failure {id : Ident} {ty placeholder : Ty} {m : Bool} {xs r : List Stmt} {s₁ s₂ : Checker}
    (hs : Blurred s s) (hty : ty.Blurred placeholder) (hxs : Stmt.AllUnexpanded xs)
    (hdeclared : defineVal id ty m s = .ok () s₁) (hrest : stmts (levels n) xs s₁ = .ok r s₂) :
    ∃ t₁ t₂, defineVal id placeholder true s = .ok () t₁ ∧ cellStmts (levels (n + 1)) xs t₁ = .ok r t₂ ∧
      Blurred s₂ t₂ ∧ t₂.diagnostics = s.diagnostics := by
  obtain ⟨_, t₁, hfailed, -, hst, hd₁⟩ := defineVal_allows id hty (fun _ => rfl) s s () s₁ hs hdeclared
  obtain ⟨_, t₂, hquiet, rfl, hend, hd₂⟩ := stmts_allows xs hxs s₁ t₁ r s₂ hst hrest
  exact ⟨t₁, t₂, hfailed, cellStmts_of_stmts hquiet, hend, hd₂.trans hd₁⟩

/-- **Where the declarations of a program without generic cells are in order**, everything that can be seen is
definite. -/
theorem Declared.blurred {globals : Table String} {p : Program} (hd : Declared globals p s)
    (hp : ∀ c, .cell c ∈ p → c.params = []) : Blurred s s where
  noTemplates := by
    rw [hd.place]
    rfl
  noGenerics := ⟨hd.concrete hp, hd.concrete hp⟩
  plain := fun ha => (hd.plain ha).mono fun _ _ => trivial
  fields := fun hr f hf => ((hd.records hr).2 f hf).mono fun _ _ => trivial
  results := fun hc => (hd.cells hc).2.2.mono fun _ _ => trivial
  place := by
    rw [hd.place]
    exact ⟨[[]], .cons .nil .nil, rfl⟩
  aliases := rfl
  traits := rfl
  records := rfl
  cells := rfl
  frames := rfl
  count := rfl

/-- As a range every placeholder is let pass but that of a declaration that failed. -/
theorem walkOf_blurred {ty placeholder : Ty} {sp : Span} {walk : Walk} (hst : Blurred s t) (h : ty.Blurred placeholder)
    (hne : placeholder ≠ .error) (hw : walkOf s sp ty = .ok walk) : ∃ walk', walkOf t sp placeholder = .ok walk' := by
  cases h with
  | same =>
    refine ⟨walk, ?_⟩
    rw [← hw]
    cases ty with
    | record k => simp [walkOf, Checker.record?, hst.records, isAccessiblePath]
    | array elem len => cases len <;> rfl
    | _ => rfl
  | error => exact absurd rfl hne
  | dependent => exact ⟨.dependent, rfl⟩
  | @array _ elem k => exact ⟨.array k elem, rfl⟩

end Check
end Unroll
