import Unroll.Checker.Program
import Unroll.Proofs.Check.SpelledBack
import Unroll.Proofs.Unplaced
/-!
# What a written type means at two places

A written type means the same at two places if the names in it do.  So does an alias with parameters, whose target is
filled in and resolved where the alias is used: the names that its target leaves to the place have to mean the same
there.  An alias without parameters was resolved where it was declared, and asks for no such thing.
-/
namespace Unroll

/-! ## The names that are looked up -/

mutual

/-- The names that a constant is computed from. -/
def Expr.constants : Expr → List String
  | .name _ id => [id.name]
  | .unary _ _ e | .listSelect _ e _ => e.constants
  | .binary _ l _ r => l.constants ++ r.constants
  | .list _ items => Expr.allConstants items
  | _ => []

def Expr.allConstants : List Expr → List String
  | [] => []
  | e :: es => e.constants ++ Expr.allConstants es

end

theorem Expr.mem_allConstants {n : String} {es : List Expr} :
    n ∈ Expr.allConstants es ↔ ∃ e ∈ es, n ∈ e.constants := by
  induction es with
  | nil => simp [Expr.allConstants]
  | cons e es ih => simp [Expr.allConstants, ih]

/-- The names in a constant but those that are bound. -/
def Expr.freeConstants (bound : List String) (e : Expr) : List String := e.constants.filter (· ∉ bound)

mutual

/-- **The names that a written type leaves to the place**, where the bound ones are filled in.  A name with arguments is
left to it in any case. -/
def TypeRef.free (bound : List String) : TypeRef → List String
  | .named _ id [] => if id.name ∈ bound then [] else [id.name]
  | .named _ id (a :: as) => id.name :: TypeArg.allFree bound (a :: as)
  | .array _ elem len => elem.free bound ++ len.freeConstants bound

def TypeArg.free (bound : List String) : TypeArg → List String
  | .type t => t.free bound
  | .value e => e.freeConstants bound

def TypeArg.allFree (bound : List String) : List TypeArg → List String
  | [] => []
  | a :: as => a.free bound ++ TypeArg.allFree bound as

end

/-- The names that a type is spelled with, but for the builtin ones. -/
def Ty.spelling : Ty → List String
  | .record n | .param n => [n]
  | .array elem _ => elem.spelling
  | _ => []

/-- The same of an argument. -/
def TemplateArg.spelling : TemplateArg → List String
  | .type t => t.spelling
  | .value _ => []

namespace Check

open CheckM Outcome Checker

/-- The name is a builtin one, or it has the property. -/
def Builtin (P : String → Prop) (n : String) : Prop := (∃ b, Ty.builtin? n = some b) ∨ P n

theorem toTypeRef_free {sp : Span} : ∀ {t : Ty} {w : TypeRef}, t.toTypeRef? sp = some w →
    ∀ m ∈ w.free [], Builtin (· ∈ t.spelling) m
  | .unit, w, h | .bool, w, h | .int, w, h | .char, w, h | .text, w, h => by
    cases h
    intro m hm
    simp only [TypeRef.bare, TypeRef.free, List.not_mem_nil, if_false, List.mem_singleton] at hm
    exact .inl (hm ▸ ⟨_, rfl⟩)
  | .record n, w, h | .param n, w, h => by
    cases h
    intro m hm
    simp only [TypeRef.bare, TypeRef.free, List.not_mem_nil, if_false, List.mem_singleton] at hm
    exact .inr (hm ▸ List.mem_singleton_self n)
  | .array elem (some n), w, h => by
    simp only [Ty.toTypeRef?] at h
    split at h
    · obtain ⟨v, hv, rfl⟩ := Option.map_eq_some_iff.1 h
      intro m hm
      have hm' : m ∈ v.free [] := by simpa [TypeRef.free, Expr.freeConstants, Expr.constants] using hm
      exact toTypeRef_free (t := elem) hv m hm'
    · cases h

/-! ## Substitution -/

section

variable {R : String → Prop} {ls : ArgLevels} {bound : List String}

/-- All bound names are filled in, with types that are spelled with names of the property. -/
structure Fills (R : String → Prop) (ls : ArgLevels) (bound : List String) : Prop where
  bound : ∀ n ∈ bound, ∃ a, ls.lookup? n = some a
  types : ∀ {n t sp w}, ls.lookup? n = some (.type t) → t.toTypeRef? sp = some w → ∀ m ∈ w.free [], R m

theorem Fills.left (hf : Fills R ls bound) {n : String} (hn : ls.lookup? n = none) (h : n ∈ bound ∨ R n) : R n := by
  refine h.resolve_left fun hb => ?_
  obtain ⟨a, ha⟩ := hf.bound n hb
  rw [hn] at ha
  cases ha

mutual

theorem subst_constants (hf : Fills R ls bound) : ∀ {e r : Expr}, (∀ m ∈ e.constants, m ∈ bound ∨ R m) →
    Subst.expr ls e = .ok r → ∀ m ∈ r.constants, R m
  | .name sp id, r, he, h => by
    simp only [Subst.expr, Subst.name] at h
    split at h
    · cases h
      simp [Expr.constants]
    · cases h
    · rename_i hl
      cases h
      intro m hm
      cases List.mem_singleton.1 hm
      exact hf.left hl (he _ (List.mem_singleton_self _))
  | .unary _ _ e, r, he, h => by
    simp only [Subst.expr, except_bind_ok, except_pure_ok] at h
    obtain ⟨e', he', rfl⟩ := h
    exact subst_constants hf (e := e) (r := e') he he'
  | .binary _ a _ b, r, he, h => by
    simp only [Subst.expr, except_bind_ok, except_pure_ok] at h
    obtain ⟨a', ha, b', hb, rfl⟩ := h
    intro m hm
    rcases List.mem_append.1 (show m ∈ a'.constants ++ b'.constants from hm) with hm | hm
    · exact subst_constants hf (fun k hk => he k (List.mem_append_left _ hk)) ha m hm
    · exact subst_constants hf (fun k hk => he k (List.mem_append_right _ hk)) hb m hm
  | .list _ items, r, he, h => by
    simp only [Subst.expr, except_bind_ok, except_pure_ok] at h
    obtain ⟨items', hi, rfl⟩ := h
    exact substs_constants hf he hi
  | .listSelect _ list index, r, he, h => by
    simp only [Subst.expr, except_bind_ok] at h
    obtain ⟨list', hl, index', -, h⟩ := h
    have hlist := subst_constants hf (e := list) (r := list') he hl
    unfold Subst.foldListSelect at h
    split at h
    · split at h
      · rename_i hitem
        cases h
        unfold Subst.item? at hitem
        split at hitem
        · exact fun m hm => hlist m (Expr.mem_allConstants.2 ⟨_, List.mem_of_getElem? hitem, hm⟩)
        · cases hitem
      · cases h
    · cases h
      exact hlist
  | .memberSelect _ base ms index, r, _, h => by
    simp only [Subst.expr, except_bind_ok] at h
    obtain ⟨base', -, index', -, h⟩ := h
    unfold Subst.foldMemberSelect at h
    split at h
    · split at h <;> cases h
      simp [Expr.constants]
    · cases h
      simp [Expr.constants]
  | .int _ _, r, _, h | .char _ _, r, _, h | .bool _ _, r, _, h | .text _ _, r, _, h => by
    cases h
    simp [Expr.constants]
  | .array _ _, r, _, h | .member _ _ _, r, _, h => by
    simp only [Subst.expr, except_bind_ok, except_pure_ok] at h
    obtain ⟨_, -, rfl⟩ := h
    simp [Expr.constants]
  | .record _ _ _, r, _, h => by
    simp only [Subst.expr, except_bind_ok, except_pure_ok] at h
    obtain ⟨_, -, rfl⟩ := h
    simp [Expr.constants]
  | .index _ _ _, r, _, h | .call _ _ _ _, r, _, h => by
    simp only [Subst.expr, except_bind_ok, except_pure_ok] at h
    obtain ⟨_, -, _, -, rfl⟩ := h
    simp [Expr.constants]

theorem substs_constants (hf : Fills R ls bound) : ∀ {es rs : List Expr}, (∀ m ∈ Expr.allConstants es, m ∈ bound ∨ R m) →
    Subst.exprs ls es = .ok rs → ∀ m ∈ Expr.allConstants rs, R m
  | [], rs, _, h => by
    cases h
    simp [Expr.allConstants]
  | e :: es, rs, he, h => by
    simp only [Subst.exprs, except_bind_ok, except_pure_ok] at h
    obtain ⟨r, hr, rs', hrs, rfl⟩ := h
    intro m hm
    rcases List.mem_append.1 (show m ∈ r.constants ++ Expr.allConstants rs' from hm) with hm | hm
    · exact subst_constants hf (fun k hk => he k (List.mem_append_left _ hk)) hr m hm
    · exact substs_constants hf (fun k hk => he k (List.mem_append_right _ hk)) hrs m hm

end

theorem subst_freeConstants (hf : Fills R ls bound) {e r : Expr} (he : ∀ m ∈ e.freeConstants bound, R m)
    (h : Subst.expr ls e = .ok r) : ∀ m ∈ r.freeConstants [], R m := by
  intro m hm
  refine subst_constants hf (fun k hk => ?_) h m (List.mem_of_mem_filter hm)
  by_cases hb : k ∈ bound
  · exact .inl hb
  · exact .inr (he k (List.mem_filter.2 ⟨hk, by simpa using hb⟩))

theorem typeName_free (hf : Fills R ls bound) {sp : Span} {id : Ident} {r : TypeRef}
    (hn : id.name ∈ bound ∨ R id.name) (h : Subst.typeName ls sp id = .ok r) : ∀ m ∈ r.free [], R m := by
  unfold Subst.typeName at h
  split at h
  · rename_i t hl
    split at h
    · rename_i w hw
      cases h
      exact hf.types hl hw
    · cases h
  · cases h
  · rename_i hl
    cases h
    intro m hm
    simp only [TypeRef.free, List.not_mem_nil, if_false, List.mem_singleton] at hm
    exact hm ▸ hf.left hl hn

theorem bound_or_free {sp : Span} {id : Ident} (h : ∀ m ∈ (TypeRef.named sp id []).free bound, R m) :
    id.name ∈ bound ∨ R id.name := by
  by_cases hb : id.name ∈ bound
  · exact .inl hb
  · exact .inr (h id.name (by simp [TypeRef.free, hb]))

mutual

/-- **What is left to the place after substitution**: what was left to it before, and what the arguments are spelled
with. -/
theorem subst_free (hf : Fills R ls bound) : ∀ {w r : TypeRef}, (∀ m ∈ w.free bound, R m) →
    Subst.typeRef ls w = .ok r → ∀ m ∈ r.free [], R m
  | .named _ id [], r, hw, h => typeName_free hf (bound_or_free hw) (by simpa only [Subst.typeRef] using h)
  | .named _ id (a :: as), r, hw, h => by
    simp only [Subst.typeRef, except_bind_ok, except_pure_ok] at h
    obtain ⟨bs, hb, rfl⟩ := h
    have hw' : R id.name ∧ ∀ m ∈ TypeArg.allFree bound (a :: as), R m := by simpa [TypeRef.free] using hw
    have hbs := substArgs_free hf hw'.2 hb
    intro m hm
    cases bs with
    | nil =>
      simp only [TypeRef.free, List.not_mem_nil, if_false, List.mem_singleton] at hm
      exact hm ▸ hw'.1
    | cons b bs =>
      simp only [TypeRef.free, List.mem_cons] at hm
      rcases hm with rfl | hm
      · exact hw'.1
      · exact hbs m hm
  | .array _ elem len, r, hw, h => by
    simp only [Subst.typeRef, except_bind_ok, except_pure_ok] at h
    obtain ⟨e, he, l, hl, rfl⟩ := h
    simp only [TypeRef.free, List.mem_append] at hw ⊢
    rintro m (hm | hm)
    · exact subst_free hf (fun k hk => hw k (.inl hk)) he m hm
    · exact subst_freeConstants hf (fun k hk => hw k (.inr hk)) hl m hm

theorem substArg_free (hf : Fills R ls bound) : ∀ {a b : TypeArg}, (∀ m ∈ a.free bound, R m) →
    Subst.typeArg ls a = .ok b → ∀ m ∈ b.free [], R m
  | .type (.named sp id []), b, ha, h => by
    simp only [Subst.typeArg] at h
    split at h
    · cases h
      simp [TypeArg.free, Expr.freeConstants, Expr.constants]
    · rw [except_map_ok] at h
      obtain ⟨w, hw, rfl⟩ := h
      exact typeName_free hf (@bound_or_free R bound sp id ha) hw
  | .type (.named sp id (a :: as)), b, ha, h => by
    simp only [Subst.typeArg, except_map_ok] at h
    obtain ⟨w, hw, rfl⟩ := h
    exact subst_free hf (w := .named sp id (a :: as)) ha hw
  | .type (.array sp elem len), b, ha, h => by
    simp only [Subst.typeArg, except_map_ok] at h
    obtain ⟨w, hw, rfl⟩ := h
    exact subst_free hf (w := .array sp elem len) ha hw
  | .value e, b, ha, h => by
    simp only [Subst.typeArg, except_map_ok] at h
    obtain ⟨w, hw, rfl⟩ := h
    exact subst_freeConstants hf ha hw

theorem substArgs_free (hf : Fills R ls bound) : ∀ {as bs : List TypeArg}, (∀ m ∈ TypeArg.allFree bound as, R m) →
    Subst.typeArgs ls as = .ok bs → ∀ m ∈ TypeArg.allFree [] bs, R m
  | [], bs, _, h => by
    cases h
    simp [TypeArg.allFree]
  | a :: as, bs, ha, h => by
    simp only [Subst.typeArgs, except_bind_ok, except_pure_ok] at h
    obtain ⟨b, hb, bs', hbs, rfl⟩ := h
    simp only [TypeArg.allFree, List.mem_append] at ha ⊢
    rintro m (hm | hm)
    · exact substArg_free hf (fun k hk => ha k (.inl hk)) hb m hm
    · exact substArgs_free hf (fun k hk => ha k (.inr hk)) hbs m hm

end

end

/-! ## Places that agree -/

/-- **The names of the property mean the same at both places**, as names of records and of parameters. -/
structure Alike (P : String → Prop) (s t : Checker) : Prop where
  aliases : t.aliases = s.aliases
  traits : t.traits = s.traits
  params : ∀ n, P n → t.place.param? n = s.place.param? n
  records : ∀ n, P n → t.recordName? n = s.recordName? n

/-- The names of the property, with all that they lead to. -/
structure ClosedNames (P : String → Prop) (s : Checker) : Prop where
  builtin : ∀ {n b}, Ty.builtin? n = some b → P n
  records : ∀ {n c}, P n → s.recordName? n = some c → P c
  plain : ∀ {n t}, P n → s.aliases.find? n = some (.plain t) → ∀ m ∈ t.spelling, P m
  generic : ∀ {n ps target}, P n → s.aliases.find? n = some (.generic ps target) → ∀ m ∈ target.free ps.names, P m

/-- The second state can go down at least as many levels as the first. -/
def Roomier (s t : Checker) : Prop :=
  s.frames.limit + t.frames.depth ≤ t.frames.limit + s.frames.depth

variable {P : String → Prop} {s t s' : Checker}

theorem Roomier.push {f : Frame} {fr : Frames} (h : Roomier s t) (hf : s.frames.push f = .ok fr) :
    ∃ fr', t.frames.push f = .ok fr' ∧ Roomier { s with frames := fr } { t with frames := fr' } := by
  unfold Frames.push at hf
  split at hf
  · rename_i hroom
    cases hf
    unfold Roomier at h
    refine ⟨_, if_pos (by omega), ?_⟩
    simp only [Roomier, Frames.depth, List.length_cons] at h ⊢
    omega
  · cases hf

theorem eval_congr {env env' : String → Option Const} : ∀ {e : Expr}, (∀ n ∈ e.constants, env' n = env n) →
    Const.eval env' e = Const.eval env e
  | .name _ id, h => by simp only [Const.eval, h id.name (List.mem_singleton_self _)]
  | .unary _ _ e, h => by simp only [Const.eval, eval_congr (e := e) h]
  | .binary _ l _ r, h => by
    have hl := eval_congr (e := l) fun n hn => h n (List.mem_append_left _ hn)
    have hr := eval_congr (e := r) fun n hn => h n (List.mem_append_right _ hn)
    simp only [Const.eval, hl, hr]
  | .int _ _, _ | .bool _ _, _ | .char _ _, _ | .text _ _, _ | .list _ _, _ | .array _ _, _ | .record _ _ _, _
  | .member _ _ _, _ | .index _ _ _, _ | .call _ _ _ _, _ | .listSelect _ _ _, _ | .memberSelect _ _ _ _, _ => rfl

namespace Alike

theorem eval (h : Alike P s t) {e : Expr} (he : ∀ n ∈ e.freeConstants [], P n) :
    Const.eval t.place.constant? e = Const.eval s.place.constant? e := by
  refine eval_congr fun n hn => ?_
  unfold Place.constant?
  rw [h.params n (he n (List.mem_filter.2 ⟨hn, by simp⟩))]

theorem length (h : Alike P s t) {elem ty : Ty} {len : Expr} (he : ∀ n ∈ len.freeConstants [], P n)
    (hl : Check.length elem len s = .ok ty s') : Check.length elem len t = .ok ty t := by
  unfold Check.length
  rw [bind_ok]
  obtain ⟨rfl, ⟨n, hn, hc, rfl⟩ | ⟨hc, rfl⟩⟩ := length_ok hl
  · exact ⟨_, t, const_ok.2 ⟨(h.eval he).trans hc, rfl⟩, by simp [hn]⟩
  · exact ⟨_, t, const_ok.2 ⟨(h.eval he).trans hc, rfl⟩, by simp⟩

theorem valueArg (h : Alike P s t) {p : ParamDecl} {e : Expr} {a : Option TemplateArg}
    (he : ∀ n ∈ e.freeConstants [], P n) (ha : Check.valueArg p e s = .ok a s') : Check.valueArg p e t = .ok a t := by
  unfold Check.valueArg
  rw [bind_ok]
  obtain ⟨rfl, ⟨v, hc, rfl⟩ | ⟨hc, rfl⟩⟩ := valueArg_ok ha
  · exact ⟨_, t, const_ok.2 ⟨(h.eval he).trans hc, rfl⟩, by simp⟩
  · exact ⟨_, t, const_ok.2 ⟨(h.eval he).trans hc, rfl⟩, by simp⟩

theorem meaning (h : Alike P s t) {id : Ident} {m : Meaning} (hn : P id.name) (hm : Check.meaning id s = .ok m s') :
    Check.meaning id t = .ok m t := by
  unfold Check.meaning
  rw [bind_ok]
  refine ⟨t, t, rfl, ?_⟩
  rw [h.params _ hn, h.records _ hn, h.aliases, h.traits]
  obtain ⟨rfl, ⟨b, hb, rfl⟩ | ⟨hb, ⟨k, b, hp, rfl⟩ | ⟨hp, ⟨c, hc, rfl⟩ | ⟨hc, ⟨ty, ha, rfl⟩ | ⟨ps, r, ha, rfl⟩⟩⟩⟩⟩ :=
    meaning_ok hm
  · simp [hb]
  · simp [hb, hp]
  · simp [hb, hp, hc]
  · simp [hb, hp, hc, ha]
  · simp [hb, hp, hc, ha]

theorem checkArgs (h : Alike P s t) (id : Ident) (args : List TemplateArg) :
    Check.checkArgs t .typeAlias id args = Check.checkArgs s .typeAlias id args := by
  have hparams : templateParams t .typeAlias id = templateParams s .typeAlias id := by
    simp only [templateParams, h.aliases]
  have hbounds : isSatisfied t = isSatisfied s := by
    funext b ty
    simp only [isSatisfied, h.traits]
  unfold Check.checkArgs checkArg
  rw [hparams, hbounds]

end Alike

/-! ## Written types -/

/-- **What the first function resolves the second does, too**, at places that agree, and with nothing but their names. -/
def Reads (P : String → Prop) (f g : TypeRef → CheckM Ty) : Prop :=
  ∀ {w : TypeRef} {s t s' : Checker} {ty : Ty}, Alike P s t → ClosedNames P s → Roomier s t → (∀ n ∈ w.free [], P n) →
    f w s = .ok ty s' → g w t = .ok ty t ∧ ∀ n ∈ ty.spelling, P n

variable {d e : Deeper}

theorem meaning_spelling (hc : ClosedNames P s) {id : Ident} {what : Plain} {ty : Ty} (hn : P id.name)
    (h : meaning id s = .ok (.plain what ty) s') : ∀ n ∈ ty.spelling, P n := by
  obtain ⟨-, ⟨b, hb, hm⟩ | ⟨-, ⟨_, _, -, hm⟩ | ⟨-, ⟨c, hr, hm⟩ | ⟨-, ⟨a, ha, hm⟩ | ⟨_, _, -, hm⟩⟩⟩⟩⟩ := meaning_ok h
  · cases hm
    unfold Ty.builtin? at hb
    split at hb <;> cases hb <;> simp [Ty.spelling]
  · cases hm
    simpa [Ty.spelling] using hn
  · cases hm
    simpa [Ty.spelling] using hc.records hn hr
  · cases hm
    exact hc.plain hn ha
  · cases hm

theorem valueArg_spelling {p : ParamDecl} {v : Expr} {r : Option TemplateArg} (h : valueArg p v s = .ok r s') :
    ∀ b, r = some b → ∀ n ∈ b.spelling, P n := by
  rintro b rfl
  obtain ⟨-, ⟨_, -, hb⟩ | ⟨-, hb⟩⟩ := valueArg_ok h
  · cases hb
    simp [TemplateArg.spelling]
  · cases hb

theorem instantiateAlias_checked {id : Ident} {args : List TemplateArg} {ty : Ty}
    (h : instantiateAlias d id args s = .ok ty s') : checkArgs s .typeAlias id args = .ok () := by
  unfold instantiateAlias at h
  simp only [bind_ok, get_ok, ofExcept_ok] at h
  obtain ⟨_, _, ⟨rfl, rfl⟩, _, _, ⟨hargs, rfl⟩, -⟩ := h
  exact hargs

theorem checkArgs_length {id : Ident} {args : List TemplateArg} {ps : ParamLevel} {target : TypeRef}
    (hal : s.aliases.find? id.name = some (.generic ps target)) (h : checkArgs s .typeAlias id args = .ok ()) :
    args.length = ps.names.length := by
  simp only [checkArgs, templateParams, hal, except_bind_ok] at h
  obtain ⟨_, he, h⟩ := h
  cases he
  split at h
  · cases h
  · rename_i hlen
    simpa [ParamLevel.names] using hlen

theorem lookup_filled {names : List String} {args : List TemplateArg} (hlen : args.length = names.length) {n : String}
    (hn : n ∈ names) : ∃ a, (ArgLevels.bind [] names args).lookup? n = some a := by
  rw [ArgLevels.lookup?_bind_nil]
  exact level_some hlen hn

/-- The arguments of an alias are as many as its parameters, so all of them are filled in. -/
theorem fills_of_checked {id : Ident} {args : List TemplateArg} {ps : ParamLevel} {target : TypeRef}
    (hal : s.aliases.find? id.name = some (.generic ps target)) (h : checkArgs s .typeAlias id args = .ok ())
    (hc : ClosedNames P s) (ha : ∀ a ∈ args, ∀ n ∈ a.spelling, P n) :
    Fills P (ArgLevels.bind [] ps.names args) ps.names where
  bound := fun _ hn => lookup_filled (checkArgs_length hal h) hn
  types := fun hl hw m hm => by
    obtain ⟨b, hb⟩ | hm := toTypeRef_free hw m hm
    · exact hc.builtin hb
    · exact ha _ (lookup_bound hl) m hm

/-- **An alias with parameters means one type** wherever the names that its target leaves open do, and those that its
arguments are spelled with. -/
theorem instantiateAlias_alike (hd : Reads P d.typeRef e.typeRef) (h : Alike P s t) (hc : ClosedNames P s)
    (hroom : Roomier s t) {id : Ident} {args : List TemplateArg} {ps : ParamLevel} {target : TypeRef} {ty : Ty}
    (hal : s.aliases.find? id.name = some (.generic ps target)) (htarget : ∀ n ∈ target.free ps.names, P n)
    (ha : ∀ a ∈ args, ∀ n ∈ a.spelling, P n) (hi : instantiateAlias d id args s = .ok ty s') :
    instantiateAlias e id args t = .ok ty t ∧ ∀ n ∈ ty.spelling, P n := by
  have hchecked := instantiateAlias_checked hi
  obtain ⟨ps', target', r, fr, u, hfound, hr, hf, hty, -⟩ := instantiateAlias_ok hi
  rw [hal] at hfound
  cases hfound
  obtain ⟨fr', hf', hroom'⟩ := hroom.push hf
  have hsame : Alike P { s with frames := fr } { t with frames := fr' } := ⟨h.aliases, h.traits, h.params, h.records⟩
  have hclosed : ClosedNames P { s with frames := fr } := ⟨hc.builtin, hc.records, hc.plain, hc.generic⟩
  have hfree := subst_free (fills_of_checked hal hchecked hc ha) htarget hr
  obtain ⟨hty', hspelled⟩ := hd hsame hclosed hroom' hfree hty
  refine ⟨?_, hspelled⟩
  unfold instantiateAlias
  rw [bind_ok]
  refine ⟨t, t, rfl, ?_⟩
  rw [bind_ok]
  refine ⟨(), t, ofExcept_ok.2 ⟨(h.checkArgs id args).trans hchecked, rfl⟩, ?_⟩
  have hal' : t.aliases.find? id.name = some (.generic ps target) := by rw [h.aliases, hal]
  simp only [hal', within_ok, bind_ok, ofExcept_ok]
  refine ⟨fr', _, hf', ⟨r, _, ⟨hr, rfl⟩, hty'⟩, ?_⟩
  rw [pop_push hf']

theorem mem_of_allKnown : ∀ {as : List (Option TemplateArg)} {full : List TemplateArg}, allKnown as = some full →
    ∀ a ∈ full, some a ∈ as
  | [], full, h => by
    cases h
    simp
  | none :: _, full, h => by cases h
  | some b :: as, full, h => by
    obtain ⟨rest, hrest, rfl⟩ := Option.map_eq_some_iff.1 (show (allKnown as).map (b :: ·) = some full from h)
    intro a ha
    rcases List.mem_cons.1 ha with rfl | ha
    · exact List.mem_cons_self ..
    · exact List.mem_cons_of_mem _ (mem_of_allKnown hrest a ha)

mutual

/-- **A written type means the same at both places**, if all the names in it do. -/
theorem typeRef_alike (ho : d.Orderly) (hd : Reads P d.typeRef e.typeRef) (h : Alike P s t) (hc : ClosedNames P s)
    (hroom : Roomier s t) : ∀ {w : TypeRef} {s' : Checker} {ty : Ty}, (∀ n ∈ w.free [], P n) →
      typeRef d w s = .ok ty s' → typeRef e w t = .ok ty t ∧ ∀ n ∈ ty.spelling, P n
  | .array sp elem len, s', ty, hw, hty => by
    simp only [typeRef, bind_ok] at hty
    obtain ⟨et, u, he, hl⟩ := hty
    obtain rfl := typeRef_same ho he
    simp only [TypeRef.free, List.mem_append] at hw
    obtain ⟨he', hspelled⟩ := typeRef_alike ho hd h hc hroom (fun n hn => hw n (.inl hn)) he
    have hl' := h.length (fun n hn => hw n (.inr hn)) hl
    refine ⟨?_, ?_⟩
    · rw [typeRef, bind_ok]
      exact ⟨et, t, he', hl'⟩
    · obtain ⟨-, ⟨_, -, -, rfl⟩ | ⟨-, rfl⟩⟩ := length_ok hl
      · exact hspelled
      · exact hspelled
  | .named sp id args, s', ty, hw, hty => by
    have hw' : P id.name ∧ ∀ n ∈ TypeArg.allFree [] args, P n := by
      cases args with
      | nil => simpa [TypeRef.free, TypeArg.allFree] using hw
      | cons a as => simpa [TypeRef.free] using hw
    obtain ⟨m, hm, ⟨what, rfl, rfl, rfl⟩ | ⟨ps, u, as, rfl, hlen, has, hres⟩⟩ := typeRef_named_ok hty
    · refine ⟨?_, meaning_spelling hc hw'.1 hm⟩
      rw [typeRef, bind_ok]
      exact ⟨_, t, h.meaning hw'.1 hm, by simp⟩
    · obtain ⟨target, hal⟩ := meaning_generic hm
      obtain ⟨has', hspelled⟩ := argsFor_alike ho hd h hc hroom hw'.2 has
      obtain rfl := argsFor_same ho has
      have hbody : ∀ {ty}, (match allKnown as with
          | some resolved => instantiateAlias e id resolved
          | none => pure Ty.dependent : CheckM Ty) t = .ok ty t → typeRef e (.named sp id args) t = .ok ty t := by
        intro ty hres
        rw [typeRef, bind_ok]
        refine ⟨_, t, h.meaning hw'.1 hm, ?_⟩
        simp only [hlen, ne_eq, not_true_eq_false, if_false, bind_ok]
        exact ⟨as, t, has', hres⟩
      obtain ⟨full, hfull, hi⟩ | ⟨hnone, rfl, rfl⟩ := hres
      · have hargs : ∀ a ∈ full, ∀ n ∈ a.spelling, P n := fun a ha => hspelled a (mem_of_allKnown hfull a ha)
        obtain ⟨hi', hty'⟩ := instantiateAlias_alike hd h hc hroom hal (hc.generic hw'.1 hal) hargs hi
        exact ⟨hbody (by rw [hfull]; exact hi'), hty'⟩
      · exact ⟨hbody (by rw [hnone]; rfl), by simp [Ty.spelling]⟩

theorem argsFor_alike (ho : d.Orderly) (hd : Reads P d.typeRef e.typeRef) (h : Alike P s t) (hc : ClosedNames P s)
    (hroom : Roomier s t) : ∀ {as : List TypeArg} {ps : List ParamDecl} {s' : Checker} {r : List (Option TemplateArg)},
      (∀ n ∈ TypeArg.allFree [] as, P n) → argsFor d ps as s = .ok r s' →
        argsFor e ps as t = .ok r t ∧ ∀ a, some a ∈ r → ∀ n ∈ a.spelling, P n
  | [], ps, s', r, _, has => by
    cases ps <;> simp only [argsFor, pure_ok] at has ⊢ <;> simp [← has.1]
  | a :: as, [], s', r, _, has => by
    simp only [argsFor, pure_ok] at has ⊢
    simp [← has.1]
  | a :: as, p :: ps, s', r, hw, has => by
    simp only [argsFor, bind_ok, pure_ok] at has
    obtain ⟨x, u, ha, xs, _, hxs, rfl, rfl⟩ := has
    obtain rfl := argFor_same ho ha
    simp only [TypeArg.allFree, List.mem_append] at hw
    obtain ⟨ha', hspelled⟩ := argFor_alike ho hd h hc hroom (fun n hn => hw n (.inl hn)) ha
    obtain ⟨hxs', hspelleds⟩ := argsFor_alike ho hd h hc hroom (fun n hn => hw n (.inr hn)) hxs
    refine ⟨?_, fun b hb => ?_⟩
    · simp only [argsFor, bind_ok, pure_ok]
      exact ⟨x, t, ha', xs, t, hxs', rfl, rfl⟩
    · rcases List.mem_cons.1 hb with rfl | hb
      · exact hspelled b rfl
      · exact hspelleds b hb

theorem argFor_alike (ho : d.Orderly) (hd : Reads P d.typeRef e.typeRef) (h : Alike P s t) (hc : ClosedNames P s)
    (hroom : Roomier s t) : ∀ {a : TypeArg} {p : ParamDecl} {s' : Checker} {r : Option TemplateArg},
      (∀ n ∈ a.free [], P n) → argFor d p a s = .ok r s' →
        argFor e p a t = .ok r t ∧ ∀ b, r = some b → ∀ n ∈ b.spelling, P n
  | .value v, ⟨_, .type _⟩, s', r, hw, ha => by
    simp only [argFor] at ha
    exact absurd ha fail_ok
  | .value v, ⟨_, .const⟩, s', r, hw, ha => by
    simp only [argFor] at ha ⊢
    exact ⟨h.valueArg hw ha, valueArg_spelling ha⟩
  | .type w, ⟨_, .type _⟩, s', r, hw, ha => by
    simp only [argFor, bind_ok, pure_ok] at ha ⊢
    obtain ⟨ty, _, hty, rfl, rfl⟩ := ha
    obtain ⟨hty', hspelled⟩ := typeRef_alike ho hd h hc hroom hw hty
    refine ⟨⟨ty, t, hty', rfl, rfl⟩, fun b hb => ?_⟩
    unfold typeArgOf at hb
    split at hb
    · cases hb
    · cases hb
      exact hspelled
  | .type w, ⟨_, .const⟩, s', r, hw, ha => by
    obtain ⟨sp, id, rfl, hv⟩ := argFor_const_ok ha
    simp only [argFor]
    refine ⟨h.valueArg (fun n hn => hw n ?_) hv, valueArg_spelling hv⟩
    simpa [TypeArg.free, TypeRef.free, Expr.freeConstants, Expr.constants] using hn

end

theorem typeRefAt_reads_alike : ∀ {n m : Nat}, n ≤ m → Reads P (typeRefAt n) (typeRefAt m)
  | 0, _, _ => fun _ _ _ _ h => absurd h fail_ok
  | n + 1, _ + 1, hnm => fun h hc hroom hw hty =>
    typeRef_alike (typeRefAt_orderly n) (typeRefAt_reads_alike (Nat.le_of_succ_le_succ hnm)) h hc hroom hw hty

/-! ## Places that leave the names alone -/

/-- **Nothing around the place takes one of the names**: no template has it for a parameter, and no block declares a
record under it. -/
structure Undisturbed (P : String → Prop) (globals : Table String) (s : Checker) : Prop where
  params : ∀ n, P n → s.place.param? n = none
  blocks : ∃ blocks, s.place.types = blocks ++ [globals] ∧ ∀ n, P n → inBlocks blocks n = none

theorem Undisturbed.recordName? {globals : Table String} (h : Undisturbed P globals s) {n : String} (hn : P n) :
    s.recordName? n =
      (globals.find? n).or (if n.toList.contains '\'' && s.records.contains n then some n else none) := by
  obtain ⟨blocks, hplace, hnone⟩ := h.blocks
  have hblocks : blocks.findSome? (Table.find? · n) = none := hnone n hn
  have hglobals : [globals].findSome? (Table.find? · n) = globals.find? n := by
    cases hg : globals.find? n <;> simp [hg]
  unfold Checker.recordName?
  rw [hplace, List.findSome?_append, hblocks, Option.none_or, hglobals]
  cases globals.find? n <;> rfl

/-- Two such places agree, if they know the same of what the names carry out of blocks. -/
theorem Undisturbed.alike {globals : Table String} (hs : Undisturbed P globals s) (ht : Undisturbed P globals t)
    (ha : t.aliases = s.aliases) (htraits : t.traits = s.traits)
    (hr : ∀ n, P n → '\'' ∈ n.toList → t.records.contains n = s.records.contains n) : Alike P s t where
  aliases := ha
  traits := htraits
  params := fun n hn => (ht.params n hn).trans (hs.params n hn).symm
  records := fun n hn => by
    rw [hs.recordName? hn, ht.recordName? hn]
    by_cases hq : '\'' ∈ n.toList
    · rw [hr n hn hq]
    · simp [hq]

/-- **An alias with parameters means one type**, at every two places that leave alone what its target mentions and what
its arguments are spelled with, as far down as there are levels for it. -/
theorem instantiateAlias_undisturbed {globals : Table String} (hs : Undisturbed P globals s)
    (ht : Undisturbed P globals t) (ha : t.aliases = s.aliases) (htraits : t.traits = s.traits)
    (hr : ∀ n, P n → '\'' ∈ n.toList → t.records.contains n = s.records.contains n) (hc : ClosedNames P s)
    {n m : Nat} (hroom : Roomier s t) (hnm : n ≤ m) {id : Ident} {args : List TemplateArg} {ps : ParamLevel}
    {target : TypeRef} {ty : Ty} (hal : s.aliases.find? id.name = some (.generic ps target))
    (htarget : ∀ k ∈ target.free ps.names, P k) (hargs : ∀ a ∈ args, ∀ k ∈ a.spelling, P k)
    (h : instantiateAlias (levels n) id args s = .ok ty s') : instantiateAlias (levels m) id args t = .ok ty t :=
  (instantiateAlias_alike (d := levels n) (e := levels m) (typeRefAt_reads_alike hnm) (hs.alike ht ha htraits hr) hc hroom
    hal htarget hargs h).1

/-- **An alias without parameters means one type**, wherever its name is read as that of an alias. -/
theorem plainAlias_means {sp : Span} {id : Ident} {ty : Ty} (hb : Ty.builtin? id.name = none)
    (hp : s.place.param? id.name = none) (hr : s.recordName? id.name = none)
    (ha : s.aliases.find? id.name = some (.plain ty)) : typeRef d (.named sp id []) s = .ok ty s := by
  have hm : meaning id s = .ok (.plain .typeAlias ty) s := by
    unfold meaning
    rw [bind_ok]
    refine ⟨s, s, rfl, ?_⟩
    simp [hb, hp, hr, ha]
  rw [typeRef, bind_ok]
  exact ⟨_, s, hm, rfl⟩

/-- A program with an alias `Same` for a record `R`, and a cell `main(x: Same)` that declares an `R` of its own before it
says `val y: Same = x`. -/
def redeclaring (params : List TemplateParam) (args : List TypeArg) : Program :=
  let same : TypeRef := .named nowhere (bareName "Same") args
  [.record ⟨nowhere, bareName "R", []⟩, .typeAlias nowhere (bareName "Same") params (.named nowhere (bareName "R") []),
    .cell ⟨nowhere, bareName "main", [], [⟨nowhere, bareName "x", false, same⟩], none, ⟨nowhere,
      [.record ⟨nowhere, bareName "R", []⟩,
        .val ⟨nowhere, bareName "y", false, some same, .name nowhere (bareName "x")⟩]⟩⟩]

/-- Without parameters it means the global record before and after. -/
example : (Program.check (redeclaring [] []) .standard).toOption.isSome = true := by decide +kernel

/-- With a parameter it means the global record before, and the record of the block after. -/
example : (Program.check (redeclaring [⟨nowhere, bareName "T", .type none⟩]
    [.type (.named nowhere (bareName "int") [])]) .standard).toOption.isSome = false := by decide +kernel

end Check
end Unroll
