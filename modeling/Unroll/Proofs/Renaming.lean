import Unroll.Checker.Program
import Unroll.Proofs.Check.Settled
/-!
# Names in place of names

A record that a block declares is named after a count that goes through the whole program, so a cell is checked with
other names where other cells come before it.  A renaming gives names in place of names, and leaves alone all that have no
quote in them.  Substitution and the resolution of names do not look at what a name is, but for the quote, so they go on
in the same way with the names that stand in place of theirs.
-/
namespace Unroll

/-- A name in place of each name: no two become one, and a name without a quote stays. -/
structure Renaming where
  name : String → String
  injective : Function.Injective name
  plain : ∀ {n}, '\'' ∉ n.toList → name n = n

namespace Renaming

variable (ρ : Renaming) {n m : String}

theorem name_eq_iff : ρ.name n = ρ.name m ↔ n = m := ρ.injective.eq_iff

theorem fixed_of_plain (h : '\'' ∉ (ρ.name n).toList) : ρ.name n = n := ρ.injective (ρ.plain h)

theorem quote_iff : '\'' ∈ (ρ.name n).toList ↔ '\'' ∈ n.toList := by
  constructor
  · intro h
    by_contra hn
    exact hn (ρ.plain hn ▸ h)
  · intro h
    by_contra hn
    exact hn ((ρ.fixed_of_plain hn).symm ▸ h)

/-- **What is known of names that stay** is known of no other name. -/
theorem lookup_name {α : Type} {f : String → Option α} (hf : ∀ n a, f n = some a → ρ.name n = n) (n : String) :
    f (ρ.name n) = f n := by
  cases h : f n with
  | some a => rw [hf n a h, h]
  | none =>
    cases h' : f (ρ.name n) with
    | none => rfl
    | some a =>
      have hn : ρ.name n = n := ρ.injective (hf _ a h')
      rw [hn, h] at h'
      cases h'

theorem builtin_plain {b : Ty} (h : Ty.builtin? n = some b) : ρ.name n = n :=
  ρ.plain fun hq => by
    rw [Check.builtin_no_quote hq] at h
    cases h

def ident (id : Ident) : Ident := ⟨ρ.name id.name, id.span⟩

/-- All names of the list stay. -/
def Fixes (names : List String) : Prop := ∀ n ∈ names, ρ.name n = n

variable {ρ}

@[simp] theorem fixes_nil : ρ.Fixes [] := fun _ h => absurd h List.not_mem_nil

@[simp] theorem fixes_cons {ns : List String} : ρ.Fixes (n :: ns) ↔ ρ.name n = n ∧ ρ.Fixes ns := List.forall_mem_cons

theorem ident_fixed {id : Ident} (h : ρ.name id.name = id.name) : ρ.ident id = id := by
  unfold ident
  rw [h]

end Renaming

/-! ## Types -/

variable (ρ : Renaming)

mutual

/-- The type with other names for its records. -/
def Ty.renamed : Ty → Ty
  | .unit => .unit
  | .bool => .bool
  | .int => .int
  | .char => .char
  | .text => .text
  | .array elem n => .array elem.renamed n
  | .record n => .record (ρ.name n)
  | .list ts => .list (Ty.allRenamed ts)
  | .param n => .param (ρ.name n)
  | .dependent => .dependent
  | .error => .error

def Ty.allRenamed : List Ty → List Ty
  | [] => []
  | t :: ts => t.renamed :: Ty.allRenamed ts

end

def TemplateArg.renamed : TemplateArg → TemplateArg
  | .type t => .type (t.renamed ρ)
  | .value v => .value v

mutual

/-- With other names for types; names of values stay. -/
def Expr.renamed : Expr → Expr
  | .name sp id => .name sp id
  | .int sp v => .int sp v
  | .char sp c => .char sp c
  | .bool sp b => .bool sp b
  | .text sp s => .text sp s
  | .list sp items => .list sp (Expr.allRenamed items)
  | .array sp items => .array sp (Expr.allRenamed items)
  | .record sp type fs => .record sp (ρ.ident type) (Expr.fieldsRenamed fs)
  | .unary sp op e => .unary sp op e.renamed
  | .binary sp l op r => .binary sp l.renamed op r.renamed
  | .member sp base m => .member sp base.renamed m
  | .index sp base i => .index sp base.renamed i.renamed
  | .call sp callee generic args => .call sp callee (TypeArg.allRenamed generic) (Expr.allRenamed args)
  | .listSelect sp list i => .listSelect sp list.renamed i.renamed
  | .memberSelect sp base ms i => .memberSelect sp base.renamed ms i.renamed

def Expr.allRenamed : List Expr → List Expr
  | [] => []
  | e :: es => e.renamed :: Expr.allRenamed es

def Expr.fieldsRenamed : List (Ident × Expr) → List (Ident × Expr)
  | [] => []
  | (f, e) :: fs => (f, e.renamed) :: Expr.fieldsRenamed fs

def TypeRef.renamed : TypeRef → TypeRef
  | .named sp id args => .named sp (ρ.ident id) (TypeArg.allRenamed args)
  | .array sp elem len => .array sp elem.renamed len.renamed

def TypeArg.renamed : TypeArg → TypeArg
  | .type t => .type t.renamed
  | .value e => .value e.renamed

def TypeArg.allRenamed : List TypeArg → List TypeArg
  | [] => []
  | a :: as => a.renamed :: TypeArg.allRenamed as

end

variable {ρ}

mutual

theorem Ty.renamed_injective : ∀ {t u : Ty}, t.renamed ρ = u.renamed ρ → t = u
  | .unit, u, h | .bool, u, h | .int, u, h | .char, u, h | .text, u, h | .dependent, u, h | .error, u, h => by
    cases u <;> first | rfl | cases h
  | .array elem n, u, h => by
    cases u with
    | array elem' n' =>
      simp only [Ty.renamed, Ty.array.injEq] at h ⊢
      exact ⟨Ty.renamed_injective h.1, h.2⟩
    | _ => cases h
  | .record n, u, h => by
    cases u with
    | record m => exact congrArg Ty.record (ρ.injective (Ty.record.inj h))
    | _ => cases h
  | .param n, u, h => by
    cases u with
    | param m => exact congrArg Ty.param (ρ.injective (Ty.param.inj h))
    | _ => cases h
  | .list ts, u, h => by
    cases u with
    | list us =>
      simp only [Ty.renamed, Ty.list.injEq] at h ⊢
      exact Ty.allRenamed_injective h
    | _ => cases h

theorem Ty.allRenamed_injective : ∀ {ts us : List Ty}, Ty.allRenamed ρ ts = Ty.allRenamed ρ us → ts = us
  | [], us, h => by
    cases us with
    | nil => rfl
    | cons u us => cases h
  | t :: ts, us, h => by
    cases us with
    | nil => cases h
    | cons u us =>
      simp only [Ty.allRenamed, List.cons.injEq] at h ⊢
      exact ⟨Ty.renamed_injective h.1, Ty.allRenamed_injective h.2⟩

end

@[simp] theorem Ty.renamed_eq_iff {t u : Ty} : t.renamed ρ = u.renamed ρ ↔ t = u :=
  ⟨Ty.renamed_injective, fun h => h ▸ rfl⟩

theorem Ty.allRenamed_eq (ts : List Ty) : Ty.allRenamed ρ ts = ts.map (Ty.renamed ρ) := by
  induction ts with
  | nil => rfl
  | cons t ts ih => rw [Ty.allRenamed, ih, List.map_cons]

mutual

@[simp] theorem Ty.renamed_isDependent : ∀ t : Ty, (t.renamed ρ).isDependent = t.isDependent
  | .unit | .bool | .int | .char | .text | .record _ | .param _ | .dependent | .error => rfl
  | .array elem n => by simp only [Ty.renamed, Ty.isDependent, Ty.renamed_isDependent elem]
  | .list ts => by simp only [Ty.renamed, Ty.isDependent, Ty.allRenamed_anyDependent ts]

theorem Ty.allRenamed_anyDependent : ∀ ts : List Ty, Ty.anyDependent (Ty.allRenamed ρ ts) = Ty.anyDependent ts
  | [] => rfl
  | t :: ts => by
    simp only [Ty.allRenamed, Ty.anyDependent, Ty.renamed_isDependent t, Ty.allRenamed_anyDependent ts]

end

mutual

@[simp] theorem Ty.renamed_isUnknown : ∀ t : Ty, (t.renamed ρ).isUnknown = t.isUnknown
  | .unit | .bool | .int | .char | .text | .record _ | .param _ | .dependent | .error => rfl
  | .array elem n => by
    simp only [Ty.renamed, Ty.isUnknown, Ty.isDependent, Ty.renamed_isUnknown elem, Ty.renamed_isDependent elem]
  | .list ts => by simp only [Ty.renamed, Ty.isUnknown, Ty.allRenamed_anyUnknown ts]

theorem Ty.allRenamed_anyUnknown : ∀ ts : List Ty, Ty.anyUnknown (Ty.allRenamed ρ ts) = Ty.anyUnknown ts
  | [] => rfl
  | t :: ts => by
    simp only [Ty.allRenamed, Ty.anyUnknown, Ty.renamed_isUnknown t, Ty.allRenamed_anyUnknown ts]

end

theorem TypeRef.bare_renamed {sp : Span} {n : String} (h : ρ.name n = n) : (TypeRef.bare sp n).renamed ρ = .bare sp n :=
  congrArg (TypeRef.bare sp) h

theorem Ty.renamed_toTypeRef? (sp : Span) : ∀ t : Ty,
    (t.renamed ρ).toTypeRef? sp = (t.toTypeRef? sp).map (TypeRef.renamed ρ)
  | .unit => congrArg some (TypeRef.bare_renamed (ρ.plain (by decide))).symm
  | .bool => congrArg some (TypeRef.bare_renamed (ρ.plain (by decide))).symm
  | .int => congrArg some (TypeRef.bare_renamed (ρ.plain (by decide))).symm
  | .char => congrArg some (TypeRef.bare_renamed (ρ.plain (by decide))).symm
  | .text => congrArg some (TypeRef.bare_renamed (ρ.plain (by decide))).symm
  | .record _ | .param _ | .list _ | .dependent | .error | .array _ none => rfl
  | .array elem (some n) => by
    simp only [Ty.renamed, Ty.toTypeRef?, Ty.renamed_toTypeRef? sp elem]
    split
    · cases elem.toTypeRef? sp <;> rfl
    · rfl

theorem Ty.renamed_builtin {n : String} {b : Ty} (h : Ty.builtin? n = some b) : b.renamed ρ = b := by
  unfold Ty.builtin? at h
  split at h <;> cases h <;> rfl

/-! ## Constants -/

/-- Constants are made of names of values. -/
theorem Const.eval_renamed {env : String → Option Const} : ∀ e : Expr, Const.eval env (e.renamed ρ) = Const.eval env e
  | .unary _ _ e => by simp only [Expr.renamed, Const.eval, Const.eval_renamed e]
  | .binary _ l _ r => by simp only [Expr.renamed, Const.eval, Const.eval_renamed l, Const.eval_renamed r]
  | .name _ _ | .int _ _ | .char _ _ | .bool _ _ | .text _ _ | .list _ _ | .array _ _ | .record _ _ _ | .member _ _ _
  | .index _ _ _ | .call _ _ _ _ | .listSelect _ _ _ | .memberSelect _ _ _ _ => rfl

theorem Expr.allRenamed_eq (es : List Expr) : Expr.allRenamed ρ es = es.map (Expr.renamed ρ) := by
  induction es with
  | nil => rfl
  | cons e es ih => rw [Expr.allRenamed, ih, List.map_cons]

/-! ## Substitution -/

variable (ρ) in
def ArgLevel.renamed : ArgLevel → ArgLevel
  | .retained => .retained
  | .bound names args => .bound names (args.map (TemplateArg.renamed ρ))

variable (ρ) in
def ArgLevels.renamed (ls : ArgLevels) : ArgLevels := ls.map (ArgLevel.renamed ρ)

theorem ArgLevels.renamed_lookup? (ls : ArgLevels) (n : String) :
    (ArgLevels.renamed ρ ls).lookup? n = (ls.lookup? n).map (TemplateArg.renamed ρ) := by
  have hlevel : ∀ l : ArgLevel, (l.renamed ρ).lookup? n = (l.lookup? n).map (TemplateArg.renamed ρ) := by
    intro l
    cases l with
    | retained => rfl
    | bound names args =>
      simp only [ArgLevel.renamed, ArgLevel.lookup?]
      cases names.idxOf? n with
      | none => rfl
      | some i => simp
  unfold ArgLevels.renamed ArgLevels.lookup?
  rw [← List.map_reverse, List.findSome?_map, List.map_findSome?]
  exact congrArg (List.findSome? · ls.reverse) (funext hlevel)

/-- Outcomes of which the messages do not count. -/
theorem toOption_bind {ε α β : Type} (x : Except ε α) (f : α → Except ε β) :
    (x >>= f).toOption = x.toOption.bind fun a => (f a).toOption := by
  cases x <;> rfl

theorem toOption_map {ε α β : Type} (x : Except ε α) (f : α → β) : (f <$> x).toOption = x.toOption.map f := by
  cases x <;> rfl

namespace Subst

variable {ls : ArgLevels}

/-- Only names that stay are filled in. -/
def Filling (ρ : Renaming) (ls : ArgLevels) : Prop := ∀ n a, ls.lookup? n = some a → ρ.name n = n

theorem Filling.lookup? (h : Filling ρ ls) (n : String) :
    (ArgLevels.renamed ρ ls).lookup? (ρ.name n) = (ls.lookup? n).map (TemplateArg.renamed ρ) := by
  rw [ArgLevels.renamed_lookup?, ρ.lookup_name h]

theorem literal?_renamed (e : Expr) : literal? (e.renamed ρ) = literal? e := by cases e <;> rfl

theorem item?_map {α β : Type} (f : α → β) (items : List α) (i : Int) : item? (items.map f) i = (item? items i).map f := by
  unfold item?
  split <;> simp

theorem foldListSelect_renamed (sp : Span) (list index : Expr) :
    (foldListSelect sp (list.renamed ρ) (index.renamed ρ)).toOption =
      (foldListSelect sp list index).toOption.map (Expr.renamed ρ) := by
  unfold foldListSelect
  rw [literal?_renamed]
  cases literal? index with
  | none => rfl
  | some i =>
    cases list with
    | list lsp items =>
      simp only [Expr.renamed, Expr.allRenamed_eq, item?_map]
      cases item? items i <;> rfl
    | _ => rfl

theorem foldMemberSelect_renamed (sp : Span) (base : Expr) (ms : List Ident) (index : Expr) :
    (foldMemberSelect sp (base.renamed ρ) ms (index.renamed ρ)).toOption =
      (foldMemberSelect sp base ms index).toOption.map (Expr.renamed ρ) := by
  unfold foldMemberSelect
  rw [literal?_renamed]
  cases literal? index with
  | none => rfl
  | some i => cases h : item? ms i <;> simp [h] <;> rfl

theorem name_renamed (sp : Span) (id : Ident) :
    (name (ArgLevels.renamed ρ ls) sp id).toOption = (name ls sp id).toOption.map (Expr.renamed ρ) := by
  unfold name
  rw [ArgLevels.renamed_lookup?]
  cases ls.lookup? id.name with
  | none => rfl
  | some a => cases a <;> rfl

theorem typeName_renamed (h : Filling ρ ls) (sp : Span) (id : Ident) :
    (typeName (ArgLevels.renamed ρ ls) sp (ρ.ident id)).toOption =
      (typeName ls sp id).toOption.map (TypeRef.renamed ρ) := by
  unfold typeName
  rw [show (ρ.ident id).name = ρ.name id.name from rfl, h.lookup?]
  cases ls.lookup? id.name with
  | none => rfl
  | some a =>
    cases a with
    | value v => rfl
    | type t =>
      simp only [Option.map_some, TemplateArg.renamed, Ty.renamed_toTypeRef?]
      cases t.toTypeRef? sp <;> rfl

theorem recordName_renamed (h : Filling ρ ls) (id : Ident) :
    recordName (ArgLevels.renamed ρ ls) (ρ.ident id) = ρ.ident (recordName ls id) := by
  unfold recordName
  rw [show (ρ.ident id).name = ρ.name id.name from rfl, h.lookup?]
  cases ls.lookup? id.name with
  | none => rfl
  | some a =>
    cases a with
    | value v => rfl
    | type t => cases t <;> rfl

mutual

/-- **Substitution goes on in the same way** with other names in the tree and in the arguments. -/
theorem expr_renamed (h : Filling ρ ls) : ∀ e : Expr,
    (expr (ArgLevels.renamed ρ ls) (e.renamed ρ)).toOption = (expr ls e).toOption.map (Expr.renamed ρ)
  | .name sp id => name_renamed sp id
  | .int _ _ | .char _ _ | .bool _ _ | .text _ _ => rfl
  | .list _ items | .array _ items => by
    simp only [Expr.renamed, expr, toOption_bind, exprs_renamed h items]
    cases (exprs ls items).toOption <;> rfl
  | .record sp type fs => by
    simp only [Expr.renamed, expr, toOption_bind, fields_renamed h fs, recordName_renamed h]
    cases (fields ls fs).toOption <;> rfl
  | .unary _ _ e | .member _ e _ => by
    simp only [Expr.renamed, expr, toOption_bind, expr_renamed h e]
    cases (expr ls e).toOption <;> rfl
  | .binary _ l _ r | .index _ l r => by
    simp only [Expr.renamed, expr, toOption_bind, expr_renamed h l, expr_renamed h r]
    cases (expr ls l).toOption <;> cases (expr ls r).toOption <;> rfl
  | .call _ _ generic args => by
    simp only [Expr.renamed, expr, toOption_bind, typeArgs_renamed h generic, exprs_renamed h args]
    cases (typeArgs ls generic).toOption <;> cases (exprs ls args).toOption <;> rfl
  | .listSelect sp l i => by
    simp only [Expr.renamed, expr, toOption_bind, expr_renamed h l, expr_renamed h i]
    cases (expr ls l).toOption <;> cases (expr ls i).toOption <;> first | rfl | exact foldListSelect_renamed _ _ _
  | .memberSelect sp b ms i => by
    simp only [Expr.renamed, expr, toOption_bind, expr_renamed h b, expr_renamed h i]
    cases (expr ls b).toOption <;> cases (expr ls i).toOption <;> first | rfl | exact foldMemberSelect_renamed _ _ _ _

theorem exprs_renamed (h : Filling ρ ls) : ∀ es : List Expr,
    (exprs (ArgLevels.renamed ρ ls) (Expr.allRenamed ρ es)).toOption = (exprs ls es).toOption.map (Expr.allRenamed ρ)
  | [] => rfl
  | e :: es => by
    simp only [Expr.allRenamed, exprs, toOption_bind, expr_renamed h e, exprs_renamed h es]
    cases (expr ls e).toOption <;> cases (exprs ls es).toOption <;> rfl

theorem fields_renamed (h : Filling ρ ls) : ∀ fs : List (Ident × Expr),
    (fields (ArgLevels.renamed ρ ls) (Expr.fieldsRenamed ρ fs)).toOption =
      (fields ls fs).toOption.map (Expr.fieldsRenamed ρ)
  | [] => rfl
  | (f, e) :: fs => by
    simp only [Expr.fieldsRenamed, fields, toOption_bind, expr_renamed h e, fields_renamed h fs]
    cases (expr ls e).toOption <;> cases (fields ls fs).toOption <;> rfl

theorem typeRef_renamed (h : Filling ρ ls) : ∀ w : TypeRef,
    (typeRef (ArgLevels.renamed ρ ls) (w.renamed ρ)).toOption = (typeRef ls w).toOption.map (TypeRef.renamed ρ)
  | .named sp id [] => typeName_renamed h sp id
  | .named sp id (a :: as) => by
    simp only [TypeRef.renamed, TypeArg.allRenamed, typeRef, typeArgs, toOption_bind, typeArg_renamed h a,
      typeArgs_renamed h as]
    cases (typeArg ls a).toOption <;> cases (typeArgs ls as).toOption <;> rfl
  | .array sp elem len => by
    simp only [TypeRef.renamed, typeRef, toOption_bind, typeRef_renamed h elem, expr_renamed h len]
    cases (typeRef ls elem).toOption <;> cases (expr ls len).toOption <;> rfl

theorem typeArg_renamed (h : Filling ρ ls) : ∀ a : TypeArg,
    (typeArg (ArgLevels.renamed ρ ls) (a.renamed ρ)).toOption = (typeArg ls a).toOption.map (TypeArg.renamed ρ)
  | .type (.named sp id []) => by
    simp only [TypeArg.renamed, TypeRef.renamed, TypeArg.allRenamed, typeArg]
    rw [show (ρ.ident id).name = ρ.name id.name from rfl, h.lookup?]
    have hname := typeName_renamed h sp id
    cases ls.lookup? id.name with
    | none =>
      simp only [Option.map_none, toOption_map, hname]
      cases (typeName ls sp id).toOption <;> rfl
    | some a =>
      cases a with
      | value v => rfl
      | type t =>
        simp only [Option.map_some, TemplateArg.renamed, toOption_map, hname]
        cases (typeName ls sp id).toOption <;> rfl
  | .type (.named sp id (a :: as)) => by
    have hw := typeRef_renamed h (.named sp id (a :: as))
    simp only [TypeArg.renamed, TypeRef.renamed, TypeArg.allRenamed, typeArg, toOption_map] at hw ⊢
    rw [hw]
    cases (typeRef ls (.named sp id (a :: as))).toOption <;> rfl
  | .type (.array sp elem len) => by
    have hw := typeRef_renamed h (.array sp elem len)
    simp only [TypeArg.renamed, TypeRef.renamed, typeArg, toOption_map] at hw ⊢
    rw [hw]
    cases (typeRef ls (.array sp elem len)).toOption <;> rfl
  | .value e => by
    simp only [TypeArg.renamed, typeArg, toOption_map, expr_renamed h e]
    cases (expr ls e).toOption <;> rfl

theorem typeArgs_renamed (h : Filling ρ ls) : ∀ as : List TypeArg,
    (typeArgs (ArgLevels.renamed ρ ls) (TypeArg.allRenamed ρ as)).toOption =
      (typeArgs ls as).toOption.map (TypeArg.allRenamed ρ)
  | [] => rfl
  | a :: as => by
    simp only [TypeArg.allRenamed, typeArgs, toOption_bind, typeArg_renamed h a, typeArgs_renamed h as]
    cases (typeArg ls a).toOption <;> cases (typeArgs ls as).toOption <;> rfl

end

end Subst

end Unroll
