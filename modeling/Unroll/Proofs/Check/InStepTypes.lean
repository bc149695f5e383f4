import Unroll.Proofs.Check.InStep
import Unroll.Proofs.Unchanged
import Unroll.Proofs.Check.Unwinding
/-!
# Types and declared names in step

A name that stays means types that stand in place of each other, and so does whatever is written with such names.  A
record that a block declares gets the name that stands in place of the other one's, and the states are the same as before
but for that.
-/
namespace Unroll
namespace Check

open CheckM Outcome Checker

variable {ρ : Renaming}

namespace SameUpTo

variable {s t : Checker}

theorem param? (h : SameUpTo ρ s t) (n : String) : t.place.param? n = s.place.param? n := by
  rw [h.place]
  rfl

theorem param?_name (h : SameUpTo ρ s t) (n : String) : t.place.param? (ρ.name n) = s.place.param? n := by
  rw [h.param?, h.fixed.param?_name]

theorem record? (h : SameUpTo ρ s t) (ty : Ty) : t.record? (ty.renamed ρ) = (s.record? ty).map (RecordInfo.renamed ρ) := by
  cases ty with
  | record n => exact h.records n
  | _ => rfl

theorem contains_record (h : SameUpTo ρ s t) (n : String) : t.records.contains (ρ.name n) = s.records.contains n := by
  unfold Table.contains
  rw [h.records, Option.isSome_map]

/-- **The same written name stands for records that stand in place of each other.** -/
theorem recordName? (h : SameUpTo ρ s t) (n : String) : t.recordName? (ρ.name n) = (s.recordName? n).map ρ.name := by
  have hquote : (ρ.name n).toList.contains '\'' = n.toList.contains '\'' := by
    rw [Bool.eq_iff_iff, List.contains_iff_mem, List.contains_iff_mem]
    exact ρ.quote_iff
  unfold Checker.recordName?
  rw [h.place, Place.renamed_type?, h.fixed.type?_name, hquote, h.contains_record]
  cases s.place.types.findSome? (Table.find? · n) with
  | some c => rfl
  | none =>
    simp only [Option.map_none]
    split <;> rfl

theorem alias? (h : SameUpTo ρ s t) (n : String) : t.aliases.find? (ρ.name n) = s.aliases.find? n := by
  rw [h.aliases]
  exact ρ.lookup_name (f := s.aliases.find?) h.stays.alias_name n

end SameUpTo

/-! ## Constants -/

theorem const_inStep (e : Expr) : InStep ρ (fun a b => b = a) (const e) (const (e.renamed ρ)) := by
  refine .bind .place fun {p q} hpq => ?_
  have hconst : q.constant? = p.constant? := by
    rw [hpq.1]
    rfl
  rw [hconst, Const.eval_renamed]
  exact .ofExcept_same rfl

/-- A bare name that stands for a value. -/
theorem const_name_inStep (sp : Span) (id : Ident) :
    InStep ρ (fun a b => b = a) (const (.name sp id)) (const (.name sp (ρ.ident id))) := by
  refine .bind .place fun {p q} hpq => ?_
  have hconst : q.constant? (ρ.name id.name) = p.constant? id.name := by
    rw [hpq.1]
    unfold Place.constant?
    rw [show (p.renamed ρ).param? (ρ.name id.name) = p.param? id.name from hpq.2.param?_name id.name]
  refine .ofExcept_same ?_
  simp only [Const.eval, Renaming.ident, hconst]
  cases p.constant? id.name <;> rfl

theorem length_inStep (elem : Ty) (len : Expr) :
    InStep ρ (fun a b => b = a.renamed ρ) (length elem len) (length (elem.renamed ρ) (len.renamed ρ)) := by
  refine .bind (const_inStep len) fun {c c'} hc => ?_
  subst hc
  cases c' with
  | int n =>
    dsimp only
    split
    · exact .pure rfl
    · exact .fail _ _ _ _
  | dependent => exact .pure rfl
  | bool b => exact .fail _ _ _ _

theorem valueArg_of_const {p : ParamDecl} {e e' : Expr} (h : InStep ρ (fun a b => b = a) (const e) (const e')) :
    InStep ρ (fun a b => b = a.map (TemplateArg.renamed ρ)) (valueArg p e) (valueArg p e') := by
  refine .bind h fun {c c'} hc => ?_
  subst hc
  cases c' with
  | int n => exact .pure rfl
  | dependent => exact .pure rfl
  | bool b => exact .fail _ _ _ _

/-! ## Names of types -/

variable (ρ) in
def Meaning.renamed : Meaning → Meaning
  | .plain what t => .plain what (t.renamed ρ)
  | .generic ps => .generic ps

theorem meaning_inStep (id : Ident) :
    InStep ρ (fun a b => b = a.renamed ρ ∧ ∀ ps, a = .generic ps → ρ.Fixes ps.names) (meaning id) (meaning (ρ.ident id)) := by
  refine .bind .get fun {s t} hst => ?_
  rw [show (ρ.ident id).name = ρ.name id.name from rfl]
  rw [ρ.lookup_name (fun _ _ h => ρ.builtin_plain h), hst.param?_name, hst.recordName?, hst.alias?]
  cases hb : Ty.builtin? id.name with
  | some b => exact .pure ⟨by rw [Meaning.renamed, Ty.renamed_builtin hb], fun _ h => by cases h⟩
  | none =>
    cases s.place.param? id.name with
    | some d =>
      obtain ⟨n, sort⟩ := d
      cases sort with
      | type b => exact .pure ⟨rfl, fun _ h => by cases h⟩
      | const => exact .fail _ _ _ _
    | none =>
      cases s.recordName? id.name with
      | some c => exact .pure ⟨rfl, fun _ h => by cases h⟩
      | none =>
        cases ha : s.aliases.find? id.name with
        | some a =>
          cases a with
          | plain ty => exact .pure ⟨by rw [Meaning.renamed, hst.stays.plain ha], fun _ h => by cases h⟩
          | generic ps target =>
            refine .pure ⟨rfl, fun _ h => ?_⟩
            cases h
            exact (hst.stays.generic ha).2
        | none =>
          simp only [Option.map_none]
          split <;> split <;> exact .fail _ _ _ _

/-! ## Aliases -/

theorem typeSatisfies_renamed (t : Ty) (trait : String) : typeSatisfies (t.renamed ρ) trait = typeSatisfies t trait := by
  have hother : ∀ {u : Ty}, (u ≠ .int ∧ u ≠ .char ∧ u ≠ .bool ∧ u ≠ .text) → typeSatisfies u trait = false := by
    intro u hu
    unfold typeSatisfies
    split <;> simp_all
  cases t with
  | int | char | bool | text | unit | dependent | error => rfl
  | array | record | list | param => rw [hother (by simp [Ty.renamed]), hother (by simp)]

theorem checkArg_renamed {s t : Checker} (h : SameUpTo ρ s t) (sp sp' : Span) (p : ParamDecl) (a : TemplateArg) :
    (checkArg t sp' p (a.renamed ρ)).toOption = (checkArg s sp p a).toOption := by
  obtain ⟨n, sort⟩ := p
  cases sort with
  | const => cases a <;> rfl
  | type b =>
    cases a with
    | value v => cases b <;> rfl
    | type ty =>
      cases b with
      | none => rfl
      | some b =>
        have hsat : isSatisfied t b (ty.renamed ρ) = isSatisfied s b ty := by
          unfold isSatisfied
          rw [h.traits, typeSatisfies_renamed]
        simp only [checkArg, TemplateArg.renamed, hsat]
        split <;> rfl

theorem checkArgs_renamed {s t : Checker} (h : SameUpTo ρ s t) (id : Ident) (args : List TemplateArg) :
    (checkArgs t .typeAlias (ρ.ident id) (args.map (TemplateArg.renamed ρ))).toOption =
      (checkArgs s .typeAlias id args).toOption := by
  have hall : ∀ (ps : List ParamDecl) (as : List TemplateArg), ((ps.zip (as.map (TemplateArg.renamed ρ))).forM
      fun x => checkArg t (ρ.ident id).span x.1 x.2).toOption =
        ((ps.zip as).forM fun x => checkArg s id.span x.1 x.2).toOption := by
    intro ps
    induction ps with
    | nil => exact fun _ => rfl
    | cons p ps ih =>
      intro as
      cases as with
      | nil => rfl
      | cons a as =>
        show (checkArg t (ρ.ident id).span p (a.renamed ρ) >>= fun _ => List.forM _ _).toOption =
          (checkArg s id.span p a >>= fun _ => List.forM _ _).toOption
        rw [toOption_bind, toOption_bind, checkArg_renamed h id.span _ p a]
        exact congrArg _ (funext fun _ => ih as)
  unfold checkArgs templateParams
  rw [toOption_bind, toOption_bind]
  simp only [show (ρ.ident id).name = ρ.name id.name from rfl, h.alias?]
  cases s.aliases.find? id.name with
  | none => rfl
  | some a =>
    cases a with
    | plain ty => rfl
    | generic ps target =>
      have hok : (Except.ok ps : Except Diagnostic ParamLevel).toOption = some ps := rfl
      simp only [hok, Option.bind_some, List.length_map]
      by_cases hlen : args.length ≠ ps.params.length
      · simp only [if_pos hlen]
        rfl
      · simp only [if_neg hlen]
        exact hall _ _

/-- What one level down does is in step, too. -/
structure Deeper.InStep (ρ : Renaming) (d : Deeper) : Prop where
  typeRef : ∀ w, Check.InStep ρ (fun a b => b = a.renamed ρ) (d.typeRef w) (d.typeRef (w.renamed ρ))
  stmt : ∀ {x : Stmt}, x.Unchanged ρ → Check.InStep ρ (fun r r' => r' = r ∧ r.Unchanged ρ) (d.stmt x) (d.stmt x)

variable {d : Deeper}

theorem filling_bind {names : List String} (h : ρ.Fixes names) (args : List TemplateArg) :
    Subst.Filling ρ (ArgLevels.bind [] names args) := by
  intro n a ha
  rw [ArgLevels.lookup?_bind_nil] at ha
  exact h n (level_names ha).1

theorem instantiateAlias_inStep (hd : d.InStep ρ) (id : Ident) (args : List TemplateArg) :
    InStep ρ (fun a b => b = a.renamed ρ) (instantiateAlias d id args)
      (instantiateAlias d (ρ.ident id) (args.map (TemplateArg.renamed ρ))) := by
  refine .bind .get fun {s t} hst => ?_
  refine .bind (.ofExcept_same (checkArgs_renamed hst id args)) fun _ => ?_
  · simp only [show (ρ.ident id).name = ρ.name id.name from rfl, hst.alias?]
    cases ha : s.aliases.find? id.name with
    | none => exact .fail _ _ _ _
    | some a =>
      cases a with
      | plain ty => exact .fail _ _ _ _
      | generic ps target =>
        obtain ⟨htarget, hnames⟩ := hst.stays.generic ha
        refine .within _ _ (.bind (.ofExcept (f := TypeRef.renamed ρ) ?_) fun {w w'} hw => ?_)
        · have hsub := Subst.typeRef_renamed (filling_bind hnames args) target
          rwa [htarget] at hsub
        · subst hw
          exact hd.typeRef w

/-! ## Written types -/

theorem allKnown_map (f : TemplateArg → TemplateArg) : ∀ as : List (Option TemplateArg),
    allKnown (as.map (Option.map f)) = (allKnown as).map (List.map f)
  | [] => rfl
  | none :: _ => rfl
  | some a :: as => by
    simp only [List.map_cons, Option.map_some, allKnown, allKnown_map f as, Option.map_map]
    rfl

theorem typeArgOf_renamed (t : Ty) : typeArgOf (t.renamed ρ) = (typeArgOf t).map (TemplateArg.renamed ρ) := by
  unfold typeArgOf
  rw [Ty.renamed_isUnknown]
  split <;> rfl

theorem allRenamed_length (as : List TypeArg) : (TypeArg.allRenamed ρ as).length = as.length := by
  induction as with
  | nil => rfl
  | cons _ _ ih => exact congrArg (· + 1) ih

theorem allRenamed_isEmpty (as : List TypeArg) : (TypeArg.allRenamed ρ as).isEmpty = as.isEmpty := by cases as <;> rfl

mutual

/-- **A written type is resolved in step**, into types that stand in place of each other. -/
theorem typeRef_inStep (hd : d.InStep ρ) : ∀ w : TypeRef,
    InStep ρ (fun a b => b = a.renamed ρ) (typeRef d w) (typeRef d (w.renamed ρ))
  | .array _ elem len => by
    refine .bind (typeRef_inStep hd elem) fun h => ?_
    subst h
    exact length_inStep _ len
  | .named sp id args => by
    refine .bind (meaning_inStep id) fun {m m'} hm => ?_
    obtain ⟨rfl, hnames⟩ := hm
    cases m with
    | plain what t =>
      simp only [Meaning.renamed, allRenamed_isEmpty]
      split
      · exact .pure rfl
      · exact .fail _ _ _ _
    | generic ps =>
      simp only [Meaning.renamed, allRenamed_length]
      split
      · exact .fail _ _ _ _
      · refine .bind (argsFor_inStep hd args ps.params) fun {as bs} h => ?_
        subst h
        simp only [allKnown_map]
        cases allKnown as with
        | none => exact .pure rfl
        | some full => exact instantiateAlias_inStep hd id full

theorem argsFor_inStep (hd : d.InStep ρ) : ∀ (as : List TypeArg) (ps : List ParamDecl),
    InStep ρ (fun r r' => r' = r.map (Option.map (TemplateArg.renamed ρ))) (argsFor d ps as)
      (argsFor d ps (TypeArg.allRenamed ρ as))
  | [], ps => by
    cases ps <;> exact .pure rfl
  | a :: as, [] => .pure rfl
  | a :: as, p :: ps => by
    refine .bind (argFor_inStep hd a p) fun h => .bind (argsFor_inStep hd as ps) fun h' => .pure ?_
    subst h h'
    rfl

theorem argFor_inStep (hd : d.InStep ρ) : ∀ (a : TypeArg) (p : ParamDecl),
    InStep ρ (fun r r' => r' = r.map (TemplateArg.renamed ρ)) (argFor d p a) (argFor d p (a.renamed ρ))
  | .value e, ⟨_, .type _⟩ => .fail _ _ _ _
  | .value e, ⟨_, .const⟩ => valueArg_of_const (const_inStep e)
  | .type w, ⟨_, .type _⟩ => by
    refine .bind (typeRef_inStep hd w) fun h => .pure ?_
    subst h
    exact typeArgOf_renamed _
  | .type (.named sp id []), ⟨_, .const⟩ => valueArg_of_const (const_name_inStep sp ⟨id.name, sp⟩)
  | .type (.named _ _ (_ :: _)), ⟨_, .const⟩ | .type (.array _ _ _), ⟨_, .const⟩ => .fail _ _ _ _

end

theorem typeRefAt_inStep : ∀ (n : Nat) (w : TypeRef),
    InStep ρ (fun a b => b = a.renamed ρ) (typeRefAt n w) (typeRefAt n (w.renamed ρ))
  | 0, _ => .fail _ _ _ _
  | n + 1, w => typeRef_inStep ⟨typeRefAt_inStep n, fun _ => .fail _ _ _ _⟩ w

/-- With the same names in it, where these stay. -/
theorem typeRef_fixed (hd : d.InStep ρ) {w : TypeRef} (hw : w.renamed ρ = w) :
    InStep ρ (fun a b => b = a.renamed ρ) (typeRef d w) (typeRef d w) := by
  have h := typeRef_inStep hd w
  rwa [hw] at h

/-! ## Declared names -/

theorem checkAssignable_inStep (expected actual : Ty) (p : Span) :
    InStep ρ (fun _ _ => True) (checkAssignable expected actual p)
      (checkAssignable (expected.renamed ρ) (actual.renamed ρ) p) := by
  unfold checkAssignable
  simp only [Ty.renamed_isUnknown, Ty.renamed_eq_iff]
  split
  · exact .pure trivial
  · exact .fail _ _ _ _

theorem defineVal_inStep (id : Ident) (type : Ty) (mutable : Bool) :
    InStep ρ (fun _ _ => True) (defineVal id type mutable) (defineVal id (type.renamed ρ) mutable) := by
  refine .bind .place fun {p q} hpq => ?_
  obtain ⟨rfl, -⟩ := hpq
  refine .guard rfl fun _ => ?_
  rw [show (p.renamed ρ).values = p.values.map (Table.mapVals (ValInfo.renamed ρ)) from rfl]
  cases p.values with
  | nil => exact .fail _ _ _ _
  | cons scope outer =>
    simp only [List.map_cons, Table.contains_mapVals]
    split
    · exact .fail _ _ _ _
    · refine .onPlace (fun p => Place.renamed_recordLocal id.name) fun {p} hp => ?_
      have hscope : Place.Fixed ρ { p with values := scope.insert id.name ⟨type, mutable⟩ :: outer } :=
        ⟨hp.types, hp.templates⟩
      exact hscope.recordLocal id.name

theorem recordFields_inStep (hd : d.InStep ρ) (record : Ident) : ∀ (fs : List RecordField) (seen : List String),
    FieldsStay ρ fs → InStep ρ (fun r r' => r' = r.map (FieldInfo.renamed ρ)) (recordFields d record seen fs)
      (recordFields d record seen fs)
  | [], _, _ => .pure rfl
  | f :: fs, seen, h => by
    obtain ⟨hf, hfs⟩ := List.forall_mem_cons.1 h
    unfold recordFields
    refine .guard rfl fun _ => ?_
    refine .bind (typeRef_fixed hd hf) fun ht => .bind (recordFields_inStep hd record fs _ hfs) fun hr => .pure ?_
    subst ht hr
    rfl

theorem declaring_renamed (base canonical : String) (p : Place) :
    (declaring base canonical p).renamed ρ = declaring base (ρ.name canonical) (p.renamed ρ) := by
  unfold declaring
  rw [Place.renamed_recordLocal]
  refine congrArg (Place.recordLocal base) ?_
  unfold Place.addRecord Place.renamed
  cases p.types <;> rfl

theorem declaring_fixed {base : String} (hb : ρ.name base = base) (canonical : String) {p : Place} (hp : p.Fixed ρ) :
    (declaring base canonical p).Fixed ρ := by
  suffices hnew : (p.addRecord base canonical).Fixed ρ from hnew.recordLocal base
  refine ⟨?_, hp.templates⟩
  show ∀ scope ∈ p.types.modifyHead _, _
  have htypes := hp.types
  cases hty : p.types with
  | nil => exact fun _ hs => absurd hs List.not_mem_nil
  | cons scope outer =>
    rw [hty] at htypes
    obtain ⟨hscope, houter⟩ := List.forall_mem_cons.1 htypes
    exact List.forall_mem_cons.2 ⟨List.forall_mem_cons.2 ⟨hb, hscope⟩, houter⟩

/-- The state in which a record of a block has just been declared. -/
def declared (base : String) (fs : List FieldInfo) (s : Checker) : Checker :=
  (({ s with recordCount := s.recordCount + 1 } : Checker).addRecord (localName base (s.recordCount + 1)) fs).onPlace
    (declaring base (localName base (s.recordCount + 1)))

theorem SameUpTo.declared {s t : Checker} (h : SameUpTo ρ s t) {base : String} (hb : ρ.name base = base)
    (fs : List FieldInfo) : SameUpTo ρ (declared base fs s) (declared base (fs.map (FieldInfo.renamed ρ)) t) := by
  have hname : ρ.name (localName base (s.recordCount + 1)) = localName base (t.recordCount + 1) := h.numbers base 0
  have hadded : SameUpTo ρ
      (({ s with recordCount := s.recordCount + 1 } : Checker).addRecord (localName base (s.recordCount + 1)) fs)
      (({ t with recordCount := t.recordCount + 1 } : Checker).addRecord (localName base (t.recordCount + 1))
        (fs.map (FieldInfo.renamed ρ))) :=
    { h with
      records := fun n => by
        simp only [Checker.addRecord, Table.find?_insert, ← hname, ρ.name_eq_iff]
        split
        · rfl
        · exact h.records n
      numbers := fun b k => by
        have hnext := h.numbers b (k + 1)
        simpa only [Checker.addRecord, Nat.add_assoc, Nat.add_comm 1 k] using hnext }
  refine hadded.onPlace ?_ (declaring_fixed hb _ h.fixed)
  rw [declaring_renamed, hname]

theorem defineRecord_inStep (hd : d.InStep ρ) {id : Ident} {fs : List RecordField} (hid : ρ.name id.name = id.name)
    (hfs : FieldsStay ρ fs) : InStep ρ (fun a b => b = a.renamed ρ) (defineRecord d id fs) (defineRecord d id fs) := by
  refine .bind .place fun {p q} hpq => ?_
  obtain ⟨rfl, -⟩ := hpq
  have hhead : (((p.renamed ρ).types.headD []).contains id.name) = ((p.types.headD []).contains id.name) := by
    show Table.contains ((p.types.map _).headD []) id.name = _
    cases p.types with
    | nil => rfl
    | cons scope outer => exact Table.contains_mapVals ρ.name scope id.name
  refine .guard rfl fun _ => .guard hhead fun _ => .bind (recordFields_inStep hd id fs [] hfs) fun {infos infos'} hr => ?_
  subst hr
  intro s t hst
  refine ⟨congrArg Ty.record (hst.numbers id.name 0).symm, ?_⟩
  have hend := (hst.declared hid infos).addEvent ⟨.record, id.name, some (.record (localName id.name (s.recordCount + 1))),
    id.span, none⟩ ⟨.record, id.name, some (.record (localName id.name (t.recordCount + 1))), id.span, none⟩
  unfold Check.declared at hend
  simp only [← funext (declaring_eq _ _)] at hend
  exact hend

end Check

end Unroll
