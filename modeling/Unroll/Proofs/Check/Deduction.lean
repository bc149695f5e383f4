import Unroll.Proofs.Check.Outline
import Unroll.Proofs.Check.Reached
import Unroll.Proofs.Check.SpelledBack
import Unroll.Proofs.Check.WellTyped
/-!
# Deduction is matching

What a call leaves out of its template arguments is read off the types of its arguments.  If there are arguments that give
every parameter of the cell the type of what is passed for it, then each step of the reading agrees with them: it finds
what they say, and meets no conflict.  So where every parameter is given, or shows in the open, these arguments are what
is deduced.  And a call that has been turned into an instance passes just what the instance takes, for the types of its
signature are known.
-/
namespace Unroll

/-! ## Where parameters show -/

/-- The bare names of types in a written type, under arrays but not in arguments. -/
def TypeRef.bareNames : TypeRef → List String
  | .named _ id [] => [id.name]
  | .named _ _ (_ :: _) => []
  | .array _ elem _ => elem.bareNames

/-- The bare names of lengths in it. -/
def TypeRef.bareLengths : TypeRef → List String
  | .named _ _ _ => []
  | .array _ elem (.name _ id) => id.name :: elem.bareLengths
  | .array _ elem _ => elem.bareLengths

/-- **The parameter shows in the written type**, as what it stands for. -/
def ParamDecl.ShowsIn (p : ParamDecl) (w : TypeRef) : Prop :=
  match p.sort with
  | .type _ => p.name ∈ w.bareNames
  | .const => p.name ∈ w.bareLengths

/-- **The argument is concrete**: a number that fits, or a type that leaves nothing open, with records that their names
mean in the state. -/
def TemplateArg.Concrete (s : Checker) : TemplateArg → Prop
  | .type t => t.Settled fun n => Ty.builtin? n = none ∧ s.recordName? n = some n
  | .value v => Arith.fits v = true

namespace Check

open CheckM Outcome Checker

/-! ## Agreement -/

/-- This is known of the argument in the place. -/
def Finds (bound : Deduced) (i : Nat) (a : TemplateArg) : Prop := bound[i]? = some (some a)

/-- **What has been found is what the arguments say.** -/
structure Agrees (args : List TemplateArg) (bound : Deduced) : Prop where
  length : bound.length = args.length
  finds : ∀ {i a}, Finds bound i a → args[i]? = some a

/-- **The step goes on in agreement**: it keeps what has been found, and finds the given places. -/
def GoesOn (args : List TemplateArg) (places : Nat → Prop) (bound : Deduced) (r : Except Diagnostic Deduced) : Prop :=
  ∃ next, r = .ok next ∧ Agrees args next ∧ (∀ {i a}, Finds bound i a → Finds next i a) ∧
    ∀ i, places i → ∃ a, Finds next i a

variable {args : List TemplateArg} {bound : Deduced} {places : Nat → Prop} {params : ParamLevel}
  {cell name : String} {sp : Span} {a : TemplateArg} {i : Nat}

theorem GoesOn.still (h : Agrees args bound) (hplaces : ∀ i, ¬ places i) : GoesOn args places bound (.ok bound) :=
  ⟨bound, rfl, h, id, fun i hi => absurd hi (hplaces i)⟩

/-- One step after the other. -/
theorem GoesOn.bind {more : Nat → Prop} {r : Except Diagnostic Deduced} {f : Deduced → Except Diagnostic Deduced}
    (h : GoesOn args places bound r) (hf : ∀ {next}, Agrees args next → GoesOn args more next (f next)) :
    GoesOn args (fun i => places i ∨ more i) bound (r >>= f) := by
  obtain ⟨next, rfl, hagrees, hkeeps, hfinds⟩ := h
  obtain ⟨last, hlast, hagrees', hkeeps', hfinds'⟩ := hf hagrees
  refine ⟨last, hlast, hagrees', fun h => hkeeps' (hkeeps h), ?_⟩
  rintro i (hi | hi)
  · obtain ⟨a, ha⟩ := hfinds i hi
    exact ⟨a, hkeeps' ha⟩
  · exact hfinds' i hi

theorem GoesOn.mono {fewer : Nat → Prop} {r : Except Diagnostic Deduced} (h : GoesOn args places bound r)
    (hplaces : ∀ i, fewer i → places i) : GoesOn args fewer bound r := by
  obtain ⟨next, hr, hagrees, hkeeps, hfinds⟩ := h
  exact ⟨next, hr, hagrees, hkeeps, fun i hi => hfinds i (hplaces i hi)⟩

/-! ## One parameter -/

/-- A name is looked up where its parameter stands. -/
theorem idxOf?_param (hnames : params.names.Nodup) {p : ParamDecl} (hp : params.params[i]? = some p) :
    params.names.idxOf? p.name = some i := by
  obtain ⟨hlt, hget⟩ := List.getElem?_eq_some_iff.1 hp
  have hlt' : i < params.names.length := by simpa [ParamLevel.names] using hlt
  have hname : params.names[i] = p.name := by simp [ParamLevel.names, hget]
  refine List.idxOf?_eq_some_iff.2 ⟨hlt', hname, fun j hj hsame => ?_⟩
  have hji := (List.Nodup.getElem_inj_iff hnames).1 (hsame.trans hname.symm)
  omega

/-- A parameter of the name stands there. -/
def Named (params : ParamLevel) (name : String) (i : Nat) : Prop := ∃ p, params.params[i]? = some p ∧ p.name = name

/-- A parameter is given what it has been given before. -/
theorem bindParam_set : ∀ {ps : List ParamDecl} {bound : Deduced} {i : Nat}, (ps.map (·.name)).idxOf? name = some i →
    (∃ b, bound[i]? = some b ∧ ∀ old, b = some old → old = a) →
      bindParam cell name a sp ps bound = .ok (bound.set i (some a))
  | p :: ps, [], i, _, ⟨b, hb, _⟩ => by cases hb
  | p :: ps, b :: bs, i, hi, ⟨b', hb', hold⟩ => by
    rw [List.map_cons, List.idxOf?_cons] at hi
    by_cases hp : p.name = name
    · simp only [hp, beq_self_eq_true, if_true, Option.some.injEq] at hi
      subst hi
      cases hb'
      unfold bindParam
      rw [if_pos hp]
      cases b with
      | none => rfl
      | some old =>
        have hsame := hold old rfl
        subst hsame
        simp
    · have hne : (p.name == name) = false := by simpa using hp
      simp only [hne, Bool.false_eq_true, if_false, Option.map_eq_some_iff] at hi
      obtain ⟨j, hj, rfl⟩ := hi
      have hrest : bindParam cell name a sp ps bs = .ok (bs.set j (some a)) := bindParam_set hj ⟨b', hb', hold⟩
      unfold bindParam
      rw [if_neg hp, hrest]
      rfl

/-- After an argument has been put in, it is known in its place, and elsewhere what was known. -/
theorem finds_set {j : Nat} {b : TemplateArg} (hlt : i < bound.length) :
    Finds (bound.set i (some a)) j b ↔ i = j ∧ a = b ∨ i ≠ j ∧ Finds bound j b := by
  unfold Finds
  by_cases hij : i = j
  · subst hij
    simp [List.getElem?_set_self hlt]
  · simp [List.getElem?_set_ne hij, hij]

/-- **What is bound to a name is found at its parameter.** -/
theorem bindParam_goesOn (hnames : params.names.Nodup) (h : Agrees args bound)
    (hi : params.names.idxOf? name = some i) (ha : args[i]? = some a) :
    GoesOn args (Named params name) bound (bindParam cell name a sp params.params bound) := by
  have hlt : i < bound.length := by
    rw [h.length]
    exact (List.getElem?_eq_some_iff.1 ha).1
  have hsame {b : TemplateArg} (hb : Finds bound i b) : b = a := by
    have hget := h.finds hb
    rw [ha] at hget
    exact (Option.some.inj hget).symm
  have hset : bindParam cell name a sp params.params bound = .ok (bound.set i (some a)) :=
    bindParam_set hi ⟨bound[i], List.getElem?_eq_getElem hlt, fun old hold =>
      hsame (by rw [Finds, List.getElem?_eq_getElem hlt, hold])⟩
  refine ⟨_, hset, ⟨by rw [List.length_set, h.length], fun {j b} hb => ?_⟩, fun {j b} hb => ?_, ?_⟩
  · obtain ⟨rfl, rfl⟩ | ⟨-, hb⟩ := (finds_set hlt).1 hb
    · exact ha
    · exact h.finds hb
  · by_cases hij : i = j
    · subst hij
      exact (finds_set hlt).2 (.inl ⟨rfl, (hsame hb).symm⟩)
    · exact (finds_set hlt).2 (.inr ⟨hij, hb⟩)
  · rintro j ⟨p, hp, rfl⟩
    rw [idxOf?_param hnames hp] at hi
    cases hi
    exact ⟨a, (finds_set hlt).2 (.inl ⟨rfl, rfl⟩)⟩

/-! ## One written type -/

/-- Where the parameters stand that show in the written type. -/
def Shown (params : ParamLevel) (w : TypeRef) (i : Nat) : Prop := ∃ p, params.params[i]? = some p ∧ p.ShowsIn w

theorem showsIn_bare {id : Ident} {p : ParamDecl} (h : p.ShowsIn (.named sp id [])) : p.name = id.name := by
  unfold ParamDecl.ShowsIn at h
  split at h
  · exact List.mem_singleton.1 h
  · cases h

/-- In an array a parameter shows as the length, or in the elements. -/
theorem showsIn_array {elem : TypeRef} {len : Expr} {p : ParamDecl} (h : p.ShowsIn (.array sp elem len)) :
    (∃ lsp id, len = .name lsp id ∧ p.name = id.name) ∨ p.ShowsIn elem := by
  obtain ⟨name, sort⟩ := p
  cases sort with
  | type bound => exact .inr h
  | const =>
    cases len with
    | name lsp id => exact (List.mem_cons.1 h).imp (fun hname => ⟨lsp, id, rfl, hname⟩) fun h => h
    | _ => exact .inr h

/-- A type parameter is one that shows in its name. -/
theorem isTypeParam_iff (sp : Span) (hnames : params.names.Nodup) {id : Ident} :
    isTypeParam params id.name = true ↔ ∃ i, Shown params (.named sp id []) i := by
  constructor
  · intro h
    unfold isTypeParam at h
    split at h
    · rename_i pname bound hp
      have hname : pname = id.name := by simpa using List.find?_some hp
      obtain ⟨i, hlt, hget⟩ := List.getElem_of_mem (List.mem_of_find?_eq_some hp)
      exact ⟨i, ⟨pname, .type bound⟩, by rw [List.getElem?_eq_getElem hlt, hget], by
        rw [hname]
        exact List.mem_singleton_self _⟩
    · cases h
  · rintro ⟨i, ⟨pname, sort⟩, hp, hshows⟩
    cases sort with
    | const => cases hshows
    | type bound =>
      obtain rfl : pname = id.name := List.mem_singleton.1 hshows
      have hmem : (⟨id.name, .type bound⟩ : ParamDecl) ∈ params.params := List.mem_of_getElem? hp
      have hfound : params.find? id.name = some ⟨id.name, .type bound⟩ := by
        unfold ParamLevel.find?
        cases hf : params.params.find? (·.name = id.name) with
        | none => exact absurd (List.find?_eq_none.1 hf _ hmem) (by simp)
        | some q =>
          have hname : q.name = id.name := by simpa using List.find?_some hf
          exact congrArg some (List.inj_on_of_nodup_map hnames (List.mem_of_find?_eq_some hf) hmem hname)
      unfold isTypeParam
      rw [hfound]

section

variable {s : Checker} {n : Nat}

/-- A concrete type that was put in for its parameter means itself. -/
theorem concrete_means {type : Ty} {w : TypeRef} (hs : s.place.templates = []) (hc : (TemplateArg.type type).Concrete s)
    (hw : type.toTypeRef? sp = some w) : typeRef (levels n) w s = .ok type s := by
  have hnames : type.Settled (NamesRecord s) :=
    hc.mono fun m hm => ⟨hm.1, param?_outside hs m, by rw [hm.2]; rfl⟩
  have hself : type.mapRecord (fun m => (s.recordName? m).getD m) = type :=
    (Ty.mapRecord_eq_self hnames).2 (hc.mono fun m hm => by rw [hm.2]; rfl)
  rw [typeRef_spelledBack hnames hw, hself]

/-- The arguments give the written type this meaning. -/
def GivesType (s : Checker) (n : Nat) (params : ParamLevel) (args : List TemplateArg) (w : TypeRef) (type : Ty) : Prop :=
  ∃ r u, Subst.typeRef (ArgLevels.bind [] params.names args) w = .ok r ∧ typeRef (levels n) r s = .ok type u

/-- What a bare name means is what is bound to its parameter. -/
theorem given_type {id : Ident} {type : Ty} (hs : s.place.templates = []) (hc : ∀ a ∈ args, a.Concrete s)
    (hi : params.names.idxOf? id.name = some i) (hlt : i < args.length)
    (hw : GivesType s n params args (.named sp id []) type) : args[i]? = some (.type type) := by
  obtain ⟨r, u, hr, htype⟩ := hw
  rw [Subst.typeRef, Subst.typeName, ArgLevels.lookup?_bind_nil, hi, Option.bind_some, List.getElem?_eq_getElem hlt] at hr
  rw [List.getElem?_eq_getElem hlt]
  cases ha : args[i] with
  | value v =>
    rw [ha] at hr
    cases hr
  | type t =>
    simp only [ha] at hr
    cases hback : t.toTypeRef? sp with
    | none =>
      simp only [hback] at hr
      cases hr
    | some w =>
      simp only [hback] at hr
      cases hr
      rw [concrete_means hs (hc (.type t) (ha ▸ List.getElem_mem hlt)) hback] at htype
      cases htype
      rfl

/-- What a name says as a length is what is bound to its parameter: outside of templates no other name is known there. -/
theorem given_length {id : Ident} {l : Expr} {k : Int} (hs : s.place.templates = [])
    (hl : Subst.expr (ArgLevels.bind [] params.names args) (.name sp id) = .ok l)
    (hk : Const.eval s.place.constant? l = .ok (.int k)) :
    ∃ i, params.names.idxOf? id.name = some i ∧ args[i]? = some (.value k) := by
  rw [Subst.expr, Subst.name, ArgLevels.lookup?_bind_nil] at hl
  cases hfound : (params.names.idxOf? id.name).bind (args[·]?) with
  | none =>
    rw [hfound] at hl
    cases hl
    rw [Const.eval, constant?_outside hs] at hk
    cases hk
  | some a =>
    rw [hfound] at hl
    cases a with
    | type t => cases hl
    | value v =>
      cases hl
      cases hk
      exact Option.bind_eq_some_iff.1 hfound

/-- A bare name is read in agreement. -/
theorem deduceName_goesOn {id : Ident} {type : Ty} (hs : s.place.templates = []) (hnames : params.names.Nodup)
    (hc : ∀ a ∈ args, a.Concrete s) (hlen : args.length = params.params.length)
    (hw : GivesType s n params args (.named sp id []) type) (h : Agrees args bound) :
    GoesOn args (Shown params (.named sp id [])) bound (deduceFrom cell params (.named sp id []) type bound) := by
  unfold deduceFrom
  split
  · rename_i hparam
    obtain ⟨i, p, hp, hshows⟩ := (isTypeParam_iff sp hnames).1 hparam
    have hi : params.names.idxOf? id.name = some i := showsIn_bare hshows ▸ idxOf?_param hnames hp
    have hlt : i < args.length := hlen ▸ (List.getElem?_eq_some_iff.1 hp).1
    exact (bindParam_goesOn hnames h hi (given_type hs hc hi hlt hw)).mono
      fun j ⟨q, hq, hqshows⟩ => ⟨q, hq, showsIn_bare hqshows⟩
  · rename_i hparam
    exact .still h fun i hi => hparam ((isTypeParam_iff sp hnames).2 ⟨i, hi⟩)

/-- The step that reads a length. -/
def deduceLength (cell : String) (params : ParamLevel) (len : Expr) (n : Nat) (bound : Deduced) :
    Except Diagnostic Deduced :=
  match len with
  | .name _ id =>
    if n < Arith.bound then bindParam cell id.name (.value n) len.span params.params bound
    else .error (.of .lengthRange len.span)
  | _ => .ok bound

theorem deduceFrom_array {elem : TypeRef} {len : Expr} {type : Ty} {k : Nat} :
    deduceFrom cell params (.array sp elem len) (.array type (some k)) bound =
      deduceLength cell params len k bound >>= deduceFrom cell params elem type := by
  cases len with
  | name sp id =>
    unfold deduceFrom deduceLength
    dsimp only
    split <;> rfl
  | _ => rfl

/-- A length is read in agreement. -/
theorem deduceLength_goesOn {len l : Expr} {k : Int} (hs : s.place.templates = []) (hnames : params.names.Nodup)
    (hc : ∀ a ∈ args, a.Concrete s) (hl : Subst.expr (ArgLevels.bind [] params.names args) len = .ok l)
    (hk : Const.eval s.place.constant? l = .ok (.int k)) (hpos : 0 ≤ k) (h : Agrees args bound) :
    GoesOn args (fun i => ∃ lsp id, len = .name lsp id ∧ Named params id.name i) bound
      (deduceLength cell params len k.toNat bound) := by
  cases len with
  | name lsp id =>
    obtain ⟨i, hi, ha⟩ := given_length hs hl hk
    have hfits : Arith.fits k = true := hc (.value k) (List.mem_of_getElem? ha)
    have hnat : (k.toNat : Int) = k := Int.toNat_of_nonneg hpos
    have hlt : k.toNat < Arith.bound := by
      simp only [Arith.fits, Bool.and_eq_true, decide_eq_true_eq] at hfits
      omega
    rw [deduceLength, if_pos hlt, hnat]
    refine (bindParam_goesOn hnames h hi ha).mono ?_
    rintro j ⟨_, _, he, hj⟩
    cases he
    exact hj
  | _ =>
    refine .still h ?_
    rintro i ⟨_, _, he, -⟩
    cases he

/-- **A written type is read in agreement** with the arguments that give it its meaning. -/
theorem deduceFrom_goesOn (hs : s.place.templates = []) (hnames : params.names.Nodup)
    (hc : ∀ a ∈ args, a.Concrete s) (hlen : args.length = params.params.length) : ∀ {w : TypeRef} {type : Ty}
      {bound : Deduced}, GivesType s n params args w type → Agrees args bound →
        GoesOn args (Shown params w) bound (deduceFrom cell params w type bound)
  | .named sp id [], type, bound, hw, h => deduceName_goesOn hs hnames hc hlen hw h
  | .named sp id (a :: as), type, bound, hw, h => by
    have hstill : deduceFrom cell params (.named sp id (a :: as)) type bound = .ok bound := by
      cases type <;> rfl
    rw [hstill]
    refine .still h ?_
    rintro i ⟨⟨name, sort⟩, -, hshows⟩
    cases sort <;> cases hshows
  | .array sp elem len, type, bound, hw, h => by
    obtain ⟨r, u, hr, htype⟩ := hw
    simp only [Subst.typeRef, except_bind_ok, except_pure_ok] at hr
    obtain ⟨er, her, lr, hlr, rfl⟩ := hr
    simp only [typeRef, bind_ok] at htype
    obtain ⟨et, v, het, hlength⟩ := htype
    obtain rfl := typeRef_same (levels_orderly n) het
    obtain ⟨-, ⟨k, hpos, hk, rfl⟩ | ⟨hopen, -⟩⟩ := length_ok hlength
    · rw [deduceFrom_array]
      refine ((deduceLength_goesOn hs hnames hc hlr hk hpos h).bind fun hnext =>
        deduceFrom_goesOn hs hnames hc hlen ⟨er, s, her, het⟩ hnext).mono ?_
      rintro i ⟨p, hp, hshows⟩
      obtain ⟨lsp, id, hlen, hname⟩ | hshows := showsIn_array hshows
      · exact .inl ⟨lsp, id, hlen, p, hp, hname⟩
      · exact .inr ⟨p, hp, hshows⟩
    · have hknown (m : String) : s.place.constant? m ≠ some .dependent := by
        rw [constant?_outside hs]
        exact (Option.some_ne_none _).symm
      exact absurd rfl (eval_known hknown hopen)

/-- **So are all of them**, one after the other. -/
theorem deduceAll_goesOn (hs : s.place.templates = []) (hnames : params.names.Nodup) (hc : ∀ a ∈ args, a.Concrete s)
    (hlen : args.length = params.params.length) : ∀ {ws : List TypeRef} {types : List Ty} {bound : Deduced},
      List.Forall₂ (GivesType s n params args) ws types → Agrees args bound →
        GoesOn args (fun i => ∃ w ∈ ws, Shown params w i) bound (deduceAll cell params ws types bound)
  | [], [], bound, .nil, h => .still h fun i ⟨_, hmem, _⟩ => by cases hmem
  | w :: ws, type :: types, bound, .cons hw hws, h =>
    ((deduceFrom_goesOn hs hnames hc hlen hw h).bind fun hnext =>
      deduceAll_goesOn hs hnames hc hlen hws hnext).mono fun i ⟨v, hmem, hshown⟩ => by
        obtain rfl | hmem := List.mem_cons.1 hmem
        · exact .inl hshown
        · exact .inr ⟨v, hmem, hshown⟩

end

/-! ## The whole deduction -/

theorem givenArgs_get : ∀ (ps : List ParamDecl) (given : List TemplateArg) (i : Nat),
    (givenArgs ps given)[i]? = ps[i]?.map fun _ => given[i]?
  | [], given, i => by
    cases given <;> rfl
  | p :: ps, [], 0 => rfl
  | p :: ps, [], i + 1 => by
    rw [givenArgs, List.getElem?_cons_succ, givenArgs_get ps [] i]
    rfl
  | p :: ps, a :: as, 0 => rfl
  | p :: ps, a :: as, i + 1 => by
    rw [givenArgs, List.getElem?_cons_succ, givenArgs_get ps as i]
    rfl

theorem givenArgs_length : ∀ (ps : List ParamDecl) (given : List TemplateArg), (givenArgs ps given).length = ps.length
  | [], _ => rfl
  | p :: ps, [] => by rw [givenArgs, List.length_cons, givenArgs_length ps, List.length_cons]
  | p :: ps, a :: as => by rw [givenArgs, List.length_cons, givenArgs_length ps, List.length_cons]

/-- What is given is where the deduction starts from. -/
theorem givenArgs_agree {ps : List ParamDecl} {given : List TemplateArg} (hgiven : given <+: args)
    (hlen : args.length = ps.length) : Agrees args (givenArgs ps given) where
  length := by rw [givenArgs_length, hlen]
  finds := fun {i a} h => by
    rw [Finds, givenArgs_get, Option.map_eq_some_iff] at h
    obtain ⟨-, -, ha⟩ := h
    obtain ⟨hi, rfl⟩ := List.getElem?_eq_some_iff.1 ha
    exact List.prefix_iff_getElem?.1 hgiven i hi

theorem allDeduced_all {id : Ident} : ∀ {ps : List ParamDecl} {args : List TemplateArg}, args.length = ps.length →
    allDeduced id ps (args.map some) = .ok args
  | [], [], _ => rfl
  | p :: ps, a :: as, h => by
    have hrest : allDeduced id ps (as.map some) = .ok as := allDeduced_all (by simpa using h)
    rw [List.map_cons, allDeduced, hrest]
    rfl

/-- Where all is found, all that has been found is the arguments. -/
theorem Agrees.all (h : Agrees args bound) (hall : ∀ i < args.length, ∃ a, Finds bound i a) : bound = args.map some := by
  refine List.ext_getElem? fun i => ?_
  rw [List.getElem?_map]
  by_cases hi : i < args.length
  · obtain ⟨a, ha⟩ := hall i hi
    rw [h.finds ha, ha]
    rfl
  · rw [List.getElem?_eq_none (by rw [h.length]; omega), List.getElem?_eq_none (by omega)]
    rfl

/-- **Matching arguments are deduced**, if each parameter is given or shows. -/
theorem deduce_of_matches {s : Checker} {n : Nat} {id : Ident} {g : GenericInfo} {given : List TemplateArg}
    {types : List Ty} (hg : s.generics.find? id.name = some g) (hnames : g.params.names.Nodup)
    (hgiven : given <+: args) (hlen : args.length = g.params.params.length)
    (hshown : ∀ i < args.length, i < given.length ∨ ∃ w ∈ g.cell.args.map (·.type), Shown g.params w i)
    (hc : ∀ a ∈ args, a.Concrete (s.onPlace outer))
    (hmatches : List.Forall₂ (GivesType (s.onPlace outer) n g.params args) (g.cell.args.map (·.type)) types) :
    deduce s id given types = .ok args := by
  have hall : GoesOn args _ (givenArgs g.params.params given)
      (deduceAll id.name g.params (g.cell.args.map (·.type)) types (givenArgs g.params.params given)) :=
    deduceAll_goesOn rfl hnames hc hlen hmatches (givenArgs_agree hgiven hlen)
  obtain ⟨bound, hbound, hagrees, hkeeps, hfinds⟩ := hall
  have hall : ∀ i < args.length, ∃ a, Finds bound i a := by
    intro i hi
    obtain hlt | hshown := hshown i hi
    · rw [hlen] at hi
      refine ⟨given[i], hkeeps ?_⟩
      rw [Finds, givenArgs_get, List.getElem?_eq_getElem hi, List.getElem?_eq_getElem hlt]
      rfl
    · exact hfinds i hshown
  have hread : deduceAll id.name g.params (g.cell.args.map (·.type)) types (givenArgs g.params.params given) =
      .ok (args.map some) := by
    rw [hbound, hagrees.all hall]
  unfold deduce
  rw [hg]
  simp only [hmatches.length_eq, ne_eq, not_true_eq_false, if_false, hread]
  exact allDeduced_all hlen

/-! ## What an instance is called with -/

variable {s t : Checker} {n : Nat}

/-- The parameters of an instance leave nothing open. -/
theorem instantiateCell_signed (hs : Reached s) {id : Ident} {full : List TemplateArg} {r : String × CellSig}
    (h : instantiateCell (levels n) id full s = .ok r t) : ∀ p ∈ r.2.params, p.type.Settled fun _ => True := by
  obtain ⟨-, -, ⟨-, hknown⟩ | ⟨u, g, fr, concrete, c, _, _, -, hu, -, -, -, hsig, -⟩⟩ := instantiateCell_ok h
  · exact hs.told.cells hknown
  · have hreached : Reached u := ((elaborateTemplate_keeps (T := Reaching) (stmtAt_keeps n) id.name).ok hu).rest hs
    have hout : Reached (({ u with frames := fr } : Checker).onPlace outer) := hreached.moved rfl rfl rfl
    exact hout.told.signed rfl hsig

/-- Where nothing is open, to fit is to be equal. -/
theorem types_eq : ∀ {ps : List CellParam} {types : List Ty}, (∀ p ∈ ps, p.type.Settled fun _ => True) →
    types.any Ty.isUnknown = false → List.Forall₂ (fun p t => Assignable p.type t) ps types →
      types = ps.map (·.type)
  | [], [], _, _, .nil => rfl
  | p :: ps, type :: types, hsettled, hknown, .cons hfit hfits => by
    obtain ⟨hp, hps⟩ := List.forall_mem_cons.1 hsettled
    rw [List.any_cons, Bool.or_eq_false_iff] at hknown
    have hrest := types_eq hps hknown.2 hfits
    obtain hopen | hopen | hsame := hfit
    · rw [hp.known.1] at hopen
      cases hopen
    · rw [hknown.1] at hopen
      cases hopen
    · rw [List.map_cons, ← hrest, hsame]

/-- **A call that is turned into an instance** passes what the instance takes. -/
theorem cellCall_instance (hs : Reached s) {sp : Span} {callee : Ident} {generic : List TypeArg} {args : List Expr}
    {types : List Ty} {places : List Span} {r : Typed} (hcount : types.length = places.length)
    (h : cellCall (levels n) sp callee generic args types places s = .ok r t)
    (hnew : s.cells.find? callee.name = none) :
    r = (.call sp callee generic args, .dependent) ∨ ∃ given full name sig, deduce s callee given types = .ok full ∧
      instantiateCell (levels n) callee full s = .ok (name, sig) t ∧
        r = (.call sp ⟨name, callee.span⟩ [] args, sig.ret) ∧ types = sig.params.map (·.type) := by
  obtain ⟨_, hfound, -⟩ | ⟨-, g, given, v, -, hgiven, hcases⟩ := cellCall_ok h
  · rw [hnew] at hfound
    cases hfound
  obtain rfl := templateArgs_same (levels_orderly n) hgiven
  obtain ⟨known, full, name, sig, w, -, hknown, hdeduce, hinstance, hcall, rfl⟩ | ⟨-, -, rfl⟩ := hcases
  · obtain ⟨rfl, -, hfit⟩ := checkCall_ok hcall
    exact .inr ⟨known, full, name, sig, hdeduce, hinstance, rfl,
      types_eq (instantiateCell_signed hs hinstance) hknown (hfit hcount)⟩
  · exact .inl rfl

/-- **Deduction is matching.**  Take arguments for all parameters of a generic cell, that begin with the given ones and
are concrete.  Let each parameter be given, or show in the open in the type of a parameter of the cell.  If the arguments
give these types as meaning the types of what is passed, then they are what is deduced.  And a call that has been turned
into an instance passes just the types that the signature of the instance asks for. -/
theorem deduction_matches (hs : Reached s) :
    (∀ {n id g given types} {full : List TemplateArg}, s.generics.find? id.name = some g → given <+: full →
        full.length = g.params.params.length →
        (∀ i < full.length, i < given.length ∨ ∃ w ∈ g.cell.args.map (·.type), Shown g.params w i) →
        (∀ a ∈ full, a.Concrete (s.onPlace outer)) →
        List.Forall₂ (GivesType (s.onPlace outer) n g.params full) (g.cell.args.map (·.type)) types →
          deduce s id given types = .ok full) ∧
      ∀ {n sp callee generic args r t}, expr (levels n) (.call sp callee generic args) s = .ok r t →
        isBuiltin callee.name = false → ∃ es types u, exprs (levels n) args s = .ok (es, types) u ∧
          (u.cells.find? callee.name = none →
            r = (.call sp callee generic es, .dependent) ∨ ∃ given full name sig,
              deduce u callee given types = .ok full ∧
                instantiateCell (levels n) callee full u = .ok (name, sig) t ∧
                  r = (.call sp ⟨name, callee.span⟩ [] es, sig.ret) ∧ types = sig.params.map (·.type)) := by
  refine ⟨fun hg hgiven hlen hshown hc hmatches => deduce_of_matches hg (hs.told.templates hg) hgiven hlen hshown hc
    hmatches, fun {n sp callee generic args r t} h hbuiltin => ?_⟩
  obtain ⟨es, types, u, -, hargs, ⟨hb, -⟩ | ⟨-, hcall⟩⟩ := expr_call_ok h
  · rw [hbuiltin] at hb
    cases hb
  have hu : Reached u := ((exprs_keeps (T := Reaching) (stmtAt_keeps n) args).ok hargs).rest hs
  have hcount : types.length = (args.map Expr.span).length := by
    rw [List.length_map]
    exact (exprs_types_length hargs).trans (exprs_length hargs)
  exact ⟨es, types, u, hargs, cellCall_instance hu hcount hcall⟩

/-- `cell put<T, N: int>(xs: [T; N], x: T)`, with nothing to do. -/
def putCell : CellDef :=
  ⟨nowhere, bareName "put",
    [⟨nowhere, bareName "T", .type none⟩, ⟨nowhere, bareName "N", .const (.bare nowhere "int")⟩],
    [⟨nowhere, bareName "xs", false, .array nowhere (.bare nowhere "T") (.name nowhere (bareName "N"))⟩,
      ⟨nowhere, bareName "x", false, .bare nowhere "T"⟩], none, ⟨nowhere, []⟩⟩

/-- A checker that knows it. -/
def putting : Checker :=
  { Checker.new .standard with
    generics := Table.insert [] "put" ⟨putCell, ⟨0, [⟨"T", .type none⟩, ⟨"N", .const⟩]⟩, false⟩ }

/-- `put([1, 2], 3)`. -/
def putCall : Expr :=
  .call nowhere (bareName "put") [] [.array nowhere [.int nowhere 1, .int nowhere 2], .int nowhere 3]

/-- The instance that a checked call names. -/
def calledName : EStateM.Result Diagnostic Checker Typed → Option String
  | .ok (.call _ callee _ _, _) _ => some callee.name
  | _ => none

/-- With its first argument given, the length is deduced; and the call passes what its instance takes. -/
theorem deduction_matches_put :
    deduce putting (bareName "put") [.type .int] [.array .int (some 2), .int] = .ok [.type .int, .value 2] ∧
      ∃ (es : List Expr) (sig : CellSig) (t : Checker), expr (levels 0) putCall putting =
          .ok (.call nowhere (bareName "put<int, 2>") [] es, sig.ret) t ∧
        sig.params.map (·.type) = [.array .int (some 2), .int] := by
  have hreached : Reached putting :=
    (Reached.new .standard).template "put" putCell (rfl : paramDecls (.new .standard) [] putCell.params = .ok _)
  obtain ⟨hdeduce, hcalls⟩ := deduction_matches hreached
  constructor
  · have hmatches : List.Forall₂ (GivesType (putting.onPlace outer) 0 ⟨0, [⟨"T", .type none⟩, ⟨"N", .const⟩]⟩
        [.type .int, .value 2]) (putCell.args.map (·.type)) [.array .int (some 2), .int] :=
      .cons ⟨_, putting.onPlace outer, rfl, rfl⟩ (.cons ⟨_, putting.onPlace outer, rfl, rfl⟩ .nil)
    have hfound : putting.generics.find? (bareName "put").name =
      some ⟨putCell, ⟨0, [⟨"T", .type none⟩, ⟨"N", .const⟩]⟩, false⟩ := rfl
    refine hdeduce hfound ⟨[.value 2], rfl⟩ rfl (fun i hi => ?_) ?_ hmatches
    · have hlt : i < 2 := hi
      obtain rfl | rfl : i = 0 ∨ i = 1 := by omega
      · exact .inl (by decide)
      · exact .inr ⟨_, List.mem_cons_self .., ⟨"N", .const⟩, rfl, List.mem_singleton_self _⟩
    · exact List.forall_mem_cons.2 ⟨trivial, List.forall_mem_cons.2 ⟨(by decide : Arith.fits 2 = true), nofun⟩⟩
  · have hnamed : calledName (expr (levels 0) putCall putting) = some "put<int, 2>" := by decide +kernel
    unfold calledName at hnamed
    split at hnamed
    · rename_i sp callee generic es ty t h
      obtain ⟨args, types, u, hargs, hinstance⟩ := hcalls h rfl
      have hread : exprs (levels 0) [.array nowhere [.int nowhere 1, .int nowhere 2], .int nowhere 3] putting =
        .ok ([.array nowhere [.int nowhere 1, .int nowhere 2], .int nowhere 3], [.array .int (some 2), .int]) putting := rfl
      rw [hread] at hargs
      cases hargs
      obtain hleft | ⟨_, _, _, sig, -, -, hcall, htypes⟩ := hinstance rfl
      · cases hleft
        exact absurd hnamed (by decide)
      · cases hcall
        cases hnamed
        exact ⟨_, sig, t, h, htypes.symm⟩
    · cases hnamed

end Check
end Unroll
