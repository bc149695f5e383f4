import Mathlib.Data.Option.Basic
import Unroll.Proofs.Machine.Steps
import Unroll.Proofs.Typing
/-!
# Safe runs

A value of a type is what the type says all the way down: an array of as many items, a record of the declared fields,
each once.  One thing comes in between: a cell that is to give a value and ends without giving one gives a unit, and the
unit stands where the value was promised.  So everything here is said up to such a lapse.  Without one, a run is safe if
it stops with no other errors than those that types cannot rule out; with one, the errors about a unit are added.
-/
namespace Unroll

/-! ## Values -/

/-- **A value of the type**, unless a cell lapsed. -/
inductive Value.Has (records : Table RecordInfo) (lapse : Prop) : Value → Ty → Prop
  | unit : Has records lapse .unit .unit
  | bool {b} : Has records lapse (.bool b) .bool
  | int {n} : Has records lapse (.int n) .int
  | char {c} : Has records lapse (.char c) .char
  | text {s} : Has records lapse (.text s) .text
  | array {items elem} : (∀ v ∈ items, Has records lapse v elem) →
      Has records lapse (.array items) (.array elem (some items.length))
  | record {name canonical r fs} : records.find? canonical = some r → (fs.map (·.1)).Nodup →
      (∀ f ∈ r.fields, f.name ∈ fs.map (·.1)) → (∀ f ∈ fs, (r.field? f.1).isSome) →
      (∀ f ∈ fs, ∀ i, r.field? f.1 = some i → Has records lapse f.2 i.type) →
      Has records lapse (.record name fs) (.record canonical)
  | lapsed {t} : lapse → Has records lapse .unit t

/-! ## Errors -/

namespace Fault

/-- What the types of a program cannot rule out. -/
inductive Ordinary : Fault → Prop
  | overflow : Ordinary .overflow
  | division : Ordinary .division
  | indexNegative {i} : Ordinary (.indexNegative i)
  | indexBounds {i n} : Ordinary (.indexBounds i n)
  | assertionFailed : Ordinary .assertionFailed
  | callDepth {limit} : Ordinary (.callDepth limit)

/-- The machine met a unit in a place where it can do nothing with one. -/
inductive MetUnit : Fault → Prop
  | boolExpected : MetUnit (.boolExpected .unit)
  | indexExpected : MetUnit (.indexExpected .unit)
  | notIndexable : MetUnit (.notIndexable .unit)
  | noField {name} : MetUnit (.noField .unit name)
  | lenArg : MetUnit .lenArg
  | operand : MetUnit (.operand .unit)
  | left {op k} : MetUnit (.operator op .unit k)
  | right {op k} : MetUnit (.operator op k .unit)
  | incomparableLeft {k} : MetUnit (.incomparable .unit k)
  | incomparableRight {k} : MetUnit (.incomparable k .unit)

/-- The error is none that a well-typed program is to be spared. -/
def Excused (lapse : Prop) (f : Fault) : Prop := f.Ordinary ∨ lapse ∧ f.MetUnit

end Fault

def Halt.Excused (lapse : Prop) : Halt → Prop
  | .error e => e.fault.Excused lapse
  | .exhausted => True

namespace Run

/-- **A safe run**: from a machine as assumed it comes to a result and a machine as promised, or stops with an error that
is excused. -/
def Safe {α : Type} (lapse : Prop) (A : Machine → Prop) (R : α → Machine → Prop) (x : Run α) : Prop :=
  ∀ m, A m → match x m with
    | .ok a m' => R a m'
    | .error h _ => h.Excused lapse

/-- The result is as promised, and the machine as it is said to be. -/
def Gives {α : Type} (A : Machine → Prop) (P : α → Prop) (a : α) (m : Machine) : Prop := P a ∧ A m

namespace Safe

variable {α β : Type} {lapse : Prop} {A B : Machine → Prop} {P : α → Prop} {Q : β → Prop} {R : α → Machine → Prop}
  {S : β → Machine → Prop} {x : Run α} {f : α → Run β}

theorem bind (hx : Safe lapse A R x) (hf : ∀ a, Safe lapse (R a) S (f a)) : Safe lapse A S (x >>= f) := by
  intro m hm
  have hend := hx m hm
  show match EStateM.bind x f m with | .ok a m' => S a m' | .error h _ => h.Excused lapse
  unfold EStateM.bind
  cases hr : x m with
  | ok a m' =>
    rw [hr] at hend
    exact hf a m' hend
  | error h m' =>
    rw [hr] at hend
    exact hend

theorem giving (hx : Safe lapse A (Gives B P) x) (hf : ∀ a, P a → Safe lapse B S (f a)) : Safe lapse A S (x >>= f) :=
  hx.bind fun a m hm => hf a hm.1 m hm.2

theorem pure {a : α} (h : ∀ m, A m → R a m) : Safe lapse A R (Pure.pure a) := h

theorem gives {a : α} (h : P a) : Safe lapse A (Gives A P) (Pure.pure a) := fun _ hm => ⟨h, hm⟩

theorem map {g : α → β} (hx : Safe lapse A (Gives B P) x) (hg : ∀ a, P a → Q (g a)) :
    Safe lapse A (Gives B Q) (g <$> x) := by
  rw [map_eq_pure_bind]
  exact hx.giving fun a ha => gives (hg a ha)

theorem fail {fault : Fault} {span : Span} (h : fault.Excused lapse) : Safe lapse A R (Run.fail fault span) :=
  fun _ _ => h

/-- An error that types cannot rule out. -/
theorem ordinary {fault : Fault} {span : Span} (h : fault.Ordinary) : Safe lapse A R (Run.fail fault span) :=
  fail (.inl h)

/-- An error that only a lapse leads to. -/
theorem met {fault : Fault} {span : Span} (hlapse : lapse) (h : fault.MetUnit) : Safe lapse A R (Run.fail fault span) :=
  fail (.inr ⟨hlapse, h⟩)

theorem exhausted : Safe lapse A R (throw .exhausted : Run α) := fun _ _ => trivial

theorem mono {R' : α → Machine → Prop} (hx : Safe lapse A R x) (h : ∀ a m, R a m → R' a m) : Safe lapse A R' x := by
  intro m hm
  have hend := hx m hm
  cases hr : x m with
  | ok a m' =>
    rw [hr] at hend
    exact h a m' hend
  | error e m' =>
    rw [hr] at hend
    exact hend

end Safe
end Run

/-! ## Operations -/

namespace Eval

open Run

variable {records : Table RecordInfo} {lapse : Prop} {A : Machine → Prop} {v l r : Value}

theorem ofArith_safe {span : Span} : ∀ res : Except Arith.Fault Int,
    Safe lapse A (Gives A (Value.Has records lapse · .int)) (ofArith span res)
  | .ok _ => .gives .int
  | .error .overflow => .ordinary .overflow
  | .error .division => .ordinary .division

theorem asBool_safe {span : Span} (hv : v.Has records lapse .bool) : Safe lapse A (Gives A fun _ => True) (asBool span v) := by
  cases hv with
  | bool => exact .gives trivial
  | lapsed h => exact .met h .boolExpected

theorem asIndex_safe {span : Span} (hv : v.Has records lapse .int) :
    Safe lapse A (Gives A fun _ => True) (asIndex span v) := by
  cases hv with
  | @int n =>
    unfold asIndex
    by_cases hn : 0 ≤ n
    · simp only [if_pos hn]
      exact .gives trivial
    · simp only [if_neg hn]
      exact .ordinary .indexNegative
  | lapsed h => exact .met h .indexExpected

theorem neg_safe {span : Span} (hv : v.Has records lapse .int) :
    Safe lapse A (Gives A (Value.Has records lapse · .int)) (unary span .neg v) := by
  cases hv with
  | int => exact ofArith_safe _
  | lapsed h => exact .met h .operand

theorem not_safe {span : Span} (hv : v.Has records lapse .bool) :
    Safe lapse A (Gives A (Value.Has records lapse · .bool)) (unary span .not v) := by
  cases hv with
  | bool => exact .gives .bool
  | lapsed h => exact .met h .operand

/-- Numbers compare with numbers and characters with characters. -/
theorem comparison_safe {span : Span} {accept : Ordering → Bool} {t : Ty} (ht : t = .int ∨ t = .char)
    (hl : l.Has records lapse t) (hr : r.Has records lapse t) :
    Safe lapse A (Gives A (Value.Has records lapse · .bool)) (comparison span accept l r) := by
  obtain rfl | rfl := ht
  · cases hl with
    | lapsed h => cases hr <;> exact .met h .incomparableLeft
    | int =>
      cases hr with
      | lapsed h => exact .met h .incomparableRight
      | int => exact .gives .bool
  · cases hl with
    | lapsed h => cases hr <;> exact .met h .incomparableLeft
    | char =>
      cases hr with
      | lapsed h => exact .met h .incomparableRight
      | char => exact .gives .bool

theorem arithmetic_safe {span : Span} {op : BinOp} (hop : op = .add ∨ op = .sub ∨ op = .mul ∨ op = .div ∨ op = .rem)
    (hl : l.Has records lapse .int) (hr : r.Has records lapse .int) :
    Safe lapse A (Gives A (Value.Has records lapse · .int)) (binary span op l r) := by
  cases hl with
  | lapsed h => obtain rfl | rfl | rfl | rfl | rfl := hop <;> cases hr <;> exact .met h .left
  | int =>
    cases hr with
    | lapsed h => obtain rfl | rfl | rfl | rfl | rfl := hop <;> exact .met h .right
    | int => obtain rfl | rfl | rfl | rfl | rfl := hop <;> exact ofArith_safe _

theorem join_safe {span : Span} (hl : l.Has records lapse .text) (hr : r.Has records lapse .text) :
    Safe lapse A (Gives A (Value.Has records lapse · .text)) (binary span .add l r) := by
  cases hl with
  | lapsed h => cases hr <;> exact .met h .left
  | text =>
    cases hr with
    | lapsed h => exact .met h .right
    | text => exact .gives .text

/-- **An operator that evaluates both operands**, where the types of the operands allow it. -/
theorem binary_safe {span : Span} {op : BinOp} {lt rt t : Ty} (hand : op ≠ .and) (hor : op ≠ .or)
    (hl : l.Has records lapse lt) (hr : r.Has records lapse rt) (h : Check.knownBinaryType? op lt rt = some t) :
    Safe lapse A (Gives A (Value.Has records lapse · t)) (binary span op l r) := by
  unfold Check.knownBinaryType? at h
  split at h
  case h_1 =>
    cases h
    exact join_safe hl hr
  case h_7 | h_8 =>
    split at h
    · cases h
      exact .gives .bool
    · cases h
  case h_9 | h_10 | h_11 | h_12 =>
    cases h
    exact comparison_safe (.inl rfl) hl hr
  case h_13 | h_14 | h_15 | h_16 =>
    cases h
    exact comparison_safe (.inr rfl) hl hr
  case h_17 => exact absurd rfl hand
  case h_18 => exact absurd rfl hor
  case h_19 => cases h
  all_goals
    cases h
    exact arithmetic_safe (by simp) hl hr

theorem lookup_of_name {α : Type} {fs : List (String × α)} {n : String} (h : n ∈ fs.map (·.1)) :
    ∃ a, fs.lookup n = some a ∧ (n, a) ∈ fs := by
  obtain ⟨p, hp, rfl⟩ := List.mem_map.1 h
  obtain ⟨a, ha⟩ := Option.isSome_iff_exists.1 (List.lookup_isSome_iff.2 ⟨p, hp, beq_self_eq_true _⟩)
  obtain ⟨front, back, hfs, -⟩ := List.lookup_eq_some_iff.1 ha
  exact ⟨a, ha, hfs ▸ List.mem_append_right _ (List.mem_cons_self ..)⟩

theorem member_safe {span : Span} {canonical name : String} {info : RecordInfo} {f : FieldInfo}
    (hv : v.Has records lapse (.record canonical)) (hinfo : records.find? canonical = some info)
    (hf : info.field? name = some f) :
    Safe lapse A (Gives A (Value.Has records lapse · f.type)) (member span v name) := by
  cases hv with
  | lapsed h => exact .met h .noField
  | record hr _ hall _ hfields =>
    obtain rfl := Option.some.inj (hinfo.symm.trans hr)
    obtain rfl : f.name = name := by simpa using List.find?_some hf
    obtain ⟨a, ha, hmem⟩ := lookup_of_name (hall f (List.mem_of_find?_eq_some hf))
    unfold member Value.field?
    simp only [ha]
    exact .gives (hfields _ hmem f hf)

theorem element_safe {span indexSpan : Span} {elem : Ty} {n i : Nat} (hv : v.Has records lapse (.array elem (some n))) :
    Safe lapse A (Gives A (Value.Has records lapse · elem)) (element span indexSpan v i) := by
  cases hv with
  | lapsed h => exact .met h .notIndexable
  | @array items _ hitems =>
    unfold element
    cases hi : items[i]? with
    | some x =>
      simp only [hi]
      exact .gives (hitems x (List.mem_of_getElem? hi))
    | none =>
      simp only [hi]
      exact .ordinary .indexBounds

end Eval

/-! ## Scopes -/

/-- **One scope**: what is declared in it has a value of its type, and nothing else has one. -/
def Holds (records : Table RecordInfo) (lapse : Prop) (values : Table ValInfo) (table : Table Value) : Prop :=
  ∀ n, Option.Rel (fun v i => v.Has records lapse i.type) (table.find? n) (values.find? n)

/-- The scopes of a call.  The checker has one more below them. -/
inductive HoldsAll (records : Table RecordInfo) (lapse : Prop) : List (Table ValInfo) → List (Table Value) → Prop
  | base : HoldsAll records lapse [[]] []
  | cons {values table vs ts} : Holds records lapse values table → HoldsAll records lapse vs ts →
      HoldsAll records lapse (values :: vs) (table :: ts)

section

variable {records : Table RecordInfo} {lapse : Prop} {values : Table ValInfo} {table : Table Value}
  {vs : List (Table ValInfo)} {ts : List (Table Value)} {n : String} {v : Value} {i : ValInfo}

theorem Holds.nil : Holds records lapse [] [] := fun _ => .none

theorem Holds.insert (h : Holds records lapse values table) (hv : v.Has records lapse i.type) :
    Holds records lapse (values.insert n i) (table.insert n v) := by
  intro m
  rw [Table.find?_insert, Table.find?_insert]
  by_cases hm : m = n
  · rw [if_pos hm, if_pos hm]
    exact .some hv
  · rw [if_neg hm, if_neg hm]
    exact h m

theorem Holds.set (h : Holds records lapse values table) (hi : values.find? n = some i) (hv : v.Has records lapse i.type) :
    Holds records lapse values (table.set n v) := by
  intro m
  rw [Table.find?_set]
  by_cases hm : m = n
  · subst hm
    have hrel := h m
    rw [hi] at hrel ⊢
    cases ht : table.find? m with
    | none =>
      rw [ht] at hrel
      cases hrel
    | some w =>
      rw [if_pos rfl]
      exact .some hv
  · rw [if_neg hm]
    exact h m

namespace HoldsAll

theorem length (h : HoldsAll records lapse vs ts) : vs.length = ts.length + 1 := by
  induction h with
  | base => rfl
  | cons _ _ ih => rw [List.length_cons, List.length_cons, ih]

/-- **A name that is declared has a value of its type.** -/
theorem lookup (h : HoldsAll records lapse vs ts) (hi : vs.findSome? (Table.find? · n) = some i) :
    ∃ v, ts.findSome? (Table.find? · n) = some v ∧ v.Has records lapse i.type := by
  induction h with
  | base => cases hi
  | @cons values table vs ts hscope _ ih =>
    rw [List.findSome?_cons] at hi ⊢
    have hrel := hscope n
    cases ht : table.find? n with
    | none =>
      cases hv : values.find? n with
      | none =>
        rw [hv] at hi
        exact ih hi
      | some j =>
        rw [ht, hv] at hrel
        cases hrel
    | some v =>
      cases hv : values.find? n with
      | none =>
        rw [ht, hv] at hrel
        cases hrel
      | some j =>
        rw [hv] at hi
        cases hi
        rw [ht, hv] at hrel
        cases hrel with
        | some hvalue => exact ⟨v, rfl, hvalue⟩

/-- **An assignment finds the entry that the checker found.** -/
theorem update (h : HoldsAll records lapse vs ts) (hi : vs.findSome? (Table.find? · n) = some i)
    (hv : v.Has records lapse i.type) : ∃ ts', Run.update? n v ts = some ts' ∧ HoldsAll records lapse vs ts' := by
  induction h with
  | base => cases hi
  | @cons values table vs ts hscope hrest ih =>
    rw [List.findSome?_cons] at hi
    have hrel := hscope n
    unfold Run.update? Table.contains
    cases ht : table.find? n with
    | none =>
      cases hvalues : values.find? n with
      | none =>
        rw [hvalues] at hi
        obtain ⟨ts', hts', hall⟩ := ih hi
        exact ⟨table :: ts', by simp [hts'], .cons hscope hall⟩
      | some j =>
        rw [ht, hvalues] at hrel
        cases hrel
    | some w =>
      cases hvalues : values.find? n with
      | none =>
        rw [ht, hvalues] at hrel
        cases hrel
      | some j =>
        rw [hvalues] at hi
        cases hi
        exact ⟨table.set n v :: ts, by simp, .cons (hscope.set hvalues hv) hrest⟩

end HoldsAll

end

/-- **The machine is within the scope**: the frame of the call that is running holds what the scope declares. -/
def Within (records : Table RecordInfo) (lapse : Prop) (outer : List (List (Table Value))) (Γ : Scope) (m : Machine) :
    Prop :=
  ∃ table tables, m.frames = (table :: tables) :: outer ∧ HoldsAll records lapse Γ.values (table :: tables)

/-- It is within some scope right on top of the given ones. -/
def Atop (records : Table RecordInfo) (lapse : Prop) (outer : List (List (Table Value))) (below : List (Table ValInfo))
    (m : Machine) : Prop :=
  ∃ Γ : Scope, Γ.values.tail = below ∧ Within records lapse outer Γ m

namespace Run.Safe

variable {records : Table RecordInfo} {lapse : Prop} {outer : List (List (Table Value))} {Γ : Scope} {n : String}
  {span : Span} {v : Value} {i : ValInfo} {α : Type} {P : α → Prop} {x : Run α}

theorem lookup (hi : Γ.val? n = some i) : Safe lapse (Within records lapse outer Γ)
    (Gives (Within records lapse outer Γ) (Value.Has records lapse · i.type)) (Run.lookup n span) := by
  rintro ⟨frames, out⟩ ⟨table, tables, rfl, hall⟩
  obtain ⟨v, hv, hvalue⟩ := hall.lookup hi
  rw [lookup_eq, hv]
  exact ⟨hvalue, table, tables, rfl, hall⟩

theorem define (hv : v.Has records lapse i.type) : Safe lapse (Within records lapse outer Γ)
    (fun _ => Within records lapse outer (Γ.define n i)) (Run.define n v) := by
  rintro ⟨frames, out⟩ ⟨table, tables, rfl, hall⟩
  obtain ⟨values, types, ret, inLoop⟩ := Γ
  cases hall with
  | cons hscope hrest => exact ⟨_, _, rfl, .cons (hscope.insert hv) hrest⟩

theorem assign (hi : Γ.val? n = some i) (hv : v.Has records lapse i.type) : Safe lapse (Within records lapse outer Γ)
    (fun _ => Within records lapse outer Γ) (Run.assign n v span) := by
  rintro ⟨frames, out⟩ ⟨table, tables, rfl, hall⟩
  obtain ⟨ts', hts', hall'⟩ := hall.update hi hv
  rw [assign_eq, hts']
  have hlen := hall.length.symm.trans hall'.length
  cases ts' with
  | nil => cases hlen
  | cons table' tables' => exact ⟨table', tables', rfl, hall'⟩

theorem print {s : String} : Safe lapse (Within records lapse outer Γ) (fun _ => Within records lapse outer Γ)
    (Run.print s) := fun _ h => h

/-- **A scope of its own** leaves the scopes around it as they are declared. -/
theorem inScope (hx : Safe lapse (Within records lapse outer Γ.opened)
      (Gives (Atop records lapse outer Γ.values) P) x) :
    Safe lapse (Within records lapse outer Γ) (Gives (Within records lapse outer Γ) P) (Run.inScope x) := by
  rintro ⟨frames, out⟩ ⟨table, tables, rfl, hall⟩
  have hend := hx ⟨([] :: table :: tables) :: outer, out⟩ ⟨_, _, rfl, .cons .nil hall⟩
  rw [inScope_eq]
  cases hr : x ⟨([] :: table :: tables) :: outer, out⟩ with
  | error e m =>
    rw [hr] at hend
    exact hend
  | ok a m =>
    rw [hr] at hend
    obtain ⟨ha, ⟨values, types, ret, inLoop⟩, hvalues, table', tables', hframes, hall'⟩ := hend
    cases hall' with
    | cons _ hrest =>
      rw [List.tail_cons] at hvalues
      rw [hvalues] at hrest
      have hlen := hall.length.symm.trans hrest.length
      cases tables' with
      | nil => cases hlen
      | cons table₁ tables₁ => exact ⟨ha, table₁, tables₁, by simp [popScope, hframes], hrest⟩

/-- **A frame of its own** leaves all other frames alone. -/
theorem inFrame {table : Table Value} {fs : List (List (Table Value))} {R : α → Prop}
    (hx : Safe lapse (fun m => m.frames = [table] :: fs) (Gives (fun m => m.frames.tail = fs) R) x) :
    Safe lapse (fun m => m.frames = fs) (Gives (fun m => m.frames = fs) R) (Run.inFrame table x) := by
  rintro ⟨frames, out⟩ rfl
  have hend := hx ⟨[table] :: frames, out⟩ rfl
  rw [inFrame_eq]
  cases hr : x ⟨[table] :: frames, out⟩ with
  | error e m =>
    rw [hr] at hend
    exact hend
  | ok a m =>
    rw [hr] at hend
    exact hend

end Run.Safe
end Unroll
