import Mathlib.Data.Option.Basic
import Unroll.Proofs.Machine.Steps
import Unroll.Proofs.Outline
import Unroll.Proofs.Reference
/-!
# What the machine has in common with the reference

The machine has the scopes of the reference, value by value, and some more: an expansion over an array or a record keeps
its range under a name that no program can write.  So scopes are compared at the names that can be written, and what
stands at the others is said apart.
-/
namespace Unroll
namespace Reference

open Outcome

/-! ## Following -/

/-- Where the two begin in related states and the reference succeeds, the machine succeeds, too. -/
def Follows {α β : Type} (A : State → Machine → Prop) (R : α → β → State → Machine → Prop) (x : Ref α) (y : Run β) :
    Prop :=
  ∀ s m, A s m → ∀ a s', x s = .ok a s' → ∃ b m', y m = .ok b m' ∧ R a b s' m'

/-- The results are related, and the states are related as before. -/
def Keeps {α β : Type} (A : State → Machine → Prop) (P : α → β → Prop) (a : α) (b : β) (s : State) (m : Machine) : Prop :=
  P a b ∧ A s m

namespace Follows

variable {α β γ δ : Type} {A : State → Machine → Prop} {P : α → β → Prop} {R : α → β → State → Machine → Prop}
  {R' : γ → δ → State → Machine → Prop} {x : Ref α} {y : Run β} {f : α → Ref γ} {k : β → Run δ}

theorem bind (h : Follows A R x y) (hf : ∀ a b, Follows (R a b) R' (f a) (k b)) : Follows A R' (x >>= f) (y >>= k) := by
  intro s m hA c s' hc
  obtain ⟨a, t, hx, hfa⟩ := bind_ok.1 hc
  obtain ⟨b, n, hy, hr⟩ := h s m hA a t hx
  obtain ⟨d, m', hk, hr'⟩ := hf a b t n hr c s' hfa
  exact ⟨d, m', bind_ok.2 ⟨b, n, hy, hk⟩, hr'⟩

theorem keeping {A' : State → Machine → Prop} (h : Follows A (Keeps A' P) x y)
    (hf : ∀ a b, P a b → Follows A' R' (f a) (k b)) : Follows A R' (x >>= f) (y >>= k) :=
  h.bind fun a b s m hk => hf a b hk.1 s m hk.2

theorem pure {a : α} {b : β} (h : ∀ s m, A s m → R a b s m) : Follows A R (Pure.pure a) (Pure.pure b) := by
  intro s m hA c s' hc
  obtain ⟨rfl, rfl⟩ := pure_ok.1 hc
  exact ⟨b, m, rfl, h s m hA⟩

theorem kept {a : α} {b : β} (h : P a b) : Follows A (Keeps A P) (Pure.pure a) (Pure.pure b) :=
  pure fun _ _ hA => ⟨h, hA⟩

theorem map {Q : γ → δ → Prop} {f : α → γ} {k : β → δ} (h : Follows A (Keeps A P) x y)
    (hf : ∀ a b, P a b → Q (f a) (k b)) : Follows A (Keeps A Q) (f <$> x) (k <$> y) := by
  intro s m hA c s' hc
  obtain ⟨a, hx, rfl⟩ := map_ok.1 hc
  obtain ⟨b, m', hy, hp, hA'⟩ := h s m hA a s' hx
  exact ⟨k b, m', map_ok.2 ⟨b, hy, rfl⟩, hf a b hp, hA'⟩

theorem fail {fault : Fault} {span : Span} : Follows A R (fail fault span) y := by
  intro s m _ a s' h
  exact absurd h throw_ok

theorem fail_bind {fault : Fault} {span : Span} {z : Run δ} :
    Follows A R' (Reference.fail fault span >>= f) z := by
  intro s m _ a s' h
  obtain ⟨_, _, h, -⟩ := bind_ok.1 h
  exact absurd h throw_ok

theorem mono {R'' : α → β → State → Machine → Prop} (h : Follows A R x y) (hr : ∀ a b s m, R a b s m → R'' a b s m) :
    Follows A R'' x y := by
  intro s m hA a s' ha
  obtain ⟨b, m', hy, hr'⟩ := h s m hA a s' ha
  exact ⟨b, m', hy, hr a b s' m' hr'⟩

end Follows

/-! ## Operations -/

/-- The step neither reads nor changes the machine, and where it succeeds it succeeds at every place. -/
def Placeless {α : Type} (x : Span → Run α) : Prop :=
  ∀ sp a m m', x sp m = .ok a m' → ∀ sp' n, x sp' n = .ok a n

namespace Placeless

variable {α : Type}

theorem pure (a : α) : Placeless fun _ => (Pure.pure a : Run α) := by
  intro sp b m m' h sp' n
  obtain ⟨rfl, -⟩ := pure_ok.1 h
  rfl

theorem fail (fault : Fault) : Placeless fun sp => (Run.fail fault sp : Run α) :=
  fun _ _ _ _ h => absurd h throw_ok

theorem ofArith : ∀ r : Except Arith.Fault Int, Placeless (Eval.ofArith · r)
  | .ok v => pure (Value.int v)
  | .error .overflow => fail .overflow
  | .error .division => fail .division

theorem asBool (v : Value) : Placeless (Eval.asBool · v) := by
  cases v with
  | bool b => exact pure b
  | _ => exact fail _

theorem asIndex (v : Value) : Placeless (Eval.asIndex · v) := by
  cases v with
  | int n =>
    unfold Eval.asIndex
    by_cases hn : 0 ≤ n
    · simp only [if_pos hn]
      exact pure n.toNat
    · simp only [if_neg hn]
      exact fail _
  | _ => exact fail _

theorem unary (op : UnaryOp) (v : Value) : Placeless (Eval.unary · op v) := by
  unfold Eval.unary
  split
  · exact ofArith _
  · exact pure _
  · exact fail _

theorem comparison (accept : Ordering → Bool) (l r : Value) : Placeless (Eval.comparison · accept l r) := by
  unfold Eval.comparison
  cases Eval.order? l r with
  | some o => exact pure _
  | none => exact fail _

theorem binary (op : BinOp) (l r : Value) : Placeless (Eval.binary · op l r) := by
  unfold Eval.binary
  split
  all_goals first
    | exact ofArith _
    | exact comparison _ _ _
    | exact pure _
    | exact fail _

end Placeless

theorem follows_operation {α : Type} {x : Span → Run α} (hx : Placeless x) {A : State → Machine → Prop} {sp sp' : Span} :
    Follows A (Keeps A fun a b => b = a) (operation (x sp)) (x sp') := by
  intro s m hA a s' h
  unfold operation at h
  cases hn : x sp .new with
  | error e t =>
    rw [hn] at h
    cases h
  | ok b t =>
    rw [hn] at h
    cases h
    exact ⟨a, m, hx sp a _ t hn sp' m, rfl, hA⟩

/-! ## Values -/

/-- **A value that fits a type**: an array has its length, and a record the order of its fields.  Scalars are not told
apart; nothing here asks for more. -/
inductive Fits (records : Table RecordInfo) : Ordered → Ty → Prop
  | scalar {v t} : Fits records (.scalar v) t
  | array {items elem} : (∀ v ∈ items, Fits records v elem) → Fits records (.array items) (.array elem (some items.length))
  | record {name canonical r fs} : records.find? canonical = some r →
      (∀ n i v, r.field? n = some i → fs.lookup n = some v → Fits records v i.type) →
      Fits records (.record name (r.fields.map (·.name)) fs) (.record canonical)

/-- The two have the same value, and it fits the type. -/
def Same (records : Table RecordInfo) (t : Ty) (x : Ordered) (v : Value) : Prop := v = x.erase ∧ Fits records x t

/-! ## Scopes -/

/-- The order is that of the fields of the record. -/
def Orders (records : Table RecordInfo) (order : List String) (canonical : String) : Prop :=
  ∃ r, records.find? canonical = some r ∧ order = r.fields.map (·.name)

/-- **One scope**, as the checker, the reference and the machine have it.  What stands at names that cannot be written
is given. -/
structure Mirrors (records : Table RecordInfo) (hidden : String → Option Value) (values : Table ValInfo)
    (types : Table String) (l : Level) (table : Table Value) : Prop where
  fits : ∀ n, Worded n → Option.Rel (fun x i => Fits records x i.type) (l.values.find? n) (values.find? n)
  erased : ∀ n, Worded n → table.find? n = (l.values.find? n).map Ordered.erase
  hidden : ∀ n, ¬ Worded n → table.find? n = hidden n
  types : ∀ n, Option.Rel (Orders records) (l.types.find? n) (types.find? n)

/-- The scopes of a call.  The checker has one more of each kind below them, the types that are known everywhere. -/
inductive Mirror (records : Table RecordInfo) (globals : Table String) : List (String → Option Value) →
    List (Table ValInfo) → List (Table String) → List Level → List (Table Value) → Prop
  | base : Mirror records globals [] [[]] [globals] [] []
  | cons {h v t l m hs vs ts ls ms} : Mirrors records h v t l m → Mirror records globals hs vs ts ls ms →
      Mirror records globals (h :: hs) (v :: vs) (t :: ts) (l :: ls) (m :: ms)

namespace Mirrors

variable {records : Table RecordInfo} {hidden : String → Option Value} {values : Table ValInfo} {types : Table String}
  {l : Level} {table : Table Value}

theorem new : Mirrors records (fun _ => none) [] [] ⟨[], []⟩ [] where
  fits := fun _ _ => .none
  erased := fun _ _ => rfl
  hidden := fun _ _ => rfl
  types := fun _ => .none

/-- Both define a name that can be written. -/
theorem define (h : Mirrors records hidden values types l table) {n : String} (hn : Worded n) {x : Ordered} {i : ValInfo}
    (hx : Fits records x i.type) :
    Mirrors records hidden (values.insert n i) types { l with values := l.values.insert n x } (table.insert n x.erase)
    where
  fits := fun m hm => by
    rw [Table.find?_insert, Table.find?_insert]
    by_cases hmn : m = n
    · rw [if_pos hmn, if_pos hmn]
      exact .some hx
    · rw [if_neg hmn, if_neg hmn]
      exact h.fits m hm
  erased := fun m hm => by
    rw [Table.find?_insert, Table.find?_insert]
    by_cases hmn : m = n
    · rw [if_pos hmn, if_pos hmn]
      rfl
    · rw [if_neg hmn, if_neg hmn]
      exact h.erased m hm
  hidden := fun m hm => by
    have hmn : m ≠ n := fun he => hm (he ▸ hn)
    rw [Table.find?_insert, if_neg hmn]
    exact h.hidden m hm
  types := h.types

/-- Only the machine defines a name that cannot be written. -/
theorem hide (h : Mirrors records hidden values types l table) {n : String} (hn : ¬ Worded n) (v : Value) (i : ValInfo) :
    Mirrors records (fun m => if m = n then some v else hidden m) (values.insert n i) types l (table.insert n v) where
  fits := fun m hm => by
    have hmn : m ≠ n := fun he => hn (he ▸ hm)
    rw [Table.find?_insert, if_neg hmn]
    exact h.fits m hm
  erased := fun m hm => by
    have hmn : m ≠ n := fun he => hn (he ▸ hm)
    rw [Table.find?_insert, if_neg hmn]
    exact h.erased m hm
  hidden := fun m hm => by
    rw [Table.find?_insert]
    by_cases hmn : m = n
    · rw [if_pos hmn, if_pos hmn]
    · rw [if_neg hmn, if_neg hmn]
      exact h.hidden m hm
  types := h.types

theorem declare (h : Mirrors records hidden values types l table) {n canonical : String} {order : List String}
    (ho : Orders records order canonical) :
    Mirrors records hidden values (types.insert n canonical) { l with types := l.types.insert n order } table where
  fits := h.fits
  erased := h.erased
  hidden := h.hidden
  types := fun m => by
    rw [Table.find?_insert, Table.find?_insert]
    by_cases hmn : m = n
    · rw [if_pos hmn, if_pos hmn]
      exact .some ho
    · rw [if_neg hmn, if_neg hmn]
      exact h.types m

theorem set (h : Mirrors records hidden values types l table) {n : String} (hn : Worded n) {x : Ordered} {i : ValInfo}
    (hi : values.find? n = some i) (hx : Fits records x i.type) :
    Mirrors records hidden values types { l with values := l.values.set n x } (table.set n x.erase) where
  fits := fun m hm => by
    rw [Table.find?_set]
    by_cases hmn : m = n
    · subst hmn
      have hf := h.fits m hm
      rw [hi] at hf ⊢
      cases hl : l.values.find? m with
      | none =>
        rw [hl] at hf
        cases hf
      | some y =>
        rw [if_pos rfl]
        exact .some hx
    · rw [if_neg hmn]
      exact h.fits m hm
  erased := fun m hm => by
    rw [Table.find?_set, Table.find?_set, h.erased m hm]
    by_cases hmn : m = n
    · rw [if_pos hmn, if_pos hmn]
      cases l.values.find? m <;> rfl
    · rw [if_neg hmn, if_neg hmn]
  hidden := fun m hm => by
    have hmn : m ≠ n := fun he => hm (he ▸ hn)
    rw [Table.find?_set, if_neg hmn]
    exact h.hidden m hm
  types := h.types

end Mirrors

namespace Mirror

variable {records : Table RecordInfo} {globals : Table String} {hs : List (String → Option Value)}
  {vs : List (Table ValInfo)} {ts : List (Table String)} {ls : List Level} {ms : List (Table Value)}

/-- **A name that can be written means the same to all three.** -/
theorem lookup (h : Mirror records globals hs vs ts ls ms) {n : String} (hn : Worded n) :
    Option.Rel (fun x i => Fits records x i.type) (ls.findSome? (·.values.find? n)) (vs.findSome? (Table.find? · n)) ∧
      ms.findSome? (Table.find? · n) = (ls.findSome? (·.values.find? n)).map Ordered.erase := by
  induction h with
  | base => exact ⟨.none, rfl⟩
  | @cons h v t l m hs vs ts ls ms hm _ ih =>
    rw [List.findSome?_cons, List.findSome?_cons, List.findSome?_cons, hm.erased n hn]
    have hf := hm.fits n hn
    cases hl : l.values.find? n with
    | none =>
      rw [hl] at hf
      cases hv : v.find? n with
      | none => exact ih
      | some i =>
        rw [hv] at hf
        cases hf
    | some x =>
      rw [hl] at hf
      cases hv : v.find? n with
      | none =>
        rw [hv] at hf
        cases hf
      | some i =>
        rw [hv] at hf
        exact ⟨hf, rfl⟩

/-- A record that is declared in a scope has the order of its fields; any other is known everywhere. -/
theorem order (h : Mirror records globals hs vs ts ls ms) (n : String) :
    (∃ o c, ls.findSome? (·.types.find? n) = some o ∧ ts.findSome? (Table.find? · n) = some c ∧ Orders records o c) ∨
      ls.findSome? (·.types.find? n) = none ∧ ts.findSome? (Table.find? · n) = globals.find? n := by
  induction h with
  | base =>
    refine .inr ⟨rfl, ?_⟩
    rw [List.findSome?_cons, List.findSome?_nil]
    cases globals.find? n <;> rfl
  | @cons h v t l m hs vs ts ls ms hm _ ih =>
    rw [List.findSome?_cons, List.findSome?_cons]
    have hf := hm.types n
    cases hl : l.types.find? n with
    | none =>
      rw [hl] at hf
      cases hv : t.find? n with
      | none => exact ih
      | some i =>
        rw [hv] at hf
        cases hf
    | some o =>
      rw [hl] at hf
      cases hv : t.find? n with
      | none =>
        rw [hv] at hf
        cases hf
      | some c =>
        rw [hv] at hf
        cases hf with
        | some ho => exact .inl ⟨o, c, rfl, rfl, ho⟩

/-- **An assignment changes the same entry on both sides.** -/
theorem update (h : Mirror records globals hs vs ts ls ms) {n : String} (hn : Worded n) {x : Ordered} {i : ValInfo}
    (hi : vs.findSome? (Table.find? · n) = some i) (hx : Fits records x i.type) {ls' : List Level}
    (hu : update? n x ls = some ls') : ∃ ms', Run.update? n x.erase ms = some ms' ∧ Mirror records globals hs vs ts ls' ms' := by
  induction h generalizing ls' with
  | base => cases hu
  | @cons h v t l m hs vs ts ls ms hm hrest ih =>
    simp only [update?, Run.update?, Table.contains, hm.erased n hn, Option.isSome_map] at hu ⊢
    rw [List.findSome?_cons] at hi
    have hf := hm.fits n hn
    cases hl : l.values.find? n with
    | none =>
      simp only [hl, Option.isSome_none, Bool.false_eq_true, if_false, Option.map_eq_some_iff] at hu ⊢
      obtain ⟨ls', hu, rfl⟩ := hu
      rw [hl] at hf
      cases hv : v.find? n with
      | none =>
        rw [hv] at hi
        obtain ⟨ms', hms, hmirror⟩ := ih hi hu
        exact ⟨m :: ms', ⟨ms', hms, rfl⟩, .cons hm hmirror⟩
      | some j =>
        rw [hv] at hf
        cases hf
    | some y =>
      simp only [hl, Option.isSome_some, if_true, Option.some.injEq] at hu ⊢
      subst hu
      rw [hl] at hf
      cases hv : v.find? n with
      | none =>
        rw [hv] at hf
        cases hf
      | some j =>
        rw [hv] at hi
        cases hi
        exact ⟨_, rfl, .cons (hm.set hn hv hx) hrest⟩

end Mirror

/-! ## States -/

/-- **The states of the two agree** in a scope: they have printed the same, and the frame of the call that is running
mirrors the scopes of the reference. -/
structure Agree (g : Globals) (globals : Table String) (outer : List (List (Table Value)))
    (hs : List (String → Option Value)) (Γ : Scope) (s : State) (m : Machine) : Prop where
  out : m.out = s.out
  frames : ∃ ms, m.frames = ms :: outer ∧ Mirror g.records globals hs Γ.values Γ.types s.scopes ms

/-- They agree in a scope on top of the given ones. -/
def Inner (g : Globals) (globals : Table String) (outer : List (List (Table Value))) (hs : List (String → Option Value))
    (values : List (Table ValInfo)) (types : List (Table String)) (s : State) (m : Machine) : Prop :=
  ∃ h Γ, Γ.values.tail = values ∧ Γ.types.tail = types ∧ Agree g globals outer (h :: hs) Γ s m

/-- The scopes are these, and the two have printed the same. -/
structure Still (ls : List Level) (fs : List (List (Table Value))) (s : State) (m : Machine) : Prop where
  scopes : s.scopes = ls
  frames : m.frames = fs
  out : m.out = s.out

section

variable {g : Globals} {globals : Table String} {outer : List (List (Table Value))} {h : String → Option Value}
  {hs : List (String → Option Value)} {Γ : Scope} {α β : Type} {P : α → β → Prop} {x : Ref α} {y : Run β}

/-- What leaves the scopes alone leaves the two in agreement. -/
theorem Follows.of_still (hxy : ∀ ls fs, Follows (Still ls fs) (Keeps (Still ls fs) P) x y) :
    Follows (Agree g globals outer hs Γ) (Keeps (Agree g globals outer hs Γ) P) x y := by
  intro s m hA a s' ha
  obtain ⟨b, m', hy, hp, hstill⟩ := hxy s.scopes m.frames s m ⟨rfl, rfl, hA.out⟩ a s' ha
  refine ⟨b, m', hy, hp, hstill.out, ?_⟩
  rw [hstill.frames, hstill.scopes]
  exact hA.frames

theorem lookup_follows {n : String} (hn : Worded n) {i : ValInfo} (hi : Γ.val? n = some i) {sp sp' : Span} :
    Follows (Agree g globals outer hs Γ) (Keeps (Agree g globals outer hs Γ) (Same g.records i.type)) (lookup n sp)
      (Run.lookup n sp') := by
  intro s m hA x s' hx
  obtain ⟨ms, hms, hmirror⟩ := hA.frames
  obtain ⟨hrel, herase⟩ := hmirror.lookup hn
  unfold lookup at hx
  obtain ⟨_, _, hget, hx⟩ := bind_ok.1 hx
  obtain ⟨rfl, rfl⟩ := get_ok.1 hget
  cases hf : s.scopes.findSome? (·.values.find? n) with
  | none =>
    simp only [hf] at hx
    exact absurd hx throw_ok
  | some x₀ =>
    simp only [hf] at hx
    obtain ⟨rfl, rfl⟩ := pure_ok.1 hx
    have hv : Γ.values.findSome? (Table.find? · n) = some i := hi
    rw [hf, hv] at hrel
    refine ⟨x₀.erase, m, ?_, ⟨rfl, ?_⟩, hA⟩
    · obtain ⟨frames, out⟩ := m
      obtain rfl : frames = ms :: outer := hms
      rw [Run.lookup_eq, herase, hf]
      rfl
    · cases hrel with
      | some hfit => exact hfit

/-- **A definition**, of a name that can be written. -/
theorem define_follows {n : String} (hn : Worded n) {i : ValInfo} {x : Ordered} {v : Value}
    (hx : Same g.records i.type x v) :
    Follows (Agree g globals outer (h :: hs) Γ) (fun _ _ => Agree g globals outer (h :: hs) (Γ.define n i)) (define n x)
      (Run.define n v) := by
  obtain ⟨rfl, hx⟩ := hx
  rintro s ⟨frames, out⟩ ⟨hout, ms, rfl, hmirror⟩ a s' hs'
  have hs' := modify_ok.1 hs'
  refine ⟨(), _, Run.onScopes_eq _, ?_, _, rfl, ?_⟩
  · rw [← hs']
    exact hout
  · rw [← hs']
    obtain ⟨values, types, ret, inLoop⟩ := Γ
    obtain ⟨scopes, out⟩ := s
    cases hmirror with
    | cons hm hrest => exact .cons (hm.define hn hx) hrest

/-- A definition that only the machine makes. -/
theorem hide_agrees {n : String} (hn : ¬ Worded n) (v : Value) (i : ValInfo) {s : State} {m : Machine}
    (hA : Agree g globals outer (h :: hs) Γ s m) :
    ∃ m', Run.define n v m = .ok () m' ∧
      Agree g globals outer ((fun k => if k = n then some v else h k) :: hs) (Γ.define n i) s m' := by
  obtain ⟨frames, out⟩ := m
  obtain ⟨hout, ms, rfl, hmirror⟩ := hA
  refine ⟨_, Run.onScopes_eq _, hout, _, rfl, ?_⟩
  obtain ⟨values, types, ret, inLoop⟩ := Γ
  obtain ⟨scopes, out⟩ := s
  cases hmirror with
  | cons hm hrest => exact .cons (hm.hide hn v i) hrest

/-- A record that is declared in a scope. -/
theorem declare_agrees {n canonical : String} {order : List String} (ho : Orders g.records order canonical) {s s' : State}
    {m : Machine} (hA : Agree g globals outer (h :: hs) Γ s m) {u : Unit} (hs' : declare n order s = .ok u s') :
    Agree g globals outer (h :: hs) (Γ.declare n canonical) s' m := by
  obtain ⟨hout, ms, hms, hmirror⟩ := hA
  have hs' := modify_ok.1 hs'
  rw [← hs']
  refine ⟨hout, ms, hms, ?_⟩
  obtain ⟨values, types, ret, inLoop⟩ := Γ
  obtain ⟨scopes, out⟩ := s
  cases hmirror with
  | cons hm hrest => exact .cons (hm.declare ho) hrest

theorem assign_follows {n : String} (hn : Worded n) {i : ValInfo} (hi : Γ.val? n = some i) {x : Ordered} {v : Value}
    (hx : Same g.records i.type x v) {sp sp' : Span} :
    Follows (Agree g globals outer hs Γ) (fun _ _ => Agree g globals outer hs Γ) (assign n x sp) (Run.assign n v sp') := by
  obtain ⟨rfl, hx⟩ := hx
  rintro s ⟨frames, mout⟩ ⟨hout, ms, rfl, hmirror⟩ a s' hs'
  unfold assign at hs'
  obtain ⟨_, _, hget, hs'⟩ := bind_ok.1 hs'
  obtain ⟨rfl, rfl⟩ := get_ok.1 hget
  cases hu : update? n x s.scopes with
  | none =>
    simp only [hu] at hs'
    exact absurd hs' throw_ok
  | some ls =>
    simp only [hu] at hs'
    have hs' := modify_ok.1 hs'
    obtain ⟨ms', hms', hmirror'⟩ := hmirror.update hn hi hx hu
    refine ⟨(), ⟨ms' :: outer, mout⟩, ?_, ?_, ms', rfl, ?_⟩
    · rw [Run.assign_eq, hms']
    · rw [← hs']
      exact hout
    · rw [← hs']
      exact hmirror'

/-- **A scope of its own**, and what was agreed on holds again after it. -/
theorem inScope_follows (hxy : Follows (Agree g globals outer ((fun _ => none) :: hs) Γ.opened)
      (Keeps (Inner g globals outer hs Γ.values Γ.types) P) x y) :
    Follows (Agree g globals outer hs Γ) (Keeps (Agree g globals outer hs Γ) P) (inScope x) (Run.inScope y) := by
  rintro s ⟨frames, mout⟩ ⟨hout, ms, rfl, hmirror⟩ a s' ha
  unfold inScope inside at ha
  cases hx : x { s with scopes := ⟨[], []⟩ :: s.scopes } with
  | error e t =>
    rw [hx] at ha
    cases ha
  | ok a' t =>
    rw [hx] at ha
    cases ha
    have hin : Agree g globals outer ((fun _ => none) :: hs) Γ.opened { s with scopes := ⟨[], []⟩ :: s.scopes }
        ⟨([] :: ms) :: outer, mout⟩ := ⟨hout, _, rfl, .cons .new hmirror⟩
    obtain ⟨b, ⟨frames', out'⟩, hy, hp, h', Γ', hv, ht, hout', ms', rfl, hmirror'⟩ := hxy _ _ hin _ _ hx
    refine ⟨b, ⟨ms'.tail :: outer, out'⟩, ?_, hp, hout', ms'.tail, rfl, ?_⟩
    · rw [Run.inScope_eq, hy]
      rfl
    · obtain ⟨values, types, ret, inLoop⟩ := Γ'
      obtain ⟨scopes, out''⟩ := t
      cases hmirror' with
      | cons hm hrest => exact hv ▸ ht ▸ hrest

end

end Reference
end Unroll
