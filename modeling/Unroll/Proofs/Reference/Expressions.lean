import Unroll.Proofs.Check.WellTyped
import Unroll.Proofs.Reference.Mirror
/-!
# Expressions mean the same to the machine and to the reference

The machine evaluates what an expression was elaborated into, the reference the expression itself; the two have one
outline.  What comes out is the same value, and it fits the type that the elaborated expression has.
-/
namespace Unroll

/-! ## Trees with a given outline -/

namespace Expr

variable {e : Expr}

theorem of_outline_name {sp : Span} {id : Ident} (h : e.outline = .name sp id) : e = .name sp id := by
  cases e <;> simp_all [outline]

theorem of_outline_int {sp : Span} {n : Int} (h : e.outline = .int sp n) : e = .int sp n := by
  cases e <;> simp_all [outline]

theorem of_outline_char {sp : Span} {c : Char} (h : e.outline = .char sp c) : e = .char sp c := by
  cases e <;> simp_all [outline]

theorem of_outline_bool {sp : Span} {b : Bool} (h : e.outline = .bool sp b) : e = .bool sp b := by
  cases e <;> simp_all [outline]

theorem of_outline_text {sp : Span} {s : String} (h : e.outline = .text sp s) : e = .text sp s := by
  cases e <;> simp_all [outline]

theorem of_outline_list {sp : Span} {items : List Expr} (h : e.outline = .list sp items) :
    ∃ items', e = .list sp items' ∧ outlines items' = items := by
  cases e <;> simp_all [outline]

theorem of_outline_array {sp : Span} {items : List Expr} (h : e.outline = .array sp items) :
    ∃ items', e = .array sp items' ∧ outlines items' = items := by
  cases e <;> simp_all [outline]

theorem of_outline_record {sp : Span} {type : Ident} {fs : List (Ident × Expr)} (h : e.outline = .record sp type fs) :
    ∃ fs', e = .record sp type fs' ∧ fieldOutlines fs' = fs := by
  cases e <;> simp_all [outline]

theorem of_outline_unary {sp : Span} {op : UnaryOp} {a : Expr} (h : e.outline = .unary sp op a) :
    ∃ a', e = .unary sp op a' ∧ a'.outline = a := by
  cases e <;> simp_all [outline]

theorem of_outline_binary {sp : Span} {op : BinOp} {l r : Expr} (h : e.outline = .binary sp l op r) :
    ∃ l' r', e = .binary sp l' op r' ∧ l'.outline = l ∧ r'.outline = r := by
  cases e <;> simp_all [outline]

theorem of_outline_member {sp : Span} {a : Expr} {m : Ident} (h : e.outline = .member sp a m) :
    ∃ sp' a', e = .member sp' a' m ∧ a'.outline = a := by
  cases e <;> simp_all [outline]

theorem of_outline_index {sp : Span} {a i : Expr} (h : e.outline = .index sp a i) :
    ∃ a' i', e = .index sp a' i' ∧ a'.outline = a ∧ i'.outline = i := by
  cases e <;> simp_all [outline]

theorem of_outline_call {sp : Span} {callee : Ident} {generic : List TypeArg} {args : List Expr}
    (h : e.outline = .call sp callee generic args) : ∃ callee' generic' args', e = .call sp callee' generic' args' ∧
      baseName callee'.name = callee.name ∧ outlines args' = args := by
  cases e <;> simp_all [outline]
  rw [← h.2.1]

end Expr

namespace Reference

open Outcome

/-- **What the world of the machine has in common with the world of the reference**: its cells do the same. -/
structure Lockstep (g : Globals) (globals : Table String) (w : World) (v : Eval.World) : Prop where
  rounds : v.rounds = w.rounds
  order : ∀ {n c r}, Worded n → g.literal? ⟨[], [globals], .unit, false⟩ n = some c → g.records.find? c = some r →
    w.order n = r.fields.map (·.name)
  worded : ∀ {n sig}, g.cells.find? n = some sig → Worded n
  calls : ∀ {n sig c}, g.cells.find? n = some sig → w.cells.find? n = some c → ∃ c', v.cells.find? n = some c' ∧
    ∀ {args : List Ordered} {sp sp' : Span}, List.Forall₂ (Fits g.records) args (sig.params.map (·.type)) → ∀ ls fs,
      Follows (Still ls fs) (Keeps (Still ls fs) (Same g.records sig.ret)) (w.call c args sp)
        (v.call c' (args.map Ordered.erase) sp')

section

variable {g : Globals} {globals : Table String} {w : World} {v : Eval.World} {outer : List (List (Table Value))}
  {hs : List (String → Option Value)} {Γ : Scope}

/-- Whatever comes out of an operation is a scalar. -/
theorem operation_follows {x : Span → Run Value} (hx : Placeless x) {A : State → Machine → Prop} {sp sp' : Span} {t : Ty} :
    Follows A (Keeps A (Same g.records t)) (Ordered.scalar <$> operation (x sp)) (x sp') := by
  intro s m hA a s' h
  obtain ⟨b, hb, rfl⟩ := map_ok.1 h
  obtain ⟨c, m', hy, rfl, hA'⟩ := follows_operation hx s m hA b s' hb
  exact ⟨c, m', hy, ⟨rfl, .scalar⟩, hA'⟩

theorem scalar_follows {A : State → Machine → Prop} {c : Value} {t : Ty} :
    Follows A (Keeps A (Same g.records t)) (pure (.scalar c)) (pure c) :=
  .kept ⟨rfl, .scalar⟩

theorem condition_follows {A : State → Machine → Prop} {t : Ty} {x : Ref Ordered} {y : Run Value} {sp sp' : Span}
    (hxy : Follows A (Keeps A (Same g.records t)) x y) :
    Follows A (Keeps A fun a b => b = a) (x >>= asBool sp) (y >>= Eval.asBool sp') :=
  hxy.keeping fun a b ⟨hb, _⟩ => by
    subst hb
    exact follows_operation (.asBool _)

theorem asBool_keeping {α β : Type} {A : State → Machine → Prop} {R : α → β → State → Machine → Prop} {t : Ty}
    {x : Ref Ordered} {y : Run Value} {sp sp' : Span} {f : Bool → Ref α} {k : Bool → Run β}
    (hxy : Follows A (Keeps A (Same g.records t)) x y) (hf : ∀ b, Follows A R (f b) (k b)) :
    Follows A R (do f (← asBool sp (← x))) (do k (← Eval.asBool sp' (← y))) :=
  hxy.keeping fun a b ⟨hb, _⟩ => by
    subst hb
    refine (follows_operation (.asBool _)).keeping fun c d hd => ?_
    subst hd
    exact hf d

theorem asIndex_keeping {α β : Type} {A : State → Machine → Prop} {R : α → β → State → Machine → Prop} {t : Ty}
    {x : Ref Ordered} {y : Run Value} {sp sp' : Span} {f : Nat → Ref α} {k : Nat → Run β}
    (hxy : Follows A (Keeps A (Same g.records t)) x y) (hf : ∀ i, Follows A R (f i) (k i)) :
    Follows A R (do f (← asIndex sp (← x))) (do k (← Eval.asIndex sp' (← y))) :=
  hxy.keeping fun a b ⟨hb, _⟩ => by
    subst hb
    refine (follows_operation (.asIndex _)).keeping fun c d hd => ?_
    subst hd
    exact hf d

theorem member_follows {A : State → Machine → Prop} {n : String} {r : RecordInfo} {f : FieldInfo} {m : String}
    (hr : g.records.find? n = some r) (hf : r.field? m = some f) {x : Ordered} {y : Value}
    (hx : Same g.records (.record n) x y) {sp sp' : Span} :
    Follows A (Keeps A (Same g.records f.type)) (member sp x m) (Eval.member sp' y m) := by
  obtain ⟨rfl, hx⟩ := hx
  cases hx with
  | scalar => exact .fail
  | record hr' hfit =>
    rename_i name r' fs
    rw [hr] at hr'
    cases hr'
    unfold member Eval.member Ordered.field? Value.field?
    simp only [Ordered.erase, Ordered.lookup_eraseFields]
    cases hl : fs.lookup m with
    | none => exact .fail
    | some z => exact .kept ⟨rfl, hfit m f z hf hl⟩

theorem element_follows {A : State → Machine → Prop} {elem : Ty} {n i : Nat} {x : Ordered} {y : Value}
    (hx : Same g.records (.array elem (some n)) x y) {sp isp sp' isp' : Span} :
    Follows A (Keeps A (Same g.records elem)) (element sp isp x i) (Eval.element sp' isp' y i) := by
  obtain ⟨rfl, hx⟩ := hx
  cases hx with
  | scalar => exact .fail
  | array hfit =>
    rename_i items
    unfold element Eval.element
    simp only [Ordered.erase, Ordered.eraseAll_eq, List.getElem?_map]
    cases hi : items[i]? with
    | none => exact .fail
    | some z => exact .kept ⟨rfl, hfit z (List.mem_of_getElem? hi)⟩

/-- A literal knows the order that its type declares. -/
theorem order_follows (hw : Lockstep g globals w v) {n c : String} {r : RecordInfo} (hword : Worded n)
    (hn : g.literal? Γ n = some c) (hr : g.records.find? c = some r) {s s' : State} {m : Machine}
    (hA : Agree g globals outer hs Γ s m) {o : List String} (h : orderOf w n s = .ok o s') :
    s' = s ∧ o = r.fields.map (·.name) := by
  obtain ⟨-, ms, -, hmirror⟩ := hA
  unfold orderOf at h
  obtain ⟨_, _, hget, h⟩ := bind_ok.1 h
  obtain ⟨rfl, rfl⟩ := get_ok.1 hget
  unfold Globals.literal? at hn
  obtain ⟨o', c', hl, hc, r', hr', ho⟩ | ⟨hl, hc⟩ := hmirror.order n
  · simp only [hl] at h
    obtain ⟨rfl, rfl⟩ := pure_ok.1 h
    simp only [hc, Option.some.injEq] at hn
    subst hn
    rw [hr] at hr'
    cases hr'
    exact ⟨rfl, ho⟩
  · simp only [hl] at h
    obtain ⟨rfl, rfl⟩ := pure_ok.1 h
    refine ⟨rfl, hw.order (c := c) hword ?_ hr⟩
    rw [hc] at hn
    unfold Globals.literal?
    rw [List.findSome?_cons, List.findSome?_nil]
    cases hg : globals.find? n with
    | some d =>
      rw [hg] at hn
      exact hn
    | none =>
      rw [hg] at hn
      exact hn

theorem call_follows (hw : Lockstep g globals w v) {n : String} {sig : CellSig} (hb : Check.isBuiltin n = false)
    (hsig : g.cells.find? n = some sig) {args : List Ordered}
    (hargs : List.Forall₂ (Fits g.records) args (sig.params.map (·.type))) {sp sp' : Span} :
    Follows (Agree g globals outer hs Γ) (Keeps (Agree g globals outer hs Γ) (Same g.records sig.ret))
      (call w sp n args) (Eval.call v sp' n (args.map Ordered.erase)) := by
  have hprint : n ≠ "print" := by
    rintro rfl
    cases hb
  have hlen : n ≠ "len" := by
    rintro rfl
    cases hb
  unfold call Eval.call
  split
  · exact absurd rfl hprint
  · exact absurd rfl hlen
  cases hc : w.cells.find? n with
  | none => exact .fail
  | some c =>
    obtain ⟨c', hc', hcall⟩ := hw.calls hsig hc
    simp only [hc']
    exact .of_still (hcall hargs)

theorem print_follows {x : Ordered} {y : Value} {t t' : Ty} (hx : Same g.records t x y) {sp sp' : Span} :
    Follows (Agree g globals outer hs Γ) (Keeps (Agree g globals outer hs Γ) (Same g.records t'))
      (call w sp "print" [x]) (Eval.call v sp' "print" [y]) := by
  obtain ⟨rfl, -⟩ := hx
  rintro s m ⟨hout, hframes⟩ a s' h
  obtain ⟨_, t, hp, h⟩ := bind_ok.1 h
  obtain ⟨rfl, rfl⟩ := pure_ok.1 h
  have hp := modify_ok.1 hp
  refine ⟨.unit, _, bind_ok.2 ⟨(), _, rfl, rfl⟩, ⟨rfl, .scalar⟩, ?_, ?_⟩
  · rw [← hp]
    show m.out ++ _ = s.out ++ _
    rw [hout]
    rfl
  · rw [← hp]
    exact hframes

theorem len_follows {x : Ordered} {y : Value} {t : Ty} (hx : Same g.records t x y) {A : State → Machine → Prop}
    {sp sp' : Span} :
    Follows A (Keeps A (Same g.records .int)) (call w sp "len" [x]) (Eval.call v sp' "len" [y]) := by
  obtain ⟨rfl, -⟩ := hx
  cases x with
  | array items =>
    have hlen : (Ordered.eraseAll items).length = items.length := by rw [Ordered.eraseAll_eq, List.length_map]
    show Follows A _ (pure (Ordered.scalar (.int items.length))) (pure (Value.int (Ordered.eraseAll items).length))
    rw [hlen]
    exact scalar_follows
  | scalar c => exact .fail
  | record name order fs => exact .fail

theorem binary_eq {op : BinOp} (hand : op ≠ .and) (hor : op ≠ .or) (sp : Span) (l r : Expr) :
    expr w (.binary sp l op r) = (do
      let a ← expr w l
      let b ← expr w r
      Ordered.scalar <$> operation (Eval.binary sp op a.erase b.erase)) := by
  cases op with
  | and => exact absurd rfl hand
  | or => exact absurd rfl hor
  | _ => rfl

theorem single {records : Table RecordInfo} {xs : List Ordered} {t : Ty} (h : List.Forall₂ (Fits records) xs [t]) :
    ∃ x, Fits records x t ∧ xs = [x] := by
  cases h with
  | cons hx hrest =>
    cases hrest
    exact ⟨_, hx, rfl⟩

/-! ## Expressions -/

mutual

/-- **An expression means the same**, and what it evaluates to fits its type. -/
theorem expr_follows (hw : Lockstep g globals w v) : ∀ {r e : Expr} {t : Ty}, e.outline = r.outline → e.Written →
    ExprTyped g Γ r t → Follows (Agree g globals outer hs Γ) (Keeps (Agree g globals outer hs Γ) (Same g.records t))
      (expr w e) (Eval.expr v r)
  | .name sp id, e, t, ho, he, ht => by
    obtain rfl := Expr.of_outline_name ho
    cases ht with
    | name hi => exact lookup_follows he hi
  | .int sp n, e, t, ho, _, _ => by
    obtain rfl := Expr.of_outline_int ho
    exact scalar_follows
  | .char sp c, e, t, ho, _, _ => by
    obtain rfl := Expr.of_outline_char ho
    exact scalar_follows
  | .bool sp b, e, t, ho, _, _ => by
    obtain rfl := Expr.of_outline_bool ho
    exact scalar_follows
  | .text sp x, e, t, ho, _, _ => by
    obtain rfl := Expr.of_outline_text ho
    exact scalar_follows
  | .array sp items, e, t, ho, he, ht => by
    obtain ⟨items', rfl, hout⟩ := Expr.of_outline_array ho
    obtain ⟨elem, rfl, htypes⟩ := ht.array_cases
    refine (exprs_follow hw hout he htypes).map fun xs vs ⟨hvs, hfit⟩ => ⟨?_, ?_⟩
    · rw [hvs, Ordered.erase, Ordered.eraseAll_eq]
    · have hlen : items.length = xs.length := by simpa using hfit.length_eq.symm
      rw [hlen] at hfit ⊢
      refine .array fun x hx => ?_
      obtain ⟨i, hi, rfl⟩ := List.getElem_of_mem hx
      have hget := (List.forall₂_iff_get.1 hfit).2 i hi (by simpa using hi)
      simpa using hget
  | .record sp type fs, e, t, ho, he, ht => by
    obtain ⟨fs', rfl, hout⟩ := Expr.of_outline_record ho
    cases ht with
    | record hn hr _ _ hknown hfs =>
      rename_i n r
      intro s m hA x s' hx
      obtain ⟨xs, t, hxs, hx⟩ := bind_ok.1 hx
      obtain ⟨o, u, ho', hx⟩ := bind_ok.1 hx
      obtain ⟨rfl, rfl⟩ := pure_ok.1 hx
      obtain ⟨vs, m', hvs, ⟨rfl, hfit⟩, hA'⟩ := fields_follow hw hout he.2 hknown hfs s m hA xs t hxs
      obtain ⟨rfl, rfl⟩ := order_follows hw he.1 hn hr hA' ho'
      refine ⟨_, m', map_ok.2 ⟨_, hvs, rfl⟩, ⟨rfl, .record hr fun k i y hk hy => ?_⟩, hA'⟩
      exact hfit _ (Table.mem_of_find? hy) i hk
  | .unary sp op a, e, t, ho, he, ht => by
    obtain ⟨a', rfl, hout⟩ := Expr.of_outline_unary ho
    have ha : ∃ ta, ExprTyped g Γ a ta := by
      cases ht with
      | neg ha => exact ⟨_, ha⟩
      | not ha => exact ⟨_, ha⟩
    obtain ⟨ta, hta⟩ := ha
    refine (expr_follows hw hout he hta).keeping fun x y ⟨hy, _⟩ => ?_
    subst hy
    exact operation_follows (.unary op _)
  | .binary sp l op r, e, t, ho, he, ht => by
    obtain ⟨l', r', rfl, hol, hor⟩ := Expr.of_outline_binary ho
    cases ht with
    | binary hl hr _ =>
      have hfl := expr_follows hw hol he.1 hl
      have hfr := expr_follows hw hor he.2 hr
      by_cases hand : op = .and
      · subst hand
        refine asBool_keeping hfl fun a => ?_
        cases a with
        | false => exact scalar_follows
        | true => exact asBool_keeping hfr fun b => scalar_follows
      by_cases hor : op = .or
      · subst hor
        refine asBool_keeping hfl fun a => ?_
        cases a with
        | true => exact scalar_follows
        | false => exact asBool_keeping hfr fun b => scalar_follows
      rw [binary_eq hand hor, Eval.binary_strict hand hor]
      refine hfl.keeping fun x y ⟨hy, _⟩ => hfr.keeping fun x' y' ⟨hy', _⟩ => ?_
      subst hy hy'
      exact operation_follows (.binary op _ _)
  | .member sp a m, e, t, ho, he, ht => by
    obtain ⟨_, a', rfl, hout⟩ := Expr.of_outline_member ho
    cases ht with
    | member ha hr hf => exact (expr_follows hw hout he ha).keeping fun x y hxy => member_follows hr hf hxy
  | .index sp a i, e, t, ho, he, ht => by
    obtain ⟨a', i', rfl, hoa, hoi⟩ := Expr.of_outline_index ho
    cases ht with
    | index ha hi =>
      refine (expr_follows hw hoa he.1 ha).keeping fun x y hxy => ?_
      exact asIndex_keeping (expr_follows hw hoi he.2 hi) fun k => element_follows hxy
  | .call sp callee generic args, e, t, ho, he, ht => by
    obtain ⟨callee', generic', args', rfl, hcallee, hout⟩ := Expr.of_outline_call ho
    obtain ⟨types, hargs, hkind⟩ := ht.call_cases
    have hbase : callee'.name = baseName callee.name := by rw [← he.1.baseName, hcallee]
    refine (exprs_follow hw hout he.2.2 hargs).keeping fun xs vs ⟨hvs, hfit⟩ => ?_
    subst hvs
    obtain ⟨hname, rfl, a, rfl⟩ | ⟨hname, rfl, elem, n, rfl⟩ | ⟨sig, hb, hsig, rfl, rfl⟩ := hkind
    · obtain ⟨x, hx, rfl⟩ := single hfit
      rw [hbase, hname]
      exact print_follows ⟨rfl, hx⟩
    · obtain ⟨x, hx, rfl⟩ := single hfit
      rw [hbase, hname]
      exact len_follows ⟨rfl, hx⟩
    · rw [hbase, (hw.worded hsig).baseName]
      exact call_follows hw hb hsig hfit
  | .list _ _, _, _, _, _, ht => by cases ht
  | .listSelect _ _ _, _, _, _, _, ht => by cases ht
  | .memberSelect _ _ _ _, _, _, _, _, ht => by cases ht
termination_by structural r => r

theorem exprs_follow (hw : Lockstep g globals w v) : ∀ {rs es : List Expr} {ts : List Ty},
    Expr.outlines es = Expr.outlines rs → Expr.AllWritten es → List.Forall₂ (ExprTyped g Γ) rs ts →
      Follows (Agree g globals outer hs Γ) (Keeps (Agree g globals outer hs Γ) fun xs vs =>
        vs = xs.map Ordered.erase ∧ List.Forall₂ (Fits g.records) xs ts) (exprs w es) (Eval.exprs v rs)
  | [], [], ts, _, _, ht => by
    cases ht
    exact .kept ⟨rfl, .nil⟩
  | r :: rs, e :: es, ts, ho, he, ht => by
    obtain ⟨hoe, hoes⟩ := List.cons.inj ho
    cases ht with
    | cons hr hrs =>
      refine (expr_follows hw hoe he.1 hr).keeping fun x y ⟨hy, hx⟩ => ?_
      refine (exprs_follow hw hoes he.2 hrs).keeping fun xs vs ⟨hvs, hxs⟩ => .kept ⟨?_, .cons hx hxs⟩
      rw [hy, hvs, List.map_cons]
  | [], _ :: _, _, ho, _, _ => by cases ho
  | _ :: _, [], _, ho, _, _ => by cases ho
termination_by structural rs => rs

theorem fields_follow (hw : Lockstep g globals w v) {i : RecordInfo} : ∀ {rs fs : List (Ident × Expr)},
    Expr.fieldOutlines fs = Expr.fieldOutlines rs → Expr.FieldsWritten fs → (∀ f ∈ rs, (i.field? f.1.name).isSome) →
    (∀ f ∈ rs, ∀ k, i.field? f.1.name = some k → ExprTyped g Γ f.2 k.type) →
      Follows (Agree g globals outer hs Γ) (Keeps (Agree g globals outer hs Γ) fun xs vs =>
        vs = Ordered.eraseFields xs ∧ ∀ x ∈ xs, ∀ k, i.field? x.1 = some k → Fits g.records x.2 k.type)
        (fields w fs) (Eval.fields v rs)
  | [], [], _, _, _, _ => .kept ⟨rfl, by simp⟩
  | (n, r) :: rs, (n', e) :: fs, ho, he, hk, ht => by
    obtain ⟨hofield, hofs⟩ := List.cons.inj ho
    obtain ⟨rfl, hoe⟩ := Prod.mk.inj hofield
    obtain ⟨hkn, hks⟩ := List.forall_mem_cons.1 hk
    obtain ⟨htn, hts⟩ := List.forall_mem_cons.1 ht
    obtain ⟨k, hk⟩ := Option.isSome_iff_exists.1 hkn
    refine (expr_follows hw hoe he.1 (htn k hk)).keeping fun x y ⟨hy, hx⟩ => ?_
    refine (fields_follow hw hofs he.2 hks hts).keeping fun xs vs ⟨hvs, hxs⟩ => .kept ⟨?_, ?_⟩
    · rw [hy, hvs]
      rfl
    · refine List.forall_mem_cons.2 ⟨fun k' hk' => ?_, hxs⟩
      have hsame : k' = k := Option.some.inj (hk'.symm.trans hk)
      subst hsame
      exact hx
  | [], _ :: _, ho, _, _, _ => by cases ho
  | _ :: _, [], ho, _, _, _ => by cases ho
termination_by structural rs => rs

end

end

end Reference
end Unroll
