import Unroll.Proofs.Reference.Expressions
/-!
# The machine follows the reference

The machine runs what a tree was elaborated into, the reference the tree itself; the two have one outline.  Where the
reference goes through the elements of a range, the machine goes through copies, and each copy begins by reading its own
element: from the list, or by its index or its name from where the range is kept.
-/
namespace Unroll

/-! ## Trees with a given outline -/

theorem Expr.outlines_length {es es' : List Expr} (h : outlines es' = outlines es) : es'.length = es.length := by
  simpa [outlines_eq] using congrArg List.length h

namespace Stmt

variable {x : Stmt}

theorem of_outline_record {d : RecordDef} (h : x.outline = .record d) : ∃ d', x = .record d' ∧ d'.outline = d := by
  cases x with
  | record d' => exact ⟨d', rfl, Stmt.record.inj h⟩
  | cond _ _ _ no => cases no <;> cases h
  | give _ e => cases e <;> cases h
  | _ => cases h

theorem of_outline_val {d : ValDecl} (h : x.outline = .val d) : ∃ d', x = .val d' ∧ d'.outline = d := by
  cases x with
  | val d' => exact ⟨d', rfl, Stmt.val.inj h⟩
  | cond _ _ _ no => cases no <;> cases h
  | give _ e => cases e <;> cases h
  | _ => cases h

theorem of_outline_assign {sp : Span} {target : Ident} {e : Expr} (h : x.outline = .assign sp target e) :
    ∃ e', x = .assign sp target e' ∧ e'.outline = e := by
  cases x with
  | assign sp' target' e' =>
    cases h
    exact ⟨e', rfl, rfl⟩
  | cond _ _ _ no => cases no <;> cases h
  | give _ e => cases e <;> cases h
  | _ => cases h

theorem of_outline_cond {sp : Span} {c : Expr} {yes : Block} (h : x.outline = .cond sp c yes none) :
    ∃ c' yes', x = .cond sp c' yes' none ∧ c'.outline = c ∧ yes'.outline = yes := by
  cases x with
  | cond sp' c' yes' no =>
    cases no with
    | none =>
      cases h
      exact ⟨c', yes', rfl, rfl, rfl⟩
    | some no => cases h
  | give _ e => cases e <;> cases h
  | _ => cases h

theorem of_outline_choice {sp : Span} {c : Expr} {yes no : Block} (h : x.outline = .cond sp c yes (some no)) :
    ∃ c' yes' no', x = .cond sp c' yes' (some no') ∧ c'.outline = c ∧ yes'.outline = yes ∧ no'.outline = no := by
  cases x with
  | cond sp' c' yes' no' =>
    cases no' with
    | none => cases h
    | some no' =>
      cases h
      exact ⟨c', yes', no', rfl, rfl, rfl, rfl⟩
  | give _ e => cases e <;> cases h
  | _ => cases h

theorem of_outline_loop {sp : Span} {c : Expr} {body : Block} (h : x.outline = .loop sp c body) :
    ∃ c' body', x = .loop sp c' body' ∧ c'.outline = c ∧ body'.outline = body := by
  cases x with
  | loop sp' c' body' =>
    cases h
    exact ⟨c', body', rfl, rfl, rfl⟩
  | cond _ _ _ no => cases no <;> cases h
  | give _ e => cases e <;> cases h
  | _ => cases h

theorem of_outline_expand {y : Expansion} (h : x.outline = .expand y) : ∃ y', x = .expand y' ∧ y'.outline = y := by
  cases x with
  | expand y' => exact ⟨y', rfl, Stmt.expand.inj h⟩
  | cond _ _ _ no => cases no <;> cases h
  | give _ e => cases e <;> cases h
  | _ => cases h

theorem of_outline_leave {sp : Span} (h : x.outline = .leave sp) : x = .leave sp := by
  cases x with
  | leave sp' => exact h
  | cond _ _ _ no => cases no <;> cases h
  | give _ e => cases e <;> cases h
  | _ => cases h

theorem of_outline_next {sp : Span} (h : x.outline = .next sp) : x = .next sp := by
  cases x with
  | next sp' => exact h
  | cond _ _ _ no => cases no <;> cases h
  | give _ e => cases e <;> cases h
  | _ => cases h

theorem of_outline_giveUnit {sp : Span} (h : x.outline = .give sp none) : x = .give sp none := by
  cases x with
  | give sp' e =>
    cases e with
    | none => exact h
    | some e => cases h
  | cond _ _ _ no => cases no <;> cases h
  | _ => cases h

theorem of_outline_give {sp : Span} {e : Expr} (h : x.outline = .give sp (some e)) :
    ∃ e', x = .give sp (some e') ∧ e'.outline = e := by
  cases x with
  | give sp' e' =>
    cases e' with
    | none => cases h
    | some e' =>
      cases h
      exact ⟨e', rfl, rfl⟩
  | cond _ _ _ no => cases no <;> cases h
  | _ => cases h

theorem of_outline_assert {sp : Span} {e : Expr} (h : x.outline = .assert sp e) :
    ∃ e', x = .assert sp e' ∧ e'.outline = e := by
  cases x with
  | assert sp' e' =>
    cases h
    exact ⟨e', rfl, rfl⟩
  | cond _ _ _ no => cases no <;> cases h
  | give _ e => cases e <;> cases h
  | _ => cases h

theorem of_outline_expr {e : Expr} (h : x.outline = .expr e) : ∃ e', x = .expr e' ∧ e'.outline = e := by
  cases x with
  | expr e' => exact ⟨e', rfl, Stmt.expr.inj h⟩
  | cond _ _ _ no => cases no <;> cases h
  | give _ e => cases e <;> cases h
  | _ => cases h

end Stmt

theorem LoopVar.of_outline {x y : LoopVar} (h : x.outline = y.outline) : x.name = y.name := by
  simpa [outline] using congrArg LoopVar.name h

theorem RecordDef.of_outline {d d' : RecordDef} (h : d'.outline = d.outline) :
    d'.name = d.name ∧ d'.fields.map (·.name.name) = d.fields.map (·.name.name) := by
  refine ⟨by simpa [outline] using congrArg RecordDef.name h, ?_⟩
  have hfields := congrArg (fun k : RecordDef => k.fields.map (·.name.name)) h
  simpa [outline, Function.comp_def] using hfields

theorem ValDecl.of_outline {d d' : ValDecl} (h : d'.outline = d.outline) :
    d'.name = d.name ∧ d'.expr.outline = d.expr.outline :=
  ⟨by simpa [outline] using congrArg ValDecl.name h, by simpa [outline] using congrArg ValDecl.expr h⟩

namespace Reference

open Outcome

/-- The two go on in the same way, with a value that fits. -/
def SameFlow (records : Table RecordInfo) (ret : Ty) (f : Flow) (f' : Unroll.Flow) : Prop :=
  f' = f.erase ∧ ∀ x, f = .give x → Fits records x ret

namespace SameFlow

variable {records : Table RecordInfo} {ret : Ty}

theorem next : SameFlow records ret .next .next := ⟨rfl, nofun⟩

theorem leave : SameFlow records ret .leave .leave := ⟨rfl, nofun⟩

theorem again : SameFlow records ret .again .again := ⟨rfl, nofun⟩

theorem give {x : Ordered} {y : Value} (h : Same records ret x y) : SameFlow records ret (.give x) (.give y) :=
  ⟨by rw [h.1]; rfl, fun z hz => Flow.give.inj hz ▸ h.2⟩

end SameFlow

section

variable {g : Globals} {globals : Table String} {w : World} {v : Eval.World} {outer : List (List (Table Value))}
  {h : String → Option Value} {hs : List (String → Option Value)} {Γ : Scope}

/-! ## Loops -/

theorem rounds_follow {A : State → Machine → Prop} {ret : Ty} {c : Ref Bool} {c' : Run Bool} {body : Ref Flow}
    {body' : Run Unroll.Flow} (hc : Follows A (Keeps A fun a b => b = a) c c')
    (hbody : Follows A (Keeps A (SameFlow g.records ret)) body body') : ∀ n,
      Follows A (Keeps A (SameFlow g.records ret)) (rounds c body n) (Eval.rounds c' body' n)
  | 0 => by
    intro s m _ a s' ha
    exact absurd ha throw_ok
  | n + 1 => by
    refine hc.keeping fun a b hb => ?_
    subst hb
    cases b with
    | false => exact .kept .next
    | true =>
      refine hbody.keeping fun f f' ⟨hf', hf⟩ => ?_
      subst hf'
      cases f with
      | next => exact rounds_follow hc hbody n
      | again => exact rounds_follow hc hbody n
      | leave => exact .kept .next
      | give x => exact .kept ⟨rfl, fun y hy => hf y hy⟩

/-! ## What comes before the copies -/

theorem init_follows (hw : Lockstep g globals w v) {i i' : Option Init} {Γ' : Scope}
    (ho : Init.outline i' = Init.outline i) (hi : Init.Written i') (ht : InitTyped g Γ i Γ') :
    Follows (Agree g globals outer (h :: hs) Γ) (fun _ _ => Agree g globals outer (h :: hs) Γ') (init w i')
      (Eval.init v i) := by
  cases ht with
  | none =>
    have hnone : i' = none := by rcases i' with _ | _ | _ <;> first | rfl | cases ho
    subst hnone
    exact .pure fun _ _ hA => hA
  | val hd =>
    rename_i d t
    obtain ⟨d', rfl, hd'⟩ : ∃ d', i' = some (.val d') ∧ d'.outline = d.outline := by
      rcases i' with _ | d' | _
      · cases ho
      · exact ⟨d', rfl, Init.val.inj (Option.some.inj ho)⟩
      · cases ho
    obtain ⟨hname, hexpr⟩ := ValDecl.of_outline hd'
    refine (expr_follows hw hexpr hi.expr hd).keeping fun x y hxy => ?_
    rw [hname]
    exact define_follows (hname ▸ hi.name) (i := ⟨t, d.mutable⟩) hxy
  | expr he =>
    rename_i e t
    obtain ⟨e', rfl, he'⟩ : ∃ e', i' = some (.expr e') ∧ e'.outline = e.outline := by
      rcases i' with _ | _ | e'
      · cases ho
      · cases ho
      · exact ⟨e', rfl, Init.expr.inj (Option.some.inj ho)⟩
    exact (expr_follows hw he' hi he).keeping fun x y _ => .pure fun _ _ hA => hA

/-! ## Elements -/

/-- What the machine keeps under a name that cannot be written is found from the scope of a copy. -/
theorem hidden_lookup {n : String} (hn : ¬ Worded n) {y : Value} (hy : h n = some y) {s : State} {m : Machine}
    (hA : Agree g globals outer ((fun _ => none) :: h :: hs) Γ s m) (sp : Span) : Run.lookup n sp m = .ok y m := by
  obtain ⟨values, types, ret, inLoop⟩ := Γ
  obtain ⟨scopes, out⟩ := s
  obtain ⟨frames, mout⟩ := m
  obtain ⟨-, ms, rfl, hmirror⟩ := hA
  cases hmirror with
  | cons hm hrest =>
    cases hrest with
    | cons hm' _ => rw [Run.lookup_eq, List.findSome?_cons, List.findSome?_cons, hm.hidden n hn, hm'.hidden n hn, hy]

/-- **A copy reads its own item** of the array that the range is kept as. -/
theorem item_follows {n : String} (hn : ¬ Worded n) {items : List Ordered} (hkept : h n = some (.array (Ordered.eraseAll items)))
    {elem : Ty} {len : Nat} (hfit : Fits g.records (.array items) (.array elem (some len))) {i : Nat} {x : Ordered}
    (hx : items[i]? = some x) {t : Ty} {d : Expr} (hd : ∃ sp₁ sp₂ sp₃ id, d = .index sp₁ (.name sp₂ id) (.int sp₃ i) ∧ id.name = n)
    {k : ValInfo} (hk : Γ.val? n = some k) (hkt : k.type = .array elem (some len)) (ht : ExprTyped g Γ d t) :
    Follows (Agree g globals outer ((fun _ => none) :: h :: hs) Γ)
      (Keeps (Agree g globals outer ((fun _ => none) :: h :: hs) Γ) (Same g.records t)) (pure x) (Eval.expr v d) := by
  obtain ⟨sp₁, sp₂, sp₃, id, rfl, rfl⟩ := hd
  intro s m hA a s' ha
  obtain ⟨rfl, rfl⟩ := pure_ok.1 ha
  refine ⟨x.erase, m, ?_, ⟨rfl, ?_⟩, hA⟩
  · refine bind_ok.2 ⟨_, m, hidden_lookup hn hkept hA id.span, bind_ok.2 ⟨_, m, rfl, bind_ok.2 ⟨i, m, ?_, ?_⟩⟩⟩
    · rw [Eval.asIndex_nat]
      rfl
    · unfold Eval.element
      simp only [Ordered.eraseAll_eq, List.getElem?_map, hx, Option.map_some]
      rfl
  · cases ht with
    | index hb _ =>
      generalize hbt : Ty.array t (some _) = bt at hb
      cases hb with
      | name hv =>
        rw [hk] at hv
        cases hv
        rw [hkt] at hbt
        cases hbt
        cases hfit with
        | array hitems => exact hitems x (List.mem_of_getElem? hx)

/-- **A copy reads its own field** of the record that the range is kept as. -/
theorem field_follows {n : String} (hn : ¬ Worded n) {name : String} {order : List String} {fs : List (String × Ordered)}
    (hkept : h n = some (.record name (Ordered.eraseFields fs))) {c : String} {r : RecordInfo}
    (hr : g.records.find? c = some r) (hfit : Fits g.records (.record name order fs) (.record c)) {f : String} {x : Ordered}
    (hx : fs.lookup f = some x) {t : Ty} {d : Expr} (hd : ∃ sp₁ sp₂ id m, d = .member sp₁ (.name sp₂ id) m ∧ id.name = n ∧ m.name = f)
    {k : ValInfo} (hk : Γ.val? n = some k) (hkt : k.type = .record c) (ht : ExprTyped g Γ d t) :
    Follows (Agree g globals outer ((fun _ => none) :: h :: hs) Γ)
      (Keeps (Agree g globals outer ((fun _ => none) :: h :: hs) Γ) (Same g.records t)) (pure x) (Eval.expr v d) := by
  obtain ⟨sp₁, sp₂, id, fid, rfl, rfl, rfl⟩ := hd
  intro s m hA a s' ha
  obtain ⟨rfl, rfl⟩ := pure_ok.1 ha
  refine ⟨x.erase, m, ?_, ⟨rfl, ?_⟩, hA⟩
  · refine bind_ok.2 ⟨_, m, hidden_lookup hn hkept hA id.span, ?_⟩
    unfold Eval.member Value.field?
    simp only [Ordered.lookup_eraseFields, hx, Option.map_some]
    rfl
  · cases ht with
    | member hb hr' hf =>
      generalize hbt : Ty.record _ = bt at hb
      cases hb with
      | name hv =>
        rw [hk] at hv
        cases hv
        rw [hkt] at hbt
        cases hbt
        rw [hr] at hr'
        cases hr'
        cases hfit with
        | record hr'' hfields =>
          rw [hr] at hr''
          cases hr''
          exact hfields _ _ x hf hx

theorem inOrder_ok {name : String} {order : List String} {fs : List (String × Ordered)} {sp : Span} : ∀ {ns : List String}
    {s s' : State} {xs : List Ordered}, inOrder sp (.record name order fs) ns s = .ok xs s' →
      s' = s ∧ List.Forall₂ (fun n x => fs.lookup n = some x) ns xs
  | [], s, s', xs, hx => by
    obtain ⟨rfl, rfl⟩ := pure_ok.1 hx
    exact ⟨rfl, .nil⟩
  | n :: ns, s, s', xs, hx => by
    obtain ⟨x, t, hn, hx⟩ := bind_ok.1 hx
    obtain ⟨ys, u, hns, hx⟩ := bind_ok.1 hx
    obtain ⟨rfl, rfl⟩ := pure_ok.1 hx
    have hl : t = s ∧ fs.lookup n = some x := by
      unfold member Ordered.field? at hn
      cases hf : fs.lookup n with
      | none =>
        simp only [hf] at hn
        exact absurd hn throw_ok
      | some y =>
        simp only [hf] at hn
        obtain ⟨rfl, rfl⟩ := pure_ok.1 hn
        exact ⟨rfl, rfl⟩
    obtain ⟨rfl, hl⟩ := hl
    obtain ⟨rfl, hrest⟩ := inOrder_ok hns
    exact ⟨rfl, .cons hl hrest⟩

/-- What comes after going through the fields of a record. -/
theorem elements_record_keeping {A : State → Machine → Prop} {α β : Type} {R : α → β → State → Machine → Prop} {name : String}
    {order : List String} {fs : List (String × Ordered)} {sp : Span} {f : List Ordered → Ref α} {y : Run β}
    (hf : ∀ xs, List.Forall₂ (fun n x => fs.lookup n = some x) order xs → Follows A R (f xs) y) :
    Follows A R (elements sp (.record name order fs) >>= f) y := by
  intro s m hA a s' ha
  obtain ⟨xs, t, hxs, hrest⟩ := bind_ok.1 ha
  obtain ⟨rfl, hfields⟩ := inOrder_ok hxs
  exact hf xs hfields t m hA a s' hrest

theorem Fits.array_cases {records : Table RecordInfo} {x : Ordered} {elem : Ty} {n : Nat}
    (hx : Fits records x (.array elem (some n))) : (∃ c, x = .scalar c) ∨ ∃ items, x = .array items ∧ items.length = n := by
  cases hx with
  | scalar => exact .inl ⟨_, rfl⟩
  | array _ => exact .inr ⟨_, rfl, rfl⟩

theorem Fits.record_cases {records : Table RecordInfo} {x : Ordered} {n : String} {r : RecordInfo}
    (hr : records.find? n = some r) (hx : Fits records x (.record n)) :
    (∃ c, x = .scalar c) ∨ ∃ name fs, x = .record name (r.fields.map (·.name)) fs := by
  cases hx with
  | scalar => exact .inl ⟨_, rfl⟩
  | record hr' _ =>
    rw [hr] at hr'
    cases hr'
    exact .inr ⟨_, _, rfl⟩

theorem forall₂_at {α β : Type} {R : α → β → Prop} {as : List α} {bs : List β} (hab : List.Forall₂ R as bs) {i : Nat} {a : α}
    {b : β} (ha : as[i]? = some a) (hb : bs[i]? = some b) : R a b := by
  obtain ⟨hi, rfl⟩ := List.getElem?_eq_some_iff.1 ha
  obtain ⟨hj, rfl⟩ := List.getElem?_eq_some_iff.1 hb
  exact (List.forall₂_iff_get.1 hab).2 i hi hj

theorem Agree.defined {s : State} {m : Machine} (hA : Agree g globals outer (h :: hs) Γ s m) (n : String) (i : ValInfo) :
    (Γ.define n i).val? n = some i := by
  obtain ⟨values, types, ret, inLoop⟩ := Γ
  obtain ⟨scopes, out⟩ := s
  obtain ⟨-, ms, -, hmirror⟩ := hA
  cases hmirror with
  | cons hm _ =>
    show List.findSome? _ (Table.insert _ n i :: _) = _
    rw [List.findSome?_cons, Table.find?_insert, if_pos rfl]

/-- **The machine keeps a range before it goes through it.** -/
theorem hide_follows {α β : Type} {P : α → β → Prop} {n : String} (hn : ¬ Worded n) (y : Value) (i : ValInfo) {x : Ref α}
    {z : Run β}
    (hxz : (Γ.define n i).val? n = some i → Follows
      (Agree g globals outer ((fun k => if k = n then some y else h k) :: hs) (Γ.define n i))
      (Keeps (Agree g globals outer ((fun k => if k = n then some y else h k) :: hs) (Γ.define n i)) P) x z) :
    Follows (Agree g globals outer (h :: hs) Γ) (Keeps (Inner g globals outer hs Γ.values.tail Γ.types.tail) P) x
      (do Run.define n y; z) := by
  intro s m hA a s' ha
  obtain ⟨m', hm', hA'⟩ := hide_agrees hn y i hA
  obtain ⟨b, t, hz, hp, hA''⟩ := hxz (hA.defined n i) s m' hA' a s' ha
  refine ⟨b, t, bind_ok.2 ⟨(), m', hm', hz⟩, hp, _, Γ.define n i, ?_, rfl, hA''⟩
  unfold Scope.define
  cases Γ.values <;> rfl

theorem loop_eq {range : Expr} (hne : ∀ sp items, range ≠ .list sp items) (var : String) (body : Ref Flow) :
    loop w var range body = (do
      let x ← expr w range
      let vs ← elements range.span x
      each (fun a => round var (pure a) body) vs) := by
  cases range with
  | list sp items => exact absurd rfl (hne sp items)
  | _ => rfl

theorem unrolling_empty {range : Expr} (hne : ∀ sp items, range ≠ .list sp items) (keyword : Span) :
    Eval.unrolling v keyword range .empty = (do
      let _ ← Eval.expr v range
      pure .next) := by
  cases range with
  | list sp items => exact absurd rfl (hne sp items)
  | _ => simp [Eval.unrolling, Eval.emptyRange]

theorem unrolling_bound (keyword : Span) (range : Expr) (b : ValDecl) (cs : List Copy) :
    Eval.unrolling v keyword range (.unrolled (some b) cs) = (do
      let y ← Eval.expr v b.expr
      Run.define b.name.name y
      Eval.copies v cs) := by
  simp [Eval.unrolling, Eval.binding]

theorem stmts_declared (d : ValDecl) (ss : List Stmt) :
    Eval.stmts v (.val d :: ss) = (do
      let y ← Eval.expr v d.expr
      Run.define d.name.name y
      Eval.stmts v ss) := by
  simp [Eval.stmts, Eval.stmt]

theorem not_list {e e' : Expr} {t : Ty} (ho : e'.outline = e.outline) (ht : ExprTyped g Γ e t) :
    (∀ sp items, e ≠ .list sp items) ∧ ∀ sp items, e' ≠ .list sp items := by
  refine ⟨fun sp items he => ?_, fun sp items he => ?_⟩
  · subst he
    cases ht
  · subst he
    obtain ⟨items', rfl, -⟩ := Expr.of_outline_list ho.symm
    cases ht

/-- The element at each place of the list can be read by the copy with its index. -/
def Reads {α : Type} (g : Globals) (globals : Table String) (outer : List (List (Table Value)))
    (hs : List (String → Option Value)) (Γ : Scope) (v : Eval.World) (var : LoopVar) (range : Expr) (body : List Stmt)
    (els : Elements) (get : α → Ref Ordered) (as : List α) (i : Nat) : Prop :=
  ∀ j a d rest t, as[j]? = some a → els.Selects (i + j) d.expr → CopyOf var range body (i + j) d rest →
    ExprTyped g Γ d.expr t → Follows (Agree g globals outer hs Γ)
      (Keeps (Agree g globals outer hs Γ) (Same g.records t)) (get a) (Eval.expr v d.expr)

theorem Reads.tail {α : Type} {var : LoopVar} {range : Expr} {body : List Stmt} {els : Elements} {get : α → Ref Ordered}
    {a : α} {as : List α} {i : Nat} (hr : Reads g globals outer hs Γ v var range body els get (a :: as) i) :
    Reads g globals outer hs Γ v var range body els get as (i + 1) := by
  intro j b d rest t hb hsel hcopy
  rw [show i + 1 + j = i + (j + 1) by omega] at hsel hcopy
  exact hr (j + 1) b d rest t hb hsel hcopy

/-- The expressions of a list are read one by one. -/
theorem list_reads (hw : Lockstep g globals w v) {var : LoopVar} {lsp lsp' : Span} {items items' : List Expr}
    (ho : Expr.outlines items' = Expr.outlines items) (hwritten : (Expr.list lsp' items').Written) {body : List Stmt}
    {n : Nat} : Reads g globals outer hs Γ v var (.list lsp items) body (.list n) (expr w) items' 0 := by
  intro j a d rest t ha _ hcopy ht
  have hitem := hcopy.item lsp items rfl
  rw [Nat.zero_add, ← List.getElem?_map, ← Expr.outlines_eq, ← ho, Expr.outlines_eq, List.getElem?_map, ha] at hitem
  exact expr_follows hw (Option.some.inj hitem) (Expr.allWritten_iff.1 hwritten a (List.mem_of_getElem? ha)) ht

theorem Follows.looped {α β : Type} {R : α → β → State → Machine → Prop} {x : Ref α} {y : Run β}
    (hxy : Follows (Agree g globals outer hs Γ.looped) R x y) : Follows (Agree g globals outer hs Γ) R x y :=
  fun s m hA => hxy s m ⟨hA.out, hA.frames⟩

end

/-! ## Statements -/

section

variable {g : Globals} {globals : Table String} {w : World} {v : Eval.World} {outer : List (List (Table Value))}

mutual

/-- **A statement does the same.** -/
theorem stmt_follows (hw : Lockstep g globals w v) : ∀ {r x : Stmt} {h : String → Option Value}
    {hs : List (String → Option Value)} {Γ Γ' : Scope}, x.outline = r.outline → x.Written → r.Faithful →
    StmtTyped g Γ r Γ' → Follows (Agree g globals outer (h :: hs) Γ)
      (Keeps (Agree g globals outer (h :: hs) Γ') (SameFlow g.records Γ.ret)) (stmt w x) (Eval.stmt v r)
  | .record d, x, h, hs, Γ, Γ', ho, hx, _, ht => by
    obtain ⟨d', rfl, hd⟩ := Stmt.of_outline_record ho
    cases ht with
    | record hr hnames =>
      rename_i canonical i
      obtain ⟨hname, hfields⟩ := RecordDef.of_outline hd
      intro s m hA f s' hf
      obtain ⟨u, t, hdec, hf⟩ := bind_ok.1 hf
      obtain ⟨rfl, rfl⟩ := pure_ok.1 hf
      have horders : Orders g.records (d'.fields.map (·.name.name)) canonical := ⟨i, hr, by rw [hfields, hnames]⟩
      rw [hname] at hdec
      exact ⟨.next, m, rfl, .next, declare_agrees horders hA hdec⟩
  | .val d, x, h, hs, Γ, Γ', ho, hx, _, ht => by
    obtain ⟨d', rfl, hd⟩ := Stmt.of_outline_val ho
    obtain ⟨hname, hexpr⟩ := ValDecl.of_outline hd
    cases ht with
    | val hd =>
      rename_i t
      refine (expr_follows hw hexpr hx.expr hd).keeping fun y z hyz => ?_
      rw [hname]
      exact (define_follows (hname ▸ hx.name) (i := ⟨t, d.mutable⟩) hyz).bind fun _ _ => .kept .next
  | .assign sp target e, x, h, hs, Γ, Γ', ho, hx, _, ht => by
    obtain ⟨e', rfl, he⟩ := Stmt.of_outline_assign ho
    cases ht with
    | assign hv ht =>
      refine (expr_follows hw he hx.2 ht).keeping fun y z hyz => ?_
      exact (assign_follows hx.1 hv hyz).bind fun _ _ => .kept .next
  | .cond sp c yes none, x, h, hs, Γ, Γ', ho, hx, hf, ht => by
    obtain ⟨c', yes', rfl, hc, hyes⟩ := Stmt.of_outline_cond ho
    cases ht with
    | cond htc htyes =>
      refine (condition_follows (expr_follows hw hc hx.1 htc)).keeping fun a b hb => ?_
      subst hb
      cases b with
      | true => exact block_follows hw hyes hx.2 hf htyes
      | false => exact .kept .next
  | .cond sp c yes (some no), x, h, hs, Γ, Γ', ho, hx, hf, ht => by
    obtain ⟨c', yes', no', rfl, hc, hyes, hno⟩ := Stmt.of_outline_choice ho
    cases ht with
    | choice htc htyes htno =>
      refine (condition_follows (expr_follows hw hc hx.1 htc)).keeping fun a b hb => ?_
      subst hb
      cases b with
      | true => exact block_follows hw hyes hx.2.1 hf.1 htyes
      | false => exact block_follows hw hno hx.2.2 hf.2 htno
  | .loop sp c body, x, h, hs, Γ, Γ', ho, hx, hf, ht => by
    obtain ⟨c', body', rfl, hc, hbody⟩ := Stmt.of_outline_loop ho
    cases ht with
    | loop htc htbody =>
      have hround : Follows (Agree g globals outer (h :: hs) Γ)
          (Keeps (Agree g globals outer (h :: hs) Γ) (SameFlow g.records Γ.ret)) (block w body') (Eval.block v body) := by
        intro s m hA f s' hs'
        obtain ⟨f', m', hm', hsame, hA'⟩ := block_follows hw hbody hx.2 hf htbody s m ⟨hA.out, hA.frames⟩ f s' hs'
        exact ⟨f', m', hm', hsame, hA'.out, hA'.frames⟩
      show Follows _ _ (rounds _ _ _) (Eval.rounds _ _ _)
      rw [hw.rounds]
      exact rounds_follow (condition_follows (expr_follows hw hc hx.1 htc)) hround _
  | .expand ⟨sp, keyword, i, var, range, ⟨bsp, body⟩, depth, state⟩, x, h, hs, Γ, Γ', ho, hx, hf, ht => by
    obtain ⟨y, rfl, hy⟩ := Stmt.of_outline_expand ho
    obtain ⟨sp', keyword', i', var', range', ⟨bsp', xs⟩, depth', state'⟩ := y
    obtain ⟨rfl, rfl, hi, hvar, hrange, hbody, -, -⟩ := Expansion.mk.inj hy
    cases ht with
    | expand hti htu =>
      obtain ⟨hwi, hwvar, hwrange, hwxs⟩ := hx
      have hname := LoopVar.of_outline hvar
      refine inScope_follows ((init_follows hw hi hwi hti).bind fun _ _ => ?_)
      rw [hname]
      have hunrolled := @unrolling_follows hw keyword' range range' body xs hrange hwrange
        (congrArg Block.stmts hbody) hwxs var (hname ▸ hwvar.name) state (fun _ => none) (h :: hs) _ hf.2 htu
      obtain ⟨hvalues, htypes, hret, -⟩ := hti.outer_kept
      rw [hvalues, htypes, hret] at hunrolled
      exact hunrolled
  | .leave sp, x, h, hs, Γ, Γ', ho, _, _, ht => by
    obtain rfl := Stmt.of_outline_leave ho
    cases ht with
    | leave _ => exact .kept .leave
  | .next sp, x, h, hs, Γ, Γ', ho, _, _, ht => by
    obtain rfl := Stmt.of_outline_next ho
    cases ht with
    | next _ => exact .kept .again
  | .give sp none, x, h, hs, Γ, Γ', ho, _, _, ht => by
    obtain rfl := Stmt.of_outline_giveUnit ho
    cases ht with
    | giveUnit _ => exact .kept (.give ⟨rfl, .scalar⟩)
  | .give sp (some e), x, h, hs, Γ, Γ', ho, hx, _, ht => by
    obtain ⟨e', rfl, he⟩ := Stmt.of_outline_give ho
    cases ht with
    | give ht => exact (expr_follows hw he hx ht).map fun y z hyz => .give hyz
  | .assert sp e, x, h, hs, Γ, Γ', ho, hx, _, ht => by
    obtain ⟨e', rfl, he⟩ := Stmt.of_outline_assert ho
    cases ht with
    | assert ht =>
      refine (condition_follows (expr_follows hw he hx ht)).keeping fun a b hb => ?_
      subst hb
      cases b with
      | true => exact .kept .next
      | false => exact .fail
  | .expr e, x, h, hs, Γ, Γ', ho, hx, _, ht => by
    obtain ⟨e', rfl, he⟩ := Stmt.of_outline_expr ho
    cases ht with
    | expr ht => exact (expr_follows hw he hx ht).keeping fun _ _ _ => .kept .next
  | .typeAlias _ _ _ _, _, _, _, _, _, _, _, _, ht => by cases ht
  | .trait _ _, _, _, _, _, _, _, _, _, ht => by cases ht
  | .cell _, _, _, _, _, _, _, _, _, ht => by cases ht
termination_by structural r => r

theorem stmts_follow (hw : Lockstep g globals w v) : ∀ {rs xs : List Stmt} {h : String → Option Value}
    {hs : List (String → Option Value)} {Γ : Scope}, Stmt.outlines xs = Stmt.outlines rs → Stmt.AllWritten xs →
    Stmt.AllFaithful rs → StmtsTyped g Γ rs → Follows (Agree g globals outer (h :: hs) Γ)
      (Keeps (Inner g globals outer hs Γ.values.tail Γ.types.tail) (SameFlow g.records Γ.ret)) (stmts w xs) (Eval.stmts v rs)
  | [], [], h, hs, Γ, _, _, _, _ => .pure fun s m hA => ⟨.next, h, Γ, rfl, rfl, hA⟩
  | r :: rs, x :: xs, h, hs, Γ, ho, hx, hf, ht => by
    obtain ⟨hor, hors⟩ := List.cons.inj ho
    cases ht with
    | cons hr hrs =>
      rename_i Γ'
      obtain ⟨hvalues, htypes, hret, -⟩ := hr.outer_kept
      refine (stmt_follows hw hor hx.1 hf.1 hr).keeping fun f f' ⟨hf', hfit⟩ => ?_
      subst hf'
      have hstop : ∀ s m, Agree g globals outer (h :: hs) Γ' s m → Inner g globals outer hs Γ.values.tail Γ.types.tail s m :=
        fun s m hA => ⟨h, Γ', hvalues, htypes, hA⟩
      cases f with
      | next =>
        have hrest := @stmts_follow hw rs xs h hs _ hors hx.2 hf.2 hrs
        rw [hvalues, htypes, hret] at hrest
        exact hrest
      | leave => exact .pure fun s m hA => ⟨.leave, hstop s m hA⟩
      | again => exact .pure fun s m hA => ⟨.again, hstop s m hA⟩
      | give y => exact .pure fun s m hA => ⟨⟨rfl, fun z hz => hfit z hz⟩, hstop s m hA⟩
  | [], _ :: _, _, _, _, ho, _, _, _ => by cases ho
  | _ :: _, [], _, _, _, ho, _, _, _ => by cases ho
termination_by structural rs => rs

/-- **A block does the same.** -/
theorem block_follows (hw : Lockstep g globals w v) : ∀ {b b' : Block} {hs : List (String → Option Value)} {Γ : Scope},
    b'.outline = b.outline → b'.Written → b.Faithful → BlockTyped g Γ b → Follows (Agree g globals outer hs Γ)
      (Keeps (Agree g globals outer hs Γ) (SameFlow g.records Γ.ret)) (block w b') (Eval.block v b)
  | ⟨sp, rs⟩, ⟨sp', xs⟩, hs, Γ, ho, hx, hf, ht => by
    cases ht with
    | mk hrs => exact inScope_follows (stmts_follow hw (congrArg Block.stmts ho) hx hf hrs)
termination_by structural b => b

/-- **An expansion that has been replaced by copies does what the loop does.** -/
theorem unrolling_follows (hw : Lockstep g globals w v) {keyword : Span} {range range' : Expr} {body xs : List Stmt}
    (hrange : range'.outline = range.outline) (hrange' : range'.Written) (hbody : Stmt.outlines xs = Stmt.outlines body)
    (hxs : Stmt.AllWritten xs) {var : LoopVar} (hvar : Worded var.name.name) : ∀ {u : Unrolling} {h : String → Option Value}
    {hs : List (String → Option Value)} {Γ : Scope}, u.Faithful var range body → UnrollingTyped g Γ var range u →
    Follows (Agree g globals outer (h :: hs) Γ)
      (Keeps (Inner g globals outer hs Γ.values.tail Γ.types.tail) (SameFlow g.records Γ.ret))
      (loop w var.name.name range' (stmts w xs)) (Eval.unrolling v keyword range u)
  | .pending, _, _, _, _, ht => by cases ht
  | .deferred, _, _, _, _, ht => by cases ht
  | .empty, h, hs, Γ, _, ht => by
    cases ht with
    | empty hr hcount =>
      cases hr with
      | list hlist =>
        rename_i lsp items
        subst hlist
        obtain ⟨items', rfl, hitems⟩ := Expr.of_outline_list hrange
        cases items with
        | cons _ _ => cases hcount
        | nil =>
          cases items' with
          | cons _ _ => cases hitems
          | nil => exact .pure fun s m hA => ⟨.next, h, Γ, rfl, rfl, hA⟩
      | @array b elem n _ htr =>
        obtain ⟨hne, hne'⟩ := not_list hrange htr
        rw [loop_eq hne', unrolling_empty hne]
        refine (expr_follows hw hrange hrange' htr).keeping fun x y ⟨_, hfit⟩ => ?_
        obtain ⟨c, rfl⟩ | ⟨items, rfl, hlen⟩ := hfit.array_cases
        · exact .fail_bind
        · obtain rfl := List.length_eq_zero_iff.1 (hlen.trans hcount)
          exact .pure fun s m hA => ⟨.next, h, Γ, rfl, rfl, hA⟩
      | @members b n r _ htr hrec =>
        obtain ⟨hne, hne'⟩ := not_list hrange htr
        rw [loop_eq hne', unrolling_empty hne]
        refine (expr_follows hw hrange hrange' htr).keeping fun x y ⟨_, hfit⟩ => ?_
        obtain ⟨c, rfl⟩ | ⟨name, fs, rfl⟩ := hfit.record_cases hrec
        · exact .fail_bind
        · rw [List.length_eq_zero_iff.1 hcount]
          exact .pure fun s m hA => ⟨.next, h, Γ, rfl, rfl, hA⟩
  | .unrolled b cs, h, hs, Γ, hf, ht => by
    cases ht with
    | unrolled hr hlen hcs =>
      cases hr with
      | list hlist =>
        rename_i lsp items
        subst hlist
        obtain ⟨items', rfl, hitems⟩ := Expr.of_outline_list hrange
        have hcopies := @copies_follow hw _ _ _ hbody hxs _ hvar _ _ (expr w) (h :: hs) _ _ items' _ hcs
          hf.2 ((Expr.outlines_length hitems).trans hlen.symm) (list_reads hw hitems hrange')
        exact hcopies.mono fun f f' s m ⟨hsame, hA⟩ => ⟨hsame, h, Γ, rfl, rfl, hA⟩
      | @array b elem n hb htr =>
        obtain ⟨-, -, hn⟩ := hf.1 b rfl
        obtain ⟨-, hne'⟩ := not_list hrange htr
        rw [loop_eq hne', unrolling_bound, hb]
        refine (expr_follows hw hrange hrange' htr).keeping fun x y ⟨hy, hfit⟩ => ?_
        subst hy
        obtain ⟨c, rfl⟩ | ⟨items, rfl, hcount⟩ := hfit.array_cases
        · exact .fail_bind
        refine hide_follows hn _ _ fun hk => copies_follow hw hbody hxs hvar hcs hf.2
          (hcount.trans hlen.symm) fun j a d rest t ha hsel _ htd => ?_
        rw [Nat.zero_add] at hsel
        exact item_follows hn (if_pos rfl) hfit ha hsel hk rfl htd
      | @members b n r hb htr hrec =>
        obtain ⟨-, -, hn⟩ := hf.1 b rfl
        obtain ⟨-, hne'⟩ := not_list hrange htr
        rw [loop_eq hne', unrolling_bound, hb]
        refine (expr_follows hw hrange hrange' htr).keeping fun x y ⟨hy, hfit⟩ => ?_
        subst hy
        obtain ⟨c, rfl⟩ | ⟨name, fs, rfl⟩ := hfit.record_cases hrec
        · exact .fail_bind
        refine elements_record_keeping fun values hvalues => ?_
        refine hide_follows hn _ _ fun hk => copies_follow hw hbody hxs hvar hcs hf.2
          (hvalues.length_eq.symm.trans hlen.symm) fun j a d rest t ha hsel _ htd => ?_
        obtain ⟨sp₁, sp₂, id, m, hd, hid, hm⟩ := hsel
        rw [Nat.zero_add] at hm
        exact field_follows hn (if_pos rfl) hrec hfit (forall₂_at hvalues hm ha) ⟨sp₁, sp₂, id, m, hd, hid, rfl⟩ hk rfl htd
termination_by structural u => u

theorem copies_follow (hw : Lockstep g globals w v) {range : Expr} {body xs : List Stmt}
    (hbody : Stmt.outlines xs = Stmt.outlines body) (hxs : Stmt.AllWritten xs) {var : LoopVar}
    (hvar : Worded var.name.name) {els : Elements} {α : Type} {get : α → Ref Ordered} {hs : List (String → Option Value)}
    {Γ : Scope} : ∀ {cs : List Copy} {as : List α} {i : Nat}, CopiesTyped g Γ var els i cs →
      Copy.AllFaithful var range body i cs → as.length = cs.length →
      Reads g globals outer ((fun _ => none) :: hs) Γ.opened.looped v var range body els get as i →
      Follows (Agree g globals outer hs Γ) (Keeps (Agree g globals outer hs Γ) (SameFlow g.records Γ.ret))
        (each (fun a => round var.name.name (get a) (stmts w xs)) as) (Eval.copies v cs)
  | [], [], i, _, _, _, _ => .kept .next
  | [], _ :: _, i, _, _, hlen, _ => by cases hlen
  | _ :: _, [], i, _, _, hlen, _ => by cases hlen
  | ⟨j, ⟨sp, []⟩⟩ :: cs, a :: as, i, ht, _, _, _ => by cases ht
  | ⟨j, ⟨sp, s :: rest⟩⟩ :: cs, a :: as, i, ht, hf, hlen, hreads => by
    obtain ⟨⟨d, rest', hss, hcopy⟩, hfaithful, hfs⟩ := hf
    obtain ⟨rfl, rfl⟩ := List.cons.inj hss
    cases ht with
    | cons hname hsel hst hcs =>
      have hrest := copies_follow hw hbody hxs hvar hcs hfs (by simpa using hlen) hreads.tail
      refine Follows.keeping (P := SameFlow g.records Γ.ret) (inScope_follows ?_) fun f f' ⟨hf', hfit⟩ => ?_
      · rw [stmts_declared]
        cases hst with
        | cons hd hss =>
          cases hd with
          | val hd =>
            rename_i t
            refine Follows.looped ((hreads 0 a d rest t rfl hsel hcopy hd).keeping fun y z hyz => ?_)
            rw [hname]
            refine (define_follows hvar (i := ⟨t, d.mutable⟩) hyz).bind fun _ _ => ?_
            rw [← hname]
            exact stmts_follow hw (hbody.trans hcopy.body.symm) hxs hfaithful.2 hss
      · subst hf'
        cases f with
        | next => exact hrest
        | again => exact hrest
        | leave => exact .kept .next
        | give y => exact .kept ⟨rfl, fun z hz => hfit z hz⟩
termination_by structural cs => cs

end

end

end Reference
end Unroll
