import Unroll.Proofs.Machine.Safe
/-!
# Well-typed code runs safely

Expressions give values of their types, statements end in one of the ways that can be seen on them, and a call gives
what its signature says; all of it by going down the tree, and at a call by going down one level.
-/
namespace Unroll

/-! ## Ways to end -/

/-- How a part of a body may end, other than by giving a value. -/
structure Ways where
  next : Bool
  leave : Bool
  again : Bool
deriving DecidableEq, Repr

namespace Ways

def none : Ways := ⟨false, false, false⟩

/-- Only by going on behind it. -/
def on : Ways := ⟨true, false, false⟩

def or (a b : Ways) : Ways := ⟨a.next || b.next, a.leave || b.leave, a.again || b.again⟩

/-- The second part is reached only where the first one goes on. -/
def andThen (a b : Ways) : Ways := ⟨a.next && b.next, a.leave || a.next && b.leave, a.again || a.next && b.again⟩

/-- Leaving a copy passes the copies behind it, and starting again in it goes on to them. -/
def andCopies (a b : Ways) : Ways :=
  ⟨a.leave || (a.next || a.again) && b.next, (a.next || a.again) && b.leave, (a.next || a.again) && b.again⟩

end Ways

mutual

/-- **How a statement may end**, as far as can be seen without its conditions. -/
def Stmt.ways : Stmt → Ways
  | .typeAlias _ _ _ _ | .trait _ _ | .record _ | .cell _ | .val _ | .assign _ _ _ | .loop _ _ _ | .assert _ _
  | .expr _ => .on
  | .cond _ _ yes none => Ways.on.or yes.ways
  | .cond _ _ yes (some no) => yes.ways.or no.ways
  | .expand x => x.ways
  | .leave _ => ⟨false, true, false⟩
  | .next _ => ⟨false, false, true⟩
  | .give _ _ => .none

def Stmt.waysAll : List Stmt → Ways
  | [] => .on
  | s :: ss => s.ways.andThen (Stmt.waysAll ss)

def Block.ways : Block → Ways
  | ⟨_, ss⟩ => Stmt.waysAll ss

def Expansion.ways : Expansion → Ways
  | ⟨_, _, _, _, _, _, _, state⟩ => state.ways

def Unrolling.ways : Unrolling → Ways
  | .pending | .deferred | .empty => .on
  | .unrolled _ cs => Copy.waysAll cs

def Copy.waysAll : List Copy → Ways
  | [] => .on
  | c :: cs => c.ways.andCopies (Copy.waysAll cs)

def Copy.ways : Copy → Ways
  | ⟨_, body⟩ => body.ways

end

/-- **Every way through the cell gives a value.** -/
def CellDef.gives (c : CellDef) : Bool := c.body.ways = .none

theorem CellDef.ways_of_gives {c : CellDef} (h : c.gives = true) : Stmt.waysAll c.body.stmts = .none := by
  obtain ⟨_, _, _, _, _, ⟨_, ss⟩⟩ := c
  exact of_decide_eq_true h

/-! ## Expressions -/

/-- **A call gives what the signature says**, and leaves the frames alone. -/
structure Eval.World.Keeps (g : Globals) (lapse : Prop) (w : Eval.World) : Prop where
  calls : ∀ {n sig}, g.cells.find? n = some sig → ∃ c, w.cells.find? n = some c ∧
    ∀ {args}, List.Forall₂ (Value.Has g.records lapse) args (sig.params.map (·.type)) → ∀ span fs,
      Run.Safe lapse (fun m => m.frames = fs) (Run.Gives (fun m => m.frames = fs) (Value.Has g.records lapse · sig.ret))
        (w.call c args span)

namespace Eval

open Run

section

variable {g : Globals} {lapse : Prop} {w : World} {outer : List (List (Table Value))} {Γ : Scope}

theorem call_safe (hw : w.Keeps g lapse) {name : String} {sig : CellSig} (hb : Check.isBuiltin name = false)
    (hsig : g.cells.find? name = some sig) {args : List Value}
    (hargs : List.Forall₂ (Value.Has g.records lapse) args (sig.params.map (·.type))) {span : Span} :
    Safe lapse (Within g.records lapse outer Γ)
      (Gives (Within g.records lapse outer Γ) (Value.Has g.records lapse · sig.ret)) (call w span name args) := by
  have hprint : name ≠ "print" := by
    rintro rfl
    cases hb
  have hlen : name ≠ "len" := by
    rintro rfl
    cases hb
  obtain ⟨c, hc, hcall⟩ := hw.calls hsig
  unfold call
  split
  · exact absurd rfl hprint
  · exact absurd rfl hlen
  simp only [hc]
  intro m hm
  refine ((hcall hargs span m.frames).mono ?_) m rfl
  rintro v m' ⟨hv, hframes⟩
  refine ⟨hv, ?_⟩
  unfold Within
  rw [hframes]
  exact hm

theorem print_safe {arg : Value} {span : Span} : Safe lapse (Within g.records lapse outer Γ)
    (Gives (Within g.records lapse outer Γ) (Value.Has g.records lapse · .unit)) (call w span "print" [arg]) :=
  Safe.print.bind fun _ => .gives .unit

theorem len_safe {arg : Value} {span : Span} {elem : Ty} {n : Nat}
    (harg : arg.Has g.records lapse (.array elem (some n))) : Safe lapse (Within g.records lapse outer Γ)
    (Gives (Within g.records lapse outer Γ) (Value.Has g.records lapse · .int)) (call w span "len" [arg]) := by
  cases harg with
  | array => exact .gives .int
  | lapsed h => exact .met h .lenArg

theorem bool_operands {op : BinOp} {lt rt t : Ty} (hop : op = .and ∨ op = .or)
    (h : Check.knownBinaryType? op lt rt = some t) : lt = .bool ∧ rt = .bool ∧ t = .bool := by
  unfold Check.knownBinaryType? at h
  obtain rfl | rfl := hop <;> split at h <;> simp_all

mutual

/-- **An expression gives a value of its type.** -/
theorem expr_safe (hw : w.Keeps g lapse) : ∀ {e : Expr} {t : Ty}, ExprTyped g Γ e t →
    Safe lapse (Within g.records lapse outer Γ)
      (Gives (Within g.records lapse outer Γ) (Value.Has g.records lapse · t)) (expr w e)
  | .name sp id, t, ht => by
    cases ht with
    | name hi => exact .lookup hi
  | .int sp n, t, ht => by
    cases ht
    exact .gives .int
  | .char sp c, t, ht => by
    cases ht
    exact .gives .char
  | .bool sp b, t, ht => by
    cases ht
    exact .gives .bool
  | .text sp x, t, ht => by
    cases ht
    exact .gives .text
  | .array sp items, t, ht => by
    obtain ⟨elem, rfl, htypes⟩ := ht.array_cases
    refine (exprs_safe hw htypes).map fun vs hvs => ?_
    have hlen : items.length = vs.length := by simpa using hvs.length_eq.symm
    rw [hlen] at hvs ⊢
    refine .array fun v hv => ?_
    obtain ⟨i, hi, rfl⟩ := List.getElem_of_mem hv
    have hget := (List.forall₂_iff_get.1 hvs).2 i hi (by simpa using hi)
    simpa using hget
  | .record sp type fs, t, ht => by
    cases ht with
    | record _ hr hnodup hall hsome hfs =>
      refine (fields_safe hw hsome hfs).map fun vs ⟨hnames, hvs⟩ => ?_
      have hmem : ∀ f ∈ vs, f.1 ∈ fs.map (·.1.name) := fun f hf => hnames ▸ List.mem_map_of_mem hf
      refine .record hr (hnames ▸ hnodup) (hnames ▸ hall) (fun f hf => ?_) hvs
      obtain ⟨e, he, hname⟩ := List.mem_map.1 (hmem f hf)
      exact hname ▸ hsome e he
  | .unary sp .neg e, t, ht => by
    cases ht with
    | neg he => exact (expr_safe hw he).giving fun v hv => neg_safe hv
  | .unary sp .not e, t, ht => by
    cases ht with
    | not he => exact (expr_safe hw he).giving fun v hv => not_safe hv
  | .binary sp l op r, t, ht => by
    cases ht with
    | binary hl hr hop =>
      rename_i lt rt
      by_cases hand : op = .and
      · subst hand
        obtain ⟨rfl, rfl, rfl⟩ := bool_operands (.inl rfl) hop
        refine (expr_safe hw hl).giving fun a ha => (asBool_safe ha).giving fun b _ => ?_
        cases b with
        | true => exact (expr_safe hw hr).giving fun c hc => (asBool_safe hc).giving fun _ _ => .gives .bool
        | false => exact .gives .bool
      by_cases hor : op = .or
      · subst hor
        obtain ⟨rfl, rfl, rfl⟩ := bool_operands (.inr rfl) hop
        refine (expr_safe hw hl).giving fun a ha => (asBool_safe ha).giving fun b _ => ?_
        cases b with
        | true => exact .gives .bool
        | false => exact (expr_safe hw hr).giving fun c hc => (asBool_safe hc).giving fun _ _ => .gives .bool
      rw [binary_strict hand hor]
      exact (expr_safe hw hl).giving fun a ha => (expr_safe hw hr).giving fun b hb => binary_safe hand hor ha hb hop
  | .member sp base m, t, ht => by
    cases ht with
    | member hbase hr hf => exact (expr_safe hw hbase).giving fun v hv => member_safe hv hr hf
  | .index sp base i, t, ht => by
    cases ht with
    | index hbase hi =>
      refine (expr_safe hw hbase).giving fun v hv => (expr_safe hw hi).giving fun k hk => ?_
      exact (asIndex_safe hk).giving fun _ _ => element_safe hv
  | .call sp callee generic args, t, ht => by
    obtain ⟨types, hargs, hcases⟩ := ht.call_cases
    refine (exprs_safe hw hargs).giving fun vs hvs => ?_
    obtain ⟨hname, rfl, a, rfl⟩ | ⟨hname, rfl, elem, n, rfl⟩ | ⟨sig, hb, hsig, rfl, rfl⟩ := hcases
    · obtain ⟨v, _, -, hnil, rfl⟩ := List.forall₂_cons_right_iff.1 hvs
      cases hnil
      rw [hname]
      exact print_safe
    · obtain ⟨v, _, hv, hnil, rfl⟩ := List.forall₂_cons_right_iff.1 hvs
      cases hnil
      rw [hname]
      exact len_safe hv
    · exact call_safe hw hb hsig hvs
  | .list _ _, t, ht => by cases ht
  | .listSelect _ _ _, t, ht => by cases ht
  | .memberSelect _ _ _ _, t, ht => by cases ht
termination_by structural e => e

theorem exprs_safe (hw : w.Keeps g lapse) : ∀ {es : List Expr} {ts : List Ty}, List.Forall₂ (ExprTyped g Γ) es ts →
    Safe lapse (Within g.records lapse outer Γ)
      (Gives (Within g.records lapse outer Γ) fun vs => List.Forall₂ (Value.Has g.records lapse) vs ts) (exprs w es)
  | [], _, h => by
    cases h
    exact .gives .nil
  | e :: es, _, h => by
    cases h with
    | cons he hes =>
      exact (expr_safe hw he).giving fun v hv => (exprs_safe hw hes).giving fun vs hvs => .gives (.cons hv hvs)
termination_by structural es => es

theorem fields_safe (hw : w.Keeps g lapse) {r : RecordInfo} : ∀ {fs : List (Ident × Expr)},
    (∀ f ∈ fs, (r.field? f.1.name).isSome) → (∀ f ∈ fs, ∀ i, r.field? f.1.name = some i → ExprTyped g Γ f.2 i.type) →
    Safe lapse (Within g.records lapse outer Γ) (Gives (Within g.records lapse outer Γ) fun vs =>
      vs.map (·.1) = fs.map (·.1.name) ∧
        ∀ v ∈ vs, ∀ i, r.field? v.1 = some i → v.2.Has g.records lapse i.type) (fields w fs)
  | [], _, _ => .gives ⟨rfl, fun _ hv => by cases hv⟩
  | (f, e) :: fs, hsome, hfs => by
    obtain ⟨hf, hsome⟩ := List.forall_mem_cons.1 hsome
    obtain ⟨he, hfs⟩ := List.forall_mem_cons.1 hfs
    obtain ⟨i, hi⟩ := Option.isSome_iff_exists.1 hf
    refine (expr_safe hw (he i hi)).giving fun v hv => (fields_safe hw hsome hfs).giving fun vs ⟨hnames, hvs⟩ => ?_
    refine .gives ⟨by rw [List.map_cons, List.map_cons, hnames], List.forall_mem_cons.2 ⟨fun j hj => ?_, hvs⟩⟩
    obtain rfl := Option.some.inj (hi.symm.trans hj)
    exact hv
termination_by structural fs => fs

end

end

end Eval

/-! ## Statements -/

/-- **The flow is one of the ways**, loops are left and started again only from inside of one, and what is given is of the
type. -/
inductive Flow.Fits (records : Table RecordInfo) (lapse : Prop) (Γ : Scope) (w : Ways) : Flow → Prop
  | next : w.next = true → Fits records lapse Γ w .next
  | leave : Γ.inLoop = true → w.leave = true → Fits records lapse Γ w .leave
  | again : Γ.inLoop = true → w.again = true → Fits records lapse Γ w .again
  | give {v} : v.Has records lapse Γ.ret → Fits records lapse Γ w (.give v)

namespace Flow.Fits

variable {records : Table RecordInfo} {lapse : Prop} {Γ Γ' : Scope} {a b : Ways} {f : Flow}

theorem kept (h : f.Fits records lapse Γ' a) (hret : Γ'.ret = Γ.ret) (hloop : Γ'.inLoop = Γ.inLoop) :
    f.Fits records lapse Γ a := by
  cases h with
  | give hv => exact .give (hret ▸ hv)
  | next hw => exact .next hw
  | leave hin hw => exact .leave (hloop ▸ hin) hw
  | again hin hw => exact .again (hloop ▸ hin) hw

theorem left (h : f.Fits records lapse Γ a) : f.Fits records lapse Γ (a.or b) := by
  cases h with
  | give hv => exact .give hv
  | next hw => exact .next (Bool.or_eq_true_iff.2 (.inl hw))
  | leave hin hw => exact .leave hin (Bool.or_eq_true_iff.2 (.inl hw))
  | again hin hw => exact .again hin (Bool.or_eq_true_iff.2 (.inl hw))

theorem right (h : f.Fits records lapse Γ b) : f.Fits records lapse Γ (a.or b) := by
  cases h with
  | give hv => exact .give hv
  | next hw => exact .next (Bool.or_eq_true_iff.2 (.inr hw))
  | leave hin hw => exact .leave hin (Bool.or_eq_true_iff.2 (.inr hw))
  | again hin hw => exact .again hin (Bool.or_eq_true_iff.2 (.inr hw))

/-- The first part goes on, and the second part ends so. -/
theorem behind (ha : a.next = true) (h : f.Fits records lapse Γ b) : f.Fits records lapse Γ (a.andThen b) := by
  cases h with
  | give hv => exact .give hv
  | next hw => exact .next (by simp [Ways.andThen, ha, hw])
  | leave hin hw => exact .leave hin (by simp [Ways.andThen, ha, hw])
  | again hin hw => exact .again hin (by simp [Ways.andThen, ha, hw])

/-- One copy has been gone through, and the copies behind it end so. -/
theorem copies (ha : a.next = true ∨ a.again = true) (h : f.Fits records lapse Γ b) :
    f.Fits records lapse Γ (a.andCopies b) := by
  have hon : (a.next || a.again) = true := Bool.or_eq_true_iff.2 ha
  cases h with
  | give hv => exact .give hv
  | next hw => exact .next (by simp [Ways.andCopies, hon, hw])
  | leave hin hw => exact .leave hin (by simp [Ways.andCopies, hon, hw])
  | again hin hw => exact .again hin (by simp [Ways.andCopies, hon, hw])

/-- **Outside of loops nothing is left or started again.** -/
theorem outside (h : f.Fits records lapse Γ a) (hout : Γ.inLoop = false) : f = .next ∨ ∃ v, f = .give v := by
  cases h with
  | give _ => exact .inr ⟨_, rfl⟩
  | next _ => exact .inl rfl
  | leave hin _ => exact absurd (hin.symm.trans hout) Bool.noConfusion
  | again hin _ => exact absurd (hin.symm.trans hout) Bool.noConfusion

/-- **What comes of going on to the end**: a unit, which is the promised value, or else a lapse. -/
theorem fallen (h : Flow.next.Fits records lapse Γ a) (hret : Γ.ret = .unit ∨ a = .none ∨ lapse) :
    Value.unit.Has records lapse Γ.ret := by
  obtain hret | rfl | hlapse := hret
  · exact hret ▸ .unit
  · cases h with
    | next hw => cases hw
  · exact .lapsed hlapse

end Flow.Fits

namespace Eval

open Run

section

variable {g : Globals} {lapse : Prop} {w : World} {outer : List (List (Table Value))}

theorem condition_safe (hw : w.Keeps g lapse) {Γ : Scope} {c : Expr} (hc : ExprTyped g Γ c .bool) :
    Safe lapse (Within g.records lapse outer Γ) (Gives (Within g.records lapse outer Γ) fun _ => True) (condition w c) :=
  (expr_safe hw hc).giving fun _ hv => asBool_safe hv

/-- A loop may always be passed, since its condition may not hold. -/
theorem rounds_safe {A : Machine → Prop} {records : Table RecordInfo} {Γ : Scope} {ways : Ways} {c : Run Bool}
    {body : Run Flow} (hc : Safe lapse A (Gives A fun _ => True) c)
    (hbody : Safe lapse A (Gives A (Flow.Fits records lapse Γ.looped ways)) body) :
    ∀ n, Safe lapse A (Gives A (Flow.Fits records lapse Γ .on)) (rounds c body n)
  | 0 => .exhausted
  | n + 1 => by
    refine hc.giving fun b _ => ?_
    cases b with
    | false => exact .gives (.next rfl)
    | true =>
      refine hbody.giving fun f hf => ?_
      cases hf with
      | give hv => exact .gives (.give hv)
      | leave _ _ => exact .gives (.next rfl)
      | next _ => exact rounds_safe hc hbody n
      | again _ _ => exact rounds_safe hc hbody n

theorem init_safe (hw : w.Keeps g lapse) {Γ Γ' : Scope} {i : Option Init} (hi : InitTyped g Γ i Γ') :
    Safe lapse (Within g.records lapse outer Γ) (fun _ => Within g.records lapse outer Γ') (init w i) := by
  cases hi with
  | none => exact .pure fun _ hm => hm
  | val hd => exact (expr_safe hw hd).giving fun _ hv => .define hv
  | expr he => exact (expr_safe hw he).giving fun _ _ => .pure fun _ hm => hm

/-- An empty range is evaluated for what it prints. -/
theorem emptyRange_safe (hw : w.Keeps g lapse) {Γ Γ' : Scope} {range : Expr} {b : Option ValDecl} {els : Elements}
    (hr : RangeTyped g Γ range b Γ' els) : Safe lapse (Within g.records lapse outer Γ)
      (fun _ => Within g.records lapse outer Γ) (emptyRange w range) := by
  unfold emptyRange
  split
  · exact .pure fun _ hm => hm
  · rename_i hne
    cases hr with
    | list hlist => exact absurd hlist (hne _ _)
    | array _ ht => exact (expr_safe hw ht).giving fun _ _ => .pure fun _ hm => hm
    | members _ ht _ => exact (expr_safe hw ht).giving fun _ _ => .pure fun _ hm => hm

theorem binding_safe (hw : w.Keeps g lapse) {Γ Γ' : Scope} {range : Expr} {b : Option ValDecl} {els : Elements}
    (hr : RangeTyped g Γ range b Γ' els) : Safe lapse (Within g.records lapse outer Γ)
      (fun _ => Within g.records lapse outer Γ') (binding w b) := by
  cases hr with
  | list _ => exact .pure fun _ hm => hm
  | array hb ht =>
    subst hb
    exact (expr_safe hw ht).giving fun _ hv => .define hv
  | members hb ht _ =>
    subst hb
    exact (expr_safe hw ht).giving fun _ hv => .define hv

end

section

variable {g : Globals} {lapse : Prop} {w : World} {outer : List (List (Table Value))}

mutual

/-- **A statement ends in one of its ways**, and leaves what it declares. -/
theorem stmt_safe (hw : w.Keeps g lapse) : ∀ {s : Stmt} {Γ Γ' : Scope}, StmtTyped g Γ s Γ' →
    Safe lapse (Within g.records lapse outer Γ)
      (Gives (Within g.records lapse outer Γ') (Flow.Fits g.records lapse Γ s.ways)) (stmt w s)
  | .record d, Γ, Γ', ht => by
    cases ht with
    | record _ _ => exact .pure fun _ hm => ⟨.next rfl, hm⟩
  | .val d, Γ, Γ', ht => by
    cases ht with
    | val hd => exact (expr_safe hw hd).giving fun _ hv => (Safe.define hv).bind fun _ => .gives (.next rfl)
  | .assign sp target e, Γ, Γ', ht => by
    cases ht with
    | assign hi he => exact (expr_safe hw he).giving fun _ hv => (Safe.assign hi hv).bind fun _ => .gives (.next rfl)
  | .cond sp c yes none, Γ, Γ', ht => by
    cases ht with
    | cond hc hyes =>
      refine (condition_safe hw hc).giving fun b _ => ?_
      cases b with
      | true => exact (block_safe hw hyes).mono fun _ _ ⟨hf, hm⟩ => ⟨hf.right, hm⟩
      | false => exact .gives (.next rfl)
  | .cond sp c yes (some no), Γ, Γ', ht => by
    cases ht with
    | choice hc hyes hno =>
      refine (condition_safe hw hc).giving fun b _ => ?_
      cases b with
      | true => exact (block_safe hw hyes).mono fun _ _ ⟨hf, hm⟩ => ⟨hf.left, hm⟩
      | false => exact (block_safe hw hno).mono fun _ _ ⟨hf, hm⟩ => ⟨hf.right, hm⟩
  | .loop sp c body, Γ, Γ', ht => by
    cases ht with
    | loop hc hbody =>
      have hround := block_safe hw hbody
      exact rounds_safe (condition_safe hw hc) hround _
  | .expand ⟨sp, keyword, i, var, range, body, depth, state⟩, Γ, Γ', ht => by
    cases ht with
    | expand hi hu =>
      obtain ⟨hvalues, -, hret, hloop⟩ := hi.outer_kept
      have hunrolled := @unrolling_safe hw keyword var range state _ hu
      rw [hvalues] at hunrolled
      exact .inScope ((init_safe hw hi).bind fun _ => hunrolled.mono fun _ _ ⟨hf, hm⟩ => ⟨hf.kept hret hloop, hm⟩)
  | .leave sp, Γ, Γ', ht => by
    cases ht with
    | leave hin => exact .gives (.leave hin rfl)
  | .next sp, Γ, Γ', ht => by
    cases ht with
    | next hin => exact .gives (.again hin rfl)
  | .give sp none, Γ, Γ', ht => by
    cases ht with
    | giveUnit hret => exact .gives (.give (hret ▸ .unit))
  | .give sp (some e), Γ, Γ', ht => by
    cases ht with
    | give he => exact (expr_safe hw he).map fun _ hv => .give hv
  | .assert sp e, Γ, Γ', ht => by
    cases ht with
    | assert he =>
      refine (condition_safe hw he).giving fun b _ => ?_
      cases b with
      | true => exact .gives (.next rfl)
      | false => exact .ordinary .assertionFailed
  | .expr e, Γ, Γ', ht => by
    cases ht with
    | expr he => exact (expr_safe hw he).giving fun _ _ => .gives (.next rfl)
  | .typeAlias _ _ _ _, _, _, ht => by cases ht
  | .trait _ _, _, _, ht => by cases ht
  | .cell _, _, _, ht => by cases ht
termination_by structural s => s

theorem stmts_safe (hw : w.Keeps g lapse) : ∀ {ss : List Stmt} {Γ : Scope}, StmtsTyped g Γ ss →
    Safe lapse (Within g.records lapse outer Γ) (Gives (Atop g.records lapse outer Γ.values.tail)
      (Flow.Fits g.records lapse Γ (Stmt.waysAll ss))) (stmts w ss)
  | [], Γ, _ => .pure fun _ hm => ⟨.next rfl, Γ, rfl, hm⟩
  | s :: ss, Γ, ht => by
    cases ht with
    | cons hs hss =>
      rename_i Γ'
      obtain ⟨hvalues, -, hret, hloop⟩ := hs.outer_kept
      refine (stmt_safe hw hs).giving fun f hf => ?_
      have hstop : ∀ m, Within g.records lapse outer Γ' m → Atop g.records lapse outer Γ.values.tail m :=
        fun m hm => ⟨Γ', hvalues, hm⟩
      cases hf with
      | next hgo =>
        have hrest := stmts_safe hw hss
        rw [hvalues] at hrest
        exact hrest.mono fun _ _ ⟨hf, hm⟩ => ⟨(hf.kept hret hloop).behind hgo, hm⟩
      | leave hin hgo => exact .pure fun m hm => ⟨.leave hin (Bool.or_eq_true_iff.2 (.inl hgo)), hstop m hm⟩
      | again hin hgo => exact .pure fun m hm => ⟨.again hin (Bool.or_eq_true_iff.2 (.inl hgo)), hstop m hm⟩
      | give hv => exact .pure fun m hm => ⟨.give hv, hstop m hm⟩
termination_by structural ss => ss

/-- **A block leaves the scopes around it.** -/
theorem block_safe (hw : w.Keeps g lapse) : ∀ {b : Block} {Γ : Scope}, BlockTyped g Γ b →
    Safe lapse (Within g.records lapse outer Γ)
      (Gives (Within g.records lapse outer Γ) (Flow.Fits g.records lapse Γ b.ways)) (block w b)
  | ⟨sp, ss⟩, Γ, ht => by
    cases ht with
    | mk hss => exact .inScope ((stmts_safe hw hss).mono fun _ _ ⟨hf, hm⟩ => ⟨hf.kept rfl rfl, hm⟩)
termination_by structural b => b

theorem unrolling_safe (hw : w.Keeps g lapse) {keyword : Span} {var : LoopVar} {range : Expr} : ∀ {u : Unrolling}
    {Γ : Scope}, UnrollingTyped g Γ var range u → Safe lapse (Within g.records lapse outer Γ)
      (Gives (Atop g.records lapse outer Γ.values.tail) (Flow.Fits g.records lapse Γ u.ways))
      (unrolling w keyword range u)
  | .empty, Γ, ht => by
    cases ht with
    | empty hr _ => exact (emptyRange_safe hw hr).bind fun _ => .pure fun _ hm => ⟨.next rfl, Γ, rfl, hm⟩
  | .unrolled b cs, Γ, ht => by
    cases ht with
    | unrolled hr _ hcs =>
      obtain ⟨hvalues, hret, hloop⟩ := hr.outer_kept
      exact (binding_safe hw hr).bind fun _ =>
        (copies_safe hw hcs).mono fun _ _ ⟨hf, hm⟩ => ⟨hf.kept hret hloop, _, hvalues, hm⟩
  | .pending, _, ht => by cases ht
  | .deferred, _, ht => by cases ht
termination_by structural u => u

/-- **Copies go on, or give a value**; leaving one of them leaves the others out. -/
theorem copies_safe (hw : w.Keeps g lapse) {var : LoopVar} {els : Elements} {Γ : Scope} : ∀ {cs : List Copy} {i : Nat},
    CopiesTyped g Γ var els i cs → Safe lapse (Within g.records lapse outer Γ) (Gives (Within g.records lapse outer Γ)
      (Flow.Fits g.records lapse Γ (Copy.waysAll cs))) (copies w cs)
  | [], i, _ => .gives (.next rfl)
  | ⟨j, ⟨sp, ss⟩⟩ :: cs, i, ht => by
    have hbody := @stmts_safe hw ss Γ.opened.looped
    cases ht with
    | cons _ _ hss hcs =>
      refine (@Safe.inScope g.records lapse outer Γ _ _ _ (hbody hss)).giving fun f hf => ?_
      cases hf with
      | next hgo => exact (copies_safe hw hcs).mono fun _ _ ⟨hf, hm⟩ => ⟨hf.copies (.inl hgo), hm⟩
      | again _ hgo => exact (copies_safe hw hcs).mono fun _ _ ⟨hf, hm⟩ => ⟨hf.copies (.inr hgo), hm⟩
      | leave _ hgo => exact .gives (.next (Bool.or_eq_true_iff.2 (.inl hgo)))
      | give hv => exact .gives (.give hv)
termination_by structural cs => cs

end

end

end Eval
end Unroll
