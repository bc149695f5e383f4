import Unroll.Proofs.Accepted
import Unroll.Proofs.Check.Whole
import Unroll.Proofs.Grammar.Reading
import Unroll.Proofs.Reference.FieldOrder
import Unroll.Proofs.Reference.Simulation
/-!
# Expansion preserves meaning

Calls go down level by level, and at each level the machine follows the reference.  A program without generic cells has
no instances; its cells are those that were parsed, each with its copies.
-/
namespace Unroll
namespace Reference

open Outcome

/-! ## Calls -/

/-- The parameters of a call mirror one another. -/
theorem mirrors_entries {records : Table RecordInfo} {entries : Table Ordered} {values : Table ValInfo}
    (h : List.Forall₂ (fun e i => e.1 = i.1 ∧ Worded e.1 ∧ Fits records e.2 i.2.type) entries values) :
    Mirrors records (fun _ => none) values [] ⟨entries, []⟩ (entries.map fun e => (e.1, e.2.erase)) := by
  induction h with
  | nil => exact .new
  | @cons e i entries values he _ ih =>
    obtain ⟨n, x⟩ := e
    obtain ⟨m, i⟩ := i
    obtain ⟨rfl, hn, hx⟩ := he
    exact ih.define hn hx

theorem params_entries {records : Table RecordInfo} : ∀ {ps : List CellParam} {names : List String} {args : List Ordered},
    names = ps.map (·.name) → (∀ n ∈ names, Worded n) → List.Forall₂ (Fits records) args (ps.map (·.type)) →
      List.Forall₂ (fun (e : String × Ordered) (i : String × ValInfo) => e.1 = i.1 ∧ Worded e.1 ∧ Fits records e.2 i.2.type)
        (names.zip args) (ps.map fun p => (p.name, ⟨p.type, p.mutable⟩))
  | [], _, _, rfl, _, h => by
    cases h
    exact .nil
  | p :: ps, _, _, rfl, hw, h => by
    cases h with
    | cons hx hrest =>
      obtain ⟨hn, hns⟩ := List.forall_mem_cons.1 hw
      exact .cons ⟨rfl, hn, hx⟩ (params_entries rfl hns hrest)

/-- **What a parsed cell is elaborated into**, and how it is typed. -/
structure Unrolls (g : Globals) (globals : Table String) (sig : CellSig) (c c' : CellDef) : Prop where
  written : c.Written
  args : c'.args = c.args
  outline : Stmt.outlines c'.body.stmts = Stmt.outlines c.body.stmts
  faithful : Stmt.AllFaithful c'.body.stmts
  typed : CellTyped g globals c' sig

section

variable {g : Globals} {globals : Table String} {w : World} {v : Eval.World}

theorem map_zip_erase : ∀ (names : List String) (args : List Ordered),
    (names.zip args).map (fun e => (e.1, e.2.erase)) = names.zip (args.map Ordered.erase)
  | [], _ => by simp
  | _ :: _, [] => by simp
  | n :: names, x :: args => by simp [map_zip_erase names args]

/-- A frame of its own leaves the scopes of the caller alone. -/
theorem inFrame_follows {α β : Type} {P : α → β → Prop} {x : Ref α} {y : Run β} {entries : Table Ordered}
    {table : Table Value} {hs : List (String → Option Value)} {Γ : Scope}
    (hmirror : Mirror g.records globals hs Γ.values Γ.types [⟨entries, []⟩] [table]) (ls : List Level)
    (fs : List (List (Table Value)))
    (hxy : Follows (Agree g globals fs hs Γ) (Keeps (fun s m => m.out = s.out ∧ m.frames.tail = fs) P) x y) :
    Follows (Still ls fs) (Keeps (Still ls fs) P) (inFrame entries x) (Run.inFrame table y) := by
  rintro ⟨ls, out⟩ ⟨fs, mout⟩ ⟨rfl, rfl, rfl⟩ a s' ha
  unfold inFrame inside at ha
  cases hx : x ⟨[⟨entries, []⟩], mout⟩ with
  | error e t =>
    rw [hx] at ha
    cases ha
  | ok a' t =>
    rw [hx] at ha
    cases ha
    obtain ⟨b, m', hy, hp, hout, htail⟩ := hxy _ ⟨[table] :: fs, mout⟩ ⟨rfl, _, rfl, hmirror⟩ _ _ hx
    refine ⟨b, ⟨fs, m'.out⟩, ?_, hp, rfl, rfl, hout⟩
    rw [Run.inFrame_eq, hy]
    exact congrArg (fun k => EStateM.Result.ok b (Machine.mk k m'.out)) htail

/-- **A call does the same.** -/
theorem cell_follows (hw : Lockstep g globals w v) {sig : CellSig} {c c' : CellDef} (hc : Unrolls g globals sig c c')
    {args : List Ordered} (hargs : List.Forall₂ (Fits g.records) args (sig.params.map (·.type))) (ls : List Level)
    (fs : List (List (Table Value))) :
    Follows (Still ls fs) (Keeps (Still ls fs) (Same g.records sig.ret)) (cell w c args)
      (Eval.cell v c' (args.map Ordered.erase)) := by
  obtain ⟨-, hparts, -, hbody⟩ := hc.written.parts
  have hnames : c.args.map (·.name.name) = sig.params.map (·.name) := by rw [← hc.args, hc.typed.params]
  have hworded : ∀ n ∈ c.args.map (·.name.name), Worded n := by
    intro n hn
    obtain ⟨a, ha, rfl⟩ := List.mem_map.1 hn
    exact (hparts a ha).name
  have hentries := mirrors_entries (List.rel_reverse (params_entries hnames hworded hargs))
  rw [List.map_reverse, map_zip_erase, ← hc.args] at hentries
  have hmirror : Mirror g.records globals [fun _ => none] (bodyScope globals sig).values (bodyScope globals sig).types
      [⟨((c'.args.map (·.name.name)).zip args).reverse, []⟩]
      [((c'.args.map (·.name.name)).zip (args.map Ordered.erase)).reverse] := .cons hentries .base
  unfold cell Eval.cell
  rw [← hc.args]
  refine inFrame_follows hmirror ls fs ?_
  refine (stmts_follow hw hc.outline.symm hbody hc.faithful hc.typed.body).keeping fun f f' ⟨hf', hfit⟩ => ?_
  subst hf'
  have hleft : ∀ s m, Inner g globals fs [] (bodyScope globals sig).values.tail (bodyScope globals sig).types.tail s m →
      m.out = s.out ∧ m.frames.tail = fs := by
    rintro s m ⟨_, _, -, -, hout, ms, hms, -⟩
    exact ⟨hout, by rw [hms, List.tail_cons]⟩
  cases f with
  | give x => exact .pure fun s m hm => ⟨⟨rfl, hfit x rfl⟩, hleft s m hm⟩
  | next => exact .pure fun s m hm => ⟨⟨rfl, .scalar⟩, hleft s m hm⟩
  | leave => exact .pure fun s m hm => ⟨⟨rfl, .scalar⟩, hleft s m hm⟩
  | again => exact .pure fun s m hm => ⟨⟨rfl, .scalar⟩, hleft s m hm⟩

/-- **At every level the worlds go in lockstep**, where each cell is what the one of its name unrolls to. -/
theorem callAt_lockstep {cells cells' : Table CellDef} {order : String → List String} {limit n : Nat}
    (horder : ∀ {k c r}, Worded k → g.literal? ⟨[], [globals], .unit, false⟩ k = some c → g.records.find? c = some r →
      order k = r.fields.map (·.name))
    (hworded : ∀ {k sig}, g.cells.find? k = some sig → Worded k)
    (hcells : ∀ {k sig c}, g.cells.find? k = some sig → cells.find? k = some c →
      ∃ c', cells'.find? k = some c' ∧ Unrolls g globals sig c c') : ∀ depth,
      Lockstep g globals ⟨cells, callAt cells order limit n depth, n, order⟩ ⟨cells', Eval.callAt cells' limit n depth, n⟩
  | 0 =>
    { rounds := rfl
      order := horder
      worded := hworded
      calls := fun hsig hc => by
        obtain ⟨c', hc', -⟩ := hcells hsig hc
        exact ⟨c', hc', fun _ _ _ => .fail⟩ }
  | depth + 1 =>
    { rounds := rfl
      order := horder
      worded := hworded
      calls := fun hsig hc => by
        obtain ⟨c', hc', hunrolls⟩ := hcells hsig hc
        refine ⟨c', hc', fun hargs ls fs => ?_⟩
        exact cell_follows (callAt_lockstep horder hworded hcells depth) hunrolls hargs ls fs }

end

/-! ## Programs -/

section

variable {globals : Table String} {fin : Checker} {p : Program} {checked : CheckedProgram}

theorem find?_forall₂ {α β : Type} {R : String × α → String × β → Prop} (hkey : ∀ {a b}, R a b → a.1 = b.1) {t : Table α}
    {t' : Table β} (h : List.Forall₂ R t t') {n : String} {a : α} (ha : t.find? n = some a) :
    ∃ b, t'.find? n = some b ∧ R (n, a) (n, b) := by
  unfold Table.find? at ha ⊢
  induction h with
  | nil => cases ha
  | @cons x y t t' hr _ ih =>
    obtain ⟨k, a'⟩ := x
    obtain ⟨k', b'⟩ := y
    obtain rfl : k = k' := hkey hr
    rw [List.lookup_cons] at ha ⊢
    cases hk : n == k with
    | true =>
      rw [hk] at ha
      cases ha
      obtain rfl := beq_iff_eq.1 hk
      exact ⟨b', rfl, hr⟩
    | false =>
      rw [hk] at ha
      exact ih ha

/-- The parsed cell and its elaboration stand under one name. -/
structure Paired (globals : Table String) (fin : Checker) (p : Program) (a b : String × CellDef) : Prop where
  key : a.1 = b.1
  name : a.1 = a.2.name.name
  parsed : .cell a.2 ∈ p
  elaborated : Check.Elaborated globals fin a.2 b.2

/-- **Cell by cell**, what was parsed and what it was elaborated into. -/
theorem cells_paired {q ss : List Stmt} (h : List.Forall₂ (Check.Leaves₄ globals fin) q ss)
    (hconcrete : ∀ c, .cell c ∈ p → c.params = []) (hsub : ∀ x ∈ q, x ∈ p) :
    List.Forall₂ (Paired globals fin p) (q.filterMap fun | .cell c => some (c.name.name, c) | _ => none)
      ((CheckedProgram.mk ss []).cells.map fun c => (c.name.name, c)) := by
  induction h with
  | nil => exact .nil
  | @cons x r q ss hx _ ih =>
    obtain ⟨hxp, hqp⟩ := List.forall_mem_cons.1 hsub
    have hrest := ih hqp
    obtain ⟨hne, rfl⟩ | ⟨c, g, rfl, hpar, -, -⟩ | ⟨c, c', rfl, hpar, rfl, hel⟩ := hx
    · cases r with
      | cell c => exact absurd rfl (hne c)
      | _ => exact hrest
    · exact absurd (hconcrete c hxp) hpar
    · have hg : c'.isGeneric = false := by
        unfold CellDef.isGeneric
        rw [hel.params, hpar]
        rfl
      have hpair : Paired globals fin p (c.name.name, c) (c'.name.name, c') := ⟨by rw [hel.name], rfl, hxp, hel⟩
      simpa [CheckedProgram.cells, hg] using List.Forall₂.cons hpair hrest

/-- The cells of a program without generic cells, in the worlds of the two. -/
theorem Passed.unrolls {last : Checker} (hp : Check.Passed p checked last globals fin) (hwritten : ∀ x ∈ p, x.Written)
    (hconcrete : ∀ c, .cell c ∈ p → c.params = []) :
    (∀ {k sig}, fin.cells.find? k = some sig → Worded k) ∧
      ∀ {k c}, (cellTable p).find? k = some c → ∃ c' sig, (Machine.cellTable checked).find? k = some c' ∧
        fin.cells.find? k = some sig ∧ Unrolls (Check.globalsOf fin) globals sig c c' := by
  have hnone := hp.concrete hconcrete
  have hfinal : Check.Final globals fin := hp.final (by simp [hnone]) (by simp [hnone])
  obtain ⟨-, hleaves⟩ := hp.leaves hfinal
  have hinstances : checked.instances = [] := by rw [hp.instances, hnone, List.reverse_nil]
  constructor
  · intro k sig hk
    obtain ⟨c, hc, rfl⟩ | ⟨c, hc, -⟩ := hp.cells hk
    · exact (CellDef.Written.parts (hwritten _ hc)).1
    · rw [hnone] at hc
      cases hc
  · intro k c hk
    have hpaired := List.rel_reverse (cells_paired hleaves hconcrete fun _ hx => hx)
    have htable : Machine.cellTable checked =
        ((CheckedProgram.mk checked.program []).cells.map fun c => (c.name.name, c)).reverse := by
      unfold Machine.cellTable CheckedProgram.cells
      rw [hinstances]
    obtain ⟨c', hc', hpair⟩ := find?_forall₂ (fun h => h.key) hpaired hk
    obtain ⟨sig, hsig, htyped⟩ := hpair.elaborated.typed
    have hname : k = c.name.name := hpair.name
    exact ⟨c', sig, by rw [htable]; exact hc', by rw [hname]; exact hsig, hwritten _ hpair.parsed, hpair.elaborated.args,
      hpair.elaborated.outline, hpair.elaborated.faithful, htyped⟩

theorem run_of_callAt {b : Bounds} {entry out : String} {c : CellDef} {v : Value} {m : Machine}
    (hc : (Machine.cellTable checked).find? entry = some c) (hargs : c.args = [])
    (hv : Eval.callAt (Machine.cellTable checked) b.callDepth b.loopRounds b.callDepth c [] c.name.span .new = .ok v m)
    (hout : m.out = out) : checked.run b entry = .ok ⟨v, out⟩ := by
  have hrun := Machine.runEntry_eq checked b entry .new
  simp only [hc, hargs, List.isEmpty_nil, if_true, hv] at hrun
  unfold CheckedProgram.run
  rw [hrun, hout]

/-- **Expansion preserves meaning.**  Where a parsed program without generic cells is accepted and the reference finishes
on it, the machine finishes on the checked program with the same value and the same output. -/
theorem unrolled_run {source : String} {edition : Option String} {config : Config} {last : Checker} {b : Bounds}
    {entry : String} {o : Outcome} (hsource : Source.program source edition = .ok p)
    (hconcrete : ∀ c, .cell c ∈ p → c.params = []) (hcheck : Check.program p (.new config) = .ok checked last)
    (href : run p b entry = .ok o) : checked.run b entry = .ok o := by
  obtain ⟨globals, fin, hp⟩ := Check.passed (source_written hsource) hcheck
  obtain ⟨hworded, hcells⟩ := Passed.unrolls hp (source_written hsource) hconcrete
  have horder : ∀ {k c r}, Worded k → (Check.globalsOf fin).literal? ⟨[], [globals], .unit, false⟩ k = some c →
      (Check.globalsOf fin).records.find? c = some r → declaredOrder p k = r.fields.map (·.name) := by
    intro k c r hk hc hr
    have hlast : Check.globalsOf last = Check.globalsOf fin := by rw [hp.last]; rfl
    have htypes : last.place.types = [globals] := by rw [hp.last]; exact congrArg Place.types hp.place
    refine declaredOrder_eq (source_written hsource) hcheck hk (c := c) ?_ (by rw [hp.last]; exact hr)
    rw [hlast, htypes]
    exact hc
  unfold run at href
  cases hc : (cellTable p).find? entry with
  | none =>
    rw [hc] at href
    cases href
  | some c =>
    obtain ⟨c', sig, hc', hsig, hunrolls⟩ := hcells hc
    have hworlds := @callAt_lockstep (Check.globalsOf fin) globals _ _ _ b.callDepth b.loopRounds horder hworded
      (fun hsig hk => by
        obtain ⟨c', sig', hc', hsig', hunrolls⟩ := hcells hk
        have hsame : sig' = _ := Option.some.inj (hsig'.symm.trans hsig)
        subst hsame
        exact ⟨c', hc', hunrolls⟩) b.callDepth
    obtain ⟨_, hfound, hcall⟩ := hworlds.calls hsig hc
    obtain rfl : c' = _ := Option.some.inj (hc'.symm.trans hfound)
    cases hargs : c.args with
    | cons a as =>
      simp [hc, hargs] at href
    | nil =>
      have hparams : sig.params = [] := by
        have hnames := hunrolls.typed.params
        rw [hunrolls.args, hargs] at hnames
        exact List.map_eq_nil_iff.1 hnames.symm
      have hempty : c'.args = [] := by rw [hunrolls.args, hargs]
      simp only [hc, hargs, List.isEmpty_nil, Bool.not_true, Bool.false_eq_true, if_false] at href
      cases hx : callAt (cellTable p) (declaredOrder p) b.callDepth b.loopRounds b.callDepth c [] c.name.span ⟨[], ""⟩ with
      | error e t =>
        rw [hx] at href
        cases href
      | ok x t =>
        rw [hx] at href
        cases href
        have hargs' : List.Forall₂ (Fits fin.records) [] (sig.params.map (·.type)) := by
          rw [hparams]
          exact .nil
        obtain ⟨y, m, hy, ⟨rfl, -⟩, -, -, hout⟩ := @hcall [] _ c'.name.span hargs' [] [] ⟨[], ""⟩ .new ⟨rfl, rfl, rfl⟩ x t hx
        exact run_of_callAt hc' hempty hy hout

/-- Goes through the fields of a record as they are declared, and through a list in each round, and leaves both early.
The literal is written with an alias, in another order than that of the declaration. -/
def fieldByField : String :=
  "type P = record \x7b c: int, a: int, d: int, b: int \x7d\ntype Same<T> = T\ntype Q = Same<P>\n\ncell main() -> int:\n    expand val x in Q \x7b a: 1, b: 2, c: 3, d: 4 \x7d:\n        expand val y in \x7bx, true\x7d:\n            print(y)\n        if x == 4:\n            return x\n    return 0\n"

set_option maxRecDepth 100000 in
theorem unrolled_run_fieldByField : ∃ p checked last, Source.program fieldByField none = .ok p ∧
    (∀ c, .cell c ∈ p → c.params = []) ∧ Check.program p (.new .standard) = .ok checked last ∧
    run p .standard "main" = .ok ⟨.int 4, "3\ntrue\n1\ntrue\n4\ntrue\n"⟩ ∧
    checked.run .standard "main" = .ok ⟨.int 4, "3\ntrue\n1\ntrue\n4\ntrue\n"⟩ := by
  have h : accepts fieldByField (fun p _ _ => p.all (fun | .cell c => c.params.isEmpty | _ => true) &&
      match run p .standard "main" with
      | .ok o => decide (o = ⟨.int 4, "3\ntrue\n1\ntrue\n4\ntrue\n"⟩)
      | .error _ => false) = true := by decide +kernel
  obtain ⟨p, checked, last, hp, hc, h⟩ := of_accepts h
  obtain ⟨hall, h⟩ := Bool.and_eq_true_iff.1 h
  split at h
  · rename_i o ho
    obtain rfl := of_decide_eq_true h
    have hconcrete : ∀ c, .cell c ∈ p → c.params = [] := by
      intro c hcell
      simpa using List.all_eq_true.1 hall _ hcell
    exact ⟨p, checked, last, hp, hconcrete, hc, ho, unrolled_run hp hconcrete hc ho⟩
  · cases h

end

end Reference
end Unroll
