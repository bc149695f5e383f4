import Unroll.Proofs.Renaming
import Unroll.Proofs.Written
/-!
# Trees that keep their names
-/
namespace Unroll

variable (ρ : Renaming)

/-- The types of the fields stay. -/
def FieldsStay (fs : List RecordField) : Prop := ∀ f ∈ fs, f.type.renamed ρ = f.type

def TypeRef.Unchanged? (t : Option TypeRef) : Prop := ∀ w, t = some w → w.renamed ρ = w

structure ValDecl.Unchanged (d : ValDecl) : Prop where
  type : TypeRef.Unchanged? ρ d.type
  expr : d.expr.renamed ρ = d.expr

def Init.Unchanged : Option Init → Prop
  | none => True
  | some (.val d) => d.Unchanged ρ
  | some (.expr e) => e.renamed ρ = e

mutual

/-- **No name of a type changes in the statement**, nor one that it declares a record under.  Copies do not count: they
are made anew. -/
def Stmt.Unchanged : Stmt → Prop
  | .typeAlias _ _ _ _ | .trait _ _ | .cell _ | .leave _ | .next _ | .give _ none => True
  | .record d => ρ.name d.name.name = d.name.name ∧ FieldsStay ρ d.fields
  | .val d => d.Unchanged ρ
  | .assign _ _ e | .give _ (some e) | .assert _ e | .expr e => e.renamed ρ = e
  | .cond _ c yes none => c.renamed ρ = c ∧ yes.Unchanged
  | .cond _ c yes (some no) => c.renamed ρ = c ∧ yes.Unchanged ∧ no.Unchanged
  | .loop _ c body => c.renamed ρ = c ∧ body.Unchanged
  | .expand x => x.Unchanged

def Stmt.AllUnchanged : List Stmt → Prop
  | [] => True
  | s :: ss => s.Unchanged ∧ Stmt.AllUnchanged ss

def Block.Unchanged : Block → Prop
  | ⟨_, ss⟩ => Stmt.AllUnchanged ss

def Expansion.Unchanged : Expansion → Prop
  | ⟨_, _, init, var, range, body, _, _⟩ =>
    Init.Unchanged ρ init ∧ TypeRef.Unchanged? ρ var.type ∧ range.renamed ρ = range ∧ body.Unchanged

end

variable {ρ}

/-! ## What is written keeps its names -/

theorem Worded.fixed {n : String} (h : Worded n) : ρ.name n = n := ρ.plain (h.notMem (by decide))

mutual

theorem Expr.Written.renamed : ∀ {e : Expr}, e.Written → e.renamed ρ = e
  | .name _ _, _ | .int _ _, _ | .char _ _, _ | .bool _ _, _ | .text _ _, _ => rfl
  | .list _ _, h | .array _ _, h => by rw [Expr.renamed, Expr.AllWritten.renamed h]
  | .record _ _ _, h => by rw [Expr.renamed, Renaming.ident_fixed h.1.fixed, Expr.FieldsWritten.renamed h.2]
  | .unary _ _ e, h => by rw [Expr.renamed, Expr.Written.renamed (e := e) h]
  | .member _ e _, h => by rw [Expr.renamed, Expr.Written.renamed (e := e) h]
  | .binary _ _ _ _, h => by rw [Expr.renamed, Expr.Written.renamed h.1, Expr.Written.renamed h.2]
  | .index _ _ _, h => by rw [Expr.renamed, Expr.Written.renamed h.1, Expr.Written.renamed h.2]
  | .call _ _ _ _, h => by rw [Expr.renamed, TypeArg.AllWritten.renamed h.2.1, Expr.AllWritten.renamed h.2.2]

theorem Expr.AllWritten.renamed : ∀ {es : List Expr}, Expr.AllWritten es → Expr.allRenamed ρ es = es
  | [], _ => rfl
  | _ :: _, h => by rw [Expr.allRenamed, Expr.Written.renamed h.1, Expr.AllWritten.renamed h.2]

theorem Expr.FieldsWritten.renamed : ∀ {fs : List (Ident × Expr)}, Expr.FieldsWritten fs → Expr.fieldsRenamed ρ fs = fs
  | [], _ => rfl
  | (_, _) :: _, h => by rw [Expr.fieldsRenamed, Expr.Written.renamed h.1, Expr.FieldsWritten.renamed h.2]

theorem TypeRef.Written.renamed : ∀ {t : TypeRef}, t.Written → t.renamed ρ = t
  | .named _ _ _, h => by rw [TypeRef.renamed, Renaming.ident_fixed h.1.fixed, TypeArg.AllWritten.renamed h.2]
  | .array _ _ _, h => by rw [TypeRef.renamed, TypeRef.Written.renamed h.1, Expr.Written.renamed h.2]

theorem TypeArg.Written.renamed : ∀ {a : TypeArg}, a.Written → a.renamed ρ = a
  | .type t, h => by rw [TypeArg.renamed, TypeRef.Written.renamed (t := t) h]
  | .value e, h => by rw [TypeArg.renamed, Expr.Written.renamed (e := e) h]

theorem TypeArg.AllWritten.renamed : ∀ {as : List TypeArg}, TypeArg.AllWritten as → TypeArg.allRenamed ρ as = as
  | [], _ => rfl
  | _ :: _, h => by rw [TypeArg.allRenamed, TypeArg.Written.renamed h.1, TypeArg.AllWritten.renamed h.2]

end

theorem TypeRef.Written?.unchanged {t : Option TypeRef} (h : TypeRef.Written? t) : TypeRef.Unchanged? ρ t :=
  fun w hw => (h w hw).renamed

theorem ValDecl.Written.unchanged {d : ValDecl} (h : d.Written) : d.Unchanged ρ := ⟨h.type.unchanged, h.expr.renamed⟩

theorem Init.Written.unchanged : ∀ {i : Option Init}, Init.Written i → Init.Unchanged ρ i
  | none, _ => trivial
  | some (.val _), h => ValDecl.Written.unchanged h
  | some (.expr _), h => Expr.Written.renamed h

mutual

theorem Stmt.Written.unchanged : ∀ {s : Stmt}, s.Written → s.Unchanged ρ
  | .typeAlias _ _ _ _, _ | .trait _ _, _ | .cell _, _ | .leave _, _ | .next _, _ | .give _ none, _ => trivial
  | .record _, h => ⟨(RecordDef.Written.name h).fixed, fun f hf => (RecordDef.Written.fields h f hf).renamed⟩
  | .val d, h => ValDecl.Written.unchanged (d := d) h
  | .assign _ _ _, h => Expr.Written.renamed h.2
  | .give _ (some e), h => Expr.Written.renamed (e := e) h
  | .assert _ e, h => Expr.Written.renamed (e := e) h
  | .expr e, h => Expr.Written.renamed (e := e) h
  | .cond _ _ _ none, h => ⟨Expr.Written.renamed h.1, Block.Written.unchanged h.2⟩
  | .cond _ _ _ (some _), h => ⟨Expr.Written.renamed h.1, Block.Written.unchanged h.2.1, Block.Written.unchanged h.2.2⟩
  | .loop _ _ _, h => ⟨Expr.Written.renamed h.1, Block.Written.unchanged h.2⟩
  | .expand x, h => Expansion.Written.unchanged (x := x) h

theorem Stmt.AllWritten.unchanged : ∀ {ss : List Stmt}, Stmt.AllWritten ss → Stmt.AllUnchanged ρ ss
  | [], _ => trivial
  | _ :: _, h => ⟨Stmt.Written.unchanged h.1, Stmt.AllWritten.unchanged h.2⟩

theorem Block.Written.unchanged : ∀ {b : Block}, b.Written → b.Unchanged ρ
  | ⟨_, ss⟩, h => @Stmt.AllWritten.unchanged ss h

theorem Expansion.Written.unchanged : ∀ {x : Expansion}, x.Written → x.Unchanged ρ
  | ⟨_, _, _, _, _, _, _, _⟩, h =>
    ⟨Init.Written.unchanged h.1, h.2.1.type.unchanged, Expr.Written.renamed h.2.2.1, Block.Written.unchanged h.2.2.2⟩

end

/-! ## Substitution keeps names -/

namespace Subst

open Outcome

variable {ls : ArgLevels}

/-- No name changes in the arguments, nor among the names that they are filled in for. -/
structure Steady (ρ : Renaming) (ls : ArgLevels) : Prop where
  args : ArgLevels.renamed ρ ls = ls
  names : Filling ρ ls

theorem renamed_of_toOption {ε α : Type} {f : α → α} {x : Except ε α} {a : α} (h : x.toOption = x.toOption.map f)
    (hx : x = .ok a) : f a = a := by
  subst hx
  exact (Option.some.inj h).symm

theorem expr_unchanged (h : Steady ρ ls) {e r : Expr} (he : e.renamed ρ = e) (hr : expr ls e = .ok r) : r.renamed ρ = r := by
  have heq := expr_renamed h.names e
  rw [h.args, he] at heq
  exact renamed_of_toOption heq hr

theorem typeRef_unchanged (h : Steady ρ ls) {w r : TypeRef} (hw : w.renamed ρ = w) (hr : typeRef ls w = .ok r) :
    r.renamed ρ = r := by
  have heq := typeRef_renamed h.names w
  rw [h.args, hw] at heq
  exact renamed_of_toOption heq hr

theorem typeRef?_unchanged (h : Steady ρ ls) {t r : Option TypeRef} (ht : TypeRef.Unchanged? ρ t)
    (hr : typeRef? ls t = .ok r) : TypeRef.Unchanged? ρ r := by
  cases t with
  | none =>
    cases hr
    exact fun _ h => by cases h
  | some w =>
    simp only [typeRef?, except_map_ok] at hr
    obtain ⟨v, hv, rfl⟩ := hr
    intro u hu
    cases hu
    exact typeRef_unchanged h (ht w rfl) hv

theorem valDecl_unchanged (h : Steady ρ ls) {d r : ValDecl} (hd : d.Unchanged ρ) (hr : valDecl ls d = .ok r) :
    r.Unchanged ρ := by
  simp only [valDecl, except_bind_ok, except_pure_ok] at hr
  obtain ⟨t, ht, e, he, rfl⟩ := hr
  exact ⟨typeRef?_unchanged h hd.type ht, expr_unchanged h hd.expr he⟩

theorem init_unchanged (h : Steady ρ ls) : ∀ {i r : Option Init}, Init.Unchanged ρ i → init ls i = .ok r → Init.Unchanged ρ r
  | none, r, _, hr => by
    cases hr
    trivial
  | some (.val d), r, hi, hr => by
    simp only [init, except_map_ok] at hr
    obtain ⟨_, ⟨d', hd, rfl⟩, rfl⟩ := hr
    exact valDecl_unchanged h hi hd
  | some (.expr e), r, hi, hr => by
    simp only [init, except_map_ok] at hr
    obtain ⟨_, ⟨e', he, rfl⟩, rfl⟩ := hr
    exact expr_unchanged h hi he

theorem fields_unchanged (h : Steady ρ ls) : ∀ {fs rs : List RecordField}, FieldsStay ρ fs →
    fs.mapM (recordField ls) = .ok rs → FieldsStay ρ rs
  | [], rs, _, hr => by
    cases hr
    exact fun _ hf => absurd hf List.not_mem_nil
  | f :: fs, rs, hfs, hr => by
    simp only [List.mapM_cons, recordField, except_bind_ok, except_pure_ok] at hr
    obtain ⟨_, ⟨t, ht, rfl⟩, rest, hrest, rfl⟩ := hr
    obtain ⟨hf, hfs⟩ := List.forall_mem_cons.1 hfs
    exact List.forall_mem_cons.2 ⟨typeRef_unchanged h hf ht, fields_unchanged h hfs hrest⟩

mutual

theorem stmt_unchanged (h : Steady ρ ls) : ∀ {x r : Stmt}, x.Unchanged ρ → stmt ls x = .ok r → r.Unchanged ρ
  | .typeAlias _ _ _ _, r, _, hr | .trait _ _, r, _, hr | .cell _, r, _, hr | .leave _, r, _, hr | .next _, r, _, hr => by
    simp only [stmt, Except.ok.injEq] at hr
    exact hr ▸ trivial
  | .record d, r, hx, hr => by
    simp only [stmt, except_bind_ok, except_pure_ok] at hr
    obtain ⟨fs, hfs, rfl⟩ := hr
    exact ⟨hx.1, fields_unchanged h hx.2 hfs⟩
  | .val d, r, hx, hr => by
    simp only [stmt, except_map_ok] at hr
    obtain ⟨d', hd, rfl⟩ := hr
    exact valDecl_unchanged h hx hd
  | .assign _ _ _, r, hx, hr | .assert _ _, r, hx, hr => by
    simp only [stmt, except_bind_ok, except_pure_ok] at hr
    obtain ⟨e', he, rfl⟩ := hr
    exact expr_unchanged h hx he
  | .expr _, r, hx, hr => by
    simp only [stmt, except_map_ok] at hr
    obtain ⟨e', he, rfl⟩ := hr
    exact expr_unchanged h hx he
  | .give _ none, r, _, hr => by
    simp only [stmt, expr?, except_bind_ok, except_pure_ok, Except.ok.injEq] at hr
    obtain ⟨_, rfl, rfl⟩ := hr
    trivial
  | .give _ (some e), r, hx, hr => by
    simp only [stmt, expr?, except_bind_ok, except_pure_ok, except_map_ok] at hr
    obtain ⟨_, ⟨e', he, rfl⟩, rfl⟩ := hr
    exact expr_unchanged h hx he
  | .cond _ _ yes none, r, hx, hr => by
    simp only [stmt, except_bind_ok, except_pure_ok] at hr
    obtain ⟨c, hc, y, hy, rfl⟩ := hr
    exact ⟨expr_unchanged h hx.1 hc, block_unchanged h hx.2 hy⟩
  | .cond _ _ yes (some no), r, hx, hr => by
    simp only [stmt, except_bind_ok, except_pure_ok] at hr
    obtain ⟨c, hc, y, hy, n, hn, rfl⟩ := hr
    exact ⟨expr_unchanged h hx.1 hc, block_unchanged h hx.2.1 hy, block_unchanged h hx.2.2 hn⟩
  | .loop _ _ body, r, hx, hr => by
    simp only [stmt, except_bind_ok, except_pure_ok] at hr
    obtain ⟨c, hc, b, hb, rfl⟩ := hr
    exact ⟨expr_unchanged h hx.1 hc, block_unchanged h hx.2 hb⟩
  | .expand ⟨_, _, first, var, range, body, _, _⟩, r, hx, hr => by
    simp only [stmt, expansion, loopVar, except_map_ok, except_bind_ok, except_pure_ok] at hr
    obtain ⟨_, ⟨i, hi, _, ⟨t, ht, rfl⟩, e, he, b, hb, rfl⟩, rfl⟩ := hr
    exact ⟨init_unchanged h hx.1 hi, typeRef?_unchanged h hx.2.1 ht, expr_unchanged h hx.2.2.1 he,
      block_unchanged h hx.2.2.2 hb⟩

theorem stmts_unchanged (h : Steady ρ ls) : ∀ {xs rs : List Stmt}, Stmt.AllUnchanged ρ xs → stmts ls xs = .ok rs →
    Stmt.AllUnchanged ρ rs
  | [], rs, _, hr => by
    simp only [stmts, Except.ok.injEq] at hr
    exact hr ▸ trivial
  | x :: xs, rs, hx, hr => by
    simp only [stmts, except_bind_ok, except_pure_ok] at hr
    obtain ⟨r, hr, rs, hrs, rfl⟩ := hr
    exact ⟨stmt_unchanged h hx.1 hr, stmts_unchanged h hx.2 hrs⟩

/-- **Substitution changes no name** where the arguments have none that changes. -/
theorem block_unchanged (h : Steady ρ ls) : ∀ {b r : Block}, b.Unchanged ρ → block ls b = .ok r → r.Unchanged ρ
  | ⟨_, ss⟩, r, hb, hr => by
    simp only [block, except_bind_ok, except_pure_ok] at hr
    obtain ⟨rs, hrs, rfl⟩ := hr
    exact stmts_unchanged h hb hrs

end

end Subst

end Unroll
