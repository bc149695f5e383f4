import Unroll.Proofs.Grammar.Reading
import Unroll.Proofs.Grammar.Recovery
import Unroll.Proofs.Printing.Phrases
/-!
# A printed program is read in its lines

The tokens of a program in order are those of its lines, each with a line end behind it, and a block stands between an
indent and a dedent (`Program.linear`).  The printer writes a block four columns further in, so that behind each line
the open levels are the multiples of four up to its column.  Blocks are closed late: a block that has ended is closed
by the next line or by the end of the text, and until then its dedents are owed (`Layout.Owes`).
-/
namespace Unroll

open Print (word sym name)

/-! ## The tokens of a program in order -/

/-- The pieces that a statement begins with, up to the end of the line. -/
def Stmt.head : Stmt → List Piece
  | .typeAlias _ id params target =>
    word .type :: .space :: name id.name :: Print.templateParams params ++
      .space :: sym .assign :: .space :: Print.typeRef target
  | .trait _ id => [word .trait, .space, name id.name]
  | .record d => Print.recordDef d
  | .cell c => Print.cellHead c
  | .val d => Print.valDecl d
  | .assign _ target e => name target.name :: .space :: sym .assign :: .space :: Print.expr .lowest e
  | .cond _ e _ _ => word .ifWord :: .space :: Print.expr .lowest e ++ [sym .colon]
  | .loop _ e _ => word .whileWord :: .space :: Print.expr .lowest e ++ [sym .colon]
  | .expand x => Print.expansionHead x
  | .leave _ => [word .breakWord]
  | .next _ => [word .continueWord]
  | .give _ none => [word .returnWord]
  | .give _ (some e) => word .returnWord :: .space :: Print.expr .lowest e
  | .assert _ e => word .assert :: .space :: Print.expr .lowest e
  | .expr e => Print.expr .lowest e

/-- The tokens of a line. -/
def Piece.line (ps : List Piece) : List TokenKind := kinds ps ++ [.newline]

mutual

/-- What stands below the first line of a statement: its blocks, and `else` between them. -/
def Stmt.bodies : Stmt → List TokenKind
  | .cell c => c.bodies
  | .cond _ _ yes none => yes.linear
  | .cond _ _ yes (some no) => yes.linear ++ Piece.line [word .elseWord, sym .colon] ++ no.linear
  | .loop _ _ body => body.linear
  | .expand x => x.bodies
  | .typeAlias _ _ _ _ | .trait _ _ | .record _ | .val _ | .assign _ _ _ | .leave _ | .next _ | .give _ _ | .assert _ _
  | .expr _ => []

/-- **A statement is its first line and what stands below it**, and statements follow one another. -/
def Stmt.allLinear : List Stmt → List TokenKind
  | [] => []
  | s :: ss => Piece.line s.head ++ s.bodies ++ Stmt.allLinear ss

/-- **A block is its statements between an indent and a dedent.** -/
def Block.linear : Block → List TokenKind
  | ⟨_, ss⟩ => .indent :: Stmt.allLinear ss ++ [.dedent]

def CellDef.bodies : CellDef → List TokenKind
  | ⟨_, _, _, _, _, body⟩ => body.linear

/-- What the expansion is replaced by does not count. -/
def Expansion.bodies : Expansion → List TokenKind
  | ⟨_, _, _, _, _, body, _, _⟩ => body.linear

end

/-- **The tokens of a program in order**, and the end mark behind them. -/
def Program.linear (p : Program) : List TokenKind := Stmt.allLinear p ++ [.eof]

/-! ## Lines of a program -/

open Piece (FillsLine Whole) in
/-- **The first line of a statement that can be spelled is read back.** -/
theorem Stmt.Spellable.head : ∀ {s : Stmt}, s.Spellable → FillsLine s.head
  | .typeAlias _ _ _ _, ⟨hname, hparams, htarget⟩ => by
    have hfront := templateParams_whole ((Whole.word .type).spaced (Whole.name hname)) hparams
    simpa [Stmt.head] using (hfront.operator (s := .assign) htarget.printed rfl).fillsLine
  | .trait _ _, h => ((Whole.word .trait).spaced (Whole.name h)).fillsLine
  | .record _, h => (RecordDef.Spellable.printed h).fillsLine
  | .cell ⟨_, _, _, _, _, _⟩, ⟨hname, hparams, hargs, hret, _⟩ => cellHead_fillsLine hname hparams hargs hret
  | .val _, h => (ValDecl.Spellable.printed h).fillsLine
  | .assign _ _ e, ⟨htarget, he⟩ =>
    ((Whole.name htarget).operator (s := .assign) (Expr.Spellable.printed .lowest e he) rfl).fillsLine
  | .cond _ e _ none, h | .cond _ e _ (some _), h =>
    ((Whole.word .ifWord).spaced (Expr.Spellable.printed .lowest e h.1)).colon
  | .loop _ e _, h => ((Whole.word .whileWord).spaced (Expr.Spellable.printed .lowest e h.1)).colon
  | .expand ⟨_, _, _, _, _, _, _, _⟩, ⟨hinit, hvar, hrange, _⟩ => expansionHead_fillsLine hinit hvar hrange
  | .leave _, _ => (Whole.word .breakWord).fillsLine
  | .next _, _ => (Whole.word .continueWord).fillsLine
  | .give _ none, _ => (Whole.word .returnWord).fillsLine
  | .give _ (some e), h => ((Whole.word .returnWord).spaced (Expr.Spellable.printed .lowest e h)).fillsLine
  | .assert _ e, h => ((Whole.word .assert).spaced (Expr.Spellable.printed .lowest e h)).fillsLine
  | .expr e, h => (Expr.Spellable.printed .lowest e h).fillsLine

/-! ## Levels -/

namespace Layout

/-- The open levels inside of so many blocks. -/
def levelsAt : Nat → List Nat
  | 0 => []
  | n + 1 => 4 * (n + 1) :: levelsAt n

theorem levelsAt_length : ∀ n, (levelsAt n).length = n
  | 0 => rfl
  | n + 1 => congrArg (· + 1) (levelsAt_length n)

theorem level_levelsAt : ∀ n, level (levelsAt n) = 4 * n
  | 0 => rfl
  | _ + 1 => rfl

/-- The levels that a line leaves which begins in the column of the outer ones. -/
theorem levelsAt_left (n : Nat) : ∀ d, ∃ left, left.length = d ∧ levelsAt (n + d) = left ++ levelsAt n ∧
    (levelsAt (n + d)).takeWhile (4 * n < ·) = left
  | 0 => by
    refine ⟨[], rfl, rfl, ?_⟩
    cases n with
    | zero => rfl
    | succ n => exact List.takeWhile_cons_of_neg (by simp)
  | d + 1 => by
    obtain ⟨left, hlength, hlevels, htake⟩ := levelsAt_left n d
    refine ⟨4 * (n + d + 1) :: left, congrArg (· + 1) hlength, congrArg (_ :: ·) hlevels, ?_⟩
    have hdeeper : 4 * n < 4 * (n + d + 1) := by omega
    show (4 * (n + d + 1) :: levelsAt (n + d)).takeWhile (4 * n < ·) = _
    rw [List.takeWhile_cons, if_pos (decide_eq_true hdeeper), htake]

variable {n : Nat} {ks : List TokenKind} {s : Layout} {ps : List Piece}

/-- Inside of so many blocks, behind these tokens. -/
structure Stands (n : Nat) (ks : List TokenKind) (s : Layout) : Prop where
  depth : s.depth = 0
  levels : s.levels = levelsAt n
  kinds : kinds s.tokens.toList = ks

/-- **Inside of at least so many blocks**; behind these tokens, once the deeper ones are closed. -/
def Owes (n : Nat) (ks : List TokenKind) (s : Layout) : Prop :=
  ∃ d front, Stands (n + d) front s ∧ ks = front ++ List.replicate d .dedent

/-- A line in the column of so many blocks begins behind these tokens. -/
def Awaits (n : Nat) (ks : List TokenKind) (s : Layout) : Prop :=
  ∀ l, ∃ u, s.align l (4 * n) = .ok u ∧ Stands n ks u

theorem Stands.owes (h : Stands n ks s) : Owes n ks s := ⟨0, ks, h, (List.append_nil ks).symm⟩

/-- The end of a block is owed. -/
theorem Owes.closed (h : Owes (n + 1) ks s) : Owes n (ks ++ [.dedent]) s := by
  obtain ⟨d, front, hs, rfl⟩ := h
  refine ⟨d + 1, front, ?_, ?_⟩
  · rwa [Nat.add_right_comm] at hs
  · rw [List.append_assoc, List.replicate_succ']

/-- **A line further out pays what is owed.** -/
theorem Owes.awaits (h : Owes n ks s) : Awaits n ks s := by
  obtain ⟨d, front, ⟨hdepth, hlevels, hkinds⟩, rfl⟩ := h
  obtain ⟨left, hlength, happend, htake⟩ := levelsAt_left n d
  have hcolumn := level_levelsAt (n + d)
  intro l
  refine ⟨⟨levelsAt n, 0, s.tokens ++ left.map fun _ => (⟨.dedent, ⟨l.start, 4 * n⟩⟩ : Token)⟩, ?_, rfl, rfl, ?_⟩
  · unfold align
    dsimp only
    rw [if_neg (by omega), hlevels, if_neg (by omega), htake, happend, List.drop_left, if_pos (level_levelsAt n)]
    rw [hdepth]
  · rw [Array.toList_appendList, kinds_append, hkinds, kinds_marks, hlength]

/-- **A line one block further in opens the block.** -/
theorem Stands.opens (h : Stands n ks s) : Awaits (n + 1) (ks ++ [.indent]) s := by
  obtain ⟨hdepth, hlevels, hkinds⟩ := h
  have hcolumn := level_levelsAt n
  intro l
  refine ⟨⟨levelsAt (n + 1), 0, s.tokens.push ⟨.indent, ⟨l.start, 4 * (n + 1)⟩⟩⟩, ?_, rfl, rfl, ?_⟩
  · unfold align
    dsimp only
    rw [if_neg (by omega), hlevels, if_pos (by omega), hdepth]
    rfl
  · rw [Array.toList_push, kinds_append, hkinds]
    rfl

/-- **The printed lines lead from the one state to the other**, and none of them is broken. -/
structure Lays (ls : List PrintedLine) (s t : Layout) : Prop where
  run : (ls.map fun l => bare l.content).foldlM line s = .ok t
  unbroken : ∀ l ∈ ls, '\n' ∉ l.content

namespace Lays

variable {ls ls' : List PrintedLine} {t u : Layout}

theorem nil (s : Layout) : Lays [] s s := ⟨rfl, by simp⟩

theorem append (h : Lays ls s t) (h' : Lays ls' t u) : Lays (ls ++ ls') s u := by
  refine ⟨?_, List.forall_mem_append.2 ⟨h.unbroken, h'.unbroken⟩⟩
  rw [List.map_append, List.foldlM_append, h.run]
  exact h'.run

theorem gap (h : Lays ls s t) : Lays (.gap :: ls) s t :=
  ⟨h.run, List.forall_mem_cons.2 ⟨by simp [PrintedLine.content], h.unbroken⟩⟩

end Lays

/-- **A line of code is laid out behind the tokens that it begins behind.** -/
theorem Awaits.code (h : Awaits n ks s) (hps : Piece.FillsLine ps) :
    ∃ t, Lays [.code n ps] s t ∧ Stands n (ks ++ Piece.line ps) t := by
  have hneat := hps.toNeat
  obtain ⟨k, rest, rfl⟩ := hps.begun
  obtain ⟨u, halign, hdepth, hlevels, hkinds⟩ := h _
  obtain ⟨t, hline, ht, htdepth, htkinds⟩ := line_pieces hneat halign hdepth
  refine ⟨t, ⟨?_, List.forall_mem_singleton.2 fun hfeed => ?_⟩, htdepth, ht.trans hlevels, ?_⟩
  · rw [List.map_singleton, List.foldlM_cons]
    show s.line (bare (List.replicate (4 * n) ' ' ++ _)) >>= _ = _
    rw [hline]
    rfl
  · rcases List.mem_append.1 hfeed with hspace | hpieces
    · exact absurd (List.eq_of_mem_replicate hspace) (by decide)
    · exact absurd (Piece.printable hneat.writable _ hpieces) (by decide)
  · rw [htkinds, hkinds, Piece.line, List.append_assoc]

end Layout

/-- A line of code, and what is laid out behind it. -/
theorem Layout.Awaits.before {n : Nat} {ks more : List TokenKind} {s : Layout} {ps : List Piece} {ls : List PrintedLine}
    (hs : Awaits n ks s) (hps : Piece.FillsLine ps) (hmore : ∀ {t}, Stands n (ks ++ Piece.line ps) t →
      ∃ u, Lays ls t u ∧ Owes n (ks ++ Piece.line ps ++ more) u) :
    ∃ u, Lays (.code n ps :: ls) s u ∧ Owes n (ks ++ (Piece.line ps ++ more)) u := by
  obtain ⟨t, ht, hstands⟩ := hs.code hps
  obtain ⟨u, hu, howes⟩ := hmore hstands
  exact ⟨u, ht.append hu, by rwa [← List.append_assoc]⟩

open Layout

mutual

/-- **A statement is laid out as its tokens in order**, but for ends of blocks that it may owe. -/
theorem Stmt.laid : ∀ (st : Stmt) {n : Nat} {ks : List TokenKind} {s : Layout}, st.Spellable → Awaits n ks s →
    ∃ t, Lays (Print.stmt false n st) s t ∧ Owes n (ks ++ (Piece.line st.head ++ st.bodies)) t
  | .cell ⟨_, _, _, _, _, body⟩, _, _, _, h, hs => by
    rw [Print.stmt, Print.cell, Stmt.bodies, CellDef.bodies]
    exact hs.before (Stmt.Spellable.head h) (Block.laid body h.2.2.2.2)
  | .cond _ _ yes none, _, _, _, h, hs => by
    rw [Print.stmt, Stmt.bodies]
    exact hs.before (Stmt.Spellable.head h) (Block.laid yes h.2)
  | .cond _ _ yes (some no), _, _, _, h, hs => by
    have helse : Piece.FillsLine [word .elseWord, sym .colon] := (Piece.Whole.word .elseWord).colon
    obtain ⟨t, ht, howes⟩ := hs.before (Stmt.Spellable.head h) (Block.laid yes h.2.1)
    obtain ⟨u, hu, howes'⟩ := howes.awaits.before helse (Block.laid no h.2.2)
    rw [Print.stmt, Stmt.bodies]
    refine ⟨u, ht.append hu, ?_⟩
    simpa using howes'
  | .loop _ _ body, _, _, _, h, hs => by
    rw [Print.stmt, Stmt.bodies]
    exact hs.before (Stmt.Spellable.head h) (Block.laid body h.2)
  | .expand ⟨_, _, _, _, _, body, _, _⟩, _, _, _, h, hs => by
    rw [Print.stmt, Print.expansion, if_neg Bool.false_ne_true, List.append_nil, Stmt.bodies, Expansion.bodies]
    exact hs.before (Stmt.Spellable.head h) (Block.laid body h.2.2.2)
  | .typeAlias _ _ _ _, _, _, _, h, hs | .trait _ _, _, _, _, h, hs | .record _, _, _, _, h, hs | .val _, _, _, _, h, hs
  | .assign _ _ _, _, _, _, h, hs | .leave _, _, _, _, h, hs | .next _, _, _, _, h, hs | .give _ none, _, _, _, h, hs
  | .give _ (some _), _, _, _, h, hs | .assert _ _, _, _, _, h, hs | .expr _, _, _, _, h, hs => by
    rw [Print.stmt, Stmt.bodies]
    exact hs.before (Stmt.Spellable.head h) fun {t} ht => ⟨t, .nil t, by simpa using ht.owes⟩

/-- **Statements are laid out one after the other**: each pays what the one before it owes. -/
theorem Stmt.allLaid : ∀ (ss : List Stmt) {n : Nat} {ks : List TokenKind} {s : Layout}, ss ≠ [] →
    Stmt.AllSpellable ss → Awaits n ks s →
    ∃ t, Lays (Print.stmts false n ss) s t ∧ Owes n (ks ++ Stmt.allLinear ss) t
  | [], _, _, _, hne, _, _ => absurd rfl hne
  | [st], _, _, _, _, h, hs => by
    have hst := Stmt.laid st h.1 hs
    simpa [Print.stmts, Stmt.allLinear] using hst
  | st :: st' :: ss, _, _, _, _, h, hs => by
    obtain ⟨t, ht, howes⟩ := Stmt.laid st h.1 hs
    obtain ⟨u, hu, howes'⟩ := Stmt.allLaid (st' :: ss) (List.cons_ne_nil _ _) h.2 howes.awaits
    refine ⟨u, ht.append hu, ?_⟩
    rwa [List.append_assoc] at howes'

/-- **A block is laid out inside of the blocks around it**, and leaves its end owed. -/
theorem Block.laid : ∀ (b : Block) {n : Nat} {ks : List TokenKind} {s : Layout}, b.Spellable → Stands n ks s →
    ∃ t, Lays (Print.block false (n + 1) b) s t ∧ Owes n (ks ++ b.linear) t
  | ⟨_, ss⟩, _, _, _, h, hs => by
    obtain ⟨t, ht, howes⟩ := Stmt.allLaid ss h.1 h.2 hs.opens
    refine ⟨t, ht, ?_⟩
    have hclosed := howes.closed
    rw [Block.linear]
    simpa using hclosed

end

/-- Empty lines between the statements of a program change nothing. -/
theorem program_laid : ∀ (p : Program) {ks : List TokenKind} {s : Layout}, Stmt.AllSpellable p → Owes 0 ks s →
    ∃ t, Lays (Print.program false p) s t ∧ Owes 0 (ks ++ Stmt.allLinear p) t
  | [], ks, s, _, hs => ⟨s, .nil s, by rwa [Stmt.allLinear, List.append_nil]⟩
  | [st], _, _, h, hs => by
    have hst := Stmt.laid st h.1 hs.awaits
    simpa [Print.program, Stmt.allLinear] using hst
  | st :: st' :: ss, _, _, h, hs => by
    obtain ⟨t, ht, howes⟩ := Stmt.laid st h.1 hs.awaits
    obtain ⟨u, hu, howes'⟩ := program_laid (st' :: ss) h.2 howes
    refine ⟨u, ht.append hu.gap, ?_⟩
    rwa [List.append_assoc] at howes'

/-- **What is printed of a program that can be spelled is read in its lines.** -/
theorem tokens_print {p : Program} (h : Stmt.AllSpellable p) :
    ∃ ts, tokens p.print = .ok ts ∧ kinds ts = p.linear := by
  have hstart : Owes 0 [] start := Stands.owes ⟨rfl, rfl, rfl⟩
  obtain ⟨t, ht, d, front, ⟨hdepth, hlevels, hfront⟩, hlinear⟩ := program_laid p h hstart
  obtain ⟨us, hus, hkinds⟩ := finish_kinds hdepth 0
  have hread : Layout.ofLines ((Print.program false p).map PrintedLine.content ++ [[]]) = .ok us := by
    have hrun : ((Print.program false p).map (bare ∘ PrintedLine.content)).foldlM line start = .ok t := ht.run
    unfold Layout.ofLines
    rw [List.map_append, List.map_map, List.foldlM_append, hrun]
    exact hus
  have hlines := (tokens_ofLines p.print).symm
  rw [Program.print, PrintedLine.render_lines ht.unbroken] at hlines
  obtain ⟨ts, hts, hsame⟩ := hlines.of_ok hread
  refine ⟨ts, hts, Eq.trans hsame ?_⟩
  rw [hkinds, hfront, hlevels, levelsAt_length, Nat.zero_add, ← hlinear, List.nil_append, Program.linear]

/-! ## Programs that have been read -/

namespace Grammar

theorem recover_suffix (c : Cursor) : (recover c).rest <:+ c.rest := by
  unfold recover
  dsimp only
  split
  · rename_i t after hrest
    have hsuffix : t :: after <:+ c.rest := hrest ▸ List.dropWhile_suffix _
    split
    · exact hrest ▸ hsuffix
    · exact (List.suffix_cons t after).trans hsuffix
  · exact List.dropWhile_suffix _

/-- **What is read in spite of errors can be spelled too.** -/
theorem recovering_spellable {bound : Nat} : ∀ (n : Nat) {c : Cursor}, c.Readable → c.rest.length ≤ bound →
    Stmt.AllSpellable (recovering bound n c).1
  | 0, _, _, _ => trivial
  | n + 1, c, hc, hb => by
    unfold recovering
    cases hround : round bound c with
    | ended => trivial
    | read s c' =>
      obtain ⟨ts, hts, -⟩ := read_passes hb hround
      have hlength := hts.length
      have hpast : (pastLines c).Readable := hc.of_suffix (List.dropWhile_suffix _)
      obtain ⟨hc', hs⟩ := stmt_gives bound _ s c' hpast (round_read.1 hround).2
      exact ⟨hs, recovering_spellable n hc' (by omega)⟩
    | failed e stopped =>
      obtain ⟨ts, hts, -⟩ := failed_reads hb hround
      have hsuffix := (recover_suffix stopped).trans ⟨ts, hts.symm⟩
      exact recovering_spellable n (hc.of_suffix hsuffix) (Nat.le_trans hsuffix.length_le hb)

end Grammar

/-- **Printed programs are read in their lines.**  The text of a program that was read, even in spite of errors, is
read again as the tokens of its lines in order: each line has one line end behind it, each block stands between an
indent and a dedent, and no two tokens run into one or into a comment. -/
theorem program_print_linear {source : String} {edition : Option String} {p : Program}
    (h : Source.program source edition = .ok p ∨ ∃ errors, Source.recovered source = .ok (p, errors)) :
    ∃ ts, tokens p.print = .ok ts ∧ kinds ts = p.linear := by
  refine tokens_print ?_
  obtain h | ⟨errors, h⟩ := h
  · exact source_spellable h
  · unfold Source.recovered Source.tokens at h
    simp only [Outcome.except_bind_ok, Outcome.except_pure_ok] at h
    obtain ⟨ts, hts, hp⟩ := h
    have hspellable : Stmt.AllSpellable (Grammar.recovering ts.length ts.length (.ofTokens ts)).1 :=
      Grammar.recovering_spellable ts.length (tokens_readable (mapError_ok hts)) (Nat.le_refl _)
    have hread : (Grammar.recovering ts.length ts.length (.ofTokens ts)).1 = p := congrArg Prod.fst hp
    rwa [hread] at hspellable

/-- Declarations and an expansion, with signs behind one another, a mark of a comment inside a string, and blocks that end
together. -/
def tight : String :=
  "type A<T> =[T;2]\ntype R=record\x7ba:int,priv b:A<R>\x7d\ncell f<T>(x:T)->int:\n val z:int=- -1 # c\n expand val i=1;val w in\x7bx,\"#\"\x7d:\n  if i<z:\n   p(w)\n  else:\n   g::<4>((1+i)*2)"

/-- The same, as it is printed. -/
def loose : String :=
  "type A<T> = [T; 2]\n\ntype R = record \x7b a: int, priv b: A<R> \x7d\n\ncell f<T>(x: T) -> int:\n    val z: int = --1\n    expand val i = 1; val w in \x7bx, \"#\"\x7d:\n        if i < z:\n            p(w)\n        else:\n            g::<4>((1 + i) * 2)\n"

theorem program_print_linear_tight : ∃ p ts, Source.program tight none = .ok p ∧ p.print = loose ∧
    tokens p.print = .ok ts ∧ kinds ts = p.linear := by
  have hprinted : (Source.program tight none).toOption.map Program.print = some loose := by decide +kernel
  cases hp : Source.program tight none with
  | error e =>
    rw [hp] at hprinted
    cases hprinted
  | ok p =>
    rw [hp] at hprinted
    obtain ⟨ts, hts, hlinear⟩ := program_print_linear (.inl hp)
    exact ⟨p, ts, rfl, Option.some.inj hprinted, hts, hlinear⟩

end Unroll
