import Mathlib.Data.List.DropRight
import Unroll.Grammar.Program
import Unroll.Proofs.Grammar.Sound
import Unroll.Proofs.Grammar.Complete
/-!
# Reading accepts exactly the grammar

A list of tokens with its end mark is read as an expression where, and only where, the tokens before the trailing line
ends and the mark spell it.
-/
namespace Unroll.Grammar

open Parse Cursor Outcome

/-- The tokens before the line ends that close the list. -/
def written (tokens : List Token) : List Token := tokens.rdropWhile (·.kind = .newline)

/-- What comes before line ends is all that is written, where it has none of its own. -/
theorem written_append {ts breaks : List Token} (hts : ∀ t ∈ ts, t.kind ≠ .newline)
    (hbreaks : ∀ t ∈ breaks, t.kind = .newline) : written (ts ++ breaks) = ts := by
  induction breaks using List.reverseRecOn with
  | nil =>
    rw [List.append_nil, written, List.rdropWhile_eq_self_iff]
    intro hl
    simpa using hts _ (List.getLast_mem hl)
  | append_singleton breaks t ih =>
    rw [← List.append_assoc, written, List.rdropWhile_concat_pos _ _ _ (by simpa using hbreaks t (by simp))]
    exact ih fun u hu => hbreaks u (by simp [hu])

/-- The end mark stands only at the end. -/
theorem eq_of_append_stop {ts ds front : List Token} {d stop : Token} (hfront : ∀ t ∈ front, t.kind ≠ .eof)
    (hd : d.kind = .eof) (h : ts ++ d :: ds = front ++ [stop]) : ts = front := by
  obtain ⟨us, rfl, hus⟩ | ⟨us, rfl, hus⟩ := List.append_eq_append_iff.1 h
  · cases us with
    | nil => simp
    | cons u us =>
      cases hus
      exact absurd hd (hfront d (by simp))
  · cases us with
    | nil => simp
    | cons u us => simp at hus

theorem run_ok {α : Type} {p : Nat → Parse α} {tokens : List Token} {a : α} :
    run p tokens = .ok a ↔ ∃ c, p tokens.length (.ofTokens tokens) = .ok a c := by
  unfold run
  cases p tokens.length (.ofTokens tokens) with
  | ok b c => simp
  | error e c => simp

/-- An expression up to the end is an expression that only line ends keep from the end mark. -/
theorem exprToEnd_ok {n : Nat} {c c'' : Cursor} {e : Expr} :
    exprToEnd n c = .ok e c'' ↔ ∃ c', expr n c = .ok e c' ∧
      c'' = { c' with rest := c'.rest.dropWhile (·.kind = .newline) } ∧ c''.kind? = some .eof := by
  unfold exprToEnd skipNewlines
  constructor
  · intro h
    obtain ⟨e', c', he, h⟩ := bind_ok.1 h
    obtain ⟨_, _, hskip, h⟩ := bind_ok.1 h
    cases modify_ok.1 hskip
    rw [sees_bind] at h
    split at h
    · rename_i heof
      obtain ⟨rfl, rfl⟩ := pure_ok.1 h
      exact ⟨c', he, rfl, by simpa using heof⟩
    · obtain ⟨_, _, _, h⟩ := bind_ok.1 h
      exact absurd h fail_ok
  · rintro ⟨c', he, rfl, heof⟩
    rw [bind_of_ok he, bind_of_ok ((modify_ok (u := ())).2 rfl), sees_bind, heof]
    rfl

section

variable {front : List Token} {stop : Token}

/-- Tokens that are read spell what they are read as. -/
theorem spelled_of_read {e : Expr} (hfront : ∀ u ∈ front, u.kind ≠ .eof) (h : expr? (front ++ [stop]) = .ok e) :
    Spells ((written front).map (·.kind)) (.expr .lowest e.unplaced) := by
  obtain ⟨_, hend⟩ := run_ok.1 h
  obtain ⟨c, he, rfl, heof⟩ := exprToEnd_ok.1 hend
  obtain ⟨ks, hpast, hs⟩ := expr_reads _ _ e c he
  obtain ⟨ts, rfl, hts⟩ := past_iff.1 hpast
  have hrest : front ++ [stop] = ts ++ c.rest := congrArg Cursor.rest hts
  have hnewline : ∀ t ∈ ts, t.kind ≠ .newline := fun t ht hk => hs.no_newline (hk ▸ List.mem_map_of_mem ht)
  have hbreaks : ∀ t ∈ c.rest.takeWhile (·.kind = .newline), t.kind = .newline := fun t ht => by
    simpa using List.mem_takeWhile_imp ht
  have hfound : ts ++ c.rest.takeWhile (·.kind = .newline) = front := by
    cases hd : c.rest.dropWhile (·.kind = .newline) with
    | nil =>
      rw [hd] at heof
      cases heof
    | cons d ds =>
      rw [hd] at heof
      have hall : ts ++ c.rest.takeWhile (·.kind = .newline) ++ d :: ds = front ++ [stop] := by
        rw [List.append_assoc, ← hd, List.takeWhile_append_dropWhile, hrest]
      exact eq_of_append_stop hfront (Option.some.inj heof) hall
  rw [← hfound, written_append hnewline hbreaks]
  exact hs

/-- Tokens that spell a tree are read as it. -/
theorem read_of_spelled {t : Expr} (hstop : stop.kind = .eof)
    (hs : Spells ((written front).map (·.kind)) (.expr .lowest t)) :
    ∃ e, expr? (front ++ [stop]) = .ok e ∧ e.unplaced = t := by
  have hfront : written front ++ front.rtakeWhile (·.kind = .newline) = front := List.rdropWhile_append_rtakeWhile
  have hbreaks : ∀ t ∈ front.rtakeWhile (·.kind = .newline), t.kind = .newline := fun t ht => by
    simpa using List.mem_rtakeWhile_imp ht
  generalize front.rtakeWhile (·.kind = .newline) = breaks at hfront hbreaks
  obtain ⟨last, hlast⟩ : ∃ last, Cursor.ofTokens (front ++ [stop]) = ⟨front ++ [stop], last⟩ := ⟨_, rfl⟩
  have hpast : Past ((written front).map (·.kind)) (.ofTokens (front ++ [stop])) ⟨breaks ++ [stop], last⟩ := by
    refine past_iff.2 ⟨written front, rfl, ?_⟩
    rw [hlast, ← List.append_assoc, hfront]
  have hends : Ends 0 ⟨breaks ++ [stop], last⟩ := by
    cases breaks with
    | nil => exact .of_kind? (congrArg some hstop) (Nat.le_refl 0)
    | cons b bs => exact .of_kind? (congrArg some (hbreaks b (by simp))) (Nat.le_refl 0)
  obtain ⟨e, rfl, he⟩ := hs.readable.expr hs hpast (Nat.le_refl _) hends
  have hskip : (breaks ++ [stop]).dropWhile (·.kind = .newline) = [stop] := by
    rw [List.dropWhile_append_of_pos (by simpa using hbreaks)]
    simp [hstop]
  refine ⟨e, run_ok.2 ⟨_, exprToEnd_ok.2 ⟨_, he, rfl, ?_⟩⟩, rfl⟩
  rw [hskip]
  exact congrArg some hstop

/-- **The expression reader accepts exactly its grammar**: with the end mark behind tokens that have none, the tokens
are read as a tree, up to places, where they spell it once the line ends behind them are left out, and only there. -/
theorem expr_read_iff_spelled {t : Expr} (hfront : ∀ u ∈ front, u.kind ≠ .eof) (hstop : stop.kind = .eof) :
    (∃ e, expr? (front ++ [stop]) = .ok e ∧ e.unplaced = t) ↔
      Spells ((written front).map (·.kind)) (.expr .lowest t) := by
  constructor
  · rintro ⟨e, he, rfl⟩
    exact spelled_of_read hfront he
  · exact read_of_spelled hstop

end

/-- The kinds in `(f)::<T, n * 2>(-a[0],) < R {y: true}.y`. -/
def callKinds : List TokenKind :=
  [.symbol .lparen, .name "f", .symbol .rparen, .symbol .pathSep, .symbol .lt, .name "T", .symbol .comma, .name "n",
    .symbol .star, .int 2, .symbol .gt, .symbol .lparen, .symbol .minus, .name "a", .symbol .lbracket, .int 0,
    .symbol .rbracket, .symbol .comma, .symbol .rparen, .symbol .lt, .name "R", .symbol .lbrace, .name "y",
    .symbol .colon, .keyword .trueWord, .symbol .rbrace, .symbol .dot, .name "y"]

/-- The tokens of `callKinds` and a line end. -/
def callTokens : List Token := (callKinds ++ [TokenKind.newline]).map (Token.mk · nowhere)

/-- What `callKinds` spells. -/
def callTree : Expr :=
  .binary nowhere
    (.call nowhere (bareName "f")
      [.type (.named nowhere (bareName "T") []),
        .value (.binary nowhere (.name nowhere (bareName "n")) .mul (.int nowhere 2))]
      [.unary nowhere .neg (.index nowhere (.name nowhere (bareName "a")) (.int nowhere 0))])
    .lt
    (.member nowhere (.record nowhere (bareName "R") [(bareName "y", .bool nowhere true)]) (bareName "y"))

theorem expr_read_iff_spelled_call :
    (∀ u ∈ callTokens, u.kind ≠ .eof) ∧ (Token.mk .eof nowhere).kind = .eof ∧ Spells callKinds (.expr .lowest callTree) := by
  have hfront : ∀ u ∈ callTokens, u.kind ≠ .eof := by decide
  have hwritten : (written callTokens).map (·.kind) = callKinds := by decide +kernel
  refine ⟨hfront, rfl, ?_⟩
  rw [← hwritten]
  exact (@expr_read_iff_spelled callTokens ⟨.eof, nowhere⟩ callTree hfront rfl).1 ⟨_, rfl, rfl⟩

/-- **The grammar is not ambiguous**: what tokens spell at a level is one tree. -/
theorem Spells.unique {ks : List TokenKind} {level : Prec} {t t' : Expr} (h : Spells ks (.expr level t))
    (h' : Spells ks (.expr level t')) : t = t' := by
  have hpast : Past ks ⟨ks.map (Token.mk · nowhere), nowhere⟩ ⟨[], nowhere⟩ := by
    refine past_iff.2 ⟨ks.map (Token.mk · nowhere), ?_, by simp⟩
    simp [Function.comp_def]
  have hends : Ends (level.rank - 1) ⟨[], nowhere⟩ := fun k hk => by cases hk
  obtain ⟨e, rfl, he⟩ := h.readable.reader hpast (Nat.le_succ _) hends
  obtain ⟨e', rfl, he'⟩ := h'.readable.reader hpast (Nat.le_succ _) hends
  cases he.symm.trans he'
  rfl

end Unroll.Grammar
