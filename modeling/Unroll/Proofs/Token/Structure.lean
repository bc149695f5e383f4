import Mathlib.Data.List.Chain
import Unroll.Proofs.Token.Order
/-!
# The structure of the tokens of a text

Blocks open and close like brackets, and nothing of layout stands inside a bracket.  What a token asks of the tokens
before it is said once (`MayFollow`); the tokens of a text grow by such tokens only (`Laid`), and everything about them
as a whole is read off from that.
-/
namespace Unroll

namespace TokenKind

/-- What the token adds to the number of open brackets. -/
def bracketDelta : TokenKind → Int
  | symbol .lparen | symbol .lbrace | symbol .lbracket => 1
  | symbol .rparen | symbol .rbrace | symbol .rbracket => -1
  | _ => 0

theorem bracketDelta_layout {k : TokenKind} (h : k.isLayout = true) : k.bracketDelta = 0 := by
  cases k <;> first | rfl | cases h

theorem depthAfter_some {k : TokenKind} {depth d : Nat} (h : k.depthAfter depth = some d) :
    (d : Int) = depth + k.bracketDelta := by
  cases k with
  | symbol s =>
    cases s <;> simp only [depthAfter, bracketDelta, Option.some.injEq] at h ⊢
    case rparen | rbrace | rbracket => cases depth <;> cases h; omega
    all_goals omega
  | _ =>
    cases h
    exact (Int.add_zero _).symm

end TokenKind

namespace Layout

def marks (k : TokenKind) (ts : List Token) : Nat := ts.countP (·.kind = k)

/-- The number of brackets open after the tokens, below zero where more are closed than opened. -/
def bracketDepth : List Token → Int
  | [] => 0
  | t :: ts => t.kind.bracketDelta + bracketDepth ts

theorem marks_append (k : TokenKind) (ts us : List Token) : marks k (ts ++ us) = marks k ts + marks k us :=
  List.countP_append

theorem bracketDepth_append (ts us : List Token) : bracketDepth (ts ++ us) = bracketDepth ts + bracketDepth us := by
  induction ts with
  | nil => exact (Int.zero_add _).symm
  | cons t ts ih =>
    show t.kind.bracketDelta + bracketDepth (ts ++ us) = t.kind.bracketDelta + bracketDepth ts + bracketDepth us
    rw [ih, Int.add_assoc]

theorem marks_content {k : TokenKind} {t : Token} (hk : k.isLayout = true) (ht : t.kind.isLayout = false) :
    marks k [t] = 0 := by
  refine List.countP_eq_zero.2 fun u hu hsame => ?_
  rw [List.mem_singleton.1 hu] at hsame
  rw [← of_decide_eq_true hsame, ht] at hk
  cases hk

/-- **What a token asks of the tokens before it.** -/
structure MayFollow (pre : List Token) (t : Token) : Prop where
  blocks : marks .dedent (pre ++ [t]) ≤ marks .indent (pre ++ [t])
  brackets : 0 ≤ bracketDepth (pre ++ [t])
  level : t.kind.isLayout = true → bracketDepth pre = 0
  newline : t.kind = .newline → ∃ u, pre.getLast? = some u ∧ u.kind.isLayout = false
  indent : t.kind = .indent → ∀ u, pre.getLast? = some u → u.kind = .newline
  indented : ∀ u, pre.getLast? = some u → u.kind = .indent → t.kind.isLayout = false

/-- Every token may follow those before it. -/
inductive Laid : List Token → Prop
  | nil : Laid []
  | push {ts : List Token} {t : Token} : Laid ts → MayFollow ts t → Laid (ts ++ [t])

namespace Laid

variable {ts : List Token} {t : Token}

theorem blocks (h : Laid ts) : marks .dedent ts ≤ marks .indent ts := by
  cases h with
  | nil => exact Nat.le_refl _
  | push _ ht => exact ht.blocks

theorem brackets (h : Laid ts) : 0 ≤ bracketDepth ts := by
  cases h with
  | nil => exact Int.le_refl _
  | push _ ht => exact ht.brackets

theorem of_prefix {front : List Token} (h : Laid ts) (hfront : front <+: ts) : Laid front := by
  induction h with
  | nil =>
    rw [List.prefix_nil.1 hfront]
    exact .nil
  | push hts ht ih =>
    obtain rfl | hfront := List.prefix_concat_iff.1 hfront
    · exact .push hts ht
    · exact ih hfront

theorem mayFollow {pre post : List Token} (h : Laid (pre ++ t :: post)) : MayFollow pre t := by
  have hfront : Laid (pre ++ [t]) := h.of_prefix ⟨post, by simp⟩
  generalize hts : pre ++ [t] = ts at hfront
  cases hfront with
  | nil => simp at hts
  | push _ ht =>
    obtain ⟨rfl, hlast⟩ := List.append_inj' hts rfl
    cases hlast
    exact ht

end Laid

/-- What is left to close behind the tokens: so many blocks, and so many brackets. -/
structure Leaves (ts : List Token) (blocks depth : Nat) : Prop where
  laid : Laid ts
  blocks : marks .indent ts = marks .dedent ts + blocks
  depth : bracketDepth ts = depth

namespace Leaves

variable {ts : List Token} {t : Token} {span : Span} {blocks depth : Nat}

theorem nil : Leaves [] 0 0 := ⟨.nil, rfl, rfl⟩

/-- What is no layout may stand anywhere. -/
theorem content {d : Nat} (h : Leaves ts blocks depth) (ht : t.kind.isLayout = false)
    (hd : t.kind.depthAfter depth = some d) : Leaves (ts ++ [t]) blocks d := by
  have hblocks : marks .indent (ts ++ [t]) = marks .dedent (ts ++ [t]) + blocks := by
    rw [marks_append, marks_append, marks_content rfl ht, marks_content rfl ht]
    exact h.blocks
  have hdepth : bracketDepth (ts ++ [t]) = d := by
    rw [bracketDepth_append, h.depth, TokenKind.depthAfter_some hd]
    simp [bracketDepth]
  refine ⟨.push h.laid ⟨by omega, by omega, fun hl => ?_, fun hk => ?_, fun hk => ?_, fun _ _ _ => ht⟩, hblocks, hdepth⟩
  all_goals first | rw [hl] at ht | rw [hk] at ht
  all_goals cases ht

/-- Layout stands outside of brackets, and not behind an indent. -/
theorem mark {after : Nat} (h : Leaves ts blocks 0) (hlayout : t.kind.isLayout = true)
    (hafter : marks .indent [t] + blocks = marks .dedent [t] + after)
    (hnewline : t.kind = .newline → ∃ u, ts.getLast? = some u ∧ u.kind.isLayout = false)
    (hindent : t.kind = .indent → ∀ u, ts.getLast? = some u → u.kind = .newline)
    (hlast : ∀ u, ts.getLast? = some u → u.kind ≠ .indent) : Leaves (ts ++ [t]) after 0 := by
  have hblocks : marks .indent (ts ++ [t]) = marks .dedent (ts ++ [t]) + after := by
    have hbefore := h.blocks
    rw [marks_append, marks_append]
    omega
  have hdepth : bracketDepth (ts ++ [t]) = 0 := by
    rw [bracketDepth_append, h.depth]
    simpa [bracketDepth] using TokenKind.bracketDelta_layout hlayout
  exact ⟨.push h.laid ⟨by omega, by omega, fun _ => h.depth, hnewline, hindent,
    fun u hu hk => absurd hk (hlast u hu)⟩, hblocks, hdepth⟩

theorem newline {u : Token} (h : Leaves ts blocks 0) (hu : ts.getLast? = some u) (hcontent : u.kind.isLayout = false) :
    Leaves (ts ++ [⟨.newline, span⟩]) blocks 0 := by
  refine h.mark rfl rfl (fun _ => ⟨u, hu, hcontent⟩) nofun fun v hv hk => ?_
  cases hu.symm.trans hv
  rw [hk] at hcontent
  cases hcontent

theorem indent (h : Leaves ts blocks 0) (hended : ∀ u, ts.getLast? = some u → u.kind = .newline) :
    Leaves (ts ++ [⟨.indent, span⟩]) (blocks + 1) 0 := by
  refine h.mark rfl ?_ nofun (fun _ => hended) fun u hu hk => ?_
  · show 1 + blocks = 0 + (blocks + 1)
    omega
  · cases (hended u hu).symm.trans hk

/-- As many dedents as one likes, up to the blocks that are open. -/
theorem closing (span : Span) : ∀ {n : Nat} {ts : List Token}, Leaves ts (blocks + n) 0 →
    (∀ u, ts.getLast? = some u → u.kind ≠ .indent) →
    Leaves (ts ++ List.replicate n (⟨.dedent, span⟩ : Token)) blocks 0 ∧
      ∀ u, (ts ++ List.replicate n (⟨.dedent, span⟩ : Token)).getLast? = some u → u.kind ≠ .indent
  | 0, ts, h, hlast => by
    rw [List.replicate_zero, List.append_nil]
    exact ⟨h, hlast⟩
  | n + 1, ts, h, hlast => by
    have hone : Leaves (ts ++ [⟨.dedent, span⟩]) (blocks + n) 0 := by
      refine h.mark rfl ?_ nofun nofun hlast
      show 0 + (blocks + (n + 1)) = 1 + (blocks + n)
      omega
    rw [List.replicate_succ, List.append_cons]
    refine closing span hone fun u hu => ?_
    rw [List.getLast?_concat] at hu
    cases hu
    simp

end Leaves

/-! ## From line to line -/

theorem scanLine_content : ∀ {cs : List Char} {depth start : Nat} {ts : List Token} {d : Nat},
    scanLine depth start cs = .ok (ts, d) → ∀ t ∈ ts, t.kind.isLayout = false := by
  intro cs depth start
  fun_induction scanLine depth start cs with
  | case1 =>
    intro ts d h
    cases h
    simp
  | case2 depth start c rest hsep ih => exact ih
  | case3 => simp
  | case4 => simp
  | case5 => simp
  | case6 depth start c rest _ n span kind _ _ tokens _ hrest hscan =>
    rename_i ih
    intro ts d h
    cases h
    exact List.forall_mem_cons.2 ⟨Lexeme.scan_content (congrArg Prod.fst hscan), ih hrest⟩

/-- A line that says something has a token: what separates tokens is blank. -/
theorem scanLine_nil {cs : List Char} {depth start d : Nat} (h : scanLine depth start cs = .ok ([], d)) :
    cs.all Text.isBlank = true := by
  fun_induction scanLine depth start cs with
  | case1 => rfl
  | case2 depth start c rest hsep ih =>
    have hblank : Text.isBlank c = true := by
      simp only [Lexeme.isSeparator, Bool.or_eq_true, beq_iff_eq] at hsep
      obtain (rfl | rfl) | rfl := hsep <;> rfl
    rw [List.all_cons, hblank, ih h]
    rfl
  | case3 => cases h
  | case4 => cases h
  | case5 => cases h
  | case6 => cases h

theorem scanLine_leaves : ∀ {cs : List Char} {depth start blocks : Nat} {pre ts : List Token} {d : Nat},
    scanLine depth start cs = .ok (ts, d) → Leaves pre blocks depth → Leaves (pre ++ ts) blocks d := by
  intro cs depth start
  fun_induction scanLine depth start cs with
  | case1 =>
    intro blocks pre ts d h hpre
    cases h
    rwa [List.append_nil]
  | case2 depth start c rest hsep ih =>
    intro blocks pre ts d h
    exact ih h
  | case3 => simp
  | case4 => simp
  | case5 => simp
  | case6 depth start c rest _ n span kind d hd tokens _ hrest hscan =>
    rename_i ih
    intro blocks pre ts _ h hpre
    cases h
    rw [List.append_cons]
    exact ih hrest (hpre.content (Lexeme.scan_content (congrArg Prod.fst hscan)) hd)

/-- What layout keeps of the lines read so far is what their tokens leave to close. -/
def Tallied (s : Layout) : Prop := Leaves s.tokens.toList s.levels.length s.depth

/-- Outside of brackets the last line has been ended. -/
def Rested (s : Layout) : Prop := s.depth = 0 → ∀ u, s.tokens.toList.getLast? = some u → u.kind = .newline

variable {s t : Layout} {l : Line}

theorem Rested.no_indent (hr : s.Rested) (hzero : s.depth = 0) {u : Token} (hu : s.tokens.toList.getLast? = some u) :
    u.kind ≠ .indent := by
  rw [hr hzero u hu]
  simp

theorem align_tallied {column : Nat} (h : s.align l column = .ok t) (hs : s.Tallied) (hr : s.Rested) : t.Tallied := by
  unfold align at h
  split at h
  · cases h
    exact hs
  · have hzero : s.depth = 0 := by omega
    unfold Tallied at hs ⊢
    rw [hzero] at hs
    dsimp only at h
    split at h
    · cases h
      rw [Array.toList_push, hzero]
      exact hs.indent (hr hzero)
    · split at h
      · cases h
        generalize hleft : s.levels.takeWhile (column < ·) = left at *
        have hfew : left.length ≤ s.levels.length := hleft ▸ (List.takeWhile_prefix _).length_le
        have hsplit : s.levels.length = (s.levels.drop left.length).length + left.length := by
          rw [List.length_drop]
          omega
        rw [hsplit] at hs
        rw [Array.toList_appendList, List.map_const', hzero]
        exact (hs.closing _ fun u hu => hr.no_indent hzero hu).1
      · cases h

theorem line_tallied (h : s.line l = .ok t) (hs : s.Tallied) (hr : s.Rested) : t.Tallied ∧ t.Rested := by
  unfold line at h
  split at h
  · cases h
    exact ⟨hs, hr⟩
  · split at h
    · cases h
    · split at h
      · cases h
        exact ⟨hs, hr⟩
      · rename_i hcode
        simp only [Outcome.except_bind_ok, Outcome.except_pure_ok] at h
        obtain ⟨u, hu, ⟨ts, d⟩, hts, rfl⟩ := h
        have hline : Leaves (u.tokens.toList ++ ts) u.levels.length d := scanLine_leaves hts (align_tallied hu hs hr)
        obtain ⟨last, hlast⟩ : ∃ last, ts.getLast? = some last := by
          refine Option.ne_none_iff_exists'.1 fun hnone => hcode ?_
          rw [List.getLast?_eq_none_iff] at hnone
          subst hnone
          exact scanLine_nil hts
        have hcontent := scanLine_content hts last (List.mem_of_getLast? hlast)
        have hend : (u.tokens.toList ++ ts).getLast? = some last := by
          rw [List.getLast?_append, hlast]
          rfl
        rw [← Array.toList_appendList] at hline hend
        unfold Tallied Rested
        dsimp only
        split
        · rename_i hzero
          rw [hzero] at hline ⊢
          rw [Array.toList_push]
          refine ⟨hline.newline hend hcontent, fun _ v hv => ?_⟩
          rw [List.getLast?_concat] at hv
          cases hv
          rfl
        · rename_i hopen
          exact ⟨hline, fun hzero => absurd hzero hopen⟩

theorem lines_tallied : ∀ {ls : List Line} {s t : Layout}, ls.foldlM line s = .ok t → s.Tallied → s.Rested →
    t.Tallied ∧ t.Rested
  | [], s, t, h, hs, hr => by
    cases h
    exact ⟨hs, hr⟩
  | l :: ls, s, t, h, hs, hr => by
    rw [List.foldlM_cons] at h
    simp only [Outcome.except_bind_ok] at h
    obtain ⟨u, hu, h⟩ := h
    obtain ⟨hu, hru⟩ := line_tallied hu hs hr
    exact lines_tallied h hu hru

/-- The end closes the blocks that are open. -/
theorem finish_leaves {stop : Nat} {ts : List Token} (h : s.finish stop = .ok ts) (hs : s.Tallied) (hr : s.Rested) :
    Leaves ts 0 0 := by
  unfold finish at h
  dsimp only at h
  split at h
  · cases h
  · cases h
    have hzero : s.depth = 0 := by omega
    unfold Tallied at hs
    rw [hzero, ← Nat.zero_add s.levels.length] at hs
    obtain ⟨hclosed, hlast⟩ := hs.closing ⟨stop, 0⟩ fun u hu => hr.no_indent hzero hu
    rw [List.map_const']
    exact hclosed.mark rfl rfl nofun nofun hlast

end Layout

open Layout

theorem tokens_leaves {source : String} {ts : List Token} (h : tokens source = .ok ts) : Leaves ts 0 0 := by
  unfold tokens at h
  simp only [Outcome.except_bind_ok] at h
  obtain ⟨s, hs, h⟩ := h
  obtain ⟨hs, hr⟩ := lines_tallied hs .nil fun _ u hu => by cases hu
  exact finish_leaves h hs hr

/-- Something has to come behind an indent. -/
def Token.MayOpen (t u : Token) : Prop := t.kind = .indent → u.kind.isLayout = false

theorem tokens_opened {source : String} {ts : List Token} (h : tokens source = .ok ts) : ts.IsChain Token.MayOpen := by
  rw [List.isChain_iff_forall_rel_of_append_cons_cons]
  rintro t u pre post rfl hk
  have hlaid := (tokens_leaves h).laid
  rw [List.append_cons] at hlaid
  exact hlaid.mayFollow.indented t List.getLast?_concat hk

/-- **A text has its tokens in blocks.**  The end mark is the last of them and only that; blocks are closed as they are
opened, and brackets too; layout stands outside of all brackets; a line ends behind something, and a block begins with
something, at the start or on a line of its own. -/
structure Structured (ts : List Token) : Prop where
  ended : ∃ front last, ts = front ++ [last] ∧ last.kind = .eof ∧ ∀ t ∈ front, t.kind ≠ .eof
  nested : ∀ front, front <+: ts → marks .dedent front ≤ marks .indent front
  closed : marks .dedent ts = marks .indent ts
  balanced : ∀ front, front <+: ts → 0 ≤ bracketDepth front
  matched : bracketDepth ts = 0
  outside : ∀ pre t post, ts = pre ++ t :: post → t.kind = .newline ∨ t.kind = .indent ∨ t.kind = .dedent →
    bracketDepth pre = 0
  lineEnded : ∀ pre t post, ts = pre ++ t :: post → t.kind = .newline →
    ∃ u, pre.getLast? = some u ∧ u.kind.isLayout = false
  blockBegun : ∀ pre t post, ts = pre ++ t :: post → t.kind = .indent → ∃ u, post.head? = some u ∧ u.kind.isLayout = false
  blockPlaced : ∀ pre t post, ts = pre ++ t :: post → t.kind = .indent →
    pre = [] ∨ ∃ u, pre.getLast? = some u ∧ u.kind = .newline

theorem tokens_structured {source : String} {ts : List Token} (h : tokens source = .ok ts) : Structured ts := by
  obtain ⟨front, hfront, hts⟩ := tokens_between h
  have hleaves := tokens_leaves h
  refine ⟨⟨front, _, hts, rfl, hfront.inner⟩, fun _ hp => (hleaves.laid.of_prefix hp).blocks, hleaves.blocks.symm,
    fun _ hp => (hleaves.laid.of_prefix hp).brackets, hleaves.depth, ?_, ?_, ?_, ?_⟩
  · rintro pre t post rfl hk
    refine hleaves.laid.mayFollow.level ?_
    obtain hk | hk | hk := hk <;> rw [hk] <;> rfl
  · rintro pre t post rfl hk
    exact hleaves.laid.mayFollow.newline hk
  · rintro pre t post rfl hk
    cases post with
    | nil =>
      -- the last token is the end mark
      obtain ⟨-, hlast⟩ := List.append_inj' hts rfl
      cases hlast
      cases hk
    | cons u post =>
      rw [List.append_cons] at hleaves
      exact ⟨u, rfl, hleaves.laid.mayFollow.indented t List.getLast?_concat hk⟩
  · rintro pre t post rfl hk
    cases hpre : pre.getLast? with
    | none => exact .inl (List.getLast?_eq_none_iff.1 hpre)
    | some u => exact .inr ⟨u, rfl, hleaves.laid.mayFollow.indent hk u hpre⟩

theorem tokens_structured_nested :
    ∃ ts, tokens "a(b,\n# c\n  d)\n  e:\n    f\n\ng\n" = .ok ts ∧ marks .indent ts = 2 ∧ Structured ts := by
  have htwo : (tokens "a(b,\n# c\n  d)\n  e:\n    f\n\ng\n").toOption.map (marks .indent) = some 2 := by decide +kernel
  cases hts : tokens "a(b,\n# c\n  d)\n  e:\n    f\n\ng\n" with
  | error e =>
    rw [hts] at htwo
    cases htwo
  | ok ts =>
    rw [hts] at htwo
    exact ⟨ts, rfl, Option.some.inj htwo, tokens_structured hts⟩

end Unroll
