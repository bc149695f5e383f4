import Mathlib.Logic.Relation
import Unroll.Proofs.Token.Alike
/-!
# White space and comments

An edit of a text that adds white space or a comment (`Retouched`) comes down to its lines: lines that say nothing come
and go, and what a line gets at its end is separators and a comment (`Line.Padded`).  A line that was scanned leaves no
quotation open, so that a comment mark behind it begins a comment; where one has begun already, what comes behind is a
part of it.
-/
namespace Unroll

open Lexeme

namespace Line

/-- White space, or spaces and a comment without tabs. -/
def Silent (w : List Char) : Prop :=
  w.all Text.isBlank = true ∨ ∃ n comment, w = List.replicate n ' ' ++ comment ∧ IsComment comment ∧ '\t' ∉ comment

/-- What may be added to a line at its end: separators, and a comment behind some of them where there are no tabs. -/
def Trailing (l more : List Char) : Prop :=
  ∃ seps comment, more = seps ++ comment ∧ (∀ c ∈ seps, isSeparator c = true) ∧
    (comment = [] ∨ seps ≠ [] ∧ IsComment comment ∧ '\t' ∉ l ∧ '\t' ∉ comment)

theorem Trailing.nil (l : List Char) : Trailing l [] := ⟨[], [], rfl, by simp, .inl rfl⟩

theorem IsComment.head {cs : List Char} (h : IsComment cs) : cs.head? = some '#' ∨ cs.head? = some '/' := by
  obtain ⟨t, rfl⟩ | ⟨t, rfl⟩ := h
  · exact .inl rfl
  · exact .inr rfl

theorem beforeComment_blank {w comment : List Char} (hw : w.all Text.isBlank = true)
    (h : comment = [] ∨ IsComment comment) : beforeComment none (w ++ comment) = w := by
  have hnone : beforeComment none comment = [] := by
    rcases h with rfl | h
    · rfl
    · exact beforeComment_comment h
  rw [beforeComment_plain (fun c hc => blank_plain (List.all_eq_true.1 hw c hc)), hnone, List.append_nil]

theorem separators_blank {seps : List Char} (h : ∀ c ∈ seps, isSeparator c = true) : seps.all Text.isBlank = true :=
  List.all_eq_true.2 fun c hc => separator_blank (h c hc)

theorem separators_noTab {seps : List Char} (h : ∀ c ∈ seps, isSeparator c = true) : '\t' ∉ seps :=
  fun htab => absurd (h _ htab) (by decide)

theorem Trailing.noTab {l more : List Char} (hmore : Trailing l more) (hl : l.contains '\t' = false) :
    (l ++ more).contains '\t' = false := by
  obtain ⟨seps, comment, rfl, hseps, hcomment⟩ := hmore
  have hbehind : '\t' ∉ comment := by
    rcases hcomment with rfl | ⟨-, -, -, htab⟩
    · exact List.not_mem_nil
    · exact htab
  rw [contains_tab] at hl ⊢
  rw [List.mem_append, List.mem_append]
  rintro (hmem | hmem | hmem)
  · exact hl hmem
  · exact separators_noTab hseps hmem
  · exact hbehind hmem

/-- **What is added to a scanned line changes none of its tokens.** -/
theorem Trailing.scans {l cs more : List Char} {depth start d : Nat} {ts : List Token} (hmore : Trailing l more)
    (h : Scans depth start (beforeComment none cs) ts d) :
    ∃ gap, beforeComment none (cs ++ more) = beforeComment none cs ++ gap ∧
      Scans depth start (beforeComment none cs ++ gap) ts d := by
  -- a line without a comment ends outside of quotations; behind a comment everything is a part of it
  by_cases hcode : beforeComment none cs = cs
  · obtain ⟨seps, comment, rfl, hseps, hcomment⟩ := hmore
    have hafter : (seps ++ comment).head? ≠ some '/' := by
      cases seps with
      | nil =>
        rcases hcomment with rfl | ⟨hne, -⟩
        · simp
        · exact absurd rfl hne
      | cons c seps =>
        rintro hc
        cases hc
        exact absurd (hseps '/' (List.mem_cons_self ..)) (by decide)
    refine ⟨seps, ?_, h.spaced hseps⟩
    rw [hcode] at h ⊢
    rw [h.passed hcode hafter, beforeComment_blank (separators_blank hseps) (hcomment.imp_right (·.2.1))]
  · exact ⟨[], by rw [beforeComment_begun hcode, List.append_nil], by rwa [List.append_nil]⟩

end Line

open Line

namespace Layout

variable {s t : Layout}

/-- What is added at the end leaves the leading spaces as they are, if it does not go on with them. -/
theorem leading_append {l more : List Char} (h : l.dropWhile (· == ' ') = [] → more.head? ≠ some ' ') :
    (bare (l ++ more)).leading = (bare l).leading ∧
      (bare (l ++ more)).code = beforeComment none (l.dropWhile (· == ' ') ++ more) := by
  have hhead : (l.dropWhile (· == ' ') ++ more).head? ≠ some ' ' := by
    cases hrest : l.dropWhile (· == ' ') with
    | nil => exact h hrest
    | cons c rest =>
      have hc := rest_head l
      rwa [hrest] at hc
  have hcontent : (bare (l ++ more)).content =
      List.replicate (l.takeWhile (· == ' ')).length ' ' ++ (l.dropWhile (· == ' ') ++ more) := by
    rw [← List.append_assoc, ← spaces_rest]
    rfl
  exact leading_spaces hcontent hhead

/-- White space and a comment behind it are passed over. -/
theorem line_trivial {w comment : List Char} (hw : w.all Text.isBlank = true)
    (h : comment = [] ∨ IsComment comment ∧ '\t' ∉ w ++ comment) : s.line (bare (w ++ comment)) = .ok s := by
  obtain rfl | ⟨hcomment, htab⟩ := h
  · unfold line
    exact if_pos (by rwa [List.append_nil])
  have hhead : comment.head? ≠ some ' ' := by
    rcases hcomment.head with hmark | hmark <;> simp [hmark]
  have hblank : (w.dropWhile (· == ' ')).all Text.isBlank = true :=
    List.all_eq_true.2 fun c hc => List.all_eq_true.1 hw c ((List.dropWhile_sublist _).mem hc)
  refine line_passed (contains_tab.2 htab) ?_
  rw [(leading_append fun _ => hhead).2, beforeComment_blank hblank (.inr hcomment)]
  exact hblank

theorem line_silent {w : List Char} (h : Silent w) : s.line (bare w) = .ok s := by
  rcases h with hw | ⟨n, comment, rfl, hcomment, htab⟩
  · have hline := line_trivial (s := s) hw (.inl rfl)
    rwa [List.append_nil] at hline
  · refine line_trivial (by rw [List.all_replicate]; cases n <;> rfl) (.inr ⟨hcomment, fun hmem => ?_⟩)
    rcases List.mem_append.1 hmem with hmem | hmem
    · exact absurd (List.eq_of_mem_replicate hmem) (by decide)
    · exact htab hmem

variable {l more : List Char}

theorem blank_trailing (hmore : Trailing l more) (hl : l.all Text.isBlank = true) :
    s.line (bare (l ++ more)) = .ok s := by
  have hnoTab : '\t' ∉ l → '\t' ∉ l ++ more := fun htab => contains_tab.1 (hmore.noTab (contains_tab.2 htab))
  obtain ⟨seps, comment, rfl, hseps, hcomment⟩ := hmore
  rw [← List.append_assoc] at hnoTab ⊢
  have hw : (l ++ seps).all Text.isBlank = true := by
    rw [List.all_append, hl, separators_blank hseps]
    rfl
  exact line_trivial hw (hcomment.imp_right fun ⟨_, hcomment, htab, _⟩ => ⟨hcomment, hnoTab htab⟩)

/-- The leading spaces and the code of a line that is not blank, and what is added at its end. -/
theorem leading_trailing (hl : ¬ l.all Text.isBlank = true) (more : List Char) :
    (bare (l ++ more)).leading = (bare l).leading ∧
      (bare (l ++ more)).code = beforeComment none (l.dropWhile (· == ' ') ++ more) ∧
      (bare l).code = beforeComment none (l.dropWhile (· == ' ')) := by
  have hrest : l.dropWhile (· == ' ') = [] → more.head? ≠ some ' ' := by
    intro hrest
    refine absurd ?_ hl
    rw [spaces_rest l, all_spaces, hrest]
    rfl
  obtain ⟨hleading, hcode⟩ := leading_append hrest
  have hcontent : (bare l).content = _ := spaces_rest l
  exact ⟨hleading, hcode, (leading_spaces hcontent (rest_head l)).2⟩

/-- Where nothing stands but white space and a comment, what is added is a part of the comment. -/
theorem comment_trailing (hmore : Trailing l more) (hl : ¬ l.all Text.isBlank = true) (htab : l.contains '\t' = false)
    (hblank : (bare l).code.all Text.isBlank = true) : s.line (bare (l ++ more)) = .ok s := by
  obtain ⟨-, hcode', hcode⟩ := leading_trailing hl more
  have hbegun : beforeComment none (l.dropWhile (· == ' ')) ≠ l.dropWhile (· == ' ') := by
    intro hsame
    rw [hcode, hsame] at hblank
    refine absurd ?_ hl
    rw [spaces_rest l, all_spaces, hblank]
  refine line_passed (hmore.noTab htab) ?_
  rw [hcode', beforeComment_begun hbegun, ← hcode, hblank]

theorem coded_trailing (hmore : Trailing l more) (hl : ¬ l.all Text.isBlank = true) (hsaid : Says (bare l))
    (h : s.coded (bare l) = .ok t) : s.line (bare (l ++ more)) = .ok t := by
  obtain ⟨hleading, hcode', hcode⟩ := leading_trailing hl more
  obtain ⟨u, ts, d, hu, hscan, ht⟩ := coded_ok.1 h
  have hfilled := hsaid.code
  rw [hcode] at hscan hfilled
  obtain ⟨gap, hgap, hscans⟩ := hmore.scans (scans_of_scanLine hscan)
  rw [hgap] at hcode'
  have hsaid' : Says (bare (l ++ more)) := by
    refine ⟨?_, hmore.noTab hsaid.noTab, ?_⟩
    · exact (List.all_append ..).trans (by rw [eq_false_of_ne_true hl, Bool.false_and])
    · rw [hcode', List.all_append, hfilled, Bool.false_and]
  rw [line_coded hsaid', coded_ok, hleading, hcode']
  exact ⟨u, ts, d, hu, hscans.scanLine, ht⟩

/-- **A line reads the same with separators and a comment at its end.** -/
theorem line_trailing (hmore : Trailing l more) (h : s.line (bare l) = .ok t) : s.line (bare (l ++ more)) = .ok t := by
  by_cases hl : l.all Text.isBlank = true
  · rw [line_silent (.inl hl)] at h
    cases h
    exact blank_trailing hmore hl
  · obtain ⟨rfl, hblank | ⟨htab, hblank⟩⟩ | ⟨hsaid, hcoded⟩ := line_cases h
    · exact absurd hblank hl
    · exact comment_trailing hmore hl htab hblank
    · exact coded_trailing hmore hl hsaid hcoded

end Layout

/-- Line by line, one text is the other with silent lines taken out or put in and the rest added to at the end. -/
inductive Line.Padded : List (List Char) → List (List Char) → Prop
  | nil : Padded [] []
  | line {l more : List Char} {ls ls' : List (List Char)} : Trailing l more → Padded ls ls' →
    Padded (l :: ls) ((l ++ more) :: ls')
  | gone {w : List Char} {ls ls' : List (List Char)} : Silent w → Padded ls ls' → Padded (w :: ls) ls'
  | come {w : List Char} {ls ls' : List (List Char)} : Silent w → Padded ls ls' → Padded ls (w :: ls')

namespace Line.Padded

theorem refl (ls : List (List Char)) : Padded ls ls := by
  induction ls with
  | nil => exact .nil
  | cons l ls ih =>
    have hline := Padded.line (.nil l) ih
    rwa [List.append_nil] at hline

theorem append {ls ls' ms ms' : List (List Char)} (h : Padded ls ls') (hms : Padded ms ms') :
    Padded (ls ++ ms) (ls' ++ ms') := by
  induction h with
  | nil => exact hms
  | line hmore _ ih => exact .line hmore ih
  | gone hw _ ih => exact .gone hw ih
  | come hw _ ih => exact .come hw ih

end Line.Padded

/-- **Padded lines are laid out as they were.** -/
theorem Layout.lines_padded {ls ls' : List (List Char)} {s t : Layout} (h : Padded ls ls')
    (hrun : (ls.map bare).foldlM line s = .ok t) : (ls'.map bare).foldlM line s = .ok t := by
  induction h generalizing s with
  | nil => exact hrun
  | line hmore _ ih =>
    rw [List.map_cons, List.foldlM_cons, Outcome.except_bind_ok] at hrun ⊢
    obtain ⟨u, hu, hrun⟩ := hrun
    exact ⟨u, line_trailing hmore hu, ih hrun⟩
  | gone hw _ ih =>
    rw [List.map_cons, List.foldlM_cons, line_silent hw] at hrun
    exact ih hrun
  | come hw _ ih =>
    rw [List.map_cons, List.foldlM_cons, line_silent hw]
    exact ih hrun

/-! ## Edits of a text -/

namespace Line

def Start (a : List Char) : Prop := a = [] ∨ ∃ before, a = before ++ ['\n']

def End (b : List Char) : Prop := b = [] ∨ ∃ behind, b = '\n' :: behind

/-- A carriage return before each line feed. -/
def returns (cs : List Char) : List Char := cs.flatMap fun c => if c = '\n' then ['\r', '\n'] else [c]

end Line

/-- **An edit that touches white space and comments only.** -/
inductive Retouched : List Char → List Char → Prop
  /-- A comment behind a line without tabs. -/
  | remark {a l b m t : List Char} : Line.Start a → Line.End b → '\n' ∉ l → '\t' ∉ l →
    m = ['#'] ∨ m = ['/', '/'] → '\n' ∉ t → '\t' ∉ t →
    Retouched (a ++ l ++ b) (a ++ (l ++ ' ' :: (m ++ ' ' :: t)) ++ b)
  /-- A silent line above another, or at the end of a text that ends in a line feed. -/
  | above {a w b : List Char} : Line.Start a → '\n' ∉ w → Silent w → Retouched (a ++ b) (a ++ (w ++ '\n' :: b))
  /-- A silent line at the end, with no line feed of its own. -/
  | last {a w : List Char} : Line.Start a → '\n' ∉ w → Silent w → Retouched a (a ++ w)
  /-- A silent line at the end of a text that does not end in a line feed. -/
  | below {a w : List Char} : '\n' ∉ w → Silent w → Retouched a (a ++ '\n' :: w)
  | returns (a : List Char) : Retouched a (Line.returns a)
  | feed (a : List Char) : Retouched a (a ++ ['\n'])

namespace Line

/-- The lines before a line start do not depend on what stands behind it. -/
theorem Start.lines {a : List Char} (h : Start a) :
    ∃ ls, ∀ b, (a ++ b).splitOn '\n' = ls ++ b.splitOn '\n' := by
  obtain rfl | ⟨before, rfl⟩ := h
  · exact ⟨[], fun b => rfl⟩
  · refine ⟨before.splitOn '\n', fun b => ?_⟩
    rw [List.append_assoc, List.singleton_append, List.splitOn_append_cons_self]

theorem End.lines {b : List Char} (h : End b) :
    ∃ ls, ∀ l, '\n' ∉ l → (l ++ b).splitOn '\n' = l :: ls := by
  obtain rfl | ⟨behind, rfl⟩ := h
  · exact ⟨[], fun l hl => by rw [List.append_nil, List.splitOn_eq_singleton hl]⟩
  · exact ⟨behind.splitOn '\n', fun l hl => List.splitOn_append_cons_self_of_not_mem hl _⟩

theorem silent_nil : Silent [] := .inl rfl

theorem padded_below (a : List Char) {w : List Char} (hw : '\n' ∉ w) (hsilent : Silent w) :
    Padded (a.splitOn '\n') ((a ++ '\n' :: w).splitOn '\n') := by
  have hpadded := (Padded.refl (a.splitOn '\n')).append (.come hsilent .nil)
  rwa [List.append_nil, ← List.splitOn_eq_singleton hw, ← List.splitOn_append_cons_self] at hpadded

theorem returns_line {l : List Char} (hl : '\n' ∉ l) : returns l = l := by
  have heach : ∀ c ∈ l, (if c = '\n' then ['\r', '\n'] else [c]) = [c] := fun c hc => by
    refine if_neg ?_
    rintro rfl
    exact hl hc
  rw [returns, List.flatMap_congr heach, List.flatMap_singleton']

theorem padded_returns (a : List Char) : Padded (a.splitOn '\n') ((returns a).splitOn '\n') := by
  induction a using text_induction with
  | empty => exact .refl _
  | last l _ hl =>
    rw [returns_line hl]
    exact .refl _
  | line l after hl ih =>
    have hreturns : returns (l ++ '\n' :: after) = (l ++ ['\r']) ++ '\n' :: returns after := by
      have hfront := returns_line hl
      rw [returns] at hfront
      rw [returns, List.flatMap_append, hfront, List.flatMap_cons, if_pos rfl, List.append_assoc]
      rfl
    have hr : '\n' ∉ l ++ ['\r'] := by simp [hl]
    rw [hreturns, List.splitOn_append_cons_self_of_not_mem hl, List.splitOn_append_cons_self_of_not_mem hr]
    exact .line ⟨['\r'], [], rfl, by simp [isSeparator], .inl rfl⟩ ih

end Line

theorem Retouched.padded {cs cs' : List Char} (h : Retouched cs cs') :
    Padded (cs.splitOn '\n') (cs'.splitOn '\n') := by
  cases h with
  | @remark a l b m t ha hb hl htab hmark ht httab =>
    obtain ⟨before, hbefore⟩ := ha.lines
    obtain ⟨behind, hbehind⟩ := hb.lines
    have hfeed : '\n' ∉ l ++ ' ' :: (m ++ ' ' :: t) := by
      rcases hmark with rfl | rfl <;> simp [hl, ht]
    rw [List.append_assoc, List.append_assoc, hbefore, hbefore, hbehind l hl, hbehind _ hfeed]
    have hcomment : IsComment (m ++ ' ' :: t) := by
      rcases hmark with rfl | rfl
      · exact .inl ⟨' ' :: t, rfl⟩
      · exact .inr ⟨' ' :: t, rfl⟩
    have hnoTab : '\t' ∉ m ++ ' ' :: t := by
      rcases hmark with rfl | rfl <;> simp [httab]
    refine (Padded.refl before).append (.line ?_ (.refl behind))
    exact ⟨[' '], m ++ ' ' :: t, rfl, by simp [isSeparator], .inr ⟨by simp, hcomment, htab, hnoTab⟩⟩
  | above ha hw hsilent =>
    obtain ⟨before, hbefore⟩ := ha.lines
    rw [hbefore, hbefore, List.splitOn_append_cons_self_of_not_mem hw]
    exact (Padded.refl before).append (.come hsilent (.refl _))
  | @last _ w ha hw hsilent =>
    obtain ⟨before, hbefore⟩ := ha.lines
    have hnil := hbefore []
    rw [List.append_nil] at hnil
    rw [hnil, hbefore, List.splitOn_eq_singleton hw]
    exact (Padded.refl before).append (.gone silent_nil (.come hsilent .nil))
  | below hw hsilent => exact padded_below _ hw hsilent
  | returns => exact padded_returns _
  | feed => exact padded_below _ List.not_mem_nil silent_nil

theorem Layout.ofLines_padded {ls ls' : List (List Char)} {ts : List Token} (h : Padded ls ls')
    (hread : ofLines ls = .ok ts) : ofLines ls' = .ok ts := by
  unfold ofLines at hread ⊢
  rw [Outcome.except_bind_ok] at hread ⊢
  obtain ⟨s, hs, hfinish⟩ := hread
  exact ⟨s, lines_padded h hs, hfinish⟩

/-- **White space and comments change no token.**  However many such edits are made in a text that has tokens, the
edited text has the same ones but for their places. -/
theorem tokens_retouched {source edited : String} {ts : List Token}
    (hedit : Relation.ReflTransGen Retouched source.toList edited.toList) (h : tokens source = .ok ts) :
    ∃ us, tokens edited = .ok us ∧ kinds us = kinds ts := by
  obtain ⟨vs, hvs, hkinds⟩ := (tokens_ofLines source).of_ok h
  have hread : ∀ cs, Relation.ReflTransGen Retouched source.toList cs → Layout.ofLines (cs.splitOn '\n') = .ok vs := by
    intro cs hcs
    induction hcs with
    | refl => exact hvs
    | tail _ hlast ih => exact Layout.ofLines_padded hlast.padded ih
  obtain ⟨us, hus, hsame⟩ := (tokens_ofLines edited).symm.of_ok (hread _ hedit)
  exact ⟨us, hus, Eq.trans hsame hkinds⟩

theorem tokens_retouched_twice : ∃ ts us, tokens "a(\n  b)\n" = .ok ts ∧
    tokens "// c\na( # \"\n  b)\n" = .ok us ∧ kinds us = kinds ts := by
  have habove : Retouched "a(\n  b)\n".toList "// c\na(\n  b)\n".toList :=
    .above (a := []) (w := "// c".toList) (b := "a(\n  b)\n".toList) (.inl rfl) (by decide)
      (.inr ⟨0, "// c".toList, rfl, .inr ⟨" c".toList, rfl⟩, by decide⟩)
  have hremark : Retouched "// c\na(\n  b)\n".toList "// c\na( # \"\n  b)\n".toList :=
    .remark (a := "// c\n".toList) (l := "a(".toList) (b := "\n  b)\n".toList) (m := ['#']) (t := ['"'])
      (.inr ⟨"// c".toList, rfl⟩) (.inr ⟨"  b)\n".toList, rfl⟩) (by decide) (by decide) (.inl rfl) (by decide)
      (by decide)
  have hread : (tokens "a(\n  b)\n").toOption.isSome = true := by decide +kernel
  cases hts : tokens "a(\n  b)\n" with
  | error e =>
    rw [hts] at hread
    cases hread
  | ok ts =>
    obtain ⟨us, hus, hkinds⟩ := tokens_retouched (.tail (.single habove) hremark) hts
    exact ⟨ts, us, rfl, hus, hkinds⟩

end Unroll
