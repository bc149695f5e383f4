import Mathlib.Data.List.TakeWhile
import Unroll.Proofs.Outcome
import Unroll.Token.Layout
/-!
# The lines of a text

A text is cut after each of its line feeds.  What is shown of all texts is shown of the empty one, of a last line, and
of a line before the rest of a text (`Line.text_induction`); the lines themselves are what stands between line feeds,
and have none.  A line is its leading spaces, its code and a comment; it is passed over, or it says something
(`Layout.line_cases`), and then its code is scanned.
-/
namespace Unroll
namespace Line

/-- A text is empty, or a line without its end, or a line with its end and a text behind it. -/
@[elab_as_elim]
theorem text_induction {P : List Char → Prop} (cs : List Char) (empty : P [])
    (last : ∀ l, l ≠ [] → '\n' ∉ l → P l)
    (line : ∀ l after, '\n' ∉ l → P after → P (l ++ '\n' :: after)) : P cs := by
  by_cases hend : '\n' ∈ cs
  · obtain ⟨l, after, rfl, hl⟩ := List.eq_append_cons_of_mem hend
    exact line l after hl (text_induction after empty last line)
  · by_cases hnil : cs = []
    · rw [hnil]
      exact empty
    · exact last cs hnil hend
termination_by cs.length
decreasing_by
  subst_vars
  simp only [List.length_append, List.length_cons]
  omega

/-- No line has a line feed in it. -/
theorem mem_lines {cs l : List Char} (h : l ∈ cs.splitOn '\n') : '\n' ∉ l := by
  induction cs using text_induction with
  | empty =>
    rw [List.mem_singleton.1 h]
    exact List.not_mem_nil
  | last cs _ hcs =>
    rw [List.splitOn_eq_singleton hcs, List.mem_singleton] at h
    rwa [h]
  | line first after hfirst ih =>
    rw [List.splitOn_append_cons_self_of_not_mem hfirst] at h
    rcases List.mem_cons.1 h with rfl | h
    · exact hfirst
    · exact ih h

theorem takeWhile_line {l : List Char} (hl : '\n' ∉ l) (after : List Char) :
    (l ++ '\n' :: after).takeWhile (· != '\n') = l := by
  rw [List.takeWhile_append_of_pos, List.takeWhile_cons_of_neg (by decide), List.append_nil]
  intro c hc
  rw [bne_iff_ne]
  rintro rfl
  exact hl hc

theorem split_last (start : Nat) {l : List Char} (hne : l ≠ []) (hl : '\n' ∉ l) :
    split start l = [⟨start, l, start + Text.width l⟩] := by
  obtain ⟨c, rest, rfl⟩ := List.exists_cons_of_ne_nil hne
  have hcontent : (c :: rest).takeWhile (· != '\n') = c :: rest := by
    rw [List.takeWhile_eq_self_iff]
    intro d hd
    rw [bne_iff_ne]
    rintro rfl
    exact hl hd
  rw [split]
  dsimp only
  rw [hcontent, List.drop_length]

theorem split_line (start : Nat) {l : List Char} (hl : '\n' ∉ l) (after : List Char) :
    split start (l ++ '\n' :: after) =
      ⟨start, l, start + Text.width l + 1⟩ :: split (start + Text.width l + 1) after := by
  have hcons : ∃ c rest, l ++ '\n' :: after = c :: rest := List.exists_cons_of_ne_nil (by simp)
  obtain ⟨c, rest, hcs⟩ := hcons
  have hrest : rest.drop l.length = after := by
    have hdrop : (c :: rest).drop (l.length + 1) = after := by
      rw [← hcs, List.append_cons]
      exact List.drop_left' (by simp)
    exact hdrop
  have hcontent := takeWhile_line hl after
  rw [hcs] at hcontent ⊢
  rw [split]
  dsimp only
  rw [hcontent, hrest, ← hcs, List.drop_left]

/-! ## Leading spaces -/

/-- A line is its leading spaces, and a rest that begins with something else. -/
theorem spaces_rest (l : List Char) :
    l = List.replicate (l.takeWhile (· == ' ')).length ' ' ++ l.dropWhile (· == ' ') := by
  have hspaces : l.takeWhile (· == ' ') = List.replicate (l.takeWhile (· == ' ')).length ' ' :=
    List.eq_replicate_of_mem fun c hc => beq_iff_eq.1 (List.mem_takeWhile_imp (p := (· == ' ')) hc)
  rw [← hspaces, List.takeWhile_append_dropWhile]

theorem rest_head (l : List Char) : (l.dropWhile (· == ' ')).head? ≠ some ' ' := by
  intro h
  have hnot := List.head?_dropWhile_not (· == ' ') l
  rw [h] at hnot
  cases hnot

theorem takeWhile_spaces (n : Nat) {rest : List Char} (h : rest.head? ≠ some ' ') :
    (List.replicate n ' ' ++ rest).takeWhile (· == ' ') = List.replicate n ' ' := by
  have hrest : rest.takeWhile (· == ' ') = [] := by
    cases rest with
    | nil => rfl
    | cons c rest => exact List.takeWhile_cons_of_neg (by simpa using h)
  rw [List.takeWhile_append_of_pos (by simp), hrest, List.append_nil]

/-- A line behind `n` spaces. -/
theorem leading_spaces {l : Line} {n : Nat} {rest : List Char} (hl : l.content = List.replicate n ' ' ++ rest)
    (h : rest.head? ≠ some ' ') : l.leading = n ∧ l.code = beforeComment none rest := by
  have hleading : l.leading = n := by rw [leading, hl, takeWhile_spaces n h, List.length_replicate]
  exact ⟨hleading, by rw [code, hleading, hl, List.drop_left' List.length_replicate]⟩

theorem all_spaces (n : Nat) (rest : List Char) :
    (List.replicate n ' ' ++ rest).all Text.isBlank = rest.all Text.isBlank := by
  rw [List.all_append, List.all_replicate]
  cases n <;> rfl

theorem contains_tab {cs : List Char} : cs.contains '\t' = false ↔ '\t' ∉ cs := by
  rw [← Bool.not_eq_true, List.contains_iff_mem]

theorem contains_spaces (n : Nat) (rest : List Char) :
    (List.replicate n ' ' ++ rest).contains '\t' = rest.contains '\t' := by
  rw [List.contains_append, List.contains_replicate]
  cases n <;> rfl

end Line

/-! ## What is done with a line -/

namespace Layout

variable {s t : Layout} {l : Line}

/-- What is done with a line that says something. -/
def coded (s : Layout) (l : Line) : Except LexError Layout := do
  let s ← s.align l l.leading
  let (tokens, depth) ← scanLine s.depth (l.start + l.leading) l.code
  let tokens := s.tokens ++ tokens
  return { s with depth, tokens := if depth = 0 then tokens.push ⟨.newline, ⟨l.stop, 0⟩⟩ else tokens }

theorem coded_ok : s.coded l = .ok t ↔ ∃ u ts d, s.align l l.leading = .ok u ∧
    scanLine u.depth (l.start + l.leading) l.code = .ok (ts, d) ∧
    { u with
      depth := d
      tokens := if d = 0 then (u.tokens ++ ts).push ⟨.newline, ⟨l.stop, 0⟩⟩ else u.tokens ++ ts } = t := by
  unfold coded
  simp only [Outcome.except_bind_ok, Outcome.except_pure_ok, Prod.exists, exists_and_left]

/-- A line says something: it is neither blank nor nothing but a comment, and has no tab. -/
structure Says (l : Line) : Prop where
  filled : l.content.all Text.isBlank = false
  noTab : l.content.contains '\t' = false
  code : l.code.all Text.isBlank = false

theorem line_coded (h : Says l) : s.line l = s.coded l := by
  unfold line
  rw [if_neg (ne_true_of_eq_false h.filled), if_neg (ne_true_of_eq_false h.noTab), if_neg (ne_true_of_eq_false h.code)]
  rfl

/-- A line that is laid out well is passed over, or says something. -/
theorem line_cases (h : s.line l = .ok t) :
    t = s ∧ (l.content.all Text.isBlank = true ∨
      l.content.contains '\t' = false ∧ l.code.all Text.isBlank = true) ∨ Says l ∧ s.coded l = .ok t := by
  have hline := h
  unfold line at h
  split at h
  · rename_i hblank
    cases h
    exact .inl ⟨rfl, .inl hblank⟩
  · rename_i hfilled
    split at h
    · cases h
    · rename_i htab
      split at h
      · rename_i hcode
        cases h
        exact .inl ⟨rfl, .inr ⟨eq_false_of_ne_true htab, hcode⟩⟩
      · rename_i hcode
        have hsaid : Says l := ⟨eq_false_of_ne_true hfilled, eq_false_of_ne_true htab, eq_false_of_ne_true hcode⟩
        exact .inr ⟨hsaid, (line_coded hsaid).symm.trans hline⟩

theorem line_passed (htab : l.content.contains '\t' = false) (hcode : l.code.all Text.isBlank = true) :
    s.line l = .ok s := by
  unfold line
  rw [if_neg (ne_true_of_eq_false htab), if_pos hcode, ite_self]

end Layout
end Unroll
