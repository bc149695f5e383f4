import Unroll.Proofs.Token.Pieces
/-!
# Tokens that are written out are read back

A space joins no token to the next, so tokens that are written to a line between single spaces are read back from it,
as long as their brackets are balanced.
-/
namespace Unroll

namespace Piece

/-- The tokens between single spaces. -/
def spaced : List TokenKind → List Piece
  | [] => []
  | [k] => [.token k]
  | k :: ks => .token k :: .space :: spaced ks

theorem spaced_cons (k : TokenKind) (ks : List TokenKind) : ∃ ps, spaced (k :: ks) = .token k :: ps := by
  cases ks <;> exact ⟨_, rfl⟩

theorem kinds_spaced (ks : List TokenKind) : kinds (spaced ks) = ks := by
  fun_induction spaced ks with
  | case1 => rfl
  | case2 k => rfl
  | case3 k ks _ ih => exact congrArg (k :: ·) ih

theorem spaced_apart (ks : List TokenKind) : (spaced ks).IsChain Apart := by
  fun_induction spaced ks with
  | case1 => exact .nil
  | case2 k => exact .singleton _
  | case3 k ks _ ih => exact .cons_cons (apart_space _) (List.isChain_cons.2 ⟨fun p _ => space_apart p, ih⟩)

theorem chars_spaced (ks : List TokenKind) :
    chars (spaced ks) = [' '].intercalate (ks.map (·.spelling.toList)) := by
  fun_induction spaced ks with
  | case1 => rfl
  | case2 k => rw [chars_token, List.map_singleton, List.intercalate_singleton]; exact List.append_nil _
  | case3 k ks hne ih =>
    rw [List.map_cons, List.intercalate_cons_of_ne_nil (by simpa using hne), ← ih, List.append_assoc]
    rfl

end Piece

namespace TokenKind

/-- The text of one line that the tokens are written to. -/
def written (ks : List TokenKind) : String := " ".intercalate (ks.map spelling)

theorem written_toList (ks : List TokenKind) : (written ks).toList = Piece.chars (Piece.spaced ks) := by
  rw [written, String.toList_intercalate, List.map_map, Piece.chars_spaced]
  rfl

end TokenKind

open TokenKind

/-- **Tokens that are written to a line are read back from it**, and behind them the line end and the end of the
text. -/
theorem tokens_written {ks : List TokenKind} (hks : ∀ k ∈ ks, k.Writable) (hbalanced : Balanced ks) :
    ∃ ts, tokens (written ks) = .ok ts ∧ kinds ts = ks ++ if ks = [] then [.eof] else [.newline, .eof] := by
  have hspaced := Piece.kinds_spaced ks
  have hneat : Piece.Neat (Piece.spaced ks) :=
    ⟨by rwa [hspaced], Piece.spaced_apart ks, by rwa [hspaced]⟩
  have hfeed : '\n' ∉ Piece.chars (Piece.spaced ks) := fun hmem =>
    absurd (Piece.printable hneat.writable _ hmem) (by decide)
  have hlines := (tokens_ofLines (written ks)).symm
  rw [written_toList, List.splitOn_eq_singleton hfeed] at hlines
  cases ks with
  | nil =>
    obtain ⟨ts, hts, hkinds⟩ := hlines.of_ok (a := [⟨.eof, ⟨0, 0⟩⟩]) rfl
    exact ⟨ts, hts, hkinds⟩
  | cons k ks =>
    obtain ⟨ps, hpieces⟩ := Piece.spaced_cons k ks
    rw [hpieces] at hspaced hneat hlines
    obtain ⟨t, hline, hlevels, hdepth, hkinds⟩ := Layout.line_pieces (s := .start) (u := .start) (n := 0) hneat rfl rfl
    rw [hspaced] at hkinds
    obtain ⟨us, hus, hend⟩ := Layout.finish_kinds hdepth 0
    rw [hlevels, hkinds] at hend
    rw [List.replicate_zero, List.nil_append] at hline
    have hread : Layout.ofLines [Piece.chars (.token k :: ps)] = .ok us := by
      unfold Layout.ofLines
      rw [List.map_singleton, List.foldlM_cons, hline]
      exact hus
    obtain ⟨ts, hts, hsame⟩ := hlines.of_ok hread
    refine ⟨ts, hts, Eq.trans hsame (hend.trans ?_)⟩
    rw [if_neg (List.cons_ne_nil _ _)]
    simp [Layout.start, kinds]

theorem tokens_written_quotes : ∃ ts,
    tokens (written [.name "a", .symbol .lparen, .text "\"#\r\n", .symbol .slash, .char '\\', .symbol .rparen,
      .int 10]) = .ok ts ∧
    kinds ts = [.name "a", .symbol .lparen, .text "\"#\r\n", .symbol .slash, .char '\\', .symbol .rparen,
      .int 10, .newline, .eof] := by
  have hname : IsName "a" := ⟨⟨'a', rfl, rfl⟩, List.all_eq_true.1 (by decide), by decide⟩
  refine tokens_written (fun k hk => ?_) ⟨fun pre hpre => ?_, by decide⟩
  · simp only [List.mem_cons, List.not_mem_nil, or_false] at hk
    rcases hk with rfl | rfl | rfl | rfl | rfl | rfl | rfl
    case inl => exact hname
    all_goals simp [Writable, UInt64.size]
  · revert pre
    simp only [← List.mem_inits]
    decide

end Unroll
