import Unroll.Printer
/-!
# What is printed

A printed line is so many spaces and the pieces behind them, and a printed text is the text of its lines, each with a
line feed behind it.  A piece is a token or a space, so it stands for characters and for at most one kind.
-/
namespace Unroll

namespace Piece

/-- The kinds of the tokens among the pieces. -/
@[simp] def kinds : List Piece → List TokenKind
  | [] => []
  | token k :: ps => k :: kinds ps
  | space :: ps => kinds ps

@[simp] theorem kinds_sym (s : Symbol) (ps : List Piece) : kinds (Print.sym s :: ps) = .symbol s :: kinds ps := rfl

@[simp] theorem kinds_name (n : String) (ps : List Piece) : kinds (Print.name n :: ps) = .name n :: kinds ps := rfl

@[simp] theorem kinds_word (k : Keyword) (ps : List Piece) : kinds (Print.word k :: ps) = .keyword k :: kinds ps := rfl

@[simp] theorem kinds_append (ps qs : List Piece) : kinds (ps ++ qs) = kinds ps ++ kinds qs := by
  induction ps with
  | nil => rfl
  | cons p ps ih => cases p <;> simp [ih]

theorem mem_kinds {k : TokenKind} {ps : List Piece} (h : token k ∈ ps) : k ∈ kinds ps := by
  induction ps with
  | nil => cases h
  | cons p ps ih =>
    rcases List.mem_cons.1 h with rfl | hmem
    · exact List.mem_cons_self ..
    · cases p with
      | space => exact ih hmem
      | token k' => exact List.mem_cons_of_mem _ (ih hmem)

/-- The text of the pieces. -/
def chars (ps : List Piece) : List Char := ps.flatMap (·.text.toList)

theorem chars_token (k : TokenKind) (ps : List Piece) : chars (token k :: ps) = k.spelling.toList ++ chars ps := rfl

theorem chars_space (ps : List Piece) : chars (space :: ps) = ' ' :: chars ps := rfl

theorem fold_toList (out : String) (ps : List Piece) :
    (ps.foldl (fun out p => out ++ p.text) out).toList = out.toList ++ chars ps := by
  induction ps generalizing out with
  | nil => exact (List.append_nil _).symm
  | cons p ps ih =>
    rw [List.foldl_cons, ih, String.toList_append, List.append_assoc]
    rfl

end Piece

namespace PrintedLine

/-- The text of the line, without its end. -/
def content : PrintedLine → List Char
  | code n ps => List.replicate (4 * n) ' ' ++ Piece.chars ps
  | comment n s => List.replicate (4 * n) ' ' ++ '#' :: ' ' :: s.toList
  | gap => []

theorem indented_toList (out : String) (n : Nat) :
    (write.indented out n).toList = out.toList ++ List.replicate (4 * n) ' ' := by
  induction n generalizing out with
  | zero => simp [write.indented]
  | succ n ih =>
    have hspaces : List.replicate (4 * (n + 1)) ' ' = indentation.toList ++ List.replicate (4 * n) ' ' := by
      rw [Nat.mul_succ, Nat.add_comm, ← List.replicate_append_replicate]
      rfl
    rw [write.indented, ih, String.toList_append, List.append_assoc, hspaces]

theorem write_toList (out : String) (l : PrintedLine) : (write out l).toList = out.toList ++ l.content ++ ['\n'] := by
  cases l with
  | code n ps => rw [write, String.toList_push, Piece.fold_toList, indented_toList, content, ← List.append_assoc]
  | comment n s => simp [write, content, indented_toList]
  | gap => simp [write, content]

theorem render_toList (ls : List PrintedLine) : (render ls).toList = ls.flatMap fun l => l.content ++ ['\n'] := by
  have hfold : ∀ (ls : List PrintedLine) (out : String),
      (ls.foldl write out).toList = out.toList ++ ls.flatMap fun l => l.content ++ ['\n'] := by
    intro ls
    induction ls with
    | nil => exact fun out => (List.append_nil _).symm
    | cons l ls ih =>
      intro out
      rw [List.foldl_cons, ih, write_toList, List.flatMap_cons, List.append_assoc, List.append_assoc, List.append_assoc]
  exact hfold ls ""

/-- **The lines of a printed text** are the printed lines, and an empty one behind them. -/
theorem render_lines {ls : List PrintedLine} (h : ∀ l ∈ ls, '\n' ∉ l.content) :
    (render ls).toList.splitOn '\n' = ls.map content ++ [[]] := by
  rw [render_toList]
  induction ls with
  | nil => rfl
  | cons l ls ih =>
    obtain ⟨hl, hls⟩ := List.forall_mem_cons.1 h
    rw [List.flatMap_cons, List.append_assoc, List.singleton_append, List.splitOn_append_cons_self_of_not_mem hl,
      ih hls, List.map_cons, List.cons_append]

end PrintedLine

end Unroll
