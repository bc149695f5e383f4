import Mathlib.Data.List.Forall2
import Mathlib.Order.Monotone.Basic
import Unroll.Proofs.Token.Lines
import Unroll.Proofs.Token.Scans
/-!
# Lines that are laid out alike

Two runs over lines go side by side when their open levels correspond under a function that keeps the order of widths,
and their tokens are of the same kinds.  Where a line starts in the text matters for spans only, so a text can be read
from its bare lines (`Layout.ofLines`), and what is to be shown of two texts is shown of their lines.
-/
namespace Unroll

/-- The tokens without their places. -/
def kinds (ts : List Token) : List TokenKind := ts.map (·.kind)

theorem kinds_append (ts us : List Token) : kinds (ts ++ us) = kinds ts ++ kinds us := List.map_append

/-- Two readings end alike: both in results that are related, or both in the same fault. -/
inductive EndsAlike {α β : Type} (R : α → β → Prop) : Except LexError α → Except LexError β → Prop
  | ok {a : α} {b : β} : R a b → EndsAlike R (.ok a) (.ok b)
  | error {e e' : LexError} : e'.fault = e.fault → EndsAlike R (.error e) (.error e')

namespace EndsAlike

variable {α β γ δ : Type} {R : α → β → Prop} {S : γ → δ → Prop} {x : Except LexError α} {y : Except LexError β}

theorem bind {f : α → Except LexError γ} {g : β → Except LexError δ} (h : EndsAlike R x y)
    (hf : ∀ a b, R a b → EndsAlike S (f a) (g b)) : EndsAlike S (x >>= f) (y >>= g) := by
  cases h with
  | ok hab => exact hf _ _ hab
  | error he => exact .error he

theorem of_ok {a : α} (h : EndsAlike R x y) (hx : x = .ok a) : ∃ b, y = .ok b ∧ R a b := by
  cases h with
  | ok hab =>
    cases hx
    exact ⟨_, rfl, hab⟩
  | error _ => cases hx

theorem of_error {e : LexError} (h : EndsAlike R x y) (hx : x = .error e) :
    ∃ e', y = .error e' ∧ e'.fault = e.fault := by
  cases h with
  | ok _ => cases hx
  | error he =>
    cases hx
    exact ⟨_, rfl, he⟩

end EndsAlike

/-- The same kinds. -/
def SameKinds (ts us : List Token) : Prop := kinds us = kinds ts

theorem EndsAlike.symm {x y : Except LexError (List Token)} (h : EndsAlike SameKinds x y) :
    EndsAlike SameKinds y x := by
  cases h with
  | ok hkinds => exact .ok (Eq.symm hkinds)
  | error hfault => exact .error hfault.symm

theorem EndsAlike.trans {x y z : Except LexError (List Token)} (h : EndsAlike SameKinds x y)
    (h' : EndsAlike SameKinds y z) : EndsAlike SameKinds x z := by
  cases h with
  | ok hkinds =>
    cases h' with
    | ok hkinds' => exact .ok (Eq.trans hkinds' hkinds)
  | error hfault =>
    cases h' with
    | error hfault' => exact .error (hfault'.trans hfault)

/-- The same kinds, and the same number of open brackets. -/
def SameLine (a b : List Token × Nat) : Prop := kinds b.1 = kinds a.1 ∧ b.2 = a.2

/-- Where a line starts matters for spans only. -/
theorem scanLine_anywhere (depth start start' : Nat) (cs : List Char) :
    EndsAlike SameLine (scanLine depth start cs) (scanLine depth start' cs) := by
  fun_induction scanLine depth start cs generalizing start' with
  | case1 =>
    rw [scanLine]
    exact .ok ⟨rfl, rfl⟩
  | case2 depth start c rest hsep ih =>
    rw [scanLine, if_pos hsep]
    exact ih _
  | case3 depth start c rest hsep n span fault hscan =>
    rw [scanLine, if_neg hsep, hscan]
    exact .error rfl
  | case4 depth start c rest hsep n span kind hnone hscan =>
    rw [scanLine, if_neg hsep, hscan]
    dsimp only
    rw [hnone]
    exact .error rfl
  | case5 depth start c rest hsep n span kind opened hopened e hrest hscan =>
    rename_i ih
    rw [scanLine, if_neg hsep, hscan]
    dsimp only
    rw [hopened]
    dsimp only
    obtain ⟨e', he', hfault⟩ := (ih _).of_error hrest
    rw [he']
    exact .error hfault
  | case6 depth start c rest hsep n span kind opened hopened tokens left hrest hscan =>
    rename_i ih
    rw [scanLine, if_neg hsep, hscan]
    dsimp only
    rw [hopened]
    dsimp only
    obtain ⟨⟨us, d⟩, hus, hkinds, rfl⟩ := (ih _).of_ok hrest
    rw [hus]
    exact .ok ⟨congrArg (kind :: ·) hkinds, rfl⟩

namespace Layout

/-- **Two layouts that go side by side**: the same brackets are open, the tokens are of the same kinds, and each level
of the one is that of the other under `f`. -/
structure Alike (f : Nat → Nat) (s s' : Layout) : Prop where
  levels : s'.levels = s.levels.map f
  depth : s'.depth = s.depth
  kinds : kinds s'.tokens.toList = kinds s.tokens.toList

variable {f : Nat → Nat} {s s' t : Layout} {l l' : Line} {column : Nat}

theorem Alike.refl (s : Layout) : Alike id s s := ⟨(List.map_id _).symm, rfl, rfl⟩

theorem level_map (hzero : f 0 = 0) (levels : List Nat) : level (levels.map f) = f (level levels) := by
  cases levels with
  | nil => exact hzero.symm
  | cons a levels => rfl

/-- The levels that a line leaves correspond, since `f` keeps the order of widths. -/
theorem takeWhile_map (hf : StrictMono f) (levels : List Nat) :
    (levels.map f).takeWhile (f column < ·) = (levels.takeWhile (column < ·)).map f := by
  rw [List.takeWhile_map]
  congr 2
  funext a
  exact decide_eq_decide.2 hf.lt_iff_lt

theorem kinds_marks {α : Type} (k : TokenKind) (span : Span) (as : List α) :
    Unroll.kinds (as.map fun _ => (⟨k, span⟩ : Token)) = List.replicate as.length k := by
  rw [List.map_const', Unroll.kinds, List.map_replicate]

/-- **Lines are aligned alike.** -/
theorem align_alike (hf : StrictMono f) (hzero : f 0 = 0) (hs : Alike f s s') :
    EndsAlike (Alike f) (s.align l column) (s'.align l' (f column)) := by
  obtain ⟨hlevels, hdepth, hkinds⟩ := hs
  unfold align
  dsimp only
  rw [hdepth, hlevels, level_map hzero]
  split
  · exact .ok ⟨hlevels, hdepth, hkinds⟩
  · rw [takeWhile_map hf, List.length_map, ← List.map_drop, level_map hzero]
    split
    · rename_i hdeeper
      rw [if_pos (hf hdeeper)]
      refine .ok ⟨by rw [List.map_cons], rfl, ?_⟩
      rw [Array.toList_push, Array.toList_push, kinds_append, kinds_append, hkinds]
      rfl
    · rename_i hshallow
      rw [if_neg (fun h => hshallow (hf.lt_iff_lt.1 h))]
      split
      · rename_i hmeets
        rw [if_pos (congrArg f hmeets)]
        refine .ok ⟨rfl, rfl, ?_⟩
        rw [Array.toList_appendList, Array.toList_appendList, kinds_append, kinds_append, hkinds, kinds_marks,
          kinds_marks, List.length_map]
      · rename_i hmisses
        rw [if_neg (fun h => hmisses (hf.injective h))]
        exact .error rfl

theorem align_depth (h : s.align l column = .ok t) : t.depth = s.depth := by
  unfold align at h
  split at h
  · cases h
    rfl
  · dsimp only at h
    split at h
    · cases h
      rfl
    · split at h
      · cases h
        rfl
      · cases h

/-- **Lines that scan alike are laid out alike.** -/
theorem coded_alike (hf : StrictMono f) (hzero : f 0 = 0) (hs : Alike f s s') (hleading : l'.leading = f l.leading)
    (hscan : EndsAlike SameLine (scanLine s.depth (l.start + l.leading) l.code)
      (scanLine s.depth (l'.start + l'.leading) l'.code)) : EndsAlike (Alike f) (s.coded l) (s'.coded l') := by
  have halign : EndsAlike (Alike f) (s.align l l.leading) (s'.align l' (f l.leading)) := align_alike hf hzero hs
  rw [← hleading] at halign
  unfold coded
  cases ha : s.align l l.leading with
  | error e =>
    obtain ⟨e', he', hfault⟩ := halign.of_error ha
    rw [he']
    exact .error hfault
  | ok u =>
    obtain ⟨u', hu', hlevels, hdepth, hkinds⟩ := halign.of_ok ha
    rw [hu']
    rw [← align_depth ha] at hscan
    show EndsAlike _ (scanLine u.depth _ _ >>= _) (scanLine u'.depth _ _ >>= _)
    rw [hdepth]
    refine hscan.bind fun ⟨ts, d⟩ ⟨ts', d'⟩ ⟨hts, hd⟩ => ?_
    dsimp only at hts hd ⊢
    subst hd
    refine .ok ⟨hlevels, rfl, ?_⟩
    dsimp only
    split
    · rw [Array.toList_push, Array.toList_push, kinds_append, kinds_append, Array.toList_appendList,
        Array.toList_appendList, kinds_append, kinds_append, hkinds, hts]
      rfl
    · rw [Array.toList_appendList, Array.toList_appendList, kinds_append, kinds_append, hkinds, hts]

/-- Lines with the same code, behind so many spaces and behind `f` of them. -/
structure LinesAlike (f : Nat → Nat) (l l' : Line) : Prop where
  blank : l'.content.all Text.isBlank = l.content.all Text.isBlank
  tab : l'.content.contains '\t' = l.content.contains '\t'
  leading : l'.leading = f l.leading
  code : l'.code = l.code

theorem LinesAlike.of_content (h : l'.content = l.content) : LinesAlike id l l' := by
  have hleading : l'.leading = l.leading := by rw [Line.leading, Line.leading, h]
  exact ⟨by rw [h], by rw [h], hleading, by rw [Line.code, Line.code, h, hleading]⟩

theorem line_alike (hf : StrictMono f) (hzero : f 0 = 0) (hs : Alike f s s') (hl : LinesAlike f l l') :
    EndsAlike (Alike f) (s.line l) (s'.line l') := by
  have hcoded : EndsAlike (Alike f) (s.coded l) (s'.coded l') := by
    refine coded_alike hf hzero hs hl.leading ?_
    rw [hl.code]
    exact scanLine_anywhere ..
  unfold coded at hcoded
  rw [hl.code] at hcoded
  unfold line
  rw [hl.blank, hl.tab, hl.code]
  split
  · exact .ok hs
  · split
    · exact .error rfl
    · split
      · exact .ok hs
      · exact hcoded

theorem lines_alike (hf : StrictMono f) (hzero : f 0 = 0) {ls ls' : List Line}
    (hls : List.Forall₂ (LinesAlike f) ls ls') (hs : Alike f s s') : EndsAlike (Alike f) (ls.foldlM line s) (ls'.foldlM line s') := by
  induction hls generalizing s s' with
  | nil => exact .ok hs
  | cons hl _ ih =>
    rw [List.foldlM_cons, List.foldlM_cons]
    exact (line_alike hf hzero hs hl).bind fun _ _ => ih

theorem finish_alike {stop stop' : Nat} (hs : Alike f s s') :
    EndsAlike SameKinds (s.finish stop) (s'.finish stop') := by
  unfold finish
  dsimp only
  rw [hs.depth]
  split
  · exact .error rfl
  · refine .ok ?_
    rw [SameKinds, kinds_append, kinds_append, kinds_append, kinds_append, hs.kinds, hs.levels, kinds_marks,
      kinds_marks, List.length_map]
    rfl

/-! ## Lines that stand nowhere -/

/-- The line with the given content, wherever it stands. -/
def bare (content : List Char) : Line := ⟨0, content, 0⟩

/-- **The tokens of lines that stand nowhere.** -/
def ofLines (ls : List (List Char)) : Except LexError (List Token) := do
  let s ← (ls.map bare).foldlM line start
  s.finish 0

/-- The lines of a text are what stands between its line feeds; an empty one at the end adds nothing. -/
theorem split_alike (start : Nat) (cs : List Char) (hs : Alike id s s') :
    EndsAlike (Alike id) ((Line.split start cs).foldlM line s) (((cs.splitOn '\n').map bare).foldlM line s') := by
  induction cs using Line.text_induction generalizing start s s' with
  | empty =>
    rw [Line.split]
    exact .ok hs
  | last l hne hl =>
    rw [Line.split_last start hne hl, List.splitOn_eq_singleton (by simpa using hl)]
    refine lines_alike strictMono_id rfl ?_ hs
    exact .cons (.of_content rfl) .nil
  | line l after hl ih =>
    rw [Line.split_line start hl, List.splitOn_append_cons_self_of_not_mem hl, List.map_cons, List.foldlM_cons,
      List.foldlM_cons]
    have hline : LinesAlike id ⟨start, l, start + Text.width l + 1⟩ (bare l) := .of_content rfl
    exact (line_alike strictMono_id rfl hs hline).bind fun _ _ h => ih _ h

theorem ofLines_alike (hf : StrictMono f) (hzero : f 0 = 0) {ls ls' : List (List Char)}
    (hls : List.Forall₂ (fun l l' => LinesAlike f (bare l) (bare l')) ls ls') :
    EndsAlike SameKinds (ofLines ls) (ofLines ls') := by
  have hstart : Alike f start start := ⟨rfl, rfl, rfl⟩
  have hbare : List.Forall₂ (LinesAlike f) (ls.map bare) (ls'.map bare) := by
    rw [List.forall₂_map_left_iff, List.forall₂_map_right_iff]
    exact hls
  exact (lines_alike hf hzero hbare hstart).bind fun _ _ => finish_alike

end Layout

open Layout

/-- **A text is read as its bare lines are.** -/
theorem tokens_ofLines (source : String) :
    EndsAlike SameKinds (tokens source) (ofLines (source.toList.splitOn '\n')) := by
  unfold tokens ofLines
  exact (split_alike 0 _ (.refl start)).bind fun _ _ => finish_alike

theorem tokens_alike {source source' : String}
    (h : EndsAlike SameKinds (ofLines (source.toList.splitOn '\n')) (ofLines (source'.toList.splitOn '\n'))) :
    EndsAlike SameKinds (tokens source) (tokens source') :=
  ((tokens_ofLines source).trans h).trans (tokens_ofLines source').symm

/-! ## Widths of indentation -/

namespace Line

/-- The line behind `f n` spaces in place of its `n`. -/
def indented (f : Nat → Nat) (l : List Char) : List Char :=
  List.replicate (f (l.takeWhile (· == ' ')).length) ' ' ++ l.dropWhile (· == ' ')

theorem indented_alike (f : Nat → Nat) (l : List Char) : LinesAlike f (bare l) (bare (indented f l)) := by
  have hl : (bare l).content = _ := spaces_rest l
  have hindented : (bare (indented f l)).content =
    List.replicate (f (l.takeWhile (· == ' ')).length) ' ' ++ l.dropWhile (· == ' ') := rfl
  obtain ⟨hleading, hcode⟩ := leading_spaces hl (rest_head l)
  obtain ⟨hleading', hcode'⟩ := leading_spaces hindented (rest_head l)
  refine ⟨?_, ?_, by rw [hleading', hleading], by rw [hcode', hcode]⟩
  · rw [hl, hindented, all_spaces, all_spaces]
  · rw [hl, hindented, contains_spaces, contains_spaces]

end Line

/-- The text with `f n` spaces in place of the `n` that each of its lines begins with. -/
def reindented (f : Nat → Nat) (source : String) : String :=
  String.ofList (['\n'].intercalate ((source.toList.splitOn '\n').map (Line.indented f)))

theorem reindented_lines (f : Nat → Nat) (source : String) :
    (reindented f source).toList.splitOn '\n' = (source.toList.splitOn '\n').map (Line.indented f) := by
  have hne : (source.toList.splitOn '\n').map (Line.indented f) ≠ [] := by
    rw [Ne, List.map_eq_nil_iff]
    exact List.splitOn_ne_nil _ _
  have hlines : ∀ l ∈ (source.toList.splitOn '\n').map (Line.indented f), '\n' ∉ l := by
    intro _ hmem hfeed
    obtain ⟨l, hl, rfl⟩ := List.mem_map.1 hmem
    rcases List.mem_append.1 hfeed with hfeed | hfeed
    · exact absurd (List.eq_of_mem_replicate hfeed) (by decide)
    · exact Line.mem_lines hl ((List.dropWhile_sublist _).mem hfeed)
  rw [reindented, String.toList_ofList, List.splitOn_intercalate _ hlines hne]

/-- **Only the order of widths counts.**  With its lines behind other widths of the same order, a text is read as the
same tokens but for their places, or has the same fault. -/
theorem tokens_reindented {f : Nat → Nat} (hf : StrictMono f) (hzero : f 0 = 0) (source : String) :
    (∀ ts, tokens source = .ok ts → ∃ us, tokens (reindented f source) = .ok us ∧ kinds us = kinds ts) ∧
    ∀ e, tokens source = .error e → ∃ e', tokens (reindented f source) = .error e' ∧ e'.fault = e.fault := by
  have halike : EndsAlike SameKinds (tokens source) (tokens (reindented f source)) := by
    refine tokens_alike ?_
    rw [reindented_lines]
    refine ofLines_alike hf hzero ?_
    rw [List.forall₂_map_right_iff]
    exact List.forall₂_same.2 fun l _ => Line.indented_alike f l
  exact ⟨fun _ => halike.of_ok, fun _ => halike.of_error⟩

theorem tokens_reindented_doubled : ∃ ts us, tokens "a(\n   b)\n  c\n    d\ne" = .ok ts ∧
    tokens (reindented (2 * ·) "a(\n   b)\n  c\n    d\ne") = .ok us ∧ kinds us = kinds ts := by
  have hf : StrictMono fun n : Nat => 2 * n := fun m n hmn => by
    dsimp only
    omega
  have hread : (tokens "a(\n   b)\n  c\n    d\ne").toOption.isSome = true := by decide +kernel
  cases hts : tokens "a(\n   b)\n  c\n    d\ne" with
  | error e =>
    rw [hts] at hread
    cases hread
  | ok ts =>
    obtain ⟨us, hus, hkinds⟩ := (tokens_reindented hf rfl "a(\n   b)\n  c\n    d\ne").1 ts hts
    exact ⟨ts, us, rfl, hus, hkinds⟩

end Unroll
