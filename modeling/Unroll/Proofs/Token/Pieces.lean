import Mathlib.Data.List.Chain
import Mathlib.Data.List.Infix
import Unroll.Proofs.Pieces
import Unroll.Proofs.Token.Alike
import Unroll.Proofs.Token.Spelling
import Unroll.Proofs.Token.Structure
/-!
# Pieces that are written out are read back

Pieces are tokens and single spaces.  Their text is scanned as these tokens, and no comment begins in it, where no token
goes on in the one right behind it (`Piece.Apart`); if the brackets among them are balanced too, a line of them is laid
out as a line of its own, at the column where it begins.
-/
namespace Unroll

open Lexeme

/-! ## Brackets -/

namespace TokenKind

/-- The number of brackets open after the tokens, below zero where more are closed than opened. -/
def brackets : List TokenKind → Int
  | [] => 0
  | k :: ks => k.bracketDelta + brackets ks

/-- Every bracket that is closed was opened, and every one that was opened is closed. -/
structure Balanced (ks : List TokenKind) : Prop where
  opened : ∀ pre, pre <+: ks → 0 ≤ brackets pre
  closed : brackets ks = 0

theorem brackets_append (ks ks' : List TokenKind) : brackets (ks ++ ks') = brackets ks + brackets ks' := by
  induction ks with
  | nil => exact (Int.zero_add _).symm
  | cons k ks ih =>
    show k.bracketDelta + brackets (ks ++ ks') = k.bracketDelta + brackets ks + brackets ks'
    rw [ih, Int.add_assoc]

theorem depthAfter_of_nonneg {k : TokenKind} {depth : Nat} (h : 0 ≤ (depth : Int) + k.bracketDelta) :
    ∃ opened, k.depthAfter depth = some opened := by
  cases k with
  | symbol s =>
    cases s <;> first | exact ⟨_, rfl⟩ | cases depth with
      | zero => cases h
      | succ d => exact ⟨d, rfl⟩
  | _ => exact ⟨depth, rfl⟩

namespace Balanced

variable {k k' : TokenKind} {ks ks' : List TokenKind}

theorem nil : Balanced [] := ⟨fun pre hpre => by rw [List.prefix_nil.1 hpre]; exact Int.le_refl _, rfl⟩

theorem append (h : Balanced ks) (h' : Balanced ks') : Balanced (ks ++ ks') := by
  refine ⟨fun pre ⟨post, hpost⟩ => ?_, by rw [brackets_append, h.closed, h'.closed, Int.add_zero]⟩
  rcases List.append_eq_append_iff.1 hpost with ⟨gap, hks, -⟩ | ⟨pre', rfl, hks'⟩
  · exact h.opened pre ⟨gap, hks.symm⟩
  · rw [brackets_append, h.closed, Int.zero_add]
    exact h'.opened pre' ⟨post, hks'.symm⟩

theorem neutral (hk : k.bracketDelta = 0) : Balanced [k] := by
  have hone : brackets [k] = 0 := by rw [brackets, hk, brackets, Int.add_zero]
  refine ⟨fun pre hpre => ?_, hone⟩
  have hlast : pre <+: [] ++ [k] := hpre
  obtain rfl | hnil := List.prefix_concat_iff.1 hlast
  · exact Int.le_of_eq hone.symm
  · rw [List.prefix_nil.1 hnil]
    exact Int.le_refl _

/-- Brackets around what is balanced. -/
theorem enclosed (h : Balanced ks) (hk : k.bracketDelta = 1) (hk' : k'.bracketDelta = -1) :
    Balanced (k :: ks ++ [k']) := by
  have hcons : ∀ pre, brackets (k :: pre) = 1 + brackets pre := fun pre => by rw [brackets, hk]
  have hlast : brackets [k'] = -1 := by rw [brackets, hk', brackets, Int.add_zero]
  have hwhole : brackets (k :: ks ++ [k']) = 0 := by
    rw [brackets_append, hcons, h.closed, hlast]
    rfl
  refine ⟨fun pre hpre => ?_, hwhole⟩
  obtain rfl | hpre := List.prefix_concat_iff.1 hpre
  · exact Int.le_of_eq hwhole.symm
  · cases pre with
    | nil => exact Int.le_refl _
    | cons k₁ pre =>
      obtain ⟨rfl, hrest⟩ := List.cons_prefix_cons.1 hpre
      have hpos := h.opened pre hrest
      rw [hcons]
      omega

end Balanced

/-! ## Neighbours -/

/-- Letters and digits right behind it belong to it. -/
def isWord : TokenKind → Bool
  | keyword _ | name _ | int _ => true
  | _ => false

/-- **Whether the first token goes on in the second**, if that is written right behind it: as a word, as a symbol, or as
the mark of a comment. -/
def goesOn : TokenKind → TokenKind → Bool
  | symbol s, symbol s' => s'.spelling.toList.head?.any s.absorbs || (s == .slash && s' == .slash)
  | k, k' => k.isWord && k'.isWord

theorem quoted_first {q c : Char} {cs r : List Char} (h : (quoted q cs).toList = c :: r) : c = q := by
  rw [quoted, String.toList_ofList] at h
  exact (List.cons.inj h).1.symm

/-- Just the words begin with what goes on in a word. -/
theorem spelling_first {k : TokenKind} (h : k.Writable) {c : Char} {r : List Char} (hk : k.spelling.toList = c :: r) :
    continuesWord c = k.isWord := by
  cases k with
  | keyword w => cases w <;> cases hk <;> rfl
  | symbol s => cases s <;> cases hk <;> rfl
  | name n => exact h.worded c (hk ▸ List.mem_cons_self ..)
  | int v =>
    rw [spelling, Nat.toString_eq_ofList_toDigits, String.toList_ofList] at hk
    have hdigit := Nat.isDigit_of_mem_toDigits (by decide) (by decide) (hk ▸ List.mem_cons_self ..)
    exact Bool.or_eq_true_iff.2 (.inr hdigit)
  | char _ | text _ =>
    rw [quoted_first hk]
    rfl
  | _ => exact h.elim

theorem absorbs_word {s : Symbol} {c : Char} (h : continuesWord c = true) : s.absorbs c = false := by
  cases hs : s.absorbs c with
  | false => rfl
  | true => cases s <;> first | cases hs | (rw [eq_of_beq hs] at h; cases h)

/-- What does not go on in the next token is not longer for its spelling. -/
theorem endsBefore_spelling {k k' : TokenKind} (hk' : k'.Writable) (h : k.goesOn k' = false) (rest : List Char) :
    k.EndsBefore (k'.spelling.toList ++ rest) := by
  obtain ⟨c, r, hspelling, -⟩ := scan_spelling hk'
  have hfirst := spelling_first hk' hspelling
  rintro _ hc
  rw [hspelling] at hc
  cases hc
  cases k with
  | keyword _ | name _ | int _ =>
    refine hfirst.trans ?_
    cases k' <;> first | rfl | cases h
  | symbol s =>
    cases k' with
    | symbol s' =>
      have hnone := (Bool.or_eq_false_iff.1 h).1
      rw [spelling] at hspelling
      rwa [hspelling] at hnone
    | keyword _ | name _ | int _ => exact absorbs_word hfirst
    | char _ | text _ =>
      rw [quoted_first hspelling]
      cases s <;> rfl
    | _ => exact hk'.elim
  | _ => rfl

/-- No slash comes behind one, unless they are two tokens that make the mark of a comment. -/
theorem slash_spelling {k k' : TokenKind} (hk : k.Writable) (hk' : k'.Writable) (h : k.goesOn k' = false)
    (hslash : k.spelling.toList = ['/']) (rest : List Char) : (k'.spelling.toList ++ rest).head? ≠ some '/' := by
  have hsymbol : ∀ {k₀ : TokenKind} {r : List Char}, k₀.Writable → k₀.spelling.toList = '/' :: r →
      k₀ = .symbol .slash := fun hk₀ hr => by
    obtain ⟨c, r', hc, hscan⟩ := scan_spelling hk₀
    rw [hr] at hc
    cases hc
    exact (Except.ok.inj (congrArg Prod.fst hscan)).symm
  obtain ⟨c, r, hspelling, -⟩ := scan_spelling hk'
  rw [hspelling]
  rintro hc
  cases hc
  rw [hsymbol hk hslash, hsymbol hk' hspelling] at h
  cases h

end TokenKind

open TokenKind

/-! ## Pieces -/

namespace Piece

/-- The first piece does not go on in the second. -/
def Apart : Piece → Piece → Prop
  | token k, token k' => k.goesOn k' = false
  | _, _ => True

@[simp] theorem apart_space (p : Piece) : Apart p space := by
  cases p <;> trivial

@[simp] theorem space_apart (p : Piece) : Apart space p := trivial

variable {k : TokenKind} {ps : List Piece}

theorem endsBefore_chars (hw : ∀ k ∈ kinds ps, k.Writable) (h : (token k :: ps).IsChain Apart) :
    k.EndsBefore (chars ps) := by
  cases ps with
  | nil => exact endsBefore_nil
  | cons p ps =>
    cases p with
    | space => exact (stops_cons.2 rfl).endsBefore
    | token k' => exact endsBefore_spelling (hw k' (List.mem_cons_self ..)) (List.isChain_cons_cons.1 h).1 (chars ps)

/-- **Pieces that stand apart are scanned as the tokens among them.** -/
theorem scans (hw : ∀ k ∈ kinds ps, k.Writable) (hapart : ps.IsChain Apart) {depth : Nat} (start : Nat)
    (hopen : ∀ pre, pre <+: kinds ps → 0 ≤ (depth : Int) + brackets pre) :
    ∃ ts d, Scans depth start (chars ps) ts d ∧ Unroll.kinds ts = kinds ps ∧
      (d : Int) = depth + brackets (kinds ps) := by
  induction ps generalizing depth start with
  | nil => exact ⟨[], depth, .nil, rfl, (Int.add_zero _).symm⟩
  | cons p ps ih =>
    cases p with
    | space =>
      obtain ⟨ts, d, hscans, hkinds, hd⟩ := ih hw hapart.tail (start + ' '.utf8Size) hopen
      exact ⟨ts, d, .separator rfl hscans, hkinds, hd⟩
    | token k =>
      obtain ⟨hk, hw⟩ := List.forall_mem_cons.1 hw
      have hbrackets : ∀ pre, brackets (k :: pre) = k.bracketDelta + brackets pre := fun _ => rfl
      have hone : brackets [k] = k.bracketDelta := Int.add_zero _
      obtain ⟨opened, hopened⟩ := depthAfter_of_nonneg (hone ▸ hopen [k] ⟨kinds ps, rfl⟩)
      have hdepth := depthAfter_some hopened
      have hopen' : ∀ pre, pre <+: kinds ps → 0 ≤ (opened : Int) + brackets pre := by
        intro pre hpre
        have hmore := hopen (k :: pre) (List.cons_prefix_cons.2 ⟨rfl, hpre⟩)
        rw [hbrackets] at hmore
        omega
      obtain ⟨c, r, hspelling, hscan⟩ := scan_spelling hk
      obtain ⟨ts, d, hscans, hkinds, hd⟩ := ih hw hapart.tail (start + Text.width (c :: r)) hopen'
      refine ⟨⟨k, ⟨start, Text.width (c :: r)⟩⟩ :: ts, d, ?_, congrArg (k :: ·) hkinds, ?_⟩
      · rw [chars_token, hspelling]
        exact .lexeme (taken_before hscan (endsBefore_chars hw hapart)) hopened hscans
      · rw [kinds, hbrackets, hd, hdepth, Int.add_assoc]

/-- No comment begins among pieces that stand apart. -/
theorem uncommented (hw : ∀ k ∈ kinds ps, k.Writable) (hapart : ps.IsChain Apart) :
    Line.beforeComment none (chars ps) = chars ps := by
  induction ps with
  | nil => rfl
  | cons p ps ih =>
    cases p with
    | space =>
      have hplain : ∀ c ∈ [' '], Line.plain c = true := by simp [Line.plain]
      have hspace := Line.beforeComment_plain hplain (chars ps)
      rw [ih hw hapart.tail] at hspace
      exact hspace
    | token k =>
      obtain ⟨hk, hw'⟩ := List.forall_mem_cons.1 hw
      have hslash : k.spelling.toList = ['/'] → (chars ps).head? ≠ some '/' := by
        intro hslash
        cases ps with
        | nil => simp [chars]
        | cons p ps =>
          cases p with
          | space => simp [chars_space]
          | token k' =>
            have hnext := (List.isChain_cons_cons.1 hapart).1
            exact slash_spelling hk (hw' k' (List.mem_cons_self ..)) hnext hslash (chars ps)
      rw [chars_token, (spelling_pattern hk).passed hslash, ih hw' hapart.tail]

/-- Nothing of what is written ends the line or is a tab. -/
theorem printable (hw : ∀ k ∈ kinds ps, k.Writable) : ∀ c ∈ chars ps, Text.isControl c = false := by
  intro c hc
  obtain ⟨p, hp, hc⟩ := List.mem_flatMap.1 hc
  cases p with
  | space =>
    rw [List.mem_singleton.1 hc]
    decide
  | token k => exact spelling_printable (hw k (mem_kinds hp)) c hc

/-- **Pieces that are read back**: their tokens have spellings, stand apart, and have their brackets closed. -/
structure Neat (ps : List Piece) : Prop where
  writable : ∀ k ∈ kinds ps, k.Writable
  apart : ps.IsChain Apart
  balanced : Balanced (kinds ps)

end Piece

namespace Layout

/-- **Neat pieces are laid out as a line of their tokens**, from the state that their column is reached in. -/
theorem line_pieces {s u : Layout} {k : TokenKind} {ps : List Piece} {n : Nat} (h : Piece.Neat (.token k :: ps))
    (halign : s.align (bare (List.replicate n ' ' ++ Piece.chars (.token k :: ps))) n = .ok u) (hdepth : u.depth = 0) :
    ∃ t, s.line (bare (List.replicate n ' ' ++ Piece.chars (.token k :: ps))) = .ok t ∧ t.levels = u.levels ∧
      t.depth = 0 ∧
      Unroll.kinds t.tokens.toList = Unroll.kinds u.tokens.toList ++ Piece.kinds (.token k :: ps) ++ [.newline] := by
  obtain ⟨hwritable, hapart, hbalanced⟩ := h
  obtain ⟨c, cs, hchars, hc⟩ : ∃ c cs, Piece.chars (.token k :: ps) = c :: cs ∧ Text.isBlank c = false := by
    have hk := hwritable k (List.mem_cons_self ..)
    obtain ⟨c, r, hspelling, -⟩ := scan_spelling hk
    have hpattern := spelling_pattern hk
    rw [hspelling] at hpattern
    exact ⟨c, r ++ Piece.chars ps, by rw [Piece.chars_token, hspelling]; rfl, hpattern.not_blank⟩
  have hopen : ∀ pre, pre <+: Piece.kinds (.token k :: ps) → 0 ≤ ((0 : Nat) : Int) + brackets pre := by
    intro pre hpre
    have hpos := hbalanced.opened pre hpre
    omega
  obtain ⟨ts, d, hscans, hkinds, hd⟩ := Piece.scans hwritable hapart (0 + n) hopen
  obtain rfl : d = 0 := by
    rw [hbalanced.closed] at hd
    omega
  have hprintable := Piece.printable hwritable
  have hwhole := Piece.uncommented hwritable hapart
  generalize Piece.chars (.token k :: ps) = text at *
  have hhead : text.head? ≠ some ' ' := by
    rintro hspace
    rw [hchars] at hspace
    cases hspace
    cases hc
  have hcontent : (bare (List.replicate n ' ' ++ text)).content = List.replicate n ' ' ++ text := rfl
  obtain ⟨hleading, hcode⟩ := Line.leading_spaces hcontent hhead
  rw [hwhole] at hcode
  have hfilled : text.all Text.isBlank = false := by rw [hchars, List.all_cons, hc, Bool.false_and]
  have htab : text.contains '\t' = false :=
    Line.contains_tab.2 fun hmem => absurd (hprintable _ hmem) (by decide)
  have hsays : Says (bare (List.replicate n ' ' ++ text)) :=
    ⟨by rw [hcontent, Line.all_spaces, hfilled], by rw [hcontent, Line.contains_spaces, htab], by rw [hcode, hfilled]⟩
  refine ⟨⟨u.levels, 0, (u.tokens ++ ts).push ⟨.newline, ⟨0, 0⟩⟩⟩, ?_, rfl, rfl, ?_⟩
  · rw [line_coded hsays, coded_ok, hleading, hcode]
    exact ⟨u, ts, 0, halign, by rw [hdepth]; exact hscans.scanLine, rfl⟩
  · rw [Array.toList_push, Array.toList_appendList, kinds_append, kinds_append, hkinds]
    rfl

/-- Outside of brackets a text can end, and every open block ends with it. -/
theorem finish_kinds {s : Layout} (h : s.depth = 0) (stop : Nat) : ∃ ts, s.finish stop = .ok ts ∧
    Unroll.kinds ts = Unroll.kinds s.tokens.toList ++ List.replicate s.levels.length .dedent ++ [.eof] := by
  refine ⟨_, if_neg (by omega), ?_⟩
  rw [kinds_append, kinds_append, kinds_marks]
  rfl

end Layout

end Unroll
