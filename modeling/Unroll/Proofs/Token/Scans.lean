import Unroll.Proofs.Outcome
import Unroll.Proofs.Token.Pattern
import Unroll.Token.Layout
/-!
# A line and its lexemes

The scan of a line is a sequence of lexemes with separators between them (`Scans`).  The search for a comment runs over
the characters of the same line with quotes and escapes of its own; it passes over each lexeme as a whole
(`Pattern.passed`), so that both agree on where a quotation ends, and nothing that comes behind a scanned line is
taken for a part of it (`Scans.passed`).
-/
namespace Unroll

open Lexeme

/-- The line is scanned: from the byte offset `start` on, under so many open brackets, with so many left. -/
inductive Scans : Nat → Nat → List Char → List Token → Nat → Prop
  | nil {depth start : Nat} : Scans depth start [] [] depth
  | separator {depth start d : Nat} {c : Char} {rest : List Char} {ts : List Token} : isSeparator c = true →
    Scans depth (start + c.utf8Size) rest ts d → Scans depth start (c :: rest) ts d
  | lexeme {depth start opened d : Nat} {c : Char} {r rest : List Char} {k : TokenKind} {ts : List Token} :
    scan c (r ++ rest) = (.ok k, r.length) → k.depthAfter depth = some opened →
    Scans opened (start + Text.width (c :: r)) rest ts d →
    Scans depth start (c :: (r ++ rest)) (⟨k, ⟨start, Text.width (c :: r)⟩⟩ :: ts) d

/-- What begins a lexeme separates nothing. -/
theorem Lexeme.not_separator {c : Char} {rest : List Char} {k : TokenKind} {n : Nat} (h : scan c rest = (.ok k, n)) :
    isSeparator c = false := by
  cases hc : isSeparator c with
  | false => rfl
  | true =>
    simp only [isSeparator, Bool.or_eq_true, beq_iff_eq] at hc
    rcases hc with (rfl | rfl) | rfl <;> cases h

theorem Lexeme.separator_stops {c : Char} (h : isSeparator c = true) : joins c = false := by
  simp only [isSeparator, Bool.or_eq_true, beq_iff_eq] at h
  rcases h with (rfl | rfl) | rfl <;> rfl

theorem scanLine_separator {depth start : Nat} {c : Char} {rest : List Char} (h : isSeparator c = true) :
    scanLine depth start (c :: rest) = scanLine depth (start + c.utf8Size) rest := by
  rw [scanLine, if_pos h]

theorem scanLine_lexeme {depth start opened : Nat} {c : Char} {r rest : List Char} {k : TokenKind}
    (hscan : scan c (r ++ rest) = (.ok k, r.length)) (hopened : k.depthAfter depth = some opened) :
    scanLine depth start (c :: (r ++ rest)) =
      scanLine opened (start + Text.width (c :: r)) rest >>= fun p =>
        .ok (⟨k, ⟨start, Text.width (c :: r)⟩⟩ :: p.1, p.2) := by
  rw [scanLine, if_neg (by simp [not_separator hscan]), hscan]
  dsimp only
  rw [List.take_left, List.drop_left, hopened]
  dsimp only [Span.stop]
  cases scanLine opened (start + Text.width (c :: r)) rest <;> rfl

theorem scanLine_fault {depth start : Nat} {c : Char} {r rest : List Char} {fault : LexFault}
    (hc : isSeparator c = false) (hscan : scan c (r ++ rest) = (.error fault, r.length)) :
    scanLine depth start (c :: (r ++ rest)) = .error ⟨fault, ⟨start, Text.width (c :: r)⟩⟩ := by
  rw [scanLine, if_neg (by simp [hc]), hscan]
  dsimp only
  rw [List.take_left]

theorem scans_of_scanLine {cs : List Char} {depth start d : Nat} {ts : List Token}
    (h : scanLine depth start cs = .ok (ts, d)) : Scans depth start cs ts d := by
  fun_induction scanLine depth start cs generalizing ts d with
  | case1 =>
    cases h
    exact .nil
  | case2 depth start c rest hsep ih => exact .separator hsep (ih h)
  | case3 => cases h
  | case4 => cases h
  | case5 => cases h
  | case6 depth start c rest hsep n span kind opened hopened tokens left hrest hscan =>
    rename_i ih
    cases h
    obtain ⟨hn, -⟩ := scan_pattern hscan
    have hr : (rest.take n).length = n := List.length_take_of_le hn
    have hline : Scans depth start (c :: (rest.take n ++ rest.drop n)) (⟨kind, span⟩ :: tokens) left :=
      .lexeme (by rw [List.take_append_drop, hr, hscan]) hopened (ih hrest)
    rwa [List.take_append_drop] at hline

theorem Scans.scanLine {cs : List Char} {depth start d : Nat} {ts : List Token} (h : Scans depth start cs ts d) :
    scanLine depth start cs = .ok (ts, d) := by
  induction h with
  | nil => rw [Unroll.scanLine]
  | separator hsep _ ih => rw [scanLine_separator hsep, ih]
  | lexeme hscan hopened _ ih =>
    rw [scanLine_lexeme hscan hopened, ih]
    rfl

/-- **A line is scanned well exactly where it is lexemes and separators.** -/
theorem scanLine_iff {cs : List Char} {depth start d : Nat} {ts : List Token} :
    scanLine depth start cs = .ok (ts, d) ↔ Scans depth start cs ts d := ⟨scans_of_scanLine, Scans.scanLine⟩

namespace Lexeme

variable {c : Char} {r rest tail : List Char} {k : TokenKind}

/-- What a lexeme takes has a pattern. -/
theorem taken_pattern (h : scan c (r ++ rest) = (.ok k, r.length)) : Pattern (c :: r) := by
  have hp := (scan_pattern h).2
  rwa [List.take_left] at hp

theorem taken_alone (h : scan c (r ++ rest) = (.ok k, r.length)) : scan c r = (.ok k, r.length) := by
  have hcut := scan_cut h (Nat.le_refl _) endsBefore_nil
  rwa [List.take_left, List.append_nil] at hcut

theorem taken_before (h : scan c r = (.ok k, r.length)) (htail : k.EndsBefore tail) :
    scan c (r ++ tail) = (.ok k, r.length) := by
  have hcut := scan_cut h (Nat.le_refl _) htail
  rwa [List.take_length] at hcut

theorem taken_longer (h : scan c (r ++ rest) = (.ok k, r.length)) (htail : Stops tail) :
    scan c (r ++ (rest ++ tail)) = (.ok k, r.length) := by
  have hcut := scan_cut h (i := (r ++ rest).length) (by simp) htail.endsBefore
  rwa [List.take_length, List.append_assoc] at hcut

end Lexeme

/-! ## Comments -/

namespace Line

theorem beforeComment_escape (q d : Char) (after : List Char) :
    beforeComment (some q) ('\\' :: d :: after) = '\\' :: d :: beforeComment (some q) after := by
  rw [beforeComment.eq_def]
  rfl

theorem beforeComment_inside {q c : Char} (hc : c ≠ '\\') (rest : List Char) :
    beforeComment (some q) (c :: rest) = c :: beforeComment (if c = q then none else some q) rest := by
  rw [beforeComment.eq_def]
  exact if_neg hc

theorem beforeComment_outside {c : Char} {rest : List Char} (hc : c ≠ '#')
    (hslash : ¬ (c = '/' ∧ rest.head? = some '/')) : beforeComment none (c :: rest) =
      c :: beforeComment (if c = '"' ∨ c = '\'' then some c else none) rest := by
  rw [beforeComment.eq_def]
  exact (if_neg hc).trans (if_neg hslash)

/-- A comment, from its mark on. -/
def IsComment (cs : List Char) : Prop := ['#'] <+: cs ∨ ['/', '/'] <+: cs

theorem IsComment.append {cs : List Char} (h : IsComment cs) (more : List Char) : IsComment (cs ++ more) :=
  h.imp (·.trans (List.prefix_append ..)) (·.trans (List.prefix_append ..))

theorem beforeComment_comment {cs : List Char} (h : IsComment cs) : beforeComment none cs = [] := by
  obtain ⟨t, rfl⟩ | ⟨t, rfl⟩ := h <;> simp [beforeComment]

/-- **A line is what stands before its comment, and the comment.** -/
theorem beforeComment_split (quote : Option Char) (cs : List Char) :
    ∃ comment, cs = beforeComment quote cs ++ comment ∧ (comment = [] ∨ IsComment comment) := by
  fun_induction beforeComment quote cs with
  | case1 => exact ⟨[], rfl, .inl rfl⟩
  | case2 => exact ⟨[], rfl, .inl rfl⟩
  | case3 q d after ih =>
    obtain ⟨comment, hcs, hcomment⟩ := ih
    exact ⟨comment, congrArg ('\\' :: d :: ·) hcs, hcomment⟩
  | case4 c rest q hc ih =>
    obtain ⟨comment, hcs, hcomment⟩ := ih
    exact ⟨comment, congrArg (c :: ·) hcs, hcomment⟩
  | case5 rest => exact ⟨'#' :: rest, rfl, .inr (.inl ⟨rest, rfl⟩)⟩
  | case6 c rest hc hslash =>
    obtain ⟨rfl, hrest⟩ := hslash
    obtain ⟨t, rfl⟩ := List.head?_eq_some_iff.1 hrest
    exact ⟨'/' :: '/' :: t, rfl, .inr (.inr ⟨t, rfl⟩)⟩
  | case7 c rest hc hslash ih =>
    obtain ⟨comment, hcs, hcomment⟩ := ih
    exact ⟨comment, congrArg (c :: ·) hcs, hcomment⟩

/-- Once a comment has begun, nothing that comes behind it counts. -/
theorem beforeComment_begun {quote : Option Char} {cs : List Char} (h : beforeComment quote cs ≠ cs)
    (more : List Char) : beforeComment quote (cs ++ more) = beforeComment quote cs := by
  fun_induction beforeComment quote cs with
  | case1 => exact absurd rfl h
  | case2 => exact absurd rfl h
  | case3 q d after ih =>
    rw [List.cons_append, List.cons_append, beforeComment_escape, ih fun hcs => h (congrArg ('\\' :: d :: ·) hcs)]
  | case4 c rest q hc ih =>
    rw [List.cons_append, beforeComment_inside hc, ih fun hcs => h (congrArg (c :: ·) hcs)]
  | case5 rest => exact beforeComment_comment (.inl ⟨rest ++ more, rfl⟩)
  | case6 c rest hc hslash =>
    obtain ⟨rfl, hrest⟩ := hslash
    obtain ⟨t, rfl⟩ := List.head?_eq_some_iff.1 hrest
    exact beforeComment_comment (.inr ⟨t ++ more, rfl⟩)
  | case7 c rest hc hslash ih =>
    have hrest : rest ≠ [] := by
      rintro rfl
      exact h rfl
    have hmore : ¬ (c = '/' ∧ (rest ++ more).head? = some '/') := by
      obtain ⟨x, rest, rfl⟩ := List.exists_cons_of_ne_nil hrest
      exact hslash
    rw [List.cons_append, beforeComment_outside hc hmore, ih fun hcs => h (congrArg (c :: ·) hcs)]

/-- A character that neither begins a comment nor a quotation. -/
def plain (c : Char) : Bool := !(['#', '/', '"', '\''].contains c)

theorem plain_cases {c : Char} (h : plain c = false) : c = '#' ∨ c = '/' ∨ c = '"' ∨ c = '\'' := by
  rw [plain, Bool.not_eq_false', List.contains_iff_mem] at h
  simpa using h

theorem continues_plain {c : Char} (h : continuesWord c = true) : plain c = true := by
  cases hc : plain c with
  | true => rfl
  | false =>
    rcases plain_cases hc with rfl | rfl | rfl | rfl <;> exact absurd h (by decide)

theorem blank_plain {c : Char} (h : Text.isBlank c = true) : plain c = true := by
  cases hc : plain c with
  | true => rfl
  | false =>
    rcases plain_cases hc with rfl | rfl | rfl | rfl <;> exact absurd h (by decide)

theorem separator_blank {c : Char} (h : isSeparator c = true) : Text.isBlank c = true := by
  simp only [isSeparator, Bool.or_eq_true, beq_iff_eq] at h
  rcases h with (rfl | rfl) | rfl <;> rfl

theorem beforeComment_plain {cs : List Char} (h : ∀ c ∈ cs, plain c = true) (after : List Char) :
    beforeComment none (cs ++ after) = cs ++ beforeComment none after := by
  induction cs with
  | nil => rfl
  | cons c cs ih =>
    have hc : plain c = true := h c (List.mem_cons_self ..)
    have hnot : ∀ d, plain d = false → c ≠ d := by
      rintro d hd rfl
      rw [hc] at hd
      cases hd
    have hquote : ¬ (c = '"' ∨ c = '\'') := fun hq => hq.elim (hnot _ rfl) (hnot _ rfl)
    rw [List.cons_append, beforeComment_outside (hnot _ rfl) (fun hs => hnot _ rfl hs.1), if_neg hquote,
      ih fun d hd => h d (List.mem_cons_of_mem _ hd), List.cons_append]

/-- A run without the quote and without a backslash stays inside of the quotation. -/
theorem beforeComment_quoted {q : Char} {run : List Char} (h : ∀ d ∈ run, d ≠ q ∧ d ≠ '\\') (after : List Char) :
    beforeComment (some q) (run ++ after) = run ++ beforeComment (some q) after := by
  induction run with
  | nil => rfl
  | cons d run ih =>
    obtain ⟨hq, hb⟩ := h d (List.mem_cons_self ..)
    rw [List.cons_append, beforeComment_inside hb, if_neg hq, ih fun e he => h e (List.mem_cons_of_mem _ he),
      List.cons_append]

theorem beforeComment_closing {q : Char} (hq : q ≠ '\\') (after : List Char) :
    beforeComment (some q) (q :: after) = q :: beforeComment none after := by
  rw [beforeComment_inside hq, if_pos rfl]

theorem beforeComment_text {inside : List Char} (h : TextInside inside) (after : List Char) :
    beforeComment (some '"') (inside ++ '"' :: after) = inside ++ '"' :: beforeComment none after := by
  induction h with
  | nil => exact beforeComment_closing (by decide) after
  | plain hq hb _ ih => rw [List.cons_append, beforeComment_inside hb, if_neg hq, ih, List.cons_append]
  | escape _ ih => rw [List.cons_append, List.cons_append, beforeComment_escape, ih, List.cons_append, List.cons_append]

theorem beforeComment_character {inside : List Char} (h : CharInside inside) (after : List Char) :
    beforeComment (some '\'') (inside ++ '\'' :: after) = inside ++ '\'' :: beforeComment none after := by
  have hclose := beforeComment_closing (q := '\'') (by decide) after
  cases h with
  | plain hq hb => rw [beforeComment_quoted (by simp [hq, hb]), hclose]
  | escape hu =>
    rw [List.cons_append, List.singleton_append, beforeComment_escape, hclose]
    rfl
  | @code run hne hrun =>
    have hhex : ∀ d ∈ '{' :: (run ++ ['}']), d ≠ '\'' ∧ d ≠ '\\' := by
      intro d hd
      rcases List.mem_cons.1 hd with rfl | hd
      · decide
      rcases List.mem_append.1 hd with hd | hd
      · have hword := digit_continues (hrun d hd)
        constructor <;> rintro rfl <;> exact absurd hword (by decide)
      · rw [List.mem_singleton.1 hd]
        decide
    rw [List.cons_append, List.cons_append, beforeComment_escape, beforeComment_quoted hhex, hclose]
    rfl

theorem beforeComment_opening {q : Char} (hq : q = '"' ∨ q = '\'') (after : List Char) :
    beforeComment none (q :: after) = q :: beforeComment (some q) after := by
  have hmark : q ≠ '#' ∧ q ≠ '/' := by rcases hq with rfl | rfl <;> decide
  rw [beforeComment_outside hmark.1 (fun hs => hmark.2 hs.1), if_pos hq]

end Line

/-- **The search for comments passes over a lexeme as a whole**, but for a slash before another. -/
theorem Lexeme.Pattern.passed {mid after : List Char} (h : Pattern mid)
    (hslash : mid = ['/'] → after.head? ≠ some '/') :
    Line.beforeComment none (mid ++ after) = mid ++ Line.beforeComment none after := by
  cases h with
  | word hw hr =>
    refine Line.beforeComment_plain (fun d hd => Line.continues_plain ?_) after
    rcases List.mem_cons.1 hd with rfl | hd
    · simp [continuesWord, hw]
    · exact hr d hd
  | decimal hc hr =>
    refine Line.beforeComment_plain (fun d hd => Line.continues_plain ?_) after
    rcases List.mem_cons.1 hd with rfl | hd
    · simp [continuesWord, hc]
    · exact Numeral.isPart_continues (hr d hd)
  | based hm hne hr =>
    refine Line.beforeComment_plain (fun d hd => Line.continues_plain ?_) after
    rcases List.mem_cons.1 hd with rfl | hd
    · decide
    rcases List.mem_cons.1 hd with rfl | hd
    · exact Numeral.mark_continues hm
    · exact Numeral.isPart_continues (hr d hd)
  | character hinside =>
    rw [List.cons_append, Line.beforeComment_opening (.inr rfl), List.append_assoc, List.singleton_append,
      Line.beforeComment_character hinside, List.cons_append, List.append_assoc, List.singleton_append]
  | text hinside =>
    rw [List.cons_append, Line.beforeComment_opening (.inl rfl), List.append_assoc, List.singleton_append,
      Line.beforeComment_text hinside, List.cons_append, List.append_assoc, List.singleton_append]
  | symbol s =>
    by_cases hs : s = .slash
    · subst hs
      have hnext := hslash rfl
      show Line.beforeComment none ('/' :: after) = '/' :: Line.beforeComment none after
      rw [Line.beforeComment_outside (by decide) (fun h => hnext h.2), if_neg (by decide)]
    · refine Line.beforeComment_plain (fun d hd => ?_) after
      cases s <;> first | exact absurd rfl hs | exact List.all_eq_true.1 (by decide) d hd

/-- **What comes behind a scanned line is not taken for a part of it**: no quotation is left open. -/
theorem Scans.passed {cs : List Char} {depth start d : Nat} {ts : List Token} (h : Scans depth start cs ts d)
    (hcode : Line.beforeComment none cs = cs) {after : List Char} (hafter : after.head? ≠ some '/') :
    Line.beforeComment none (cs ++ after) = cs ++ Line.beforeComment none after := by
  induction h with
  | nil => rfl
  | @separator _ _ _ c rest _ hsep _ ih =>
    have hplain : ∀ d ∈ [c], Line.plain d = true := by simpa using Line.blank_plain (Line.separator_blank hsep)
    have hone : ∀ more, Line.beforeComment none (c :: more) = c :: Line.beforeComment none more :=
      Line.beforeComment_plain hplain
    rw [hone] at hcode
    rw [List.cons_append, hone, ih (List.cons.inj hcode).2, List.cons_append]
  | @lexeme _ _ _ _ c r rest k _ hscan _ _ ih =>
    have hp := taken_pattern hscan
    have hcs : c :: (r ++ rest) = (c :: r) ++ rest := rfl
    -- behind a single slash no other one follows, or the line would have ended before both
    have hslash : c :: r = ['/'] → rest.head? ≠ some '/' := by
      rintro hmid hx
      obtain ⟨t, rfl⟩ := List.head?_eq_some_iff.1 hx
      have hnone : Line.beforeComment none (['/'] ++ '/' :: t) = [] := Line.beforeComment_comment (.inr ⟨t, rfl⟩)
      rw [hcs, hmid, hnone] at hcode
      cases hcode
    have hslash' : c :: r = ['/'] → (rest ++ after).head? ≠ some '/' := by
      intro hmid
      cases rest with
      | nil => exact hafter
      | cons x rest => exact hslash hmid
    rw [hcs, hp.passed hslash] at hcode
    rw [hcs, List.append_assoc, hp.passed hslash', ih (List.append_cancel_left hcode), List.append_assoc]

/-- Separators at the end of a line change nothing. -/
theorem Scans.spaced {cs : List Char} {depth start d : Nat} {ts : List Token} (h : Scans depth start cs ts d)
    {seps : List Char} (hseps : ∀ c ∈ seps, isSeparator c = true) : Scans depth start (cs ++ seps) ts d := by
  induction h with
  | @nil depth start =>
    induction seps generalizing start with
    | nil => exact .nil
    | cons c seps ih =>
      exact .separator (hseps c (List.mem_cons_self ..)) (ih fun d hd => hseps d (List.mem_cons_of_mem _ hd))
  | separator hsep _ ih => exact .separator hsep ih
  | @lexeme _ _ _ _ c r rest k _ hscan hopened _ ih =>
    have hstops : Stops seps := fun x hx => separator_stops (hseps x (List.mem_of_head? hx))
    rw [List.cons_append, List.append_assoc]
    exact .lexeme (taken_longer hscan hstops) hopened ih

end Unroll
