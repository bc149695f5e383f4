import Unroll.Proofs.Token.Lines
import Unroll.Proofs.Token.Order
import Unroll.Proofs.Token.Scans
/-!
# Tokens stand where their spans say

Each piece of a text carries its own tokens: leading spaces carry marks of layout, code carries lexemes, a comment
carries nothing, a line end at most a mark.  What a piece carries is said with what stands behind it in view
(`Located`), since a token must not be longer there either; the pieces of a text are put together by `Located.append`.
-/
namespace Unroll

open Lexeme

/-- **A piece of text is one token**: scanned alone (under an open bracket, that a closing one may be no fault) it gives
this token and nothing else; no longer front of the text has the pattern of a token; and a keyword is not a name. -/
structure IsToken (k : TokenKind) (mid after : List Char) : Prop where
  alone : ∃ d, scanLine 1 0 mid = .ok ([⟨k, ⟨0, Text.width mid⟩⟩], d)
  pattern : Pattern mid
  longest : ∀ more, more <+: after → Pattern (mid ++ more) → more = []
  keyword : ∀ w : Keyword, mid = w.spelling.toList → k = .keyword w

/-- The character behind `pre` is part of a token. -/
def Covered (lo : Nat) (ts : List Token) (pre : List Char) (c : Char) : Prop :=
  ∃ t ∈ ts, t.kind.isLayout = false ∧ t.span.offset ≤ lo + Text.width pre ∧
    lo + Text.width (pre ++ [c]) ≤ t.span.stop

/-- The character behind `pre` is part of a comment: its mark stands outside of every token, and from there on to the
character there is neither a token nor a line end. -/
def Commented (lo : Nat) (ts : List Token) (pre : List Char) (c : Char) (post : List Char) : Prop :=
  ∃ front body, pre = front ++ body ∧ Line.IsComment (body ++ c :: post) ∧ '\n' ∉ body ++ [c] ∧
    ∀ t ∈ ts, t.kind.isLayout = false →
      t.span.stop ≤ lo + Text.width front ∨ lo + Text.width (pre ++ [c]) ≤ t.span.offset

/-- **The tokens of a piece of text**, which begins at the byte offset `lo` and has `after` behind it.  Each token lies
between characters of the piece; starts and ends never go back, and what is no layout does not overlap; and every
character is part of a token, or white space, or part of a comment. -/
structure Located (lo : Nat) (cs after : List Char) (ts : List Token) : Prop where
  within : ∀ t ∈ ts, ∃ pre mid post, cs = pre ++ mid ++ post ∧ t.span = ⟨lo + Text.width pre, Text.width mid⟩ ∧
    (t.kind.isLayout = false → IsToken t.kind mid (post ++ after))
  starts : ts.Pairwise fun t u => t.span.offset ≤ u.span.offset
  stops : ts.Pairwise fun t u => t.span.stop ≤ u.span.stop
  apart : ts.Pairwise fun t u => t.kind.isLayout = false → u.kind.isLayout = false → t.span.stop ≤ u.span.offset
  accounted : ∀ pre c post, cs = pre ++ c :: post →
    Covered lo ts pre c ∨ Text.isBlank c = true ∨ Commented lo ts pre c post

theorem TokenKind.depthAfter_one (k : TokenKind) : ∃ d, k.depthAfter 1 = some d := by
  cases k with
  | symbol s => cases s <;> exact ⟨_, rfl⟩
  | _ => exact ⟨_, rfl⟩

theorem Lexeme.scan_keyword {w : Keyword} {c : Char} {r : List Char} (h : c :: r = w.spelling.toList) :
    scan c r = (.ok (.keyword w), r.length) := by
  cases w <;> cases h <;> rfl

/-- **A lexeme is one token**, where it is not longer for what comes behind it. -/
theorem isToken_of_scan {after : List Char} {c : Char} {r : List Char} {k : TokenKind}
    (hscan : scan c (r ++ after) = (.ok k, r.length)) : IsToken k (c :: r) after := by
  refine ⟨?_, taken_pattern hscan, fun more hmore hp => ?_, fun w hw => ?_⟩
  · obtain ⟨d, hd⟩ := k.depthAfter_one
    have hline : Scans 1 0 (c :: (r ++ [])) [⟨k, ⟨0, Text.width (c :: r)⟩⟩] d :=
      .lexeme (by rw [List.append_nil, taken_alone hscan]) hd .nil
    rw [List.append_nil] at hline
    exact ⟨d, hline.scanLine⟩
  · obtain ⟨after, rfl⟩ := hmore
    have htake : (r ++ (more ++ after)).take (r.length + more.length) = r ++ more := by
      rw [← List.append_assoc]
      exact List.take_left' List.length_append
    have hlength := scan_longest hscan (m := r.length + more.length) (by simp) (by rwa [htake])
    exact List.length_eq_zero_iff.1 (by omega)
  · have hword := taken_alone hscan
    rw [scan_keyword hw] at hword
    cases hword
    rfl

/-- A character of two pieces is one of the first or one of the second. -/
theorem mem_pieces {α : Type} {cs ds pre post : List α} {c : α} (h : cs ++ ds = pre ++ c :: post) :
    (∃ gap, cs = pre ++ c :: gap ∧ post = gap ++ ds) ∨ ∃ gap, pre = cs ++ gap ∧ ds = gap ++ c :: post := by
  rcases List.append_eq_append_iff.1 h with ⟨gap, hpre, hds⟩ | ⟨gap, hcs, hpost⟩
  · exact .inr ⟨gap, hpre, hds⟩
  · cases gap with
    | nil => exact .inr ⟨[], by simpa using hcs.symm, hpost.symm⟩
    | cons d gap =>
      obtain ⟨rfl, rfl⟩ := List.cons.inj hpost
      exact .inl ⟨gap, hcs, rfl⟩

theorem width_through (pre : List Char) (c : Char) (post : List Char) :
    Text.width (pre ++ [c]) ≤ Text.width (pre ++ c :: post) := by
  rw [Text.width_append, Text.width_append, Text.width, Text.width, Text.width]
  omega

section

variable {lo : Nat} {cs pre post : List Char} {c : Char} {ts us : List Token}

theorem Covered.before (h : Covered lo ts pre c) (us : List Token) : Covered lo (ts ++ us) pre c := by
  obtain ⟨t, ht, hk, hcover⟩ := h
  exact ⟨t, List.mem_append_left _ ht, hk, hcover⟩

theorem Covered.behind (h : Covered (lo + Text.width cs) us pre c) (ts : List Token) :
    Covered lo (ts ++ us) (cs ++ pre) c := by
  obtain ⟨t, ht, hk, hlo, hhi⟩ := h
  refine ⟨t, List.mem_append_right _ ht, hk, ?_, ?_⟩
  · rwa [Text.width_append, ← Nat.add_assoc]
  · rwa [List.append_assoc, Text.width_append, ← Nat.add_assoc]

theorem Commented.before (h : Commented lo ts pre c post) (ds : List Char)
    (hus : ∀ u ∈ us, lo + Text.width (pre ++ [c]) ≤ u.span.offset) : Commented lo (ts ++ us) pre c (post ++ ds) := by
  obtain ⟨front, body, hpre, hmark, hline, hout⟩ := h
  refine ⟨front, body, hpre, ?_, hline, fun t ht hk => ?_⟩
  · have hmore := hmark.append ds
    rwa [List.append_assoc] at hmore
  · rcases List.mem_append.1 ht with ht | ht
    · exact hout t ht hk
    · exact .inr (hus t ht)

theorem Commented.behind (h : Commented (lo + Text.width cs) us pre c post)
    (hts : ∀ t ∈ ts, t.span.stop ≤ lo + Text.width cs) : Commented lo (ts ++ us) (cs ++ pre) c post := by
  obtain ⟨front, body, rfl, hmark, hline, hout⟩ := h
  refine ⟨cs ++ front, body, by rw [List.append_assoc], hmark, hline, fun t ht hk => ?_⟩
  rw [Text.width_append, List.append_assoc, Text.width_append cs, ← Nat.add_assoc, ← Nat.add_assoc]
  rcases List.mem_append.1 ht with ht | ht
  · exact .inl (Nat.le_trans (hts t ht) (Nat.le_add_right _ _))
  · exact hout t ht hk

end

namespace Located

variable {lo : Nat} {cs ds after : List Char} {ts us : List Token} {t : Token}

theorem bounds (h : Located lo cs after ts) (ht : t ∈ ts) :
    lo ≤ t.span.offset ∧ t.span.offset ≤ t.span.stop ∧ t.span.stop ≤ lo + Text.width cs := by
  obtain ⟨pre, mid, post, rfl, hspan, -⟩ := h.within t ht
  rw [Span.stop, hspan, Text.width_append, Text.width_append]
  dsimp only
  omega

/-- **Pieces that follow each other.** -/
theorem append (h : Located lo cs (ds ++ after) ts) (h' : Located (lo + Text.width cs) ds after us) :
    Located lo (cs ++ ds) after (ts ++ us) := by
  have hacross : ∀ t ∈ ts, ∀ u ∈ us, t.span.stop ≤ u.span.offset := fun t ht u hu =>
    Nat.le_trans (h.bounds ht).2.2 (h'.bounds hu).1
  refine ⟨fun t ht => ?_, ?_, ?_, ?_, fun pre c post hcs => ?_⟩
  · rcases List.mem_append.1 ht with ht | ht
    · obtain ⟨pre, mid, post, rfl, hspan, htoken⟩ := h.within t ht
      refine ⟨pre, mid, post ++ ds, by rw [List.append_assoc], hspan, ?_⟩
      rwa [List.append_assoc]
    · obtain ⟨pre, mid, post, rfl, hspan, htoken⟩ := h'.within t ht
      refine ⟨cs ++ pre, mid, post, by simp, ?_, htoken⟩
      rw [hspan, Text.width_append, Nat.add_assoc]
  · refine List.pairwise_append.2 ⟨h.starts, h'.starts, fun t ht u hu => ?_⟩
    exact Nat.le_trans (h.bounds ht).2.1 (hacross t ht u hu)
  · refine List.pairwise_append.2 ⟨h.stops, h'.stops, fun t ht u hu => ?_⟩
    exact Nat.le_trans (hacross t ht u hu) (h'.bounds hu).2.1
  · exact List.pairwise_append.2 ⟨h.apart, h'.apart, fun t ht u hu _ _ => hacross t ht u hu⟩
  · rcases mem_pieces hcs with ⟨gap, rfl, rfl⟩ | ⟨gap, rfl, rfl⟩
    · refine (h.accounted pre c gap rfl).imp (·.before us) (.imp_right (·.before ds fun u hu => ?_))
      exact Nat.le_trans (Nat.add_le_add_left (width_through pre c gap) lo) (h'.bounds hu).1
    · exact (h'.accounted gap c post rfl).imp (·.behind ts) (.imp_right (·.behind fun t ht => (h.bounds ht).2.2))

/-- White space, with marks of layout at one place of it. -/
theorem blank {k : TokenKind} {span : Span} (n : Nat) (hcs : ∀ c ∈ cs, Text.isBlank c = true)
    (hk : k.isLayout = true)
    (hspan : ∃ pre mid post, cs = pre ++ mid ++ post ∧ span = ⟨lo + Text.width pre, Text.width mid⟩) :
    Located lo cs after (List.replicate n ⟨k, span⟩) := by
  obtain ⟨pre, mid, post, hsplit, hspan⟩ := hspan
  refine ⟨fun t ht => ?_, ?_, ?_, ?_, fun pre c post hsplit => .inr (.inl (hcs c (by simp [hsplit])))⟩
  · rw [List.eq_of_mem_replicate ht]
    refine ⟨pre, mid, post, hsplit, hspan, fun hcontent => ?_⟩
    rw [hk] at hcontent
    cases hcontent
  · exact List.pairwise_replicate.2 (.inr (Nat.le_refl _))
  · exact List.pairwise_replicate.2 (.inr (Nat.le_refl _))
  · refine List.pairwise_replicate.2 (.inr fun hcontent => ?_)
    rw [hk] at hcontent
    cases hcontent

theorem spaces (hcs : ∀ c ∈ cs, Text.isBlank c = true) : Located lo cs after [] := by
  have hfront : ∃ pre mid post, cs = pre ++ mid ++ post ∧ (⟨lo, 0⟩ : Span) = ⟨lo + Text.width pre, Text.width mid⟩ :=
    ⟨[], [], cs, rfl, rfl⟩
  exact blank (k := .eof) 0 hcs rfl hfront

theorem comment (hcs : Line.IsComment cs) (hline : '\n' ∉ cs) : Located lo cs after [] := by
  refine ⟨by simp, .nil, .nil, .nil, fun pre c post hsplit => .inr (.inr ⟨[], pre, rfl, hsplit ▸ hcs, ?_, by simp⟩)⟩
  rintro hmem
  refine hline ?_
  rw [hsplit, List.append_cons]
  exact List.mem_append_left _ hmem

theorem lexeme {c : Char} {r : List Char} {k : TokenKind} (hscan : scan c (r ++ after) = (.ok k, r.length)) :
    Located lo (c :: r) after [⟨k, ⟨lo, Text.width (c :: r)⟩⟩] := by
  refine ⟨fun t ht => ?_, List.pairwise_singleton _ _, List.pairwise_singleton _ _, List.pairwise_singleton _ _,
    fun pre x post hsplit => .inl ⟨_, List.mem_singleton_self _, scan_content (congrArg Prod.fst hscan), ?_, ?_⟩⟩
  · rw [List.mem_singleton.1 ht]
    exact ⟨[], c :: r, [], by simp, by simp [Text.width], fun _ => isToken_of_scan hscan⟩
  · exact Nat.le_add_right _ _
  · rw [hsplit]
    exact Nat.add_le_add_left (width_through pre x post) lo

/-- **The pieces of a line**: spaces with marks, code with lexemes, a comment, and the line end. -/
theorem line {spaces code comment lineEnd : List Char} {marks ends : List Token}
    (hcomment : comment = [] ∨ Line.IsComment comment) (hline : '\n' ∉ comment)
    (hmarks : Located lo spaces ((code ++ (comment ++ lineEnd)) ++ after) marks)
    (hts : Located (lo + Text.width spaces) code ((comment ++ lineEnd) ++ after) ts)
    (hends : Located (lo + Text.width (spaces ++ (code ++ comment))) lineEnd after ends) :
    Located lo (spaces ++ (code ++ comment) ++ lineEnd) after (marks ++ (ts ++ ends)) := by
  rw [Text.width_append, Text.width_append, ← Nat.add_assoc, ← Nat.add_assoc] at hends
  have hremark : Located (lo + Text.width spaces + Text.width code) comment (lineEnd ++ after) [] := by
    rcases hcomment with rfl | hcomment
    · exact .spaces (by simp)
    · exact .comment hcomment hline
  have hwhole := hmarks.append (hts.append (hremark.append hends))
  rwa [List.nil_append, ← List.append_assoc code, ← List.append_assoc spaces] at hwhole

end Located

/-! ## From line to line -/

/-- The code of a line carries its lexemes. -/
theorem Scans.located {cs after : List Char} {depth start d : Nat} {ts : List Token} (h : Scans depth start cs ts d)
    (hafter : Stops after) : Located start cs after ts := by
  induction h with
  | nil => exact .spaces (by simp)
  | @separator _ start _ c rest _ hsep _ ih =>
    have hone : Located start [c] (rest ++ after) [] := .spaces (by simpa using Line.separator_blank hsep)
    exact hone.append ih
  | lexeme hscan _ _ ih => exact (Located.lexeme (taken_longer hscan hafter)).append ih

namespace Line

theorem IsComment.stops {cs : List Char} (h : IsComment cs) : Stops cs := by
  obtain ⟨t, rfl⟩ | ⟨t, rfl⟩ := h <;> exact stops_cons.2 rfl

/-- What a line is made of: leading spaces, code, and a comment. -/
theorem parts (l : Line) : ∃ comment, l.content = List.replicate l.leading ' ' ++ (l.code ++ comment) ∧
    (comment = [] ∨ IsComment comment) := by
  obtain ⟨hleading, hcode⟩ := leading_spaces (spaces_rest l.content) (rest_head l.content)
  obtain ⟨comment, hsplit, hcomment⟩ := beforeComment_split none (l.content.dropWhile (· == ' '))
  refine ⟨comment, ?_, hcomment⟩
  rw [hleading, hcode, ← hsplit]
  exact spaces_rest l.content

theorem spaces_blank (n : Nat) : ∀ c ∈ List.replicate n ' ', Text.isBlank c = true := by
  intro c hc
  rw [List.eq_of_mem_replicate hc]
  rfl

theorem width_replicate (n : Nat) : Text.width (List.replicate n ' ') = n := by
  induction n with
  | zero => rfl
  | succ n ih =>
    rw [List.replicate_succ, Text.width, ih]
    exact Nat.add_comm 1 n

end Line

namespace Layout

variable {s t : Layout} {l : Line} {column : Nat}

/-- What alignment adds is some marks of one kind, in front of the line. -/
theorem align_marks (h : s.align l column = .ok t) : ∃ k n, TokenKind.isLayout k = true ∧
    t.tokens.toList = s.tokens.toList ++ List.replicate n ⟨k, ⟨l.start, column⟩⟩ := by
  unfold align at h
  split at h
  · cases h
    exact ⟨.dedent, 0, rfl, by simp⟩
  · dsimp only at h
    split at h
    · cases h
      exact ⟨.indent, 1, rfl, by simp⟩
    · split at h
      · cases h
        exact ⟨.dedent, _, rfl, by rw [Array.toList_appendList, List.map_const']⟩
      · cases h

/-- The parts of a line, its line end and what stands behind it. -/
structure Placed (l : Line) (comment lineEnd after : List Char) : Prop where
  parts : l.content = List.replicate l.leading ' ' ++ (l.code ++ comment)
  remark : comment = [] ∨ Line.IsComment comment
  inLine : '\n' ∉ comment
  ending : lineEnd = ['\n'] ∨ lineEnd = [] ∧ after = []
  stop : l.stop = l.start + Text.width (l.content ++ lineEnd)

namespace Placed

variable {comment lineEnd after : List Char}

theorem blankEnd (h : Placed l comment lineEnd after) : ∀ c ∈ lineEnd, Text.isBlank c = true := by
  rcases h.ending with rfl | ⟨rfl, -⟩ <;> simp [Text.isBlank]

/-- Nothing behind the code makes a lexeme of it longer. -/
theorem stops (h : Placed l comment lineEnd after) : Stops ((comment ++ lineEnd) ++ after) := by
  rcases h.remark with rfl | hcomment
  · rcases h.ending with rfl | ⟨rfl, rfl⟩
    · exact stops_cons.2 rfl
    · exact stops_nil
  · exact ((hcomment.append lineEnd).append after).stops

/-- A line with white space for its code carries no tokens. -/
theorem passed (h : Placed l comment lineEnd after) (hcode : l.code.all Text.isBlank = true) :
    Located l.start (l.content ++ lineEnd) after [] := by
  rw [h.parts]
  exact .line h.remark h.inLine (.spaces (Line.spaces_blank _)) (.spaces (List.all_eq_true.1 hcode))
    (.spaces h.blankEnd)

/-- A line that says something carries marks in front, the lexemes of its code, and perhaps a line end. -/
theorem coded (h : Placed l comment lineEnd after) (hcoded : s.coded l = .ok t) :
    ∃ ts, t.tokens.toList = s.tokens.toList ++ ts ∧ Located l.start (l.content ++ lineEnd) after ts := by
  obtain ⟨u, ts, d, hu, hscan, rfl⟩ := coded_ok.1 hcoded
  obtain ⟨k, n, hk, hmarks⟩ := align_marks hu
  have hfront : ∀ after, Located l.start (List.replicate l.leading ' ') after
      (List.replicate n ⟨k, ⟨l.start, l.leading⟩⟩) := fun _ =>
    .blank n (Line.spaces_blank _) hk
      ⟨[], List.replicate l.leading ' ', [], by simp, by simp [Text.width, Line.width_replicate]⟩
  have hcode := (scans_of_scanLine hscan).located h.stops
  have hall : ∀ ends, Located (l.start + Text.width l.content) lineEnd after ends →
      Located l.start (l.content ++ lineEnd) after
        (List.replicate n ⟨k, ⟨l.start, l.leading⟩⟩ ++ (ts ++ ends)) := fun ends hends => by
    rw [h.parts] at hends ⊢
    exact .line h.remark h.inLine (hfront _) (by rwa [Line.width_replicate]) hends
  dsimp only
  split
  · refine ⟨_, ?_, hall [⟨.newline, ⟨l.stop, 0⟩⟩] ?_⟩
    · rw [Array.toList_push, Array.toList_appendList, hmarks]
      simp
    · refine .blank (k := .newline) 1 h.blankEnd rfl ⟨lineEnd, [], [], by simp, ?_⟩
      rw [h.stop, Text.width_append, Nat.add_assoc]
      rfl
  · refine ⟨_, ?_, hall [] (.spaces h.blankEnd)⟩
    rw [Array.toList_appendList, hmarks]
    simp

end Placed

/-- **A line carries the tokens that are read from it.** -/
theorem line_located {lineEnd after : List Char} (h : s.line l = .ok t)
    (hend : lineEnd = ['\n'] ∨ lineEnd = [] ∧ after = []) (hcontent : '\n' ∉ l.content)
    (hstop : l.stop = l.start + Text.width (l.content ++ lineEnd)) :
    ∃ ts, t.tokens.toList = s.tokens.toList ++ ts ∧ Located l.start (l.content ++ lineEnd) after ts := by
  obtain ⟨comment, hparts, hcomment⟩ := l.parts
  have hline : '\n' ∉ comment := fun hmem => hcontent (by
    rw [hparts]
    exact List.mem_append_right _ (List.mem_append_right _ hmem))
  have hplaced : Placed l comment lineEnd after := ⟨hparts, hcomment, hline, hend, hstop⟩
  obtain ⟨rfl, hblank | ⟨-, hcode⟩⟩ | ⟨-, hcoded⟩ := line_cases h
  · refine ⟨[], (List.append_nil _).symm, .spaces fun c hc => ?_⟩
    rcases List.mem_append.1 hc with hc | hc
    · exact List.all_eq_true.1 hblank c hc
    · exact hplaced.blankEnd c hc
  · exact ⟨[], (List.append_nil _).symm, hplaced.passed hcode⟩
  · exact hplaced.coded hcoded

/-- **Lines carry their tokens**, behind a text that carries those before them. -/
theorem lines_located {start : Nat} {before cs : List Char} {s t : Layout}
    (h : (Line.split start cs).foldlM line s = .ok t) (hstart : start = Text.width before)
    (hs : Located 0 before cs s.tokens.toList) : Located 0 (before ++ cs) [] t.tokens.toList := by
  have hzero : start = 0 + Text.width before := by rw [hstart, Nat.zero_add]
  induction cs using Line.text_induction generalizing start before s with
  | empty =>
    rw [Line.split] at h
    cases h
    rwa [List.append_nil]
  | last l hne hl =>
    rw [Line.split_last start hne hl, List.foldlM_cons] at h
    simp only [Outcome.except_bind_ok] at h
    obtain ⟨u, hu, h⟩ := h
    cases h
    have hstop : start + Text.width l = start + Text.width (l ++ []) := by rw [List.append_nil]
    obtain ⟨ts, hts, hline⟩ := line_located hu (.inr ⟨rfl, rfl⟩) hl hstop
    rw [List.append_nil, hzero] at hline
    rw [hts]
    exact Located.append (by rwa [List.append_nil]) hline
  | line l after hl ih =>
    rw [Line.split_line start hl, List.foldlM_cons] at h
    simp only [Outcome.except_bind_ok] at h
    obtain ⟨u, hu, h⟩ := h
    have hstop : start + Text.width l + 1 = start + Text.width (l ++ ['\n']) := by
      rw [Text.width_append]
      rfl
    obtain ⟨ts, hts, hline⟩ : ∃ ts, u.tokens.toList = s.tokens.toList ++ ts ∧ Located start (l ++ ['\n']) after ts :=
      line_located hu (.inl rfl) hl hstop
    have hwhole : l ++ '\n' :: after = (l ++ ['\n']) ++ after := List.append_cons ..
    rw [hwhole] at hs ⊢
    rw [hzero] at hline
    have hnext := hs.append hline
    rw [← hts] at hnext
    have hwidth : start + Text.width l + 1 = Text.width (before ++ (l ++ ['\n'])) := by
      rw [hstop, hstart, ← Text.width_append]
    rw [← List.append_assoc before]
    exact ih h hwidth hnext (by rw [hwidth, Nat.zero_add])

theorem finish_located {cs : List Char} {ts : List Token} (h : s.finish (Text.width cs) = .ok ts)
    (hs : Located 0 cs [] s.tokens.toList) : Located 0 cs [] ts := by
  unfold finish at h
  dsimp only at h
  split at h
  · cases h
  · cases h
    have hmark : ∀ {k} n, TokenKind.isLayout k = true →
        Located (0 + Text.width cs) [] [] (List.replicate n ⟨k, ⟨Text.width cs, 0⟩⟩) := fun n hk =>
      .blank n (by simp) hk ⟨[], [], [], rfl, by simp [Text.width]⟩
    have hdedents := hs.append (hmark (k := .dedent) s.levels.length rfl)
    rw [List.append_nil] at hdedents
    have hall := hdedents.append (hmark (k := .eof) 1 rfl)
    rw [List.append_nil, ← List.map_const'] at hall
    exact hall

end Layout

/-- **Spans locate tokens and lose nothing.** -/
theorem tokens_located {source : String} {ts : List Token} (h : tokens source = .ok ts) :
    Located 0 source.toList [] ts := by
  unfold tokens at h
  simp only [Outcome.except_bind_ok] at h
  obtain ⟨s, hs, h⟩ := h
  refine Layout.finish_located h ?_
  show Located 0 ([] ++ source.toList) [] s.tokens.toList
  exact Layout.lines_located hs rfl (.spaces (by simp))

theorem tokens_located_quoted : ∃ ts, tokens "a(\"é # //\",\n  -) // b\n" = .ok ts ∧
    ts.map (·.span.offset) = [0, 1, 2, 11, 15, 16, 23, 23] ∧ Located 0 "a(\"é # //\",\n  -) // b\n".toList [] ts := by
  have hoffsets : (tokens "a(\"é # //\",\n  -) // b\n").toOption.map (·.map (·.span.offset)) =
    some [0, 1, 2, 11, 15, 16, 23, 23] := by decide +kernel
  cases hts : tokens "a(\"é # //\",\n  -) // b\n" with
  | error e =>
    rw [hts] at hoffsets
    cases hoffsets
  | ok ts =>
    rw [hts] at hoffsets
    exact ⟨ts, rfl, Option.some.inj hoffsets, tokens_located hts⟩

end Unroll
