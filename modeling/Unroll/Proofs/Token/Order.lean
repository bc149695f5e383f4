import Unroll.Proofs.Grammar.Words
/-!
# The tokens of a text stand in order

The scan of a line goes from left to right, the lines follow each other, and what layout adds stands where a line begins
or ends.  So the tokens are in the order of their offsets, and the one end mark is the last of them.
-/
namespace Unroll

/-- What layout adds, and no lexeme stands for. -/
def TokenKind.isLayout : TokenKind → Bool
  | .newline | .indent | .dedent | .eof => true
  | _ => false

namespace Lexeme

theorem text_content {rest : List Char} {k : TokenKind} (h : (text rest).1 = .ok k) : k.isLayout = false := by
  unfold text at h
  split at h
  · cases h
  · split at h
    · cases h
      rfl
    · cases h

theorem character_content {rest : List Char} {k : TokenKind} (h : (character rest).1 = .ok k) : k.isLayout = false := by
  have hdecoded : ∀ cs, character.decoded cs = .ok k → k.isLayout = false := by
    intro cs h
    unfold character.decoded at h
    split at h
    · cases h
      rfl
    · cases h
  unfold character at h
  split at h
  · dsimp only at h
    split at h
    · cases h
    · split at h
      · exact hdecoded _ h
      · cases h
  · split at h
    · cases h
    · exact hdecoded _ h
  · split at h
    · cases h
    · exact hdecoded _ h
  · cases h

/-- **A lexeme is no layout.** -/
theorem scan_content {c : Char} {rest : List Char} {k : TokenKind} (h : (scan c rest).1 = .ok k) :
    k.isLayout = false := by
  unfold scan at h
  split at h
  · unfold word at h
    dsimp only at h
    split at h <;> (cases h; rfl)
  · split at h
    · split at h
      · cases h
        rfl
      · cases h
    · split at h
      · exact text_content h
      · split at h
        · exact character_content h
        · split at h
          · cases h
            rfl
          · cases h

end Lexeme

def Ascending (ts : List Token) : Prop := ts.Pairwise fun t u => t.span.offset ≤ u.span.offset

/-- What comes up to a token of the rest stands before all of the rest. -/
theorem Ascending.le {ts rest : List Token} {t u : Token} (h : Ascending (ts ++ rest)) (ht : t ∈ ts ++ rest.take 1)
    (hu : u ∈ rest) : t.span.offset ≤ u.span.offset := by
  obtain ⟨-, hrest, hacross⟩ := List.pairwise_append.1 h
  obtain ht | ht := List.mem_append.1 ht
  · exact hacross t ht u hu
  · obtain ⟨v, vs, rfl⟩ := List.exists_cons_of_ne_nil (List.ne_nil_of_mem hu)
    obtain rfl : t = v := by simpa using ht
    obtain rfl | hu := List.mem_cons.1 hu
    · exact Nat.le_refl _
    · exact (List.pairwise_cons.1 hrest).1 u hu

theorem Ascending.of_append {ts us : List Token} (h : Ascending (ts ++ us)) : Ascending us := (List.pairwise_append.1 h).2.1

/-- A token ends before the next one begins, except that the dedents of one line share their place. -/
def Token.Before (t u : Token) : Prop := t.span.offset ≤ u.span.offset ∧ (t.kind ≠ .dedent → t.span.stop ≤ u.span.offset)

/-- **Tokens in order between two offsets**, with no end mark among them. -/
structure Between (lo hi : Nat) (ts : List Token) : Prop where
  sorted : ts.Pairwise Token.Before
  bounds : ∀ t ∈ ts, lo ≤ t.span.offset ∧ t.span.offset ≤ hi
  stops : ∀ t ∈ ts, t.kind ≠ .dedent → t.span.stop ≤ hi
  inner : ∀ t ∈ ts, t.kind ≠ .eof

namespace Between

variable {lo mid hi : Nat} {ts us : List Token} {t : Token}

theorem nil : Between lo hi [] := ⟨.nil, by simp, by simp, by simp⟩

theorem mono (h : Between lo hi ts) {lo' hi' : Nat} (hlo : lo' ≤ lo) (hhi : hi ≤ hi') : Between lo' hi' ts := by
  refine ⟨h.sorted, fun t ht => ?_, fun t ht hk => Nat.le_trans (h.stops t ht hk) hhi, h.inner⟩
  have hb := h.bounds t ht
  omega

theorem append (h : Between lo mid ts) (h' : Between mid hi us) (hlo : lo ≤ mid) (hhi : mid ≤ hi) :
    Between lo hi (ts ++ us) := by
  have hl := h.mono (Nat.le_refl lo) hhi
  have hr := h'.mono hlo (Nat.le_refl hi)
  refine ⟨List.pairwise_append.2 ⟨h.sorted, h'.sorted, fun t ht u hu => ⟨?_, fun hk => ?_⟩⟩, ?_, ?_, ?_⟩
  · exact Nat.le_trans (h.bounds t ht).2 (h'.bounds u hu).1
  · exact Nat.le_trans (h.stops t ht hk) (h'.bounds u hu).1
  · exact List.forall_mem_append.2 ⟨hl.bounds, hr.bounds⟩
  · exact List.forall_mem_append.2 ⟨hl.stops, hr.stops⟩
  · exact List.forall_mem_append.2 ⟨h.inner, h'.inner⟩

theorem single (hk : t.kind ≠ .eof) (hlo : lo ≤ t.span.offset) (hhi : t.span.stop ≤ hi) : Between lo hi [t] := by
  have hstart : t.span.offset ≤ t.span.stop := Nat.le_add_right _ _
  refine ⟨List.pairwise_singleton _ _, fun u hu => ?_, fun u hu _ => ?_, fun u hu => ?_⟩
  · rw [List.mem_singleton.1 hu]
    exact ⟨hlo, Nat.le_trans hstart hhi⟩
  · rwa [List.mem_singleton.1 hu]
  · rwa [List.mem_singleton.1 hu]

/-- The dedents of a line stand at one place. -/
theorem dedents {span : Span} (n : Nat) (hlo : lo ≤ span.offset) (hhi : span.offset ≤ hi) :
    Between lo hi (List.replicate n ⟨.dedent, span⟩) := by
  refine ⟨List.pairwise_replicate.2 (.inr ⟨Nat.le_refl _, fun hk => absurd rfl hk⟩), fun t ht => ?_, fun t ht hk => ?_,
    fun t ht => ?_⟩
  · rw [List.eq_of_mem_replicate ht]
    exact ⟨hlo, hhi⟩
  · exact absurd (congrArg Token.kind (List.eq_of_mem_replicate ht)) hk
  · rw [List.eq_of_mem_replicate ht]
    simp

end Between

/-! ## One line -/

theorem scanLine_between : ∀ {cs : List Char} {depth start : Nat} {ts : List Token} {d : Nat},
    scanLine depth start cs = .ok (ts, d) → Between start (start + Text.width cs) ts := by
  intro cs depth start
  fun_induction scanLine depth start cs with
  | case1 =>
    intro ts d h
    cases h
    exact .nil
  | case2 depth start c rest hsep ih =>
    intro ts d h
    exact (ih h).mono (Nat.le_add_right _ _) (by rw [Text.width]; omega)
  | case3 => simp
  | case4 => simp
  | case5 => simp
  | case6 depth start c rest _ n span kind _ _ tokens _ hrest hscan =>
    rename_i ih
    intro ts d h
    cases h
    have hwidth : span.stop + Text.width (rest.drop n) = start + Text.width (c :: rest) := by
      have hsplit := Text.width_append (rest.take n) (rest.drop n)
      rw [List.take_append_drop] at hsplit
      simp only [span, Span.stop, Text.width]
      omega
    have hkind : kind ≠ .eof := by
      rintro rfl
      cases Lexeme.scan_content (congrArg Prod.fst hscan)
    have hone : Between start span.stop [⟨kind, span⟩] := .single hkind (Nat.le_refl _) (Nat.le_refl _)
    rw [← hwidth]
    exact hone.append (ih hrest) (Nat.le_add_right _ _) (Nat.le_add_right _ _)

namespace Line

theorem width_beforeComment : ∀ (quote : Option Char) (cs : List Char),
    Text.width (beforeComment quote cs) ≤ Text.width cs := by
  intro quote cs
  fun_induction beforeComment quote cs <;> simp only [Text.width] <;> omega

theorem width_spaces (cs : List Char) : Text.width (cs.takeWhile (· == ' ')) = (cs.takeWhile (· == ' ')).length := by
  induction cs with
  | nil => rfl
  | cons c cs ih =>
    cases hc : c == ' ' with
    | false => rw [List.takeWhile_cons_of_neg (by simp [hc])]; rfl
    | true =>
      have hcons : (c :: cs).takeWhile (· == ' ') = c :: cs.takeWhile (· == ' ') := List.takeWhile_cons_of_pos hc
      rw [hcons, Text.width, ih, eq_of_beq hc]
      exact Nat.add_comm 1 _

/-- A front and what is left after it make up the whole. -/
theorem width_front (p : Char → Bool) (cs : List Char) :
    Text.width (cs.takeWhile p) + Text.width (cs.drop (cs.takeWhile p).length) = Text.width cs := by
  rw [← Text.width_append, List.prefix_iff_eq_append.1 (List.takeWhile_prefix p)]

/-- What a line says ends within the line. -/
theorem code_within (l : Line) : l.leading + Text.width l.code ≤ Text.width l.content := by
  have hfront := width_front (· == ' ') l.content
  rw [width_spaces] at hfront
  have hcode := width_beforeComment none (l.content.drop l.leading)
  unfold code
  unfold leading at hcode ⊢
  omega

/-- The lines follow each other from the one offset to the other, and each holds what it says. -/
def Follow : Nat → List Line → Nat → Prop
  | start, [], stop => start = stop
  | start, l :: ls, stop => l.start = start ∧ l.start + Text.width l.content ≤ l.stop ∧ Follow l.stop ls stop

/-- What a line leaves begins with its line end. -/
theorem line_end {cs after : List Char} {c : Char}
    (h : cs.drop (cs.takeWhile (· != '\n')).length = c :: after) : c = '\n' := by
  have hdrop : cs.drop (cs.takeWhile (· != '\n')).length = cs.dropWhile (· != '\n') := by
    apply (List.append_right_inj (cs.takeWhile (· != '\n'))).1
    rw [List.prefix_iff_eq_append.1 (List.takeWhile_prefix _), List.takeWhile_append_dropWhile]
  have hhead := List.head?_dropWhile_not (· != '\n') cs
  rw [← hdrop, h] at hhead
  simpa using hhead

theorem split_follow (start : Nat) (cs : List Char) : Follow start (split start cs) (start + Text.width cs) := by
  fun_induction split start cs with
  | case1 => rfl
  | case2 start c rest content hdrop =>
    have hfront := width_front (· != '\n') (c :: rest)
    have hwhole : Text.width content = Text.width (c :: rest) := by
      rw [← hfront, hdrop]
      rfl
    exact ⟨rfl, Nat.le_refl _, congrArg (start + ·) hwhole⟩
  | case3 start c rest content d after hdrop stop ih =>
    have hfront := width_front (· != '\n') (c :: rest)
    have hafter : rest.drop content.length = after := by
      have htail := congrArg List.tail hdrop
      rwa [List.tail_drop] at htail
    rw [hafter] at ih ⊢
    have hend : start + Text.width (c :: rest) = stop + Text.width after := by
      rw [← hfront, hdrop, Text.width, line_end hdrop]
      show start + (Text.width content + (1 + Text.width after)) = start + Text.width content + 1 + Text.width after
      omega
    rw [hend]
    exact ⟨rfl, Nat.le_succ _, ih⟩

end Line

/-! ## The whole text -/

namespace Layout

/-- What layout has made of the text up to an offset. -/
def UpTo (s : Layout) (stop : Nat) : Prop := Between 0 stop s.tokens.toList

theorem align_upTo {s t : Layout} {l : Line} {column : Nat} (h : s.align l column = .ok t) (hs : s.UpTo l.start) :
    t.UpTo (l.start + column) := by
  unfold align at h
  split at h
  · cases h
    exact hs.mono (Nat.le_refl 0) (Nat.le_add_right _ _)
  · dsimp only at h
    split at h
    · cases h
      have hindent : Between l.start (l.start + column) [⟨.indent, ⟨l.start, column⟩⟩] :=
        .single (by simp) (Nat.le_refl _) (Nat.le_refl _)
      unfold UpTo
      rw [Array.toList_push]
      exact hs.append hindent (Nat.zero_le _) (Nat.le_add_right _ _)
    · split at h
      · cases h
        unfold UpTo
        rw [Array.toList_appendList, List.map_const']
        exact hs.append (.dedents _ (Nat.le_refl _) (Nat.le_add_right _ _)) (Nat.zero_le _) (Nat.le_add_right _ _)
      · cases h

theorem line_upTo {s t : Layout} {l : Line} (h : s.line l = .ok t) (hs : s.UpTo l.start)
    (hl : l.start + Text.width l.content ≤ l.stop) : t.UpTo l.stop := by
  have hskip : s.UpTo l.stop := hs.mono (Nat.le_refl 0) (by omega)
  unfold line at h
  split at h
  · cases h
    exact hskip
  · split at h
    · cases h
    · split at h
      · cases h
        exact hskip
      · simp only [Outcome.except_bind_ok, Outcome.except_pure_ok] at h
        obtain ⟨u, hu, ⟨ts, d⟩, hts, rfl⟩ := h
        have hcode := l.code_within
        have hscan : Between (l.start + l.leading) l.stop ts :=
          (scanLine_between hts).mono (Nat.le_refl _) (by omega)
        have hall : Between 0 l.stop (u.tokens.toList ++ ts) :=
          (align_upTo hu hs).append hscan (Nat.zero_le _) (by omega)
        have hnewline : Between l.stop l.stop [⟨.newline, ⟨l.stop, 0⟩⟩] :=
          .single (by simp) (Nat.le_refl _) (Nat.le_refl _)
        unfold UpTo
        dsimp only
        split
        · rw [Array.toList_push, Array.toList_appendList]
          exact hall.append hnewline (Nat.zero_le _) (Nat.le_refl _)
        · rwa [Array.toList_appendList]

theorem lines_upTo : ∀ {ls : List Line} {start stop : Nat} {s t : Layout}, ls.foldlM line s = .ok t →
    Line.Follow start ls stop → s.UpTo start → t.UpTo stop
  | [], start, stop, s, t, h, hls, hs => by
    cases h
    cases hls
    exact hs
  | l :: ls, start, stop, s, t, h, ⟨hstart, hl, hls⟩, hs => by
    rw [List.foldlM_cons] at h
    simp only [Outcome.except_bind_ok] at h
    obtain ⟨u, hu, h⟩ := h
    exact lines_upTo h hls (line_upTo hu (hstart ▸ hs) hl)

theorem finish_upTo {s : Layout} {stop : Nat} {ts : List Token} (h : s.finish stop = .ok ts) (hs : s.UpTo stop) :
    ∃ front, Between 0 stop front ∧ ts = front ++ [⟨.eof, ⟨stop, 0⟩⟩] := by
  unfold finish at h
  dsimp only at h
  split at h
  · cases h
  · cases h
    refine ⟨_, ?_, rfl⟩
    rw [List.map_const']
    exact hs.append (.dedents _ (Nat.le_refl stop) (Nat.le_refl stop)) (Nat.zero_le _) (Nat.le_refl _)

end Layout

/-- **The tokens of a text are in order and end with the end mark**, which stands where the text ends. -/
theorem tokens_between {source : String} {ts : List Token} (h : tokens source = .ok ts) :
    ∃ front, Between 0 (Text.width source.toList) front ∧
      ts = front ++ [⟨.eof, ⟨Text.width source.toList, 0⟩⟩] := by
  unfold tokens at h
  simp only [Outcome.except_bind_ok] at h
  obtain ⟨s, hs, h⟩ := h
  have hlines := Line.split_follow 0 source.toList
  rw [Nat.zero_add] at hlines
  exact Layout.finish_upTo h (Layout.lines_upTo hs hlines .nil)

theorem tokens_before {source : String} {ts : List Token} (h : tokens source = .ok ts) : ts.Pairwise Token.Before := by
  obtain ⟨front, hfront, rfl⟩ := tokens_between h
  refine List.pairwise_append.2 ⟨hfront.sorted, List.pairwise_singleton _ _, fun t ht u hu => ?_⟩
  rw [List.mem_singleton.1 hu]
  exact ⟨(hfront.bounds t ht).2, hfront.stops t ht⟩

theorem tokens_ascending {source : String} {ts : List Token} (h : tokens source = .ok ts) : Ascending ts :=
  (tokens_before h).imp And.left

end Unroll
