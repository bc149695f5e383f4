import Mathlib.Data.List.TakeWhile
import Unroll.Proofs.Written
/-!
# The patterns of the tokens

What may stand under a token is said here without a scanner: words, numerals, quoted characters, quoted texts and
symbols, each by its own pattern.  The scanner takes the longest front of a line that has a pattern
(`scan_pattern`, `scan_longest`), and it takes the same where the line is cut off behind that front or goes on with
something that joins nothing (`scan_cut`).
-/
namespace Unroll

namespace Lexeme

/-- Whether the character can make a lexeme longer that stands before it; quotations know their own end. -/
def joins (c : Char) : Bool := continuesWord c || ['>', ':', '=', '&', '|'].contains c

/-- Nothing that stands before `cs` is longer for it. -/
def Stops (cs : List Char) : Prop := ∀ c, cs.head? = some c → joins c = false

theorem stops_nil : Stops [] := fun _ h => by cases h

theorem stops_cons {c : Char} {cs : List Char} : Stops (c :: cs) ↔ joins c = false := by
  constructor
  · intro h
    exact h c rfl
  · intro h d hd
    cases hd
    exact h

/-- No word and no numeral that stands before `cs` is longer for it. -/
def StopsWords (cs : List Char) : Prop := ∀ c, cs.head? = some c → continuesWord c = false

theorem digit_continues {b : Nat} {c : Char} (h : Text.isDigitIn b c = true) : continuesWord c = true := by
  unfold Text.isDigitIn Text.digit? at h
  unfold continuesWord startsWord Char.isAlpha Char.isUpper Char.isLower Char.isDigit
  simp only [Char.le_def, UInt32.le_iff_toNat_le] at h
  simp only [Bool.or_eq_true, decide_eq_true_eq, ge_iff_le, Bool.and_eq_true, UInt32.le_iff_toNat_le]
  split at h
  · rename_i d hd
    split at hd
    · rename_i hdigit
      exact .inr hdigit
    · split at hd
      · rename_i hlower
        exact .inl (.inl (.inr ⟨hlower.1, Nat.le_trans hlower.2 (by decide)⟩))
      · split at hd
        · rename_i hupper
          exact .inl (.inl (.inl ⟨hupper.1, Nat.le_trans hupper.2 (by decide)⟩))
        · cases hd
  · cases h

theorem startsWord_digit {c : Char} (h : c.isDigit = true) : startsWord c = false := by
  unfold Char.isDigit at h
  simp only [Bool.and_eq_true, decide_eq_true_eq, ge_iff_le, UInt32.le_iff_toNat_le] at h
  have hnine : c.val.toNat ≤ 57 := h.2
  unfold startsWord
  rw [Bool.or_eq_false_iff]
  constructor
  · unfold Char.isAlpha Char.isUpper Char.isLower
    simp only [Bool.or_eq_false_iff, Bool.and_eq_false_imp, decide_eq_true_eq, decide_eq_false_iff_not, ge_iff_le,
      UInt32.le_iff_toNat_le]
    have hA : ('A' : Char).val.toNat = 65 := rfl
    have ha : ('a' : Char).val.toNat = 97 := rfl
    exact ⟨fun hge => by omega, fun hge => by omega⟩
  · rw [beq_eq_false_iff_ne]
    rintro rfl
    exact absurd hnine (by decide)

/-- A run that ends within the first `i` characters ends there in any text that has these and then stops. -/
theorem takeWhile_cut {p : Char → Bool} {rest tail : List Char} {i : Nat} (hi : (rest.takeWhile p).length ≤ i)
    (htail : ∀ c, tail.head? = some c → p c = false) :
    (rest.take i ++ tail).takeWhile p = rest.takeWhile p := by
  have hnone : tail.takeWhile p = [] := by
    cases tail with
    | nil => rfl
    | cons c tail => exact List.takeWhile_cons_of_neg (by simp [htail c rfl])
  induction rest generalizing i with
  | nil => rw [List.take_nil, List.nil_append, hnone, List.takeWhile_nil]
  | cons c rest ih =>
    by_cases hc : p c = true
    · rw [List.takeWhile_cons_of_pos hc] at hi ⊢
      obtain ⟨i, rfl⟩ : ∃ j, i = j + 1 := ⟨i - 1, by rw [List.length_cons] at hi; omega⟩
      rw [List.take_succ_cons, List.cons_append, List.takeWhile_cons_of_pos hc, ih (by simpa using hi)]
    · rw [List.takeWhile_cons_of_neg hc]
      cases i with
      | zero => rw [List.take_zero, List.nil_append, hnone]
      | succ i => exact List.takeWhile_cons_of_neg hc

/-- A front that is cut behind its first `n` characters still begins with these. -/
theorem take_cut {α : Type} {rest tail : List α} {n i : Nat} (hi : n ≤ i) :
    ∃ after, rest.take i ++ tail = rest.take n ++ after := by
  refine ⟨(rest.take i).drop n ++ tail, ?_⟩
  have hn : rest.take n = (rest.take i).take n := by rw [List.take_take, Nat.min_eq_left hi]
  rw [hn, ← List.append_assoc, List.take_append_drop]

end Lexeme

/-! ## Numerals -/

namespace Numeral

open Lexeme

/-- The base that a mark behind a zero announces. -/
def markedBase? : Char → Option Nat
  | 'b' => some 2
  | 'o' => some 8
  | 'x' => some 16
  | _ => none

/-- The base of a numeral with a prefix. -/
def base? (c : Char) (rest : List Char) : Option Nat :=
  match c, rest with
  | '0', m :: d :: _ => (markedBase? m).filter (isPart · d)
  | _, _ => none

theorem base?_some {c : Char} {rest : List Char} {b : Nat} (h : base? c rest = some b) :
    ∃ m d r, c = '0' ∧ rest = m :: d :: r ∧ markedBase? m = some b ∧ isPart b d = true := by
  unfold base? at h
  split at h
  · obtain ⟨hm, hd⟩ := Option.filter_eq_some_iff.1 h
    exact ⟨_, _, _, rfl, rfl, hm, hd⟩
  · cases h

theorem base?_marked {m d : Char} {b : Nat} (r : List Char) (hm : markedBase? m = some b) (hd : isPart b d = true) :
    base? '0' (m :: d :: r) = some b := Option.filter_eq_some_iff.2 ⟨hm, hd⟩

theorem base?_decimal {c : Char} {rest : List Char} (h : ∀ d ∈ rest, isPart 10 d = true) : base? c rest = none := by
  refine Option.eq_none_iff_forall_ne_some.2 fun b hb => ?_
  obtain ⟨m, d, r, rfl, rfl, hm, -⟩ := base?_some hb
  have hpart := h m (List.mem_cons_self ..)
  unfold markedBase? at hm
  split at hm <;> cases hm <;> exact absurd hpart (by decide)

theorem scan_based {c : Char} {rest : List Char} {b : Nat} (h : base? c rest = some b) :
    scan c rest = scan.based b rest.tail := by
  obtain ⟨m, d, r, rfl, rfl, hm, hd⟩ := base?_some h
  unfold markedBase? at hm
  split at hm <;> cases hm <;> exact if_pos hd

theorem scan_plain {c : Char} {rest : List Char} (h : base? c rest = none) : scan c rest = scan.plain c rest := by
  unfold scan
  split
  all_goals first | rfl | exact if_neg fun hd => by simp [base?, markedBase?, hd] at h

theorem isPart_continues {b : Nat} {c : Char} (h : isPart b c = true) : continuesWord c = true := by
  obtain h | h := Bool.or_eq_true_iff.1 h
  · rw [eq_of_beq h]
    decide
  · exact digit_continues h

theorem mark_continues {b : Nat} {m : Char} (h : markedBase? m = some b) : continuesWord m = true := by
  unfold markedBase? at h
  split at h <;> first | decide | cases h

theorem stops_not_part {tail : List Char} (h : StopsWords tail) (b : Nat) :
    ∀ c, tail.head? = some c → isPart b c = false := by
  intro c hc
  cases hpart : isPart b c with
  | false => rfl
  | true =>
    have hword := isPart_continues hpart
    rw [h c hc] at hword
    cases hword

/-- No prefix arises behind a cut. -/
theorem base?_cut {c : Char} {rest tail : List Char} (i : Nat) (h : base? c rest = none) (htail : StopsWords tail) :
    base? c (rest.take i ++ tail) = none := by
  refine Option.eq_none_iff_forall_ne_some.2 fun b hb => ?_
  obtain ⟨m, d, r, rfl, hcut, hm, hd⟩ := base?_some hb
  have hstop : ∀ x xs, tail = x :: xs → continuesWord x = false := fun x xs hx => by
    exact htail x (hx ▸ rfl)
  have hmark := mark_continues hm
  have hpart := isPart_continues hd
  match rest, i with
  | [], _ | _ :: _, 0 =>
    rw [hstop m _ (by simpa using hcut)] at hmark
    cases hmark
  | [_], _ + 1 | _ :: _ :: _, 1 =>
    rw [hstop d _ (by simpa using (List.cons.inj hcut).2)] at hpart
    cases hpart
  | m' :: d' :: rest, i + 2 =>
    obtain ⟨hm', hcut⟩ := List.cons.inj hcut
    obtain ⟨hd', -⟩ := List.cons.inj hcut
    rw [hm', hd', base?_marked rest hm hd] at h
    cases h

theorem scan_cut {c : Char} {rest tail : List Char} {i : Nat} (hi : (scan c rest).2 ≤ i) (htail : StopsWords tail) :
    scan c (rest.take i ++ tail) = scan c rest := by
  cases hb : base? c rest with
  | none =>
    rw [scan_plain hb] at hi ⊢
    rw [scan_plain (base?_cut i hb htail)]
    unfold scan.plain at hi ⊢
    dsimp only at hi ⊢
    rw [takeWhile_cut hi (stops_not_part htail 10)]
  | some b =>
    rw [scan_based hb] at hi ⊢
    obtain ⟨m, d, r, rfl, rfl, hm, hd⟩ := base?_some hb
    unfold scan.based at hi
    dsimp only [List.tail_cons] at hi
    obtain ⟨i, rfl⟩ : ∃ j, i = j + 2 := by
      rw [List.takeWhile_cons_of_pos hd, List.length_cons] at hi
      exact ⟨i - 2, by omega⟩
    have hcut : (m :: d :: r).take (i + 2) ++ tail = m :: d :: (r.take i ++ tail) := rfl
    have hrun : ((d :: r).take (i + 1) ++ tail).takeWhile (isPart b) = (d :: r).takeWhile (isPart b) :=
      takeWhile_cut (by omega) (stops_not_part htail b)
    rw [List.take_succ_cons, List.cons_append] at hrun
    rw [hcut, scan_based (base?_marked _ hm hd)]
    unfold scan.based
    dsimp only [List.tail_cons]
    rw [hrun]

end Numeral

/-! ## Symbols -/

namespace Symbol

theorem scan?_spelling {c : Char} {rest : List Char} {s : Symbol} {n : Nat} (h : scan? c rest = some (s, n)) :
    n ≤ rest.length ∧ c :: rest.take n = s.spelling.toList := by
  unfold scan? at h
  split at h <;> cases h <;> refine ⟨?_, rfl⟩ <;> simp

theorem scan?_of_spelling {c : Char} {r : List Char} {s : Symbol} (h : s.spelling.toList = c :: r) :
    scan? c r = some (s, r.length) := by
  cases s <;> cases h <;> rfl

/-- What is read depends on the next character only. -/
theorem scan?_next (c x : Char) (r r' : List Char) : scan? c (x :: r) = scan? c (x :: r') := by
  unfold scan?
  split <;> simp_all

/-- Whether the character makes a longer symbol of the one before it. -/
def absorbs : Symbol → Char → Bool
  | .minus, c => c == '>'
  | .colon, c => c == ':'
  | .assign, c | .bang, c | .lt, c | .gt, c => c == '='
  | _, _ => false

theorem absorbs_joins {s : Symbol} {c : Char} (h : Lexeme.joins c = false) : s.absorbs c = false := by
  have hmark : ['>', ':', '=', '&', '|'].contains c = false := (Bool.or_eq_false_iff.1 h).2
  simp only [List.contains_cons, Bool.or_eq_false_iff] at hmark
  cases s <;> first | rfl | exact hmark.1 | exact hmark.2.1 | exact hmark.2.2.1

/-- A symbol of one character is read where what follows makes no longer one of it. -/
theorem scan?_before {c : Char} {rest tail : List Char} {s : Symbol} (h : scan? c rest = some (s, 0))
    (htail : ∀ x, tail.head? = some x → s.absorbs x = false) : scan? c tail = some (s, 0) := by
  have hspelling := (scan?_spelling h).2
  cases tail with
  | nil => exact scan?_of_spelling hspelling.symm
  | cons x tail =>
    have hx := htail x rfl
    have hne : ∀ {d : Char}, (x == d) = false → x ≠ d := fun h => beq_eq_false_iff_ne.1 h
    cases s <;> simp [spelling] at hspelling <;> subst hspelling <;> first
      | rfl
      | (have hx := hne hx; simp [scan?, hx])

theorem scan?_cut {c : Char} {rest tail : List Char} {s : Symbol} {n i : Nat} (h : scan? c rest = some (s, n))
    (hi : n ≤ i) (htail : ∀ x, tail.head? = some x → s.absorbs x = false) :
    scan? c (rest.take i ++ tail) = some (s, n) := by
  cases i with
  | zero =>
    obtain rfl : n = 0 := Nat.le_zero.1 hi
    rw [List.take_zero, List.nil_append, scan?_before h htail]
  | succ i =>
    cases rest with
    | nil =>
      obtain rfl : n = 0 := Nat.le_zero.1 (scan?_spelling h).1
      rw [List.take_nil, List.nil_append, scan?_before h htail]
    | cons x rest =>
      rw [List.take_succ_cons, List.cons_append, scan?_next c x _ rest, h]

end Symbol

/-- Whether the character makes a longer token of the one before it.  Quotations know their own end. -/
def TokenKind.absorbs : TokenKind → Char → Bool
  | .keyword _, c | .name _, c | .int _, c => Lexeme.continuesWord c
  | .symbol s, c => s.absorbs c
  | _, _ => false

/-- The token is not longer for what comes behind it. -/
def TokenKind.EndsBefore (k : TokenKind) (cs : List Char) : Prop := ∀ c, cs.head? = some c → k.absorbs c = false

/-! ## Quotations -/

namespace Lexeme

theorem word_endsBefore {c : Char} {rest cs : List Char} : (word c rest).1.EndsBefore cs ↔ StopsWords cs := by
  unfold word
  dsimp only
  split <;> exact Iff.rfl

/-- What stands between the quotes of a text: no quote and no backslash, but any character behind a backslash. -/
inductive TextInside : List Char → Prop
  | nil : TextInside []
  | plain {c : Char} {r : List Char} : c ≠ '"' → c ≠ '\\' → TextInside r → TextInside (c :: r)
  | escape {c : Char} {r : List Char} : TextInside r → TextInside ('\\' :: c :: r)

/-- What stands between the quotes of a character. -/
inductive CharInside : List Char → Prop
  | plain {c : Char} : c ≠ '\'' → c ≠ '\\' → CharInside [c]
  | escape {c : Char} : c ≠ 'u' → CharInside ['\\', c]
  | code {run : List Char} : run ≠ [] → (∀ d ∈ run, Text.isDigitIn 16 d = true) →
    CharInside ('\\' :: 'u' :: '{' :: (run ++ ['}']))

theorem textReach_closed {inside : List Char} (h : TextInside inside) (after : List Char) :
    textReach (inside ++ '"' :: after) = (inside.length + 1, true) := by
  induction h with
  | nil => rfl
  | plain hq hb _ ih =>
    rw [List.cons_append]
    unfold textReach
    split <;> simp_all
  | escape _ ih => simp [textReach, ih]

theorem textInside_of_closed {rest : List Char} {n : Nat} (h : textReach rest = (n, true)) :
    ∃ inside after, rest = inside ++ '"' :: after ∧ TextInside inside ∧ n = inside.length + 1 := by
  fun_induction textReach rest generalizing n with
  | case1 => cases h
  | case2 => cases h
  | case3 c r m closed hr ih =>
    cases h
    obtain ⟨inside, after, rfl, hinside, rfl⟩ := ih hr
    exact ⟨_, after, rfl, .escape hinside, rfl⟩
  | case4 r =>
    cases h
    exact ⟨[], r, rfl, .nil, rfl⟩
  | case5 c r hlast hescape hquote m closed hr ih =>
    cases h
    obtain ⟨inside, after, rfl, hinside, rfl⟩ := ih hr
    refine ⟨c :: inside, after, rfl, .plain hquote (fun hc => ?_) hinside, rfl⟩
    cases inside with
    | nil => exact hescape _ _ hc rfl
    | cons d inside => exact hescape _ _ hc rfl

/-- The inside of a text decides on its token. -/
def textOf (inside : List Char) : Except LexFault TokenKind :=
  match Text.decode inside with
  | some cs => .ok (.text (String.ofList cs))
  | none => .error .text

theorem text_closed {inside : List Char} (h : TextInside inside) (after : List Char) :
    text (inside ++ '"' :: after) = (textOf inside, inside.length + 1) := by
  unfold text textOf
  rw [textReach_closed h after]
  dsimp only
  rw [Nat.add_sub_cancel, List.take_left]
  cases Text.decode inside <;> rfl

theorem textInside_of_ok {rest : List Char} {k : TokenKind} (h : (text rest).1 = .ok k) :
    ∃ inside after, rest = inside ++ '"' :: after ∧ TextInside inside := by
  unfold text at h
  split at h
  · cases h
  · rename_i n hreach
    obtain ⟨inside, after, hrest, hinside, -⟩ := textInside_of_closed hreach
    exact ⟨inside, after, hrest, hinside⟩

theorem hexRun {run : List Char} (hrun : ∀ d ∈ run, Text.isDigitIn 16 d = true) (after : List Char) :
    (run ++ '}' :: after).takeWhile (Text.isDigitIn 16) = run := by
  rw [List.takeWhile_append_of_pos hrun, List.takeWhile_cons_of_neg (by decide), List.append_nil]

theorem character_closed {inside : List Char} (h : CharInside inside) (after : List Char) :
    character (inside ++ '\'' :: after) = (character.decoded inside, inside.length + 1) := by
  cases h with
  | @plain c hq hb =>
    unfold character
    split
    · simp_all
    · simp_all
    · rename_i heq
      cases heq
      exact if_neg fun h => h.elim hq hb
    · simp_all
  | @escape c hu =>
    unfold character
    split
    · simp_all
    · rename_i heq
      cases heq
      exact if_neg hu
    · rename_i hother heq
      cases heq
      exact (hother _ rfl rfl).elim
    · simp_all
  | @code run hne hrun =>
    have hlength : ('\\' :: 'u' :: '{' :: (run ++ ['}'])).length = run.length + 4 := by simp
    have hcode : '\\' :: 'u' :: '{' :: (run ++ ['}']) ++ '\'' :: after =
      '\\' :: 'u' :: '{' :: (run ++ '}' :: '\'' :: after) := by simp
    have htake : ('\\' :: 'u' :: '{' :: (run ++ '}' :: '\'' :: after)).take (run.length + 4) =
      '\\' :: 'u' :: '{' :: (run ++ ['}']) := hcode ▸ List.take_left' hlength
    rw [hcode, hlength]
    unfold character
    split
    · rename_i heq
      cases heq
      dsimp only
      rw [hexRun hrun, if_neg (by simpa using hne), List.drop_left, htake]
      rfl
    · simp_all
    · simp_all
    · simp_all

theorem charInside_of_ok {rest : List Char} {k : TokenKind} (h : (character rest).1 = .ok k) :
    ∃ inside after, rest = inside ++ '\'' :: after ∧ CharInside inside := by
  unfold character at h
  split at h
  · rename_i r
    dsimp only at h
    split at h
    · cases h
    · rename_i hne
      split at h
      · rename_i after hdrop
        refine ⟨'\\' :: 'u' :: '{' :: (r.takeWhile (Text.isDigitIn 16) ++ ['}']), after, ?_,
          .code (by simpa using hne) fun d hd => List.mem_takeWhile_imp hd⟩
        have hr := List.prefix_iff_eq_append.1 (List.takeWhile_prefix (l := r) (Text.isDigitIn 16))
        rw [hdrop] at hr
        simp [hr]
      · cases h
  · rename_i c after
    split at h
    · cases h
    · rename_i hu
      exact ⟨['\\', c], after, rfl, .escape hu⟩
  · rename_i c after hescape
    split at h
    · cases h
    · rename_i hplain
      exact ⟨[c], after, rfl, .plain (fun hc => hplain (.inl hc)) fun hc => hplain (.inr hc)⟩
  · cases h

/-! ## The scanner and the patterns -/

/-- **The patterns of the tokens.**  A keyword is a word. -/
inductive Pattern : List Char → Prop
  | word {c : Char} {r : List Char} : startsWord c = true → (∀ d ∈ r, continuesWord d = true) → Pattern (c :: r)
  | decimal {c : Char} {r : List Char} : c.isDigit = true → (∀ d ∈ r, Numeral.isPart 10 d = true) → Pattern (c :: r)
  | based {m : Char} {b : Nat} {run : List Char} : Numeral.markedBase? m = some b → run ≠ [] →
    (∀ d ∈ run, Numeral.isPart b d = true) → Pattern ('0' :: m :: run)
  | character {inside : List Char} : CharInside inside → Pattern ('\'' :: (inside ++ ['\'']))
  | text {inside : List Char} : TextInside inside → Pattern ('"' :: (inside ++ ['"']))
  | symbol (s : Symbol) : Pattern s.spelling.toList

variable {c : Char} {rest tail : List Char} {k : TokenKind} {n i : Nat}

theorem scan_word (h : startsWord c = true) : scan c rest = (.ok (word c rest).1, (word c rest).2) := if_pos h

theorem scan_numeral (h : c.isDigit = true) :
    scan c rest = ((match (Numeral.scan c rest).1 with | some v => .ok (.int v) | none => .error .integer),
      (Numeral.scan c rest).2) := by
  unfold scan
  rw [if_neg (by simp [startsWord_digit h]), if_pos h]
  cases hs : Numeral.scan c rest with
  | mk v n => cases v <;> rfl

theorem scan_text : scan '"' rest = text rest := rfl

theorem scan_character : scan '\'' rest = character rest := rfl

theorem scan_symbol (hw : startsWord c = false) (hd : c.isDigit = false) (ht : c ≠ '"') (hc : c ≠ '\'') :
    scan c rest = match Symbol.scan? c rest with
      | some (s, n) => (.ok (.symbol s), n)
      | none => (.error .unexpected, 0) := by
  unfold scan
  rw [if_neg (by simp [hw]), if_neg (by simp [hd]), if_neg ht]
  exact if_neg hc

/-- What begins a lexeme, by its kind. -/
theorem first_cases (c : Char) : startsWord c = true ∨ c.isDigit = true ∨ c = '"' ∨ c = '\'' ∨
    startsWord c = false ∧ c.isDigit = false ∧ c ≠ '"' ∧ c ≠ '\'' := by
  cases startsWord c <;> cases c.isDigit <;> by_cases hq : c = '"' <;> by_cases ha : c = '\'' <;> simp [hq, ha]

/-- **What the scanner takes has a pattern.** -/
theorem scan_pattern (h : scan c rest = (.ok k, n)) : n ≤ rest.length ∧ Pattern (c :: rest.take n) := by
  have hrun : ∀ (p : Char → Bool) (cs : List Char), cs.take (cs.takeWhile p).length = cs.takeWhile p := fun p cs =>
    (List.prefix_iff_eq_take.1 (List.takeWhile_prefix p)).symm
  rcases first_cases c with hw | hd | rfl | rfl | ⟨hw, hd, ht, hc⟩
  · rw [scan_word hw] at h
    obtain rfl : (rest.takeWhile continuesWord).length = n := congrArg Prod.snd h
    refine ⟨(List.takeWhile_prefix _).length_le, .word hw fun d hd => ?_⟩
    rw [hrun] at hd
    exact List.mem_takeWhile_imp hd
  · rw [scan_numeral hd] at h
    obtain rfl : (Numeral.scan c rest).2 = n := congrArg Prod.snd h
    cases hb : Numeral.base? c rest with
    | none =>
      rw [Numeral.scan_plain hb]
      refine ⟨(List.takeWhile_prefix _).length_le, .decimal hd fun d hd => ?_⟩
      rw [Numeral.scan.plain, hrun] at hd
      exact List.mem_takeWhile_imp hd
    | some b =>
      rw [Numeral.scan_based hb]
      obtain ⟨m, d, r, rfl, rfl, hm, hpart⟩ := Numeral.base?_some hb
      unfold Numeral.scan.based
      dsimp only [List.tail_cons]
      rw [List.take_succ_cons, hrun]
      refine ⟨Nat.succ_le_succ (List.takeWhile_prefix _).length_le, .based hm ?_ fun x hx => List.mem_takeWhile_imp hx⟩
      rw [List.takeWhile_cons_of_pos hpart]
      exact List.cons_ne_nil _ _
  · rw [scan_text] at h
    obtain ⟨inside, after, rfl, hinside⟩ := textInside_of_ok (congrArg Prod.fst h)
    rw [text_closed hinside] at h
    obtain rfl : inside.length + 1 = n := congrArg Prod.snd h
    refine ⟨by simp, ?_⟩
    rw [List.append_cons, List.take_left' (by simp)]
    exact .text hinside
  · rw [scan_character] at h
    obtain ⟨inside, after, rfl, hinside⟩ := charInside_of_ok (congrArg Prod.fst h)
    rw [character_closed hinside] at h
    obtain rfl : inside.length + 1 = n := congrArg Prod.snd h
    refine ⟨by simp, ?_⟩
    rw [List.append_cons, List.take_left' (by simp)]
    exact .character hinside
  · rw [scan_symbol hw hd ht hc] at h
    cases hs : Symbol.scan? c rest with
    | none =>
      rw [hs] at h
      cases h
    | some found =>
      rw [hs] at h
      cases h
      obtain ⟨hle, hspelling⟩ := Symbol.scan?_spelling hs
      rw [hspelling]
      exact ⟨hle, .symbol _⟩

/-- **A lexeme is read the same where the text is cut behind it**, or goes on behind the cut with what makes it no
longer. -/
theorem scan_cut (h : scan c rest = (.ok k, n)) (hi : n ≤ i) (htail : k.EndsBefore tail) :
    scan c (rest.take i ++ tail) = (.ok k, n) := by
  rcases first_cases c with hw | hd | rfl | rfl | ⟨hw, hd, ht, hc⟩
  · rw [scan_word hw] at h ⊢
    obtain rfl : (rest.takeWhile continuesWord).length = n := congrArg Prod.snd h
    have hstop : StopsWords tail := by
      rw [← Except.ok.inj (congrArg Prod.fst h)] at htail
      exact word_endsBefore.1 htail
    rw [← h]
    unfold word
    rw [takeWhile_cut hi hstop]
  · rw [scan_numeral hd] at h ⊢
    obtain rfl : (Numeral.scan c rest).2 = n := congrArg Prod.snd h
    have hstop : StopsWords tail := by
      have hk := congrArg Prod.fst h
      dsimp only at hk
      split at hk <;> cases hk
      exact htail
    rw [Numeral.scan_cut hi hstop, h]
  · rw [scan_text] at h ⊢
    obtain ⟨inside, after, rfl, hinside⟩ := textInside_of_ok (congrArg Prod.fst h)
    rw [text_closed hinside] at h
    obtain rfl : inside.length + 1 = n := congrArg Prod.snd h
    obtain ⟨after', hcut⟩ : ∃ more, (inside ++ '"' :: after).take i ++ tail =
      (inside ++ '"' :: after).take (inside.length + 1) ++ more := take_cut hi
    rw [hcut, List.append_cons, List.take_left' (by simp), ← List.append_cons, text_closed hinside, h]
  · rw [scan_character] at h ⊢
    obtain ⟨inside, after, rfl, hinside⟩ := charInside_of_ok (congrArg Prod.fst h)
    rw [character_closed hinside] at h
    obtain rfl : inside.length + 1 = n := congrArg Prod.snd h
    obtain ⟨after', hcut⟩ : ∃ more, (inside ++ '\'' :: after).take i ++ tail =
      (inside ++ '\'' :: after).take (inside.length + 1) ++ more := take_cut hi
    rw [hcut, List.append_cons, List.take_left' (by simp), ← List.append_cons, character_closed hinside, h]
  · rw [scan_symbol hw hd ht hc] at h ⊢
    cases hs : Symbol.scan? c rest with
    | none =>
      rw [hs] at h
      cases h
    | some found =>
      rw [hs] at h
      cases h
      rw [Symbol.scan?_cut hs hi htail]

theorem endsBefore_nil : k.EndsBefore [] := fun _ h => by cases h

theorem Stops.endsBefore (h : Stops tail) : k.EndsBefore tail := by
  intro x hx
  have hjoins := h x hx
  cases k with
  | keyword _ | name _ | int _ => exact (Bool.or_eq_false_iff.1 hjoins).1
  | symbol s => exact Symbol.absorbs_joins hjoins
  | _ => rfl

/-- **What has a pattern is taken as a whole**, whether or not it has a value. -/
theorem scan_whole (h : Pattern (c :: rest)) : (scan c rest).2 = rest.length := by
  generalize hcs : c :: rest = cs at h
  cases h with
  | word hw hr =>
    cases hcs
    rw [scan_word hw]
    exact congrArg List.length (List.takeWhile_eq_self_iff.2 hr)
  | decimal hd hr =>
    cases hcs
    rw [scan_numeral hd]
    rw [Numeral.scan_plain (Numeral.base?_decimal hr)]
    exact congrArg List.length (List.takeWhile_eq_self_iff.2 hr)
  | @based m b run hm hne hr =>
    cases hcs
    obtain ⟨d, r, rfl⟩ := List.exists_cons_of_ne_nil hne
    rw [scan_numeral (by decide), Numeral.scan_based (Numeral.base?_marked r hm (hr d (List.mem_cons_self ..)))]
    exact congrArg (List.length · + 1) (List.takeWhile_eq_self_iff.2 hr)
  | character hinside =>
    cases hcs
    rw [scan_character, character_closed hinside]
    simp
  | text hinside =>
    cases hcs
    rw [scan_text, text_closed hinside]
    simp
  | symbol s =>
    cases s <;> cases hcs <;> rfl

/-- **No longer front of the line has a pattern.** -/
theorem scan_longest {m : Nat} (h : scan c rest = (.ok k, n)) (hm : m ≤ rest.length) (hp : Pattern (c :: rest.take m)) :
    m ≤ n := by
  by_contra hlt
  have hcut := scan_cut (i := m) h (by omega) endsBefore_nil
  have hwhole := scan_whole hp
  rw [List.append_nil] at hcut
  rw [hcut, List.length_take, Nat.min_eq_left hm] at hwhole
  dsimp only at hwhole
  omega

end Lexeme
end Unroll
