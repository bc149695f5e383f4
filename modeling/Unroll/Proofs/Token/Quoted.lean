import Mathlib.Tactic.SplitIfs
import Unroll.Printer
import Unroll.Proofs.Token.Pattern
/-!
# What is quoted is read back

A quoted character is written as itself, or behind a backslash, or by its number (`Text.encodeChar_cases`).  In each of
these ways it is read back, it keeps inside of the quotation, and nothing of it is a control character; so a literal is
one lexeme, on one line, whatever characters it stands for.
-/
namespace Unroll

namespace Lexeme

/-- What words are made of lies between the digit zero and the last small letter. -/
theorem continues_range {c : Char} (h : continuesWord c = true) : 0x30 ≤ c.toNat ∧ c.toNat ≤ 0x7A := by
  unfold continuesWord startsWord Char.isAlpha Char.isUpper Char.isLower Char.isDigit at h
  simp only [Bool.or_eq_true, Bool.and_eq_true, decide_eq_true_eq, beq_iff_eq, ge_iff_le, UInt32.le_iff_toNat_le] at h
  show 0x30 ≤ c.val.toNat ∧ c.val.toNat ≤ 0x7A
  rcases h with ((⟨hlow, hhigh⟩ | ⟨hlow, hhigh⟩) | rfl) | ⟨hlow, hhigh⟩
  · exact ⟨Nat.le_trans (by decide) hlow, Nat.le_trans hhigh (by decide)⟩
  · exact ⟨Nat.le_trans (by decide) hlow, hhigh⟩
  · decide
  · exact ⟨hlow, Nat.le_trans hhigh (by decide)⟩

theorem continues_printable {c : Char} (h : continuesWord c = true) : Text.isControl c = false := by
  have hrange := continues_range h
  simp only [Text.isControl, Bool.or_eq_false_iff, Bool.and_eq_false_imp, decide_eq_true_eq, decide_eq_false_iff_not]
  omega

end Lexeme

namespace Text

/-! ## Digits -/

theorem digit?_lowerDigit : ∀ {d : Nat}, d < 16 → digit? (lowerDigit d) = some d := by decide

theorem ofDigits_append (b : Nat) (cs : List Char) (c : Char) :
    ofDigits b (cs ++ [c]) = ofDigits b cs * b + (digit? c).getD 0 := by
  rw [ofDigits, List.foldl_append]
  rfl

theorem ofDigits_hexDigits (n : Nat) : ofDigits 16 (hexDigits n) = n := by
  induction n using hexDigits.induct with
  | case1 n h =>
    rw [hexDigits, if_pos h, ← List.nil_append [lowerDigit n], ofDigits_append, digit?_lowerDigit h]
    exact Nat.zero_add n
  | case2 n h ih =>
    rw [hexDigits, if_neg h, ofDigits_append, ih, digit?_lowerDigit (Nat.mod_lt _ (by decide))]
    exact Nat.div_add_mod' n 16

theorem lowerDigit_hex {d : Nat} (h : d < 16) : isDigitIn 16 (lowerDigit d) = true := by
  rw [isDigitIn, digit?_lowerDigit h]
  exact decide_eq_true h

theorem hexDigits_hex (n : Nat) : ∀ d ∈ hexDigits n, isDigitIn 16 d = true := by
  induction n using hexDigits.induct with
  | case1 n h =>
    rw [hexDigits, if_pos h]
    intro d hd
    rw [List.mem_singleton.1 hd]
    exact lowerDigit_hex h
  | case2 n h ih =>
    rw [hexDigits, if_neg h]
    intro d hd
    rcases List.mem_append.1 hd with hd | hd
    · exact ih d hd
    · rw [List.mem_singleton.1 hd]
      exact lowerDigit_hex (Nat.mod_lt _ (by decide))

theorem hexDigits_length {n : Nat} (h : n < 256) : (hexDigits n).length ≤ 2 := by
  rw [hexDigits]
  split
  · exact Nat.le_succ 1
  · have hrest : n / 16 < 16 := by omega
    rw [hexDigits, if_pos hrest]
    exact Nat.le_refl 2

theorem hexDigits_ne_nil (n : Nat) : hexDigits n ≠ [] := by
  rw [hexDigits]
  split <;> simp

/-! ## Escapes -/

theorem scalar?_toNat (c : Char) : scalar? c.toNat = some c := dif_pos c.valid

theorem codePoint?_digits {cs : List Char} (hne : cs ≠ []) (hcs : ∀ d ∈ cs, isDigitIn 16 d = true)
    (hlength : cs.length ≤ 6) :
    codePoint? cs = scalar? (ofDigits 16 cs) := by
  have hall : cs.all (isDigitIn 16) = true := List.all_eq_true.2 hcs
  unfold codePoint?
  split
  · exact absurd (hcs '+' (List.mem_cons_self ..)) (by decide)
  · exact if_pos (by simp [hlength, hne, hall])

theorem untilBrace_digits {cs : List Char} (hcs : ∀ d ∈ cs, isDigitIn 16 d = true) (after : List Char) :
    untilBrace (cs ++ '}' :: after) = some (cs, after) := by
  induction cs with
  | nil => rfl
  | cons c cs ih =>
    have hc : c ≠ '}' := by
      rintro rfl
      exact absurd (hcs '}' (List.mem_cons_self ..)) (by decide)
    rw [List.cons_append]
    unfold untilBrace
    split
    · simp_all
    · simp_all
    · rename_i heq
      cases heq
      rw [ih fun d hd => hcs d (List.mem_cons_of_mem _ hd)]
      rfl

theorem decode_code {code rest : List Char} {c : Char} {r : List Char} (h : untilBrace r = some (code, rest))
    (hc : codePoint? code = some c) : decode ('\\' :: 'u' :: '{' :: r) = (decode rest).map (c :: ·) := by
  rw [decode]
  split
  · rename_i hnone
    rw [h] at hnone
    cases hnone
  · rename_i code' rest' hsome
    rw [h] at hsome
    cases hsome
    dsimp only
    rw [hc]
    cases decode rest <;> rfl

theorem decode_escaped {e c : Char} (h : escaped? e = some c) (r : List Char) :
    decode ('\\' :: e :: r) = (decode r).map (c :: ·) := by
  have hu : e ≠ 'u' := by
    rintro rfl
    cases h
  rw [decode]
  · rw [h]
    cases decode r <;> rfl
  · intro _ hr
    exact absurd hr hu

theorem decode_plain {c : Char} (h : c ≠ '\\') (r : List Char) : decode (c :: r) = (decode r).map (c :: ·) := by
  rw [decode]
  · exact if_neg h
  · simp [h]
  · simp [h]

theorem escaped?_some {e c : Char} (h : escaped? e = some c) : e ≠ 'u' ∧ isControl e = false := by
  unfold escaped? at h
  split at h <;> first | decide | cases h

/-- **How a character is written between quotes**: behind a backslash, by its number, or as itself. -/
theorem encodeChar_cases {q : Char} (hq : q = '"' ∨ q = '\'') (c : Char) :
    (∃ e, encodeChar q c = ['\\', e] ∧ escaped? e = some c) ∨
    isControl c = true ∧ encodeChar q c = '\\' :: 'u' :: '{' :: (hexDigits c.toNat ++ ['}']) ∨
    encodeChar q c = [c] ∧ c ≠ '\\' ∧ c ≠ q ∧ isControl c = false := by
  unfold encodeChar
  split_ifs with h h h h h h h
  · exact .inl ⟨'n', rfl, by rw [h]; rfl⟩
  · exact .inl ⟨'t', rfl, by rw [h]; rfl⟩
  · exact .inl ⟨'r', rfl, by rw [h]; rfl⟩
  · exact .inl ⟨'0', rfl, by rw [h]; rfl⟩
  · exact .inl ⟨'\\', rfl, by rw [h]; rfl⟩
  · refine .inl ⟨q, rfl, ?_⟩
    rw [h]
    rcases hq with rfl | rfl <;> rfl
  · exact .inr (.inl ⟨h, rfl⟩)
  · rename_i hb hquote
    exact .inr (.inr ⟨rfl, hb, hquote, eq_false_of_ne_true h⟩)

theorem codePoint?_control {c : Char} (h : isControl c = true) : codePoint? (hexDigits c.toNat) = some c := by
  have hsmall : c.toNat < 256 := by
    unfold isControl at h
    simp only [Bool.or_eq_true, Bool.and_eq_true, decide_eq_true_eq] at h
    omega
  have hlength := hexDigits_length hsmall
  rw [codePoint?_digits (hexDigits_ne_nil _) (hexDigits_hex _) (by omega), ofDigits_hexDigits, scalar?_toNat]

variable {q : Char}

/-- **Each character is read back by itself.** -/
theorem decode_encodeChar (hq : q = '"' ∨ q = '\'') (c : Char) (r : List Char) :
    decode (encodeChar q c ++ r) = (decode r).map (c :: ·) := by
  obtain ⟨e, hc, he⟩ | ⟨hcontrol, hc⟩ | ⟨hc, hb, -, -⟩ := encodeChar_cases hq c
  · rw [hc]
    exact decode_escaped he r
  · have hbrace := untilBrace_digits (hexDigits_hex c.toNat) r
    rw [hc, List.cons_append, List.cons_append, List.cons_append, List.append_assoc, List.singleton_append]
    exact decode_code hbrace (codePoint?_control hcontrol)
  · rw [hc]
    exact decode_plain hb r

theorem decode_encode (hq : q = '"' ∨ q = '\'') (cs : List Char) : decode (encode q cs) = some cs := by
  induction cs with
  | nil =>
    rw [encode, List.flatMap_nil, decode]
  | cons c cs ih =>
    rw [encode, List.flatMap_cons, decode_encodeChar hq]
    rw [encode] at ih
    rw [ih]
    rfl

theorem encodeChar_printable (hq : q = '"' ∨ q = '\'') (c : Char) : ∀ d ∈ encodeChar q c, isControl d = false := by
  obtain ⟨e, hc, he⟩ | ⟨-, hc⟩ | ⟨hc, -, -, hcontrol⟩ := encodeChar_cases hq c
  · rw [hc]
    intro d hd
    rcases List.mem_cons.1 hd with rfl | hd
    · decide
    · rw [List.mem_singleton.1 hd]
      exact (escaped?_some he).2
  · rw [hc]
    intro d hd
    have hopening : ∀ d ∈ ['\\', 'u', '{'], isControl d = false := by simp [isControl]
    have hd : d ∈ ['\\', 'u', '{'] ++ (hexDigits c.toNat ++ ['}']) := hd
    rcases List.mem_append.1 hd with hd | hd
    · exact hopening d hd
    rcases List.mem_append.1 hd with hd | hd
    · exact Lexeme.continues_printable (Lexeme.digit_continues (hexDigits_hex _ d hd))
    · rw [List.mem_singleton.1 hd]
      decide
  · rw [hc]
    intro d hd
    rwa [List.mem_singleton.1 hd]

theorem encode_printable (hq : q = '"' ∨ q = '\'') (cs : List Char) : ∀ d ∈ encode q cs, isControl d = false := by
  intro d hd
  obtain ⟨c, -, hd⟩ := List.mem_flatMap.1 hd
  exact encodeChar_printable hq c d hd

end Text

namespace Lexeme

open Text

theorem TextInside.run {run r : List Char} (hrun : ∀ d ∈ run, isDigitIn 16 d = true) (hr : TextInside r) :
    TextInside (run ++ r) := by
  induction run with
  | nil => exact hr
  | cons d run ih =>
    have hd := digit_continues (hrun d (List.mem_cons_self ..))
    refine .plain ?_ ?_ (ih fun e he => hrun e (List.mem_cons_of_mem _ he))
    · rintro rfl
      exact absurd hd (by decide)
    · rintro rfl
      exact absurd hd (by decide)

theorem textInside_encode (cs : List Char) : TextInside (encode '"' cs) := by
  induction cs with
  | nil => exact .nil
  | cons c cs ih =>
    rw [encode, List.flatMap_cons]
    rw [encode] at ih
    obtain ⟨e, hc, he⟩ | ⟨-, hc⟩ | ⟨hc, hb, hquote, -⟩ := encodeChar_cases (.inl rfl) c
    · rw [hc]
      exact .escape ih
    · rw [hc, List.cons_append, List.cons_append, List.cons_append, List.append_assoc]
      refine .escape (.plain (by decide) (by decide) ?_)
      exact .run (hexDigits_hex _) (.plain (by decide) (by decide) ih)
    · rw [hc]
      exact .plain hquote hb ih

theorem charInside_encode (c : Char) : CharInside (encodeChar '\'' c) := by
  obtain ⟨e, hc, he⟩ | ⟨-, hc⟩ | ⟨hc, hb, hquote, -⟩ := encodeChar_cases (.inr rfl) c
  · rw [hc]
    exact .escape (escaped?_some he).1
  · rw [hc]
    exact .code (hexDigits_ne_nil _) (hexDigits_hex _)
  · rw [hc]
    exact .plain hquote hb

/-- **A text is read back from between its quotes.** -/
theorem scan_quoted_text (cs : List Char) :
    scan '"' (encode '"' cs ++ ['"']) = (.ok (.text (String.ofList cs)), (encode '"' cs ++ ['"']).length) := by
  rw [scan_text, text_closed (textInside_encode cs), textOf, decode_encode (.inl rfl), List.length_append]
  rfl

/-- **A character is read back from between its quotes.** -/
theorem scan_quoted_char (c : Char) :
    scan '\'' (encode '\'' [c] ++ ['\'']) = (.ok (.char c), (encode '\'' [c] ++ ['\'']).length) := by
  have hdecode := decode_encode (.inr rfl) [c]
  have hone : encode '\'' [c] = encodeChar '\'' c := List.flatMap_singleton ..
  rw [hone] at hdecode ⊢
  rw [scan_character, character_closed (charInside_encode c), character.decoded, hdecode, List.length_append]
  rfl

end Lexeme
end Unroll
