import Mathlib.Data.List.Basic
import Unroll.Proofs.Token.Quoted
import Unroll.Proofs.Token.Scans
/-!
# The spellings of tokens

The spelling of a token is one lexeme, and scanned alone it is this token (`scan_spelling`).  Nothing of it ends a line,
and its first character is no blank.
-/
namespace Unroll

open Lexeme

/-! ## Numerals -/

theorem Text.digit?_decimal {c : Char} (h : c.isDigit = true) : digit? c = some (c.toNat - '0'.toNat) := by
  unfold Char.isDigit at h
  simp only [Bool.and_eq_true, decide_eq_true_eq] at h
  exact if_pos h

theorem Text.ofDigits_decimal {cs : List Char} (h : ∀ d ∈ cs, d.isDigit = true) :
    ofDigits 10 cs = Nat.ofDigitChars 10 cs 0 := by
  rw [Nat.ofDigitChars_eq_foldl]
  refine List.foldl_ext _ _ _ fun n d hd => ?_
  rw [digit?_decimal (h d hd), Nat.mul_comm]
  rfl

namespace Numeral

theorem digit_isPart {c : Char} (h : c.isDigit = true) : isPart 10 c = true := by
  have hnine : c.toNat ≤ 57 := by
    unfold Char.isDigit at h
    simp only [Bool.and_eq_true, decide_eq_true_eq] at h
    exact h.2
  have hzero : '0'.toNat = 48 := rfl
  rw [isPart, Text.isDigitIn, Text.digit?_decimal h, Bool.or_eq_true]
  exact .inr (decide_eq_true (by omega))

theorem grouped_digits {cs : List Char} (h : '_' ∉ cs) : grouped true cs = true := by
  induction cs with
  | nil => rfl
  | cons c cs ih =>
    have hc : c ≠ '_' := fun hc => h (hc ▸ List.mem_cons_self ..)
    rw [grouped, if_neg hc, ih fun hcs => h (List.mem_cons_of_mem _ hcs)]

/-- **A number is read back from its digits**, if it fits in 64 bits. -/
theorem scan_digits {v : Nat} (hv : v < UInt64.size) {c : Char} {r : List Char} (h : Nat.toDigits 10 v = c :: r) :
    Lexeme.scan c r = (.ok (.int v), r.length) := by
  have hdigits : ∀ d ∈ c :: r, d.isDigit = true := fun d hd =>
    Nat.isDigit_of_mem_toDigits (by decide) (by decide) (h ▸ hd)
  have hunderscore : '_' ∉ c :: r := h ▸ Nat.underscore_not_in_toDigits
  have hr : ∀ d ∈ r, isPart 10 d = true := fun d hd => digit_isPart (hdigits d (List.mem_cons_of_mem _ hd))
  have hgrouped : grouped false (c :: r) = true := by
    have hc : c ≠ '_' := fun hc => hunderscore (hc ▸ List.mem_cons_self ..)
    rw [grouped, if_neg hc, grouped_digits fun hmem => hunderscore (List.mem_cons_of_mem _ hmem)]
  have hfilter : (c :: r).filter (· != '_') = c :: r :=
    List.filter_eq_self.2 fun d hd => bne_iff_ne.2 fun hd' => hunderscore (hd' ▸ hd)
  have hvalue : value? 10 (c :: r) = some v := by
    rw [value?, if_pos hgrouped, hfilter, Text.ofDigits_decimal hdigits, ← h, Nat.ofDigitChars_ten_toDigits]
    exact if_pos hv
  rw [scan_numeral (hdigits c (List.mem_cons_self ..)), scan_plain (base?_decimal hr), scan.plain]
  rw [List.takeWhile_eq_self_iff.2 hr, hvalue]

end Numeral

/-! ## Spellings -/

namespace TokenKind

/-- What can be written: integers have to fit in 64 bits, and layout has no spelling. -/
def Writable : TokenKind → Prop
  | name n => IsName n
  | int v => v < UInt64.size
  | keyword _ | symbol _ | char _ | text _ => True
  | newline | indent | dedent | eof => False

/-- **The spelling of a token is scanned as the token.** -/
theorem scan_spelling {k : TokenKind} (h : k.Writable) :
    ∃ c r, k.spelling.toList = c :: r ∧ scan c r = (.ok k, r.length) := by
  cases k with
  | keyword w => cases w <;> exact ⟨_, _, rfl, rfl⟩
  | symbol s => cases s <;> exact ⟨_, _, rfl, rfl⟩
  | name n =>
    obtain ⟨⟨c, hhead, hc⟩, hworded, hfree⟩ := h
    obtain ⟨r, hr⟩ := List.head?_eq_some_iff.1 hhead
    have hrun : r.takeWhile continuesWord = r :=
      List.takeWhile_eq_self_iff.2 fun d hd => hworded d (hr ▸ List.mem_cons_of_mem _ hd)
    refine ⟨c, r, hr, ?_⟩
    rw [scan_word hc, word, hrun, ← hr, String.ofList_toList, hfree]
  | int v =>
    obtain ⟨c, r, hcr⟩ := List.exists_cons_of_ne_nil (Nat.toDigits_ne_nil (n := v) (b := 10))
    refine ⟨c, r, ?_, Numeral.scan_digits h hcr⟩
    rw [spelling, Nat.toString_eq_ofList_toDigits, String.toList_ofList, hcr]
  | char c =>
    refine ⟨'\'', Text.encode '\'' [c] ++ ['\''], ?_, scan_quoted_char c⟩
    rw [spelling, quoted, String.toList_ofList]
    rfl
  | text s =>
    refine ⟨'"', Text.encode '"' s.toList ++ ['"'], ?_, ?_⟩
    · rw [spelling, quoted, String.toList_ofList]
      rfl
    · rw [scan_quoted_text, String.ofList_toList]
  | _ => exact h.elim

theorem spelling_pattern {k : TokenKind} (h : k.Writable) : Pattern k.spelling.toList := by
  obtain ⟨c, r, hk, hscan⟩ := scan_spelling h
  have hp := (scan_pattern hscan).2
  rwa [List.take_length, ← hk] at hp

/-- Nothing of a spelling ends the line or is a tab. -/
theorem spelling_printable {k : TokenKind} (h : k.Writable) : ∀ c ∈ k.spelling.toList, Text.isControl c = false := by
  have hall : ∀ {cs : List Char}, cs.all (!Text.isControl ·) = true → ∀ c ∈ cs, Text.isControl c = false :=
    fun h c hc => by simpa using List.all_eq_true.1 h c hc
  have hquoted : ∀ (q : Char), q = '"' ∨ q = '\'' → ∀ cs, ∀ c ∈ (quoted q cs).toList, Text.isControl c = false := by
    intro q hq cs c hc
    have hquote : Text.isControl q = false := by rcases hq with rfl | rfl <;> decide
    rw [quoted, String.toList_ofList, List.cons_append] at hc
    rcases List.mem_cons.1 hc with rfl | hc
    · exact hquote
    rcases List.mem_append.1 hc with hc | hc
    · exact Text.encode_printable hq cs c hc
    · rwa [List.mem_singleton.1 hc]
  cases k with
  | keyword w => exact hall (by cases w <;> decide)
  | symbol s => exact hall (by cases s <;> decide)
  | name n => exact fun c hc => continues_printable (h.worded c hc)
  | int v =>
    intro c hc
    rw [spelling, Nat.toString_eq_ofList_toDigits, String.toList_ofList] at hc
    have hdigit := Nat.isDigit_of_mem_toDigits (by decide) (by decide) hc
    exact continues_printable (Bool.or_eq_true_iff.2 (.inr hdigit))
  | char c => exact hquoted _ (.inr rfl) _
  | text s => exact hquoted _ (.inl rfl) _
  | _ => exact h.elim

end TokenKind

/-- No lexeme begins with white space. -/
theorem Lexeme.Pattern.not_blank {c : Char} {r : List Char} (h : Pattern (c :: r)) : Text.isBlank c = false := by
  have hword : ∀ d, continuesWord d = true → Text.isBlank d = false := fun d hd => by
    have hrange := continues_range hd
    simp only [Text.isBlank, Bool.or_eq_false_iff, Bool.and_eq_false_imp, decide_eq_true_eq, decide_eq_false_iff_not,
      beq_eq_false_iff_ne]
    omega
  generalize hcs : c :: r = cs at h
  cases h with
  | word hw =>
    cases hcs
    exact hword c (Bool.or_eq_true_iff.2 (.inl hw))
  | decimal hd =>
    cases hcs
    exact hword c (Bool.or_eq_true_iff.2 (.inr hd))
  | based =>
    cases hcs
    decide
  | character =>
    cases hcs
    decide
  | text =>
    cases hcs
    decide
  | symbol s => cases s <;> cases hcs <;> decide

end Unroll
