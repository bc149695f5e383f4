import Unroll.Proofs.Token.Quoted
/-!
# What an escape stands for

The inside of a quotation is a sequence of elements, each of them one character (`decode_iff`): itself, a letter behind
a backslash, or a number between braces.  A plus sign may stand before the number in a text, where it counts among the
six characters; the pattern of a character leaves no room for it.  Apart from that sign both quotations have the same
escapes (`escape_alike`).
-/
namespace Unroll
namespace Text

/-- The number of a character in hexadecimal digits. -/
def Names (digits : List Char) (c : Char) : Prop :=
  digits ≠ [] ∧ (∀ d ∈ digits, isDigitIn 16 d = true) ∧ scalar? (ofDigits 16 digits) = some c

/-- **One element of what is quoted**, and the character that it stands for. -/
inductive Element : List Char → Char → Prop
  | plain {c : Char} : c ≠ '\\' → Element [c] c
  | escape {e c : Char} : escaped? e = some c → Element ['\\', e] c
  | code {digits : List Char} {c : Char} : Names digits c → digits.length ≤ 6 →
    Element ('\\' :: 'u' :: '{' :: (digits ++ ['}'])) c
  | signed {digits : List Char} {c : Char} : Names digits c → digits.length ≤ 5 →
    Element ('\\' :: 'u' :: '{' :: '+' :: (digits ++ ['}'])) c

/-- **What is quoted spells the characters**, one element for each. -/
inductive Spells : List Char → List Char → Prop
  | nil : Spells [] []
  | cons {front rest cs : List Char} {c : Char} : Element front c → Spells rest cs → Spells (front ++ rest) (c :: cs)

theorem Element.single {front : List Char} {c : Char} (h : Element front c) : Spells front [c] := by
  have hspells := Spells.cons h .nil
  rwa [List.append_nil] at hspells

theorem untilBrace_some {r code rest : List Char} (h : untilBrace r = some (code, rest)) : r = code ++ '}' :: rest := by
  fun_induction untilBrace r generalizing code with
  | case1 => cases h
  | case2 r =>
    cases h
    rfl
  | case3 c r _ ih =>
    obtain ⟨⟨inside, after⟩, hr, hcode⟩ := Option.map_eq_some_iff.1 h
    cases hcode
    rw [ih hr]
    rfl

theorem untilBrace_next {c : Char} (hc : c ≠ '}') (r : List Char) :
    untilBrace (c :: r) = (untilBrace r).map fun (a, b) => (c :: a, b) := by
  rw [untilBrace]
  exact hc

theorem codePoint?_signed {digits : List Char} {c : Char} (h : Names digits c) (hlength : digits.length ≤ 5) :
    codePoint? ('+' :: digits) = some c := by
  obtain ⟨hne, hdigits, hc⟩ := h
  have hall : digits.all (isDigitIn 16) = true := List.all_eq_true.2 hdigits
  have hcount : decide (('+' :: digits).length ≤ 6) = true := decide_eq_true (Nat.succ_le_succ hlength)
  have hsome : digits.isEmpty = false := List.isEmpty_eq_false_iff.2 hne
  unfold codePoint?
  exact (if_pos (by simp only [hcount, hsome, hall, Bool.not_false, Bool.and_self])).trans hc

theorem names_of_some {n : Nat} {digits : List Char} {c : Char}
    (h : (if n ≤ 6 && !digits.isEmpty && digits.all (isDigitIn 16) then scalar? (ofDigits 16 digits) else none) =
      some c) : Names digits c ∧ n ≤ 6 := by
  split at h
  · rename_i hcond
    simp only [Bool.and_eq_true, decide_eq_true_eq, Bool.not_eq_true', List.isEmpty_eq_false_iff,
      List.all_eq_true] at hcond
    obtain ⟨⟨hlength, hne⟩, hdigits⟩ := hcond
    exact ⟨⟨hne, hdigits, h⟩, hlength⟩
  · cases h

theorem codePoint?_some {code : List Char} {c : Char} (h : codePoint? code = some c) :
    Names code c ∧ code.length ≤ 6 ∨ ∃ digits, code = '+' :: digits ∧ Names digits c ∧ digits.length ≤ 5 := by
  unfold codePoint? at h
  split at h
  · rename_i digits
    obtain ⟨hnames, hlength⟩ := names_of_some h
    exact .inr ⟨digits, rfl, hnames, Nat.le_of_succ_le_succ hlength⟩
  · exact .inl (names_of_some h)

/-- **Each element is read by itself.** -/
theorem decode_element {front : List Char} {c : Char} (h : Element front c) (rest : List Char) :
    decode (front ++ rest) = (decode rest).map (c :: ·) := by
  cases h with
  | plain hc => exact decode_plain hc rest
  | escape he => exact decode_escaped he rest
  | @code digits _ hnames hlength =>
    obtain ⟨hne, hdigits, hc⟩ := hnames
    have hbrace := untilBrace_digits hdigits rest
    rw [List.cons_append, List.cons_append, List.cons_append, List.append_assoc, List.singleton_append]
    exact decode_code hbrace ((codePoint?_digits hne hdigits hlength).trans hc)
  | @signed digits _ hnames hlength =>
    have hbrace : untilBrace ('+' :: (digits ++ '}' :: rest)) = some ('+' :: digits, rest) := by
      rw [untilBrace_next (by decide), untilBrace_digits hnames.2.1]
      rfl
    simp only [List.cons_append, List.append_assoc, List.nil_append]
    exact decode_code hbrace (codePoint?_signed hnames hlength)

theorem decode_spells {cs out : List Char} (h : Spells cs out) : decode cs = some out := by
  induction h with
  | nil => rw [decode]
  | cons helement _ ih =>
    rw [decode_element helement, ih]
    rfl

theorem spells_of_decode {cs out : List Char} (h : decode cs = some out) : Spells cs out := by
  fun_induction decode cs generalizing out with
  | case1 =>
    cases h
    exact .nil
  | case3 r code rest hbrace _ c out' hrest hcode ih =>
    cases h
    have hspells := ih hrest
    rw [untilBrace_some hbrace]
    obtain ⟨hnames, hlength⟩ | ⟨digits, rfl, hnames, hlength⟩ := codePoint?_some hcode
    · have hcons := Spells.cons (.code hnames hlength) hspells
      rwa [List.cons_append, List.cons_append, List.cons_append, List.append_assoc] at hcons
    · have hcons := Spells.cons (.signed hnames hlength) hspells
      rwa [List.cons_append, List.cons_append, List.cons_append, List.cons_append, List.append_assoc] at hcons
  | case5 e r _ c out' hrest he ih =>
    cases h
    exact .cons (.escape he) (ih hrest)
  | case8 c r _ _ hc ih =>
    obtain ⟨out', hrest, rfl⟩ := Option.map_eq_some_iff.1 h
    exact .cons (.plain hc) (ih hrest)
  | case2 | case4 | case6 | case7 => cases h

/-- **What is decoded is what the elements stand for**, and nothing but a sequence of elements is decoded. -/
theorem decode_iff {cs out : List Char} : decode cs = some out ↔ Spells cs out := ⟨spells_of_decode, decode_spells⟩

theorem spells_single {front : List Char} {c : Char} : Spells front [c] ↔ Element front c := by
  constructor
  · intro h
    cases h with
    | cons helement hrest =>
      cases hrest
      rwa [List.append_nil]
  · exact Element.single

end Text

namespace Lexeme

open Text

variable {inside : List Char}

/-- **A text is what its elements spell**; where they spell nothing it is refused. -/
theorem text_iff (h : TextInside inside) (after : List Char) :
    (∀ cs, (text (inside ++ '"' :: after)).1 = .ok (.text (String.ofList cs)) ↔ Spells inside cs) ∧
      ((text (inside ++ '"' :: after)).1 = .error .text ↔ ∀ cs, ¬ Spells inside cs) := by
  simp only [text_closed h after, ← decode_iff]
  unfold textOf
  cases decode inside with
  | none => simp
  | some out => simp [String.ofList_inj]

/-- **A character is what its one element stands for**; where there is no such element it is refused. -/
theorem character_iff (h : CharInside inside) (after : List Char) :
    (∀ c, (character (inside ++ '\'' :: after)).1 = .ok (.char c) ↔ Element inside c) ∧
      ((character (inside ++ '\'' :: after)).1 = .error .character ↔ ∀ c, ¬ Element inside c) := by
  have hone : ∀ c, Element inside c ↔ decode inside = some [c] := by
    intro c
    rw [decode_iff, spells_single]
  simp only [character_closed h after, hone]
  unfold character.decoded
  split
  · rename_i d hd
    rw [hd]
    simp
  · rename_i hnot
    simpa using hnot

/-- No sign stands before the number in a character. -/
theorem CharInside.unsigned (h : CharInside inside) (r : List Char) : inside ≠ '\\' :: 'u' :: '{' :: '+' :: r := by
  rintro rfl
  generalize hcs : '\\' :: 'u' :: '{' :: '+' :: r = cs at h
  cases h with
  | plain _ _ => cases hcs
  | escape _ => cases hcs
  | @code run hne hrun =>
    obtain ⟨d, run, rfl⟩ := List.exists_cons_of_ne_nil hne
    cases hcs
    exact absurd (hrun '+' (List.mem_cons_self ..)) (by decide)

theorem CharInside.text {r : List Char} (h : CharInside ('\\' :: r)) : TextInside ('\\' :: r) := by
  cases h with
  | plain _ hb => exact absurd rfl hb
  | escape _ => exact .escape .nil
  | code _ hrun => exact .escape (.plain (by decide) (by decide) (.run hrun (.plain (by decide) (by decide) .nil)))

/-- **An escape of a character is one of a text, too, and stands for the same.** -/
theorem escape_alike {r : List Char} (h : CharInside ('\\' :: r)) (c : Char) :
    (character ('\\' :: r ++ ['\''])).1 = .ok (.char c) ↔
      (text ('\\' :: r ++ ['"'])).1 = .ok (.text (String.ofList [c])) := by
  rw [(character_iff h []).1, (text_iff h.text []).1, spells_single]

end Lexeme
end Unroll
