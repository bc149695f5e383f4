import Unroll.Text.Digit
/-! # Escapes in quoted text

`decode` reads the inside of a string or character literal, `encode` writes it.  One table serves
both quotes: a literal may escape the quote it does not need.
-/
namespace Unroll.Text

/-- What a single character after the backslash stands for. -/
def escaped? : Char → Option Char
  | 'n' => some '\n'
  | 't' => some '\t'
  | 'r' => some '\r'
  | '0' => some '\x00'
  | '\'' => some '\''
  | '"' => some '"'
  | '\\' => some '\\'
  | _ => none

/-- The character with the given number, if there is one: surrogates and what lies past the last
plane are none. -/
def scalar? (n : Nat) : Option Char :=
  if h : n.isValidChar then some (Char.ofNatAux n h) else none

/-- The inside of the braces of `\u{…}`: at most six characters, a plus sign allowed in front. -/
def codePoint? (cs : List Char) : Option Char :=
  let digits := match cs with
    | '+' :: r => r
    | r => r
  if cs.length ≤ 6 && !digits.isEmpty && digits.all (isDigitIn 16) then
    scalar? (ofDigits 16 digits)
  else none

/-- Splits at the first closing brace. -/
def untilBrace : List Char → Option (List Char × List Char)
  | [] => none
  | '}' :: r => some ([], r)
  | c :: r => (untilBrace r).map (fun (a, b) => (c :: a, b))

theorem untilBrace_length {cs a b : List Char} (h : untilBrace cs = some (a, b)) :
    b.length < cs.length := by
  fun_induction untilBrace cs generalizing a with
  | case1 => simp at h
  | case2 r => simp only [Option.some.injEq, Prod.mk.injEq] at h; simp [← h.2]
  | case3 c r _ ih =>
    obtain ⟨⟨x, y⟩, hu, hxy⟩ := Option.map_eq_some_iff.1 h
    simp only [Prod.mk.injEq] at hxy
    obtain ⟨-, rfl⟩ := hxy
    have := ih hu
    simp; omega

def decode : List Char → Option (List Char)
  | [] => some []
  | '\\' :: 'u' :: '{' :: r =>
    match h : untilBrace r with
    | none => none
    | some (code, rest) =>
      have := untilBrace_length h
      match codePoint? code, decode rest with
      | some c, some cs => some (c :: cs)
      | _, _ => none
  | '\\' :: c :: r =>
    match escaped? c, decode r with
    | some d, some cs => some (d :: cs)
    | _, _ => none
  | c :: r => if c = '\\' then none else (decode r).map (c :: ·)
termination_by cs => cs.length
decreasing_by all_goals simp; try omega

/-- Control characters: C0, delete and C1. -/
def isControl (c : Char) : Bool := c.toNat < 0x20 || (0x7F ≤ c.toNat && c.toNat < 0xA0)

/-- How one character is written between two `quote`s. -/
def encodeChar (quote c : Char) : List Char :=
  if c = '\n' then ['\\', 'n']
  else if c = '\t' then ['\\', 't']
  else if c = '\r' then ['\\', 'r']
  else if c = '\x00' then ['\\', '0']
  else if c = '\\' then ['\\', '\\']
  else if c = quote then ['\\', quote]
  else if isControl c then ['\\', 'u', '{'] ++ hexDigits c.toNat ++ ['}']
  else [c]

def encode (quote : Char) (cs : List Char) : List Char := cs.flatMap (encodeChar quote)

end Unroll.Text
