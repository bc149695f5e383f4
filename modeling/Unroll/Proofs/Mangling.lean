import Unroll.Checker.State
import Unroll.Proofs.Names
import Unroll.Proofs.Token.Pattern
import Unroll.Proofs.Written
/-!
# What the name of an instance tells

An instance is found by its name alone, and its name spells its arguments.  The marks between arguments also stand inside
of types, so it is not the marks that tell the arguments apart.  It is that the first character of a type tells its form,
and that a name or a number ends where a character comes that neither of them has.  So an argument can be cut off whatever
it stands in front of, and the name of an instance is read from its front to its end in one way only.
-/
namespace Unroll

/-! ## Names and numbers -/

/-- What names of types and numbers are spelled with. -/
def inAtom (c : Char) : Bool := Lexeme.continuesWord c || c == '\'' || c == '-'

/-- No name and no number goes on in front of it. -/
def Parted (r : List Char) : Prop := ∀ c, r.head? = some c → inAtom c = false

theorem parted_cons {c : Char} (h : inAtom c = false) (r : List Char) : Parted (c :: r) := by
  rintro d hd
  cases hd
  exact h

theorem takeWhile_parted {xs r : List Char} (hx : ∀ c ∈ xs, inAtom c = true) (hr : Parted r) :
    (xs ++ r).takeWhile inAtom = xs := by
  rw [List.takeWhile_append_of_pos hx]
  cases r with
  | nil => simp
  | cons c r => simp [hr c rfl]

/-- **A name or a number ends where neither goes on.** -/
theorem atom_cut {xs ys r s : List Char} (hx : ∀ c ∈ xs, inAtom c = true) (hy : ∀ c ∈ ys, inAtom c = true)
    (hr : Parted r) (hs : Parted s) (h : xs ++ r = ys ++ s) : xs = ys ∧ r = s := by
  have hxy : xs = ys := by rw [← takeWhile_parted hx hr, h, takeWhile_parted hy hs]
  subst hxy
  exact ⟨rfl, List.append_cancel_left h⟩

theorem digit_inAtom {c : Char} (h : c.isDigit = true) : inAtom c = true := by
  simp [inAtom, Lexeme.continuesWord, h]

theorem nat_inAtom (n : Nat) : ∀ c ∈ (toString n).toList, inAtom c = true := by
  rw [toString_toList]
  exact fun c hc => digit_inAtom (Nat.isDigit_of_mem_toDigits (by decide) (by decide) hc)

theorem nat_toList_injective {m n : Nat} (h : (toString m).toList = (toString n).toList) : m = n :=
  Nat.repr_injective (String.toList_injective h)

theorem nat_first (n : Nat) : ∃ c cs, (toString n).toList = c :: cs ∧ c.isDigit = true := by
  rw [toString_toList]
  cases h : Nat.toDigits 10 n with
  | nil => exact absurd h Nat.toDigits_ne_nil
  | cons c cs => exact ⟨c, cs, rfl, Nat.isDigit_of_mem_toDigits (by decide) (by decide) (h ▸ List.mem_cons_self)⟩

theorem int_nonneg_toList (n : Nat) : (toString (Int.ofNat n)).toList = (toString n).toList := rfl

theorem int_neg_toList (n : Nat) : (toString (Int.negSucc n)).toList = '-' :: (toString (n + 1)).toList := by
  show ("-" ++ toString (n + 1)).toList = _
  rw [String.toList_append]
  rfl

theorem int_inAtom : ∀ v : Int, ∀ c ∈ (toString v).toList, inAtom c = true
  | .ofNat n => nat_inAtom n
  | .negSucc n => by
    rw [int_neg_toList]
    exact List.forall_mem_cons.2 ⟨by decide, nat_inAtom (n + 1)⟩

/-- A number begins with a digit or with a sign. -/
theorem int_first : ∀ v : Int, ∃ c cs, (toString v).toList = c :: cs ∧ (c.isDigit = true ∨ c = '-')
  | .ofNat n => by
    obtain ⟨c, cs, h, hc⟩ := nat_first n
    exact ⟨c, cs, h, .inl hc⟩
  | .negSucc n => ⟨'-', _, int_neg_toList n, .inr rfl⟩

theorem int_toList_injective : ∀ {v w : Int}, (toString v).toList = (toString w).toList → v = w
  | .ofNat m, .ofNat n, h => congrArg Int.ofNat (nat_toList_injective h)
  | .negSucc m, .negSucc n, h => by
    rw [int_neg_toList, int_neg_toList] at h
    have hmn : m + 1 = n + 1 := nat_toList_injective (List.cons.inj h).2
    rw [Nat.succ.inj hmn]
  | .ofNat m, .negSucc n, h => by
    obtain ⟨c, cs, hm, hc⟩ := nat_first m
    rw [int_nonneg_toList, hm, int_neg_toList] at h
    rw [(List.cons.inj h).1] at hc
    exact absurd hc (by decide)
  | .negSucc m, .ofNat n, h => by
    obtain ⟨c, cs, hn, hc⟩ := nat_first n
    rw [int_nonneg_toList, hn, int_neg_toList] at h
    rw [← (List.cons.inj h).1] at hc
    exact absurd hc (by decide)

/-! ## Types that can stand in a name -/

/-- The name of a record: a word, and behind it a quote and digits if a block declared the record.  The words of the
builtin types are taken. -/
structure IsRecordName (n : String) : Prop where
  spelled : ∃ word tail, n.toList = word ++ tail ∧ (∃ c, word.head? = some c ∧ Lexeme.startsWord c = true) ∧
    (∀ c ∈ word, Lexeme.continuesWord c = true) ∧
    (tail = [] ∨ ∃ digits, tail = '\'' :: digits ∧ ∀ c ∈ digits, c.isDigit = true)
  free : Ty.builtin? n = none

mutual

/-- **No parameter is left in the type**, and its records have the names of records. -/
def Ty.Named : Ty → Prop
  | .record n => IsRecordName n
  | .param _ => False
  | .array elem _ => elem.Named
  | .list items => Ty.AllNamed items
  | _ => True

def Ty.AllNamed : List Ty → Prop
  | [] => True
  | t :: ts => t.Named ∧ Ty.AllNamed ts

end

/-- The same of an argument. -/
def TemplateArg.Named : TemplateArg → Prop
  | .type t => t.Named
  | .value _ => True

theorem Ty.allNamed_iff {ts : List Ty} : Ty.AllNamed ts ↔ ∀ t ∈ ts, t.Named := by
  induction ts with
  | nil => simp [Ty.AllNamed]
  | cons t ts ih => simp [Ty.AllNamed, ih]

/-- What is spelled of a type. -/
def Ty.letters (t : Ty) : List Char := t.canonical.toList

/-- What is spelled of a length. -/
def lengthLetters : Option Nat → List Char
  | some n => (toString n).toList
  | none => ['_']

/-- Entries with commas between them. -/
def listed (entries : List (List Char)) : List Char := List.intercalate [',', ' '] entries

theorem listed_cons (x : List Char) (xs : List (List Char)) :
    listed (x :: xs) = x ++ xs.flatMap fun y => ',' :: ' ' :: y := by
  unfold listed
  induction xs generalizing x with
  | nil => simp
  | cons y ys ih =>
    rw [List.intercalate_cons_cons, ih, List.flatMap_cons]
    simp

theorem spellAll_eq_map (canonical : Bool) (ts : List Ty) : Ty.spellAll canonical ts = ts.map (Ty.spell canonical) := by
  induction ts with
  | nil => rfl
  | cons t ts ih => simp [Ty.spellAll, ih]

theorem Ty.letters_array (elem : Ty) (len : Option Nat) :
    (Ty.array elem len).letters = '[' :: (elem.letters ++ ';' :: ' ' :: (lengthLetters len ++ [']'])) := by
  unfold Ty.letters Ty.canonical
  cases len <;> simp [Ty.spell, lengthLetters, String.toList_append]

theorem Ty.letters_list (items : List Ty) :
    (Ty.list items).letters = '{' :: (listed (items.map Ty.letters) ++ ['}']) := by
  unfold Ty.letters Ty.canonical
  have hopen : "\x7b".toList = ['{'] := by decide
  have hclose : "\x7d".toList = ['}'] := by decide
  have hcomma : ", ".toList = [',', ' '] := by decide
  have hletters : (items.map (Ty.spell true)).map String.toList = items.map Ty.letters := List.map_map
  rw [Ty.spell, spellAll_eq_map, String.toList_append, String.toList_append, String.toList_intercalate, hletters, hopen,
    hclose, hcomma]
  rfl

/-! ## The first character -/

/-- What the first character of an argument tells. -/
inductive Form
  | word
  | number
  | array
  | list
  | hole
deriving DecidableEq

def Form.ofFirst (c : Char) : Form :=
  if c = '[' then array else if c = '{' then list else if c = '<' then hole
  else if Lexeme.startsWord c then word else number

def Ty.form : Ty → Form
  | .array _ _ => .array
  | .list _ => .list
  | .dependent | .error => .hole
  | _ => .word

theorem ofFirst_other {c : Char} (h : c = '-' ∨ Lexeme.continuesWord c = true) :
    Form.ofFirst c = if Lexeme.startsWord c then .word else .number := by
  have hne (d : Char) (hd : d ≠ '-' ∧ Lexeme.continuesWord d = false) : c ≠ d := by
    rintro rfl
    obtain h | h := h
    · exact hd.1 h
    · simp [h] at hd
  simp [Form.ofFirst, hne '[' (by decide), hne '{' (by decide), hne '<' (by decide)]

theorem form_word {c : Char} (h : Lexeme.startsWord c = true) : Form.ofFirst c = .word := by
  rw [ofFirst_other (.inr (by simp [Lexeme.continuesWord, h])), if_pos h]

theorem form_number {c : Char} (h : c.isDigit = true ∨ c = '-') : Form.ofFirst c = .number := by
  obtain h | rfl := h
  · rw [ofFirst_other (.inr (by simp [Lexeme.continuesWord, h])), Lexeme.startsWord_digit h]
    rfl
  · decide

/-- **The first character of a type tells its form.** -/
theorem Ty.Named.first : ∀ {t : Ty}, t.Named → ∃ c cs, t.letters = c :: cs ∧ Form.ofFirst c = t.form
  | .unit, _ => ⟨'U', _, rfl, by decide⟩
  | .bool, _ => ⟨'b', _, rfl, by decide⟩
  | .int, _ => ⟨'i', _, rfl, by decide⟩
  | .char, _ => ⟨'c', _, rfl, by decide⟩
  | .text, _ => ⟨'S', _, rfl, by decide⟩
  | .dependent, _ => ⟨'<', _, rfl, by decide⟩
  | .error, _ => ⟨'<', _, rfl, by decide⟩
  | .array elem len, _ => ⟨'[', _, letters_array elem len, rfl⟩
  | .list items, _ => ⟨'{', _, letters_list items, rfl⟩
  | .record n, h => by
    obtain ⟨word, tail, hn, ⟨c, hc, hstart⟩, -, -⟩ := IsRecordName.spelled h
    obtain ⟨cs, rfl⟩ := List.head?_eq_some_iff.1 hc
    exact ⟨c, cs ++ tail, hn, form_word hstart⟩

theorem first_eq {x y : List Char} {c d : Char} {cs ds r s : List Char} (hx : x = c :: cs) (hy : y = d :: ds)
    (h : x ++ r = y ++ s) : c = d := by
  subst hx hy
  exact (List.cons.inj h).1

theorem Ty.Named.form_eq {t u : Ty} (ht : t.Named) (hu : u.Named) {r s : List Char}
    (h : t.letters ++ r = u.letters ++ s) : t.form = u.form := by
  obtain ⟨c, cs, hc, hform⟩ := ht.first
  obtain ⟨d, ds, hd, hform'⟩ := hu.first
  rw [← hform, ← hform', first_eq hc hd h]

/-! ## Cutting an argument off -/

variable {α : Type}

/-- **What is spelled like `a` in front of something is `a`**, whatever stands behind it, if no name and no number goes on
there. -/
def Cuts (letters : α → List Char) (P : α → Prop) (a : α) : Prop :=
  ∀ {b : α} {r s : List Char}, P b → Parted r → Parted s → letters a ++ r = letters b ++ s → a = b ∧ r = s

section

variable {letters : α → List Char} {P : α → Prop} {stop : Char}

theorem listed_parted (as : List α) (hstop : inAtom stop = false) (r : List Char) :
    Parted ((as.map letters).flatMap (fun y => ',' :: ' ' :: y) ++ stop :: r) := by
  cases as with
  | nil => exact parted_cons hstop r
  | cons a as => exact parted_cons (by decide) _

theorem tail_cut (hstop : inAtom stop = false) (hcomma : stop ≠ ',') : ∀ {as bs : List α} {r s : List Char},
    (∀ a ∈ as, Cuts letters P a) → (∀ b ∈ bs, P b) →
    (as.map letters).flatMap (fun y => ',' :: ' ' :: y) ++ stop :: r =
      (bs.map letters).flatMap (fun y => ',' :: ' ' :: y) ++ stop :: s → as = bs ∧ r = s
  | [], [], r, s, _, _, h => ⟨rfl, (List.cons.inj h).2⟩
  | [], b :: bs, r, s, _, _, h => absurd (List.cons.inj h).1 hcomma
  | a :: as, [], r, s, _, _, h => absurd (List.cons.inj h).1.symm hcomma
  | a :: as, b :: bs, r, s, ha, hb, h => by
    obtain ⟨hcut, has⟩ := List.forall_mem_cons.1 ha
    obtain ⟨hPb, hbs⟩ := List.forall_mem_cons.1 hb
    have hentries : letters a ++ ((as.map letters).flatMap (fun y => ',' :: ' ' :: y) ++ stop :: r) =
        letters b ++ ((bs.map letters).flatMap (fun y => ',' :: ' ' :: y) ++ stop :: s) := by
      simpa using h
    obtain ⟨rfl, hrest⟩ := hcut hPb (listed_parted as hstop r) (listed_parted bs hstop s) hentries
    obtain ⟨rfl, hrs⟩ := tail_cut hstop hcomma has hbs hrest
    exact ⟨rfl, hrs⟩

/-- **A list of arguments ends at its stop**, and its entries are those that it was spelled with. -/
theorem listed_cut (hstop : inAtom stop = false) (hcomma : stop ≠ ',')
    (hfirst : ∀ a, P a → ∃ c cs, letters a = c :: cs ∧ c ≠ stop) {as bs : List α} {r s : List Char}
    (hcuts : ∀ a ∈ as, Cuts letters P a) (ha : ∀ a ∈ as, P a) (hb : ∀ b ∈ bs, P b)
    (h : listed (as.map letters) ++ stop :: r = listed (bs.map letters) ++ stop :: s) : as = bs ∧ r = s := by
  cases as with
  | nil =>
    cases bs with
    | nil => exact ⟨rfl, (List.cons.inj h).2⟩
    | cons b bs =>
      obtain ⟨c, cs, hc, hne⟩ := hfirst b (hb b (List.mem_cons_self ..))
      rw [List.map_cons, listed_cons, hc] at h
      exact absurd (List.cons.inj h).1.symm hne
  | cons a as =>
    cases bs with
    | nil =>
      obtain ⟨c, cs, hc, hne⟩ := hfirst a (ha a (List.mem_cons_self ..))
      rw [List.map_cons, listed_cons, hc] at h
      exact absurd (List.cons.inj h).1 hne
    | cons b bs =>
      obtain ⟨hcut, has⟩ := List.forall_mem_cons.1 hcuts
      obtain ⟨hPb, hbs⟩ := List.forall_mem_cons.1 hb
      rw [List.map_cons, List.map_cons, listed_cons, listed_cons, List.append_assoc, List.append_assoc] at h
      obtain ⟨rfl, hrest⟩ := hcut hPb (listed_parted as hstop r) (listed_parted bs hstop s) h
      obtain ⟨rfl, hrs⟩ := tail_cut hstop hcomma has hbs hrest
      exact ⟨rfl, hrs⟩

end

theorem word_inAtom {c : Char} (h : Lexeme.continuesWord c = true) : inAtom c = true := by simp [inAtom, h]

theorem IsRecordName.inAtom {n : String} (h : IsRecordName n) : ∀ c ∈ n.toList, inAtom c = true := by
  obtain ⟨word, tail, hn, -, hword, htail⟩ := h.spelled
  intro c hc
  rw [hn, List.mem_append] at hc
  obtain hc | hc := hc
  · exact word_inAtom (hword c hc)
  · obtain rfl | ⟨digits, rfl, hdigits⟩ := htail
    · exact absurd hc List.not_mem_nil
    · obtain rfl | hc := List.mem_cons.1 hc
      · decide
      · exact digit_inAtom (hdigits c hc)

/-- A type that is one word is told by it. -/
theorem Ty.Named.of_word {t : Ty} (h : t.Named) (hform : t.form = .word) :
    (∀ c ∈ t.letters, inAtom c = true) ∧ t = (Ty.builtin? t.canonical).getD (.record t.canonical) := by
  cases t with
  | unit | bool | int | char | text => exact ⟨List.all_eq_true.1 (by decide), rfl⟩
  | record n =>
    have hn : (Ty.record n).canonical = n := rfl
    exact ⟨IsRecordName.inAtom h, by rw [hn, IsRecordName.free h]; rfl⟩
  | param n => exact h.elim
  | array _ _ | list _ | dependent | error => cases hform

theorem lengthLetters_inAtom : ∀ len : Option Nat, ∀ c ∈ lengthLetters len, inAtom c = true
  | some n => nat_inAtom n
  | none => List.all_eq_true.1 (by decide)

theorem lengthLetters_injective : ∀ {len len' : Option Nat}, lengthLetters len = lengthLetters len' → len = len'
  | none, none, _ => rfl
  | some m, some n, h => congrArg some (nat_toList_injective h)
  | some m, none, h => by
    obtain ⟨c, cs, hm, hc⟩ := nat_first m
    rw [lengthLetters, hm] at h
    rw [(List.cons.inj h).1] at hc
    exact absurd hc (by decide)
  | none, some n, h => by
    obtain ⟨c, cs, hn, hc⟩ := nat_first n
    rw [lengthLetters, lengthLetters, hn] at h
    rw [← (List.cons.inj h).1] at hc
    exact absurd hc (by decide)

theorem Ty.Named.first_ne {t : Ty} (h : t.Named) {stop : Char} (hstop : Form.ofFirst stop = .number) :
    ∃ c cs, t.letters = c :: cs ∧ c ≠ stop := by
  obtain ⟨c, cs, hc, hform⟩ := h.first
  refine ⟨c, cs, hc, ?_⟩
  rintro rfl
  rw [hstop] at hform
  cases t <;> cases hform

mutual

/-- **A type can be cut off whatever it stands in front of.** -/
theorem Ty.Named.cuts : ∀ {t : Ty}, t.Named → Cuts Ty.letters Ty.Named t
  | .array elem len, ht, u, r, s, hu, hr, hs, h => by
    have hform := ht.form_eq hu h
    cases u with
    | array elem' len' =>
      have hrest : elem.letters ++ ';' :: ' ' :: (lengthLetters len ++ ']' :: r) =
          elem'.letters ++ ';' :: ' ' :: (lengthLetters len' ++ ']' :: s) := by
        simpa [Ty.letters_array] using h
      have hsemi := parted_cons (c := ';') (by decide)
      obtain ⟨rfl, hlen⟩ := Ty.Named.cuts (t := elem) ht (b := elem') hu (hsemi _) (hsemi _) hrest
      have hlen' : lengthLetters len ++ ']' :: r = lengthLetters len' ++ ']' :: s := by simpa using hlen
      have hclose := parted_cons (c := ']') (by decide)
      obtain ⟨hl, hrs⟩ := atom_cut (lengthLetters_inAtom len) (lengthLetters_inAtom len') (hclose r) (hclose s) hlen'
      exact ⟨by rw [lengthLetters_injective hl], (List.cons.inj hrs).2⟩
    | _ => cases hform
  | .list items, ht, u, r, s, hu, hr, hs, h => by
    have hform := ht.form_eq hu h
    cases u with
    | list items' =>
      have hrest : listed (items.map Ty.letters) ++ '}' :: r = listed (items'.map Ty.letters) ++ '}' :: s := by
        simpa [Ty.letters_list] using h
      obtain ⟨rfl, hrs⟩ := listed_cut (by decide) (by decide) (fun t h => h.first_ne (by decide))
        (Ty.AllNamed.cuts ht) (Ty.allNamed_iff.1 ht) (Ty.allNamed_iff.1 hu) hrest
      exact ⟨rfl, hrs⟩
    | _ => cases hform
  | .dependent, ht, u, r, s, hu, hr, hs, h => by
    have hform := ht.form_eq hu h
    cases u with
    | dependent => exact ⟨rfl, List.append_cancel_left h⟩
    | error => exact absurd (List.cons.inj (List.cons.inj h).2).1 (by decide)
    | _ => cases hform
  | .error, ht, u, r, s, hu, hr, hs, h => by
    have hform := ht.form_eq hu h
    cases u with
    | dependent => exact absurd (List.cons.inj (List.cons.inj h).2).1 (by decide)
    | error => exact ⟨rfl, List.append_cancel_left h⟩
    | _ => cases hform
  | .unit, ht, u, r, s, hu, hr, hs, h | .bool, ht, u, r, s, hu, hr, hs, h | .int, ht, u, r, s, hu, hr, hs, h
  | .char, ht, u, r, s, hu, hr, hs, h | .text, ht, u, r, s, hu, hr, hs, h | .record _, ht, u, r, s, hu, hr, hs, h => by
    obtain ⟨hatom, hword⟩ := ht.of_word rfl
    obtain ⟨hatom', hword'⟩ := hu.of_word (ht.form_eq hu h).symm
    obtain ⟨hletters, hrs⟩ := atom_cut hatom hatom' hr hs h
    exact ⟨by rw [hword, hword', String.toList_injective hletters], hrs⟩

theorem Ty.AllNamed.cuts : ∀ {ts : List Ty}, Ty.AllNamed ts → ∀ t ∈ ts, Cuts Ty.letters Ty.Named t
  | [], _ => nofun
  | _ :: _, h => List.forall_mem_cons.2 ⟨Ty.Named.cuts h.1, Ty.AllNamed.cuts h.2⟩

end

namespace TemplateArg

/-- What is spelled of an argument. -/
def letters (a : TemplateArg) : List Char := a.display.toList

def form : TemplateArg → Form
  | type t => t.form
  | value _ => .number

theorem Named.first : ∀ {a : TemplateArg}, a.Named → ∃ c cs, a.letters = c :: cs ∧ Form.ofFirst c = a.form
  | type t, h => Ty.Named.first (t := t) h
  | value v, _ => by
    obtain ⟨c, cs, hv, hc⟩ := int_first v
    exact ⟨c, cs, hv, form_number hc⟩

theorem Named.first_ne {a : TemplateArg} (h : a.Named) : ∃ c cs, a.letters = c :: cs ∧ c ≠ '>' := by
  cases a with
  | type t => exact Ty.Named.first_ne (t := t) h (by decide)
  | value v =>
    obtain ⟨c, cs, hv, hc⟩ := int_first v
    refine ⟨c, cs, hv, ?_⟩
    rintro rfl
    exact absurd hc (by decide)

/-- **An argument can be cut off whatever it stands in front of.** -/
theorem Named.cuts {a : TemplateArg} (ha : a.Named) : Cuts letters Named a := by
  intro b r s hb hr hs h
  obtain ⟨c, cs, hc, hform⟩ := ha.first
  obtain ⟨d, ds, hd, hform'⟩ := hb.first
  have hsame : a.form = b.form := by rw [← hform, ← hform', first_eq hc hd h]
  cases a with
  | type t =>
    cases b with
    | type u =>
      obtain ⟨rfl, hrs⟩ := Ty.Named.cuts (t := t) ha (b := u) hb hr hs h
      exact ⟨rfl, hrs⟩
    | value w => cases t <;> cases hsame
  | value v =>
    cases b with
    | type u => cases u <;> cases hsame
    | value w =>
      obtain ⟨hvw, hrs⟩ := atom_cut (int_inAtom v) (int_inAtom w) hr hs h
      exact ⟨by rw [int_toList_injective hvw], hrs⟩

end TemplateArg

/-! ## Names of instances -/

theorem mangle_toList (n : String) (a : List TemplateArg) :
    (mangle n a).toList = n.toList ++ '<' :: (listed (a.map TemplateArg.letters) ++ ['>']) := by
  have hopen : "<".toList = ['<'] := by decide
  have hclose : ">".toList = ['>'] := by decide
  have hcomma : ", ".toList = [',', ' '] := by decide
  have hletters : a.map (String.toList ∘ TemplateArg.display) = a.map TemplateArg.letters := rfl
  simp [mangle, listed, String.toList_append, String.toList_intercalate, hopen, hclose, hcomma, hletters]

/-- Where the angle bracket is not part of either name, both names end at it. -/
theorem base_cut {n m xs ys : List Char} (hn : '<' ∉ n) (hm : '<' ∉ m) (h : n ++ '<' :: xs = m ++ '<' :: ys) :
    n = m ∧ xs = ys := by
  have hfront {zs : List Char} (hz : '<' ∉ zs) : zs.takeWhile (· != '<') = zs :=
    List.takeWhile_eq_self_iff.2 fun c hc => by
      rw [bne_iff_ne]
      rintro rfl
      exact hz hc
  have hnm : n = m := by
    rw [← hfront hn, ← hfront hm, ← takeWhile_append_stop n xs (p := (· != '<')) (y := '<') (by decide), h]
    exact takeWhile_append_stop m ys (by decide)
  subst hnm
  exact ⟨rfl, (List.cons.inj (List.append_cancel_left h)).2⟩

theorem mangle_cut {n m : String} {a b : List TemplateArg} (hn : '<' ∉ n.toList) (hm : '<' ∉ m.toList)
    (ha : ∀ x ∈ a, x.Named) (hb : ∀ x ∈ b, x.Named) (h : mangle n a = mangle m b) : n = m ∧ a = b := by
  have hletters := congrArg String.toList h
  rw [mangle_toList, mangle_toList] at hletters
  obtain ⟨hnm, hargs⟩ := base_cut hn hm hletters
  obtain ⟨hab, -⟩ := listed_cut (by decide) (by decide) (fun x hx => TemplateArg.Named.first_ne hx)
    (fun x hx => (ha x hx).cuts) ha hb hargs
  exact ⟨String.toList_injective hnm, hab⟩

/-- **The name of an instance tells its template and its arguments.**  So an instance that is registered for one list of
arguments is found for no other one. -/
theorem mangle_injective {n m : String} {a b : List TemplateArg} (hn : '<' ∉ n.toList) (hm : '<' ∉ m.toList)
    (ha : ∀ x ∈ a, x.Named) (hb : ∀ x ∈ b, x.Named) :
    (mangle n a = mangle m b ↔ n = m ∧ a = b) ∧
      ∀ (cells : Table CellSig) (sig : CellSig),
        (cells.insert (mangle n a) sig).find? (mangle m b) =
          if n = m ∧ a = b then some sig else cells.find? (mangle m b) := by
  have hiff : mangle n a = mangle m b ↔ n = m ∧ a = b :=
    ⟨mangle_cut hn hm ha hb, fun ⟨hnm, hab⟩ => by rw [hnm, hab]⟩
  refine ⟨hiff, fun cells sig => ?_⟩
  rw [Table.find?_insert]
  exact if_congr (eq_comm.trans hiff) rfl rfl

/-- Two arguments, or one list of the same types: the marks between them are the same. -/
theorem mangle_injective_nested :
    mangle "f" [.type (.list [.int]), .type (.record "P'2")] ≠ mangle "f" [.type (.list [.int, .record "P'2"])] := by
  have hlocal : IsRecordName "P'2" :=
    ⟨⟨['P'], ['\'', '2'], rfl, ⟨'P', rfl, by decide⟩, List.forall_mem_singleton.2 (by decide),
      .inr ⟨['2'], rfl, List.forall_mem_singleton.2 (by decide)⟩⟩, rfl⟩
  intro h
  have hsame := (mangle_injective (by decide) (by decide) (by simp [TemplateArg.Named, Ty.Named, Ty.AllNamed, hlocal])
    (by simp [TemplateArg.Named, Ty.Named, Ty.AllNamed, hlocal])).1.1 h
  exact absurd hsame.2 (by decide)

end Unroll
