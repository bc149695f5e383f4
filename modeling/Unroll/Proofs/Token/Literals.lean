import Mathlib.Data.List.Induction
import Mathlib.Data.Nat.Digits.Defs
import Unroll.Proofs.Token.Located
import Unroll.Proofs.Token.Spelling
/-!
# Integer literals

A literal is a run of digits and underscores of its base, as long as the text lets it be, behind its prefix if it has
one.  It stands for the number that its digits spell, if its underscores stand between digits and the number fits in 64
bits; otherwise it stands for nothing, and the text is refused there.  Wherever the lexer comes to a literal in a text
(`ComesTo`), it goes on behind the one and stops at the other.
-/
namespace Unroll

open Lexeme

namespace Numeral

/-! ## Which runs stand for a number -/

/-- The number that the digits of the run spell, most significant first. -/
def value (base : Nat) (run : List Char) : Nat := Nat.ofDigits base (run.filterMap Text.digit?).reverse

/-- **The run stands for its number**: each underscore is between two digits, and the number fits in 64 bits. -/
structure Proper (base : Nat) (run : List Char) : Prop where
  starts : run.head? ≠ some '_'
  ends : run.getLast? ≠ some '_'
  apart : ¬ ['_', '_'] <:+: run
  fits : value base run < 2 ^ 64

theorem infix_pair {c : Char} {r : List Char} :
    ['_', '_'] <:+: c :: r ↔ c = '_' ∧ r.head? = some '_' ∨ ['_', '_'] <:+: r := by
  have hnext : ['_'] <+: r ↔ r.head? = some '_' := by
    cases r <;> simp [List.cons_prefix_cons, eq_comm]
  rw [List.infix_cons_iff, List.cons_prefix_cons, hnext, eq_comm]

theorem getLast?_underscore {c : Char} {r : List Char} :
    (c :: r).getLast? = some '_' ↔ r = [] ∧ c = '_' ∨ r.getLast? = some '_' := by
  cases r <;> simp [List.getLast?_cons_cons]

/-- What the scanner tests of a run, once its first character is known. -/
theorem grouped_iff {run : List Char} {after : Bool} : grouped after run = true ↔
    (run = [] ∨ run.head? = some '_' → after = true) ∧ run.getLast? ≠ some '_' ∧ ¬ ['_', '_'] <:+: run := by
  induction run generalizing after with
  | nil => simp [grouped]
  | cons c r ih =>
    rw [grouped, infix_pair, ne_eq, getLast?_underscore]
    by_cases hc : c = '_'
    · rw [if_pos hc, Bool.and_eq_true, ih]
      simp only [hc, List.head?_cons]
      tauto
    · rw [if_neg hc, ih]
      simp [hc]

theorem proper_iff {base : Nat} {run : List Char} :
    Proper base run ↔ (run = [] ∨ grouped false run = true) ∧ value base run < 2 ^ 64 := by
  have hgrouped : run = [] ∨ grouped false run = true ↔
      run.head? ≠ some '_' ∧ run.getLast? ≠ some '_' ∧ ¬ ['_', '_'] <:+: run := by
    rw [grouped_iff]
    cases run with
    | nil => simp
    | cons c r => simp
  rw [hgrouped]
  exact ⟨fun ⟨hs, he, ha, hf⟩ => ⟨⟨hs, he, ha⟩, hf⟩, fun ⟨⟨hs, he, ha⟩, hf⟩ => ⟨hs, he, ha, hf⟩⟩

instance {base : Nat} {run : List Char} : Decidable (Proper base run) := decidable_of_iff _ proper_iff.symm

theorem part_cases {base : Nat} {c : Char} (h : isPart base c = true) :
    c = '_' ∨ c ≠ '_' ∧ ∃ d, Text.digit? c = some d := by
  by_cases hc : c = '_'
  · exact .inl hc
  · rw [isPart, beq_eq_false_iff_ne.2 hc, Bool.false_or, Text.isDigitIn] at h
    cases hd : Text.digit? c with
    | none =>
      rw [hd] at h
      cases h
    | some d => exact .inr ⟨hc, d, rfl⟩

/-- The scanner reckons from the first digit on, digit by digit. -/
theorem ofDigits_value {base : Nat} {run : List Char} (h : ∀ c ∈ run, isPart base c = true) :
    Text.ofDigits base (run.filter (· != '_')) = value base run := by
  induction run using List.reverseRecOn with
  | nil => rfl
  | append_singleton run c ih =>
    have ih := ih fun x hx => h x (List.mem_append_left _ hx)
    rw [List.filter_append, value, List.filterMap_append]
    rcases part_cases (h c (by simp)) with rfl | ⟨hc, d, hd⟩
    · have hnone : ['_'].filterMap Text.digit? = [] := rfl
      rw [hnone, List.append_nil, ← value, ← ih]
      simp
    · have hkept : [c].filter (· != '_') = [c] := by simp [hc]
      have hdigit : [c].filterMap Text.digit? = [d] := by simp [hd]
      rw [hkept, hdigit, List.reverse_append, List.reverse_singleton, List.singleton_append, Nat.ofDigits_cons,
        ← value, ← ih, Text.ofDigits, List.foldl_append, ← Text.ofDigits]
      simp [hd, Nat.mul_comm, Nat.add_comm]

/-- **The scanner's value of a run** is its number where it has one. -/
theorem value?_eq {base : Nat} {run : List Char} (hne : run ≠ []) (h : ∀ c ∈ run, isPart base c = true) :
    value? base run = if Proper base run then some (value base run) else none := by
  have hsize : UInt64.size = 2 ^ 64 := rfl
  simp only [value?, ofDigits_value h, hsize, proper_iff, hne, false_or]
  by_cases hg : grouped false run = true
  · simp [hg]
  · simp [hg]

end Numeral

namespace Lexeme

open Numeral

/-- **A literal with what stands behind it**: its base, its prefix, and its run of digits and underscores, which is as
long as it can be.  A decimal one begins with a digit, and where that is a zero it is no prefix with what follows. -/
inductive Literal : Nat → List Char → List Char → List Char → Prop
  | decimal {c : Char} {r after : List Char} : c.isDigit = true → (∀ d ∈ r, isPart 10 d = true) →
    (∀ d, after.head? = some d → isPart 10 d = false) → base? c (r ++ after) = none → Literal 10 [] (c :: r) after
  | based {m : Char} {base : Nat} {run after : List Char} : markedBase? m = some base → run ≠ [] →
    (∀ d ∈ run, isPart base d = true) → (∀ d, after.head? = some d → isPart base d = false) →
    Literal base ['0', m] run after

/-- What a literal comes to: its number, or the fault that the text is refused for. -/
def verdict (base : Nat) (run : List Char) : Except LexFault TokenKind :=
  if Proper base run then .ok (.int (value base run)) else .error .integer

variable {base : Nat} {front run after : List Char}

/-- **What begins with a digit begins with a literal.** -/
theorem exists_literal {c : Char} (hc : c.isDigit = true) (rest : List Char) : ∃ base front run after,
    Literal base front run after ∧ c :: rest = front ++ run ++ after := by
  have hbehind : ∀ (p : Char → Bool) (cs : List Char) d, (cs.dropWhile p).head? = some d → p d = false := by
    intro p cs d hd
    have hnot := List.head?_dropWhile_not p cs
    rwa [hd] at hnot
  cases hb : base? c rest with
  | none =>
    refine ⟨10, [], c :: rest.takeWhile (isPart 10), rest.dropWhile (isPart 10), ?_, by simp⟩
    exact .decimal hc (fun _ => List.mem_takeWhile_imp) (hbehind _ _) (by rwa [List.takeWhile_append_dropWhile])
  | some b =>
    obtain ⟨m, d, r, rfl, rfl, hm, hd⟩ := base?_some hb
    have hne : (d :: r).takeWhile (isPart b) ≠ [] := by simp [List.takeWhile_cons_of_pos hd]
    refine ⟨b, ['0', m], (d :: r).takeWhile (isPart b), (d :: r).dropWhile (isPart b), ?_, by simp⟩
    exact .based hm hne (fun _ => List.mem_takeWhile_imp) (hbehind _ _)

theorem takeWhile_run {p : Char → Bool} {cs after : List Char} (h : ∀ d ∈ cs, p d = true)
    (hafter : ∀ d, after.head? = some d → p d = false) : (cs ++ after).takeWhile p = cs := by
  rw [List.takeWhile_append_of_pos h]
  cases after with
  | nil => simp
  | cons d after => rw [List.takeWhile_cons_of_neg (by simp [hafter d rfl]), List.append_nil]

theorem scan_verdict {c : Char} {rest : List Char} {n : Nat} (hc : c.isDigit = true) (hne : run ≠ [])
    (hrun : ∀ d ∈ run, isPart base d = true) (h : Numeral.scan c rest = (value? base run, n)) :
    scan c rest = (verdict base run, n) := by
  rw [scan_numeral hc, h, value?_eq hne hrun, verdict]
  by_cases hproper : Proper base run
  · rw [if_pos hproper, if_pos hproper]
  · rw [if_neg hproper, if_neg hproper]

theorem digit_not_separator {c : Char} (h : c.isDigit = true) : isSeparator c = false := by
  cases hc : isSeparator c with
  | false => rfl
  | true =>
    simp only [isSeparator, Bool.or_eq_true, beq_iff_eq] at hc
    rcases hc with (rfl | rfl) | rfl <;> cases h

/-- **A literal is taken as a whole.** -/
theorem Literal.scan (h : Literal base front run after) : ∃ c r, front ++ run = c :: r ∧ c.isDigit = true ∧
    (∀ d ∈ c :: r, continuesWord d = true) ∧ Lexeme.scan c (r ++ after) = (verdict base run, r.length) := by
  cases h with
  | @decimal c r _ hc hr hafter hbase =>
    have hrun : ∀ d ∈ c :: r, isPart 10 d = true := List.forall_mem_cons.2 ⟨digit_isPart hc, hr⟩
    refine ⟨c, r, rfl, hc, fun d hd => isPart_continues (hrun d hd), scan_verdict hc (List.cons_ne_nil _ _) hrun ?_⟩
    rw [scan_plain hbase, scan.plain, takeWhile_run hr hafter]
  | @based m _ _ _ hm hne hrun hafter =>
    obtain ⟨d, r, rfl⟩ := List.exists_cons_of_ne_nil hne
    refine ⟨'0', m :: d :: r, rfl, rfl, ?_, scan_verdict rfl hne hrun ?_⟩
    · have hword : ∀ x ∈ d :: r, continuesWord x = true := fun x hx => isPart_continues (hrun x hx)
      exact List.forall_mem_cons.2 ⟨rfl, List.forall_mem_cons.2 ⟨mark_continues hm, hword⟩⟩
    · have hbase : base? '0' (m :: d :: r ++ after) = some base :=
        base?_marked (r ++ after) hm (hrun d (List.mem_cons_self ..))
      rw [scan_based hbase, scan.based]
      dsimp only [List.cons_append, List.tail_cons]
      rw [← List.cons_append, takeWhile_run hrun hafter]
      rfl

theorem isDigit_of_int {c : Char} {rest : List Char} {v n : Nat} (h : scan c rest = (.ok (.int v), n)) :
    c.isDigit = true := by
  rcases first_cases c with hw | hd | rfl | rfl | ⟨hw, hd, ht, hc⟩
  · rw [scan_word hw] at h
    have hword := Except.ok.inj (congrArg Prod.fst h)
    unfold word at hword
    dsimp only at hword
    split at hword <;> cases hword
  · exact hd
  · rw [scan_text] at h
    obtain ⟨inside, after, rfl, hinside⟩ := textInside_of_ok (congrArg Prod.fst h)
    rw [text_closed hinside, textOf] at h
    split at h <;> cases h
  · rw [scan_character] at h
    obtain ⟨inside, after, rfl, hinside⟩ := charInside_of_ok (congrArg Prod.fst h)
    rw [character_closed hinside, character.decoded] at h
    split at h <;> cases h
  · rw [scan_symbol hw hd ht hc] at h
    split at h <;> cases h

/-- **A number is read off a literal only.** -/
theorem literal_of_int {c : Char} {r rest : List Char} {v : Nat}
    (h : scan c (r ++ rest) = (.ok (.int v), r.length)) : ∃ base front run, Literal base front run rest ∧
      front ++ run = c :: r ∧ Proper base run ∧ v = value base run := by
  obtain ⟨base, front, run, after, hliteral, hsplit⟩ := exists_literal (isDigit_of_int h) (r ++ rest)
  obtain ⟨c', r', hcr, -, -, hscan⟩ := hliteral.scan
  rw [hcr, List.cons_append] at hsplit
  obtain ⟨rfl, hrest⟩ := List.cons.inj hsplit
  rw [← hrest, h] at hscan
  obtain ⟨hverdict, hlength⟩ := Prod.mk.inj hscan
  obtain ⟨rfl, rfl⟩ := List.append_inj hrest hlength
  rw [verdict] at hverdict
  split at hverdict
  · rename_i hproper
    cases hverdict
    exact ⟨base, front, run, hliteral, hcr, hproper, rfl⟩
  · cases hverdict

end Lexeme

/-! ## How far the lexer gets -/

/-- **The lexer of the text comes to a place**, so many brackets open: the characters are what the line still says, from
the byte offset on, and the tokens are those that it has made by then. -/
inductive ComesTo (source : String) : Nat → Nat → List Char → List Token → Prop
  | line {ls ls' : List Line} {l : Line} {s t : Layout} : Line.split 0 source.toList = ls ++ l :: ls' →
    ls.foldlM Layout.line Layout.start = .ok s → Layout.Says l → s.align l l.leading = .ok t →
    ComesTo source t.depth (l.start + l.leading) l.code t.tokens.toList
  | separator {depth start : Nat} {c : Char} {rest : List Char} {ts : List Token} :
    ComesTo source depth start (c :: rest) ts → isSeparator c = true →
    ComesTo source depth (start + c.utf8Size) rest ts
  | lexeme {depth start opened : Nat} {c : Char} {r rest : List Char} {k : TokenKind} {ts : List Token} :
    ComesTo source depth start (c :: (r ++ rest)) ts → scan c (r ++ rest) = (.ok k, r.length) →
    k.depthAfter depth = some opened →
    ComesTo source opened (start + Text.width (c :: r)) rest (ts ++ [⟨k, ⟨start, Text.width (c :: r)⟩⟩])

namespace Layout

variable {s t : Layout} {l : Line}

/-- The layout behind a line, from the one that its column is reached in and what is scanned of it. -/
def behind (t : Layout) (l : Line) (scanned : List Token × Nat) : Layout :=
  { t with
    depth := scanned.2
    tokens := if scanned.2 = 0 then (t.tokens ++ scanned.1).push ⟨.newline, ⟨l.stop, 0⟩⟩ else t.tokens ++ scanned.1 }

theorem behind_extends (t : Layout) (l : Line) (scanned : List Token × Nat) :
    t.tokens.toList ++ scanned.1 <+: (t.behind l scanned).tokens.toList := by
  unfold behind
  dsimp only
  split
  · rw [Array.toList_push, Array.toList_appendList]
    exact List.prefix_append _ _
  · exact ⟨[], by rw [Array.toList_appendList, List.append_nil]⟩

theorem coded_behind (h : s.align l l.leading = .ok t) :
    s.coded l = scanLine t.depth (l.start + l.leading) l.code >>= fun scanned => .ok (t.behind l scanned) := by
  unfold coded
  rw [h]
  rfl

/-- A line only adds tokens. -/
theorem line_extends (h : s.line l = .ok t) : s.tokens.toList <+: t.tokens.toList := by
  obtain ⟨rfl, -⟩ | ⟨-, hcoded⟩ := line_cases h
  · exact List.prefix_rfl
  · obtain ⟨u, ts, d, hu, -, rfl⟩ := coded_ok.1 hcoded
    obtain ⟨k, n, -, hmarks⟩ := align_marks hu
    have hfront : s.tokens.toList <+: u.tokens.toList ++ ts := by
      rw [hmarks, List.append_assoc]
      exact List.prefix_append _ _
    exact hfront.trans (behind_extends u l (ts, d))

theorem lines_extend {ls : List Line} (h : ls.foldlM line s = .ok t) :
    s.tokens.toList <+: t.tokens.toList := by
  induction ls generalizing s with
  | nil =>
    cases h
    exact List.prefix_rfl
  | cons l ls ih =>
    rw [List.foldlM_cons] at h
    simp only [Outcome.except_bind_ok] at h
    obtain ⟨u, hu, h⟩ := h
    exact (line_extends hu).trans (ih h)

theorem finish_extends {stop : Nat} {ts : List Token} (h : s.finish stop = .ok ts) :
    s.tokens.toList <+: ts := by
  unfold finish at h
  dsimp only at h
  split at h
  · cases h
  · cases h
    rw [List.append_assoc]
    exact List.prefix_append _ _

end Layout

/-- A line stands in the text where it is said to start. -/
theorem Line.split_place {cs : List Char} {start : Nat} {ls ls' : List Line} {l : Line}
    (h : split start cs = ls ++ l :: ls') :
    ∃ pre post, cs = pre ++ l.content ++ post ∧ l.start = start + Text.width pre := by
  induction cs using text_induction generalizing start ls with
  | empty =>
    rw [split] at h
    simp at h
  | last content hne hcontent =>
    rw [split_last start hne hcontent] at h
    obtain ⟨rfl, rfl, rfl⟩ : ls = [] ∧ l = ⟨start, content, start + Text.width content⟩ ∧ ls' = [] := by
      cases ls <;> simp_all
    exact ⟨[], [], by simp, rfl⟩
  | line content after hcontent ih =>
    rw [split_line start hcontent] at h
    cases ls with
    | nil =>
      obtain ⟨rfl, -⟩ := List.cons.inj h
      exact ⟨[], '\n' :: after, rfl, rfl⟩
    | cons first ls =>
      obtain ⟨-, h⟩ := List.cons.inj h
      obtain ⟨pre, post, rfl, hstart⟩ := ih h
      refine ⟨content ++ '\n' :: pre, post, by simp, ?_⟩
      rw [hstart, Text.width_append, Text.width]
      have hfeed : ('\n' : Char).utf8Size = 1 := rfl
      omega

namespace ComesTo

variable {source : String} {depth start : Nat} {cs : List Char} {ts : List Token}

/-- **What is left to do at the place** is to scan the rest of the line and to go on from there, and no token is taken
back. -/
theorem resumes (h : ComesTo source depth start cs ts) : ∃ goOn : List Token × Nat → Except LexError (List Token),
    tokens source = scanLine depth start cs >>= goOn ∧ ∀ p all, goOn p = .ok all → ts ++ p.1 <+: all := by
  induction h with
  | @line ls ls' l s t hsplit hbefore hsaid halign =>
    refine ⟨fun p => ls'.foldlM Layout.line (t.behind l p) >>= (·.finish (Text.width source.toList)), ?_, ?_⟩
    · have hline := (Layout.line_coded hsaid).trans (Layout.coded_behind halign)
      show ((Line.split 0 source.toList).foldlM Layout.line Layout.start >>= _) = _
      rw [hsplit, List.foldlM_append, hbefore]
      show (List.foldlM Layout.line s (l :: ls') >>= _) = _
      rw [List.foldlM_cons, hline, bind_assoc, bind_assoc]
      rfl
    · intro p all hall
      obtain ⟨u, hu, hfinish⟩ := Outcome.except_bind_ok.1 hall
      have hlines := (Layout.behind_extends t l p).trans (Layout.lines_extend hu)
      exact hlines.trans (Layout.finish_extends hfinish)
  | separator _ hsep ih =>
    obtain ⟨goOn, hgoOn, hall⟩ := ih
    rw [scanLine_separator hsep] at hgoOn
    exact ⟨goOn, hgoOn, hall⟩
  | @lexeme depth start opened c r rest k ts _ hscan hopened ih =>
    obtain ⟨goOn, hgoOn, hall⟩ := ih
    rw [scanLine_lexeme hscan hopened, bind_assoc] at hgoOn
    refine ⟨_, hgoOn, fun p all hp => ?_⟩
    have hmore := hall (_ :: p.1, p.2) all hp
    rwa [List.append_assoc]

theorem keeps {all : List Token} (h : ComesTo source depth start cs ts) (hall : tokens source = .ok all) :
    ts <+: all := by
  obtain ⟨goOn, hgoOn, hmore⟩ := h.resumes
  rw [hgoOn] at hall
  obtain ⟨p, -, hp⟩ := Outcome.except_bind_ok.1 hall
  exact (List.prefix_append _ _).trans (hmore p all hp)

/-- **The lexer stops at the first fault that it comes to.** -/
theorem fault {c : Char} {r rest : List Char} {fault : LexFault} (h : ComesTo source depth start (c :: (r ++ rest)) ts)
    (hc : isSeparator c = false) (hscan : scan c (r ++ rest) = (.error fault, r.length)) :
    tokens source = .error ⟨fault, ⟨start, Text.width (c :: r)⟩⟩ := by
  obtain ⟨goOn, hgoOn, -⟩ := h.resumes
  rw [hgoOn, scanLine_fault hc hscan]
  rfl

/-- **The byte offset is that of the place in the text.** -/
theorem place (h : ComesTo source depth start cs ts) :
    ∃ pre post, source.toList = pre ++ cs ++ post ∧ Text.width pre = start := by
  induction h with
  | @line ls ls' l _ _ hsplit =>
    obtain ⟨pre, post, hsource, hstart⟩ := Line.split_place hsplit
    obtain ⟨comment, hparts, -⟩ := l.parts
    refine ⟨pre ++ List.replicate l.leading ' ', comment ++ post, by rw [hsource, hparts]; simp, ?_⟩
    rw [Text.width_append, Line.width_replicate, hstart, Nat.zero_add]
  | @separator _ _ c rest _ _ _ ih =>
    obtain ⟨pre, post, hsource, hstart⟩ := ih
    refine ⟨pre ++ [c], post, by simp [hsource], ?_⟩
    rw [Text.width_append, hstart]
    rfl
  | @lexeme _ _ _ c r rest _ _ _ _ _ ih =>
    obtain ⟨pre, post, hsource, hstart⟩ := ih
    exact ⟨pre ++ (c :: r), post, by simp [hsource], by rw [Text.width_append, hstart]⟩

end ComesTo

/-- The token is that of a lexeme that the lexer comes to. -/
def Made (source : String) (t : Token) : Prop :=
  ∃ depth c r rest ts, ComesTo source depth t.span.offset (c :: (r ++ rest)) ts ∧
    scan c (r ++ rest) = (.ok t.kind, r.length) ∧ t.span.length = Text.width (c :: r)

theorem ComesTo.made {source : String} {depth start d : Nat} {cs : List Char} {ts us : List Token}
    (h : ComesTo source depth start cs ts) (hscans : Scans depth start cs us d) : ∀ t ∈ us, Made source t := by
  induction hscans generalizing ts with
  | nil => simp
  | separator hsep _ ih => exact ih (h.separator hsep)
  | lexeme hscan hopened _ ih =>
    exact List.forall_mem_cons.2 ⟨⟨_, _, _, _, ts, h, hscan, rfl⟩, ih (h.lexeme hscan hopened)⟩

namespace Layout

variable {source : String} {s t : Layout}

theorem line_made {ls ls' : List Line} {l : Line} (hsplit : Line.split 0 source.toList = ls ++ l :: ls')
    (hbefore : ls.foldlM line start = .ok s) (h : s.line l = .ok t)
    (hs : ∀ u ∈ s.tokens.toList, u.kind.isLayout = false → Made source u) :
    ∀ u ∈ t.tokens.toList, u.kind.isLayout = false → Made source u := by
  obtain ⟨rfl, -⟩ | ⟨hsaid, hcoded⟩ := line_cases h
  · exact hs
  · obtain ⟨m, ts, d, hm, hscan, rfl⟩ := coded_ok.1 hcoded
    obtain ⟨k, n, hk, hmarks⟩ := align_marks hm
    have hline := (ComesTo.line hsplit hbefore hsaid hm).made (scans_of_scanLine hscan)
    have htokens : ∀ u ∈ (m.tokens ++ ts).toList, u.kind.isLayout = false → Made source u := by
      intro u hu hlayout
      rw [Array.toList_appendList, hmarks, List.append_assoc, List.mem_append, List.mem_append] at hu
      rcases hu with hu | hu | hu
      · exact hs u hu hlayout
      · rw [List.eq_of_mem_replicate hu] at hlayout
        rw [hk] at hlayout
        cases hlayout
      · exact hline u hu
    intro u hu hlayout
    dsimp only at hu
    split at hu
    · rw [Array.toList_push, List.mem_append, List.mem_singleton] at hu
      rcases hu with hu | rfl
      · exact htokens u hu hlayout
      · cases hlayout
    · exact htokens u hu hlayout

theorem lines_made (ls : List Line) {ls' : List Line} (hsplit : Line.split 0 source.toList = ls ++ ls')
    (hbefore : ls.foldlM line start = .ok s) (h : ls'.foldlM line s = .ok t)
    (hs : ∀ u ∈ s.tokens.toList, u.kind.isLayout = false → Made source u) :
    ∀ u ∈ t.tokens.toList, u.kind.isLayout = false → Made source u := by
  induction ls' generalizing ls s with
  | nil =>
    cases h
    exact hs
  | cons l ls' ih =>
    rw [List.foldlM_cons] at h
    obtain ⟨m, hm, h⟩ := Outcome.except_bind_ok.1 h
    refine ih (ls ++ [l]) (by rw [hsplit, List.append_cons]) ?_ h (line_made hsplit hbefore hm hs)
    rw [List.foldlM_append, hbefore]
    show (List.foldlM line s [l] : Except LexError Layout) = _
    rw [List.foldlM_cons, hm]
    rfl

end Layout

/-- **Each token that is no layout is made where the lexer comes to its lexeme.** -/
theorem tokens_made {source : String} {all : List Token} (h : tokens source = .ok all) :
    ∀ t ∈ all, t.kind.isLayout = false → Made source t := by
  unfold tokens at h
  obtain ⟨s, hs, h⟩ := Outcome.except_bind_ok.1 h
  have hmade := Layout.lines_made [] rfl rfl hs (by simp [Layout.start])
  intro t ht hlayout
  unfold Layout.finish at h
  dsimp only at h
  split at h
  · cases h
  · cases h
    simp only [List.mem_append, List.mem_map, List.mem_singleton] at ht
    rcases ht with (ht | ⟨_, -, rfl⟩) | rfl
    · exact hmade t ht hlayout
    · cases hlayout
    · cases hlayout

/-- **No other numbers are read**: what the tokens of a text say is a number is the number of a literal that stands for
it, where the token stands. -/
theorem int_made {source : String} {all : List Token} {v : Nat} {span : Span} (h : tokens source = .ok all)
    (ht : ⟨.int v, span⟩ ∈ all) : ∃ base front run after depth ts, Literal base front run after ∧
      ComesTo source depth span.offset (front ++ run ++ after) ts ∧ span.length = Text.width (front ++ run) ∧
      Numeral.Proper base run ∧ v = Numeral.value base run := by
  obtain ⟨depth, c, r, rest, ts, hcomes, hscan, hlength⟩ := tokens_made h _ ht rfl
  obtain ⟨base, front, run, hliteral, hcr, hproper, hvalue⟩ := literal_of_int hscan
  exact ⟨base, front, run, rest, depth, ts, hliteral, by rwa [hcr, List.cons_append], by rwa [hcr], hproper, hvalue⟩

/-- A text of one line that is one word or numeral. -/
theorem tokens_alone {c : Char} {r : List Char} (hc : c.isDigit = true) (hword : ∀ d ∈ c :: r, continuesWord d = true) :
    tokens (String.ofList (c :: r)) = scanLine 0 0 (c :: r) >>= fun scanned =>
      (Layout.start.behind ⟨0, c :: r, Text.width (c :: r)⟩ scanned).finish (Text.width (c :: r)) := by
  have hmem : ∀ d, continuesWord d = false → d ∉ c :: r := fun d hd hmem => by
    rw [hword d hmem] at hd
    cases hd
  have hspace : (c :: r).head? ≠ some ' ' := fun hhead => hmem ' ' rfl (List.mem_of_head? hhead)
  have hblank : (c :: r).all Text.isBlank = false := by
    have hfirst : Text.isBlank c = false := (Pattern.decimal hc (r := []) (by simp)).not_blank
    rw [List.all_cons, hfirst, Bool.false_and]
  obtain ⟨hleading, hcode⟩ : Line.leading ⟨0, c :: r, Text.width (c :: r)⟩ = 0 ∧
      Line.code ⟨0, c :: r, Text.width (c :: r)⟩ = Line.beforeComment none (c :: r) :=
    Line.leading_spaces (n := 0) rfl hspace
  have hwhole : Line.beforeComment none (c :: r) = c :: r := by
    have hplain := Line.beforeComment_plain (fun d hd => Line.continues_plain (hword d hd)) []
    simpa [Line.beforeComment] using hplain
  rw [hwhole] at hcode
  have hsaid : Layout.Says ⟨0, c :: r, Text.width (c :: r)⟩ :=
    ⟨hblank, Line.contains_tab.2 (hmem '\t' rfl), by rw [hcode, hblank]⟩
  have halign : Layout.start.align ⟨0, c :: r, Text.width (c :: r)⟩
      (Line.leading ⟨0, c :: r, Text.width (c :: r)⟩) = .ok .start := by
    rw [hleading]
    rfl
  have hline := (Layout.line_coded hsaid).trans (Layout.coded_behind halign)
  rw [hleading, hcode] at hline
  unfold tokens
  dsimp only
  rw [String.toList_ofList, Line.split_last 0 (List.cons_ne_nil _ _) (hmem '\n' rfl), Nat.zero_add,
    List.foldlM_cons, hline]
  simp only [bind_assoc]
  rfl

/-- The text is refused for an integer literal that stands at the span. -/
def Refused (source : String) (span : Span) : Prop :=
  ∃ e, tokens source = .error e ∧ e.message = "invalid integer literal" ∧ e.span = span

section

open Numeral

variable {base : Nat} {front run after : List Char}

/-- What stands before a line end is as long a literal as before any other text. -/
theorem Lexeme.Literal.alone (h : Literal base front run after) : Literal base front run [] := by
  cases h with
  | decimal hc hr hafter hbase =>
    refine .decimal hc hr nofun ?_
    rw [List.append_nil]
    exact base?_decimal hr
  | based hm hne hrun hafter => exact .based hm hne hrun nofun

theorem tokens_literal (h : Literal base front run after) :
    tokens (String.ofList (front ++ run)) = if Proper base run then
        .ok [⟨.int (value base run), ⟨0, Text.width (front ++ run)⟩⟩, ⟨.newline, ⟨Text.width (front ++ run), 0⟩⟩,
          ⟨.eof, ⟨Text.width (front ++ run), 0⟩⟩]
      else .error ⟨.integer, ⟨0, Text.width (front ++ run)⟩⟩ := by
  obtain ⟨c, r, hcr, hc, hword, hscan⟩ := h.alone.scan
  have hline : tokens (String.ofList (c :: r)) = scanLine 0 0 (c :: (r ++ [])) >>= fun scanned =>
      (Layout.start.behind ⟨0, c :: r, Text.width (c :: r)⟩ scanned).finish (Text.width (c :: r)) := by
    rw [List.append_nil, tokens_alone hc hword]
  rw [hcr, hline]
  unfold verdict at hscan
  split at hscan
  · rename_i hproper
    rw [if_pos hproper, scanLine_lexeme hscan rfl, scanLine]
    rfl
  · rename_i hproper
    rw [if_neg hproper, scanLine_fault (digit_not_separator hc) hscan]
    rfl

/-- **Integer literals are read exactly.**  Alone a literal is lexed as its number where it stands for one, and refused
for itself where it does not.  Wherever the lexer comes to it in a text, it goes on behind it and keeps the number that
it has made, or the text is refused for the literal. -/
theorem literal_lexed (h : Literal base front run after) :
    (tokens (String.ofList (front ++ run)) = .ok [⟨.int (value base run), ⟨0, Text.width (front ++ run)⟩⟩,
        ⟨.newline, ⟨Text.width (front ++ run), 0⟩⟩, ⟨.eof, ⟨Text.width (front ++ run), 0⟩⟩] ↔ Proper base run) ∧
    (Refused (String.ofList (front ++ run)) ⟨0, Text.width (front ++ run)⟩ ↔ ¬ Proper base run) ∧
    ∀ source depth start ts, ComesTo source depth start (front ++ run ++ after) ts →
      (∃ pre post, source.toList = pre ++ (front ++ run ++ after) ++ post ∧ Text.width pre = start) ∧
      (Proper base run →
        ComesTo source depth (start + Text.width (front ++ run)) after
          (ts ++ [⟨.int (value base run), ⟨start, Text.width (front ++ run)⟩⟩]) ∧
        ∀ all, tokens source = .ok all →
          ts ++ [⟨.int (value base run), ⟨start, Text.width (front ++ run)⟩⟩] <+: all) ∧
      (¬ Proper base run → Refused source ⟨start, Text.width (front ++ run)⟩) := by
  have halone := tokens_literal h
  obtain ⟨c, r, hcr, hc, -, hscan⟩ := h.scan
  refine ⟨?_, ?_, fun source depth start ts hcomes => ⟨hcomes.place, ?_, ?_⟩⟩
  · rw [halone]
    split
    · simp [*]
    · simp [*]
  · unfold Refused
    rw [halone]
    split
    · simp [*]
    · rename_i hproper
      exact iff_of_true ⟨_, rfl, rfl, rfl⟩ hproper
  · intro hproper
    rw [hcr, List.cons_append] at hcomes
    rw [verdict, if_pos hproper] at hscan
    have hbehind := hcomes.lexeme hscan rfl
    rw [hcr]
    exact ⟨hbehind, fun all hall => hbehind.keeps hall⟩
  · intro hproper
    rw [hcr, List.cons_append] at hcomes
    rw [verdict, if_neg hproper] at hscan
    rw [hcr]
    exact ⟨_, hcomes.fault (digit_not_separator hc) hscan, rfl, rfl⟩

theorem literal_lexed_limit :
    tokens "0xFFFF_FFFF_FFFF_FFFF" =
      .ok [⟨.int 18446744073709551615, ⟨0, 21⟩⟩, ⟨.newline, ⟨21, 0⟩⟩, ⟨.eof, ⟨21, 0⟩⟩] ∧
    Refused "-18446744073709551616" ⟨1, 20⟩ := by
  constructor
  · have hrun : ∀ d ∈ "FFFF_FFFF_FFFF_FFFF".toList, isPart 16 d = true := List.all_eq_true.1 rfl
    have hvalue : value 16 "FFFF_FFFF_FFFF_FFFF".toList = 18446744073709551615 := by
      rw [← ofDigits_value hrun]
      decide +kernel
    have hliteral : Literal 16 ['0', 'x'] "FFFF_FFFF_FFFF_FFFF".toList [] := .based rfl (by decide) hrun nofun
    have hproper : Proper 16 "FFFF_FFFF_FFFF_FFFF".toList := by
      rw [proper_iff, hvalue]
      decide
    have hlexed := (literal_lexed hliteral).1.2 hproper
    rw [hvalue] at hlexed
    exact hlexed
  · have hrun : ∀ d ∈ "18446744073709551616".toList, isPart 10 d = true := List.all_eq_true.1 rfl
    have hvalue : value 10 "18446744073709551616".toList = 18446744073709551616 := by
      rw [← ofDigits_value hrun]
      decide +kernel
    have hliteral : Literal 10 [] "18446744073709551616".toList [] :=
      .decimal rfl (fun d hd => hrun d (List.mem_cons_of_mem _ hd)) nofun rfl
    have hline : Line.split 0 "-18446744073709551616".toList =
        [] ++ ⟨0, "-18446744073709551616".toList, 21⟩ :: [] := Line.split_last 0 (by decide) (by decide)
    have hfront : ComesTo "-18446744073709551616" 0 0 ('-' :: ([] ++ "18446744073709551616".toList)) [] :=
      .line hline rfl ⟨by decide, by decide, by decide⟩ (t := .start) rfl
    have hbehind := hfront.lexeme (k := .symbol .minus) rfl rfl
    have hlarge : ¬ Proper 10 "18446744073709551616".toList := by
      rw [proper_iff, hvalue]
      decide
    exact ((literal_lexed hliteral).2.2 _ _ _ _ hbehind).2.2 hlarge

end

end Unroll
