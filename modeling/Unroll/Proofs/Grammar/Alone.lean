import Unroll.Proofs.Check.Endings
import Unroll.Proofs.Grammar.Levels
import Unroll.Proofs.Grammar.Steps
import Unroll.Proofs.Token.Order
/-!
# A line by itself

No phrase inside a line looks past the end of the line, and the bound on its tokens decides nothing.  So a line reads
the same whatever stands behind it: the same value or the same error, with the same part of it left.
-/
namespace Unroll

namespace Cursor

variable {c d : Cursor}

/-- The tokens of the cursor with those of the other behind them. -/
def onto (d c : Cursor) : Cursor := ⟨c.rest ++ d.rest, d.last⟩

/-- What is left is the rest of one line, up to and with its end. -/
def InLine (c : Cursor) : Prop :=
  ∃ (us : List Token) (stop : Token), c.rest = us ++ [stop] ∧ stop.kind = .newline ∧
    ∀ t ∈ us, t.kind.isLayout = false

theorem InLine.length_pos (h : c.InLine) : 0 < c.rest.length := by
  obtain ⟨us, stop, hrest, -⟩ := h
  rw [hrest, List.length_append]
  exact Nat.succ_pos _

/-- The end of the line is next, or a token before it. -/
theorem InLine.cases (h : c.InLine) : (∃ span last, c = ⟨[⟨.newline, span⟩], last⟩) ∨
    ∃ t m, c = push t m ∧ t.kind.isLayout = false ∧ m.InLine := by
  obtain ⟨rest, last⟩ := c
  obtain ⟨us, ⟨kind, span⟩, rfl, rfl, hus⟩ := h
  cases us with
  | nil => exact .inl ⟨span, last, rfl⟩
  | cons t us =>
    exact .inr ⟨t, ⟨us ++ [⟨.newline, span⟩], last⟩, rfl, hus t (by simp), us, ⟨.newline, span⟩, rfl, rfl,
      fun t' ht' => hus t' (by simp [ht'])⟩

/-- A token comes next, and opens no block. -/
def Unindented (c : Cursor) : Prop := ∃ t m, c = push t m ∧ t.kind ≠ .indent

theorem InLine.kind?_onto (h : c.InLine) : (d.onto c).kind? = c.kind? := by
  obtain ⟨span, last, rfl⟩ | ⟨t, m, rfl, -⟩ := h.cases <;> rfl

/-- Before the end of the line one more token belongs to it. -/
theorem InLine.second?_onto (h : c.InLine) (hk : c.kind? ≠ some .newline) : (d.onto c).second? = c.second? := by
  obtain ⟨span, last, rfl⟩ | ⟨t, m, rfl, -, hm⟩ := h.cases
  · exact absurd rfl hk
  · exact hm.kind?_onto

end Cursor

namespace Parse

open Cursor Outcome

/-- How a step ended that had the tokens of the cursor behind it. -/
def endOnto {α : Type} (d : Cursor) : EStateM.Result ParseError Cursor α → EStateM.Result ParseError Cursor α
  | .ok a c => .ok a (d.onto c)
  | .error e c => .error e (d.onto c)

/-- The step succeeds in the line, having taken so many tokens, or fails in it, the end of the line taken at most. -/
def Inside {α : Type} (k : Nat) (c : Cursor) : EStateM.Result ParseError Cursor α → Prop
  | .ok _ c' => c'.InLine ∧ c'.rest.length + k ≤ c.rest.length
  | .error _ c' => c'.InLine ∨ c'.rest = []

/-- **The two phrases read the line alike**, whatever stands behind it. -/
def LikeAt {α : Type} (d d' : Cursor) (k : Nat) (c : Cursor) (p q : Parse α) : Prop :=
  c.InLine → ∃ r, p (d.onto c) = endOnto d r ∧ q (d'.onto c) = endOnto d' r ∧ Inside k c r

/-- So they do where at most `n` tokens of the line are left. -/
def Like {α : Type} (d d' : Cursor) (n k : Nat) (p q : Parse α) : Prop :=
  ∀ c, c.rest.length ≤ n → LikeAt d d' k c p q

namespace LikeAt

variable {α β : Type} {d d' c : Cursor} {k k' : Nat} {p q : Parse α} {f g : α → Parse β}

theorem bind (hp : LikeAt d d' k c p q)
    (hf : ∀ a c', c'.rest.length + k ≤ c.rest.length → LikeAt d d' (k' - k) c' (f a) (g a)) :
    LikeAt d d' k' c (p >>= f) (q >>= g) := by
  intro hc
  obtain ⟨r, hpr, hqr, hr⟩ := hp hc
  cases r with
  | ok a m =>
    obtain ⟨r', hfr, hgr, hr'⟩ := hf a m hr.2 hr.1
    refine ⟨r', (bind_of_ok hpr).trans hfr, (bind_of_ok hqr).trans hgr, ?_⟩
    cases r' with
    | ok b c' =>
      have hlen := hr.2
      have hlen' := hr'.2
      exact ⟨hr'.1, by omega⟩
    | error e c' => exact hr'
  | error e m => exact ⟨.error e m, bind_error.2 (.inl hpr), bind_error.2 (.inl hqr), hr⟩

theorem pure {a : α} : LikeAt d d' 0 c (Pure.pure a) (Pure.pure a) := fun hc => ⟨.ok a c, rfl, rfl, hc, Nat.le_refl _⟩

theorem mono (hp : LikeAt d d' k c p q) (hk : k' ≤ k) : LikeAt d d' k' c p q := by
  intro hc
  obtain ⟨r, hpr, hqr, hr⟩ := hp hc
  refine ⟨r, hpr, hqr, ?_⟩
  cases r with
  | ok a c' => exact ⟨hr.1, Nat.le_trans (Nat.add_le_add_left hk _) hr.2⟩
  | error e c' => exact hr

theorem fail {fault : ParseFault} {span : Span} :
    LikeAt d d' k c (Parse.fail fault span : Parse α) (Parse.fail fault span) :=
  fun hc => ⟨.error ⟨fault, span⟩ c, rfl, rfl, .inl hc⟩

/-- A line has its end. -/
theorem empty (h : c.rest.length ≤ 0) : LikeAt d d' k c p q := fun hc => absurd hc.length_pos (by omega)

theorem peek {f g : Option TokenKind → Parse β} (hf : LikeAt d d' k c (f c.kind?) (g c.kind?)) :
    LikeAt d d' k c (Parse.peek >>= f) (Parse.peek >>= g) := by
  intro hc
  obtain ⟨r, hfr, hgr, hr⟩ := hf hc
  rw [← hc.kind?_onto] at hfr hgr
  exact ⟨r, hfr, hgr, hr⟩

theorem peekSecond {f g : Option TokenKind → Parse β} (hk : c.kind? ≠ some .newline)
    (hf : LikeAt d d' k c (f c.second?) (g c.second?)) :
    LikeAt d d' k c (Parse.peekSecond >>= f) (Parse.peekSecond >>= g) := by
  intro hc
  obtain ⟨r, hfr, hgr, hr⟩ := hf hc
  rw [← hc.second?_onto hk] at hfr hgr
  exact ⟨r, hfr, hgr, hr⟩

theorem sees {kind : TokenKind} {f g : Bool → Parse β}
    (hf : LikeAt d d' k c (f (c.kind? == some kind)) (g (c.kind? == some kind))) :
    LikeAt d d' k c (Parse.sees kind >>= f) (Parse.sees kind >>= g) := by
  intro hc
  obtain ⟨r, hfr, hgr, hr⟩ := hf hc
  rw [← hc.kind?_onto] at hfr hgr
  exact ⟨r, hfr, hgr, hr⟩

/-- The next token stands in the line. -/
theorem place {other : Span} : LikeAt d d' 0 c (Parse.place other) (Parse.place other) := by
  intro hc
  obtain ⟨span, last, rfl⟩ | ⟨t, m, rfl, -⟩ := hc.cases
  · exact ⟨.ok span _, rfl, rfl, hc, Nat.le_refl _⟩
  · exact ⟨.ok t.span _, rfl, rfl, hc, Nat.le_refl _⟩

theorem fail_here {fault : ParseFault} {other : Span} : LikeAt d d' k c
    (do Parse.fail fault (← Parse.place other) : Parse α) (do Parse.fail fault (← Parse.place other)) :=
  place.bind fun _ _ _ => .fail

/-- Whatever token is taken, the end of the line is refused. -/
theorem next {f g : Token → Parse β}
    (hend : ∀ t, t.kind = .newline → ∃ fault, f t = Parse.fail fault t.span ∧ g t = Parse.fail fault t.span)
    (hf : ∀ t c', c'.rest.length + 1 ≤ c.rest.length → LikeAt d d' (k - 1) c' (f t) (g t)) :
    LikeAt d d' k c (Parse.next >>= f) (Parse.next >>= g) := by
  intro hc
  obtain ⟨span, last, rfl⟩ | ⟨t, m, rfl, -, hm⟩ := hc.cases
  · obtain ⟨fault, hf, hg⟩ := hend ⟨.newline, span⟩ rfl
    exact ⟨.error ⟨fault, span⟩ ⟨[], last⟩, congrFun hf d, congrFun hg d', .inr rfl⟩
  · obtain ⟨r, hfr, hgr, hr⟩ := hf t m (Nat.le_refl _) hm
    refine ⟨r, hfr, hgr, ?_⟩
    cases r with
    | ok a c' =>
      have hlen := hr.2
      refine ⟨hr.1, ?_⟩
      rw [rest_push, List.length_cons]
      omega
    | error e c' => exact hr

/-- A token of the line is taken. -/
theorem token (hk : c.kind? ≠ some .newline) : LikeAt d d' 1 c Parse.next Parse.next := by
  intro hc
  obtain ⟨span, last, rfl⟩ | ⟨t, m, rfl, -, hm⟩ := hc.cases
  · exact absurd rfl hk
  · exact ⟨.ok t m, rfl, rfl, hm, Nat.le_refl _⟩

theorem skip (hk : c.kind? ≠ some .newline) : LikeAt d d' 1 c Parse.skip Parse.skip := by
  intro hc
  obtain ⟨span, last, rfl⟩ | ⟨t, m, rfl, -, hm⟩ := hc.cases
  · exact absurd rfl hk
  · exact ⟨.ok () m, rfl, rfl, hm, Nat.le_refl _⟩

theorem expect {kind : TokenKind} (hne : kind ≠ .newline) :
    LikeAt d d' 1 c (Parse.expect kind) (Parse.expect kind) := by
  have hrefused : ∀ t : Token, t.kind = .newline → t.kind ≠ kind := fun t ht h => hne (h.symm.trans ht)
  refine .next (fun t ht => ⟨.expected kind, if_neg (hrefused t ht), if_neg (hrefused t ht)⟩) fun t c' _ => ?_
  split
  · exact .pure
  · exact .fail

theorem ident : LikeAt d d' 1 c Parse.ident Parse.ident := by
  refine .next (fun t ht => ⟨.expectedName, by rw [ht], by rw [ht]⟩) fun t c' _ => ?_
  split
  · exact .pure
  · exact .fail

theorem eat {kind : TokenKind} (hne : kind ≠ .newline) : LikeAt d d' 0 c (Parse.eat kind) (Parse.eat kind) := by
  refine .sees ?_
  split
  case isTrue h =>
    have hk : c.kind? ≠ some .newline := by
      rw [eq_of_beq h]
      exact fun h => hne (Option.some.inj h)
    exact (skip hk).bind fun _ _ _ => .pure
  case isFalse => exact .pure

end LikeAt

/-! ## Up to the end of the line -/

/-- The step succeeds with the end of the line, or fails in the line, the end taken at most. -/
def AtEnd {α : Type} : EStateM.Result ParseError Cursor α → Prop
  | .ok _ c => c.rest = []
  | .error _ c => c.InLine ∨ c.rest = []

/-- The step has taken the line and one token more, where it missed a block. -/
def MissesBlock {α : Type} (d c : Cursor) (p : Parse α) : Prop :=
  ∃ span, p (d.onto c) = .error ⟨.expected .indent, span⟩ d.drop

/-- **The two phrases read the line alike up to its end**, or both miss a block behind it. -/
def ClosesAt {α : Type} (d d' c : Cursor) (p q : Parse α) : Prop :=
  c.InLine → (∃ r, p (d.onto c) = endOnto d r ∧ q (d'.onto c) = endOnto d' r ∧ AtEnd r) ∨
    MissesBlock d c p ∧ MissesBlock d' c q

section

variable {α β : Type} {d d' c : Cursor} {k : Nat} {p q : Parse α} {f g : α → Parse β}

theorem LikeAt.close (hp : LikeAt d d' k c p q)
    (hf : ∀ a c', c'.rest.length + k ≤ c.rest.length → ClosesAt d d' c' (f a) (g a)) :
    ClosesAt d d' c (p >>= f) (q >>= g) := by
  intro hc
  obtain ⟨r, hpr, hqr, hr⟩ := hp hc
  cases r with
  | ok a m =>
    have hpf : (p >>= f) (d.onto c) = f a (d.onto m) := bind_of_ok hpr
    have hqg : (q >>= g) (d'.onto c) = g a (d'.onto m) := bind_of_ok hqr
    unfold MissesBlock
    rw [hpf, hqg]
    exact hf a m hr.2 hr.1
  | error e m => exact .inl ⟨.error e m, bind_error.2 (.inl hpr), bind_error.2 (.inl hqr), hr⟩

namespace ClosesAt

theorem fail {fault : ParseFault} {span : Span} :
    ClosesAt d d' c (Parse.fail fault span : Parse α) (Parse.fail fault span) :=
  fun hc => .inl ⟨.error ⟨fault, span⟩ c, rfl, rfl, .inl hc⟩

/-- What is done with the result takes no more tokens. -/
theorem map {h : α → β} (hp : ClosesAt d d' c p q) :
    ClosesAt d d' c (p >>= fun a => pure (h a)) (q >>= fun a => pure (h a)) := by
  intro hc
  obtain ⟨r, hpr, hqr, hr⟩ | ⟨⟨span, hpr⟩, ⟨span', hqr⟩⟩ := hp hc
  · cases r with
    | ok a c' => exact .inl ⟨.ok (h a) c', bind_of_ok hpr, bind_of_ok hqr, hr⟩
    | error e c' => exact .inl ⟨.error e c', bind_error.2 (.inl hpr), bind_error.2 (.inl hqr), hr⟩
  · exact .inr ⟨⟨span, bind_error.2 (.inl hpr)⟩, ⟨span', bind_error.2 (.inl hqr)⟩⟩

theorem of_eq {p' q' : Parse α} (hp : c.InLine → p (d.onto c) = p' (d.onto c))
    (hq : c.InLine → q (d'.onto c) = q' (d'.onto c)) (h : ClosesAt d d' c p' q') : ClosesAt d d' c p q := by
  intro hc
  unfold MissesBlock
  rw [hp hc, hq hc]
  exact h hc

theorem peek {f g : Option TokenKind → Parse β} (hf : ClosesAt d d' c (f c.kind?) (g c.kind?)) :
    ClosesAt d d' c (Parse.peek >>= f) (Parse.peek >>= g) :=
  hf.of_eq (fun hc => congrArg (fun kind? => f kind? (d.onto c)) hc.kind?_onto)
    fun hc => congrArg (fun kind? => g kind? (d'.onto c)) hc.kind?_onto

theorem peekSecond {f g : Option TokenKind → Parse β} (hk : c.kind? ≠ some .newline)
    (hf : ClosesAt d d' c (f c.second?) (g c.second?)) :
    ClosesAt d d' c (Parse.peekSecond >>= f) (Parse.peekSecond >>= g) :=
  hf.of_eq (fun hc => congrArg (fun kind? => f kind? (d.onto c)) (hc.second?_onto hk))
    fun hc => congrArg (fun kind? => g kind? (d'.onto c)) (hc.second?_onto hk)

theorem sees {kind : TokenKind} {f g : Bool → Parse β}
    (hf : ClosesAt d d' c (f (c.kind? == some kind)) (g (c.kind? == some kind))) :
    ClosesAt d d' c (Parse.sees kind >>= f) (Parse.sees kind >>= g) :=
  hf.of_eq (fun hc => congrArg (fun kind? => f (kind? == some kind) (d.onto c)) hc.kind?_onto)
    fun hc => congrArg (fun kind? => g (kind? == some kind) (d'.onto c)) hc.kind?_onto

/-- The end of its line closes a statement. -/
theorem closing {a : α} : ClosesAt d d' c (do Parse.lineEnd; return a) (do Parse.lineEnd; return a) := by
  intro hc
  obtain ⟨span, last, rfl⟩ | ⟨t, m, rfl, ht, -⟩ := hc.cases
  · exact .inl ⟨.ok a ⟨[], last⟩, rfl, rfl, rfl⟩
  · refine .inl ⟨.error ⟨.expectedLineEnd, t.span⟩ (push t m), ?_, ?_, .inl hc⟩ <;>
      (obtain ⟨kind, span⟩ := t; cases kind <;> first | rfl | cases ht)

theorem expect_other {kind : TokenKind} {t : Token} {m : Cursor} (h : t.kind ≠ kind) :
    Parse.expect kind (push t m) = .error ⟨.expected kind, t.span⟩ m := by
  show (if _ then _ else _ : Parse Span) _ = _
  rw [if_neg h]
  rfl

/-- **A block has to be indented**, and is not read where the next line is not. -/
theorem block {n n' : Nat} {stmt stmt' : Parse Stmt} {f g : Block → Parse β} (hd : d.Unindented) (hd' : d'.Unindented) :
    ClosesAt d d' c (Grammar.block n stmt >>= f) (Grammar.block n' stmt' >>= g) := by
  intro hc
  obtain ⟨span, last, rfl⟩ | ⟨t, m, rfl, ht, hm⟩ := hc.cases
  · obtain ⟨t, m, rfl, ht⟩ := hd
    obtain ⟨t', m', rfl, ht'⟩ := hd'
    refine .inr ⟨⟨t.span, bind_error.2 (.inl (bind_error.2 (.inr ⟨span, push t m, rfl, ?_⟩)))⟩,
      ⟨t'.span, bind_error.2 (.inl (bind_error.2 (.inr ⟨span, push t' m', rfl, ?_⟩)))⟩⟩
    · exact bind_error.2 (.inl (expect_other ht))
    · exact bind_error.2 (.inl (expect_other ht'))
  · have hne : t.kind ≠ .newline := fun h => by
      rw [h] at ht
      cases ht
    have hline : ∀ m', Parse.expect .newline (push t m') = .error ⟨.expected .newline, t.span⟩ m' := fun _ =>
      expect_other hne
    exact .inl ⟨.error ⟨.expected .newline, t.span⟩ m, bind_error.2 (.inl (bind_error.2 (.inl (hline (d.onto m))))),
      bind_error.2 (.inl (bind_error.2 (.inl (hline (d'.onto m))))), .inl hm⟩

end ClosesAt

end

/-! ## Lists

The second phrase has a bound that is larger by `i`, which makes no difference. -/

section

variable {α : Type} {d d' : Cursor} {n : Nat} {element element' : Parse α} (i : Nat)

theorem commaSeparated_like {more more' : Parse Bool} (he : Like d d' n 1 element element')
    (hm : ∀ c, LikeAt d d' 0 c more more') : ∀ m c, c.rest.length ≤ m → c.rest.length ≤ n →
      LikeAt d d' 1 c (commaSeparated element more m) (commaSeparated element' more' (i + m))
  | 0, c, hcm, _ => .empty hcm
  | m + 1, c, hcm, hcn => by
    show LikeAt d d' 1 c _ (commaSeparated element' more' (i + m + 1))
    unfold commaSeparated
    refine (he c hcn).bind fun a c₁ h₁ => (LikeAt.eat (by simp)).bind fun comma c₂ h₂ => ?_
    cases comma with
    | false => exact .pure
    | true =>
      refine (hm c₂).bind fun another c₃ h₃ => ?_
      cases another with
      | false => exact .pure
      | true => exact (commaSeparated_like he hm m c₃ (by omega) (by omega)).bind fun _ _ _ => .pure

theorem closedBy_like (close : TokenKind) (he : Like d d' n 1 element element') {m : Nat} (hm : n ≤ m) :
    Like d d' n 0 (closedBy close element m) (closedBy close element' (i + m)) := by
  intro c hc
  refine .sees ?_
  split
  · exact .pure
  · have hmore : ∀ c, LikeAt d d' 0 c (do return !(← sees close)) (do return !(← sees close)) := fun _ => .sees .pure
    exact (commaSeparated_like i he hmore m c (by omega) hc).mono (Nat.zero_le 1)

end

end Parse

namespace Grammar

open Cursor Parse LikeAt

/-! ## Expressions and types -/

structure Inner.Like (d d' : Cursor) (n : Nat) (inner inner' : Inner) : Prop where
  expr : Parse.Like d d' n 1 inner.expr inner'.expr
  sum : Parse.Like d d' n 1 inner.sum inner'.sum
  unary : Parse.Like d d' n 1 inner.unary inner'.unary
  typeRef : Parse.Like d d' n 1 inner.typeRef inner'.typeRef

variable {d d' c : Cursor} {n m i : Nat} {inner inner' : Inner}

theorem ne_newline_of_bind {c : Cursor} {op? : TokenKind → Option BinOp} {op : BinOp} (hop : op? .newline = none)
    (h : c.kind?.bind op? = some op) : c.kind? ≠ some .newline := by
  intro hk
  rw [hk] at h
  exact nomatch hop.symm.trans h

theorem chainFrom_like {op? : TokenKind → Option BinOp} {operand operand' : Parse Expr} (hop : op? .newline = none)
    (ho : Like d d' n 1 operand operand') : ∀ m {left c}, c.rest.length ≤ m → c.rest.length ≤ n →
      LikeAt d d' 0 c (chainFrom op? operand m left) (chainFrom op? operand' (i + m) left)
  | 0, _, _, hcm, _ => .empty hcm
  | m + 1, left, c, hcm, hcn => by
    show LikeAt d d' 0 c _ (chainFrom op? operand' (i + m + 1) left)
    unfold chainFrom
    refine .peek ?_
    split
    case h_1 => exact .pure
    case h_2 op h =>
      refine (LikeAt.skip (ne_newline_of_bind hop h)).bind fun _ c₁ h₁ => ?_
      refine (ho c₁ (by omega)).bind fun right c₂ h₂ => ?_
      exact chainFrom_like hop ho m (by omega) (by omega)

theorem chain_like {op? : TokenKind → Option BinOp} {operand operand' : Parse Expr} (hop : op? .newline = none)
    (ho : Like d d' n 1 operand operand') (hm : n ≤ m) :
    Like d d' n 1 (chain op? operand m) (chain op? operand' (i + m)) := by
  intro c hc
  exact (ho c hc).bind fun _ _ _ => chainFrom_like hop ho m (by omega) (by omega)

theorem templateArg_like (hi : inner.Like d d' n inner') : Like d d' n 1 (templateArg inner) (templateArg inner') := by
  intro c hc
  have hvalue : LikeAt d d' 1 c (do return TypeArg.value (← inner.sum)) (do return TypeArg.value (← inner'.sum)) :=
    (hi.sum c hc).bind fun _ _ _ => .pure
  have htype : LikeAt d d' 1 c (do return TypeArg.type (← inner.typeRef)) (do return TypeArg.type (← inner'.typeRef)) :=
    (hi.typeRef c hc).bind fun _ _ _ => .pure
  unfold templateArg
  refine .peek ?_
  dsimp only
  split
  · exact htype
  case h_2 hname =>
    refine .peekSecond (by simp [hname]) ?_
    simp only [pure_bind]
    split
    · exact hvalue
    · exact htype
  · exact hvalue

theorem templateArgs_like (hi : inner.Like d d' n inner') (hm : n ≤ m) :
    Like d d' n 0 (templateArgs inner m) (templateArgs inner' (i + m)) := by
  intro c hc
  refine .sees ?_
  split
  · exact .pure
  · exact (commaSeparated_like i (templateArg_like hi) (fun _ => .pure) m c (by omega) hc).mono (Nat.zero_le 1)

theorem typeRefWith_like (hi : inner.Like d d' n inner') :
    Like d d' (n + 1) 1 (typeRefWith (n + 1) inner) (typeRefWith (i + (n + 1)) inner') := by
  intro c hc
  refine .sees ?_
  split
  · refine (expect (by simp)).bind fun left c₁ h₁ => ?_
    refine (hi.typeRef c₁ (by omega)).bind fun elem c₂ h₂ => ?_
    refine (expect (by simp)).bind fun _ c₃ h₃ => ?_
    refine (hi.expr c₃ (by omega)).bind fun len c₄ h₄ => ?_
    exact (expect (by simp)).bind fun _ _ _ => .pure
  · refine ident.bind fun name c₁ h₁ => ?_
    refine (eat (by simp)).bind fun b c₂ h₂ => ?_
    split
    · refine (templateArgs_like hi (Nat.le_succ n) c₂ (by omega)).bind fun args c₃ h₃ => ?_
      exact (expect (by simp)).bind fun _ _ _ => .pure
    · exact .pure

theorem integer_like {value : Nat} {span : Span} : LikeAt d d' 0 c (integer value span) (integer value span) := by
  unfold integer
  split
  · exact .pure
  · exact .fail

theorem primary_like (hi : inner.Like d d' n inner') :
    Like d d' (n + 1) 1 (primary (n + 1) inner) (primary (i + (n + 1)) inner') := by
  intro c hc
  refine .next (fun t ht => ⟨.expectedExpression, by rw [ht], by rw [ht]⟩) fun t c₁ h₁ => ?_
  have hclosed : ∀ (close : Symbol) (give : Span → List Expr → Expr), LikeAt d d' 0 c₁ (do
        let items ← closedBy (.symbol close) inner.expr (n + 1)
        return give (t.span.join (← expect (.symbol close))) items) (do
        let items ← closedBy (.symbol close) inner'.expr (i + (n + 1))
        return give (t.span.join (← expect (.symbol close))) items) := by
    intro close give
    refine (closedBy_like i _ hi.expr (Nat.le_succ n) c₁ (by omega)).bind fun items c₂ h₂ => ?_
    exact (expect (by simp)).bind fun _ _ _ => .pure
  obtain ⟨kind, span⟩ := t
  cases kind with
  | name _ | char _ | text _ => exact .pure
  | int _ => exact integer_like
  | keyword k =>
    cases k with
    | trueWord | falseWord => exact .pure
    | _ => exact .fail
  | symbol s =>
    cases s with
    | lbrace => exact hclosed .rbrace .list
    | lbracket => exact hclosed .rbracket .array
    | lparen =>
      refine (hi.expr c₁ (by omega)).bind fun e c₂ h₂ => ?_
      exact (expect (by simp)).bind fun _ _ _ => .pure
    | _ => exact .fail
  | newline | indent | dedent | eof => exact .fail

theorem literalFields_like (hi : inner.Like d d' n inner') {opening : Span} : ∀ m {c}, c.rest.length ≤ m →
    c.rest.length ≤ n + 1 → LikeAt d d' 1 c (literalFields inner opening m) (literalFields inner' opening (i + m))
  | 0, _, hcm, _ => .empty hcm
  | m + 1, c, hcm, hcn => by
    show LikeAt d d' 1 c _ (literalFields inner' opening (i + m + 1))
    unfold literalFields
    refine .peek ?_
    split
    · exact (expect (by simp)).bind fun _ _ _ => .pure
    · exact .fail
    · refine ident.bind fun key c₁ h₁ => ?_
      refine (expect (by simp)).bind fun _ c₂ h₂ => ?_
      refine (hi.expr c₂ (by omega)).bind fun value c₃ h₃ => .peek ?_
      have hrest : ∀ {c}, c.rest.length ≤ c₃.rest.length → LikeAt d d' 0 c
          (literalFields inner opening m >>= fun r => Pure.pure ((key, value) :: r.1, r.2))
          (literalFields inner' opening (i + m) >>= fun r => Pure.pure ((key, value) :: r.1, r.2)) := fun h₄ =>
        (literalFields_like hi m (by omega) (by omega)).bind fun _ _ _ => .pure
      dsimp only
      split
      case h_1 hcomma => exact (LikeAt.skip (by simp [hcomma])).bind fun _ _ h₄ => hrest (by omega)
      case h_2 => exact hrest (Nat.le_refl _)
      case h_3 => exact place.bind fun _ c₄ h₄ => (LikeAt.fail (k := 0)).bind fun _ _ h₅ => hrest (by omega)

section

variable {start : Span} {e : Expr}

theorem recordLiteral_like (hi : inner.Like d d' n inner') {type : Ident} (hc : c.rest.length ≤ n + 1) :
    LikeAt d d' 1 c (recordLiteral (n + 1) inner start type) (recordLiteral (i + (n + 1)) inner' start type) := by
  refine (expect (by simp)).bind fun brace c₁ h₁ => ?_
  exact (literalFields_like hi (n + 1) (by omega) (by omega)).bind fun _ _ _ => .pure

theorem call_like (hi : inner.Like d d' n inner') {callee : Ident} (hc : c.rest.length ≤ n + 1) :
    LikeAt d d' 1 c (call (n + 1) inner start callee) (call (i + (n + 1)) inner' start callee) := by
  have hrest : ∀ generic {c'}, c'.rest.length ≤ n + 1 → LikeAt d d' 1 c' (do
      let _ ← expect (.symbol .lparen)
      let args ← closedBy (.symbol .rparen) inner.expr (n + 1)
      let close ← expect (.symbol .rparen)
      return Expr.call (start.join close) callee generic args) (do
      let _ ← expect (.symbol .lparen)
      let args ← closedBy (.symbol .rparen) inner'.expr (i + (n + 1))
      let close ← expect (.symbol .rparen)
      return Expr.call (start.join close) callee generic args) := by
    intro generic c' hc'
    refine (expect (by simp)).bind fun _ c₁ h₁ => ?_
    refine (closedBy_like i _ hi.expr (Nat.le_succ n) c₁ (by omega)).bind fun args c₂ h₂ => ?_
    exact (expect (by simp)).bind fun _ _ _ => .pure
  unfold call
  refine (eat (by simp)).bind fun b c₁ h₁ => ?_
  dsimp only
  split
  · refine (expect (by simp)).bind fun _ c₂ h₂ => ?_
    refine (templateArgs_like hi (Nat.le_succ n) c₂ (by omega)).bind fun args c₃ h₃ => ?_
    refine (expect (by simp)).bind fun _ c₄ h₄ => ?_
    simp only [pure_bind]
    exact (hrest args (by omega)).mono (Nat.zero_le 1)
  · simp only [pure_bind]
    exact hrest [] (by omega)

/-- Where a form follows the operand, at least one token of it is taken. -/
theorem suffix_like (hi : inner.Like d d' n inner') (hc : c.rest.length ≤ n + 1) {f g : Option Expr → Parse Expr}
    (hnone : LikeAt d d' 0 c (f none) (g none))
    (hsome : ∀ e c', c'.rest.length + 1 ≤ c.rest.length → LikeAt d d' 0 c' (f (some e)) (g (some e))) :
    LikeAt d d' 0 c (suffix? (n + 1) inner e >>= f) (suffix? (i + (n + 1)) inner' e >>= g) := by
  have hform : ∀ {p q : Parse Expr}, LikeAt d d' 1 c p q →
      LikeAt d d' 0 c ((do return some (← p)) >>= f) ((do return some (← q)) >>= g) := by
    intro p q hp
    simp only [bind_assoc, pure_bind]
    exact hp.bind fun e c' h => hsome e c' h
  have hcall : LikeAt d d' 1 c (suffix?.callOf (n + 1) inner e) (suffix?.callOf (i + (n + 1)) inner' e) := by
    unfold suffix?.callOf
    cases e with
    | name => exact call_like hi hc
    | _ => exact .fail_here
  unfold suffix?
  rw [bind_assoc, bind_assoc]
  refine .peek ?_
  split
  case h_1 => exact hform (recordLiteral_like hi hc)
  case h_2 hdot =>
    simp only [bind_assoc, pure_bind]
    refine (LikeAt.skip (by simp [hdot])).bind fun _ c₁ h₁ => ?_
    exact ident.bind fun _ c₂ h₂ => hsome _ c₂ (by omega)
  case h_3 hbracket =>
    simp only [bind_assoc, pure_bind]
    refine (LikeAt.skip (by simp [hbracket])).bind fun _ c₁ h₁ => ?_
    refine (hi.expr c₁ (by omega)).bind fun index c₂ h₂ => ?_
    exact (expect (by simp)).bind fun _ c₃ h₃ => hsome _ c₃ (by omega)
  case h_4 hpath =>
    rw [bind_assoc, bind_assoc]
    refine .peekSecond (by simp [hpath]) ?_
    split
    · exact hform hcall
    · exact hnone
  case h_5 => exact hform hcall
  case h_6 => exact hnone

theorem suffixesFrom_like (hi : inner.Like d d' n inner') : ∀ m {e c}, c.rest.length ≤ m → c.rest.length ≤ n + 1 →
    LikeAt d d' 0 c (suffixesFrom (n + 1) inner m e) (suffixesFrom (i + (n + 1)) inner' (i + m) e)
  | 0, _, _, hcm, _ => .empty hcm
  | m + 1, e, c, hcm, hcn => by
    show LikeAt d d' 0 c _ (suffixesFrom (i + (n + 1)) inner' (i + m + 1) e)
    unfold suffixesFrom
    exact suffix_like hi hcn .pure fun e c₁ h₁ => suffixesFrom_like hi m (by omega) (by omega)

end

theorem unaryWith_like (hi : inner.Like d d' n inner') :
    Like d d' (n + 1) 1 (unaryWith (n + 1) inner) (unaryWith (i + (n + 1)) inner') := by
  intro c hc
  have hprefixed : ∀ op, c.kind? ≠ some .newline →
      LikeAt d d' 1 c (unaryWith.prefixed inner op) (unaryWith.prefixed inner' op) := by
    intro op hk
    refine (token hk).bind fun t c₁ h₁ => ?_
    exact (hi.unary c₁ (by omega)).bind fun _ _ _ => .pure
  unfold unaryWith
  refine .peek ?_
  split
  case h_1 hbang => exact hprefixed .not (by simp [hbang])
  case h_2 hminus => exact hprefixed .neg (by simp [hminus])
  case h_3 =>
    refine (primary_like hi c hc).bind fun e c₁ h₁ => ?_
    exact suffixesFrom_like hi (n + 1) (by omega) (by omega)

theorem sumWith_like (hi : inner.Like d d' n inner') :
    Like d d' (n + 1) 1 (sumWith (n + 1) inner) (sumWith (i + (n + 1)) inner') :=
  chain_like rfl (chain_like rfl (unaryWith_like hi) (Nat.le_refl _)) (Nat.le_refl _)

theorem comparisonWith_like (hi : inner.Like d d' n inner') :
    Like d d' (n + 1) 1 (comparisonWith (n + 1) inner) (comparisonWith (i + (n + 1)) inner') := by
  intro c hc
  refine (sumWith_like hi c hc).bind fun left c₁ h₁ => .peek ?_
  split
  case h_1 => exact .pure
  case h_2 op hop =>
    refine (LikeAt.skip (ne_newline_of_bind rfl hop)).bind fun _ c₂ h₂ => ?_
    refine (sumWith_like hi c₂ (by omega)).bind fun right c₃ h₃ => .peek ?_
    split
    · exact .pure
    · exact .fail_here

theorem exprWith_like (hi : inner.Like d d' n inner') :
    Like d d' (n + 1) 1 (exprWith (n + 1) inner) (exprWith (i + (n + 1)) inner') :=
  chain_like rfl (chain_like rfl (comparisonWith_like hi) (Nat.le_refl _)) (Nat.le_refl _)

theorem bounded_like (i : Nat) : ∀ n, (bounded n).Like d d' n (bounded (i + n))
  | 0 => ⟨fun _ => .empty, fun _ => .empty, fun _ => .empty, fun _ => .empty⟩
  | n + 1 =>
    have hi := bounded_like i n
    ⟨exprWith_like hi, sumWith_like hi, unaryWith_like hi, typeRefWith_like hi⟩

/-! ## Statements -/

theorem typeRef_like (n : Nat) : Like d d' n 1 (typeRef n) (typeRef (i + n)) := (bounded_like i n).typeRef

theorem expr_like (n : Nat) : Like d d' n 1 (expr n) (expr (i + n)) := (bounded_like i n).expr

theorem typeBehind_like (mark : Symbol) (n : Nat) : Like d d' n 0 (typeBehind mark n) (typeBehind mark (i + n)) := by
  intro c hc
  refine (eat (by simp)).bind fun b c₁ h₁ => ?_
  split
  · exact (typeRef_like n c₁ (by omega)).bind fun _ _ _ => .mono .pure (Nat.zero_le _)
  · exact .pure

theorem templateParam_like (n : Nat) : Like d d' n 1 (templateParam n) (templateParam (i + n)) := by
  intro c hc
  refine .sees ?_
  split
  · refine (expect (by simp)).bind fun start c₁ h₁ => ident.bind fun name c₂ h₂ => ?_
    refine (expect (by simp)).bind fun _ c₃ h₃ => ?_
    exact (typeRef_like n c₃ (by omega)).bind fun _ _ _ => .pure
  · refine ident.bind fun name c₁ h₁ => (eat (by simp)).bind fun b c₂ h₂ => ?_
    split
    · exact ident.bind fun _ _ _ => .pure
    · exact .pure

theorem templateParams_like (n : Nat) : Like d d' n 0 (templateParams n) (templateParams (i + n)) := by
  intro c hc
  have hrest : ∀ {c}, c.rest.length ≤ n → LikeAt d d' 0 c (do
      let params ← commaSeparated (templateParam n) (return true) n
      let _ ← Parse.expect (.symbol .gt)
      return params) (do
      let params ← commaSeparated (templateParam (i + n)) (return true) (i + n)
      let _ ← Parse.expect (.symbol .gt)
      return params) := by
    intro c hc
    refine (commaSeparated_like i (templateParam_like n) (fun _ => .pure) n c hc hc).bind fun params c₁ h₁ => ?_
    exact (expect (by simp)).bind fun _ _ _ => .pure
  refine .sees ?_
  split
  · refine (expect (by simp)).bind fun opening c₁ h₁ => .sees ?_
    dsimp only
    split
    · exact (LikeAt.fail (k := 0)).bind fun _ c₂ h₂ => hrest (by omega)
    · exact hrest (by omega)
  · exact .pure

theorem param_like (n : Nat) : Like d d' n 1 (param n) (param (i + n)) := by
  intro c hc
  refine ident.bind fun name c₁ h₁ => (expect (by simp)).bind fun _ c₂ h₂ => ?_
  refine (eat (by simp)).bind fun mutable c₃ h₃ => ?_
  exact (typeRef_like n c₃ (by omega)).bind fun _ _ _ => .pure

theorem valDecl_like (n : Nat) : Like d d' n 1 (valDecl n) (valDecl (i + n)) := by
  intro c hc
  refine (expect (by simp)).bind fun start c₁ h₁ => (eat (by simp)).bind fun mutable c₂ h₂ => ?_
  refine ident.bind fun name c₃ h₃ => (typeBehind_like .colon n c₃ (by omega)).bind fun type c₄ h₄ => ?_
  refine (expect (by simp)).bind fun _ c₅ h₅ => ?_
  exact (expr_like n c₅ (by omega)).bind fun _ _ _ => .pure

theorem loopVar_like (n : Nat) : Like d d' n 1 (loopVar n) (loopVar (i + n)) := by
  intro c hc
  refine (expect (by simp)).bind fun start c₁ h₁ => (eat (by simp)).bind fun mutable c₂ h₂ => ?_
  refine ident.bind fun name c₃ h₃ => ?_
  exact (typeBehind_like .colon n c₃ (by omega)).bind fun _ _ _ => .pure

theorem loopVarAfter_like (n : Nat) (keyword : Span) :
    Like d d' n 1 (loopVarAfter n keyword) (loopVarAfter (i + n) keyword) := by
  intro c hc
  refine .sees ?_
  split
  · exact (loopVar_like n c hc).bind fun _ _ _ => .pure
  · exact .fail_here

theorem expansionHead_like (n : Nat) (keyword : Span) :
    Like d d' n 1 (expansionHead n keyword) (expansionHead (i + n) keyword) := by
  intro c hc
  refine .sees ?_
  split
  · refine (loopVar_like n c hc).bind fun r c₁ h₁ => (eat (by simp)).bind fun b c₂ h₂ => ?_
    split
    · refine (expr_like n c₂ (by omega)).bind fun e c₃ h₃ => (expect (by simp)).bind fun _ c₄ h₄ => ?_
      exact (loopVarAfter_like n keyword c₄ (by omega)).bind fun _ _ _ => .pure
    · exact .pure
  · refine (expr_like n c hc).bind fun e c₁ h₁ => (expect (by simp)).bind fun _ c₂ h₂ => ?_
    exact (loopVarAfter_like n keyword c₂ (by omega)).bind fun _ _ _ => .pure

theorem recordFields_like (bound : Nat) {opening : Span} : ∀ n {c}, c.rest.length ≤ n → c.rest.length ≤ bound →
    ClosesAt d d' c (recordFields bound opening n) (recordFields (i + bound) opening (i + n))
  | 0, c, hcn, _ => fun hc => absurd hc.length_pos (by omega)
  | n + 1, c, hcn, hcb => by
    show ClosesAt d d' c _ (recordFields (i + bound) opening (i + n + 1))
    unfold recordFields
    refine .peek ?_
    split
    · exact (LikeAt.expect (by simp)).close fun _ _ _ => .closing
    · exact .fail
    · refine (LikeAt.eat (by simp)).close fun hidden c₁ h₁ => LikeAt.ident.close fun name c₂ h₂ => ?_
      refine (LikeAt.expect (by simp)).close fun _ c₃ h₃ => ?_
      refine (typeRef_like bound c₃ (by omega)).close fun type c₄ h₄ => .peek ?_
      dsimp only
      split
      case h_1 hcomma =>
        refine (LikeAt.skip (by simp [hcomma])).close fun _ c₅ h₅ => ?_
        exact (recordFields_like bound n (by omega) (by omega)).map
      case h_2 => exact (recordFields_like bound n (by omega) (by omega)).map
      case h_3 =>
        refine LikeAt.place.close fun _ c₅ h₅ => (LikeAt.fail (k := 0)).close fun _ c₆ h₆ => ?_
        exact (recordFields_like bound n (by omega) (by omega)).map

theorem typeDef_like (n : Nat) (hc : c.rest.length ≤ n) : ClosesAt d d' c (typeDef n) (typeDef (i + n)) := by
  refine (LikeAt.expect (by simp)).close fun start c₁ h₁ => LikeAt.ident.close fun name c₂ h₂ => ?_
  refine (templateParams_like n c₂ (by omega)).close fun params c₃ h₃ => ?_
  refine (LikeAt.expect (by simp)).close fun _ c₄ h₄ => .sees ?_
  split
  · split
    · exact .fail
    · refine (LikeAt.expect (by simp)).close fun _ c₅ h₅ => (LikeAt.expect (by simp)).close fun brace c₆ h₆ => ?_
      exact (recordFields_like n n (by omega) (by omega)).map
  · exact (typeRef_like n c₄ (by omega)).close fun _ _ _ => .closing

theorem assignment_like (n : Nat) (hc : c.rest.length ≤ n) : ClosesAt d d' c (assignment n) (assignment (i + n)) := by
  refine LikeAt.ident.close fun target c₁ h₁ => (LikeAt.expect (by simp)).close fun _ c₂ h₂ => ?_
  exact (expr_like n c₂ (by omega)).close fun _ _ _ => .closing

theorem returnStmt_like (n : Nat) (hc : c.rest.length ≤ n) : ClosesAt d d' c (returnStmt n) (returnStmt (i + n)) := by
  refine (LikeAt.expect (by simp)).close fun start c₁ h₁ => .peek ?_
  split
  · exact (expr_like n c₁ (by omega)).close fun _ _ _ => .closing
  · exact .closing

/-! A statement with a block ends where its block would have to begin. -/

section

variable {stmt stmt' : Parse Stmt} (hd : d.Unindented) (hd' : d'.Unindented)

include hd hd'

theorem cellDef_like (n : Nat) (hc : c.rest.length ≤ n) :
    ClosesAt d d' c (cellDef n stmt) (cellDef (i + n) stmt') := by
  refine (LikeAt.expect (by simp)).close fun start c₁ h₁ => LikeAt.ident.close fun name c₂ h₂ => ?_
  refine (templateParams_like n c₂ (by omega)).close fun params c₃ h₃ => ?_
  refine (LikeAt.expect (by simp)).close fun _ c₄ h₄ => ?_
  refine (closedBy_like i _ (param_like n) (Nat.le_refl n) c₄ (by omega)).close fun args c₅ h₅ => ?_
  refine (LikeAt.expect (by simp)).close fun _ c₆ h₆ => ?_
  refine (typeBehind_like .arrow n c₆ (by omega)).close fun ret c₇ h₇ => ?_
  exact (LikeAt.expect (by simp)).close fun _ c₈ h₈ => .block hd hd'

theorem conditional_like (n : Nat) (hc : c.rest.length ≤ n) :
    ClosesAt d d' c (conditional n stmt) (conditional (i + n) stmt') := by
  refine (LikeAt.expect (by simp)).close fun start c₁ h₁ => (expr_like n c₁ (by omega)).close fun cond c₂ h₂ => ?_
  exact (LikeAt.expect (by simp)).close fun _ c₃ h₃ => .block hd hd'

theorem whileLoop_like (n : Nat) (hc : c.rest.length ≤ n) :
    ClosesAt d d' c (whileLoop n stmt) (whileLoop (i + n) stmt') := by
  refine (LikeAt.expect (by simp)).close fun start c₁ h₁ => (expr_like n c₁ (by omega)).close fun cond c₂ h₂ => ?_
  exact (LikeAt.expect (by simp)).close fun _ c₃ h₃ => .block hd hd'

theorem expansion_like (n : Nat) (hc : c.rest.length ≤ n) :
    ClosesAt d d' c (expansion n stmt) (expansion (i + n) stmt') := by
  refine (LikeAt.expect (by simp)).close fun keyword c₁ h₁ => ?_
  refine (expansionHead_like n keyword c₁ (by omega)).close fun head c₂ h₂ => ?_
  refine (LikeAt.expect (by simp)).close fun _ c₃ h₃ => (expr_like n c₃ (by omega)).close fun range c₄ h₄ => ?_
  exact (LikeAt.expect (by simp)).close fun _ c₅ h₅ => .block hd hd'

/-- **A line reads the same whatever stands behind it.** -/
theorem stmtWith_like (n : Nat) (hc : c.rest.length ≤ n) (hk : c.kind? ≠ some .newline) :
    ClosesAt d d' c (stmtWith n stmt) (stmtWith (i + n) stmt') := by
  have hmark : ∀ (mark : Keyword) (give : Span → Stmt), ClosesAt d d' c (do
      let place ← expect (.keyword mark)
      lineEnd
      return give place) (do
      let place ← expect (.keyword mark)
      lineEnd
      return give place) := fun _ _ => (LikeAt.expect (by simp)).close fun _ _ _ => .closing
  unfold stmtWith
  refine .peek ?_
  split
  case h_1 => exact (LikeAt.expect (by simp)).close fun _ _ _ => LikeAt.ident.close fun _ _ _ => .closing
  case h_2 => exact typeDef_like n hc
  case h_3 => exact (valDecl_like n c hc).close fun _ _ _ => .closing
  case h_4 => exact cellDef_like hd hd' n hc
  case h_5 => exact conditional_like hd hd' n hc
  case h_6 => exact whileLoop_like hd hd' n hc
  case h_7 => exact expansion_like hd hd' n hc
  case h_8 => exact hmark .breakWord .leave
  case h_9 => exact hmark .continueWord .next
  case h_10 => exact returnStmt_like n hc
  case h_11 =>
    refine (LikeAt.expect (by simp)).close fun start c₁ h₁ => ?_
    exact (expr_like n c₁ (by omega)).close fun _ _ _ => .closing
  case h_12 kind _ _ _ _ _ _ _ _ _ _ _ hkind =>
    have hexpr : ClosesAt d d' c (if startsExpr kind then do
          let e ← expr n
          lineEnd
          return Stmt.expr e
        else do Parse.fail .expectedStatement (← place ⟨0, 0⟩)) (if startsExpr kind then do
          let e ← expr (i + n)
          lineEnd
          return Stmt.expr e
        else do Parse.fail .expectedStatement (← place ⟨0, 0⟩)) := by
      split
      · exact (expr_like n c hc).close fun _ _ _ => .closing
      · exact LikeAt.place.close fun _ _ _ => .fail
    refine .peekSecond hk ?_
    split
    · split
      · exact assignment_like n hc
      · exact hexpr
    · split
      · exact assignment_like n hc
      · exact hexpr
  case h_13 hkind => exact .fail

theorem stmt_like : ∀ n, c.rest.length ≤ n → c.kind? ≠ some .newline →
    ClosesAt d d' c (Grammar.stmt n) (Grammar.stmt (i + n))
  | 0, hc, _ => fun hline => absurd hline.length_pos (by omega)
  | n + 1, hc, hk => stmtWith_like hd hd' (n + 1) hc hk

end

end Grammar
end Unroll
