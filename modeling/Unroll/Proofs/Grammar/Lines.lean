import Unroll.Proofs.Grammar.Alone
import Unroll.Proofs.Grammar.Recovery
/-!
# Recovery line by line

A line reads the same whatever stands behind it.  So where no line belongs to a block, recovery can be told from what
each line is by itself: it keeps the statement of a line that can be read and reports the fault of one that cannot.
What it loses is the line behind a fault that was met at the end of its own line, or past it: the end is taken then, and
the search for the end of the statement begins in the next line.
-/
namespace Unroll

open Grammar Cursor Outcome

/-- A line that is not empty and begins and ends no block. -/
structure TokenLine where
  content : List Token
  stop : Span
  nonempty : content ≠ []
  plain : ∀ t ∈ content, t.kind.isLayout = false

/-- What a line is by itself: a statement, or a fault, which may have taken the end of the line. -/
inductive Verdict
  | read (stmt : Stmt)
  | faulty (fault : ParseFault) (tookEnd : Bool)

namespace Verdict

def stmt? : Verdict → Option Stmt
  | read s => some s
  | faulty _ _ => none

def fault? : Verdict → Option ParseFault
  | read _ => none
  | faulty fault _ => some fault

/-- The next line is lost with this one. -/
def TakesEnd : Verdict → Prop
  | read _ => False
  | faulty _ tookEnd => tookEnd = true

end Verdict

theorem layout_ne {t : Token} (ht : t.kind.isLayout = false) {kind : TokenKind} (hk : kind.isLayout = true) :
    t.kind ≠ kind := by
  rintro rfl
  cases ht.symm.trans hk

namespace TokenLine

def tokens (l : TokenLine) : List Token := l.content ++ [⟨.newline, l.stop⟩]

def start (l : TokenLine) : Cursor := ⟨l.tokens, l.stop⟩

/-- The line as a whole text. -/
def alone (l : TokenLine) : List Token := l.tokens ++ [⟨.eof, l.stop⟩]

/-- What stands behind the line then. -/
def ending (l : TokenLine) : Cursor := ofTokens [⟨.eof, l.stop⟩]

def verdict (l : TokenLine) : Verdict :=
  match stmt l.alone.length (.ofTokens l.alone) with
  | .error e c => .faulty e.fault (c.rest.all (·.kind ≠ .newline))
  | .ok s _ => .read s

variable {rest : Cursor}

theorem start_inLine (l : TokenLine) : l.start.InLine := ⟨l.content, _, rfl, rfl, l.plain⟩

/-- The line is not over before its first token. -/
theorem start_eq_push (l : TokenLine) : ∃ t m, l.start = push t m ∧ t.kind.isLayout = false ∧ m.InLine := by
  obtain ⟨span, last, hstart⟩ | hfirst := l.start_inLine.cases
  · have hlength := congrArg (fun c => c.rest.length) hstart
    have hpos := List.length_pos_iff.2 l.nonempty
    simp only [start, tokens, List.length_append, List.length_singleton] at hlength
    omega
  · exact hfirst

theorem start_kind? (l : TokenLine) {kind : TokenKind} (hk : kind.isLayout = true) : l.start.kind? ≠ some kind := by
  obtain ⟨t, m, hstart, ht, -⟩ := l.start_eq_push
  rw [hstart]
  exact fun h => layout_ne ht hk (Option.some.inj h)

/-- No block begins with the line. -/
theorem unindented (l : TokenLine) : (rest.onto l.start).Unindented := by
  obtain ⟨t, m, hstart, ht, -⟩ := l.start_eq_push
  rw [hstart]
  exact ⟨t, rest.onto m, rfl, layout_ne ht rfl⟩

/-- The line is not skipped. -/
theorem pastLines_start (l : TokenLine) : pastLines (rest.onto l.start) = rest.onto l.start := by
  obtain ⟨t, m, hstart, ht, -⟩ := l.start_eq_push
  have hline : ¬ decide (t.kind = .newline) = true := by simpa using layout_ne ht rfl
  rw [hstart]
  show pastLines (push t (rest.onto m)) = push t (rest.onto m)
  unfold pastLines
  rw [rest_push, List.dropWhile_cons, if_neg hline]
  rfl

theorem unindented_ending (l : TokenLine) : l.ending.Unindented := ⟨⟨.eof, l.stop⟩, ⟨[], l.stop⟩, rfl, by simp⟩

theorem ofTokens_alone (l : TokenLine) : ofTokens l.alone = l.ending.onto l.start := by
  simp [alone, ending, ofTokens, onto, start]

end TokenLine

/-- What is dropped behind a fault in a line is the rest of the line. -/
theorem recover_onto {c rest : Cursor} (hc : c.InLine) : recover (rest.onto c) = rest := by
  obtain ⟨us, stop, hrest, hstop, hus⟩ := hc
  have hdropped : ∀ t ∈ us, decide (t.kind ≠ .newline ∧ t.kind ≠ .dedent ∧ t.kind ≠ .eof) = true := by
    intro t ht
    rw [decide_eq_true_eq]
    exact ⟨layout_ne (hus t ht) rfl, layout_ne (hus t ht) rfl, layout_ne (hus t ht) rfl⟩
  unfold recover onto
  dsimp only
  rw [hrest, List.append_assoc, List.dropWhile_append_of_pos hdropped, List.singleton_append, List.dropWhile_cons,
    if_neg (by simp [hstop])]
  dsimp only
  rw [if_neg (by simp [hstop])]

/-- **What a round makes of a line**, by what the line is by itself. -/
inductive Takes (l : TokenLine) (rest : Cursor) : Round → Prop
  | read {s : Stmt} (h : l.verdict = .read s) : Takes l rest (.read s rest)
  | inside {e : ParseError} {m : Cursor} (h : l.verdict = .faulty e.fault false) (hm : m.InLine) :
    Takes l rest (.failed e (rest.onto m))
  | past {e : ParseError} {stopped : Cursor} (h : l.verdict = .faulty e.fault true)
      (hstopped : stopped = rest ∨ stopped = rest.drop) : Takes l rest (.failed e stopped)

theorem Cursor.InLine.newline_onto {c d : Cursor} (hc : c.InLine) :
    (d.onto c).rest.all (·.kind ≠ .newline) = false := by
  obtain ⟨us, stop, hrest, hstop, -⟩ := hc
  simp [onto, hrest, hstop]

theorem Cursor.onto_of_nil {c d : Cursor} (hc : c.rest = []) : d.onto c = d := by
  rw [onto, hc]
  rfl

namespace TokenLine

theorem verdict_of_ok {l : TokenLine} {s : Stmt} {c : Cursor} (h : stmt l.alone.length (.ofTokens l.alone) = .ok s c) :
    l.verdict = .read s := by
  rw [verdict, h]

theorem verdict_of_error {l : TokenLine} {e : ParseError} {c : Cursor}
    (h : stmt l.alone.length (.ofTokens l.alone) = .error e c) :
    l.verdict = .faulty e.fault (c.rest.all (·.kind ≠ .newline)) := by
  rw [verdict, h]

/-- **A round takes the line**, whatever stands behind it. -/
theorem takes (l : TokenLine) {rest : Cursor} (hrest : rest.Unindented) {bound : Nat} (hb : l.alone.length ≤ bound) :
    Takes l rest (round bound (rest.onto l.start)) := by
  have hpast : pastLines (rest.onto l.start) = rest.onto l.start := l.pastLines_start
  have hmore : (pastLines (rest.onto l.start)).kind? ≠ some .eof := by
    rw [hpast, l.start_inLine.kind?_onto]
    exact l.start_kind? rfl
  obtain ⟨i, rfl⟩ := Nat.exists_eq_add_of_le' hb
  have hfits : l.start.rest.length ≤ l.alone.length := by simp [start, alone]
  obtain ⟨r, hown, hhere, hr⟩ | ⟨⟨span, hown⟩, ⟨span', hhere⟩⟩ :=
    stmt_like l.unindented_ending hrest l.alone.length hfits (l.start_kind? rfl) l.start_inLine
  · rw [← l.ofTokens_alone] at hown
    rw [← hpast] at hhere
    cases r with
    | ok s c =>
      rw [round_read.2 ⟨hmore, hhere⟩, onto_of_nil hr]
      exact .read (verdict_of_ok hown)
    | error e c =>
      rw [round_failed.2 ⟨hmore, hhere⟩]
      obtain hc | hc := hr
      · exact .inside ((verdict_of_error hown).trans (congrArg _ hc.newline_onto)) hc
      · have htook : (l.ending.onto c).rest.all (·.kind ≠ .newline) = true := by
          rw [onto_of_nil hc]
          rfl
        exact .past ((verdict_of_error hown).trans (congrArg _ htook)) (.inl (onto_of_nil hc))
  · rw [← l.ofTokens_alone] at hown
    rw [← hpast] at hhere
    rw [round_failed.2 ⟨hmore, hhere⟩]
    exact .past (verdict_of_error hown) (.inr rfl)

end TokenLine

/-- The statements and the faults that recovery finds in the lines; it begins by dropping one, where the end of the line
before was taken. -/
def salvaged : Bool → List TokenLine → Program × List ParseFault
  | _, [] => ([], [])
  | true, _ :: ls => salvaged false ls
  | false, l :: ls =>
    match l.verdict with
    | .read s =>
      let (stmts, faults) := salvaged false ls
      (s :: stmts, faults)
    | .faulty fault tookEnd =>
      let (stmts, faults) := salvaged tookEnd ls
      (stmts, fault :: faults)

/-- The lines with the end of the text behind them. -/
def ofLines (ls : List TokenLine) (stop : Span) : List Token := ls.flatMap TokenLine.tokens ++ [⟨.eof, stop⟩]

/-- The cursor before the lines. -/
def atLines (stop : Span) (ls : List TokenLine) : Cursor := .ofTokens (ofLines ls stop)

variable {bound : Nat} {stop : Span}

theorem atLines_eq (ls : List TokenLine) : atLines stop ls = ⟨ofLines ls stop, stop⟩ := by
  simp [atLines, ofTokens, ofLines]

theorem atLines_cons (l : TokenLine) (ls : List TokenLine) :
    atLines stop (l :: ls) = (atLines stop ls).onto l.start := by
  simp [atLines_eq, ofLines, onto, TokenLine.start]

theorem unindented_atLines : ∀ ls : List TokenLine, (atLines stop ls).Unindented
  | [] => ⟨⟨.eof, stop⟩, ⟨[], stop⟩, rfl, by simp⟩
  | l :: ls => by
    rw [atLines_cons]
    exact l.unindented

theorem ahead_atLines (stop : Span) (ls : List TokenLine) : Ahead (atLines stop ls) :=
  ⟨⟨.eof, stop⟩, List.mem_append_right _ (List.mem_singleton_self _), rfl⟩

theorem round_nil : round bound (atLines stop []) = .ended := round_ended.2 rfl

/-- The line is the first one that a round takes. -/
theorem round_cons (l : TokenLine) (ls : List TokenLine) (hb : (atLines stop (l :: ls)).rest.length ≤ bound) :
    Takes l (atLines stop ls) (round bound (atLines stop (l :: ls))) := by
  rw [atLines_cons]
  refine l.takes (unindented_atLines ls) ?_
  simp only [atLines, ofTokens, ofLines, TokenLine.alone, List.flatMap_cons, List.length_append,
    List.length_singleton] at hb ⊢
  omega

theorem salvaged_true : ∀ ls, salvaged true ls = salvaged false (ls.drop 1)
  | [] => rfl
  | _ :: _ => rfl

theorem salvaged_read {l : TokenLine} {s : Stmt} (h : l.verdict = .read s) (ls : List TokenLine) :
    salvaged false (l :: ls) = (s :: (salvaged false ls).1, (salvaged false ls).2) := by
  rw [salvaged, h]

theorem salvaged_faulty {l : TokenLine} {fault : ParseFault} {tookEnd : Bool} (h : l.verdict = .faulty fault tookEnd)
    (ls : List TokenLine) :
    salvaged false (l :: ls) = ((salvaged tookEnd ls).1, fault :: (salvaged tookEnd ls).2) := by
  rw [salvaged, h]

/-- Behind a fault that took the end of its line, the next line is dropped. -/
theorem recover_lines {ls : List TokenLine} {stopped : Cursor} (hahead : Ahead stopped)
    (h : stopped = atLines stop ls ∨ stopped = (atLines stop ls).drop) :
    recover stopped = atLines stop (ls.drop 1) := by
  cases ls with
  | nil =>
    obtain rfl | rfl := h
    · rfl
    · obtain ⟨t, ht, -⟩ := hahead
      exact nomatch ht
  | cons l ls =>
    rw [atLines_cons] at h
    obtain rfl | rfl := h
    · exact recover_onto l.start_inLine
    · obtain ⟨t, m, hstart, -, hm⟩ := l.start_eq_push
      rw [hstart]
      exact recover_onto hm

/-- **Recovery goes from line to line.** -/
theorem recovery_lines : ∀ ls : List TokenLine, Ready bound (atLines stop ls) → ∃ es,
    Recovery bound (atLines stop ls) (salvaged false ls).1 es ∧ es.map (·.fault) = (salvaged false ls).2
  | [], _ => ⟨[], .ended round_nil, rfl⟩
  | l :: ls, hc => by
    have htakes := round_cons l ls hc.fits
    generalize hround : round bound (atLines stop (l :: ls)) = r at htakes
    cases htakes with
    | read h =>
      obtain ⟨es, hnext, hfaults⟩ := recovery_lines ls (hc.next (read_follows hround))
      rw [salvaged_read h]
      exact ⟨es, .read hround hnext, hfaults⟩
    | @inside e m h hm =>
      have hrecover : recover ((atLines stop ls).onto m) = atLines stop ls := recover_onto hm
      obtain ⟨es, hnext, hfaults⟩ := recovery_lines ls (hrecover ▸ hc.next (failed_follows hround))
      rw [salvaged_faulty h]
      exact ⟨e :: es, .failed hround (by rwa [hrecover]), congrArg _ hfaults⟩
    | @past e stopped h hstopped =>
      have hrecover := recover_lines (hc.keeps _ _ _ .refl hround) hstopped
      obtain ⟨es, hnext, hfaults⟩ := recovery_lines (ls.drop 1) (hrecover ▸ hc.next (failed_follows hround))
      rw [salvaged_faulty h, salvaged_true]
      exact ⟨e :: es, .failed hround (by rwa [hrecover]), congrArg _ hfaults⟩
termination_by ls => ls.length

/-! ## What is lost -/

/-- Nothing is made up: the statements are those of lines that can be read by themselves, in order. -/
theorem salvaged_sublist : ∀ (lost : Bool) (ls : List TokenLine),
    (salvaged lost ls).1.Sublist (ls.filterMap fun l => l.verdict.stmt?) ∧
      (salvaged lost ls).2.Sublist (ls.filterMap fun l => l.verdict.fault?)
  | _, [] => ⟨.slnil, .slnil⟩
  | true, l :: ls => by
    obtain ⟨hs, hf⟩ := salvaged_sublist false ls
    refine ⟨hs.trans ?_, hf.trans ?_⟩
    · exact (List.sublist_cons_self l ls).filterMap _
    · exact (List.sublist_cons_self l ls).filterMap _
  | false, l :: ls => by
    cases h : l.verdict with
    | read s =>
      obtain ⟨hs, hf⟩ := salvaged_sublist false ls
      rw [salvaged_read h, List.filterMap_cons_some (by rw [h]; rfl), List.filterMap_cons_none (by rw [h]; rfl)]
      exact ⟨hs.cons_cons s, hf⟩
    | faulty fault tookEnd =>
      obtain ⟨hs, hf⟩ := salvaged_sublist tookEnd ls
      rw [salvaged_faulty h, List.filterMap_cons_none (by rw [h]; rfl), List.filterMap_cons_some (by rw [h]; rfl)]
      exact ⟨hs, hf.cons_cons fault⟩

/-- **A fault costs at most one line more than its own.** -/
theorem salvaged_length : ∀ (lost : Bool) (ls : List TokenLine),
    ls.length ≤ (salvaged lost ls).1.length + 2 * (salvaged lost ls).2.length + lost.toNat
  | _, [] => Nat.zero_le _
  | true, l :: ls => by
    have hls := salvaged_length false ls
    rw [salvaged_true]
    simpa using hls
  | false, l :: ls => by
    cases h : l.verdict with
    | read s =>
      have hls := salvaged_length false ls
      rw [salvaged_read h]
      simp only [List.length_cons] at hls ⊢
      omega
    | faulty fault tookEnd =>
      have hls := salvaged_length tookEnd ls
      have hlost := Bool.toNat_le tookEnd
      rw [salvaged_faulty h]
      simp only [List.length_cons, Bool.toNat_false] at hls ⊢
      omega

/-- Where no fault takes the end of its line, no line is lost. -/
theorem salvaged_all : ∀ {ls : List TokenLine}, (∀ l ∈ ls, ¬ l.verdict.TakesEnd) →
    salvaged false ls = (ls.filterMap fun l => l.verdict.stmt?, ls.filterMap fun l => l.verdict.fault?)
  | [], _ => rfl
  | l :: ls, hl => by
    have hls := salvaged_all (List.forall_mem_cons.1 hl).2
    cases h : l.verdict with
    | read s =>
      rw [salvaged_read h, hls, List.filterMap_cons_some (by rw [h]; rfl), List.filterMap_cons_none (by rw [h]; rfl)]
    | faulty fault tookEnd =>
      have htook : tookEnd = false := by
        have hkept := hl l List.mem_cons_self
        rw [h] at hkept
        exact Bool.eq_false_iff.2 hkept
      rw [salvaged_faulty h, htook, hls, List.filterMap_cons_none (by rw [h]; rfl),
        List.filterMap_cons_some (by rw [h]; rfl)]

/-- No error takes the end mark where none takes the end of its line. -/
theorem keepsEnd_lines : ∀ {ls : List TokenLine}, (atLines stop ls).rest.length ≤ bound →
    (∀ l ∈ ls, ¬ l.verdict.TakesEnd) → KeepsEnd bound (atLines stop ls)
  | [], _, _ => keepsEnd_ended round_nil
  | l :: ls, hb, hl => by
    obtain ⟨hhere, hlater⟩ := List.forall_mem_cons.1 hl
    have hrest : (atLines stop ls).rest.length ≤ bound := by
      rw [atLines_cons, onto, List.length_append] at hb
      omega
    have hnext := keepsEnd_lines hrest hlater
    have htakes := round_cons l ls hb
    generalize hround : round bound (atLines stop (l :: ls)) = r at htakes
    cases htakes with
    | read h => exact keepsEnd_read hround hnext
    | @inside e m h hm =>
      obtain ⟨t, ht, heof⟩ := ahead_atLines stop ls
      refine keepsEnd_failed hround ⟨t, List.mem_append_right _ ht, heof⟩ ?_
      rwa [recover_onto hm]
    | past h => exact absurd (by rw [h]; rfl) hhere

/-- **Recovery of a text of lines**: the statements and the faults are those that the lines have by themselves, but for
the lines that are lost. -/
theorem programRecovered_lines (ls : List TokenLine) (stop : Span) (edition : Option String)
    (hk : KeepsEnd (ofLines ls stop).length (atLines stop ls)) : ∃ errors,
      programRecovered (ofLines ls stop) edition = ((salvaged false ls).1, editionFaults edition ++ errors) ∧
        errors.map (·.fault) = (salvaged false ls).2 := by
  have hready : Ready (ofLines ls stop).length (atLines stop ls) := ⟨Nat.le_refl _, ahead_atLines stop ls, hk⟩
  obtain ⟨errors, hrecovery, hfaults⟩ := recovery_lines ls hready
  have hrecovering : recovering _ _ (.ofTokens (ofLines ls stop)) = _ :=
    recovering_eq hrecovery hready (ofLines ls stop).length (Nat.le_refl _)
  refine ⟨errors, ?_, hfaults⟩
  unfold programRecovered
  rw [hrecovering]

/-- A line that breaks off takes the line behind it along. -/
example : salvaged false [
    ⟨[⟨.keyword .val, ⟨0, 3⟩⟩, ⟨.name "a", ⟨4, 1⟩⟩, ⟨.symbol .assign, ⟨6, 1⟩⟩], ⟨8, 0⟩, by simp, by decide⟩,
    ⟨[⟨.name "b", ⟨8, 1⟩⟩], ⟨10, 0⟩, by simp, by decide⟩] = ([], [.expectedExpression]) := rfl

/-- **Nothing is lost where no fault takes the end of its line**: each line that can be read by itself gives its
statement, each other one its fault. -/
theorem programRecovered_all {ls : List TokenLine} (stop : Span) (edition : Option String)
    (hl : ∀ l ∈ ls, ¬ l.verdict.TakesEnd) : ∃ errors,
      programRecovered (ofLines ls stop) edition =
        (ls.filterMap fun l => l.verdict.stmt?, editionFaults edition ++ errors) ∧
      errors.map (·.fault) = ls.filterMap fun l => l.verdict.fault? := by
  have hrecovered := programRecovered_lines ls stop edition (keepsEnd_lines (Nat.le_refl _) hl)
  rwa [salvaged_all hl] at hrecovered

/-! ## Lines by themselves -/

namespace TokenLine

variable {l : TokenLine} {s : Stmt}

/-- Strict reading begins with the round that takes the line. -/
theorem takes_alone (l : TokenLine) : Takes l l.ending (round l.alone.length (.ofTokens l.alone)) := by
  rw [l.ofTokens_alone]
  exact l.takes l.unindented_ending (Nat.le_refl _)

theorem length_alone (l : TokenLine) : ∃ n, l.alone.length = n + 2 := ⟨l.content.length, by simp [alone, tokens]⟩

/-- A line that is read is a program by itself. -/
theorem program_of_read (h : l.verdict = .read s) : program? l.alone none = .ok [s] := by
  have htakes := l.takes_alone
  generalize hround : round l.alone.length (.ofTokens l.alone) = r at htakes
  cases htakes with
  | inside h' | past h' => exact nomatch h.symm.trans h'
  | read h' =>
    cases h.symm.trans h'
    obtain ⟨hmore, hstmt⟩ := round_read.1 hround
    obtain ⟨n, hn⟩ := l.length_alone
    have hend : programStmts l.alone.length (n + 1) l.ending = .ok [] (pastLines l.ending) := programStmts_ended rfl
    have hstmts : programStmts l.alone.length (n + 2) (.ofTokens l.alone) = .ok [s] (pastLines l.ending) := by
      rw [programStmts_more hmore, bind_of_ok hstmt, bind_of_ok hend]
      rfl
    rw [← hn] at hstmts
    show run (fun n => programStmts n n) l.alone = _
    rw [run, hstmts]

/-- A line that is not read is none, for the same fault. -/
theorem program_of_faulty {fault : ParseFault} {tookEnd : Bool} (h : l.verdict = .faulty fault tookEnd) :
    ∃ span, program? l.alone none = .error ⟨fault, span⟩ := by
  have hfailed : ∃ span c, round l.alone.length (.ofTokens l.alone) = .failed ⟨fault, span⟩ c := by
    have htakes := l.takes_alone
    generalize round l.alone.length (.ofTokens l.alone) = r at htakes
    cases htakes with
    | read h' => exact nomatch h.symm.trans h'
    | @inside e _ h' | @past e _ h' =>
      cases h.symm.trans h'
      exact ⟨e.span, _, rfl⟩
  obtain ⟨span, c, hround⟩ := hfailed
  obtain ⟨hmore, hstmt⟩ := round_failed.1 hround
  obtain ⟨n, hn⟩ := l.length_alone
  have hstmts : programStmts l.alone.length (n + 2) (.ofTokens l.alone) = .error ⟨fault, span⟩ c := by
    rw [programStmts_more hmore]
    exact bind_error.2 (.inl hstmt)
  rw [← hn] at hstmts
  refine ⟨span, ?_⟩
  show run (fun n => programStmts n n) l.alone = _
  rw [run, hstmts]

/-- **A line is read where it is a program by itself.** -/
theorem read_iff : l.verdict = .read s ↔ program? l.alone none = .ok [s] := by
  constructor
  · exact program_of_read
  · intro h
    cases hv : l.verdict with
    | read s' =>
      rw [program_of_read hv] at h
      cases h
      rfl
    | faulty fault tookEnd =>
      obtain ⟨span, herror⟩ := program_of_faulty hv
      exact nomatch herror.symm.trans h

end TokenLine

end Unroll
