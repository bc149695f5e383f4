import Mathlib.Logic.Relation
import Unroll.Proofs.Grammar.Progress
import Unroll.Proofs.Token.Order
/-!
# Reading in spite of errors

Strict reading stops at the first statement that cannot be read; the recovery loop reports it, drops the rest of its
line and goes on.  Up to there both read the same statements.  Each round takes a token and none takes the end mark,
unless an error has done so, so that the loop ends there and reports no more errors than there are tokens.
-/
namespace Unroll.Grammar

open Parse Outcome

/-- Where the next round begins. -/
def Round.next? : Round → Option Cursor
  | .ended => none
  | .read _ c => some c
  | .failed _ c => some (recover c)

section

variable (bound : Nat)

def Follows (c c' : Cursor) : Prop := (round bound c).next? = some c'

/-- Rounds lead from the one cursor to the other. -/
def Reaches : Cursor → Cursor → Prop := Relation.ReflTransGen (Follows bound)

/-- **Rounds from the cursor on come to an end**, with these statements and errors.  Nothing ends on a cursor past the
end mark: there each round fails and leads to the next. -/
inductive Recovery : Cursor → Program → List ParseError → Prop
  | ended {c : Cursor} (h : round bound c = .ended) : Recovery c [] []
  | read {c c' : Cursor} {s : Stmt} {ss : Program} {es : List ParseError} (h : round bound c = .read s c')
      (hnext : Recovery c' ss es) : Recovery c (s :: ss) es
  | failed {c c' : Cursor} {e : ParseError} {ss : Program} {es : List ParseError} (h : round bound c = .failed e c')
      (hnext : Recovery (recover c') ss es) : Recovery c ss (e :: es)

/-- Statements that are read one after the other. -/
inductive Reading : Cursor → Program → Cursor → Prop
  | none (c : Cursor) : Reading c [] c
  | more {c c' c'' : Cursor} {s : Stmt} {ss : Program} (hmore : (pastLines c).kind? ≠ some .eof)
      (h : stmt bound (pastLines c) = .ok s c') (hnext : Reading c' ss c'') : Reading c (s :: ss) c''

/-- The end mark is ahead. -/
def Ahead (c : Cursor) : Prop := ∃ t ∈ c.rest, t.kind = .eof

/-- No error that is met from the cursor on has taken the end mark. -/
def KeepsEnd (c : Cursor) : Prop :=
  ∀ c' e stopped, Reaches bound c c' → round bound c' = .failed e stopped → Ahead stopped

end

variable {bound n : Nat} {c c' stopped : Cursor} {s : Stmt} {ss : Program} {e : ParseError} {es : List ParseError}

/-! ## One round -/

theorem round_ended : round bound c = .ended ↔ (pastLines c).kind? = some .eof := by
  unfold round
  by_cases hend : (pastLines c).kind? = some .eof
  · simp [hend]
  · cases stmt bound (pastLines c) <;> simp [hend]

theorem round_read : round bound c = .read s c' ↔
    (pastLines c).kind? ≠ some .eof ∧ stmt bound (pastLines c) = .ok s c' := by
  unfold round
  by_cases hend : (pastLines c).kind? = some .eof
  · simp [hend]
  · cases stmt bound (pastLines c) <;> simp [hend]

theorem round_failed : round bound c = .failed e stopped ↔
    (pastLines c).kind? ≠ some .eof ∧ stmt bound (pastLines c) = .error e stopped := by
  unfold round
  by_cases hend : (pastLines c).kind? = some .eof
  · simp [hend]
  · cases stmt bound (pastLines c) <;> simp [hend]

/-- Tokens lie between the cursors, none of them the end mark. -/
def Passes (c c' : Cursor) (ts : List Token) : Prop := c.rest = ts ++ c'.rest ∧ ∀ t ∈ ts, t.kind ≠ .eof

theorem Passes.ahead {ts : List Token} (h : Passes c c' ts) (hc : Ahead c) : Ahead c' := by
  obtain ⟨t, ht, hkind⟩ := hc
  rw [h.1] at ht
  obtain ht | ht := List.mem_append.1 ht
  · exact absurd hkind (h.2 t ht)
  · exact ⟨t, ht, hkind⟩

theorem Passes.trans {c'' : Cursor} {ts us : List Token} (h : Passes c c' ts) (h' : Passes c' c'' us) :
    Passes c c'' (ts ++ us) :=
  ⟨by rw [h.1, h'.1, List.append_assoc], List.forall_mem_append.2 ⟨h.2, h'.2⟩⟩

theorem Passes.length {ts : List Token} (h : Passes c c' ts) : c.rest.length = ts.length + c'.rest.length := by
  rw [h.1, List.length_append]

theorem pastLines_passes (c : Cursor) : Passes c (pastLines c) (c.rest.takeWhile (·.kind = .newline)) :=
  ⟨List.takeWhile_append_dropWhile.symm, AdvancesAt.lines_inner c.rest⟩

/-- What is left of a faulty statement is dropped up to its end, and the end with it. -/
theorem recover_passes (hc : Ahead c) :
    ∃ ts, Passes c (recover c) ts ∧ (c.kind? ≠ some .eof → ts ≠ []) := by
  let dropped (t : Token) : Bool := t.kind ≠ .newline ∧ t.kind ≠ .dedent ∧ t.kind ≠ .eof
  have hsplit : c.rest = c.rest.takeWhile dropped ++ c.rest.dropWhile dropped := List.takeWhile_append_dropWhile.symm
  have hinner : ∀ t ∈ c.rest.takeWhile dropped, t.kind ≠ .eof := fun t ht => by
    have hdropped := List.mem_takeWhile_imp ht
    exact (of_decide_eq_true hdropped).2.2
  cases hrest : c.rest.dropWhile dropped with
  | nil =>
    obtain ⟨t, ht, hkind⟩ := hc
    rw [hsplit, hrest, List.append_nil] at ht
    exact absurd hkind (hinner t ht)
  | cons t after =>
    rw [hrest] at hsplit
    by_cases hend : t.kind = .eof
    · have hrecover : (recover c).rest = t :: after := by
        unfold recover
        dsimp only
        rw [hrest]
        exact if_pos hend
      refine ⟨_, ⟨by rw [hrecover]; exact hsplit, hinner⟩, fun hkind hnil => hkind ?_⟩
      rw [hnil, List.nil_append] at hsplit
      rw [Cursor.kind?, hsplit, ← hend]
      rfl
    · have hrecover : (recover c).rest = after := by
        unfold recover
        dsimp only
        rw [hrest]
        exact if_neg hend
      refine ⟨c.rest.takeWhile dropped ++ [t], ⟨by rw [hrecover, List.append_assoc]; exact hsplit, ?_⟩, by simp⟩
      exact List.forall_mem_append.2 ⟨hinner, by simpa using hend⟩

theorem read_passes (hb : c.rest.length ≤ bound) (h : round bound c = .read s c') :
    ∃ ts, Passes c c' ts ∧ ts ≠ [] := by
  have hlines := pastLines_passes c
  have hlength := hlines.length
  obtain ⟨ts, hts, hk, hinner, -⟩ :=
    (stmt_advances bound [] (pastLines c) (by omega)).ok s c' (round_read.1 h).2
  refine ⟨_, hlines.trans ⟨hts, hinner⟩, fun hnil => ?_⟩
  rw [(List.append_eq_nil_iff.1 hnil).2] at hk
  exact absurd hk (by simp)

/-- A round that fails reports a token that it has seen or met. -/
theorem failed_reads (hb : c.rest.length ≤ bound) (h : round bound c = .failed e stopped) :
    ∃ ts, c.rest = ts ++ stopped.rest ∧ (stopped.rest ≠ [] → Begins (ts ++ stopped.rest.take 1) e.span) ∧
      (ts = [] → stopped.kind? ≠ some .eof) := by
  have hlines := pastLines_passes c
  have hlength := hlines.length
  obtain ⟨hmore, hstmt⟩ := round_failed.1 h
  obtain ⟨ts, hts, -, hplace⟩ := (stmt_advances bound [] (pastLines c) (by omega)).error e stopped hstmt
  refine ⟨_, by rw [hlines.1, hts, ← List.append_assoc], fun hne => ?_, fun hnil => ?_⟩
  · refine (hplace hne).mono fun t ht => ?_
    rw [List.append_assoc]
    exact List.mem_append_right _ ht
  · obtain ⟨-, rfl⟩ := List.append_eq_nil_iff.1 hnil
    rwa [Cursor.kind?, ← List.nil_append stopped.rest, ← hts]

theorem follows_iff : Follows bound c c' ↔
    (∃ s, round bound c = .read s c') ∨ ∃ e stopped, round bound c = .failed e stopped ∧ recover stopped = c' := by
  unfold Follows
  cases round bound c <;> simp [Round.next?, and_assoc]

theorem read_follows (h : round bound c = .read s c') : Follows bound c c' := follows_iff.2 (.inl ⟨s, h⟩)

theorem failed_follows (h : round bound c = .failed e stopped) : Follows bound c (recover stopped) :=
  follows_iff.2 (.inr ⟨e, stopped, h, rfl⟩)

/-- Where the recovery loop can go on: the bound covers what is left, and the end mark stays ahead. -/
structure Ready (bound : Nat) (c : Cursor) : Prop where
  fits : c.rest.length ≤ bound
  ahead : Ahead c
  keeps : KeepsEnd bound c

/-- **A round takes a token**. -/
theorem Ready.advances (hc : Ready bound c) (h : Follows bound c c') : ∃ ts, ts ≠ [] ∧ c.rest = ts ++ c'.rest := by
  obtain ⟨s, hr⟩ | ⟨e, stopped, hr, rfl⟩ := follows_iff.1 h
  · obtain ⟨ts, hts, hne⟩ := read_passes hc.fits hr
    exact ⟨ts, hne, hts.1⟩
  · obtain ⟨ts, hts, -, hsame⟩ := failed_reads hc.fits hr
    obtain ⟨us, hus, hdrop⟩ := recover_passes (hc.keeps c e stopped .refl hr)
    refine ⟨ts ++ us, fun hnil => ?_, by rw [hts, hus.1, List.append_assoc]⟩
    obtain ⟨hnil, hunil⟩ := List.append_eq_nil_iff.1 hnil
    exact hdrop (hsame hnil) hunil

theorem Ready.shorter (hc : Ready bound c) (h : Follows bound c c') : c'.rest.length < c.rest.length := by
  obtain ⟨ts, hne, hts⟩ := hc.advances h
  have hpos := List.length_pos_iff.2 hne
  rw [hts, List.length_append]
  omega

/-- **A round leaves the end mark ahead**. -/
theorem Ready.next (hc : Ready bound c) (h : Follows bound c c') : Ready bound c' := by
  have hlt := hc.shorter h
  refine ⟨Nat.le_trans (Nat.le_of_lt hlt) hc.fits, ?_, fun c'' e stopped hr => hc.keeps c'' e stopped (.head h hr)⟩
  obtain ⟨s, hr⟩ | ⟨e, stopped, hr, rfl⟩ := follows_iff.1 h
  · obtain ⟨ts, hts, -⟩ := read_passes hc.fits hr
    exact hts.ahead hc.ahead
  · have hstopped := hc.keeps c e stopped .refl hr
    obtain ⟨us, hus, -⟩ := recover_passes hstopped
    exact hus.ahead hstopped

/-! ## All rounds -/

theorem keepsEnd_of (hhere : ∀ e stopped, round bound c = .failed e stopped → Ahead stopped)
    (hnext : ∀ c', Follows bound c c' → KeepsEnd bound c') : KeepsEnd bound c := by
  intro m e stopped hreaches hfailed
  obtain rfl | ⟨m', hf, hreaches⟩ := Relation.ReflTransGen.cases_head hreaches
  · exact hhere e stopped hfailed
  · exact hnext m' hf m e stopped hreaches hfailed

theorem keepsEnd_ended (h : round bound c = .ended) : KeepsEnd bound c := by
  refine keepsEnd_of (fun e stopped hfailed => ?_) fun m hf => ?_
  · rw [h] at hfailed
    cases hfailed
  · rw [Follows, h] at hf
    cases hf

theorem keepsEnd_read (h : round bound c = .read s c') (hnext : KeepsEnd bound c') : KeepsEnd bound c := by
  refine keepsEnd_of (fun e stopped hfailed => ?_) fun m hf => ?_
  · rw [h] at hfailed
    cases hfailed
  · rw [Follows, h] at hf
    cases hf
    exact hnext

theorem keepsEnd_failed (h : round bound c = .failed e stopped) (hahead : Ahead stopped)
    (hnext : KeepsEnd bound (recover stopped)) : KeepsEnd bound c := by
  refine keepsEnd_of (fun e' stopped' hfailed => ?_) fun m hf => ?_
  · rw [h] at hfailed
    cases hfailed
    exact hahead
  · rw [Follows, h] at hf
    cases hf
    exact hnext

theorem Ready.reaches (hc : Ready bound c) (h : Reaches bound c c') : Ready bound c' := by
  induction h with
  | refl => exact hc
  | tail _ hf ih => exact ih.next hf

/-- **The recovery loop ends** where no error takes the end mark. -/
theorem recovery_ends : ∀ {c : Cursor}, Ready bound c → ∃ ss es, Recovery bound c ss es := by
  intro c hc
  cases hround : round bound c with
  | ended => exact ⟨[], [], .ended hround⟩
  | read s c' =>
    have hlt := hc.shorter (read_follows hround)
    obtain ⟨ss, es, hrest⟩ := recovery_ends (hc.next (read_follows hround))
    exact ⟨s :: ss, es, .read hround hrest⟩
  | failed e stopped =>
    have hlt := hc.shorter (failed_follows hround)
    obtain ⟨ss, es, hrest⟩ := recovery_ends (hc.next (failed_follows hround))
    exact ⟨ss, e :: es, .failed hround hrest⟩
termination_by c => c.rest.length

/-- **Past the end mark the loop never ends.** -/
theorem recovery_rest_ne (h : Recovery bound c ss es) : c.rest ≠ [] := by
  induction h with
  | @ended c h =>
    intro hnil
    have hend := round_ended.1 h
    rw [Cursor.kind?, pastLines, hnil] at hend
    cases hend
  | @read c c' s ss es h =>
    intro hnil
    obtain ⟨ts, hts, hne⟩ := read_passes (by rw [hnil]; exact Nat.zero_le bound) h
    exact hne (List.append_eq_nil_iff.1 (hts.1.symm.trans hnil)).1
  | @failed c stopped e ss es h _ ih =>
    intro hnil
    obtain ⟨ts, hts, -⟩ := failed_reads (by rw [hnil]; exact Nat.zero_le bound) h
    have hstopped := (List.append_eq_nil_iff.1 (hts.symm.trans hnil)).2
    exact ih (by rw [recover, hstopped]; rfl)

theorem Ready.length_pos (hc : Ready bound c) : 0 < c.rest.length := by
  obtain ⟨t, ht, -⟩ := hc.ahead
  exact List.length_pos_of_mem ht

/-- **The bound on the rounds decides nothing**: there are no more rounds than tokens. -/
theorem recovering_eq (h : Recovery bound c ss es) : Ready bound c → ∀ n, c.rest.length ≤ n →
    recovering bound n c = (ss, es) := by
  induction h with
  | ended h =>
    intro hc n hn
    obtain ⟨n, rfl⟩ := Nat.exists_eq_succ_of_ne_zero (Nat.ne_of_gt (Nat.lt_of_lt_of_le hc.length_pos hn))
    rw [recovering, h]
  | read h _ ih =>
    intro hc n hn
    obtain ⟨n, rfl⟩ := Nat.exists_eq_succ_of_ne_zero (Nat.ne_of_gt (Nat.lt_of_lt_of_le hc.length_pos hn))
    have hlt := hc.shorter (read_follows h)
    rw [recovering, h]
    dsimp only
    rw [ih (hc.next (read_follows h)) n (by omega)]
  | failed h _ ih =>
    intro hc n hn
    obtain ⟨n, rfl⟩ := Nat.exists_eq_succ_of_ne_zero (Nat.ne_of_gt (Nat.lt_of_lt_of_le hc.length_pos hn))
    have hlt := hc.shorter (failed_follows h)
    rw [recovering, h]
    dsimp only
    rw [ih (hc.next (failed_follows h)) n (by omega)]

/-- **Fewer errors than tokens.** -/
theorem recovery_few (h : Recovery bound c ss es) : Ready bound c → es.length < c.rest.length := by
  induction h with
  | ended h => exact fun hc => hc.length_pos
  | read h _ ih =>
    intro hc
    have hlt := hc.shorter (read_follows h)
    have hes := ih (hc.next (read_follows h))
    omega
  | failed h _ ih =>
    intro hc
    have hlt := hc.shorter (failed_follows h)
    have hes := ih (hc.next (failed_follows h))
    rw [List.length_cons]
    omega

/-- **Errors are reported in order**, each where a token that is left begins. -/
theorem recovery_sorted (h : Recovery bound c ss es) : Ready bound c → Ascending c.rest →
    (es.map (·.span.offset)).Pairwise (· ≤ ·) ∧ ∀ e ∈ es, Begins c.rest e.span := by
  induction h with
  | ended => exact fun _ _ => ⟨.nil, by simp⟩
  | read h _ ih =>
    intro hc hsorted
    have hf := read_follows h
    obtain ⟨ts, -, hts⟩ := hc.advances hf
    rw [hts] at hsorted ⊢
    obtain ⟨hes, hplaces⟩ := ih (hc.next hf) hsorted.of_append
    exact ⟨hes, fun e he => (hplaces e he).mono (List.subset_append_right _ _)⟩
  | @failed c stopped e ss es h _ ih =>
    intro hc hsorted
    have hstopped := hc.keeps c e stopped .refl h
    obtain ⟨ts, hts, hplace, -⟩ := failed_reads hc.fits h
    obtain ⟨us, ⟨hus, -⟩, -⟩ := recover_passes hstopped
    have hleft : (recover stopped).rest ⊆ stopped.rest := by
      rw [hus]
      exact List.subset_append_right _ _
    have he : Begins (ts ++ stopped.rest.take 1) e.span := by
      obtain ⟨t, ht, -⟩ := hstopped
      exact hplace (List.ne_nil_of_mem ht)
    rw [hts] at hsorted ⊢
    have hlater : Ascending (recover stopped).rest := by
      have hrest := hsorted.of_append
      rw [hus] at hrest
      exact hrest.of_append
    obtain ⟨hes, hplaces⟩ := ih (hc.next (failed_follows h)) hlater
    refine ⟨List.pairwise_cons.2 ⟨?_, hes⟩, List.forall_mem_cons.2 ⟨?_, fun e' he' => ?_⟩⟩
    · simp only [List.mem_map, forall_exists_index, and_imp, forall_apply_eq_imp_iff₂]
      intro e' he'
      obtain ⟨t, ht, hte⟩ := he
      obtain ⟨u, hu, hue⟩ := hplaces e' he'
      rw [← hte, ← hue]
      exact hsorted.le ht (hleft hu)
    · have hseen := List.Subset.trans (List.take_subset 1 stopped.rest) (List.subset_append_right ts _)
      exact he.mono (List.append_subset.2 ⟨List.subset_append_left _ _, hseen⟩)
    · exact (hplaces e' he').mono (List.Subset.trans hleft (List.subset_append_right _ _))

/-! ## Strict reading -/

theorem skipNewlines_bind {α : Type} (f : Unit → Parse α) : (skipNewlines >>= f) c = f () (pastLines c) := rfl

theorem programStmts_ended (hend : (pastLines c).kind? = some .eof) :
    programStmts bound (n + 1) c = .ok [] (pastLines c) := by
  rw [programStmts, skipNewlines_bind, peek_bind, hend]
  rfl

theorem programStmts_more (hmore : (pastLines c).kind? ≠ some .eof) : programStmts bound (n + 1) c =
    (stmt bound >>= fun s => programStmts bound n >>= fun ss => pure (s :: ss)) (pastLines c) := by
  rw [programStmts, skipNewlines_bind, peek_bind]
  cases hkind : (pastLines c).kind? with
  | none => rfl
  | some k =>
    cases k with
    | eof => exact absurd hkind hmore
    | _ => rfl

/-- **A program that is read strictly** is read statement by statement up to the end mark. -/
theorem programStmts_ok : ∀ {n c c' ss}, c.rest.length ≤ n → n ≤ bound → programStmts bound n c = .ok ss c' →
    ∃ c'', Reading bound c ss c'' ∧ round bound c'' = .ended
  | 0, c, c', ss, _, _, h => by
    obtain ⟨_, _, hs, -⟩ := bind_ok.1 h
    exact absurd hs fail_ok
  | n + 1, c, c', ss, hc, hn, h => by
    by_cases hend : (pastLines c).kind? = some .eof
    · rw [programStmts_ended hend] at h
      cases h
      exact ⟨c, .none c, round_ended.2 hend⟩
    · rw [programStmts_more hend] at h
      obtain ⟨s, m, hs, h⟩ := bind_ok.1 h
      obtain ⟨ss, m', hss, h⟩ := bind_ok.1 h
      obtain ⟨rfl, rfl⟩ := pure_ok.1 h
      obtain ⟨ts, hts, hne⟩ := read_passes (by omega) (round_read.2 ⟨hend, hs⟩)
      have hlength := hts.length
      have hpos := List.length_pos_iff.2 hne
      obtain ⟨c'', hreading, hended⟩ := programStmts_ok (by omega) (by omega) hss
      exact ⟨c'', .more hend hs hreading, hended⟩

/-- **A program that cannot be read strictly** is read up to the statement at fault. -/
theorem programStmts_error : ∀ {n c c' e}, c.rest.length ≤ n → n ≤ bound → Ahead c →
    programStmts bound n c = .error e c' → ∃ read c'', Reading bound c read c'' ∧ round bound c'' = .failed e c'
  | 0, c, c', e, hc, _, ⟨t, ht, _⟩, _ => by
    have hpos := List.length_pos_of_mem ht
    omega
  | n + 1, c, c', e, hc, hn, hahead, h => by
    by_cases hend : (pastLines c).kind? = some .eof
    · rw [programStmts_ended hend] at h
      cases h
    · rw [programStmts_more hend] at h
      obtain hs | ⟨s, m, hs, h⟩ := bind_error.1 h
      · exact ⟨[], c, .none c, round_failed.2 ⟨hend, hs⟩⟩
      · obtain h | ⟨_, _, _, h⟩ := bind_error.1 h
        · obtain ⟨ts, hts, hne⟩ := read_passes (by omega) (round_read.2 ⟨hend, hs⟩)
          have hlength := hts.length
          have hpos := List.length_pos_iff.2 hne
          obtain ⟨read, c'', hreading, hfailed⟩ := programStmts_error (by omega) (by omega) (hts.ahead hahead) h
          exact ⟨s :: read, c'', .more hend hs hreading, hfailed⟩
        · exact absurd h pure_error

/-- Recovery goes on where the statements end that can be read. -/
theorem recovery_append {read : Program} (h : Reading bound c read c') (hrest : Recovery bound c' ss es) :
    Recovery bound c (read ++ ss) es := by
  induction h with
  | none => exact hrest
  | more hmore h _ ih => exact .read (round_read.2 ⟨hmore, h⟩) (ih hrest)

theorem reading_reaches {read : Program} (h : Reading bound c read c') : Reaches bound c c' := by
  induction h with
  | none => exact .refl
  | more hmore h _ ih => exact .head (read_follows (round_read.2 ⟨hmore, h⟩)) ih

/-- Where nothing is at fault, nothing takes the end mark. -/
theorem reading_keeps {read : Program} (h : Reading bound c read c') (hended : round bound c' = .ended) :
    KeepsEnd bound c := by
  induction h with
  | none c => exact keepsEnd_ended hended
  | more hmore h _ ih => exact keepsEnd_read (round_read.2 ⟨hmore, h⟩) (ih hended)

end Unroll.Grammar

namespace Unroll

open Grammar Outcome

variable {source : String} {ts : List Token} {edition : Option String}

/-- What strict reading had read before it met the error: nothing, where the edition is at fault. -/
inductive StopsAfter (tokens : List Token) (edition : Option String) : Program → ParseError → Prop
  | edition {e : ParseError} (h : checkEdition edition = .error e) : StopsAfter tokens edition [] e
  | stmt {read : Program} {c c' : Cursor} {e : ParseError} (h : checkEdition edition = .ok ())
      (hread : Reading tokens.length (.ofTokens tokens) read c) (hmore : (pastLines c).kind? ≠ some .eof)
      (hstop : Grammar.stmt tokens.length (pastLines c) = .error e c') : StopsAfter tokens edition read e

/-- The recovery loop over all of the tokens comes to an end, and with this. -/
def RecoversTo (tokens : List Token) (edition : Option String) (p : Program) (errors : List ParseError) : Prop :=
  ∃ found, errors = editionFaults edition ++ found ∧ Recovery tokens.length (.ofTokens tokens) p found

theorem ahead_ofTokens (h : tokens source = .ok ts) : Ahead (.ofTokens ts) := by
  obtain ⟨front, -, rfl⟩ := tokens_between h
  exact ⟨_, List.mem_append_right _ (List.mem_singleton_self _), rfl⟩

theorem ready_ofTokens (h : tokens source = .ok ts) (hk : KeepsEnd ts.length (.ofTokens ts)) :
    Ready ts.length (.ofTokens ts) := ⟨Nat.le_refl _, ahead_ofTokens h, hk⟩

theorem programRecovered_eq {p : Program} {errors : List ParseError} (h : tokens source = .ok ts)
    (hk : KeepsEnd ts.length (.ofTokens ts)) (hr : RecoversTo ts edition p errors) :
    programRecovered ts edition = (p, errors) := by
  obtain ⟨found, rfl, hfound⟩ := hr
  unfold programRecovered
  rw [recovering_eq hfound (ready_ofTokens h hk) ts.length (Nat.le_refl _)]

/-- **A program that is read strictly is what recovery gives**, without an error. -/
theorem recovers_of_read {p : Program} (h : tokens source = .ok ts) (hp : program? ts edition = .ok p) :
    RecoversTo ts edition p [] ∧ programRecovered ts edition = (p, []) := by
  unfold program? run at hp
  obtain ⟨⟨⟩, hedition, hrun⟩ := except_bind_ok.1 hp
  split at hrun
  case h_1 ss c' hstmts =>
    cases hrun
    obtain ⟨c, hread, hended⟩ := programStmts_ok (c := .ofTokens ts) (Nat.le_refl _) (Nat.le_refl _) hstmts
    have hrecovers : RecoversTo ts edition p [] := by
      refine ⟨[], by rw [editionFaults, hedition]; rfl, ?_⟩
      have hall := recovery_append hread (.ended hended)
      rwa [List.append_nil] at hall
    exact ⟨hrecovers, programRecovered_eq h (reading_keeps hread hended) hrecovers⟩
  case h_2 => cases hrun

theorem editionFaults_cases (edition : Option String) :
    editionFaults edition = [] ∨ ∃ fault, editionFaults edition = [⟨fault, ⟨0, 0⟩⟩] := by
  unfold editionFaults checkEdition
  cases edition with
  | none => exact .inl rfl
  | some name =>
    dsimp only
    by_cases hname : supportedEditions.contains name = true
    · rw [if_pos hname]
      exact .inl rfl
    · rw [if_neg hname]
      exact .inr ⟨_, rfl⟩

theorem recoversTo_few {p : Program} {errors : List ParseError} (hready : Ready ts.length (.ofTokens ts))
    (h : RecoversTo ts edition p errors) : errors.length ≤ ts.length + 1 := by
  obtain ⟨found, rfl, hfound⟩ := h
  have hfew : found.length < ts.length := recovery_few hfound hready
  rw [List.length_append]
  obtain hedition | ⟨fault, hedition⟩ := editionFaults_cases edition <;> rw [hedition] <;> simp <;> omega

theorem recoversTo_sorted {p : Program} {errors : List ParseError} (hready : Ready ts.length (.ofTokens ts))
    (hsorted : Ascending ts) (h : RecoversTo ts edition p errors) :
    (errors.map (·.span.offset)).Pairwise (· ≤ ·) := by
  obtain ⟨found, rfl, hfound⟩ := h
  have hfoundSorted := (recovery_sorted hfound hready hsorted).1
  obtain hedition | ⟨fault, hedition⟩ := editionFaults_cases edition
  · rwa [hedition]
  · rw [hedition]
    exact List.pairwise_cons.2 ⟨fun _ _ => Nat.zero_le _, hfoundSorted⟩

/-- What recovery makes of tokens where strict reading ends in the error `e`. -/
structure Agreement (tokens : List Token) (edition : Option String) (e : ParseError) (read rest : Program)
    (errors : List ParseError) : Prop where
  stops : StopsAfter tokens edition read e
  ends : RecoversTo tokens edition (read ++ rest) (e :: errors)
  result : programRecovered tokens edition = (read ++ rest, e :: errors)
  advances : ∀ c c', Reaches tokens.length (.ofTokens tokens) c → Follows tokens.length c c' →
    ∃ ts, ts ≠ [] ∧ c.rest = ts ++ c'.rest
  few : (e :: errors).length ≤ tokens.length + 1
  sorted : ((e :: errors).map (·.span.offset)).Pairwise (· ≤ ·)

/-- **Recovery goes on from where strict reading stops**, with its error. -/
theorem recovers_of_stops {e : ParseError} {read : Program} (h : tokens source = .ok ts)
    (hk : KeepsEnd ts.length (.ofTokens ts)) (hs : StopsAfter ts edition read e) :
    ∃ rest errors, RecoversTo ts edition (read ++ rest) (e :: errors) := by
  have hready := ready_ofTokens h hk
  cases hs with
  | edition hedition =>
    obtain ⟨p, found, hfound⟩ := recovery_ends hready
    exact ⟨p, found, found, by rw [editionFaults, hedition]; rfl, hfound⟩
  | @stmt read c c' e hedition hread hmore hstop =>
    have hfailed := round_failed.2 ⟨hmore, hstop⟩
    have hnext := (hready.reaches (reading_reaches hread)).next (failed_follows hfailed)
    obtain ⟨rest, found, hfound⟩ := recovery_ends hnext
    refine ⟨rest, found, e :: found, by rw [editionFaults, hedition]; rfl, ?_⟩
    exact recovery_append hread (.failed hfailed hfound)

theorem stops_of_error {e : ParseError} (h : tokens source = .ok ts) (he : program? ts edition = .error e) :
    ∃ read, StopsAfter ts edition read e := by
  unfold program? at he
  cases hedition : checkEdition edition with
  | error e' =>
    rw [hedition] at he
    cases he
    exact ⟨[], .edition hedition⟩
  | ok u =>
    rw [hedition] at he
    replace he : run (fun n => programStmts n n) ts = .error e := he
    unfold run at he
    split at he
    case h_1 => cases he
    case h_2 e' c' hstmts =>
      cases he
      obtain ⟨read, c, hread, hfailed⟩ :=
        programStmts_error (c := .ofTokens ts) (Nat.le_refl _) (Nat.le_refl _) (ahead_ofTokens h) hstmts
      obtain ⟨hmore, hstop⟩ := round_failed.1 hfailed
      exact ⟨read, .stmt hedition hread hmore hstop⟩

/-- **Recovery agrees with strict reading.**  A program that can be read comes back without an error.  Where strict
reading ends in an error, and no error takes the end mark, recovery ends: it begins with the statements and the error
of strict reading, each round takes a token, and the errors are few and in order. -/
theorem recovery_agrees (source : String) (ts : List Token) (edition : Option String) (h : tokens source = .ok ts) :
    (∀ p, program? ts edition = .ok p → RecoversTo ts edition p [] ∧ programRecovered ts edition = (p, [])) ∧
    ∀ e, program? ts edition = .error e → KeepsEnd ts.length (.ofTokens ts) →
      ∃ read rest errors, Agreement ts edition e read rest errors := by
  refine ⟨fun p hp => recovers_of_read h hp, fun e he hk => ?_⟩
  obtain ⟨read, hs⟩ := stops_of_error h he
  obtain ⟨rest, errors, hr⟩ := recovers_of_stops h hk hs
  have hready := ready_ofTokens h hk
  exact ⟨read, rest, errors, hs, hr, programRecovered_eq h hk hr, fun c c' hc hf => (hready.reaches hc).advances hf,
    recoversTo_few hready hr, recoversTo_sorted hready (tokens_ascending h) hr⟩

/-- A fault between two statements. -/
def faultyTokens : List Token :=
  [⟨.name "a", ⟨0, 1⟩⟩, ⟨.newline, ⟨2, 0⟩⟩, ⟨.symbol .plus, ⟨2, 1⟩⟩, ⟨.newline, ⟨4, 0⟩⟩, ⟨.name "b", ⟨4, 1⟩⟩,
    ⟨.newline, ⟨6, 0⟩⟩, ⟨.eof, ⟨6, 0⟩⟩]

theorem recovery_agrees_faulty :
    tokens "a\n+\nb\n" = .ok faultyTokens ∧
    program? faultyTokens none = .error ⟨.expectedStatement, ⟨2, 1⟩⟩ ∧
    KeepsEnd faultyTokens.length (.ofTokens faultyTokens) ∧
    ∃ read rest errors, Agreement faultyTokens none ⟨.expectedStatement, ⟨2, 1⟩⟩ read rest errors := by
  have htokens : tokens "a\n+\nb\n" = .ok faultyTokens := by
    have h : (tokens "a\n+\nb\n").toOption = some faultyTokens := by decide +kernel
    cases hts : tokens "a\n+\nb\n" with
    | error e =>
      rw [hts] at h
      cases h
    | ok ts =>
      rw [hts] at h
      exact congrArg Except.ok (Option.some.inj h)
  have herror : program? faultyTokens none = .error ⟨.expectedStatement, ⟨2, 1⟩⟩ := rfl
  have hkeeps : KeepsEnd faultyTokens.length (.ofTokens faultyTokens) := by
    refine keepsEnd_read rfl (keepsEnd_failed rfl ?_ (keepsEnd_read rfl (keepsEnd_ended rfl)))
    exact ⟨⟨.eof, ⟨6, 0⟩⟩, by decide, rfl⟩
  exact ⟨htokens, herror, hkeeps, (recovery_agrees _ _ none htokens).2 _ herror hkeeps⟩

end Unroll
