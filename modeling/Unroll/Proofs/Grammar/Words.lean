import Mathlib.Data.List.TakeWhile
import Unroll.Proofs.Outcome
import Unroll.Proofs.Written
import Unroll.Source
/-!
# What is read can be written

The reader takes every name from a token, and the scanner makes the name of a token from letters, digits and
underscores, of which no digit comes first, unless the word is a keyword.
-/
namespace Unroll

/-! ## Tokens -/

/-- A name that the token stands for is one. -/
def Token.Named (t : Token) : Prop := ∀ n, t.kind = .name n → IsName n

namespace Lexeme

theorem word_named {c : Char} {rest : List Char} (hc : startsWord c = true) {n : String}
    (h : (word c rest).1 = .name n) : IsName n := by
  unfold word at h
  dsimp only at h
  split at h
  · cases h
  · rename_i hfree
    injection h with h
    subst h
    refine ⟨⟨c, by rw [String.toList_ofList]; rfl, hc⟩, fun d hd => ?_, hfree⟩
    rw [String.toList_ofList] at hd
    rcases List.mem_cons.1 hd with rfl | hd
    · simp [continuesWord, hc]
    · exact List.mem_takeWhile_imp hd

theorem character_not_name {rest : List Char} {n : String} : (character rest).1 ≠ .ok (.name n) := by
  have hdecoded : ∀ cs, character.decoded cs ≠ .ok (.name n) := by
    intro cs h
    unfold character.decoded at h
    split at h <;> simp at h
  intro h
  unfold character at h
  split at h
  · dsimp only at h
    split at h
    · simp at h
    · split at h
      · exact hdecoded _ h
      · simp at h
  · split at h
    · simp at h
    · exact hdecoded _ h
  · split at h
    · simp at h
    · exact hdecoded _ h
  · simp at h

theorem text_not_name {rest : List Char} {n : String} : (text rest).1 ≠ .ok (.name n) := by
  intro h
  unfold text at h
  split at h
  · simp at h
  · split at h <;> simp at h

theorem scan_named {c : Char} {rest : List Char} {n : String} (h : (scan c rest).1 = .ok (.name n)) : IsName n := by
  unfold scan at h
  split at h
  · rename_i hc
    exact word_named hc (Except.ok.inj h)
  · split at h
    · split at h <;> simp at h
    · split at h
      · exact absurd h text_not_name
      · split at h
        · exact absurd h character_not_name
        · split at h <;> simp at h

end Lexeme

theorem scanLine_named : ∀ {cs : List Char} {depth start : Nat} {ts : List Token} {d : Nat},
    scanLine depth start cs = .ok (ts, d) → ∀ t ∈ ts, t.Named := by
  intro cs depth start
  fun_induction scanLine depth start cs with
  | case1 =>
    intro ts d h
    cases h
    simp
  | case2 depth start c rest hsep ih => exact ih
  | case3 => simp
  | case4 => simp
  | case5 => simp
  | case6 depth start c rest _ n span kind _ _ tokens _ hrest hscan =>
    rename_i ih
    intro ts d h t ht
    cases h
    rcases List.mem_cons.1 ht with rfl | ht
    · rintro m rfl
      exact Lexeme.scan_named (congrArg Prod.fst hscan)
    · exact ih hrest t ht

namespace Layout

theorem mem_appendList {α : Type} {a : α} {as : Array α} {l : List α} : a ∈ as ++ l ↔ a ∈ as ∨ a ∈ l := by
  rw [← Array.mem_toList_iff, Array.toList_appendList, List.mem_append, Array.mem_toList_iff]

/-- Every name among the tokens so far is one. -/
def Named (s : Layout) : Prop := ∀ t ∈ s.tokens, t.Named

theorem align_named {s t : Layout} {l : Line} {column : Nat} (h : s.align l column = .ok t) (hs : s.Named) :
    t.Named := by
  unfold align at h
  split at h
  · cases h
    exact hs
  · dsimp only at h
    split at h
    · cases h
      intro t ht
      rcases Array.mem_push.1 ht with ht | rfl
      · exact hs t ht
      · rintro n ⟨⟩
    · split at h
      · cases h
        intro t ht
        rcases mem_appendList.1 ht with ht | ht
        · exact hs t ht
        · obtain ⟨_, -, rfl⟩ := List.mem_map.1 ht
          rintro n ⟨⟩
      · cases h

theorem line_named {s t : Layout} {l : Line} (h : s.line l = .ok t) (hs : s.Named) : t.Named := by
  unfold line at h
  split at h
  · cases h
    exact hs
  · split at h
    · cases h
    · split at h
      · cases h
        exact hs
      · simp only [Outcome.except_bind_ok, Outcome.except_pure_ok] at h
        obtain ⟨u, hu, ⟨ts, d⟩, hts, rfl⟩ := h
        have hall : ∀ t ∈ u.tokens ++ ts, t.Named := by
          intro t ht
          rcases mem_appendList.1 ht with ht | ht
          · exact align_named hu hs t ht
          · exact scanLine_named hts t ht
        intro t ht
        dsimp only at ht
        split at ht
        · rcases Array.mem_push.1 ht with ht | rfl
          · exact hall t ht
          · rintro n ⟨⟩
        · exact hall t ht

theorem lines_named : ∀ {ls : List Line} {s t : Layout}, ls.foldlM line s = .ok t → s.Named → t.Named
  | [], s, t, h, hs => by
    cases h
    exact hs
  | l :: ls, s, t, h, hs => by
    rw [List.foldlM_cons] at h
    simp only [Outcome.except_bind_ok] at h
    obtain ⟨u, hu, h⟩ := h
    exact lines_named h (line_named hu hs)

theorem finish_named {s : Layout} {stop : Nat} {ts : List Token} (h : s.finish stop = .ok ts) (hs : s.Named) :
    ∀ t ∈ ts, t.Named := by
  unfold finish at h
  dsimp only at h
  split at h
  · cases h
  · cases h
    intro t ht
    simp only [List.mem_append, List.mem_map, List.mem_singleton] at ht
    rcases ht with (ht | ⟨_, -, rfl⟩) | rfl
    · exact hs t (by simpa using ht)
    · rintro n ⟨⟩
    · rintro n ⟨⟩

end Layout

/-- **Every name among the tokens of a text is one.** -/
theorem tokens_named {source : String} {ts : List Token} (h : tokens source = .ok ts) : ∀ t ∈ ts, t.Named := by
  unfold tokens at h
  simp only [Outcome.except_bind_ok] at h
  obtain ⟨s, hs, h⟩ := h
  exact Layout.finish_named h (Layout.lines_named hs (by simp [Layout.Named, Layout.start]))

end Unroll
