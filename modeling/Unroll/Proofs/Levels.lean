import Mathlib.Data.List.Basic
import Unroll.Template.Arg
/-!
# What levels answer

A level answers for its own names, with the arguments in their places, and the innermost level that answers decides.  A
level that is left alone answers for nothing, so it does not matter how many of them stand in front.
-/
namespace Unroll

section

variable {names : List String} {args : List TemplateArg} {n : String}

/-- Only names of the level are answered, and with its arguments. -/
theorem level_names {a : TemplateArg} (h : (names.idxOf? n).bind (args[·]?) = some a) : n ∈ names ∧ a ∈ args := by
  obtain ⟨i, hi, ha⟩ := Option.bind_eq_some_iff.1 h
  obtain ⟨hlt, hget, -⟩ := List.idxOf?_eq_some_iff.1 hi
  exact ⟨hget ▸ List.getElem_mem hlt, List.mem_of_getElem? ha⟩

theorem level_none (h : n ∉ names) : (names.idxOf? n).bind (args[·]?) = none := by
  rw [List.idxOf?_eq_none_iff.2 h]
  rfl

/-- With as many arguments as names, all of them are. -/
theorem level_some (hlen : args.length = names.length) (h : n ∈ names) :
    ∃ a, (names.idxOf? n).bind (args[·]?) = some a := by
  obtain ⟨i, hi⟩ := Option.isSome_iff_exists.1 (List.isSome_idxOf?.2 h)
  obtain ⟨hlt, -⟩ := List.idxOf?_eq_some_iff.1 hi
  rw [← hlen] at hlt
  refine ⟨args[i], ?_⟩
  rw [hi, Option.bind_some, List.getElem?_eq_getElem hlt]

end

namespace ArgLevels

/-- Levels that are left alone answer for no name. -/
theorem lookup?_retaining_append (k : Nat) (ls : ArgLevels) (n : String) :
    lookup? (retaining k ++ ls) n = lookup? ls n := by
  have hnone : (retaining k).reverse.findSome? (·.lookup? n) = none := by
    rw [List.findSome?_eq_none_iff]
    intro l hl
    rw [List.mem_reverse, retaining, List.mem_replicate] at hl
    rw [hl.2]
    rfl
  unfold lookup?
  rw [List.reverse_append, List.findSome?_append, hnone, Option.or_none]

theorem lookup?_retaining (k : Nat) (n : String) : lookup? (retaining k) n = none := by
  have h := lookup?_retaining_append k [] n
  rw [List.append_nil] at h
  exact h

/-- **The last level is asked first.** -/
theorem lookup?_bind (ls : ArgLevels) (names : List String) (args : List TemplateArg) (n : String) :
    lookup? (ls.bind names args) n = ((names.idxOf? n).bind (args[·]?)).or (lookup? ls n) := by
  unfold lookup? bind
  rw [List.reverse_append, List.reverse_singleton, List.singleton_append, List.findSome?_cons]
  cases h : (ArgLevel.bound names args).lookup? n with
  | none => rw [show (names.idxOf? n).bind (args[·]?) = none from h, Option.none_or]
  | some a => rw [show (names.idxOf? n).bind (args[·]?) = some a from h, Option.some_or]

/-- One level, with others in front of it that are left alone. -/
theorem lookup?_retaining_bind (k : Nat) (names : List String) (args : List TemplateArg) (n : String) :
    lookup? ((retaining k).bind names args) n = (names.idxOf? n).bind (args[·]?) := by
  rw [lookup?_bind, lookup?_retaining, Option.or_none]

/-- One level alone. -/
theorem lookup?_bind_nil (names : List String) (args : List TemplateArg) (n : String) :
    lookup? (bind [] names args) n = (names.idxOf? n).bind (args[·]?) :=
  lookup?_retaining_bind 0 names args n

end ArgLevels

end Unroll
