/-! # Places in a source text

A span is a byte offset and a byte length into the UTF-8 form of the text.  Nothing but a message
ever depends on one: two trees that differ in spans alone mean the same program.
-/
namespace Unroll

structure Span where
  offset : Nat
  length : Nat
deriving DecidableEq, Repr, Inhabited

namespace Span

def stop (s : Span) : Nat := s.offset + s.length

/-- The span from `start` up to, not including, `stop`. -/
def between (start stop : Nat) : Span := ⟨start, stop - start⟩

/-- The least span that covers both. -/
def join (a b : Span) : Span := between (min a.offset b.offset) (max a.stop b.stop)

theorem join_self (a : Span) : a.join a = a := by
  cases a; simp [join, between, stop]

end Span

/-- A name together with the place where it was written. -/
structure Ident where
  name : String
  span : Span
deriving DecidableEq, Repr, Inhabited

end Unroll
