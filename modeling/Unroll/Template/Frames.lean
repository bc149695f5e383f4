import Unroll.Diagnostic
/-! # Instantiations under way

A bounded stack.  Refusing a frame beyond the limit is what ends an instantiation that would ask for
itself for ever.
-/
namespace Unroll

structure Frame where
  kind : FrameKind
  span : Span
deriving DecidableEq, Repr

structure Frames where
  /-- Innermost first. -/
  frames : List Frame
  limit : Nat
deriving Repr

namespace Frames

def empty (limit : Nat) : Frames := ⟨[], limit⟩

def depth (s : Frames) : Nat := s.frames.length

def isEmpty (s : Frames) : Bool := s.frames.isEmpty

/-- Up to `most` notes, innermost first. -/
def backtrace (s : Frames) (most : Nat) : List Note :=
  (s.frames.take most).map fun f => ⟨.frame f.kind, f.span⟩

def push (s : Frames) (f : Frame) : Except Diagnostic Frames :=
  if s.depth < s.limit then .ok { s with frames := f :: s.frames }
  else .error ⟨.depthLimit s.limit, f.span, s.backtrace 8⟩

def pop (s : Frames) : Option Frame × Frames := (s.frames.head?, { s with frames := s.frames.tail })

end Frames

end Unroll
