/-
# Spans of source text

A span is a start and a length, both counted in bytes of the UTF-8 form of the text.

Key definitions: `Span`, `Span.stop`, `Span.contains`.
-/
namespace TypeResolution

/-- A stretch of text. -/
structure Span where
  start : Nat
  length : Nat
deriving DecidableEq, Inhabited

namespace Span

/-- The first position after the span. -/
def stop (s : Span) : Nat := s.start + s.length

/-- The span from `start` up to `stop`. -/
def ofBounds (start stop : Nat) : Span := ⟨start, stop - start⟩

/-- A span without text. -/
def isEmpty (s : Span) : Bool := s.length == 0

/-- The positions of a span are those from its start up to, and without, its stop. -/
def contains (s : Span) (position : Nat) : Bool := s.start ≤ position && position < s.stop

/-- The half-open interval, as it stands in a locator. -/
def render (s : Span) : String := s!"[{s.start}, {s.stop})"

/-- The bounds alone. -/
def renderBounds (s : Span) : String := s!"{s.start}..{s.stop}"

theorem ofBounds_start_stop (s : Span) : ofBounds s.start s.stop = s := by
  simp [ofBounds, stop]

end Span
end TypeResolution
