/-! # Spans

A span is a half-open range of byte offsets into a text.  `Span.ofBounds` never builds one that
ends before it starts. -/

namespace EventCatalog

/-- A half-open range of byte offsets. -/
structure Span where
  start : Nat
  stop : Nat
deriving DecidableEq, Repr, Inhabited

namespace Span

/-- The span between two offsets, empty at `start` if `stop` lies before it. -/
def ofBounds (start stop : Nat) : Span := ⟨start, max stop start⟩

/-- The number of bytes covered. -/
def length (s : Span) : Nat := s.stop - s.start

/-- Whether no byte is covered. -/
def isEmpty (s : Span) : Bool := s.start == s.stop

/-- The least span that covers both. -/
def union (s t : Span) : Span := ofBounds (min s.start t.start) (max s.stop t.stop)

/-- Whether an offset lies in the span or at its end. -/
def touches (s : Span) (offset : Nat) : Bool := s.start ≤ offset && offset ≤ s.stop

end Span

/-- A value together with the place it was written at. -/
structure Located (α : Type) where
  value : α
  span : Span
deriving DecidableEq, Repr

namespace Located

variable {α β : Type}

/-- Changes the value and keeps the place. -/
def map (f : α → β) (x : Located α) : Located β := ⟨f x.value, x.span⟩

end Located

end EventCatalog
