/-! Places in a document. Lines and columns count from zero. -/
namespace ListingIndex

structure Position where
  line : Nat
  character : Nat
deriving DecidableEq, Repr

namespace Position

/-- Positions are ordered by line, and on one line by column. -/
instance : LE Position :=
  ⟨fun p q => p.line < q.line ∨ p.line = q.line ∧ p.character ≤ q.character⟩

instance (p q : Position) : Decidable (p ≤ q) :=
  inferInstanceAs (Decidable (p.line < q.line ∨ p.line = q.line ∧ p.character ≤ q.character))

end Position

structure Span where
  start : Position
  stop : Position
deriving DecidableEq, Repr

namespace Span

/-- Both ends belong to the span. -/
def contains (s : Span) (p : Position) : Bool := s.start ≤ p ∧ p ≤ s.stop

def onLine (line first last : Nat) : Span := ⟨⟨line, first⟩, ⟨line, last⟩⟩

def lines (first last : Nat) : Span := ⟨⟨first, 0⟩, ⟨last, 0⟩⟩

end Span

structure Location where
  uri : String
  span : Span
deriving DecidableEq, Repr

/-- Lines from `start` up to but not including `stop`. -/
structure LineRange where
  start : Nat
  stop : Nat
deriving DecidableEq, Repr

end ListingIndex
