/-! Control sections hold the program's code and data; dummy sections only describe storage. -/
namespace ListingIndex

inductive SectionClass where
  | control
  | dummy
deriving DecidableEq, Repr

namespace SectionClass

def isDummy : SectionClass → Bool
  | control => false
  | dummy => true

/-- The assembler numbers dummy sections below zero. -/
def ofId (id : Int32) : SectionClass := if id < 0 then dummy else control

theorem ofId_eq_dummy_iff {id : Int32} : ofId id = dummy ↔ id < 0 := by
  simp [ofId]

theorem ofId_eq_control_iff {id : Int32} : ofId id = control ↔ 0 ≤ id := by
  rw [← Int32.not_lt]
  simp [ofId]

end SectionClass
end ListingIndex
