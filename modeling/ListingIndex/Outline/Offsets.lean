import ListingIndex.Outline.Basic
import ListingIndex.Text.Numeral

/-! Storage offsets: the statements of control sections with their addresses, and where in their
section they stand. -/
namespace ListingIndex

open Text

namespace Listing

/-- An address, and its distance from the start of the section that holds it. -/
def offsetName (l : Listing) (address : UInt32) : Text :=
  "Offset ".toList ++ wordHex address ++
    match l.controlSectionAt? address with
    | some c => " (".toList ++ c.name ++ "+".toList ++ wordHex (address - c.address) ++ ")".toList
    | none => []

def offsetLeaf? (l : Listing) (statement : Nat) (s : StatementLine) : Option OutlineNode :=
  if l.sectionMap.isControl statement then s.address.map fun address => .leaf (l.offsetName address) s.line
  else none

def offsetLeaves (l : Listing) : List OutlineNode :=
  l.statements.toList.filterMap fun (statement, s) => l.offsetLeaf? statement s

end Listing

def offsets (listings : List Listing) : List OutlineNode :=
  (numbered listings).map fun (name, l) => ⟨name, .listing, l.span, l.offsetLeaves⟩

end ListingIndex
