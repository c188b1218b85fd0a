import ListingIndex.Line.Field

/-! Lines of the using map: the statement of a base register instruction, and where it stands. -/
namespace ListingIndex.Line

open Text Column

structure Using where
  statement : Nat
  location : UInt32
  sectionId : Int32
deriving DecidableEq, Repr

namespace Using

def actions : List Text := ["USING".toList, "DROP".toList, "PUSH".toList, "POP".toList]

def read? (s : Text) : Option Using := do
  let (digits, s) ← run isDecimal (s.dropWhile isSpace)
  let (_, s) ← exactly isSpace 2 s
  let (location, s) ← exactly isHex 8 s
  let (_, s) ← exactly isSpace 2 s
  let (id, s) ← exactly isHex 8 s
  let s ← space s
  let s ← actions.findSome? fun action => word action s
  let _ ← space s
  let statement ← decimal? digits
  some ⟨statement, hexWord location, signedWord id⟩

end Using

def using? (indicator : Bool) (line : Text) : Option Using :=
  (behindIndicator indicator line).bind Using.read?

end ListingIndex.Line
