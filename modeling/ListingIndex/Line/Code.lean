import ListingIndex.Layout
import ListingIndex.Line.Field

/-! Lines of object code: location, object code with operand addresses, statement number, and the
source statement with its label. -/
namespace ListingIndex.Line

open Text Column

structure Code where
  address : Option UInt32
  object : Text
  statement : Nat
  label : Option Text
deriving DecidableEq, Repr

namespace Code

/-- A label starts in the first source column and a space ends it. -/
def label? (source : Text) : Option Text := do
  let (label, rest) ← name source
  let _ ← space rest
  some label

/-- One column that holds no digit divides the statement number from the source statement. -/
def read? (layout : Layout) (s : Text) : Option Code := do
  let (address, s) ← hexOrBlank layout.locationWidth s
  let s ← space s
  let (object, s) ← exactly isFree layout.objectWidth s
  let (digits, s) ← run isDecimal (s.dropWhile isSpace)
  let source ← s.tail?
  let statement ← decimal? digits
  some ⟨address.map hexWord, object, statement, label? source⟩

/-- Whether the object code columns hold two operand addresses and nothing else. -/
def isAddressPair (layout : Layout) (object : Text) : Bool :=
  (do
    let (_, s) ← exactly isSpace 15 object
    let (_, s) ← exactly isHex layout.operandWidth s
    let s ← space s
    let (_, s) ← exactly isHex layout.operandWidth s
    if s.isEmpty then some s else none).isSome

/-- A statement that starts or resumes a section shows the section's bounds in place of object
code. -/
def startsSection (layout : Layout) (l : Code) : Bool :=
  l.address.isSome && isAddressPair layout l.object

end Code

def code? (layout : Layout) (indicator : Bool) (line : Text) : Option Code :=
  (behindIndicator indicator line).bind (Code.read? layout)

end ListingIndex.Line
