import ListingIndex.Text.Numeral

/-! Lists of references: statement numbers, each with a letter that tells what the statement does to
the symbol, if it does more than read it. -/
namespace ListingIndex.Line

open Text

structure Reference where
  statement : Nat
  role : Option Char
deriving DecidableEq, Repr

namespace Reference

/-- Branch, drop, modification, base register, execution. -/
def isRole (c : Char) : Bool := "BDMUX".toList.contains c

def isPure (r : Reference) : Bool := r.role.isNone

/-- The reference that a number and the role behind it make; a number that needs more than 32 bits
makes none. -/
def ofNumber? (value : Option Nat) (role : Option Char) : Option Reference :=
  (value.filter (· < wordLimit)).map fun statement => ⟨statement, role⟩

/-- Reads on with the value of the digits directly in front, if there are any. -/
def readFrom : Option Nat → Text → List Reference
  | value, [] => (ofNumber? value none).toList
  | value, c :: s =>
    if isDecimal c then readFrom (some (10 * value.getD 0 + digitValue c)) s
    else (ofNumber? value (if isRole c then some c else none)).toList ++ readFrom none s

/-- Every longest run of digits in a text, with the role letter behind it. -/
def readAll (s : Text) : List Reference := readFrom none s

end Reference
end ListingIndex.Line
