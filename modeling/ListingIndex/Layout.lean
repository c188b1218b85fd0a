/-! The two column layouts of the object code listing. -/
namespace ListingIndex

/-- Short lines have 24-bit locations, long ones 32-bit locations. -/
inductive Layout where
  | short
  | long
deriving DecidableEq, Repr

namespace Layout

/-- Digits of the location counter at the start of a line. -/
def locationWidth : Layout → Nat
  | short => 6
  | long => 8

/-- Columns between the location and the statement number: object code and operand addresses. -/
def objectWidth : Layout → Nat
  | short => 26
  | long => 32

/-- Digits of an operand address. -/
def operandWidth : Layout → Nat
  | short => 5
  | long => 8

/-- Column of the first source character, without the indicator column. -/
def sourceColumn : Layout → Nat
  | short => 40
  | long => 49

/-- Column of the continuation sentinel, without the indicator column. -/
def sentinelColumn : Layout → Nat
  | short => 111
  | long => 120

end Layout

/-- Columns of a source record in the listing, its sentinel included. -/
def sourceWidth : Nat := 72

end ListingIndex
