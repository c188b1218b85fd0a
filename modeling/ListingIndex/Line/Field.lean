import ListingIndex.Text.Column
import ListingIndex.Text.Numeral

/-! Fields that several kinds of printed line share: the indicator column, symbol names, and words
that may be left blank. -/
namespace ListingIndex.Line

open Text Column

/-- The line behind its indicator column, where lines have one. -/
def behindIndicator (indicator : Bool) (line : Text) : Option Text :=
  if indicator then (exactly isFree 1 line).map (·.2) else some line

/-- A symbol name, as long as it goes. -/
def name (s : Text) : Option (Text × Text) :=
  if s.head?.any isSymbolStart then run isSymbolChar s else none

/-- Names up to this length stand on the line of their entry; longer ones have a line of their own. -/
def shortName : Nat := 8

/-- A field of hexadecimal digits, or the same number of spaces. -/
def hexOrBlank (n : Nat) (s : Text) : Option (Option Text × Text) :=
  match exactly isHex n s with
  | some (digits, rest) => some (some digits, rest)
  | none => (exactly isSpace n s).map fun (_, rest) => (none, rest)

/-- A section id is printed as the eight digits of a signed word. -/
def signedWord (digits : Text) : Int32 := (hexWord digits).toInt32

theorem behindIndicator_cons {c : Char} (h : isFree c) (line : Text) :
    behindIndicator true (c :: line) = behindIndicator false line := by
  simp [behindIndicator, exactly, h]

end ListingIndex.Line
