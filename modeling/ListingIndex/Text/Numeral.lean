import ListingIndex.Text.Basic

/-! Numbers as a listing prints them: decimal statement numbers and upper-case hexadecimal words. -/
namespace ListingIndex.Text

def isDecimal (c : Char) : Bool := c.isDigit

def isHex (c : Char) : Bool := c.isDigit || ('A' ≤ c && c ≤ 'F')

def digitValue (c : Char) : Nat := if c.isDigit then c.toNat - '0'.toNat else c.toNat - 'A'.toNat + 10

/-- Value of a row of digits, the most significant first. -/
def numeral (base : Nat) (digits : Text) : Nat :=
  digits.foldl (fun n c => base * n + digitValue c) 0

/-- Numbers in a listing are less than this: they fit in 32 bits. -/
def wordLimit : Nat := 4294967296

def decimal? (digits : Text) : Option Nat :=
  let n := numeral 10 digits
  if n < wordLimit then some n else none

/-- Value of at most eight hexadecimal digits. -/
def hexWord (digits : Text) : UInt32 := UInt32.ofNat (numeral 16 digits)

def hexDigit (n : Nat) : Char := (Nat.digitChar n).toUpper

/-- The last `k` hexadecimal digits of a number. -/
def hexDigits : Nat → Nat → Text
  | 0, _ => []
  | k + 1, n => hexDigits k (n / 16) ++ [hexDigit (n % 16)]

theorem length_hexDigits (k n : Nat) : (hexDigits k n).length = k := by
  induction k generalizing n with
  | zero => rfl
  | succ k ih => simp [hexDigits, ih]

/-- A word as eight upper-case hexadecimal digits. -/
def wordHex (w : UInt32) : Text := hexDigits 8 w.toNat

end ListingIndex.Text
