import ListingIndex.Text.Basic

/-! Byte columns. Cursor columns and the cut of a page title count the bytes of UTF-8, so a line is
also seen as a row of cells, one for each byte. -/
namespace ListingIndex.Text

/-- One byte of a line: a character that takes one byte stands in its cell, and the bytes of a
longer character show nothing. -/
abbrev Cell := Option Char

def cells (s : Text) : List Cell :=
  s.flatMap fun c => if c.utf8Size = 1 then [some c] else List.replicate c.utf8Size none

theorem cells_append (a b : Text) : cells (a ++ b) = cells a ++ cells b := by
  simp [cells]

/-- A character of one byte has a cell of its own. -/
theorem cells_cons {c : Char} (h : c.toNat < 128) (s : Text) : cells (c :: s) = some c :: cells s := by
  have hs : c.utf8Size = 1 :=
    Char.utf8Size_eq_one_iff.mpr (UInt32.le_iff_toNat_le.mpr (Nat.lt_succ_iff.mp h))
  simp [cells, hs]

/-- The text from byte `n` on, unless `n` lies past the end or inside a character. -/
def dropBytes? : Nat → Text → Option Text
  | 0, s => some s
  | _ + 1, [] => none
  | n + 1, c :: s => if c.utf8Size ≤ n + 1 then dropBytes? (n + 1 - c.utf8Size) s else none

def isSymbolCell : Cell → Bool
  | some c => isSymbolChar c
  | none => false

end ListingIndex.Text
