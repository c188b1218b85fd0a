import ListingIndex.Text.Basic

/-! Cutting a text into lines. A line feed ends a line, and one carriage return directly before it
goes with it; a last line that no line feed ends keeps all its characters, and nothing follows a
final line feed. -/
namespace ListingIndex.Text

/-- The lines of a text, with a flag that tells whether the text starts with a line feed. -/
structure LinesOf where
  atLineFeed : Bool
  lines : List Text
deriving DecidableEq, Repr

/-- Puts one more character in front of a text that is already cut into lines. -/
def pushFront (c : Char) (t : LinesOf) : LinesOf :=
  if c = '\n' then ⟨true, [] :: t.lines⟩
  else if c = '\r' ∧ t.atLineFeed then ⟨false, t.lines⟩
  else match t.lines with
    | [] => ⟨false, [[c]]⟩
    | line :: rest => ⟨false, (c :: line) :: rest⟩

def lines (s : Text) : List Text := (s.foldr pushFront ⟨false, []⟩).lines

theorem lines_nil : lines [] = [] := rfl

theorem lines_lineFeed (s : Text) : lines ('\n' :: s) = [] :: lines s := rfl

theorem pushFront_lineFeed_free {c : Char} {t : LinesOf} (h : ∀ line ∈ t.lines, '\n' ∉ line) :
    ∀ line ∈ (pushFront c t).lines, '\n' ∉ line := by
  unfold pushFront
  split
  · simpa using h
  · split
    · exact h
    · rename_i hc _
      cases hl : t.lines with
      | nil => simpa using fun e => hc e.symm
      | cons line rest =>
        intro l hm
        rcases List.mem_cons.mp hm with rfl | hm
        · have := h line (by simp [hl])
          simpa [this] using fun e => hc e.symm
        · exact h l (by simp [hl, hm])

/-- No line holds a line feed. -/
theorem lines_lineFeed_free (s : Text) : ∀ line ∈ lines s, '\n' ∉ line := by
  unfold lines
  induction s with
  | nil => simp
  | cons c s ih => exact pushFront_lineFeed_free ih

end ListingIndex.Text
