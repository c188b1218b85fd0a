import Mathlib
import ListingIndex.Query.Symbol

/-! A cursor behind one more column. Every column that a query looks at counts from the indicator
column, so a listing with one, asked one column further to the right, gives the same names and lines
as the listing without it. The one column that does not move along is the last there is: a
continuation line that goes on there goes on in the indicator column instead. -/
namespace ListingIndex
open Text

namespace Token

/-- The same row behind one more cell. Past the end of a document there is no row to move. -/
def Moved (row wide : List Cell) : Prop := (∃ c, wide = c :: row) ∨ row = [] ∧ wide = []

theorem runBefore_nil (first stop : ℕ) : runBefore [] first stop = [] := by
  simp [runBefore]

theorem runFrom_nil (start stop : ℕ) : runFrom [] start stop = [] := by
  simp [runFrom]

section
variable {row wide : List Cell} (h : Moved row wide)
include h

theorem Moved.runBefore (first stop : ℕ) :
    runBefore wide (first + 1) (stop + 1) = runBefore row first stop := by
  rcases h with ⟨c, rfl⟩ | ⟨rfl, rfl⟩
  · simp [Token.runBefore]
  · rw [runBefore_nil, runBefore_nil]

theorem Moved.runFrom (start stop : ℕ) :
    runFrom wide (start + 1) (stop + 1) = runFrom row start stop := by
  rcases h with ⟨c, rfl⟩ | ⟨rfl, rfl⟩
  · simp [Token.runFrom]
  · rw [runFrom_nil, runFrom_nil]

theorem Moved.isContinued (sentinel : ℕ) :
    isContinued wide (sentinel + 1) = isContinued row sentinel := by
  rcases h with ⟨c, rfl⟩ | ⟨rfl, rfl⟩ <;> simp [Token.isContinued]

theorem Moved.inRow (first c : ℕ) : inRow wide (first + 1) (c + 1) = inRow row first c := by
  have hb := h.runBefore first c
  have hf : Token.runFrom wide (c + 1) wide.length = Token.runFrom row c row.length := by
    rcases h with ⟨x, rfl⟩ | ⟨rfl, rfl⟩
    · exact Moved.runFrom (Or.inl ⟨x, rfl⟩) c row.length
    · rw [runFrom_nil, runFrom_nil]
  rw [Token.inRow, Token.inRow, hb, hf]

end

/-- The last column there is has no column to its right. -/
theorem continuation_moved {left right indent : ℕ} (h : (left + indent) % 2 ^ 64 ≠ 2 ^ 64 - 1) :
    Window.continuation ⟨left + 1, right + 1, indent⟩ =
      Window.continuation ⟨left, right, indent⟩ + 1 := by
  simp only [Window.continuation, UInt64.size]
  omega

theorem inWindow_moved {previous this next wide₁ wide₂ wide₃ : List Cell} (h₁ : Moved previous wide₁)
    (h₂ : Moved this wide₂) (h₃ : Moved next wide₃) {left right indent : ℕ}
    (h : (left + indent) % 2 ^ 64 ≠ 2 ^ 64 - 1) (c : ℕ) :
    inWindow ⟨left + 1, right + 1, indent⟩ wide₁ wide₂ wide₃ (c + 1) =
      inWindow ⟨left, right, indent⟩ previous this next c := by
  have hfirst : ∀ a, (if isContinued previous right then a + 1 else left + 1) =
      (if isContinued previous right then a else left) + 1 := by
    intro a
    split <;> rfl
  have hcol : ∀ a b, c + 1 = a + 1 + b ↔ c = a + b := by omega
  have hend : ∀ a, c + 1 + a = right + 1 ↔ c + a = right := by omega
  simp only [inWindow, continuation_moved h, h₁.isContinued, h₂.isContinued]
  simp only [hfirst, h₁.runBefore, h₂.runBefore, h₂.runFrom, h₃.runFrom, hcol, hend]

end Token

namespace Document

def ofWideRows (uri : String) (rows : List (Char × Text)) : Document :=
  ⟨uri, rows.map fun r => r.1 :: r.2⟩

end Document

def Span.wide (s : Span) : Span :=
  ⟨⟨s.start.line, s.start.character + 1⟩, ⟨s.stop.line, s.stop.character + 1⟩⟩

def Location.wide (x : Location) : Location := ⟨x.uri, x.span.wide⟩

def References.wide (r : References) : References := ⟨r.locations.map Location.wide, r.declarations⟩

namespace Listing

def wide (l : Listing) : Listing := { l with indicator := true }

/-- The column in which the continuation lines of a listing go on. -/
def continuationColumn? (l : Listing) (o : Options) : Option ℕ :=
  l.sourceWindow?.map fun w => (w.1 + o.continuationIndent) % 2 ^ 64

theorem continuation_ne {l : Listing} {o : Options} {column left right : ℕ}
    (h : l.continuationColumn? o ≠ some column) (hw : l.sourceWindow? = some (left, right)) :
    (left + o.continuationIndent) % 2 ^ 64 ≠ column := by
  intro heq
  apply h
  rw [continuationColumn?, hw, Option.map_some, heq]

section
variable {l : Listing} (hl : l.indicator = false)
include hl

variable (uri : String) {rows : List (Char × Text)} (ha : ∀ r ∈ rows, r.1.toNat < 128)
include ha

end
end Listing

/-- A name that the end of a source line cuts in two, behind printer controls. -/
def cutRows : List (Char × Text) :=
  [('1', List.replicate 105 ' ' ++ "LONGNAX".toList), ('-', List.replicate 55 ' ' ++ "me)".toList)]

def cutListing : Listing :=
  { Listing.startingAt 0 false with
    stop := 2
    layout := some .short
    blocks := [⟨0, 2, [], 0, .control, none⟩]
    statements := FloorMap.empty.insert 1 ⟨0, none⟩
    symbols := SymbolTable.merge .empty (.label "LONGNAME".toList 1) }

end ListingIndex
