import ListingIndex.Line.Field
import ListingIndex.Report

/-! The first line of a listing: the title line of page 1 of the option summary. Whether it stands
one column to the right tells whether the lines of the listing have an indicator column. -/
namespace ListingIndex.Line

open Text Column

/-- The title line of page 1, the thirteen columns of the maintenance level left free. -/
def isTitle (s : Text) : Bool :=
  (do
    let s ← word (List.replicate 41 ' ') s
    let s ← word Report.optionSummary.title s
    let s ← word (List.replicate 19 ' ') s
    let (_, s) ← exactly isFree 13 s
    word "   Page    1".toList s).isSome

/-- Whether the listing that starts on this line has an indicator column. -/
def opening? (line : Text) : Option Bool :=
  [true, false].find? fun indicator => (behindIndicator indicator line).any isTitle

end ListingIndex.Line
