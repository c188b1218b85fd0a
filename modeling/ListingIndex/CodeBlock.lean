import ListingIndex.SectionClass
import ListingIndex.Text.Basic

/-! Blocks of object code: the lines below one column header. -/
namespace ListingIndex

structure CodeBlock where
  /-- Line of the page title in front of the header. -/
  start : Nat
  stop : Nat
  title : Text
  /-- First line below the header. -/
  codeStart : Nat
  /-- Section that the header announces. -/
  sectionClass : SectionClass
  /-- Statement on the first line below the header. -/
  firstStatement : Option Nat
deriving DecidableEq, Repr

end ListingIndex
