import ListingIndex.Collection.FloorMap
import ListingIndex.Diagnostic
import ListingIndex.Layout
import ListingIndex.Report
import ListingIndex.SectionMap

/-! Listings: all that is indexed of one assembly. -/
namespace ListingIndex

/-- Where a statement is printed, and its location counter. -/
structure StatementLine where
  line : Nat
  address : Option UInt32
deriving DecidableEq, Repr

/-- A section of the program in storage. -/
structure ControlSection where
  name : Text
  address : UInt32
  length : UInt32
deriving DecidableEq, Repr

/-- Storage does not wrap around at the end of the address space. -/
def ControlSection.contains (c : ControlSection) (address : UInt32) : Bool :=
  c.address ≤ address && address.toNat < c.address.toNat + c.length.toNat

structure Listing where
  start : Nat
  stop : Nat
  /-- Lines have an indicator column in front. -/
  indicator : Bool
  /-- Layout of the object code, once a column header has shown it. -/
  layout : Option Layout
  diagnostics : List Diagnostic
  statements : FloorMap StatementLine
  symbols : SymbolTable
  /-- Name of the owning section of each section id of the dictionary. -/
  sectionNames : Dictionary Text Text
  controlSections : List ControlSection
  blocks : List CodeBlock
  lastStatement : Nat
  sectionMap : SectionMap
  reports : Dictionary Report LineRange
deriving DecidableEq, Repr

namespace Listing

/-- A listing that starts at a line, and of which nothing else is known. -/
def startingAt (start : Nat) (indicator : Bool) : Listing :=
  ⟨start, start, indicator, none, [], .empty, .empty, .empty, [], [], 0, .unknown, .empty⟩

def containsLine (l : Listing) (line : Nat) : Bool := l.start ≤ line && line < l.stop

def span (l : Listing) : Span := Span.lines l.start l.stop

/-- Columns that the indicator takes up. -/
def indicatorWidth (l : Listing) : Nat := if l.indicator then 1 else 0

/-- Columns of the source statement; a listing without object code counts as short. -/
def sourceSpan (l : Listing) (line : Nat) : Span :=
  let column := (l.layout.getD .short).sourceColumn + l.indicatorWidth
  Span.onLine line column (column + sourceWidth)

/-- Source column and sentinel column. -/
def sourceWindow? (l : Listing) : Option (Nat × Nat) :=
  l.layout.map fun layout =>
    (layout.sourceColumn + l.indicatorWidth, layout.sentinelColumn + l.indicatorWidth)

/-- The line of a statement, if it is printed. -/
def lineOf? (l : Listing) (statement : Nat) : Option Nat := (l.statements.find? statement).map (·.line)

/-- The line of a statement, or of the closest one before it that is printed. -/
def lineNear? (l : Listing) (statement : Nat) : Option Nat :=
  (l.statements.floor? statement).map (·.2.line)

def linesNear (l : Listing) (statements : List Nat) : NumberSet :=
  .ofList (statements.filterMap l.lineNear?)

/-- The code block in whose object code a line stands. -/
def blockAt? (l : Listing) (line : Nat) : Option Nat :=
  l.blocks.findIdx? fun b => b.codeStart ≤ line && line < b.stop

def controlSectionAt? (l : Listing) (address : UInt32) : Option ControlSection :=
  l.controlSections.find? (·.contains address)

/-- All object code, from the first block to the last. -/
def objectCode? (l : Listing) : Option LineRange := do
  let first ← l.blocks.head?
  let last ← l.blocks.getLast?
  some ⟨first.start, last.stop⟩

end Listing
end ListingIndex
