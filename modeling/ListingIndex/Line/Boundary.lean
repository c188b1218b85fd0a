import ListingIndex.Layout
import ListingIndex.Line.Field
import ListingIndex.Report
import ListingIndex.SectionClass
import ListingIndex.Text.Blank
import ListingIndex.Text.Bytes

/-! Lines that divide a listing: titles of pages, column headers of object code, messages, and the
return code that ends the report. -/
namespace ListingIndex.Line

open Text Column

inductive Boundary where
  | returnCode
  | message (code text : Text)
  | columns (layout : Layout) (sectionClass : SectionClass)
  | report (r : Report)
  | page (title : Text)
deriving DecidableEq, Repr

namespace Boundary

def returnCode? (s : Text) : Option Boundary :=
  (word "Return Code ".toList s).map fun _ => returnCode

def isSeverityLetter (c : Char) : Bool := "NIWES".toList.contains c

/-- A message has a code of eight characters and at least one character of text. -/
def message? (s : Text) : Option Boundary := do
  let s ← word "** ASMA".toList s
  let (number, s) ← exactly isDecimal 3 s
  let (severity, s) ← exactly isSeverityLetter 1 s
  let s ← space s
  let (text, _) ← run isFree s
  some (message ("ASMA".toList ++ number ++ severity) (trim text))

/-- The class of the section that the block below a header starts in. -/
def headerMark : Text → Option (SectionClass × Text)
  | ' ' :: ' ' :: s => some (.control, s)
  | 'C' :: '-' :: s => some (.control, s)
  | 'D' :: '-' :: s => some (.dummy, s)
  | 'R' :: '-' :: s => some (.control, s)
  | _ => none

def headerText : Layout → Text
  | .short => "Loc  Object Code    Addr1 Addr2  Stmt ".toList
  | .long => "Loc    Object Code      Addr1    Addr2    Stmt ".toList

def columns? (s : Text) : Option Boundary := do
  let (sectionClass, s) ← headerMark s
  let layout ← [Layout.short, Layout.long].find? fun layout => (headerText layout).isPrefixOf s
  some (columns layout sectionClass)

/-- Columns of a title line in front of the page number. -/
def titleWidth : Nat := 111

/-- The title of a page that belongs to no report starts at this byte. -/
def titleByte : Nat := 9

def titleAt? (s : Text) : Option Report := Report.all.find? fun r => r.title.isPrefixOf s

/-- The report whose title stands furthest to the right. -/
def lastTitle? : Text → Option Report
  | [] => none
  | c :: s => (lastTitle? s).or (titleAt? (c :: s))

/-- Classification of a title line by the columns in front of its page number. A report's title
never stands in the first column. -/
def ofTitle (field : Text) : Boundary :=
  match lastTitle? (field.drop 1) with
  | some r => report r
  | none => page (trim ((dropBytes? titleByte field).getD []))

def page? (s : Text) : Option Boundary := do
  let (field, s) ← exactly isFree titleWidth s
  let s ← word "Page".toList s
  let s ← spaces s
  let _ ← run isDecimal s
  some (ofTitle field)

end Boundary

def boundary? (indicator : Bool) (line : Text) : Option Boundary := do
  let s ← behindIndicator indicator line
  [Boundary.returnCode?, Boundary.message?, Boundary.columns?, Boundary.page?].findSome? (· s)

end ListingIndex.Line
