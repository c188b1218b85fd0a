import ListingIndex.Line.Boundary
import ListingIndex.Line.Code
import ListingIndex.Line.Dsect
import ListingIndex.Line.External
import ListingIndex.Line.Using
import ListingIndex.Listing

/-! A listing while it is being read: what is indexed so far, and what the lines to come still
change. -/
namespace ListingIndex

/-- The part of a listing in which a line stands. It decides how lines between boundaries are read. -/
inductive Area where
  | options
  | externals
  | code
  | crossReferences
  | dsects
  | usings
  | other
deriving DecidableEq, Repr

namespace Area

/-- A page of the option summary may stand anywhere and changes nothing. -/
def afterReport (a : Area) : Report → Area
  | .optionSummary => a
  | .externalSymbols => externals
  | .symbolReferences => crossReferences
  | .dsectReferences => dsects
  | .usingMap => usings
  | .relocations | .sourceSummary | .registerReferences | .assemblerSummary => other

/-- Object code follows the option summary or the external symbols, on pages of their own. -/
def afterPage : Area → Area
  | options | externals => code
  | a => a

end Area

/-- Lines that the next boundary brings to an end. -/
inductive Opened where
  | report (r : Report)
  | block (b : CodeBlock)
deriving DecidableEq, Repr

/-- Notes the statement on the first line of an open block. -/
def Opened.startWith (n statement : Nat) : Opened → Opened
  | .block b => .block (if b.codeStart = n then { b with firstStatement := some statement } else b)
  | o => o

structure Draft where
  listing : Listing
  area : Area
  opened : Option Opened
  /-- Title of the latest page outside the reports, and its line. -/
  title : Text
  titleLine : Nat
  /-- Symbol of the cross reference whose entry may still go on. -/
  pending : Option Symbol
  /-- Latest name in the external symbol dictionary. -/
  sectionName : Option Text
  /-- Latest name in the dummy section cross reference. -/
  dsectName : Option Text
  /-- Labels of the object code with their statements, in printed order. -/
  labels : List (Text × Nat)
  /-- Statements that the using map places in control sections. -/
  baseRegisters : List Nat
  /-- Statements that start or resume a section. -/
  transitions : List Nat
deriving DecidableEq, Repr

namespace Draft

def startingAt (start : Nat) (indicator : Bool) : Draft :=
  ⟨.startingAt start indicator, .options, none, [], start, none, none, none, [], [], []⟩

/-! Boundaries -/

/-- Ends the open report or block in front of line `n`. -/
def close (d : Draft) (n : Nat) : Draft :=
  match d.opened with
  | none => d
  | some (.report r) =>
    { d with
      listing.reports := d.listing.reports.modify r fun range => { range with stop := n }
      opened := none }
  | some (.block b) =>
    { d with
      listing.blocks := d.listing.blocks ++ [{ b with stop := n }]
      opened := none }

/-- Moves the pending symbol into the symbol table. -/
def flush (d : Draft) : Draft :=
  match d.pending with
  | none => d
  | some s => { d with listing.symbols := d.listing.symbols.merge s, pending := none }

def enter (d : Draft) (a : Area) : Draft := if a = d.area then d else { d.flush with area := a }

def addMessage (d : Draft) (n width : Nat) (code message : Text) : Draft :=
  { d with listing.diagnostics := d.listing.diagnostics ++ [.onLine n width code message] }

/-- The return code counts as the last line of the assembler summary. -/
def closeSummary (d : Draft) (n : Nat) : Draft :=
  { d with
    listing.reports :=
      d.listing.reports.modify .assemblerSummary fun range => { range with stop := n + 1 } }

def openBlock (d : Draft) (n : Nat) (layout : Layout) (c : SectionClass) : Draft :=
  { d with
    listing.layout := some layout
    opened := some (.block ⟨d.titleLine, n + 1, d.title, n + 1, c, none⟩) }

/-- A report that goes on to another page keeps its first line. -/
def openReport (d : Draft) (n : Nat) (r : Report) : Draft :=
  { d with
    listing.reports := d.listing.reports.insertIfNew r ⟨n, n⟩
    opened := some (.report r) }

/-- Reads line `n`, of `width` characters, as a boundary. A message stands inside whatever is open,
and every other boundary ends it. -/
def addBoundary (d : Draft) (n width : Nat) : Line.Boundary → Draft
  | .message code message => d.addMessage n width code message
  | .returnCode => (d.close n).closeSummary n
  | .columns layout c => (d.close n).openBlock n layout c
  | .report r => ((d.close n).openReport n r).enter (d.area.afterReport r)
  | .page title => { (d.close n).enter d.area.afterPage with title := title, titleLine := n }

/-! Lines between boundaries -/

/-- The first line of a statement counts, and the first address printed with it. -/
def placeStatement (n : Nat) (address : Option UInt32) : Option StatementLine → StatementLine
  | none => ⟨n, address⟩
  | some s => { s with address := s.address.or address }

def addCode (d : Draft) (n : Nat) (layout : Layout) (l : Line.Code) : Draft :=
  { d with
    listing.statements := d.listing.statements.update l.statement (placeStatement n l.address)
    listing.lastStatement := max d.listing.lastStatement l.statement
    opened := d.opened.map (Opened.startWith n l.statement)
    labels := d.labels ++ l.label.toList.map (·, l.statement)
    transitions := d.transitions ++ if l.startsSection layout then [l.statement] else [] }

/-- Each entry or long name starts a symbol; what follows goes to the pending one, if any. -/
def addCrossReference (d : Draft) : Line.CrossReference → Draft
  | .entry name fields => { d.flush with pending := some ((Symbol.ofName name).addEntry fields) }
  | .longName name => { d.flush with pending := some (.ofName name) }
  | .deferred fields => { d with pending := d.pending.map (·.addEntry fields) }
  | .more references => { d with pending := d.pending.map (·.addReferences references) }

/-- A section goes under the name of its owner, if that is known already, else under its own. -/
def addSection (d : Draft) (name : Text) (e : Line.ExternalEntry) : Draft :=
  if e.isSection then
    let owner := (e.owner.bind d.listing.sectionNames.find?).getD name
    { d with
      listing.sectionNames := d.listing.sectionNames.insert e.id owner
      listing.controlSections := d.listing.controlSections ++
        match e.address, e.length with
        | some address, some length => [⟨owner, address, length⟩]
        | _, _ => [] }
  else d

def addExternal (d : Draft) : Line.External → Draft
  | .named name none => { d with sectionName := some name }
  | .named name (some e) => { d with sectionName := some name }.addSection name e
  | .continuation e => match d.sectionName with
    | some name => d.addSection name e
    | none => d

def addDsectEntry (d : Draft) (name : Text) (e : Line.DsectEntry) : Draft :=
  { d with
    listing.symbols := d.listing.symbols.insertIfNew
      ((Symbol.label name e.definedAt).withDetails (.ofDsect e.sectionId)) }

def addDsect (d : Draft) : Line.Dsect → Draft
  | .named name none => { d with dsectName := some name }
  | .named name (some e) => { d with dsectName := some name }.addDsectEntry name e
  | .continuation e => match d.dsectName with
    | some name => d.addDsectEntry name e
    | none => d

def addUsing (d : Draft) (u : Line.Using) : Draft :=
  match SectionClass.ofId u.sectionId with
  | .control => { d with baseRegisters := d.baseRegisters ++ [u.statement] }
  | .dummy => d

/-- Reads line `n` as its area asks; lines of no known form are passed over. -/
def addRecord (d : Draft) (n : Nat) (line : Text) : Draft :=
  let indicator := d.listing.indicator
  match d.area with
  | .options | .other => d
  | .externals => (Line.external? indicator line).elim d d.addExternal
  | .code => match d.listing.layout with
    | some layout => (Line.code? layout indicator line).elim d (d.addCode n layout)
    | none => d
  | .crossReferences => (Line.crossReference? indicator line).elim d d.addCrossReference
  | .dsects => (Line.dsect? indicator line).elim d d.addDsect
  | .usings => (Line.using? indicator line).elim d d.addUsing

/-! The end of a listing -/

def addLabels (d : Draft) : Draft :=
  { d with
    listing.symbols := d.labels.foldl (fun symbols l => symbols.insertIfNew (.label l.1 l.2))
      d.listing.symbols }

/-- The listing, ended in front of line `stop`. Labels that the cross reference does not name get
into the symbol table here, and statements are classified. -/
def finish (d : Draft) (stop : Nat) : Listing :=
  let d := (d.flush.close stop).addLabels
  let l := d.listing
  { l with
    stop := stop
    sectionMap := .classify l.lastStatement l.symbols l.blocks d.baseRegisters d.transitions }

end Draft
end ListingIndex
