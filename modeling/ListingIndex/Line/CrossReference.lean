import ListingIndex.Line.Field

/-! Lines of the symbol and literal cross reference. A short name stands on the line of its entry; a
long one has a line of its own, and its columns follow on the next; references that do not fit go on
below, far to the right. -/
namespace ListingIndex.Line

open Text Column

/-- What an entry says of its symbol. -/
structure Entry where
  value : UInt32
  sectionId : Int32
  relocatable : Bool
  typeFlag : Char
  definedAt : Nat
  references : Text
deriving DecidableEq, Repr

inductive CrossReference where
  | entry (name : Text) (fields : Entry)
  | longName (name : Text)
  | deferred (fields : Entry)
  | more (references : Text)
deriving DecidableEq, Repr

namespace CrossReference

/-- A list of references starts with a digit and has more than one character. -/
def references? : Text → Option Text
  | c :: s => if isDecimal c then (run isFree s).map fun (list, _) => c :: list else none
  | [] => none

/-- The columns of an entry from the length on, the number of the defining statement still as
digits. -/
structure Columns where
  value : Text
  sectionId : Text
  relocation : Text
  typeFlag : Char
  definedAt : Text
  references : Text
deriving DecidableEq, Repr

def free? : Text → Option (Char × Text)
  | c :: s => if isFree c then some (c, s) else none
  | [] => none

def columns? (s : Text) : Option Columns := do
  let (_, s) ← run isDecimal s
  let s ← space s
  let (value, s) ← exactly isHex 8 s
  let s ← space s
  let (sectionId, s) ← exactly isHex 8 s
  let s ← space s
  let (relocation, s) ← exactly isFree 1 s
  let s ← space s
  let (_, s) ← exactly isFree 2 s
  let (typeFlag, s) ← free? s
  let (_, s) ← exactly isFree 1 s
  let s ← space s
  let (_, s) ← exactly isFree 3 s
  let (_, s) ← exactly isSpace 2 s
  let (_, s) ← exactly isFree 7 s
  let s ← spaces s
  let (definedAt, s) ← run isDecimal s
  let s ← spaces s
  some ⟨value, sectionId, relocation, typeFlag, definedAt, (references? s).getD []⟩

def Columns.entry? (c : Columns) : Option Entry := do
  let definedAt ← decimal? c.definedAt
  some ⟨hexWord c.value, signedWord c.sectionId, c.relocation == [' '], c.typeFlag, definedAt,
    c.references⟩

/-- Least indent of an entry whose name stands on the line above. -/
def deferredIndent : Nat := 9

/-- Least indent of references that go on from the line above. -/
def moreIndent : Nat := 60

/-- A line that starts with spaces. -/
def continuation? (indent : Nat) (s : Text) : Option CrossReference :=
  match if deferredIndent ≤ indent then columns? s else none with
  | some columns => columns.entry?.map deferred
  | none => if moreIndent ≤ indent then (references? s).map more else none

def read? (s : Text) : Option CrossReference :=
  match name s with
  | some (name, rest) =>
    if shortName < name.length then some (longName name)
    else do
      let columns ← columns? (← spaces rest)
      columns.entry?.map (entry name)
  | none => continuation? (s.takeWhile isSpace).length (s.dropWhile isSpace)

end CrossReference

def crossReference? (indicator : Bool) (line : Text) : Option CrossReference :=
  (behindIndicator indicator line).bind CrossReference.read?

end ListingIndex.Line
