import ListingIndex.Collection.Dictionary
import ListingIndex.Collection.NumberSet
import ListingIndex.Line.CrossReference
import ListingIndex.Line.Reference
import ListingIndex.SectionClass

/-! Symbols, with the statements that define and reference them, and tables of symbols. A table lists
its symbols in the order in which their names were first met. -/
namespace ListingIndex

open Text

structure SymbolDetails where
  value : UInt32
  sectionId : Int32
  relocatable : Bool
  undefined : Bool
  /-- The symbol names a location counter. -/
  locationCounter : Bool
deriving DecidableEq, Repr

namespace SymbolDetails

def sectionClass (d : SymbolDetails) : SectionClass := .ofId d.sectionId

/-- A dummy section names its own location counter. -/
def ofDsect (sectionId : Int32) : SymbolDetails := ⟨0, sectionId, true, false, true⟩

def ofEntry (e : Line.Entry) : SymbolDetails :=
  ⟨e.value, e.sectionId, e.relocatable, e.typeFlag == 'U', e.typeFlag == 'J'⟩

end SymbolDetails

structure Symbol where
  name : Text
  defined : NumberSet
  references : NumberSet
  /-- References that only read the symbol. -/
  pureReferences : NumberSet
  details : Option SymbolDetails
deriving DecidableEq, Repr

namespace Symbol

def ofName (name : Text) : Symbol := ⟨canonical name, .empty, .empty, .empty, none⟩

def define (s : Symbol) (statement : Nat) : Symbol := { s with defined := s.defined.insert statement }

def label (name : Text) (statement : Nat) : Symbol := (ofName name).define statement

def withDetails (s : Symbol) (details : SymbolDetails) : Symbol := { s with details := some details }

def addReference (s : Symbol) (r : Line.Reference) : Symbol :=
  { s with
    references := s.references.insert r.statement
    pureReferences := if r.isPure then s.pureReferences.insert r.statement else s.pureReferences }

/-- Adds all references of a printed list. -/
def addReferences (s : Symbol) (list : Text) : Symbol :=
  (Line.Reference.readAll list).foldl addReference s

/-- Adds what the columns of an entry say; they take the place of earlier details. -/
def addEntry (s : Symbol) (e : Line.Entry) : Symbol :=
  ((s.withDetails (.ofEntry e)).define e.definedAt).addReferences e.references

/-- Takes over another symbol's statements, and its details where there are none. -/
def merge (s t : Symbol) : Symbol :=
  { s with
    defined := s.defined.union t.defined
    references := s.references.union t.references
    pureReferences := s.pureReferences.union t.pureReferences
    details := s.details.or t.details }

/-- Statements that name the symbol, with those that define it if these are asked for. -/
def statements (s : Symbol) (declarations : Bool) : NumberSet :=
  if declarations then s.references.union s.defined else s.references

end Symbol

abbrev SymbolTable := Dictionary Text Symbol

namespace SymbolTable

def merge (t : SymbolTable) (s : Symbol) : SymbolTable :=
  t.update s.name fun known => (known.map (·.merge s)).getD s

def insertIfNew (t : SymbolTable) (s : Symbol) : SymbolTable := Dictionary.insertIfNew t s.name s

/-- The symbol of a name in any case. -/
def lookup (t : SymbolTable) (name : Text) : Option Symbol := t.find? (canonical name)

/-- Whether no symbol of that name is in the table yet. -/
def isNew (t : SymbolTable) (name : Text) : Bool := (lookup t name).isNone

end SymbolTable
end ListingIndex
