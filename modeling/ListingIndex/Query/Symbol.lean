import ListingIndex.Query.Token

/-! Questions about the symbol under a cursor: where it is defined, where it is referenced, and what
its defining lines say. -/
namespace ListingIndex

structure References where
  locations : List Location
  /-- Definitions were asked for as well. -/
  declarations : Bool
deriving DecidableEq, Repr

def References.none : References := ⟨[], false⟩

/-- Quoted lines of a document. -/
structure Quotation where
  contents : Text
  lines : List Nat
deriving DecidableEq, Repr

/-- A line of a document as a block of source text. -/
def quoteLine (languageId : String) (line : Text) : Text :=
  "\n```".toList ++ languageId.toList ++ "\n".toList ++ line ++ "\n```\n".toList

namespace Listing

def symbolAt? (l : Listing) (d : Document) (o : Options) (p : Position) : Option Symbol :=
  (l.nameAt? d o p).bind l.symbols.lookup

def definitionLines (l : Listing) (s : Symbol) : NumberSet := l.linesNear s.defined.toList

def referenceLines (l : Listing) (s : Symbol) (declarations : Bool) : NumberSet :=
  l.linesNear (s.statements declarations).toList

/-- The source statements on some lines. -/
def locations (l : Listing) (d : Document) (lines : NumberSet) : List Location :=
  lines.toList.map fun n => ⟨d.uri, l.sourceSpan n⟩

def definitions (l : Listing) (d : Document) (o : Options) (p : Position) : List Location :=
  match l.symbolAt? d o p with
  | some s => l.locations d (l.definitionLines s)
  | none => []

def references (l : Listing) (d : Document) (o : Options) (p : Position) (declarations : Bool) :
    References :=
  match l.symbolAt? d o p with
  | some s => ⟨l.locations d (l.referenceLines s declarations), declarations⟩
  | none => .none

/-- The defining lines, quoted; nothing where there are none. -/
def quotation? (l : Listing) (d : Document) (o : Options) (p : Position) : Option Quotation := do
  let s ← l.symbolAt? d o p
  let lines := (l.definitionLines s).toList
  if lines.isEmpty then none
  else some ⟨lines.flatMap fun n => quoteLine o.languageId (d.line n), lines⟩

theorem quotation?_eq (l : Listing) (d : Document) (o : Options) (p : Position) :
    l.quotation? d o p = (l.symbolAt? d o p).bind fun s =>
      if (l.definitionLines s).toList.isEmpty then none
      else some ⟨(l.definitionLines s).toList.flatMap fun n => quoteLine o.languageId (d.line n),
        (l.definitionLines s).toList⟩ := rfl

end Listing
end ListingIndex
