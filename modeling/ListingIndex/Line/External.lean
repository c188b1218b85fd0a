import ListingIndex.Line.Field

/-! Lines of the external symbol dictionary. -/
namespace ListingIndex.Line

open Text Column

structure ExternalEntry where
  kind : Text
  id : Text
  address : Option UInt32
  length : Option UInt32
  owner : Option Text
deriving DecidableEq, Repr

inductive External where
  | named (name : Text) (entry : Option ExternalEntry)
  | continuation (entry : ExternalEntry)
deriving DecidableEq, Repr

namespace ExternalEntry

/-- Types of entries that are sections of the program itself. -/
def sectionKinds : List Text := ["SD".toList, "ED".toList, "PC".toList, "CM".toList]

def isSection (e : ExternalEntry) : Bool := sectionKinds.contains e.kind

/-- The columns of an entry from its type on. -/
def read? (s : Text) : Option (ExternalEntry × Text) := do
  let (kind, s) ← run Char.isUpper s
  let s ← spaces s
  let (id, s) ← run isHex s
  let s ← space s
  let (address, s) ← hexOrBlank 8 s
  let s ← space s
  let (length, s) ← hexOrBlank 8 s
  let (_, s) ← exactly isSpace 2 s
  let (owner, s) ← hexOrBlank 8 s
  some (⟨kind, id, address.map hexWord, length.map hexWord, owner⟩, s)

end ExternalEntry

/-- An entry behind a name is followed by a space, and so is a name with a line of its own. -/
def External.read? (s : Text) : Option External :=
  match name s with
  | some (name, rest) => do
    let s ← spaces rest
    if shortName < name.length then some (named name none)
    else do
      let (entry, s) ← ExternalEntry.read? s
      let _ ← space s
      some (named name (some entry))
  | none => do
    let (entry, _) ← ExternalEntry.read? (← spaces s)
    some (continuation entry)

def external? (indicator : Bool) (line : Text) : Option External :=
  (behindIndicator indicator line).bind External.read?

end ListingIndex.Line
