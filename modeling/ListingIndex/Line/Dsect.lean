import ListingIndex.Line.Field

/-! Lines of the dummy section cross reference. -/
namespace ListingIndex.Line

open Text Column

structure DsectEntry where
  length : UInt32
  sectionId : Int32
  definedAt : Nat
deriving DecidableEq, Repr

inductive Dsect where
  | named (name : Text) (entry : Option DsectEntry)
  | continuation (entry : DsectEntry)
deriving DecidableEq, Repr

def DsectEntry.read? (s : Text) : Option DsectEntry := do
  let (length, s) ← exactly isHex 8 s
  let s ← spaces s
  let (id, s) ← exactly isHex 8 s
  let s ← spaces s
  let (digits, _) ← run isDecimal s
  let definedAt ← decimal? digits
  some ⟨hexWord length, signedWord id, definedAt⟩

def Dsect.read? (s : Text) : Option Dsect :=
  match name s with
  | some (name, rest) =>
    if shortName < name.length then some (named name none)
    else do
      let entry ← DsectEntry.read? (← spaces rest)
      some (named name (some entry))
  | none => do
    let entry ← DsectEntry.read? (← spaces s)
    some (continuation entry)

def dsect? (indicator : Bool) (line : Text) : Option Dsect :=
  (behindIndicator indicator line).bind Dsect.read?

end ListingIndex.Line
