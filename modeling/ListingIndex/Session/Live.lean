import ListingIndex.Document

/-! Documents that may change while they are read. -/
namespace ListingIndex

/-- Values that successive reads give; the last one is given for ever. -/
structure Feed (α : Type) where
  now : α
  later : List α
deriving DecidableEq, Repr

namespace Feed

variable {α : Type}

def constant (a : α) : Feed α := ⟨a, []⟩

/-- What is left after one read. -/
def advance (f : Feed α) : Feed α :=
  match f.later with
  | [] => f
  | a :: rest => ⟨a, rest⟩

end Feed

structure LiveDocument extends Document where
  versions : Feed Int32
  languages : Feed String
deriving DecidableEq, Repr

namespace LiveDocument

def readVersion (d : LiveDocument) : Int32 × LiveDocument :=
  (d.versions.now, { d with versions := d.versions.advance })

def readLanguage (d : LiveDocument) : String × LiveDocument :=
  (d.languages.now, { d with languages := d.languages.advance })

end LiveDocument

/-- A snapshot gives the same version and language at every read. -/
def Snapshot.live (d : Snapshot) : LiveDocument :=
  { d.toDocument with versions := .constant d.version, languages := .constant d.languageId }

end ListingIndex
