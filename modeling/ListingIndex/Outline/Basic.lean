import ListingIndex.Listing

/-! Trees that show what a document holds. -/
namespace ListingIndex

inductive OutlineKind where
  | listing
  | part
  | block
  | entry
deriving DecidableEq, Repr

/-- Number under which editors know a kind: module, namespace, package and object. -/
def OutlineKind.number : OutlineKind → Nat
  | listing => 2
  | part => 3
  | block => 4
  | entry => 19

structure OutlineNode where
  name : Text
  kind : OutlineKind
  span : Span
  children : List OutlineNode
deriving Repr

namespace OutlineNode

def leaf (name : Text) (line : Nat) : OutlineNode := ⟨name, .entry, Span.lines line line, []⟩

end OutlineNode

/-- Listings are numbered, from one, where a document holds several. -/
def numbered (listings : List Listing) : List (Text × Listing) :=
  listings.zipIdx.map fun (l, i) =>
    ("Listing".toList ++ if listings.length ≤ 1 then [] else ' ' :: Nat.toDigits 10 (i + 1), l)

end ListingIndex
