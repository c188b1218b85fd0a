import ListingIndex.Document
import ListingIndex.Line.Opening
import ListingIndex.Scan.Draft

/-! Finding the listings of a document in one pass over its lines. -/
namespace ListingIndex

/-- Whether a listing is open, and whether its next line is passed over unread. -/
inductive Scan.Mode where
  | idle
  | reading (d : Draft)
  | skipping (d : Draft)
deriving DecidableEq, Repr

/-- State of a scan in front of line `next`. -/
structure Scan where
  next : Nat
  found : List Listing
  mode : Scan.Mode
deriving DecidableEq, Repr

namespace Scan

def initial : Scan := ⟨0, [], .idle⟩

/-- The listing as part of which a line is read, as it is in front of that line. A listing opens on
the line that shows its opening, and that line is its first. -/
def reader? (s : Scan) (line : Text) : Option Draft :=
  match s.mode with
  | .idle => (Line.opening? line).map (.startingAt s.next)
  | .reading d => some d
  | .skipping _ => none

/-- Leaves a line unread. -/
def pass (s : Scan) : Scan :=
  ⟨s.next + 1, s.found, match s.mode with
    | .skipping d => .reading d
    | mode => mode⟩

/-- Reads a line as part of a listing. The return code ends the listing, and the line below a title
of the cross reference holds column headings. -/
def read (s : Scan) (d : Draft) (line : Text) : Scan :=
  match Line.boundary? d.listing.indicator line with
  | none => ⟨s.next + 1, s.found, .reading (d.addRecord s.next line)⟩
  | some b =>
    let d := d.addBoundary s.next line.length b
    match b with
    | .returnCode => ⟨s.next + 1, s.found ++ [d.finish (s.next + 1)], .idle⟩
    | .report .symbolReferences => ⟨s.next + 1, s.found, .skipping d⟩
    | _ => ⟨s.next + 1, s.found, .reading d⟩

def step (s : Scan) (line : Text) : Scan :=
  match s.reader? line with
  | some d => s.read d line
  | none => s.pass

theorem next_step (s : Scan) (line : Text) : (s.step line).next = s.next + 1 := by
  unfold step
  split
  · unfold read
    split
    · rfl
    · dsimp only
      split <;> rfl
  · rfl

def run (s : Scan) (lines : List Text) : Scan := lines.foldl step s

/-- The listings found; one that is still open ends with the document. -/
def listings (s : Scan) : List Listing :=
  match s.mode with
  | .idle => s.found
  | .reading d | .skipping d => s.found ++ [d.finish s.next]

theorem next_run (s : Scan) (lines : List Text) : (s.run lines).next = s.next + lines.length := by
  induction lines generalizing s with
  | nil => rfl
  | cons line lines ih =>
    have : s.run (line :: lines) = (s.step line).run lines := rfl
    rw [this, ih, next_step, List.length_cons]
    omega

theorem run_append (s : Scan) (a b : List Text) : s.run (a ++ b) = (s.run a).run b :=
  List.foldl_append

end Scan

def Document.listings (d : Document) : List Listing := (Scan.initial.run d.lines).listings

end ListingIndex
