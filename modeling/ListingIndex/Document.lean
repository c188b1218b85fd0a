import ListingIndex.Text.Lines

/-! Documents: what a scan and a query read of them, and snapshots with a language and a version. -/
namespace ListingIndex

structure Document where
  uri : String
  lines : List Text
deriving DecidableEq, Repr

namespace Document

def lineCount (d : Document) : Nat := d.lines.length

/-- A line of a document; there is nothing past its end. -/
def line (d : Document) (i : Nat) : Text := d.lines[i]?.getD []

end Document

/-- A document as its owner holds it. Versions are signed words and wrap around. -/
structure Snapshot extends Document where
  languageId : String
  version : Int32
deriving DecidableEq, Repr

namespace Snapshot

def ofText (uri languageId : String) (version : Int32) (text : Text) : Snapshot :=
  { uri := uri, lines := Text.lines text, languageId := languageId, version := version }

/-- Every change of the text makes a new version, also one that changes nothing. -/
def setText (d : Snapshot) (text : Text) : Snapshot :=
  { d with lines := Text.lines text, version := d.version + 1 }

end Snapshot
end ListingIndex
