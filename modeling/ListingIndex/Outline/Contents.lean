import ListingIndex.Options
import ListingIndex.Outline.Basic

/-! The outline of a document: for each listing its reports, and between them the object code with
the symbols that it defines. -/
namespace ListingIndex

/-- Adjacent blocks of code under one title. -/
structure Chapter where
  title : Text
  start : Nat
  stop : Nat
deriving DecidableEq, Repr

namespace Chapter

/-- Puts a block in front of the chapters behind it. -/
def addBlock (b : CodeBlock) : List Chapter → List Chapter
  | [] => [⟨b.title, b.start, b.stop⟩]
  | c :: rest =>
    if c.title = b.title then ⟨c.title, min b.start c.start, max b.stop c.stop⟩ :: rest
    else ⟨b.title, b.start, b.stop⟩ :: c :: rest

def ofBlocks (blocks : List CodeBlock) : List Chapter := blocks.foldr addBlock []

def name (c : Chapter) : Text := if c.title.isEmpty then "(untitled)".toList else c.title

/-- The last chapter that starts at or above a line. -/
def indexOf? (chapters : List Chapter) (line : Nat) : Option Nat :=
  ((chapters.zipIdx.filter fun c => c.1.start ≤ line).getLast?).map (·.2)

end Chapter

namespace Listing

/-- The line of the first definition of a symbol that is printed. -/
def definitionLine? (l : Listing) (s : Symbol) : Option Nat := s.defined.toList.findSome? l.lineOf?

/-- Symbols that are no literals, with their lines, from the top of the listing down. -/
def visibleSymbols (l : Listing) (o : Options) : List (Text × Nat) :=
  let visible := (l.symbols.values.filter fun s => !o.isLiteral s.name).filterMap fun s =>
    (l.definitionLine? s).map (s.name, ·)
  visible.mergeSort fun a b => a.2 ≤ b.2

/-- Leaves of the visible symbols, each with its place among the chapters. -/
def symbolLeaves (l : Listing) (o : Options) : List (Option Nat × OutlineNode) :=
  let chapters := Chapter.ofBlocks l.blocks
  (l.visibleSymbols o).map fun s => (Chapter.indexOf? chapters s.2, .leaf s.1 s.2)

/-- Every symbol hangs under its chapter; those in front of all chapters come last. -/
def codeOutline? (l : Listing) (o : Options) : Option OutlineNode := do
  let range ← l.objectCode?
  let leaves := l.symbolLeaves o
  let under (place : Option Nat) := (leaves.filter (·.1 == place)).map (·.2)
  let chapters := (Chapter.ofBlocks l.blocks).zipIdx.map fun (c, i) =>
    ⟨c.name, .block, Span.lines c.start c.stop, under (some i)⟩
  some ⟨"Object Code".toList, .part, Span.lines range.start range.stop, chapters ++ under none⟩

/-- A report, if the listing holds it. -/
def reportOutline? (l : Listing) (r : Report) : Option OutlineNode :=
  (l.reports.find? r).map fun range => ⟨r.title, .part, Span.lines range.start range.stop, []⟩

/-- The object code stands behind the external symbols. -/
def parts (l : Listing) (o : Options) : List OutlineNode :=
  Report.all.flatMap fun r =>
    (l.reportOutline? r).toList ++ if r = .externalSymbols then (l.codeOutline? o).toList else []

end Listing

def outline (listings : List Listing) (o : Options) : List OutlineNode :=
  (numbered listings).map fun (name, l) => ⟨name, .listing, l.span, l.parts o⟩

end ListingIndex
