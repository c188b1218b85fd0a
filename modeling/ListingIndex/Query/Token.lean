import ListingIndex.Document
import ListingIndex.Listing
import ListingIndex.Options
import ListingIndex.Text.Bytes

/-! The name under a cursor. In the source columns of object code a statement fills a fixed window;
a character in the sentinel column behind it says that the statement goes on in the next line, below
an indent of blank columns, and a name that is cut there is joined across one line. Everywhere else
a name is a run of symbol characters. Columns are byte columns. -/
namespace ListingIndex.Token

open Text

/-- The run of symbol characters that ends in front of column `stop`, no further back than column
`first`. -/
def runBefore (row : List Cell) (first stop : Nat) : Text :=
  if stop ≤ row.length then
    (((row.take stop).drop first).reverse.takeWhile isSymbolCell).reverse.reduceOption
  else []

/-- The run of symbol characters that starts in column `start`, as far as column `stop`. -/
def runFrom (row : List Cell) (start stop : Nat) : Text :=
  (((row.take stop).drop start).takeWhile isSymbolCell).reduceOption

/-- A name has at least one character. -/
def named (run : Text) : Option Text := if run.isEmpty then none else some (canonical run)

def row (d : Document) (line : Nat) : List Cell := cells (d.line line)

/-- The name around column `c` of a row, behind the columns in front of `first`. -/
def inRow (row : List Cell) (first c : Nat) : Option Text :=
  named (runBefore row first c ++ runFrom row c row.length)

def isContinued (row : List Cell) (sentinel : Nat) : Bool := row[sentinel]?.any (· != some ' ')

/-- Source column, sentinel column, and blank columns of a continuation line. -/
structure Window where
  left : Nat
  right : Nat
  indent : Nat
deriving DecidableEq, Repr

/-- The column in which a continuation line goes on. Columns are words of 64 bits, and the sum wraps
around. -/
def Window.continuation (w : Window) : Nat := (w.left + w.indent) % UInt64.size

/-- The name around column `c` of the middle one of three rows of source statements. -/
def inWindow (w : Window) (previous this next : List Cell) (c : Nat) : Option Text :=
  let first := if isContinued previous w.right then w.continuation else w.left
  let before := runBefore this first c
  let after := runFrom this c w.right
  let head := if isContinued previous w.right ∧ c = first + before.length
    then runBefore previous first w.right else []
  let tail := if isContinued this w.right ∧ c + after.length = w.right
    then runFrom next w.continuation w.right else []
  named (head ++ before ++ after ++ tail)

/-- The line of object code in front of line `n` of block `b`; the page headers between two blocks do
not count. -/
def lineBefore? (blocks : List CodeBlock) (b n : Nat) : Option Nat := do
  let block ← blocks[b]?
  if block.codeStart < n then some (n - 1)
  else match b with
    | 0 => none
    | b + 1 => do
      let earlier ← blocks[b]?
      if earlier.stop = 0 then none else some (earlier.stop - 1)

/-- The line of object code behind line `n` of block `b`. -/
def lineAfter? (blocks : List CodeBlock) (b n : Nat) : Option Nat := do
  let block ← blocks[b]?
  if n + 1 < block.stop then some (n + 1) else blocks[b + 1]?.map (·.codeStart)

end Token

open Token in
/-- The name under a cursor, in upper case. -/
def Listing.nameAt? (l : Listing) (d : Document) (o : Options) (p : Position) : Option Text :=
  let plain := if p.line < d.lineCount then inRow (row d p.line) l.indicatorWidth p.character else none
  match l.sourceWindow?, l.blockAt? p.line with
  | some (left, right), some b =>
    if left ≤ p.character ∧ p.character < right then
      inWindow ⟨left, right, o.continuationIndent⟩
        ((lineBefore? l.blocks b p.line).elim [] (row d)) (row d p.line)
        ((lineAfter? l.blocks b p.line).elim [] (row d)) p.character
    else plain
  | _, _ => plain

end ListingIndex
