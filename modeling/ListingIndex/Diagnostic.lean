import ListingIndex.Position
import ListingIndex.Text.Basic

/-! Messages that the assembler prints into the listing. -/
namespace ListingIndex

inductive Severity where
  | error
  | warning
  | info
  | hint
deriving DecidableEq, Repr

namespace Severity

/-- The last letter of a message code gives its severity. -/
def ofCode (code : Text) : Severity :=
  match code.getLast? with
  | some 'N' => hint
  | some 'I' => info
  | some 'W' => warning
  | _ => error

def level : Severity → Nat
  | error => 1
  | warning => 2
  | info => 3
  | hint => 4

end Severity

structure Diagnostic where
  span : Span
  severity : Severity
  code : Text
  message : Text
deriving DecidableEq, Repr

/-- A message covers the whole line on which it is printed. -/
def Diagnostic.onLine (line width : Nat) (code message : Text) : Diagnostic :=
  ⟨Span.onLine line 0 width, Severity.ofCode code, code, message⟩

end ListingIndex
