import ListingIndex.Text.Basic

/-! Settings of the index. -/
namespace ListingIndex

structure Options where
  /-- Language of the documents that hold listings. -/
  languageId : String
  /-- Blank columns at the start of a continuation line. -/
  continuationIndent : Nat
  /-- First character of the names of literals. -/
  literalMark : Char
deriving DecidableEq, Repr

namespace Options

def standard : Options := ⟨"hlasmListing", 15, '='⟩

def accepts (o : Options) (languageId : String) : Bool := o.languageId == languageId

def isLiteral (o : Options) (name : Text) : Bool := name.head? == some o.literalMark

theorem isLiteral_iff {o : Options} {name : Text} :
    o.isLiteral name ↔ name.head? = some o.literalMark := beq_iff_eq

end Options
end ListingIndex
