/-! Text of a listing and the characters that make up symbol names.
All classes here are ASCII classes: the assembler's names admit no other character. -/
namespace ListingIndex

/-- Text of a document, one character after another. -/
abbrev Text := List Char

namespace Text

def isNational (c : Char) : Bool := c == '$' || c == '#' || c == '@' || c == '_'

def isSymbolStart (c : Char) : Bool := c.isAlpha || isNational c

def isSymbolChar (c : Char) : Bool := c.isAlphanum || isNational c

/-- Names are compared in upper case; only the letters `a` to `z` change. -/
def canonical (name : Text) : Text := name.map Char.toUpper

theorem length_canonical (name : Text) : (canonical name).length = name.length := by
  simp [canonical]

end Text
end ListingIndex
