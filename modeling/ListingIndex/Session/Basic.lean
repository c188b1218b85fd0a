import ListingIndex.Outline.Contents
import ListingIndex.Outline.Offsets
import ListingIndex.Query.Symbol
import ListingIndex.Scan
import ListingIndex.Session.Live

/-! Sessions answer questions about documents and keep the listings of each document for as long as
its version stays. -/
namespace ListingIndex

/-- Why a document is not indexed. -/
inductive Refusal where
  | notAListing (uri languageId : String)
  | staleVersion (uri : String) (started finished : Int32)
deriving DecidableEq, Repr

def Refusal.message : Refusal → String
  | notAListing uri languageId => uri ++ " is not a listing (language id " ++ languageId ++ ")"
  | staleVersion uri started finished =>
    uri ++ " changed during parsing (version " ++ started.toInt.repr ++ " -> " ++
      finished.toInt.repr ++ ")"

/-- Listings of a document at one version. -/
structure Indexed where
  version : Int32
  listings : List Listing
deriving DecidableEq, Repr

def Indexed.diagnostics (i : Indexed) : List Diagnostic := i.listings.flatMap (·.diagnostics)

namespace LiveDocument

/-- Checks the language, and reads it once more where it is refused. -/
def checkLanguage (o : Options) (d : LiveDocument) : Except Refusal Unit × LiveDocument :=
  let (language, d) := d.readLanguage
  if o.accepts language then (.ok (), d)
  else
    let (language, d) := d.readLanguage
    (.error (.notAListing d.uri language), d)

/-- Scans a document between two reads of its version, which have to agree, and between two checks
of its language. -/
def index (o : Options) (d : LiveDocument) : Except Refusal Indexed × LiveDocument :=
  match d.checkLanguage o with
  | (.error e, d) => (.error e, d)
  | (.ok (), d) =>
    let (started, d) := d.readVersion
    let listings := d.listings
    let (finished, d) := d.readVersion
    if started ≠ finished then (.error (.staleVersion d.uri started finished), d)
    else match d.checkLanguage o with
      | (.error e, d) => (.error e, d)
      | (.ok (), d) => (.ok ⟨finished, listings⟩, d)

end LiveDocument

/-- Documents are told apart by their uri alone. -/
structure Session where
  options : Options
  indexed : Dictionary String Indexed
  published : Dictionary String (List Diagnostic)
deriving DecidableEq, Repr

namespace Session

def start (o : Options) : Session := ⟨o, .empty, .empty⟩

def release (s : Session) (uri : String) : Session :=
  { s with indexed := s.indexed.erase uri, published := s.published.erase uri }

def store (s : Session) (uri : String) (i : Indexed) : Session :=
  { s with indexed := s.indexed.insert uri i, published := s.published.insert uri i.diagnostics }

/-- An answer, with the session and the document as they are after it. -/
structure Answer (α : Type) where
  value : α
  session : Session
  document : LiveDocument
deriving DecidableEq, Repr

/-- Indexes a document. A refusal leaves nothing of an earlier version behind. -/
def index (s : Session) (d : LiveDocument) : Answer (Except Refusal (List Listing)) :=
  match d.index s.options with
  | (.ok i, d) => ⟨.ok i.listings, s.store d.uri i, d⟩
  | (.error e, d) => ⟨.error e, s.release d.uri, d⟩

/-- The listings of a document, indexed anew unless its version is the one already indexed. -/
def listings? (s : Session) (d : LiveDocument) : Answer (Option (List Listing)) :=
  let (version, d) := d.readVersion
  match (s.indexed.find? d.uri).filter (·.version == version) with
  | some i => ⟨some i.listings, s, d⟩
  | none =>
    let a := s.index d
    ⟨a.value.toOption, a.session, a.document⟩

def diagnostics (s : Session) (uri : String) : List Diagnostic := (s.published.find? uri).getD []

/-- Answers a question from the listings of a document, with `default` where there are none. -/
def ask {α : Type} (s : Session) (d : LiveDocument) (default : α) (question : List Listing → α) :
    Answer α :=
  let a := s.listings? d
  ⟨(a.value.map question).getD default, a.session, a.document⟩

/-- Answers a question from the listing that holds a line. -/
def askAt {α : Type} (s : Session) (d : LiveDocument) (p : Position) (default : α)
    (question : Listing → α) : Answer α :=
  s.ask d default fun listings =>
    ((listings.find? (·.containsLine p.line)).map question).getD default

def definitions (s : Session) (d : LiveDocument) (p : Position) : Answer (List Location) :=
  s.askAt d p [] fun l => l.definitions d.toDocument s.options p

def references (s : Session) (d : LiveDocument) (p : Position) (declarations : Bool) :
    Answer References :=
  s.askAt d p .none fun l => l.references d.toDocument s.options p declarations

def quotation? (s : Session) (d : LiveDocument) (p : Position) : Answer (Option Quotation) :=
  s.askAt d p none fun l => l.quotation? d.toDocument s.options p

def outline (s : Session) (d : LiveDocument) : Answer (List OutlineNode) :=
  s.ask d [] fun listings => ListingIndex.outline listings s.options

def offsets (s : Session) (d : LiveDocument) : Answer (List OutlineNode) :=
  s.ask d [] ListingIndex.offsets

end Session
end ListingIndex
