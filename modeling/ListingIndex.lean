import ListingIndex.Text.Lines
import ListingIndex.Line.Opening
import ListingIndex.Line.Boundary
import ListingIndex.Line.Code
import ListingIndex.Line.CrossReference
import ListingIndex.Line.External
import ListingIndex.Line.Dsect
import ListingIndex.Line.Using
import ListingIndex.Line.Reference
import ListingIndex.Collection.NumberSet
import ListingIndex.Collection.FloorMap
import ListingIndex.Collection.Dictionary
import ListingIndex.Document
import ListingIndex.Options
import ListingIndex.Listing
import ListingIndex.Scan
import ListingIndex.Session.Basic
import ListingIndex.Proofs.IndicatorColumn
import ListingIndex.Proofs.Place
import ListingIndex.Proofs.SymbolGroups
import ListingIndex.Proofs.DenseClasses
import ListingIndex.Proofs.FreshAnswers
import ListingIndex.Proofs.Concatenation
import ListingIndex.Proofs.StatementIndex
import ListingIndex.Proofs.Ranges
import ListingIndex.Proofs.ShiftedCursor
import ListingIndex.Proofs.SymbolAnswers
import ListingIndex.Proofs.Simulation
import ListingIndex.Proofs.ContinuationLines
import ListingIndex.Proofs.Skeleton
import ListingIndex.Proofs.LabelDefinitions
import ListingIndex.Proofs.CutNames
import ListingIndex.Proofs.Gains
import ListingIndex.Proofs.Growth
import ListingIndex.Proofs.Numerals
import ListingIndex.Proofs.Fields
import ListingIndex.Proofs.ObjectColumns
import ListingIndex.Proofs.ReferenceLists
import ListingIndex.Proofs.PrintedEntries
import ListingIndex.Proofs.Chapters
import ListingIndex.Proofs.StorageOffsets
import ListingIndex.Proofs.CodeOutline
import ListingIndex.Proofs.EvidenceChanges
import ListingIndex.Proofs.Messages
import ListingIndex.Proofs.SectionOwners
import ListingIndex.Proofs.SymbolUnions
import ListingIndex.Proofs.TitleLines
import ListingIndex.Proofs.IndicatorCharacters
import ListingIndex.Proofs.ObjectCodeLines
import ListingIndex.Proofs.DigitRuns
import ListingIndex.Proofs.WholeNames
