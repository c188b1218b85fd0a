import ListingIndex.Text.Basic

/-! The nine reports that a listing may hold, in the order in which the assembler prints them. -/
namespace ListingIndex

inductive Report where
  | optionSummary
  | externalSymbols
  | relocations
  | symbolReferences
  | sourceSummary
  | dsectReferences
  | usingMap
  | registerReferences
  | assemblerSummary
deriving DecidableEq, Repr

namespace Report

def all : List Report :=
  [optionSummary, externalSymbols, relocations, symbolReferences, sourceSummary, dsectReferences,
   usingMap, registerReferences, assemblerSummary]

/-- Place of a report in the printed order, from zero. -/
def index (r : Report) : Nat := all.idxOf r

/-- The wording in the title line of every page of the report. -/
def title : Report → Text
  | optionSummary => "High Level Assembler Option Summary".toList
  | externalSymbols => "External Symbol Dictionary".toList
  | relocations => "Relocation Dictionary".toList
  | symbolReferences => "Ordinary Symbol and Literal Cross Reference".toList
  | sourceSummary => "Macro and Copy Code Source Summary".toList
  | dsectReferences => "Dsect Cross Reference".toList
  | usingMap => "Using Map".toList
  | registerReferences => "General Purpose Register Cross Reference".toList
  | assemblerSummary => "Diagnostic Cross Reference and Assembler Summary".toList

theorem mem_all (r : Report) : r ∈ all := by cases r <;> decide

end Report
end ListingIndex
