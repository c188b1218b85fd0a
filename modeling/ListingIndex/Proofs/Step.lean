import Mathlib
import ListingIndex.Scan

/-! One step of a scan, said once: which lines end a listing, which lines are passed over, and what
every line leaves as it was. -/
namespace ListingIndex
open Line

/-- The return code, the last line of a listing. -/
def endsListing (indicator : Bool) (line : Text) : Bool :=
  boundary? indicator line = some .returnCode

/-- A title line of the symbol cross reference: column headings stand on the line below it. -/
def hidesNext (indicator : Bool) (line : Text) : Bool :=
  boundary? indicator line = some (.report .symbolReferences)

/-- Where a line stands: its area, and the layout of object code in force. -/
structure Place where
  area : Area
  layout : Option Layout
deriving DecidableEq, Repr

namespace Place

def first : Place := ⟨.options, none⟩

/-- The place of the line that is read next. -/
def after (p : Place) : Option Boundary → Place
  | some (.report r) => { p with area := p.area.afterReport r }
  | some (.page _) => { p with area := p.area.afterPage }
  | some (.columns layout _) => { p with layout := some layout }
  | _ => p

end Place

/-- A block without the statement on its first line. -/
def CodeBlock.unstarted (b : CodeBlock) : CodeBlock := { b with firstStatement := none }

def Opened.unstarted : Opened → Opened
  | .report r => .report r
  | .block b => .block b.unstarted

theorem Opened.unstarted_startWith (o : Opened) (n statement : ℕ) :
    (o.startWith n statement).unstarted = o.unstarted := by
  cases o with
  | report r => rfl
  | block b =>
    simp only [startWith, unstarted, CodeBlock.unstarted]
    split <;> rfl

namespace Draft

/-- Reads line `n` as part of the listing. -/
def addLine (d : Draft) (n : ℕ) (line : Text) : Draft :=
  match boundary? d.listing.indicator line with
  | some b => d.addBoundary n line.length b
  | none => d.addRecord n line

theorem addLine_boundary {d : Draft} {line : Text} {b : Boundary}
    (h : boundary? d.listing.indicator line = some b) (n : ℕ) :
    d.addLine n line = d.addBoundary n line.length b := by
  simp [addLine, h]

theorem addLine_record {d : Draft} {line : Text}
    (h : boundary? d.listing.indicator line = none) (n : ℕ) :
    d.addLine n line = d.addRecord n line := by
  simp [addLine, h]

/-- What the first line of a listing settles. -/
def origin (d : Draft) : ℕ × Bool := (d.listing.start, d.listing.indicator)

def place (d : Draft) : Place := ⟨d.area, d.listing.layout⟩

/-- The statements on the first lines of blocks, the open block included. -/
def firstStatements (d : Draft) : List ℕ :=
  d.listing.blocks.filterMap (·.firstStatement) ++ match d.opened with
    | some (.block b) => b.firstStatement.toList
    | _ => []

/-- What lines of object code alone add to. -/
def codeIndex (d : Draft) : FloorMap StatementLine × ℕ × List ℕ × List ℕ :=
  (d.listing.statements, d.listing.lastStatement, d.transitions, d.firstStatements)

/-- What lines of the external symbol dictionary alone add to. -/
def sectionState (d : Draft) : Option Text × Dictionary Text Text × List ControlSection :=
  (d.sectionName, d.listing.sectionNames, d.listing.controlSections)

/-- What says where blocks and reports begin and end. -/
def extents (d : Draft) : ℕ × List CodeBlock × Dictionary Report LineRange × Option Opened :=
  (d.titleLine, d.listing.blocks, d.listing.reports, d.opened.map Opened.unstarted)

/-! What each kind of line can touch -/

theorem close_shape (d : Draft) (n : ℕ) : ∃ reports blocks, d.close n =
    { d with listing.reports := reports, listing.blocks := blocks, opened := none } := by
  cases ho : d.opened with
  | none =>
    have hd : d.close n = d := by simp [close, ho]
    exact ⟨d.listing.reports, d.listing.blocks, hd.trans (by rw [← ho])⟩
  | some o =>
    cases o with
    | report r =>
      simp only [close, ho]
      exact ⟨_, d.listing.blocks, rfl⟩
    | block b =>
      simp only [close, ho]
      exact ⟨d.listing.reports, _, rfl⟩

theorem codeIndex_close (d : Draft) (n : ℕ) : (d.close n).codeIndex = d.codeIndex := by
  unfold close
  cases ho : d.opened with
  | none => rfl
  | some o =>
    cases o with
    | report r => simp [codeIndex, firstStatements, ho]
    | block b => cases hb : b.firstStatement <;> simp [codeIndex, firstStatements, ho, hb]

theorem flush_shape (d : Draft) : ∃ symbols, d.flush =
    { d with listing.symbols := symbols, pending := none } := by
  cases hp : d.pending with
  | none =>
    have hd : d.flush = d := by simp [flush, hp]
    exact ⟨d.listing.symbols, hd.trans (by rw [← hp])⟩
  | some s =>
    refine ⟨d.listing.symbols.merge s, ?_⟩
    simp only [flush, hp]

theorem enter_shape (d : Draft) (a : Area) : ∃ symbols pending, d.enter a =
    { d with listing.symbols := symbols, pending := pending, area := a } := by
  unfold enter
  split
  · rename_i ha
    exact ⟨d.listing.symbols, d.pending, by rw [ha]⟩
  · obtain ⟨symbols, hs⟩ := flush_shape d
    exact ⟨symbols, none, by rw [hs]⟩

theorem addExternal_shape (d : Draft) (l : External) : ∃ names sections name, d.addExternal l =
    { d with
      listing.sectionNames := names
      listing.controlSections := sections
      sectionName := name } := by
  have hs : ∀ (e : Draft) name x, ∃ names sections, e.addSection name x =
      { e with listing.sectionNames := names, listing.controlSections := sections } := by
    intro e name x
    unfold addSection
    split
    · exact ⟨_, _, rfl⟩
    · exact ⟨e.listing.sectionNames, e.listing.controlSections, rfl⟩
  cases l with
  | named name x =>
    cases x with
    | none => exact ⟨d.listing.sectionNames, d.listing.controlSections, some name, rfl⟩
    | some x =>
      obtain ⟨names, sections, he⟩ := hs { d with sectionName := some name } name x
      exact ⟨names, sections, some name, he⟩
  | continuation x =>
    simp only [addExternal]
    split
    · obtain ⟨names, sections, he⟩ := hs d _ x
      exact ⟨names, sections, d.sectionName, he⟩
    · exact ⟨d.listing.sectionNames, d.listing.controlSections, d.sectionName, rfl⟩

theorem addCrossReference_shape (d : Draft) (l : CrossReference) : ∃ symbols pending,
    d.addCrossReference l = { d with listing.symbols := symbols, pending := pending } := by
  obtain ⟨symbols, hs⟩ := flush_shape d
  cases l with
  | entry name fields => exact ⟨symbols, _, by simp only [addCrossReference, hs]; rfl⟩
  | longName name => exact ⟨symbols, _, by simp only [addCrossReference, hs]; rfl⟩
  | deferred fields => exact ⟨d.listing.symbols, _, rfl⟩
  | more references => exact ⟨d.listing.symbols, _, rfl⟩

theorem addDsect_shape (d : Draft) (l : Dsect) : ∃ symbols name,
    d.addDsect l = { d with listing.symbols := symbols, dsectName := name } := by
  cases l with
  | named name e =>
    cases e with
    | none => exact ⟨d.listing.symbols, some name, rfl⟩
    | some e => exact ⟨_, some name, rfl⟩
  | continuation e =>
    simp only [addDsect]
    split
    · exact ⟨_, d.dsectName, rfl⟩
    · exact ⟨d.listing.symbols, d.dsectName, rfl⟩

theorem addUsing_shape (d : Draft) (u : Using) : ∃ statements,
    d.addUsing u = { d with baseRegisters := statements } := by
  unfold addUsing
  split
  · exact ⟨_, rfl⟩
  · exact ⟨d.baseRegisters, rfl⟩

/-- A property of a draft passes to what a record makes of it, if every kind of record keeps it. -/
theorem addRecord_cases {motive : Draft → Prop} (d : Draft) (n : ℕ) (line : Text)
    (same : motive d)
    (external : ∀ l, d.area = .externals → external? d.listing.indicator line = some l →
      motive (d.addExternal l))
    (code : ∀ layout l, d.area = .code → d.listing.layout = some layout →
      code? layout d.listing.indicator line = some l → motive (d.addCode n layout l))
    (reference : ∀ l, d.area = .crossReferences →
      crossReference? d.listing.indicator line = some l → motive (d.addCrossReference l))
    (dsect : ∀ l, d.area = .dsects → dsect? d.listing.indicator line = some l →
      motive (d.addDsect l))
    (base : ∀ l, d.area = .usings → using? d.listing.indicator line = some l →
      motive (d.addUsing l)) :
    motive (d.addRecord n line) := by
  unfold addRecord
  cases ha : d.area with
  | options => exact same
  | other => exact same
  | externals =>
    cases hl : external? d.listing.indicator line with
    | none => simpa [hl] using same
    | some l => simpa [hl] using external l ha hl
  | code =>
    cases hy : d.listing.layout with
    | none => simpa [hy] using same
    | some layout =>
      cases hl : code? layout d.listing.indicator line with
      | none => simpa [hy, hl] using same
      | some l => simpa [hy, hl] using code layout l ha hy hl
  | crossReferences =>
    cases hl : crossReference? d.listing.indicator line with
    | none => simpa [hl] using same
    | some l => simpa [hl] using reference l ha hl
  | dsects =>
    cases hl : dsect? d.listing.indicator line with
    | none => simpa [hl] using same
    | some l => simpa [hl] using dsect l ha hl
  | usings =>
    cases hl : using? d.listing.indicator line with
    | none => simpa [hl] using same
    | some l => simpa [hl] using base l ha hl

/-- What a boundary leaves as it was. It alone moves the place of the next line. -/
structure BoundaryFrame (d : Draft) (b : Boundary) (e : Draft) : Prop where
  origin : e.origin = d.origin
  place : e.place = d.place.after (some b)
  dsectName : e.dsectName = d.dsectName
  labels : e.labels = d.labels
  codeIndex : e.codeIndex = d.codeIndex
  sections : e.sectionState = d.sectionState

theorem boundaryFrame (d : Draft) (n width : ℕ) (b : Boundary) :
    d.BoundaryFrame b (d.addBoundary n width b) := by
  obtain ⟨reports, blocks, hc⟩ := close_shape d n
  have hi := codeIndex_close d n
  rw [hc] at hi
  cases b with
  | returnCode =>
    rw [addBoundary, hc]
    exact ⟨rfl, rfl, rfl, rfl, hi, rfl⟩
  | message code text => exact ⟨rfl, rfl, rfl, rfl, rfl, rfl⟩
  | columns layout c =>
    rw [addBoundary, hc]
    exact ⟨rfl, rfl, rfl, rfl, hi, rfl⟩
  | report r =>
    obtain ⟨symbols, pending, he⟩ := enter_shape ((d.close n).openReport n r) (d.area.afterReport r)
    rw [addBoundary, he, hc]
    exact ⟨rfl, rfl, rfl, rfl, hi, rfl⟩
  | page title =>
    obtain ⟨symbols, pending, he⟩ := enter_shape (d.close n) d.area.afterPage
    rw [addBoundary, he, hc]
    exact ⟨rfl, rfl, rfl, rfl, hi, rfl⟩

/-- What a line between boundaries leaves as it was: where the listing stands, and all that the lines
of its area do not tell of. -/
structure RecordFrame (d e : Draft) : Prop where
  origin : e.origin = d.origin
  place : e.place = d.place
  symbols : d.area ≠ .crossReferences → d.area ≠ .dsects → e.listing.symbols = d.listing.symbols
  pending : d.area ≠ .crossReferences → e.pending = d.pending
  dsectName : d.area ≠ .dsects → e.dsectName = d.dsectName
  labels : d.area ≠ .code → e.labels = d.labels
  codeIndex : d.area ≠ .code → e.codeIndex = d.codeIndex
  sections : d.area ≠ .externals → e.sectionState = d.sectionState
  extents : e.extents = d.extents
  title : e.title = d.title

theorem recordFrame (d : Draft) (n : ℕ) (line : Text) : d.RecordFrame (d.addRecord n line) := by
  apply addRecord_cases (motive := d.RecordFrame) d n line
  · exact ⟨rfl, rfl, fun _ _ => rfl, fun _ => rfl, fun _ => rfl, fun _ => rfl, fun _ => rfl,
      fun _ => rfl, rfl, rfl⟩
  · intro l ha _
    obtain ⟨names, sections, name, he⟩ := addExternal_shape d l
    rw [he]
    exact ⟨rfl, rfl, fun _ _ => rfl, fun _ => rfl, fun _ => rfl, fun _ => rfl, fun _ => rfl,
      fun h => absurd ha h, rfl, rfl⟩
  · intro layout l ha _ _
    have ho : (d.addCode n layout l).extents = d.extents := by
      simp [extents, addCode, Option.map_map, Function.comp_def, Opened.unstarted_startWith]
    exact ⟨rfl, rfl, fun _ _ => rfl, fun _ => rfl, fun _ => rfl,
      fun h => absurd ha h, fun h => absurd ha h, fun _ => rfl, ho, rfl⟩
  · intro l ha _
    obtain ⟨symbols, pending, he⟩ := addCrossReference_shape d l
    rw [he]
    exact ⟨rfl, rfl, fun h _ => absurd ha h, fun h => absurd ha h, fun _ => rfl, fun _ => rfl,
      fun _ => rfl, fun _ => rfl, rfl, rfl⟩
  · intro l ha _
    obtain ⟨symbols, name, he⟩ := addDsect_shape d l
    rw [he]
    exact ⟨rfl, rfl, fun _ h => absurd ha h, fun _ => rfl, fun h => absurd ha h, fun _ => rfl,
      fun _ => rfl, fun _ => rfl, rfl, rfl⟩
  · intro l _ _
    obtain ⟨statements, he⟩ := addUsing_shape d l
    rw [he]
    exact ⟨rfl, rfl, fun _ _ => rfl, fun _ => rfl, fun _ => rfl, fun _ => rfl, fun _ => rfl,
      fun _ => rfl, rfl, rfl⟩

theorem origin_addLine (d : Draft) (n : ℕ) (line : Text) : (d.addLine n line).origin = d.origin := by
  unfold addLine
  split
  · exact (boundaryFrame d n _ _).origin
  · exact (recordFrame d n line).origin

/-- The boundaries above a line alone decide where it stands. -/
theorem place_addLine (d : Draft) (n : ℕ) (line : Text) :
    (d.addLine n line).place = d.place.after (boundary? d.listing.indicator line) := by
  unfold addLine
  cases boundary? d.listing.indicator line with
  | none => exact (recordFrame d n line).place
  | some b => exact (boundaryFrame d n _ b).place

theorem start_addLine (d : Draft) (n : ℕ) (line : Text) :
    (d.addLine n line).listing.start = d.listing.start :=
  congrArg Prod.fst (origin_addLine d n line)

theorem indicator_addLine (d : Draft) (n : ℕ) (line : Text) :
    (d.addLine n line).listing.indicator = d.listing.indicator :=
  congrArg Prod.snd (origin_addLine d n line)

/-- The end of a listing ends what is open. All else that it settles is symbols and classes. -/
theorem finish_shape (d : Draft) (stop : ℕ) : ∃ symbols classes, d.finish stop =
    { (d.close stop).listing with stop := stop, symbols := symbols, sectionMap := classes } := by
  obtain ⟨symbols, hf⟩ := flush_shape d
  refine ⟨(d.finish stop).symbols, (d.finish stop).sectionMap, ?_⟩
  simp only [finish, addLabels, hf]
  cases ho : d.opened with
  | none => simp [close, ho]
  | some o => cases o <;> simp [close, ho]

theorem origin_finish (d : Draft) (stop : ℕ) :
    ((d.finish stop).start, (d.finish stop).indicator) = d.origin := by
  obtain ⟨symbols, hf⟩ := flush_shape d
  obtain ⟨reports, blocks, hc⟩ := close_shape d.flush stop
  simp only [finish]
  rw [hc, hf]
  rfl

theorem start_finish (d : Draft) (stop : ℕ) : (d.finish stop).start = d.listing.start :=
  congrArg Prod.fst (origin_finish d stop)

theorem indicator_finish (d : Draft) (stop : ℕ) :
    (d.finish stop).indicator = d.listing.indicator :=
  congrArg Prod.snd (origin_finish d stop)

theorem stop_finish (d : Draft) (stop : ℕ) : (d.finish stop).stop = stop := rfl

end Draft

namespace Scan

/-- Everything a line can do to a scan that reads it. -/
theorem read_eq (s : Scan) (d : Draft) (line : Text) :
    s.read d line =
      if endsListing d.listing.indicator line then
        ⟨s.next + 1, s.found ++ [(d.addLine s.next line).finish (s.next + 1)], .idle⟩
      else if hidesNext d.listing.indicator line then
        ⟨s.next + 1, s.found, .skipping (d.addLine s.next line)⟩
      else ⟨s.next + 1, s.found, .reading (d.addLine s.next line)⟩ := by
  unfold read endsListing hidesNext Draft.addLine
  cases hb : boundary? d.listing.indicator line with
  | none => simp
  | some b =>
    cases b with
    | report r => cases r <;> simp
    | _ => simp

/-- A line between boundaries does not end the listing. -/
theorem step_record {s : Scan} {d : Draft} {line : Text} (hm : s.mode = .reading d)
    (hb : boundary? d.listing.indicator line = none) :
    s.step line = ⟨s.next + 1, s.found, .reading (d.addRecord s.next line)⟩ := by
  simp only [step, reader?, hm, read, hb]

end Scan
end ListingIndex
