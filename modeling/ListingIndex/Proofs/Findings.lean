import Mathlib
import ListingIndex.Scan.Draft

/-! What the lines of the reports are read into, apart from the rest of a draft. A change of the
rest alone goes through every line that is read, so it can be carried along a scan. -/
namespace ListingIndex
open Line

/-- All of a draft that the lines of its reports are read into. -/
structure Findings where
  area : Area
  symbols : SymbolTable
  pending : Option Symbol
  sectionNames : Dictionary Text Text
  controlSections : List ControlSection
  sectionName : Option Text
  dsectName : Option Text
  baseRegisters : List ℕ
deriving DecidableEq, Repr

namespace Draft

def findings (d : Draft) : Findings where
  area := d.area
  symbols := d.listing.symbols
  pending := d.pending
  sectionNames := d.listing.sectionNames
  controlSections := d.listing.controlSections
  sectionName := d.sectionName
  dsectName := d.dsectName
  baseRegisters := d.baseRegisters

def setFindings (d : Draft) (w : Findings) : Draft :=
  { d with
    area := w.area
    listing.symbols := w.symbols
    pending := w.pending
    listing.sectionNames := w.sectionNames
    listing.controlSections := w.controlSections
    sectionName := w.sectionName
    dsectName := w.dsectName
    baseRegisters := w.baseRegisters }

def ofFindings (w : Findings) : Draft := (startingAt 0 false).setFindings w

/-- Reads and changes the findings, and nothing else. -/
def Local (g : Draft → Draft) : Prop :=
  ∀ d, g d = d.setFindings (g (ofFindings d.findings)).findings

/-- Keeps the findings and does not look at them. -/
structure Aside (f : Draft → Draft) : Prop where
  findings : ∀ d, (f d).findings = d.findings
  setFindings : ∀ d w, f (d.setFindings w) = (f d).setFindings w

theorem Aside.comm {f g : Draft → Draft} (hf : Aside f) (hg : Local g) (d : Draft) :
    g (f d) = f (g d) := by
  rw [hg (f d), hf.findings, ← hf.setFindings, ← hg d]

theorem local_flush : Local flush := by
  rintro ⟨l, area, opened, title, titleLine, pending, _⟩
  cases pending <;> rfl

theorem local_enter (a : Area) : Local (enter · a) := by
  rintro ⟨l, area, opened, title, titleLine, pending, _⟩
  by_cases ha : a = area
  · simp [enter, ofFindings, findings, setFindings, ha]
  · cases pending <;> simp [enter, ofFindings, findings, setFindings, ha, flush]

theorem local_addExternal (l : External) : Local (addExternal · l) := by
  have hs : ∀ name e, Local (addSection · name e) := by
    intro name e d
    cases he : e.isSection <;> simp [addSection, ofFindings, findings, setFindings, he]
  rintro ⟨k, area, opened, title, titleLine, pending, sectionName, _⟩
  cases l with
  | named name e =>
    cases e with
    | none => rfl
    | some e => exact hs name e _
  | continuation e =>
    cases sectionName with
    | none => rfl
    | some name => exact hs name e _

theorem local_addCrossReference (l : CrossReference) : Local (addCrossReference · l) := by
  rintro ⟨k, area, opened, title, titleLine, pending, _⟩
  cases l <;> cases pending <;> rfl

theorem local_addDsect (l : Dsect) : Local (addDsect · l) := by
  rintro ⟨k, area, opened, title, titleLine, pending, sectionName, dsectName, _⟩
  cases l with
  | named name e => cases e <;> rfl
  | continuation e => cases dsectName <;> rfl

theorem local_addUsing (u : Using) : Local (addUsing · u) := by
  intro d
  cases h : SectionClass.ofId u.sectionId <;> simp [addUsing, ofFindings, findings, setFindings, h]

/-- A line is read into two drafts alike, if they differ in nothing that it is read into and show it
to the same readers. Object code takes note of its line, so it is left to the caller. -/
theorem Aside.addRecord {f : Draft → Draft} (hf : Aside f) {d : Draft} {m n : ℕ} {line row : Text}
    (hl : behindIndicator (f d).listing.indicator row = behindIndicator d.listing.indicator line)
    (hy : (f d).listing.layout = d.listing.layout)
    (hc : ∀ layout l, (f d).addCode m layout l = f (d.addCode n layout l)) :
    (f d).addRecord m row = f (d.addRecord n line) := by
  have ha : (f d).area = d.area := congrArg Findings.area (hf.findings d)
  unfold Draft.addRecord
  simp only [ha, hy, external?, code?, crossReference?, dsect?, using?, hl]
  cases d.area with
  | options => rfl
  | other => rfl
  | externals =>
    cases (behindIndicator d.listing.indicator line).bind External.read? with
    | none => rfl
    | some l => exact hf.comm (local_addExternal l) d
  | code =>
    cases d.listing.layout with
    | none => rfl
    | some layout =>
      dsimp only
      cases (behindIndicator d.listing.indicator line).bind (Code.read? layout) with
      | none => rfl
      | some l => exact hc layout l
  | crossReferences =>
    cases (behindIndicator d.listing.indicator line).bind CrossReference.read? with
    | none => rfl
    | some l => exact hf.comm (local_addCrossReference l) d
  | dsects =>
    cases (behindIndicator d.listing.indicator line).bind Dsect.read? with
    | none => rfl
    | some l => exact hf.comm (local_addDsect l) d
  | usings =>
    cases (behindIndicator d.listing.indicator line).bind Using.read? with
    | none => rfl
    | some l => exact hf.comm (local_addUsing l) d

/-- Goes through the boundaries: what a boundary on line `n` ends and opens, it ends and opens on line
`m` in the other draft. -/
structure ThroughBoundaries (f : Draft → Draft) (m n : ℕ) : Prop extends Aside f where
  close : ∀ d, (f d).close m = f (d.close n)
  closeSummary : ∀ d, (f d).closeSummary m = f (d.closeSummary n)
  openBlock : ∀ d layout c, (f d).openBlock m layout c = f (d.openBlock n layout c)
  openReport : ∀ d r, (f d).openReport m r = f (d.openReport n r)
  turnPage : ∀ d title, { f d with title := title, titleLine := m } =
    f { d with title := title, titleLine := n }

/-- A boundary is read into two drafts alike. A message takes note of its line and its width, so it is
left to the caller. -/
theorem ThroughBoundaries.addBoundary {f : Draft → Draft} {m n : ℕ} (hf : ThroughBoundaries f m n)
    (d : Draft) {wide width : ℕ} {b : Boundary}
    (hm : ∀ code text, b = .message code text →
      (f d).addMessage m wide code text = f (d.addMessage n width code text)) :
    (f d).addBoundary m wide b = f (d.addBoundary n width b) := by
  have ha : (f d).area = d.area := congrArg Findings.area (hf.findings d)
  cases b with
  | message code text => exact hm code text rfl
  | returnCode => simp only [Draft.addBoundary, hf.close, hf.closeSummary]
  | columns layout c => simp only [Draft.addBoundary, hf.close, hf.openBlock]
  | report r =>
    simp only [Draft.addBoundary, hf.close, hf.openReport, ha]
    exact hf.comm (local_enter _) _
  | page title =>
    have he := hf.comm (local_enter d.area.afterPage) (d.close n)
    simp only [Draft.addBoundary, hf.close, ha]
    calc
      { (f (d.close n)).enter d.area.afterPage with title := title, titleLine := m } =
          { f ((d.close n).enter d.area.afterPage) with title := title, titleLine := m } := by
        rw [he]
      _ = f { (d.close n).enter d.area.afterPage with title := title, titleLine := n } :=
        hf.turnPage _ title

end Draft

end ListingIndex
