import Mathlib
import ListingIndex.Proofs.Findings
import ListingIndex.Proofs.Reading
import ListingIndex.Proofs.TitleLines

/-! Documents put together. A document whose listings have all ended leaves nothing behind for the
text below it, and no line is read for its number, so what follows is found as if it stood alone and
were then moved down. -/
namespace ListingIndex
open Line

def Diagnostic.below (k : ℕ) (d : Diagnostic) : Diagnostic :=
  { d with
    span.start.line := d.span.start.line + k
    span.stop.line := d.span.stop.line + k }

def StatementLine.below (k : ℕ) (s : StatementLine) : StatementLine := { s with line := s.line + k }

def CodeBlock.below (k : ℕ) (b : CodeBlock) : CodeBlock :=
  { b with start := b.start + k, codeStart := b.codeStart + k, stop := b.stop + k }

def LineRange.below (k : ℕ) (r : LineRange) : LineRange := ⟨r.start + k, r.stop + k⟩

namespace Dictionary
variable {κ α β : Type}

def mapValues (f : α → β) (d : Dictionary κ α) : Dictionary κ β :=
  ⟨d.entries.map fun e => (e.1, f e.2)⟩

variable [DecidableEq κ]

theorem find?_mapValues (f : α → β) (d : Dictionary κ α) (k : κ) :
    (d.mapValues f).find? k = (d.find? k).map f := by
  simp only [find?, mapValues, List.find?_map, Option.map_map]
  rfl

theorem insertIfNew_mapValues (f : α → β) (d : Dictionary κ α) (k : κ) (a : α) :
    (d.mapValues f).insertIfNew k (f a) = (d.insertIfNew k a).mapValues f := by
  have hr : ∀ l : List (κ × α), replace k (fun _ => f a) (l.map fun e => (e.1, f e.2)) =
      (replace k (fun _ => a) l).map fun e => (e.1, f e.2) := by
    intro l
    induction l with
    | nil => rfl
    | cons e l ih => by_cases he : e.1 = k <;> simp [replace, he, ih]
  have hc : (d.mapValues f).contains k = d.contains k := by
    rw [contains, find?_mapValues, Option.isSome_map, contains]
  unfold insertIfNew
  rw [hc]
  split
  · rfl
  · exact congrArg Dictionary.mk (hr d.entries)

theorem modify_mapValues {f : α → β} {g : α → α} {h : β → β} (hf : ∀ a, h (f a) = f (g a))
    (d : Dictionary κ α) (k : κ) : (d.mapValues f).modify k h = (d.modify k g).mapValues f := by
  refine congrArg Dictionary.mk ?_
  simp only [mapValues, modify, List.map_map]
  apply List.map_congr_left
  intro e _
  by_cases he : e.1 = k <;> simp [he, hf]

end Dictionary

theorem FloorMap.update_mapIdx {α β : Type} {g : ℕ → α → β} {k : ℕ} {f : Option α → α}
    {h : Option β → β} (hf : ∀ a, h (a.map (g k)) = g k (f a)) (m : FloorMap α) :
    (m.mapIdx g).update k h = (m.update k f).mapIdx g := by
  apply FloorMap.ext
  intro n
  rw [find?_update, find?_mapIdx, find?_mapIdx, find?_mapIdx, find?_update, hf]
  by_cases hn : n = k <;> simp [hn]

/-- The same listing below `k` more lines. -/
def Listing.below (k : ℕ) (l : Listing) : Listing :=
  { l with
    start := l.start + k
    stop := l.stop + k
    diagnostics := l.diagnostics.map (·.below k)
    statements := l.statements.mapIdx fun _ s => s.below k
    blocks := l.blocks.map (·.below k)
    reports := l.reports.mapValues (·.below k) }

def Opened.below (k : ℕ) : Opened → Opened
  | report r => report r
  | block b => block (b.below k)

namespace Draft

def below (k : ℕ) (d : Draft) : Draft :=
  { d with
    listing := d.listing.below k
    opened := d.opened.map (·.below k)
    titleLine := d.titleLine + k }

theorem aside_below (k : ℕ) : Aside (below k) := ⟨fun _ => rfl, fun _ _ => rfl⟩

section
variable (k : ℕ) (d : Draft) (n : ℕ)

theorem close_below : (d.below k).close (n + k) = (d.close n).below k := by
  unfold close
  cases ho : d.opened with
  | none => simp [below, ho]
  | some o =>
    cases o with
    | report r =>
      have hr := Dictionary.modify_mapValues (f := LineRange.below k)
        (g := fun range => { range with stop := n })
        (h := fun range => { range with stop := n + k }) (fun _ => rfl) d.listing.reports r
      simp [below, Listing.below, Opened.below, ho, hr]
    | block b => simp [below, Listing.below, Opened.below, CodeBlock.below, ho]

theorem closeSummary_below : (d.below k).closeSummary (n + k) = (d.closeSummary n).below k := by
  have hr := Dictionary.modify_mapValues (f := LineRange.below k)
    (g := fun range => { range with stop := n + 1 })
    (h := fun range => { range with stop := n + k + 1 })
    (fun a => by simp [LineRange.below, Nat.add_right_comm]) d.listing.reports .assemblerSummary
  simp [closeSummary, below, Listing.below, hr]

theorem openBlock_below (layout : Layout) (c : SectionClass) :
    (d.below k).openBlock (n + k) layout c = (d.openBlock n layout c).below k := by
  simp [openBlock, below, Listing.below, Opened.below, CodeBlock.below, Nat.add_right_comm]

theorem openReport_below (r : Report) :
    (d.below k).openReport (n + k) r = (d.openReport n r).below k := by
  have hr : (d.listing.reports.mapValues (LineRange.below k)).insertIfNew r ⟨n + k, n + k⟩ = _ :=
    Dictionary.insertIfNew_mapValues (LineRange.below k) d.listing.reports r ⟨n, n⟩
  simp [openReport, below, Listing.below, Opened.below, hr]

theorem addMessage_below (width : ℕ) (code text : Text) :
    (d.below k).addMessage (n + k) width code text = (d.addMessage n width code text).below k := by
  simp [addMessage, below, Listing.below, Diagnostic.below, Diagnostic.onLine, Span.onLine]

theorem throughBoundaries_below : ThroughBoundaries (below k) (n + k) n where
  toAside := aside_below k
  close d := close_below k d n
  closeSummary d := closeSummary_below k d n
  openBlock d := openBlock_below k d n
  openReport d := openReport_below k d n
  turnPage _ _ := rfl

theorem addBoundary_below (width : ℕ) (b : Boundary) :
    (d.below k).addBoundary (n + k) width b = (d.addBoundary n width b).below k :=
  (throughBoundaries_below k n).addBoundary d fun code text _ =>
    addMessage_below k d n width code text

theorem addCode_below (layout : Layout) (l : Code) :
    (d.below k).addCode (n + k) layout l = (d.addCode n layout l).below k := by
  have hs := FloorMap.update_mapIdx (g := fun _ s => StatementLine.below k s) (k := l.statement)
    (f := placeStatement n l.address) (h := placeStatement (n + k) l.address)
    (fun a => by cases a <;> rfl) d.listing.statements
  have ho : ∀ o : Opened, (o.below k).startWith (n + k) l.statement =
      (o.startWith n l.statement).below k := by
    intro o
    cases o with
    | report r => rfl
    | block b =>
      by_cases hb : b.codeStart = n <;>
        simp [Opened.below, Opened.startWith, CodeBlock.below, hb]
  simp only [addCode, below, Listing.below, hs, Option.map_map, Function.comp_def, ho]

theorem addLine_below (line : Text) :
    (d.below k).addLine (n + k) line = (d.addLine n line).below k := by
  cases hb : boundary? d.listing.indicator line with
  | none =>
    rw [addLine_record hb, addLine_record (d := d.below k) hb]
    exact (aside_below k).addRecord rfl rfl (addCode_below k d n)
  | some b =>
    rw [addLine_boundary hb, addLine_boundary (d := d.below k) hb]
    exact addBoundary_below k d n line.length b

theorem finish_below : (d.below k).finish (n + k) = (d.finish n).below k := by
  -- the clues of a block are its class and its first statement, and no line
  have hf : (d.below k).flush = d.flush.below k := (aside_below k).comm local_flush d
  have hb : ∀ blocks : List CodeBlock,
      (blocks.map (·.below k)).filterMap CodeBlock.clue? = blocks.filterMap CodeBlock.clue? := by
    intro blocks
    rw [List.filterMap_map]
    rfl
  have hm : ∀ last symbols blocks bases transitions,
      SectionMap.classify last symbols (blocks.map (·.below k)) bases transitions =
        SectionMap.classify last symbols blocks bases transitions := by
    intro last symbols blocks bases transitions
    simp only [SectionMap.classify, SectionMap.clues, hb]
  simp only [finish, hf, close_below]
  simp only [addLabels, below, Listing.below, hm]

end
end Draft

namespace Scan

def Mode.below (k : ℕ) : Mode → Mode
  | idle => idle
  | reading d => reading (d.below k)
  | skipping d => skipping (d.below k)

/-- The same scan below `k` more lines, in which the listings `above` were found. -/
def below (k : ℕ) (above : List Listing) (s : Scan) : Scan :=
  ⟨s.next + k, above ++ s.found.map (·.below k), s.mode.below k⟩

section
variable (k : ℕ) (above : List Listing) (s : Scan)

theorem reader?_below (line : Text) :
    (s.below k above).reader? line = (s.reader? line).map (·.below k) := by
  unfold reader?
  cases hm : s.mode with
  | idle =>
    simp only [below, hm, Mode.below, Option.map_map]
    rfl
  | reading d => simp [below, hm, Mode.below]
  | skipping d => simp [below, hm, Mode.below]

theorem pass_below : (s.below k above).pass = s.pass.below k above := by
  cases hm : s.mode <;> simp [pass, below, hm, Mode.below, Nat.add_right_comm]

theorem read_below (d : Draft) (line : Text) :
    (s.below k above).read (d.below k) line = (s.read d line).below k above := by
  have hi : (d.below k).listing.indicator = d.listing.indicator := rfl
  have hn : (s.below k above).next + 1 = s.next + 1 + k := Nat.add_right_comm ..
  have hl : (d.below k).addLine (s.below k above).next line = (d.addLine s.next line).below k :=
    Draft.addLine_below k d s.next line
  rw [read_eq, read_eq, hi, hn, hl, Draft.finish_below]
  by_cases he : endsListing d.listing.indicator line
  · simp [he, below, Mode.below]
  · by_cases hh : hidesNext d.listing.indicator line <;> simp [he, hh, below, Mode.below]

theorem step_below (line : Text) :
    (s.below k above).step line = (s.step line).below k above := by
  unfold step
  rw [reader?_below]
  cases s.reader? line with
  | none => exact pass_below k above s
  | some d => exact read_below k above s d line

theorem run_below (lines : List Text) :
    (s.below k above).run lines = (s.run lines).below k above := by
  induction lines generalizing s with
  | nil => rfl
  | cons line lines ih =>
    have hr : (s.below k above).run (line :: lines) = ((s.below k above).step line).run lines := rfl
    rw [hr, step_below, ih]
    rfl

theorem listings_below : (s.below k above).listings = above ++ s.listings.map (·.below k) := by
  cases hm : s.mode <;>
    simp [listings, below, hm, Mode.below, Draft.finish_below]

end
end Scan

/-- An open listing has read no return code. -/
theorem Document.Opens.not_endsAtReturnCode {doc : Document} {start n : ℕ} {indicator : Bool}
    {d : Draft} (h : doc.Opens start indicator n d) : ¬ (d.finish n).EndsAtReturnCode doc := by
  have hs := (Draft.start_finish d n).trans (congrArg Prod.fst h.origin_eq)
  have hi := (Draft.indicator_finish d n).trans (congrArg Prod.snd h.origin_eq)
  rintro ⟨hm, hb, -⟩
  rw [Listing.readings, hs, hi] at hm
  rw [hi] at hb
  exact h.running _ hm (by simp [endsListing, hb])

/-- A document in which all listings have ended leaves its scan idle. -/
theorem Document.idle_of_ended {doc : Document}
    (h : ∀ l ∈ doc.listings, l.EndsAtReturnCode doc) :
    (Scan.initial.run doc.lines).mode = .idle := by
  have hf := Scan.follows_run doc le_rfl
  have hall : doc.lines.take doc.lineCount = doc.lines := List.take_length
  rw [hall, Scan.Follows] at hf
  rw [Document.listings, Scan.listings] at h
  cases hm : (Scan.initial.run doc.lines).mode with
  | idle => rfl
  | reading d =>
    simp only [hm] at hf h
    obtain ⟨start, indicator, -, -, ho, -⟩ := hf
    exact absurd (h _ (by simp)) ho.not_endsAtReturnCode
  | skipping d =>
    simp only [hm] at hf h
    obtain ⟨start, indicator, -, -, ho, -⟩ := hf
    exact absurd (h _ (by simp)) ho.not_endsAtReturnCode

/-- Below a document in which all listings have ended, the listings of further lines are found as in
a document of their own, only further down. -/
theorem listings_append (uri : String) (a b : List Text)
    (h : ∀ l ∈ (Document.mk uri a).listings, l.EndsAtReturnCode (Document.mk uri a)) :
    (Document.mk uri (a ++ b)).listings = (Document.mk uri a).listings ++
      (Document.mk uri b).listings.map (·.below a.length) := by
  let s := Scan.initial.run a
  have hm : s.mode = .idle := Document.idle_of_ended h
  -- what is left of `a` is a scan that has found nothing yet, only further down
  have hf : s.listings = s.found := by rw [Scan.listings, hm]
  have hn : s.next = 0 + a.length := Scan.next_run Scan.initial a
  have hs : s = Scan.initial.below a.length s.listings := by
    rw [hf, Scan.below, Scan.initial, Scan.Mode.below, List.map_nil, List.append_nil, ← hn, ← hm]
  calc
    (Scan.initial.run (a ++ b)).listings = (s.run b).listings := by rw [Scan.run_append]
    _ = ((Scan.initial.below a.length s.listings).run b).listings := by rw [← hs]
    _ = ((Scan.initial.run b).below a.length s.listings).listings := by rw [Scan.run_below]
    _ = s.listings ++ (Scan.initial.run b).listings.map (·.below a.length) :=
      Scan.listings_below a.length s.listings (Scan.initial.run b)

/-- A log in front of a listing without object code. -/
def shortRun : List Text :=
  ["JOB 17 STARTED".toList, reportRow .optionSummary 1,
    "Return Code 000".toList]

/-- A listing with a block of object code and a message in it. -/
def longRun : List Text :=
  [reportRow .optionSummary 1, titleRow "SAMPLE".toList 1,
    "  Loc  Object Code    Addr1 Addr2  Stmt   Source Statement".toList,
    "000000                00000 00018     1 SAMPLE   CSECT".toList,
    "** ASMA017W X".toList, "Return Code 004".toList]

theorem listings_append_shortRun_longRun :
    (∀ l ∈ (Document.mk "" shortRun).listings, l.EndsAtReturnCode (Document.mk "" shortRun)) ∧
      (Document.mk "" (shortRun ++ longRun)).listings = (Document.mk "" shortRun).listings ++
        (Document.mk "" longRun).listings.map (·.below shortRun.length) ∧
      (Document.mk "" (shortRun ++ longRun)).listings.map (fun l =>
          (l.start, l.stop, l.statements.toList.map (·.2.line), l.blocks.map (·.codeStart))) =
        [(1, 3, [], []), (3, 9, [6], [6])] := by
  have h : ∀ l ∈ (Document.mk "" shortRun).listings,
      l.EndsAtReturnCode (Document.mk "" shortRun) := by
    unfold Listing.EndsAtReturnCode
    decide +kernel
  exact ⟨h, listings_append "" shortRun longRun h, by decide +kernel⟩

end ListingIndex
