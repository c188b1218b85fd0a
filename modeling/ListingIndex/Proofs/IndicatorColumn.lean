import Mathlib
import ListingIndex.Proofs.Findings
import ListingIndex.Proofs.Step
import ListingIndex.Proofs.TitleLines

/-! One more column in front of every line. The lines of a listing with an indicator column say what
the same lines say without it, so the two scans run side by side: only the flag of the listing and
the width of its messages tell them apart. -/
namespace ListingIndex
open Line

/-- A message on a line that is one column wider. -/
def Diagnostic.widen (d : Diagnostic) : Diagnostic :=
  { d with span.stop.character := d.span.stop.character + 1 }

/-- The same listing with an indicator column. -/
def Listing.withIndicator (l : Listing) : Listing :=
  { l with indicator := true, diagnostics := l.diagnostics.map Diagnostic.widen }

namespace Draft

def withIndicator (d : Draft) : Draft := { d with listing := d.listing.withIndicator }

theorem aside_withIndicator : Aside withIndicator := ⟨fun _ => rfl, fun _ _ => rfl⟩

theorem close_withIndicator (d : Draft) (n : ℕ) :
    d.withIndicator.close n = (d.close n).withIndicator := by
  unfold close
  cases ho : d.opened with
  | none => simp [withIndicator, ho]
  | some o => cases o <;> simp [withIndicator, Listing.withIndicator, ho]

theorem addMessage_withIndicator (d : Draft) (n width : ℕ) (code text : Text) :
    d.withIndicator.addMessage n (width + 1) code text =
      (d.addMessage n width code text).withIndicator := by
  simp [addMessage, withIndicator, Listing.withIndicator, Diagnostic.onLine, Diagnostic.widen,
    Span.onLine]

theorem throughBoundaries_withIndicator (n : ℕ) : ThroughBoundaries withIndicator n n where
  toAside := aside_withIndicator
  close d := close_withIndicator d n
  closeSummary _ := rfl
  openBlock _ _ _ := rfl
  openReport _ _ := rfl
  turnPage _ _ := rfl

/-- A boundary does the same to both drafts; a message is one column wider in one of them. -/
theorem addBoundary_withIndicator (d : Draft) (n width : ℕ) (b : Boundary) :
    d.withIndicator.addBoundary n (width + 1) b = (d.addBoundary n width b).withIndicator :=
  (throughBoundaries_withIndicator n).addBoundary d fun code text _ =>
    addMessage_withIndicator d n width code text

section
variable {d : Draft} {c : Char} (hd : d.listing.indicator = false) (hc : c ≠ '\n')
include hd hc

/-- All readers of a draft without an indicator column see the line behind it. -/
theorem behindIndicator_withIndicator (line : Text) :
    behindIndicator d.withIndicator.listing.indicator (c :: line) =
      behindIndicator d.listing.indicator line := by
  have hf : Column.isFree c := by simpa [Column.isFree] using hc
  rw [hd]
  exact behindIndicator_cons hf line

theorem boundary?_withIndicator (line : Text) :
    boundary? d.withIndicator.listing.indicator (c :: line) =
      boundary? d.listing.indicator line := by
  simp only [boundary?, behindIndicator_withIndicator hd hc line]

theorem addRecord_withIndicator (n : ℕ) (line : Text) :
    d.withIndicator.addRecord n (c :: line) = (d.addRecord n line).withIndicator :=
  aside_withIndicator.addRecord (behindIndicator_withIndicator hd hc line) rfl fun _ _ => rfl

theorem addLine_withIndicator (n : ℕ) (line : Text) :
    d.withIndicator.addLine n (c :: line) = (d.addLine n line).withIndicator := by
  unfold addLine
  rw [boundary?_withIndicator hd hc line]
  cases boundary? d.listing.indicator line with
  | none => exact addRecord_withIndicator hd hc n line
  | some b => exact addBoundary_withIndicator d n line.length b

end

theorem finish_withIndicator (d : Draft) (stop : ℕ) :
    d.withIndicator.finish stop = (d.finish stop).withIndicator := by
  have hf : d.withIndicator.flush = d.flush.withIndicator := aside_withIndicator.comm local_flush d
  simp only [finish, hf, close_withIndicator]
  rfl

end Draft

namespace Scan

def Mode.withIndicator : Mode → Mode
  | .idle => .idle
  | .reading d => .reading d.withIndicator
  | .skipping d => .skipping d.withIndicator

/-- The scan of the same lines with an indicator column. -/
def withIndicator (s : Scan) : Scan :=
  ⟨s.next, s.found.map Listing.withIndicator, s.mode.withIndicator⟩

/-- Neither a finished listing nor the open one has an indicator column. -/
structure Plain (s : Scan) : Prop where
  found : ∀ l ∈ s.found, l.indicator = false
  reading : ∀ d, s.mode = .reading d → d.listing.indicator = false
  skipping : ∀ d, s.mode = .skipping d → d.listing.indicator = false

theorem plain_initial : initial.Plain :=
  ⟨by simp [initial], by simp [initial], by simp [initial]⟩

section
variable {s : Scan} {line : Text}

theorem plain_pass (hs : s.Plain) : s.pass.Plain := by
  refine ⟨hs.found, ?_, ?_⟩
  · intro d hd
    cases hm : s.mode with
    | idle => simp [pass, hm] at hd
    | reading e =>
      simp only [pass, hm, Mode.reading.injEq] at hd
      exact hd ▸ hs.reading e hm
    | skipping e =>
      simp only [pass, hm, Mode.reading.injEq] at hd
      exact hd ▸ hs.skipping e hm
  · intro d hd
    cases hm : s.mode <;> simp [pass, hm] at hd

theorem plain_read (hs : s.Plain) {d : Draft} (hd : d.listing.indicator = false) :
    (s.read d line).Plain := by
  have hl := (d.indicator_addLine s.next line).trans hd
  rw [read_eq]
  split_ifs
  · refine ⟨?_, by simp, by simp⟩
    intro l hm
    rcases List.mem_append.mp hm with hm | hm
    · exact hs.found l hm
    · rw [List.mem_singleton.mp hm, Draft.indicator_finish]
      exact hl
  · exact ⟨hs.found, by simp, by rintro _ ⟨⟩; exact hl⟩
  · exact ⟨hs.found, by rintro _ ⟨⟩; exact hl, by simp⟩

theorem pass_withIndicator : s.withIndicator.pass = s.pass.withIndicator := by
  cases hm : s.mode <;> simp [pass, withIndicator, hm, Mode.withIndicator]

theorem read_withIndicator {c : Char} (hc : c ≠ '\n') {d : Draft}
    (hd : d.listing.indicator = false) :
    s.withIndicator.read d.withIndicator (c :: line) = (s.read d line).withIndicator := by
  have hb := Draft.boundary?_withIndicator hd hc line
  have hl := Draft.addLine_withIndicator hd hc s.next line
  have he : endsListing d.withIndicator.listing.indicator (c :: line) =
      endsListing d.listing.indicator line := by simp only [endsListing, hb]
  have hh : hidesNext d.withIndicator.listing.indicator (c :: line) =
      hidesNext d.listing.indicator line := by simp only [hidesNext, hb]
  have hn : s.withIndicator.next = s.next := rfl
  rw [read_eq, read_eq, he, hh, hn, hl, Draft.finish_withIndicator]
  by_cases h₁ : endsListing d.listing.indicator line
  · simp [h₁, withIndicator, Mode.withIndicator]
  · by_cases h₂ : hidesNext d.listing.indicator line
    · simp [h₁, h₂, withIndicator, Mode.withIndicator]
    · simp [h₁, h₂, withIndicator, Mode.withIndicator]

end

/-- The opening of a listing shows through one more column, unless it already stood one column to
the right or only the added column makes it one. -/
theorem opening?_cons {c : Char} {line : Text} (hc : c ≠ '\n') (hp : opening? line ≠ some true)
    (hs : opening? (c :: line) ≠ some false) :
    opening? (c :: line) = (opening? line).map fun _ => true := by
  have hf : Column.isFree c := by simpa [Column.isFree] using hc
  have hb : behindIndicator true (c :: line) = some line := behindIndicator_cons hf line
  cases ht : isTitle line with
  | true =>
    have ho : opening? (c :: line) = some true := by simp [opening?, hb, ht]
    have hl : (opening? line).isSome := by
      simp [opening?, behindIndicator, ht]
    rw [ho]
    simpa using Option.isSome_iff_exists.mp hl
  | false =>
    have ho : opening? line ≠ some false := by
      intro h
      have := List.find?_some h
      simp [behindIndicator, ht] at this
    have hn : opening? line = none := by
      cases h : opening? line with
      | none => rfl
      | some b => cases b <;> contradiction
    have hm : opening? (c :: line) ≠ some true := by
      intro h
      have := List.find?_some h
      simp [hb, ht] at this
    rw [hn]
    cases h : opening? (c :: line) with
    | none => rfl
    | some b => cases b <;> contradiction

theorem step_withIndicator {s : Scan} {c : Char} {line : Text} (hs : s.Plain) (hc : c ≠ '\n')
    (hp : opening? line ≠ some true) (ho : opening? (c :: line) ≠ some false) :
    s.withIndicator.step (c :: line) = (s.step line).withIndicator ∧ (s.step line).Plain := by
  cases hm : s.mode with
  | idle =>
    have hr : s.withIndicator.reader? (c :: line) =
        (opening? line).map fun _ => Draft.startingAt s.next true := by
      simp only [reader?, withIndicator, hm, Mode.withIndicator, opening?_cons hc hp ho,
        Option.map_map]
      rfl
    cases hl : opening? line with
    | none =>
      have hr' : s.reader? line = none := by simp [reader?, hm, hl]
      simp only [step, hr, hr', hl, Option.map_none]
      exact ⟨pass_withIndicator, plain_pass hs⟩
    | some indicator =>
      have hi : indicator = false := by
        cases indicator with
        | false => rfl
        | true => exact absurd hl hp
      have hr' : s.reader? line = some (.startingAt s.next false) := by simp [reader?, hm, hl, hi]
      simp only [step, hr, hr', hl, Option.map_some]
      exact ⟨read_withIndicator (d := .startingAt s.next false) hc rfl, plain_read hs rfl⟩
  | reading d =>
    have hr : s.withIndicator.reader? (c :: line) = some d.withIndicator := by
      simp [reader?, withIndicator, hm, Mode.withIndicator]
    have hr' : s.reader? line = some d := by simp [reader?, hm]
    simp only [step, hr, hr']
    exact ⟨read_withIndicator hc (hs.reading d hm), plain_read hs (hs.reading d hm)⟩
  | skipping d =>
    have hr : s.withIndicator.reader? (c :: line) = none := by
      simp [reader?, withIndicator, hm, Mode.withIndicator]
    have hr' : s.reader? line = none := by simp [reader?, hm]
    simp only [step, hr, hr']
    exact ⟨pass_withIndicator, plain_pass hs⟩

theorem run_withIndicator {s : Scan} (hs : s.Plain) (rows : List (Char × Text))
    (hc : ∀ r ∈ rows, r.1 ≠ '\n') (hp : ∀ r ∈ rows, opening? r.2 ≠ some true)
    (ho : ∀ r ∈ rows, opening? (r.1 :: r.2) ≠ some false) :
    s.withIndicator.run (rows.map fun r => r.1 :: r.2) = (s.run (rows.map (·.2))).withIndicator ∧
      (s.run (rows.map (·.2))).Plain := by
  induction rows generalizing s with
  | nil => exact ⟨rfl, hs⟩
  | cons r rows ih =>
    obtain ⟨he, hn⟩ := step_withIndicator hs (hc r (by simp)) (hp r (by simp)) (ho r (by simp))
    have hi := ih hn (fun q hq => hc q (by simp [hq])) (fun q hq => hp q (by simp [hq]))
      (fun q hq => ho q (by simp [hq]))
    rw [← he] at hi
    exact hi

theorem listings_withIndicator (s : Scan) :
    s.withIndicator.listings = s.listings.map Listing.withIndicator := by
  cases hm : s.mode <;>
    simp [listings, withIndicator, hm, Mode.withIndicator, Draft.finish_withIndicator]

theorem Plain.listings {s : Scan} (hs : s.Plain) : ∀ l ∈ s.listings, l.indicator = false := by
  intro l hl
  cases hm : s.mode with
  | idle =>
    simp only [Scan.listings, hm] at hl
    exact hs.found l hl
  | reading d =>
    simp only [Scan.listings, hm, List.mem_append, List.mem_singleton] at hl
    rcases hl with hl | rfl
    · exact hs.found l hl
    · exact (d.indicator_finish s.next).trans (hs.reading d hm)
  | skipping d =>
    simp only [Scan.listings, hm, List.mem_append, List.mem_singleton] at hl
    rcases hl with hl | rfl
    · exact hs.found l hl
    · exact (d.indicator_finish s.next).trans (hs.skipping d hm)

end Scan

/-- A column of free characters in front of a document changes nothing that is found in it but the
flag of each listing and the width of its messages, as long as the column neither hides nor makes an
opening. -/
theorem listings_shifted (uri : String) (rows : List (Char × Text))
    (hc : ∀ r ∈ rows, r.1 ≠ '\n') (hp : ∀ r ∈ rows, opening? r.2 ≠ some true)
    (ho : ∀ r ∈ rows, opening? (r.1 :: r.2) ≠ some false) :
    (Document.mk uri (rows.map fun r => r.1 :: r.2)).listings =
        (Document.mk uri (rows.map (·.2))).listings.map Listing.withIndicator ∧
      ∀ l ∈ (Document.mk uri (rows.map (·.2))).listings, l.indicator = false := by
  obtain ⟨hr, hs⟩ := Scan.run_withIndicator Scan.plain_initial rows hc hp ho
  refine ⟨?_, hs.listings⟩
  calc
    (Scan.initial.run (rows.map fun r => r.1 :: r.2)).listings =
        (Scan.initial.run (rows.map (·.2))).withIndicator.listings := congrArg Scan.listings hr
    _ = (Scan.initial.run (rows.map (·.2))).listings.map Listing.withIndicator :=
      Scan.listings_withIndicator _

/-- The opening of a listing, a message and the return code, each behind a printer control. -/
def shiftedRows : List (Char × Text) :=
  [('1', reportRow .optionSummary 1), ('-', "** ASMA017W X".toList), (' ', "Return Code 004".toList)]

theorem listings_shifted_shiftedRows :
    (Document.mk "" (shiftedRows.map (·.2))).listings.map
        (fun l => (l.start, l.stop, l.diagnostics.map (·.span.stop.character))) = [(0, 3, [13])] ∧
      (Document.mk "" (shiftedRows.map fun r => r.1 :: r.2)).listings =
        (Document.mk "" (shiftedRows.map (·.2))).listings.map Listing.withIndicator := by
  have hc : ∀ r ∈ shiftedRows, r.1 ≠ '\n' := by decide +kernel
  have hp : ∀ r ∈ shiftedRows, opening? r.2 ≠ some true := by decide +kernel
  have ho : ∀ r ∈ shiftedRows, opening? (r.1 :: r.2) ≠ some false := by decide +kernel
  exact ⟨by decide +kernel, (listings_shifted "" shiftedRows hc hp ho).1⟩

end ListingIndex
