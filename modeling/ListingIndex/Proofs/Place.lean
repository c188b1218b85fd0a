import Mathlib
import ListingIndex.Proofs.Reading

/-! Where a line stands. The boundaries above a line alone decide in which area it is read and under
which layout, so the records of a listing can be told without the scan. -/
namespace ListingIndex
open Line

/-- A line that is read, and where it stands. -/
structure Reading where
  number : ℕ
  line : Text
  place : Place
deriving DecidableEq, Repr

namespace Reading

/-- The record of a line between boundaries in an area, as the reader of the area finds it. -/
def record? {α : Type} (indicator : Bool) (area : Area) (read? : Text → Option α) (r : Reading) :
    Option α :=
  if boundary? indicator r.line = none ∧ r.place.area = area then read? r.line else none

def crossReference? (indicator : Bool) (r : Reading) : Option CrossReference :=
  r.record? indicator .crossReferences (Line.crossReference? indicator)

def dsect? (indicator : Bool) (r : Reading) : Option Dsect :=
  r.record? indicator .dsects (Line.dsect? indicator)

/-- Object code is read under the layout of the latest column header. -/
def code? (indicator : Bool) (r : Reading) : Option Code :=
  r.record? indicator .code fun line =>
    r.place.layout.bind fun layout => Line.code? layout indicator line

section
variable {α : Type} {indicator : Bool} {area : Area} {read? : Text → Option α} {r : Reading}

theorem record?_of_boundary {b : Boundary} (h : boundary? indicator r.line = some b) :
    r.record? indicator area read? = none := by
  simp [record?, h]

theorem record?_of_area_ne (h : r.place.area ≠ area) : r.record? indicator area read? = none := by
  simp [record?, h]

theorem record?_of_area (hb : boundary? indicator r.line = none) (ha : r.place.area = area) :
    r.record? indicator area read? = read? r.line := by
  simp [record?, hb, ha]

end
end Reading

/-- Puts lines at their places, the first one at `p`. -/
def Document.placed (doc : Document) (indicator : Bool) : Place → List ℕ → List Reading
  | _, [] => []
  | p, n :: ns =>
    ⟨n, doc.line n, p⟩ :: doc.placed indicator (p.after (boundary? indicator (doc.line n))) ns

/-- The lines of a listing that are read, each at its place. -/
def Listing.placed (l : Listing) (doc : Document) : List Reading :=
  doc.placed l.indicator .first (l.readings doc)

/-- Lines that follow each other from place `p` on. -/
def Consecutive (indicator : Bool) : Place → List Reading → Prop
  | _, [] => True
  | p, r :: rs => r.place = p ∧ Consecutive indicator (p.after (boundary? indicator r.line)) rs

theorem Document.consecutive_placed (doc : Document) (indicator : Bool) (p : Place) (ns : List ℕ) :
    Consecutive indicator p (doc.placed indicator p ns) := by
  induction ns generalizing p with
  | nil => trivial
  | cons n ns ih => exact ⟨rfl, ih _⟩

theorem Document.number_placed (doc : Document) (indicator : Bool) (p : Place) (ns : List ℕ) :
    (doc.placed indicator p ns).map (·.number) = ns := by
  induction ns generalizing p with
  | nil => rfl
  | cons n ns ih => simp [Document.placed, ih]

theorem Document.placed_append (doc : Document) (indicator : Bool) (p : Place) (ns ms : List ℕ) :
    ∃ q, doc.placed indicator p (ns ++ ms) =
      doc.placed indicator p ns ++ doc.placed indicator q ms := by
  induction ns generalizing p with
  | nil => exact ⟨p, rfl⟩
  | cons n ns ih =>
    obtain ⟨q, hq⟩ := ih (p.after (boundary? indicator (doc.line n)))
    refine ⟨q, ?_⟩
    rw [List.cons_append, Document.placed, hq, Document.placed, List.cons_append]

namespace Listing

theorem placed_ascending (l : Listing) (doc : Document) :
    (l.placed doc).Pairwise fun a b => a.number < b.number := by
  have hn : (l.placed doc).map (·.number) = l.readings doc := doc.number_placed ..
  have hr : (l.readings doc).Pairwise (· < ·) := doc.readings_ascending ..
  rw [← hn] at hr
  exact List.pairwise_map.mp hr

theorem number_mem_of_placed {l : Listing} {doc : Document} {r : Reading} (h : r ∈ l.placed doc) :
    r.number ∈ l.readings doc := by
  have hn : (l.placed doc).map (·.number) = l.readings doc := doc.number_placed ..
  rw [← hn]
  exact List.mem_map_of_mem h

/-- The lines in front of line `n` that a listing reads, each at its place. -/
def above (l : Listing) (doc : Document) (n : ℕ) : List Reading :=
  doc.placed l.indicator .first (doc.readings l.start l.indicator n)

/-- A line that is read parts the lines above it from the lines below it. -/
theorem placed_split {l : Listing} {doc : Document} {r : Reading} (hr : r ∈ l.placed doc) :
    r.line = doc.line r.number ∧ ∃ below, l.placed doc = l.above doc r.number ++ r :: below := by
  obtain ⟨rest, hs⟩ := Document.readings_split (number_mem_of_placed hr)
  obtain ⟨p, hp⟩ := doc.placed_append l.indicator .first
    (doc.readings l.start l.indicator r.number) (r.number :: rest)
  have hl : l.placed doc =
      l.above doc r.number ++ doc.placed l.indicator p (r.number :: rest) := by
    rw [placed, readings, hs]
    exact hp
  -- the numbers ascend, so the line found at this number is `r`
  have hu : ((l.placed doc).map (·.number)).Nodup :=
    (List.pairwise_map.mpr (l.placed_ascending doc)).imp Nat.ne_of_lt
  have he : r = ⟨r.number, doc.line r.number, p⟩ :=
    List.inj_on_of_nodup_map hu hr (by rw [hl]; simp [Document.placed]) rfl
  rw [Document.placed, ← he] at hl
  exact ⟨congrArg Reading.line he, _, hl⟩

end Listing

namespace Draft

/-- Reads lines one after the other. -/
def addReadings (d : Draft) (rs : List Reading) : Draft :=
  rs.foldl (fun d r => d.addLine r.number r.line) d

theorem addReadings_cons (d : Draft) (r : Reading) (rs : List Reading) :
    d.addReadings (r :: rs) = (d.addLine r.number r.line).addReadings rs := rfl

theorem addReadings_append (d : Draft) (rs qs : List Reading) :
    d.addReadings (rs ++ qs) = (d.addReadings rs).addReadings qs := List.foldl_append

theorem indicator_addReadings (d : Draft) (rs : List Reading) :
    (d.addReadings rs).listing.indicator = d.listing.indicator := by
  induction rs generalizing d with
  | nil => rfl
  | cons r rs ih => rw [addReadings_cons, ih, indicator_addLine]

end Draft

section
variable {d : Draft} {r : Reading} (hp : r.place = d.place)
include hp

theorem Draft.addLine_of_code {l : Code} (h : r.code? d.listing.indicator = some l) :
    ∃ layout, d.addLine r.number r.line = d.addCode r.number layout l := by
  have ha : r.place.area = d.area := congrArg Place.area hp
  have hy : r.place.layout = d.listing.layout := congrArg Place.layout hp
  rw [Reading.code?, Reading.record?, Option.ite_none_right_eq_some] at h
  obtain ⟨⟨hb, hc⟩, h⟩ := h
  obtain ⟨layout, hl, h⟩ := Option.bind_eq_some_iff.mp h
  refine ⟨layout, ?_⟩
  rw [addLine_record hb, addRecord]
  simp [← ha, hc, ← hy, hl, h]

theorem Draft.addLine_of_not_code (h : r.code? d.listing.indicator = none) :
    (d.addLine r.number r.line).codeIndex = d.codeIndex ∧
      (d.addLine r.number r.line).labels = d.labels := by
  cases hb : boundary? d.listing.indicator r.line with
  | some b =>
    rw [addLine_boundary hb]
    exact ⟨(d.boundaryFrame _ _ b).codeIndex, (d.boundaryFrame _ _ b).labels⟩
  | none =>
    have ha : r.place.area = d.area := congrArg Place.area hp
    have hy : r.place.layout = d.listing.layout := congrArg Place.layout hp
    rw [addLine_record hb]
    by_cases hc : d.area = .code
    · rw [Reading.code?, Reading.record?_of_area hb (ha.trans hc), hy] at h
      have hd : d.addRecord r.number r.line = d := by
        rw [addRecord, hc]
        cases hl : d.listing.layout with
        | none => rfl
        | some layout =>
          rw [hl, Option.bind_some] at h
          simp only [h, Option.elim_none]
      rw [hd]
      exact ⟨rfl, rfl⟩
    · exact ⟨(d.recordFrame _ _).codeIndex hc, (d.recordFrame _ _).labels hc⟩

end

theorem Consecutive.tail {d : Draft} {r : Reading} {rs : List Reading}
    (h : Consecutive d.listing.indicator d.place (r :: rs)) :
    Consecutive (d.addLine r.number r.line).listing.indicator
      (d.addLine r.number r.line).place rs := by
  rw [Draft.indicator_addLine, Draft.place_addLine]
  exact h.2

theorem consecutive_append {d : Draft} {rs qs : List Reading}
    (h : Consecutive d.listing.indicator d.place (rs ++ qs)) :
    Consecutive d.listing.indicator d.place rs ∧
      Consecutive d.listing.indicator (d.addReadings rs).place qs := by
  induction rs generalizing d with
  | nil => exact ⟨trivial, h⟩
  | cons r rs ih =>
    obtain ⟨hp, ht⟩ := h
    rw [← Draft.place_addLine d r.number, ← Draft.indicator_addLine d r.number r.line] at ht
    obtain ⟨h₁, h₂⟩ := ih ht
    rw [Draft.indicator_addLine, Draft.place_addLine] at h₁
    rw [Draft.indicator_addLine] at h₂
    exact ⟨⟨hp, h₁⟩, h₂⟩

theorem Document.draft_eq_addReadings (doc : Document) (start : ℕ) (indicator : Bool) (stop : ℕ) :
    doc.draft start indicator stop = (Draft.startingAt start indicator).addReadings
      (doc.placed indicator .first (doc.readings start indicator stop)) := by
  have hf : ∀ (p : Place) (ns : List ℕ) (d : Draft),
      ns.foldl (fun d n => d.addLine n (doc.line n)) d =
        d.addReadings (doc.placed indicator p ns) := by
    intro p ns
    induction ns generalizing p with
    | nil => intro d; rfl
    | cons n ns ih => intro d; exact ih _ _
  exact hf _ _ _

theorem Listing.place_draft {l : Listing} {doc : Document} {r : Reading} (hr : r ∈ l.placed doc) :
    (doc.draft l.start l.indicator r.number).place = r.place := by
  obtain ⟨-, below, hs⟩ := placed_split hr
  have hc : Consecutive l.indicator .first (l.placed doc) := doc.consecutive_placed ..
  rw [hs] at hc
  rw [doc.draft_eq_addReadings]
  exact (consecutive_append (d := .startingAt l.start l.indicator) hc).2.1.symm

/-- A listing is what its lines, each at its place, make of an empty draft. -/
theorem Document.Indexes.finish_placed {doc : Document} {l : Listing} (h : doc.Indexes l) :
    l = ((Draft.startingAt l.start l.indicator).addReadings (l.placed doc)).finish l.stop := by
  have hd := doc.draft_eq_addReadings l.start l.indicator l.stop
  exact h.finished.trans (congrArg (·.finish l.stop) hd)

end ListingIndex
