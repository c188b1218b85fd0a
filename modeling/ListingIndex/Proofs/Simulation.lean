import Mathlib
import ListingIndex.Proofs.Reading

/-! Two scans side by side. A relation of drafts that every line keeps, and that leaves every line the
same part in both scans, passes from the lines of two documents to the listings found in them. -/
namespace ListingIndex
open Line

namespace Scan

section
variable (R : Draft → Draft → Prop) (Q : Listing → Listing → Prop)

inductive Mode.Related : Mode → Mode → Prop
  | idle : Related .idle .idle
  | reading {d e : Draft} (h : R d e) : Related (.reading d) (.reading e)
  | skipping {d e : Draft} (h : R d e) : Related (.skipping d) (.skipping e)

structure Related (s t : Scan) : Prop where
  next : t.next = s.next
  found : List.Forall₂ Q s.found t.found
  mode : Mode.Related R s.mode t.mode

/-- What a relation of drafts asks for, so that it can be carried along two scans. -/
structure Simulation : Prop where
  start : ∀ n indicator, R (.startingAt n indicator) (.startingAt n indicator)
  indicator : ∀ {d e}, R d e → e.listing.indicator = d.listing.indicator
  finish : ∀ {d e}, R d e → ∀ stop, Q (d.finish stop) (e.finish stop)

/-- Two lines that a relation of drafts does not tell apart. -/
structure Alike (x y : Text) : Prop where
  opening : opening? y = opening? x
  ends : ∀ indicator, endsListing indicator y = endsListing indicator x
  hides : ∀ indicator, hidesNext indicator y = hidesNext indicator x
  add : ∀ {d e}, R d e → ∀ n, R (d.addLine n x) (e.addLine n y)

end

theorem Related.initial {R : Draft → Draft → Prop} {Q : Listing → Listing → Prop} :
    Related R Q Scan.initial Scan.initial := ⟨rfl, .nil, .idle⟩

section
variable {R : Draft → Draft → Prop} {Q : Listing → Listing → Prop} {s t : Scan}
  (hs : Simulation R Q)
include hs

theorem Related.read (h : Related R Q s t) {x y : Text} (hl : Alike R x y) {d e : Draft}
    (hd : R d e) : Related R Q (s.read d x) (t.read e y) := by
  have ha := hl.add hd s.next
  rw [read_eq, read_eq, hs.indicator hd, hl.ends, hl.hides, h.next]
  by_cases h₁ : endsListing d.listing.indicator x
  · simp only [h₁, if_true]
    exact ⟨rfl, List.rel_append h.found (.cons (hs.finish ha _) .nil), .idle⟩
  · by_cases h₂ : hidesNext d.listing.indicator x
    · simp only [h₁, h₂, if_true]
      exact ⟨rfl, h.found, .skipping ha⟩
    · simp only [h₁, h₂]
      exact ⟨rfl, h.found, .reading ha⟩

theorem Related.step (h : Related R Q s t) {x y : Text} (hl : Alike R x y) :
    Related R Q (s.step x) (t.step y) := by
  obtain ⟨n, found, mode⟩ := s
  obtain ⟨m, found', mode'⟩ := t
  obtain rfl : m = n := h.next
  have hm := h.mode
  cases hm with
  | idle =>
    simp only [Scan.step, reader?, hl.opening]
    cases opening? x with
    | none => exact ⟨rfl, h.found, .idle⟩
    | some indicator => exact h.read hs hl (hs.start m indicator)
  | reading hd => exact h.read hs hl hd
  | skipping hd => exact ⟨rfl, h.found, .reading hd⟩

theorem Related.run (h : Related R Q s t) {xs ys : List Text}
    (hl : List.Forall₂ (Alike R) xs ys) : Related R Q (s.run xs) (t.run ys) := by
  induction hl generalizing s t with
  | nil => exact h
  | cons hxy _ ih => exact ih (h.step hs hxy)

theorem Related.listings (h : Related R Q s t) : List.Forall₂ Q s.listings t.listings := by
  obtain ⟨n, found, mode⟩ := s
  obtain ⟨m, found', mode'⟩ := t
  obtain rfl : m = n := h.next
  have hm := h.mode
  cases hm with
  | idle => exact h.found
  | reading hd => exact List.rel_append h.found (.cons (hs.finish hd _) .nil)
  | skipping hd => exact List.rel_append h.found (.cons (hs.finish hd _) .nil)

end
end Scan
end ListingIndex
