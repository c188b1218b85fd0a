import Mathlib
import ListingIndex.Proofs.Ranges
import ListingIndex.Proofs.StatementIndex

/-! Blocks of object code and the titles of their pages. A block takes its title and its first line
from the latest page in front of it, so blocks under different titles have a page between them; and
no statement is read before the first block is open. -/
namespace ListingIndex
open Line

namespace Draft

theorem title_addBoundary (d : Draft) (n width : ℕ) (b : Boundary) :
    (d.addBoundary n width b).title = match b with
      | .page title => title
      | _ => d.title := by
  obtain ⟨reports, blocks, hc⟩ := close_shape d n
  cases b with
  | message code text => rfl
  | returnCode =>
    rw [addBoundary, hc]
    rfl
  | columns layout c =>
    rw [addBoundary, hc]
    rfl
  | page title => rfl
  | report r =>
    obtain ⟨symbols, pending, he⟩ := enter_shape ((d.close n).openReport n r) (d.area.afterReport r)
    rw [addBoundary, he, hc]
    rfl

/-- What a boundary makes of the blocks: it leaves them open, or it ends them in front of line `n`,
and a column header adds one. -/
theorem blocksAt_addBoundary (d : Draft) (n width m : ℕ) (b : Boundary) :
    (d.addBoundary n width b).blocksAt m = match b with
      | .message _ _ => d.blocksAt m
      | .columns _ c => d.blocksAt n ++ [⟨d.titleLine, m, d.title, n + 1, c, none⟩]
      | _ => d.blocksAt n := by
  cases b with
  | message code text => exact (extents_message d n width m code text).2.1
  | returnCode => exact (extents_returnCode d n width m).2.1
  | columns layout c => exact (extents_columns d n width m layout c).2.1
  | page title => exact (extents_page d n width m title).2.1
  | report r => exact (extents_report d n width m r).2.1

theorem titleLine_addBoundary (d : Draft) (n width : ℕ) (b : Boundary) :
    (d.addBoundary n width b).titleLine = match b with
      | .page _ => n
      | _ => d.titleLine := by
  cases b with
  | message code text => rfl
  | returnCode => exact (extents_returnCode d n width n).1
  | columns layout c => exact (extents_columns d n width n layout c).1
  | page title => exact (extents_page d n width n title).1
  | report r => exact (extents_report d n width n r).1

/-- Blocks under other titles than the latest end in front of its page, and those under different
titles keep apart. -/
structure Titled (d : Draft) (n : ℕ) : Prop where
  ended : ∀ m, n ≤ m → ∀ b ∈ d.blocksAt m, b.title = d.title ∨ b.stop ≤ d.titleLine
  apart : ∀ m, n ≤ m → (d.blocksAt m).Pairwise fun a b => a.title = b.title ∨ a.stop ≤ b.start

theorem titled_startingAt (start : ℕ) (indicator : Bool) :
    (startingAt start indicator).Titled start := by
  refine ⟨?_, fun m _ => .nil⟩
  intro m _ b hb
  cases hb

section
variable {d : Draft} {n : ℕ} (h : d.Titled n)
include h

theorem Titled.skip : d.Titled (n + 1) :=
  ⟨fun m hm => h.ended m (by omega), fun m hm => h.apart m (by omega)⟩

theorem Titled.addRecord (line : Text) : (d.addRecord n line).Titled (n + 1) := by
  have hf := d.recordFrame n line
  have hx := extents_congr hf.extents
  refine ⟨?_, ?_⟩
  · intro m hm
    rw [(hx m).1, (hx m).2.1, hf.title]
    exact h.ended m (by omega)
  · intro m hm
    rw [(hx m).2.1]
    exact h.apart m (by omega)

theorem Titled.addBoundary (hs : d.Spaced n) (width : ℕ) (b : Boundary) :
    (d.addBoundary n width b).Titled (n + 1) := by
  have he := h.ended n le_rfl
  have ha := h.apart n le_rfl
  refine ⟨?_, ?_⟩
  · intro m hm x hx
    rw [blocksAt_addBoundary] at hx
    rw [title_addBoundary, titleLine_addBoundary]
    cases b with
    | message code text => exact h.ended m (by omega) x hx
    | returnCode => exact he x hx
    | report r => exact he x hx
    | page title =>
      -- the page stands below all that was open in front of it
      exact Or.inr (hs.within n le_rfl x hx).2.2.2
    | columns layout c =>
      rcases List.mem_append.mp hx with hx | hx
      · exact he x hx
      · exact Or.inl (congrArg CodeBlock.title (List.mem_singleton.mp hx))
  · intro m hm
    rw [blocksAt_addBoundary]
    cases b with
    | message code text => exact h.apart m (by omega)
    | returnCode => exact ha
    | report r => exact ha
    | page title => exact ha
    | columns layout c =>
      refine List.pairwise_append.mpr ⟨ha, List.pairwise_singleton _ _, ?_⟩
      intro x hx y hy
      rw [List.mem_singleton.mp hy]
      exact he x hx

theorem Titled.addLine (hs : d.Spaced n) (line : Text) : (d.addLine n line).Titled (n + 1) := by
  cases hb : boundary? d.listing.indicator line with
  | none =>
    rw [addLine_record hb]
    exact h.addRecord line
  | some b =>
    rw [addLine_boundary hb]
    exact h.addBoundary hs line.length b

end

/-- There is a block once the layout is known, and one above each statement. -/
structure Headed (d : Draft) (n : ℕ) : Prop where
  opened : d.listing.layout.isSome → ∀ m, n ≤ m → d.blocksAt m ≠ []
  above : ∀ s p, d.listing.statements.find? s = some p → ∀ m, n ≤ m →
    ∃ b ∈ d.blocksAt m, b.start ≤ p.line

theorem headed_startingAt (start : ℕ) (indicator : Bool) :
    (startingAt start indicator).Headed start := by
  refine ⟨?_, ?_⟩
  · intro h
    cases h
  · intro s p h
    cases h

/-- A statement that a record adds stands on its line, and object code has a layout. -/
theorem find?_addRecord (d : Draft) (n : ℕ) (line : Text) {s : ℕ} {p : StatementLine}
    (h : (d.addRecord n line).listing.statements.find? s = some p) :
    (∃ q, d.listing.statements.find? s = some q ∧ q.line = p.line) ∨
      d.listing.layout.isSome ∧ p.line = n := by
  by_cases ha : d.area = .code
  · cases hl : d.listing.layout with
    | none =>
      simp only [addRecord, ha, hl] at h
      exact Or.inl ⟨p, h, rfl⟩
    | some layout =>
      cases hc : code? layout d.listing.indicator line with
      | none =>
        simp only [addRecord, ha, hl, hc, Option.elim_none] at h
        exact Or.inl ⟨p, h, rfl⟩
      | some l =>
        simp only [addRecord, ha, hl, hc, Option.elim_some, addCode, FloorMap.find?_update] at h
        split at h
        case isFalse => exact Or.inl ⟨p, h, rfl⟩
        case isTrue hs =>
          rw [← hs, Option.some.injEq] at h
          cases hq : d.listing.statements.find? s with
          | none => exact Or.inr ⟨rfl, by rw [← h, hq]; rfl⟩
          | some q => exact Or.inl ⟨q, rfl, by rw [← h, hq]; rfl⟩
  · have hs : (d.addRecord n line).listing.statements = d.listing.statements :=
      congrArg Prod.fst ((d.recordFrame n line).codeIndex ha)
    exact Or.inl ⟨p, hs ▸ h, rfl⟩

section
variable {d : Draft} {n : ℕ} (h : d.Headed n)
include h

theorem Headed.skip : d.Headed (n + 1) :=
  ⟨fun hy m hm => h.opened hy m (by omega), fun s p hp m hm => h.above s p hp m (by omega)⟩

theorem Headed.addRecord (hs : d.Spaced n) (line : Text) : (d.addRecord n line).Headed (n + 1) := by
  have hf := d.recordFrame n line
  have hx := fun m => (extents_congr hf.extents m).2.1
  have hl : (d.addRecord n line).listing.layout = d.listing.layout := congrArg Place.layout hf.place
  refine ⟨?_, ?_⟩
  · intro hy m hm
    rw [hx]
    exact h.opened (hl ▸ hy) m (by omega)
  · intro s p hp m hm
    rw [hx]
    rcases d.find?_addRecord n line hp with ⟨q, hq, he⟩ | ⟨hy, he⟩
    · exact he ▸ h.above s q hq m (by omega)
    · obtain ⟨b, hb⟩ := List.exists_mem_of_ne_nil _ (h.opened hy m (by omega))
      refine ⟨b, hb, he ▸ ?_⟩
      exact (hs.titled m (by omega) b hb).trans hs.title_le

theorem Headed.addBoundary (width : ℕ) (b : Boundary) : (d.addBoundary n width b).Headed (n + 1) := by
  have hf := d.boundaryFrame n width b
  have hs : (d.addBoundary n width b).listing.statements = d.listing.statements :=
    congrArg Prod.fst hf.codeIndex
  have hl : (d.addBoundary n width b).listing.layout = (d.place.after (some b)).layout :=
    congrArg Place.layout hf.place
  refine ⟨?_, ?_⟩
  · intro hy m hm
    rw [hl] at hy
    rw [blocksAt_addBoundary]
    cases b with
    | message code text => exact h.opened hy m (by omega)
    | columns layout c => simp
    | returnCode => exact h.opened hy n le_rfl
    | page title => exact h.opened hy n le_rfl
    | report r => exact h.opened hy n le_rfl
  · intro s p hp m hm
    rw [hs] at hp
    have hn := h.above s p hp n le_rfl
    rw [blocksAt_addBoundary]
    cases b with
    | message code text => exact h.above s p hp m (by omega)
    | columns layout c =>
      obtain ⟨x, hx, hle⟩ := hn
      exact ⟨x, List.mem_append_left _ hx, hle⟩
    | returnCode => exact hn
    | page title => exact hn
    | report r => exact hn

theorem Headed.addLine (hs : d.Spaced n) (line : Text) : (d.addLine n line).Headed (n + 1) := by
  cases hb : boundary? d.listing.indicator line with
  | none =>
    rw [addLine_record hb]
    exact h.addRecord hs line
  | some b =>
    rw [addLine_boundary hb]
    exact h.addBoundary line.length b

end
end Draft

theorem Document.titled_draft (doc : Document) (start : ℕ) (indicator : Bool) {n : ℕ}
    (h : start ≤ n) :
    (doc.draft start indicator n).Titled n ∧ (doc.draft start indicator n).Headed n := by
  induction n, h using Nat.le_induction with
  | base =>
    rw [draft_start]
    exact ⟨Draft.titled_startingAt start indicator, Draft.headed_startingAt start indicator⟩
  | succ n hn ih =>
    have hs := doc.spaced_draft start indicator hn
    cases hr : doc.readsBelow start indicator (n - start) with
    | true =>
      rw [draft_succ_of_reads hn hr]
      exact ⟨ih.1.addLine hs (doc.line n), ih.2.addLine hs (doc.line n)⟩
    | false =>
      rw [draft_succ_of_hidden hn hr]
      exact ⟨ih.1.skip, ih.2.skip⟩

namespace Listing
section
variable {doc : Document} {l : Listing} (hl : l ∈ doc.listings)
include hl

/-- Blocks under different titles keep apart. -/
theorem blocks_apart : l.blocks.Pairwise fun a b => a.title = b.title ∨ a.stop ≤ b.start := by
  have hi := doc.settled_listings.indexed l hl
  have ha := (doc.titled_draft l.start l.indicator hi.start_lt.le).1.apart l.stop le_rfl
  rw [← blocks_unstarted hi] at ha
  exact List.pairwise_map.mp ha

/-- There is a block above every statement. -/
theorem exists_block_above {s line : ℕ} (h : l.lineOf? s = some line) :
    ∃ b ∈ l.blocks, b.start ≤ line := by
  obtain ⟨p, hp, rfl⟩ := Option.map_eq_some_iff.mp h
  have hi := doc.settled_listings.indexed l hl
  have hs : l.statements = (doc.draft l.start l.indicator l.stop).listing.statements :=
    congrArg Prod.fst (codeIndex_draft hl)
  rw [hs] at hp
  obtain ⟨b, hb, hle⟩ :=
    (doc.titled_draft l.start l.indicator hi.start_lt.le).2.above s p hp l.stop le_rfl
  rw [← blocks_unstarted hi] at hb
  obtain ⟨x, hx, rfl⟩ := List.mem_map.mp hb
  exact ⟨x, hx, hle⟩

end
end Listing
end ListingIndex
