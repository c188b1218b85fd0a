import Mathlib
import ListingIndex.Outline.Offsets
import ListingIndex.Proofs.Numerals

/-! What the storage offsets of a listing show: the statements of control sections that have an
address, in order, and for each the first section that holds its address. Sections are compared in
the natural numbers, so one that runs past the end of storage holds the addresses up to there. -/
namespace ListingIndex
open Text

/-- The address stands in the storage of the section. -/
def ControlSection.Holds (c : ControlSection) (address : UInt32) : Prop :=
  c.address.toNat ≤ address.toNat ∧ address.toNat < c.address.toNat + c.length.toNat

namespace ControlSection

theorem contains_iff {c : ControlSection} {address : UInt32} :
    c.contains address ↔ c.Holds address := by
  simp [contains, Holds, UInt32.le_iff_toNat_le]

/-- No distance in a section wraps around. -/
theorem Holds.toNat_sub {c : ControlSection} {address : UInt32} (h : c.Holds address) :
    c.address.toNat + (address - c.address).toNat = address.toNat ∧
      (address - c.address).toNat < c.length.toNat := by
  have hsub : (address - c.address).toNat = address.toNat - c.address.toNat :=
    UInt32.toNat_sub_of_le _ _ (UInt32.le_iff_toNat_le.mpr h.1)
  obtain ⟨hle, hlt⟩ := h
  omega

end ControlSection

namespace Listing

/-- `c` is the first section of the list that holds the address. -/
def FirstHolding (l : Listing) (address : UInt32) (c : ControlSection) : Prop :=
  ∃ before after, l.controlSections = before ++ c :: after ∧ c.Holds address ∧
    ∀ b ∈ before, ¬ b.Holds address

theorem FirstHolding.holds {l : Listing} {address : UInt32} {c : ControlSection}
    (h : l.FirstHolding address c) : c.Holds address := by
  obtain ⟨_, _, -, hc, -⟩ := h
  exact hc

theorem controlSectionAt?_eq_some_iff {l : Listing} {address : UInt32} {c : ControlSection} :
    l.controlSectionAt? address = some c ↔ l.FirstHolding address c := by
  simp only [controlSectionAt?, List.find?_eq_some_iff_append, Bool.not_eq_true',
    ← Bool.not_eq_true, ControlSection.contains_iff, FirstHolding]
  constructor
  · rintro ⟨hc, before, after, hl, hb⟩
    exact ⟨before, after, hl, hc, hb⟩
  · rintro ⟨before, after, hl, hc, hb⟩
    exact ⟨hc, before, after, hl, hb⟩

theorem controlSectionAt?_eq_none_iff {l : Listing} {address : UInt32} :
    l.controlSectionAt? address = none ↔ ∀ c ∈ l.controlSections, ¬ c.Holds address := by
  simp only [controlSectionAt?, List.find?_eq_none, ControlSection.contains_iff]

/-- How an address is labelled. -/
inductive OffsetLabel (l : Listing) (address : UInt32) : Text → Prop where
  | outside {digits : Text} (hd : IsHexOf digits 8 address.toNat)
      (hc : ∀ c ∈ l.controlSections, ¬ c.Holds address) :
      OffsetLabel l address ("Offset ".toList ++ digits)
  | inside {digits distance : Text} {c : ControlSection} {n : ℕ}
      (hd : IsHexOf digits 8 address.toNat) (hc : l.FirstHolding address c)
      (hn : IsHexOf distance 8 n) (hsum : c.address.toNat + n = address.toNat)
      (hlt : n < c.length.toNat) :
      OffsetLabel l address ("Offset ".toList ++ digits ++
        (" (".toList ++ c.name ++ "+".toList ++ distance ++ ")".toList))

theorem offsetLabel_offsetName (l : Listing) (address : UInt32) :
    l.OffsetLabel address (l.offsetName address) := by
  have hd := isHexOf_wordHex address
  unfold offsetName
  cases hc : l.controlSectionAt? address with
  | none =>
    rw [List.append_nil]
    exact .outside hd (controlSectionAt?_eq_none_iff.mp hc)
  | some c =>
    have hfirst := controlSectionAt?_eq_some_iff.mp hc
    obtain ⟨hsum, hlt⟩ := hfirst.holds.toNat_sub
    exact .inside hd hfirst (isHexOf_wordHex _) hsum hlt

/-- A statement with an address. -/
structure OffsetRow where
  statement : ℕ
  line : ℕ
  address : UInt32
deriving DecidableEq, Repr

/-- The row is printed in a control section. -/
def HasOffset (l : Listing) (r : OffsetRow) : Prop :=
  l.statements.find? r.statement = some ⟨r.line, some r.address⟩ ∧
    l.sectionMap.get? r.statement = some .control

/-- The rows that have a leaf. -/
def offsetRows (l : Listing) : List OffsetRow :=
  l.statements.toList.filterMap fun (statement, s) =>
    if l.sectionMap.isControl statement then s.address.map fun address => ⟨statement, s.line, address⟩
    else none

theorem mem_offsetRows {l : Listing} {r : OffsetRow} : r ∈ l.offsetRows ↔ l.HasOffset r := by
  obtain ⟨statement, line, address⟩ := r
  simp only [offsetRows, List.mem_filterMap, Prod.exists, HasOffset, FloorMap.find?_eq_some_iff,
    FloorMap.toList, List.mem_reverse, Option.ite_none_right_eq_some, Option.map_eq_some_iff,
    OffsetRow.mk.injEq, SectionMap.isControl, beq_iff_eq]
  constructor
  · rintro ⟨n, ⟨m, a⟩, hm, hc, b, ha, rfl, rfl, rfl⟩
    cases ha
    exact ⟨hm, hc⟩
  · rintro ⟨hm, hc⟩
    exact ⟨statement, _, hm, hc, address, rfl, rfl, rfl, rfl⟩

theorem offsetRows_pairwise (l : Listing) :
    l.offsetRows.Pairwise fun a b => a.statement < b.statement := by
  have hasc : l.statements.toList.Pairwise fun a b => a.1 < b.1 :=
    List.pairwise_reverse.mpr l.statements.descending
  refine hasc.filterMap _ ?_
  intro a b hab r hr q hq
  simp only [Option.ite_none_right_eq_some, Option.map_eq_some_iff] at hr hq
  obtain ⟨-, -, -, rfl⟩ := hr
  obtain ⟨-, -, -, rfl⟩ := hq
  exact hab

theorem offsetLeaves_eq (l : Listing) :
    l.offsetLeaves = l.offsetRows.map fun r => .leaf (l.offsetName r.address) r.line := by
  rw [offsetLeaves, offsetRows, List.map_filterMap]
  refine List.filterMap_congr fun e _ => ?_
  simp only [offsetLeaf?]
  split
  · rw [Option.map_map]
    rfl
  · rfl

/-- The node shows the offsets of the listing: one leaf for each statement of a control section that
has an address, in the order of the statements. -/
structure ShowsOffsets (l : Listing) (node : OutlineNode) : Prop where
  kind : node.kind = .listing
  span : node.span = ⟨⟨l.start, 0⟩, ⟨l.stop, 0⟩⟩
  leaves : ∃ rows : List OffsetRow, rows.Pairwise (fun a b => a.statement < b.statement) ∧
    (∀ r, r ∈ rows ↔ l.HasOffset r) ∧
    List.Forall₂ (fun r n => ∃ label, l.OffsetLabel r.address label ∧
      n = ⟨label, .entry, ⟨⟨r.line, 0⟩, ⟨r.line, 0⟩⟩, []⟩) rows node.children

theorem showsOffsets_offsetLeaves (l : Listing) (name : Text) :
    l.ShowsOffsets ⟨name, .listing, l.span, l.offsetLeaves⟩ where
  kind := rfl
  span := rfl
  leaves := by
    refine ⟨l.offsetRows, l.offsetRows_pairwise, fun _ => mem_offsetRows, ?_⟩
    rw [offsetLeaves_eq, List.forall₂_map_right_iff, List.forall₂_same]
    intro r _
    exact ⟨_, l.offsetLabel_offsetName r.address, rfl⟩

end Listing

/-- Every listing has a node that shows its offsets, whatever its sections and statements are. -/
theorem offsets_exact (listings : List Listing) :
    List.Forall₂ Listing.ShowsOffsets listings (offsets listings) := by
  refine List.forall₂_iff_get.mpr ⟨by simp [offsets, numbered], ?_⟩
  intro i hi _
  simpa [offsets, numbered] using (listings.get ⟨i, hi⟩).showsOffsets_offsetLeaves _

/-- Four statements, the last one in a dummy section. The second section runs past the end of storage,
and the third statement stands in no section. -/
def storageListing : Listing :=
  { Listing.startingAt 2 false with
    stop := 9
    controlSections := [⟨"MAIN".toList, 16, 8⟩, ⟨"TAIL".toList, 0xFFFFFFF0, 64⟩]
    statements := ⟨[(4, ⟨7, some 0x14⟩), (3, ⟨6, some 0xAB⟩), (2, ⟨5, some 0xFFFFFFFC⟩),
      (1, ⟨3, some 0x14⟩)], by decide⟩
    sectionMap := ⟨⟨[(4, .dummy), (1, .control)], by decide⟩, 5⟩ }

theorem offsets_exact_storageListing : ∃ node, offsets [storageListing] = [node] ∧
    storageListing.ShowsOffsets node ∧ node.children =
      [⟨"Offset 00000014 (MAIN+00000004)".toList, .entry, ⟨⟨3, 0⟩, ⟨3, 0⟩⟩, []⟩,
        ⟨"Offset FFFFFFFC (TAIL+0000000C)".toList, .entry, ⟨⟨5, 0⟩, ⟨5, 0⟩⟩, []⟩,
        ⟨"Offset 000000AB".toList, .entry, ⟨⟨6, 0⟩, ⟨6, 0⟩⟩, []⟩] := by
  obtain ⟨hshows, -⟩ := List.forall₂_cons.mp (offsets_exact [storageListing])
  exact ⟨_, rfl, hshows, rfl⟩

end ListingIndex
