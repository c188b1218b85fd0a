import Mathlib
import ListingIndex.Proofs.CutNames
import ListingIndex.Proofs.ShiftedCursor

/-! What the characters in the indicator column do to a query. Names start behind that column, so a
cursor in any other column finds the same whatever stands there. A cursor in the indicator column is
the exception: the run that starts under the cursor starts with the indicator itself. An indent so
large that the continuation lines go on in the indicator column is another one. -/
namespace ListingIndex
open Text

/-- Lines that differ at most in their first character, which takes one byte. -/
def Text.SameBehindFirst (a b : Text) : Prop :=
  a = b ∨ ∃ (c d : Char) (s : Text), c.toNat < 128 ∧ d.toNat < 128 ∧ a = c :: s ∧ b = d :: s

/-- Documents whose lines differ at most in the first column. -/
structure Document.SameBehindFirst (doc doc' : Document) : Prop where
  uri : doc.uri = doc'.uri
  lines : List.Forall₂ Text.SameBehindFirst doc.lines doc'.lines

namespace Token

/-- Two rows with the same cells behind the first one. -/
def Beside (row row' : List Cell) : Prop := ∃ narrow, Moved narrow row ∧ Moved narrow row'

theorem beside_self (row : List Cell) : Beside row row := by
  cases row with
  | nil => exact ⟨[], Or.inr ⟨rfl, rfl⟩, Or.inr ⟨rfl, rfl⟩⟩
  | cons c row => exact ⟨row, Or.inl ⟨c, rfl⟩, Or.inl ⟨c, rfl⟩⟩

theorem beside_cells {a b : Text} (h : a.SameBehindFirst b) : Beside (cells a) (cells b) := by
  rcases h with rfl | ⟨c, d, s, hc, hd, rfl, rfl⟩
  · exact beside_self _
  · exact ⟨cells s, Or.inl ⟨some c, cells_cons hc s⟩, Or.inl ⟨some d, cells_cons hd s⟩⟩

theorem Beside.inRow {row row' : List Cell} (h : Beside row row') (c : ℕ) :
    inRow row 1 (c + 1) = inRow row' 1 (c + 1) := by
  obtain ⟨narrow, h₁, h₂⟩ := h
  exact (h₁.inRow 0 c).trans (h₂.inRow 0 c).symm

theorem inWindow_beside {previous this next previous' this' next' : List Cell}
    (h₁ : Beside previous previous') (h₂ : Beside this this') (h₃ : Beside next next')
    {left right indent : ℕ} (h : (left + 1 + indent) % 2 ^ 64 ≠ 0) (c : ℕ) :
    inWindow ⟨left + 1, right + 1, indent⟩ previous this next (c + 1) =
      inWindow ⟨left + 1, right + 1, indent⟩ previous' this' next' (c + 1) := by
  obtain ⟨_, hp, hp'⟩ := h₁
  obtain ⟨_, ht, ht'⟩ := h₂
  obtain ⟨_, hn, hn'⟩ := h₃
  have hlast : (left + indent) % 2 ^ 64 ≠ 2 ^ 64 - 1 := by omega
  rw [inWindow_moved hp ht hn hlast, inWindow_moved hp' ht' hn' hlast]

/-- From the first column the run at the start of a line is found. -/
theorem inRow_zero (s : Text) (first : ℕ) :
    inRow (cells s) first 0 = named (s.takeWhile isSymbolChar) := by
  have hbefore : runBefore (cells s) first 0 = [] := by simp [runBefore]
  rw [inRow, hbefore, runFrom, List.take_length, List.drop_zero, takeWhile_cells, List.nil_append]

/-- Two runs that may differ in their first character give one name if neither has a character, or if
the characters differ in case only. -/
theorem named_takeWhile_eq_iff (c d : Char) (s : Text) :
    named ((c :: s).takeWhile isSymbolChar) = named ((d :: s).takeWhile isSymbolChar) ↔
      (isSymbolChar c ∨ isSymbolChar d → c.toUpper = d.toUpper) := by
  have hcase : c.toUpper = d.toUpper → isSymbolChar c = isSymbolChar d := by
    intro h
    rw [← isSymbolChar_toUpper c, h, isSymbolChar_toUpper]
  by_cases hc : isSymbolChar c <;> by_cases hd : isSymbolChar d
  · simp [hc, hd, named, canonical]
  · have hne : c.toUpper ≠ d.toUpper := fun h => hd (hcase h ▸ hc)
    simp [hc, hd, hne, named]
  · have hne : c.toUpper ≠ d.toUpper := fun h => hc ((hcase h).symm ▸ hd)
    simp [hc, hd, hne, named]
  · simp [hc, hd]

end Token

open Token

theorem Document.SameBehindFirst.row_beside {doc doc' : Document} (h : doc.SameBehindFirst doc')
    (n : ℕ) : Beside (row doc n) (row doc' n) := by
  apply beside_cells
  unfold Document.line
  have hlen := h.lines.length_eq
  by_cases hn : n < doc.lines.length
  · have hn' : n < doc'.lines.length := hlen ▸ hn
    rw [List.getElem?_eq_getElem hn, List.getElem?_eq_getElem hn']
    exact h.lines.get hn hn'
  · rw [List.getElem?_eq_none (by omega), List.getElem?_eq_none (by omega)]
    exact Or.inl rfl

namespace Listing

/-- A cursor finds the same name in both documents, and with it the same lines. -/
structure SameAnswers (l : Listing) (doc doc' : Document) (o : Options) (p : Position) : Prop where
  name : l.nameAt? doc o p = l.nameAt? doc' o p
  definitions : l.definitions doc o p = l.definitions doc' o p
  references : ∀ declarations,
    l.references doc o p declarations = l.references doc' o p declarations

/-- A document gives its answers through the name under the cursor. -/
theorem sameAnswers_iff {l : Listing} {doc doc' : Document} {o : Options} {p : Position}
    (hu : doc.uri = doc'.uri) :
    l.SameAnswers doc doc' o p ↔ l.nameAt? doc o p = l.nameAt? doc' o p := by
  refine ⟨SameAnswers.name, fun hn => ?_⟩
  have hs : l.symbolAt? doc o p = l.symbolAt? doc' o p := by rw [symbolAt?, hn, symbolAt?]
  have hloc : l.locations doc = l.locations doc' := by
    funext lines
    rw [locations, hu, locations]
  refine ⟨hn, ?_, fun declarations => ?_⟩
  · rw [Listing.definitions, hs, hloc, Listing.definitions]
  · rw [Listing.references, hs, hloc, Listing.references]

variable {l : Listing} (hl : l.indicator = true)
include hl

theorem exists_of_sourceWindow? {left right : ℕ} (h : l.sourceWindow? = some (left, right)) :
    ∃ left' right', left = left' + 1 ∧ right = right' + 1 := by
  obtain ⟨layout, -, hw⟩ := Option.map_eq_some_iff.mp h
  obtain ⟨rfl, rfl⟩ := Prod.mk.inj hw
  rw [indicatorWidth, hl]
  exact ⟨_, _, rfl, rfl⟩

theorem nameAt?_beside {doc doc' : Document} (h : doc.SameBehindFirst doc') {o : Options}
    (ho : l.continuationColumn? o ≠ some 0) (n c : ℕ) :
    l.nameAt? doc o ⟨n, c + 1⟩ = l.nameAt? doc' o ⟨n, c + 1⟩ := by
  have hrow := h.row_beside
  by_cases hp : l.InWindow ⟨n, c + 1⟩
  · obtain ⟨left, right, hw, hb, hleft, hright⟩ := hp
    have helim : ∀ m : Option ℕ, Beside (m.elim [] (row doc)) (m.elim [] (row doc')) := by
      intro m
      cases m with
      | none => exact beside_self []
      | some m => exact hrow m
    rw [nameAt?_eq_inWindow hw hb hleft hright, nameAt?_eq_inWindow hw hb hleft hright]
    have hcolumn := continuation_ne ho hw
    obtain ⟨left, right, rfl, rfl⟩ := exists_of_sourceWindow? hl hw
    exact inWindow_beside (helim _) (hrow n) (helim _) hcolumn c
  · rw [nameAt?_eq_inRow hp, nameAt?_eq_inRow hp, indicatorWidth, hl]
    exact (hrow n).inRow c

/-- The indicator column lies in front of every window of source columns. -/
theorem nameAt?_zero (doc : Document) (o : Options) (n : ℕ) :
    l.nameAt? doc o ⟨n, 0⟩ = named ((doc.line n).takeWhile isSymbolChar) := by
  have hp : ¬ l.InWindow ⟨n, 0⟩ := by
    intro hp
    obtain ⟨left, right, hw, -, hleft, -⟩ := hp
    obtain ⟨left, right, rfl, -⟩ := exists_of_sourceWindow? hl hw
    exact Nat.not_succ_le_zero left hleft
  rw [nameAt?_eq_inRow hp]
  exact inRow_zero _ _

end Listing

/-- Documents that differ in the indicator column only give the same answers to a cursor behind that
column, unless the continuation lines go on in it. A cursor in the indicator column finds the run that
starts there, so it gets the same answers just if neither indicator can stand in a name or the two
differ in case at most. -/
theorem queries_behind_indicator (l : Listing) (doc doc' : Document) (o : Options) (p : Position)
    (hl : l.indicator = true) (h : doc.SameBehindFirst doc') :
    (p.character ≠ 0 → l.continuationColumn? o ≠ some 0 → l.SameAnswers doc doc' o p) ∧
    (p.character = 0 →
      l.nameAt? doc o p = named ((doc.line p.line).takeWhile isSymbolChar) ∧
      ∀ c d s, doc.line p.line = c :: s → doc'.line p.line = d :: s →
        (l.SameAnswers doc doc' o p ↔
          (isSymbolChar c ∨ isSymbolChar d → c.toUpper = d.toUpper))) := by
  obtain ⟨n, character⟩ := p
  rw [Listing.sameAnswers_iff h.uri]
  cases character with
  | zero =>
    refine ⟨fun h0 => absurd rfl h0, fun _ => ⟨Listing.nameAt?_zero hl doc o n, ?_⟩⟩
    intro c d s hc hd
    rw [Listing.nameAt?_zero hl, Listing.nameAt?_zero hl, hc, hd]
    exact named_takeWhile_eq_iff c d s
  | succ c => exact ⟨fun _ ho => Listing.nameAt?_beside hl h ho n c, fun h0 => absurd h0 c.succ_ne_zero⟩

def blankRows : List (Char × Text) := cutRows.map fun r => (' ', r.2)

theorem queries_behind_indicator_cutListing :
    cutListing.wide.nameAt? (.ofWideRows "" cutRows) .standard ⟨1, 57⟩ = some "LONGNAME".toList ∧
    cutListing.wide.SameAnswers (.ofWideRows "" cutRows) (.ofWideRows "" blankRows) .standard
      ⟨1, 57⟩ ∧
    ¬ cutListing.wide.SameAnswers (.ofWideRows "" cutRows) (.ofWideRows "" blankRows) .standard
      ⟨0, 0⟩ ∧
    cutListing.wide.SameAnswers (.ofWideRows "" cutRows) (.ofWideRows "" blankRows) .standard
      ⟨1, 0⟩ := by
  have h : (Document.ofWideRows "" cutRows).SameBehindFirst (.ofWideRows "" blankRows) :=
    ⟨rfl, .cons (Or.inr ⟨'1', ' ', _, by decide, by decide, rfl, rfl⟩)
      (.cons (Or.inr ⟨'-', ' ', _, by decide, by decide, rfl, rfl⟩) .nil)⟩
  have hq := fun p => queries_behind_indicator cutListing.wide _ _ .standard p rfl h
  refine ⟨by decide +kernel, (hq ⟨1, 57⟩).1 (by decide) (by decide), fun hs => ?_, ?_⟩
  · have := (((hq ⟨0, 0⟩).2 rfl).2 '1' ' ' _ rfl rfl).mp hs
    revert this
    decide
  · exact (((hq ⟨1, 0⟩).2 rfl).2 '-' ' ' _ rfl rfl).mpr (by decide)

/-- A digit in the indicator column, where a blank hides the name behind it. -/
theorem name_from_indicator : ¬ ∀ (l : Listing) (doc doc' : Document) (o : Options) (p : Position),
    l.indicator = true → doc.SameBehindFirst doc' → l.nameAt? doc o p = l.nameAt? doc' o p := by
  intro hall
  have h : Document.SameBehindFirst ⟨"", ["0AB".toList]⟩ ⟨"", [" AB".toList]⟩ :=
    ⟨rfl, .cons (Or.inr ⟨'0', ' ', "AB".toList, by decide, by decide, rfl, rfl⟩) .nil⟩
  have hname := hall (.startingAt 0 true) _ _ .standard ⟨0, 0⟩ rfl h
  revert hname
  decide +kernel

end ListingIndex
