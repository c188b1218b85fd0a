import Mathlib
import ListingIndex.Line.Code
import ListingIndex.Proofs.Fields

/-! Lines of object code told by their columns. A line is read if its columns can be told apart, and
they can be told apart in one way only: the first fields have their widths, and the blanks and the
digits behind them go as far as they can. -/
namespace ListingIndex.Line.Code
open Text Column

/-- The columns of a line of object code, from left to right. -/
@[ext]
structure Columns where
  lead : Option Char
  location : Text
  object : Text
  /-- Spaces in front of the statement number. -/
  gap : ℕ
  digits : Text
  divider : Char
  source : Text
deriving DecidableEq, Repr

namespace Columns

/-- The columns behind the indicator. -/
def text (c : Columns) : Text :=
  c.location ++ ' ' :: (c.object ++ (List.replicate c.gap ' ' ++ (c.digits ++ c.divider :: c.source)))

def line (c : Columns) : Text := c.lead.toList ++ c.text

/-- Columns that a line of object code may have. -/
structure Fits (c : Columns) (layout : Layout) (indicator : Bool) : Prop where
  lead : c.lead.isSome = indicator
  widths : (c.location.length, c.object.length) = match layout with
    | .short => (6, 26)
    | .long => (8, 32)
  location : (∀ x ∈ c.location, x ∈ hexAlphabet) ∨ ∀ x ∈ c.location, x = ' '
  digits : c.digits ≠ [] ∧ ∀ x ∈ c.digits, x.isDigit
  number : Nat.ofDigitChars 10 c.digits 0 < 2 ^ 32
  divider : ¬ c.divider.isDigit

/-- The name at the start of the source statement, if a space ends it. -/
def label? (c : Columns) : Option Text :=
  let name := c.source.takeWhile isSymbolChar
  let rest := c.source.dropWhile isSymbolChar
  if name ≠ [] ∧ ¬ name.head?.any Char.isDigit ∧ rest.head? = some ' ' then some name else none

/-- What a line with these columns says. -/
structure Says (c : Columns) (r : Code) : Prop where
  address : (∃ a, r.address = some a ∧ IsHexOf c.location c.location.length a.toNat) ∨
    r.address = none ∧ ∀ x ∈ c.location, x = ' '
  object : r.object = c.object
  statement : r.statement = Nat.ofDigitChars 10 c.digits 0
  label : r.label = c.label?

end Columns

theorem label?_source (c : Columns) : label? c.source = c.label? := by
  unfold label? Columns.label? name
  cases c.source with
  | nil => rfl
  | cons x s =>
    have hstart := isSymbolStart_iff (c := x)
    by_cases hx : isSymbolChar x
    · by_cases hd : x.isDigit
      · simp [hx, hd, hstart]
      · cases hr : s.dropWhile isSymbolChar with
        | nil => simp [hx, hd, hstart, run, hr, space]
        | cons y rest => by_cases hy : y = ' ' <;> simp [hx, hd, hstart, run, hr, space, isSpace, hy]
    · simp [hx, hstart]

namespace Columns
variable {c : Columns} {layout : Layout} {indicator : Bool}

theorem widths_eq : (c.location.length, c.object.length) = (match layout with
    | .short => (6, 26)
    | .long => (8, 32)) ↔
    c.location.length = layout.locationWidth ∧ c.object.length = layout.objectWidth := by
  cases layout <;> simp [Layout.locationWidth, Layout.objectWidth]

/-- What is read of a line is read of columns that fit. -/
theorem exists_of_read? {s : Text} {r : Code} (h : Code.read? layout s = some r)
    {lead : Option Char} (hl : lead.isSome = indicator) :
    ∃ c : Columns, c.Fits layout indicator ∧ c.lead = lead ∧ c.text = s := by
  simp only [Code.read?, Option.bind_eq_bind, Option.bind_eq_some_iff, Prod.exists] at h
  obtain ⟨a, s₁, h₁, s₂, h₂, object, s₃, h₃, digits, s₄, h₄, source, h₅, n, h₆, -⟩ := h
  obtain ⟨location, rfl, hlen, hloc⟩ := hexOrBlank_eq_some_iff.mp h₁
  obtain rfl := space_eq_some_iff.mp h₂
  obtain ⟨rfl, hobj, -⟩ := exactly_eq_some_iff.mp h₃
  obtain ⟨hs, hne, hd, hr⟩ := run_eq_some_iff.mp h₄
  obtain ⟨divider, rfl⟩ : ∃ divider, s₄ = divider :: source := by
    cases s₄ with
    | nil => cases h₅
    | cons x s => exact ⟨x, congrArg (x :: ·) (Option.some.inj h₅)⟩
  refine ⟨⟨lead, location, object, (s₃.takeWhile isSpace).length, digits, divider, source⟩,
    ⟨hl, widths_eq.mpr ⟨hlen, hobj⟩, ?_, ⟨hne, hd⟩, ?_, hr divider rfl⟩, rfl, ?_⟩
  · rcases hloc with ⟨hx, -⟩ | ⟨hb, -, -⟩
    · exact Or.inl fun x hm => isHex_iff_mem.mp (List.all_eq_true.mp hx x hm)
    · exact Or.inr fun x hm => by simpa [isSpace] using List.all_eq_true.mp hb x hm
  · obtain ⟨hn, hlt⟩ := (decimal?_eq_some_iff hd).mp h₆
    exact hn.symm ▸ hlt
  · have hsplit := eq_replicate_append s₃
    rw [hs] at hsplit
    simp only [text, ← hsplit]

theorem exists_of_code? {s : Text} {r : Code} (h : Line.code? layout indicator s = some r) :
    ∃ c : Columns, c.Fits layout indicator ∧ c.line = s := by
  obtain ⟨t, ht, hr⟩ := Option.bind_eq_some_iff.mp h
  obtain ⟨lead, hlead, -, rfl⟩ := behindIndicator_eq_some_iff.mp ht
  obtain ⟨c, hc, rfl, rfl⟩ := exists_of_read? hr hlead
  exact ⟨c, hc, rfl⟩

section
variable (h : c.Fits layout indicator)
include h

theorem Fits.dropWhile_gap :
    (List.replicate c.gap ' ' ++ (c.digits ++ c.divider :: c.source)).dropWhile isSpace =
      c.digits ++ c.divider :: c.source := by
  apply dropWhile_isSpace
  obtain ⟨x, digits, hx⟩ := List.exists_cons_of_ne_nil h.digits.1
  intro y hy
  simp only [hx, List.cons_append, List.head?_cons, Option.mem_some_iff] at hy
  exact not_isSpace_of_isDecimal (h.digits.2 y (by simp [hx, hy]))

theorem Fits.run_digits : run isDecimal (c.digits ++ c.divider :: c.source) =
    some (c.digits, c.divider :: c.source) := by
  refine run_eq_some_iff.mpr ⟨rfl, h.digits.1, h.digits.2, ?_⟩
  intro x hx
  simp only [List.head?_cons, Option.mem_some_iff] at hx
  exact hx ▸ h.divider

/-- The location is read as a word if it holds digits, and is left out if it is blank. -/
theorem Fits.hexOrBlank_text : ∃ a rest, hexOrBlank layout.locationWidth c.text = some (a, rest) ∧
    rest = c.text.drop c.location.length ∧
    ((∃ w, a.map hexWord = some w ∧ IsHexOf c.location c.location.length w.toNat) ∨
      a.map hexWord = none ∧ ∀ x ∈ c.location, x = ' ') := by
  obtain ⟨hlen, -⟩ := widths_eq.mp h.widths
  have hwidth : 0 < c.location.length ∧ c.location.length ≤ 8 := by
    cases layout <;> simp [hlen, Layout.locationWidth]
  have hdrop : c.text.drop c.location.length = _ := List.drop_left ..
  rcases h.location with hx | hb
  · have hall : c.location.all isHex := List.all_eq_true.mpr fun x hm => isHex_iff_mem.mpr (hx x hm)
    have hhex : IsHexOf c.location c.location.length (numeral 16 c.location) :=
      isHexOf_iff.mpr ⟨rfl, hall, rfl⟩
    refine ⟨some c.location, _, hexOrBlank_eq_some_iff.mpr ⟨_, rfl, hlen, Or.inl ⟨hall, rfl⟩⟩,
      hdrop.symm, Or.inl ⟨_, rfl, ?_⟩⟩
    rwa [hhex.toNat_hexWord hwidth.2]
  · have hall : c.location.all isSpace := List.all_eq_true.mpr fun x hm => by simp [isSpace, hb x hm]
    have hnot : ¬ c.location.all isHex := by
      obtain ⟨x, rest, hx⟩ := List.exists_cons_of_length_pos hwidth.1
      have hspace : x = ' ' := hb x (by simp [hx])
      rw [hx, hspace, List.all_cons]
      simp [isHex]
    exact ⟨none, _, hexOrBlank_eq_some_iff.mpr ⟨_, rfl, hlen, Or.inr ⟨hall, hnot, rfl⟩⟩, hdrop.symm,
      Or.inr ⟨rfl, hb⟩⟩

/-- Columns that fit are read, and what is read is what they say. -/
theorem Fits.read? (hfree : '\n' ∉ c.object) :
    ∃ r, Code.read? layout c.text = some r ∧ c.Says r := by
  obtain ⟨-, hobj⟩ := widths_eq.mp h.widths
  obtain ⟨a, rest, hloc, hrest, hsays⟩ := h.hexOrBlank_text
  have hobject : exactly isFree layout.objectWidth
      (c.object ++ (List.replicate c.gap ' ' ++ (c.digits ++ c.divider :: c.source))) =
        some (c.object, List.replicate c.gap ' ' ++ (c.digits ++ c.divider :: c.source)) :=
    exactly_eq_some_iff.mpr
      ⟨rfl, hobj, List.all_eq_true.mpr fun x => isFree_of_not_mem hfree⟩
  have hspace : space rest = some (c.object ++ _) :=
    space_eq_some_iff.mpr (hrest.trans (List.drop_left ..))
  refine ⟨⟨a.map hexWord, c.object, Nat.ofDigitChars 10 c.digits 0, Code.label? c.source⟩, ?_,
    hsays, rfl, rfl, label?_source c⟩
  simp only [Code.read?, Option.bind_eq_bind, Option.bind_eq_some_iff, Prod.exists]
  exact ⟨a, rest, hloc, _, hspace, _, _, hobject, _, _, by rw [h.dropWhile_gap, h.run_digits], _, rfl,
    _, (decimal?_eq_some_iff h.digits.2).mpr ⟨rfl, h.number⟩, rfl⟩

theorem Fits.code? (hn : '\n' ∉ c.line) :
    ∃ r, Line.code? layout indicator c.line = some r ∧ c.Says r := by
  rw [line, List.mem_append, not_or] at hn
  have hbehind : behindIndicator indicator c.line = some c.text :=
    behindIndicator_eq_some_iff.mpr ⟨c.lead, h.lead,
      fun x hx => isFree_of_not_mem hn.1 (Option.mem_toList.mpr hx), rfl⟩
  have hobject : '\n' ∉ c.object := fun hm => hn.2 (by simp [text, hm])
  obtain ⟨r, hr, hsays⟩ := h.read? hobject
  exact ⟨r, by rw [Line.code?, hbehind, Option.bind_some, hr], hsays⟩

/-- A line has its columns in one way only. -/
theorem Fits.eq_of_line_eq {b : Columns} (hb : b.Fits layout indicator) (he : b.line = c.line) :
    b = c := by
  obtain ⟨hlen, hobj⟩ := widths_eq.mp h.widths
  obtain ⟨hlen', hobj'⟩ := widths_eq.mp hb.widths
  have hlead : b.lead.toList.length = c.lead.toList.length := by
    rw [Option.length_toList, Option.length_toList, hb.lead, h.lead]
  obtain ⟨h₁, htext⟩ := List.append_inj he hlead
  obtain ⟨h₂, hrest⟩ := List.append_inj htext (hlen'.trans hlen.symm)
  obtain ⟨h₃, htail⟩ := List.append_inj (List.cons.inj hrest).2 (hobj'.trans hobj.symm)
  -- without their blanks both tails start with the digits
  have hdigits := congrArg (List.dropWhile isSpace) htail
  rw [hb.dropWhile_gap, h.dropWhile_gap] at hdigits
  have hrun := hb.run_digits
  rw [hdigits, h.run_digits, Option.some.injEq, Prod.mk.injEq, List.cons.injEq] at hrun
  obtain ⟨h₅, h₆, h₇⟩ := hrun
  rw [hdigits, List.append_cancel_right_eq] at htail
  have h₄ : b.gap = c.gap := by simpa using congrArg List.length htail
  have h₀ : b.lead = c.lead := by simpa using congrArg List.head? h₁
  exact Columns.ext h₀ h₂ h₃ h₄ h₅.symm h₆.symm h₇.symm

end
end Columns

/-- Object code is read of a line exactly if the line has the columns of its layout. It has them in
one way only, and the record says what they show. -/
theorem code?_accepts_columns (layout : Layout) (indicator : Bool) (line : Text) (hn : '\n' ∉ line) :
    ((code? layout indicator line).isSome ↔
      ∃ c : Columns, c.Fits layout indicator ∧ c.line = line) ∧
    ∀ c : Columns, c.Fits layout indicator → c.line = line →
      (∀ b : Columns, b.Fits layout indicator → b.line = line → b = c) ∧
      ∃ r, code? layout indicator line = some r ∧ c.Says r := by
  refine ⟨⟨?_, ?_⟩, ?_⟩
  · intro h
    obtain ⟨r, hr⟩ := Option.isSome_iff_exists.mp h
    exact Columns.exists_of_code? hr
  · intro h
    obtain ⟨c, hc, rfl⟩ := h
    obtain ⟨r, hr, -⟩ := hc.code? hn
    exact Option.isSome_iff_exists.mpr ⟨r, hr⟩
  · intro c hc hl
    subst hl
    exact ⟨fun b hb he => hc.eq_of_line_eq hb he, hc.code? hn⟩

/-- Digits fill the object code, and the statement number follows them without a space. -/
def crowdedColumns : Columns :=
  ⟨some '0', "00000A".toList, "4710 C0170000C 0C017 00012".toList, 0, "0017".toList, ' ',
    "LOOP_1 BC   1,2".toList⟩

theorem crowdedColumns_fits : crowdedColumns.Fits .short true where
  lead := rfl
  widths := rfl
  location := Or.inl fun x hx => isHex_iff_mem.mp (List.all_eq_true.mp (by decide) x hx)
  digits := ⟨by decide, List.all_eq_true.mp (by decide)⟩
  number := by decide
  divider := by decide

theorem code?_accepts_columns_crowdedColumns :
    '\n' ∉ crowdedColumns.line ∧ (code? .short true crowdedColumns.line).isSome ∧
    (∀ b : Columns, b.Fits .short true → b.line = crowdedColumns.line → b = crowdedColumns) ∧
    ∃ r, code? .short true crowdedColumns.line = some r ∧ crowdedColumns.Says r ∧
      r.statement = 17 ∧ r.label = some "LOOP_1".toList := by
  have hn : '\n' ∉ crowdedColumns.line := by decide
  obtain ⟨hsome, hall⟩ := code?_accepts_columns .short true crowdedColumns.line hn
  obtain ⟨hunique, r, hr, hsays⟩ := hall crowdedColumns crowdedColumns_fits rfl
  exact ⟨hn, hsome.mpr ⟨_, crowdedColumns_fits, rfl⟩, hunique, r, hr, hsays,
    hsays.statement.trans (by decide), hsays.label.trans (by decide)⟩

end ListingIndex.Line.Code
