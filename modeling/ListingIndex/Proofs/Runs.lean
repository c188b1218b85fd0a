import Mathlib
import ListingIndex.Query.Token

/-! Runs of symbol characters in a row, told by their columns. A run reaches back or forward as far as
symbol characters go, so that the columns around it decide where it starts and ends. -/
namespace ListingIndex.Token
open Text

def isSymbolAt (row : List Cell) (c : ℕ) : Bool := row[c]?.any isSymbolCell

/-- The cells in columns `s` up to `e`. -/
def slice (row : List Cell) (s e : ℕ) : List Cell := (row.take e).drop s

/-- The text in columns `s` up to `e`. -/
def textIn (row : List Cell) (s e : ℕ) : Text := (slice row s e).reduceOption

/-- Columns `s` up to `e` hold all of the run that ends in front of column `e`, no further back than
column `first`. -/
structure RunBefore (row : List Cell) (first s e : ℕ) : Prop where
  first_le : first ≤ s
  le : s ≤ e
  symbols : ∀ c, s ≤ c → c < e → isSymbolAt row c
  start : s = first ∨ ¬ isSymbolAt row (s - 1)

/-- Columns `s` up to `e` hold all of the run that starts in column `s`, as far as column `stop`. -/
structure RunFrom (row : List Cell) (s e stop : ℕ) : Prop where
  le : s ≤ e
  symbols : ∀ c, s ≤ c → c < e → c < stop ∧ isSymbolAt row c
  ends : stop ≤ e ∨ ¬ isSymbolAt row e

section
variable {row : List Cell} {s e f : ℕ}

theorem slice_of_le (h : e ≤ s) : slice row s e = [] := by
  apply List.drop_eq_nil_of_le
  rw [List.length_take]
  omega

theorem getElem?_slice (i : ℕ) : (slice row s e)[i]? = if s + i < e then row[s + i]? else none := by
  rw [slice, List.getElem?_drop, List.getElem?_take]

theorem slice_append (h : s ≤ e) (h' : e ≤ f) : slice row s e ++ slice row e f = slice row s f := by
  have ht : (slice row s f).take (e - s) = slice row s e := by
    rw [slice, slice, ← List.drop_take, List.take_take, Nat.min_eq_left h']
  have hd : (slice row s f).drop (e - s) = slice row e f := by
    rw [slice, slice, List.drop_drop, Nat.add_sub_cancel' h]
  rw [← ht, ← hd, List.take_append_drop]

theorem textIn_append (h : s ≤ e) (h' : e ≤ f) : textIn row s e ++ textIn row e f = textIn row s f := by
  rw [textIn, textIn, ← List.reduceOption_append, slice_append h h', textIn]

theorem isSymbolAt_lt (h : isSymbolAt row s) : s < row.length := by
  by_contra hn
  rw [isSymbolAt, List.getElem?_eq_none (by omega)] at h
  cases h

variable (hs : ∀ c, s ≤ c → c < e → isSymbolAt row c)
include hs

theorem isSymbolCell_of_mem_slice {x : Cell} (h : x ∈ slice row s e) : isSymbolCell x := by
  obtain ⟨i, hi⟩ := List.mem_iff_getElem?.mp h
  rw [getElem?_slice, Option.ite_none_right_eq_some] at hi
  have := hs (s + i) (by omega) hi.1
  rwa [isSymbolAt, hi.2] at this

/-- A run has as many characters as columns. -/
theorem length_textIn : (textIn row s e).length = e - s := by
  have hsome : ∀ x ∈ slice row s e, Option.isSome x := by
    intro x hx
    have hc := isSymbolCell_of_mem_slice hs hx
    cases x with
    | none => cases hc
    | some c => rfl
  rw [textIn, List.reduceOption_length_eq_iff.mpr hsome, slice, List.length_drop, List.length_take]
  rcases Nat.lt_or_ge s e with hlt | hge
  · have := isSymbolAt_lt (hs (e - 1) (by omega) (by omega))
    omega
  · omega

end

/-- No run starts where a row holds no symbol character. -/
theorem takeWhile_slice {row : List Cell} {e f : ℕ} (h : f ≤ e ∨ ¬ isSymbolAt row e) :
    (slice row e f).takeWhile isSymbolCell = [] := by
  rcases hr : slice row e f with - | ⟨x, xs⟩
  · rfl
  · have hx : (slice row e f)[0]? = some x := by rw [hr]; rfl
    rw [getElem?_slice, Option.ite_none_right_eq_some, Nat.add_zero] at hx
    have hn : ¬ isSymbolAt row e := h.resolve_left (by omega)
    rw [isSymbolAt, hx.2] at hn
    exact List.takeWhile_cons_of_neg hn

theorem toNat_lt_of_isSymbolChar {c : Char} (h : isSymbolChar c) : c.toNat < 128 := by
  simp only [isSymbolChar, isNational, Char.isAlphanum, Char.isAlpha, Char.isUpper, Char.isLower,
    Char.isDigit, Bool.or_eq_true, Bool.and_eq_true, decide_eq_true_eq, beq_iff_eq, ge_iff_le,
    UInt32.le_iff_toNat_le] at h
  have hval : c.val.toNat = c.toNat := rfl
  have hz : 'z'.val.toNat = 122 := rfl
  have hZ : 'Z'.val.toNat = 90 := rfl
  have h9 : '9'.val.toNat = 57 := rfl
  rcases h with ((h | h) | h) | ((h | h) | h) | h
  · omega
  · omega
  · omega
  · rw [h]; decide
  · rw [h]; decide
  · rw [h]; decide
  · rw [h]; decide

theorem isSymbolChar_toUpper (c : Char) : isSymbolChar c.toUpper = isSymbolChar c := by
  by_cases hl : c.isLower
  · have ha : c.isAlpha := by simp [Char.isAlpha, hl]
    simp [isSymbolChar, Char.isAlphanum, ha]
  · rw [Char.toUpper_eq_of_not_isLower hl]

/-- The run at the start of a line, character by character. -/
theorem takeWhile_cells (s : Text) :
    ((cells s).takeWhile isSymbolCell).reduceOption = s.takeWhile isSymbolChar := by
  induction s with
  | nil => rfl
  | cons c s ih =>
    by_cases hc : isSymbolChar c
    · have hsymbol : isSymbolCell (some c) := hc
      rw [cells_cons (toNat_lt_of_isSymbolChar hc), List.takeWhile_cons_of_pos hsymbol,
        List.reduceOption_cons_of_some, ih, List.takeWhile_cons_of_pos hc]
    · rw [List.takeWhile_cons_of_neg hc]
      by_cases ha : c.toNat < 128
      · have hsymbol : ¬ isSymbolCell (some c) := hc
        rw [cells_cons ha, List.takeWhile_cons_of_neg hsymbol]
        rfl
      · -- a longer character has at least one cell, and its cells show nothing
        obtain ⟨k, hk⟩ := Nat.exists_eq_succ_of_ne_zero c.utf8Size_pos.ne'
        have hne : c.utf8Size ≠ 1 := fun he =>
          ha (Nat.lt_succ_iff.mpr (UInt32.le_iff_toNat_le.mp (Char.utf8Size_eq_one_iff.mp he)))
        have hcells : cells (c :: s) = none :: (List.replicate k none ++ cells s) := by
          rw [cells, List.flatMap_cons, if_neg hne, hk, List.replicate_succ]
          rfl
        have hsymbol : ¬ isSymbolCell none := by decide
        rw [hcells, List.takeWhile_cons_of_neg hsymbol]
        rfl

/-- The run in front of a column, found by going back to it from `first`. -/
theorem exists_runBefore (row : List Cell) {first e : ℕ} (h : first ≤ e) :
    ∃ s, RunBefore row first s e := by
  induction e, h using Nat.le_induction with
  | base => exact ⟨first, le_rfl, le_rfl, by omega, .inl rfl⟩
  | succ e he ih =>
    obtain ⟨s, hs⟩ := ih
    by_cases hc : isSymbolAt row e
    · refine ⟨s, hs.first_le, hs.le.trans e.le_succ, fun c h₁ h₂ => ?_, hs.start⟩
      rcases Nat.lt_succ_iff_lt_or_eq.mp h₂ with hlt | rfl
      · exact hs.symbols c h₁ hlt
      · exact hc
    · exact ⟨e + 1, he.trans e.le_succ, le_rfl, by omega, .inr hc⟩

theorem exists_runFrom (row : List Cell) (s stop : ℕ) : ∃ e, RunFrom row s e stop := by
  by_cases hs : s < stop ∧ isSymbolAt row s
  · obtain ⟨e, he⟩ := exists_runFrom row (s + 1) stop
    refine ⟨e, s.le_succ.trans he.le, fun c h₁ h₂ => ?_, he.ends⟩
    rcases Nat.eq_or_lt_of_le h₁ with rfl | hlt
    · exact hs
    · exact he.symbols c hlt h₂
  · refine ⟨s, le_rfl, by omega, ?_⟩
    by_cases hlt : s < stop
    · exact .inr fun hc => hs ⟨hlt, hc⟩
    · exact .inl (Nat.le_of_not_lt hlt)
termination_by stop - s

theorem RunFrom.runFrom_eq {row : List Cell} {s e stop : ℕ} (h : RunFrom row s e stop) :
    runFrom row s stop = textIn row s e := by
  change ((slice row s stop).takeWhile isSymbolCell).reduceOption = (slice row s e).reduceOption
  rcases Nat.lt_or_ge stop e with hlt | hle
  · -- behind its bound there is no run
    have he : e = s := by
      have := h.le
      by_contra hne
      have := (h.symbols (e - 1) (by omega) (by omega)).1
      omega
    rw [he, slice_of_le le_rfl, slice_of_le (he ▸ hlt.le), List.takeWhile_nil]
  · rw [← slice_append h.le hle, List.takeWhile_append_of_pos, takeWhile_slice h.ends, List.append_nil]
    intro x hx
    exact isSymbolCell_of_mem_slice (fun c h₁ h₂ => (h.symbols c h₁ h₂).2) hx

theorem RunBefore.runBefore_eq {row : List Cell} {first s e : ℕ} (h : RunBefore row first s e) :
    runBefore row first e = textIn row s e := by
  have hle := h.le
  by_cases he : e ≤ row.length
  · have hrest : (slice row first s).reverse.takeWhile isSymbolCell = [] := by
      rcases List.eq_nil_or_concat (slice row first s) with hn | ⟨xs, x, hx⟩
      · rw [hn]; rfl
      · have hlen : (slice row first s).length = s - first := by
          rw [slice, List.length_drop, List.length_take]; omega
        have hlast : (slice row first s)[s - first - 1]? = some x := by
          rw [← hlen, ← List.getLast?_eq_getElem?, hx]; simp
        have hpos : 0 < s - first := by rw [← hlen, hx]; simp
        rw [getElem?_slice, Option.ite_none_right_eq_some] at hlast
        have hn : ¬ isSymbolAt row (s - 1) := h.start.resolve_left (by omega)
        rw [isSymbolAt, show s - 1 = first + (s - first - 1) by omega, hlast.2] at hn
        rw [hx, List.concat_eq_append, List.reverse_append]
        exact List.takeWhile_cons_of_neg hn
    rw [runBefore, if_pos he]
    change ((slice row first e).reverse.takeWhile isSymbolCell).reverse.reduceOption = _
    rw [← slice_append h.first_le hle, List.reverse_append, List.takeWhile_append_of_pos, hrest,
      List.append_nil, List.reverse_reverse, textIn]
    intro x hx
    exact isSymbolCell_of_mem_slice h.symbols (List.mem_reverse.mp hx)
  · have hse : s = e := by
      by_contra hne
      have := isSymbolAt_lt (h.symbols (e - 1) (by omega) (by omega))
      omega
    rw [runBefore, if_neg he, hse, textIn, slice_of_le le_rfl]
    rfl

end ListingIndex.Token
