import Mathlib
import ListingIndex.Line.Field
import ListingIndex.Proofs.Numerals

/-! Fields of a printed line, where they are read: each reader told by the characters that it takes,
so that a line can be read back from its parts. -/
namespace ListingIndex.Line
open Text Column

/-- One field is read, then the others. -/
theorem bind_eq_of_eq_some {α β : Type} {x : Option α} {a : α} {f : α → Option β} {b : Option β}
    (hx : x = some a) (hf : f a = b) : x >>= f = b := by
  rw [hx, ← hf]
  rfl

theorem exactly_suffix {p : Char → Bool} {n : ℕ} {s field rest : Text}
    (h : exactly p n s = some (field, rest)) : rest <:+ s :=
  ⟨field, (exactly_eq_some_iff.mp h).1.symm⟩

theorem run_suffix {p : Char → Bool} {s field rest : Text} (h : run p s = some (field, rest)) :
    rest <:+ s :=
  ⟨field, (run_eq_some_iff.mp h).1.symm⟩

theorem space_suffix {s rest : Text} (h : space s = some rest) : rest <:+ s :=
  ⟨[' '], (space_eq_some_iff.mp h).symm⟩

theorem isFree_of_not_mem {s : Text} (h : '\n' ∉ s) {c : Char} (hc : c ∈ s) : isFree c := by
  have : c ≠ '\n' := fun he => h (he ▸ hc)
  simpa [isFree] using this

theorem not_isDecimal_of_isSpace {c : Char} (h : isSpace c) : ¬ isDecimal c := by
  have hc : c = ' ' := by simpa [isSpace] using h
  rw [hc]
  decide

theorem not_isSpace_of_isDecimal {c : Char} (h : isDecimal c) : ¬ isSpace c :=
  fun hs => not_isDecimal_of_isSpace hs h

theorem isSymbolStart_iff {c : Char} : isSymbolStart c ↔ isSymbolChar c ∧ ¬ c.isDigit := by
  constructor
  · intro hs
    refine ⟨?_, ?_⟩
    · rcases Bool.or_eq_true_iff.mp hs with ha | hn
      · simp [isSymbolChar, Char.isAlphanum, ha]
      · simp [isSymbolChar, hn]
    · intro hd
      have hall : ∀ n < 58, 48 ≤ n → ¬ isSymbolStart (Char.ofNat n) := by decide
      simp only [Char.isDigit, Bool.and_eq_true, decide_eq_true_eq, ge_iff_le,
        UInt32.le_iff_toNat_le] at hd
      have hc := hall c.toNat (hd.2.trans_lt (by decide)) hd.1
      rw [Char.ofNat_toNat] at hc
      exact hc hs
  · rintro ⟨hc, hd⟩
    simpa [isSymbolChar, isSymbolStart, Char.isAlphanum, hd] using hc

theorem behindIndicator_eq_some_iff {indicator : Bool} {line s : Text} :
    behindIndicator indicator line = some s ↔
      ∃ lead : Option Char, lead.isSome = indicator ∧ (∀ c ∈ lead, isFree c) ∧
        line = lead.toList ++ s := by
  cases indicator with
  | false =>
    simp only [behindIndicator, Bool.false_eq_true, if_false, Option.some.injEq]
    constructor
    · rintro rfl
      exact ⟨none, rfl, by simp, rfl⟩
    · rintro ⟨lead, hl, -, rfl⟩
      cases lead with
      | none => rfl
      | some c => cases hl
  | true =>
    simp only [behindIndicator, if_true, Option.map_eq_some_iff, Prod.exists, exactly_eq_some_iff]
    constructor
    · rintro ⟨field, rest, ⟨rfl, hlen, hfree⟩, rfl⟩
      obtain ⟨c, rfl⟩ := List.length_eq_one_iff.mp hlen
      exact ⟨some c, rfl, by simpa using hfree, rfl⟩
    · rintro ⟨lead, hl, hfree, rfl⟩
      cases lead with
      | none => cases hl
      | some c => exact ⟨[c], s, ⟨rfl, rfl, by simpa using hfree⟩, rfl⟩

theorem name_append {name s : Text} (hne : name ≠ []) (hall : ∀ c ∈ name, isSymbolChar c)
    (hd : ¬ name.head?.any Char.isDigit) (hs : ∀ c ∈ s.head?, ¬ isSymbolChar c) :
    Line.name (name ++ s) = some (name, s) := by
  have hhead : (name ++ s).head?.any isSymbolStart := by
    obtain ⟨c, rest, rfl⟩ := List.exists_cons_of_ne_nil hne
    simpa [isSymbolStart_iff, hall c] using hd
  rw [Line.name, if_pos hhead]
  exact run_eq_some_iff.mpr ⟨rfl, hne, hall, hs⟩

theorem name_eq_none {s : Text} (h : ∀ c ∈ s.head?, ¬ isSymbolStart c) : Line.name s = none := by
  rw [Line.name, if_neg]
  cases hs : s.head? with
  | none => simp
  | some c => simpa using h c hs

/-- Digits come first: a blank field is one that does not hold them. -/
theorem hexOrBlank_eq_some_iff {n : ℕ} {s rest : Text} {a : Option Text} :
    hexOrBlank n s = some (a, rest) ↔ ∃ field, s = field ++ rest ∧ field.length = n ∧
      (field.all isHex ∧ a = some field ∨ field.all isSpace ∧ ¬ field.all isHex ∧ a = none) := by
  unfold hexOrBlank
  cases hx : exactly isHex n s with
  | some p =>
    obtain ⟨digits, after⟩ := p
    obtain ⟨rfl, rfl, hd⟩ := exactly_eq_some_iff.mp hx
    simp only [Option.some.injEq, Prod.mk.injEq]
    constructor
    · rintro ⟨rfl, rfl⟩
      exact ⟨digits, rfl, rfl, Or.inl ⟨hd, rfl⟩⟩
    · rintro ⟨field, hs, hl, ha⟩
      obtain ⟨rfl, rfl⟩ := List.append_inj hs hl.symm
      rcases ha with ⟨-, rfl⟩ | ⟨-, hn, -⟩
      · exact ⟨rfl, rfl⟩
      · exact absurd hd hn
  | none =>
    have hnot : ∀ field after, s = field ++ after → field.length = n → ¬ field.all isHex := by
      intro field after hs hl hd
      have := exactly_eq_some_iff.mpr ⟨hs, hl, hd⟩
      rw [hx] at this
      cases this
    simp only [Option.map_eq_some_iff, Prod.exists, exactly_eq_some_iff, Prod.mk.injEq]
    constructor
    · rintro ⟨field, after, ⟨hs, hl, hb⟩, rfl, rfl⟩
      exact ⟨field, hs, hl, Or.inr ⟨hb, hnot field after hs hl, rfl⟩⟩
    · rintro ⟨field, hs, hl, ha⟩
      rcases ha with ⟨hd, -⟩ | ⟨hb, -, rfl⟩
      · exact absurd hd (hnot field rest hs hl)
      · exact ⟨field, rest, ⟨hs, hl, hb⟩, rfl, rfl⟩

theorem dropWhile_isSpace {k : ℕ} {s : Text} (h : ∀ c ∈ s.head?, ¬ isSpace c) :
    (List.replicate k ' ' ++ s).dropWhile isSpace = s := by
  rw [List.dropWhile_append_of_pos (by simp [isSpace])]
  cases s with
  | nil => rfl
  | cons c s => exact List.dropWhile_cons_of_neg (h c rfl)

theorem takeWhile_isSpace {k : ℕ} {s : Text} (h : ∀ c ∈ s.head?, ¬ isSpace c) :
    (List.replicate k ' ' ++ s).takeWhile isSpace = List.replicate k ' ' := by
  rw [List.takeWhile_append_of_pos (by simp [isSpace])]
  cases s with
  | nil => simp
  | cons c s => rw [List.takeWhile_cons_of_neg (h c rfl), List.append_nil]

theorem spaces_replicate {k : ℕ} {s : Text} (hk : 0 < k) (h : ∀ c ∈ s.head?, ¬ isSpace c) :
    spaces (List.replicate k ' ' ++ s) = some s := by
  have hrun : run isSpace (List.replicate k ' ' ++ s) = some (List.replicate k ' ', s) :=
    run_eq_some_iff.mpr ⟨rfl, by simp [hk.ne'], by simp [isSpace], h⟩
  rw [spaces, hrun]
  rfl

theorem exists_of_spaces {s rest : Text} (h : spaces s = some rest) :
    ∃ k, 0 < k ∧ s = List.replicate k ' ' ++ rest := by
  obtain ⟨⟨blanks, rest⟩, hrun, rfl⟩ := Option.map_eq_some_iff.mp h
  obtain ⟨rfl, hne, hblank, -⟩ := run_eq_some_iff.mp hrun
  have hb : ∀ c ∈ blanks, c = ' ' := fun c hc => by simpa [isSpace] using hblank c hc
  exact ⟨blanks.length, List.length_pos_iff.mpr hne, by rw [← List.eq_replicate_of_mem hb]⟩

theorem eq_replicate_append (s : Text) :
    s = List.replicate (s.takeWhile isSpace).length ' ' ++ s.dropWhile isSpace := by
  have hb : ∀ c ∈ s.takeWhile isSpace, c = ' ' := fun c hc => by
    simpa [isSpace] using List.mem_takeWhile_imp hc
  rw [← List.eq_replicate_of_mem hb, List.takeWhile_append_dropWhile]

end ListingIndex.Line
