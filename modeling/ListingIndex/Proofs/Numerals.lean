import Mathlib
import ListingIndex.Text.Numeral

/-! Numbers and the digits that write them. Decimal digits have the value that the library gives
them. A hexadecimal digit counts for its place in an alphabet of sixteen. -/
namespace ListingIndex.Text

theorem numeral_concat (base : ℕ) (digits : Text) (c : Char) :
    numeral base (digits ++ [c]) = base * numeral base digits + digitValue c := by
  simp [numeral]

theorem numeral_eq_ofDigits (base : ℕ) (digits : Text) :
    numeral base digits = Nat.ofDigits base (digits.map digitValue).reverse := by
  induction digits using List.reverseRecOn with
  | nil => rfl
  | append_singleton digits c ih =>
    rw [numeral_concat, ih, List.map_append, List.reverse_append]
    simp only [List.map_cons, List.map_nil, List.reverse_singleton, List.singleton_append,
      Nat.ofDigits_cons]
    omega

theorem numeral_ten {digits : Text} (h : ∀ c ∈ digits, c.isDigit) :
    numeral 10 digits = Nat.ofDigitChars 10 digits 0 := by
  have hv : ∀ c ∈ digits, digitValue c = c.toNat - '0'.toNat := by
    intro c hc
    simp [digitValue, h c hc]
  unfold numeral Nat.ofDigitChars
  exact List.foldl_ext _ _ _ fun n c hc => by rw [hv c hc]

theorem numeral_toDigits (n : ℕ) : numeral 10 (Nat.toDigits 10 n) = n := by
  have hd : ∀ c ∈ Nat.toDigits 10 n, c.isDigit := fun c hc =>
    Nat.isDigit_of_mem_toDigits (by decide) le_rfl hc
  rw [numeral_ten hd, Nat.ofDigitChars_toDigits (by decide) le_rfl]

theorem wordLimit_eq : wordLimit = 2 ^ 32 := by decide

theorem decimal?_eq_some_iff {digits : Text} (h : ∀ c ∈ digits, c.isDigit) {n : ℕ} :
    decimal? digits = some n ↔ Nat.ofDigitChars 10 digits 0 = n ∧ n < 2 ^ 32 := by
  simp only [decimal?, numeral_ten h, wordLimit_eq, Option.ite_none_right_eq_some, Option.some.injEq]
  constructor
  · rintro ⟨hlt, rfl⟩
    exact ⟨rfl, hlt⟩
  · rintro ⟨rfl, hlt⟩
    exact ⟨hlt, rfl⟩

/-! Hexadecimal digits -/

/-- The hexadecimal digits, each at the place of its value. -/
def hexAlphabet : Text :=
  ['0', '1', '2', '3', '4', '5', '6', '7', '8', '9', 'A', 'B', 'C', 'D', 'E', 'F']

theorem isHex_iff_mem {c : Char} : isHex c ↔ c ∈ hexAlphabet := by
  constructor
  · intro hx
    have h := hx
    simp only [isHex, Char.isDigit, Bool.or_eq_true, Bool.and_eq_true, decide_eq_true_eq, Char.le_def,
      ge_iff_le, UInt32.le_iff_toNat_le] at h
    have hlt : c.toNat < 71 := by
      rcases h with h | h
      · exact h.2.trans_lt (by decide)
      · exact h.2.trans_lt (by decide)
    have hall : ∀ n < 71, isHex (Char.ofNat n) → Char.ofNat n ∈ hexAlphabet := by decide
    have hc := hall c.toNat hlt
    rw [Char.ofNat_toNat] at hc
    exact hc hx
  · intro h
    have hall : hexAlphabet.all isHex := by decide
    exact List.all_eq_true.mp hall c h

theorem digitValue_of_mem {c : Char} (h : c ∈ hexAlphabet) : digitValue c = hexAlphabet.idxOf c := by
  have hall : hexAlphabet.all fun c => digitValue c = hexAlphabet.idxOf c := by decide
  simpa using List.all_eq_true.mp hall c h

/-- A text that writes `n` with `width` hexadecimal digits, the letters among them in upper case. -/
structure IsHexOf (text : Text) (width n : ℕ) : Prop where
  length : text.length = width
  digits : ∀ c ∈ text, c ∈ hexAlphabet
  value : Nat.ofDigits 16 (text.map hexAlphabet.idxOf).reverse = n

theorem isHexOf_iff {text : Text} {width n : ℕ} :
    IsHexOf text width n ↔ text.length = width ∧ text.all isHex ∧ numeral 16 text = n := by
  have hv : (∀ c ∈ text, c ∈ hexAlphabet) →
      numeral 16 text = Nat.ofDigits 16 (text.map hexAlphabet.idxOf).reverse := by
    intro h
    rw [numeral_eq_ofDigits, List.map_congr_left fun c hc => digitValue_of_mem (h c hc)]
  simp only [List.all_eq_true, isHex_iff_mem]
  constructor
  · intro h
    exact ⟨h.length, h.digits, (hv h.digits).trans h.value⟩
  · rintro ⟨hl, hd, hn⟩
    exact ⟨hl, hd, (hv hd).symm.trans hn⟩

theorem IsHexOf.lt {text : Text} {width n : ℕ} (h : IsHexOf text width n) : n < 16 ^ width := by
  have hd : ∀ d ∈ (text.map hexAlphabet.idxOf).reverse, d < 16 := by
    intro d hd
    obtain ⟨c, hc, rfl⟩ := List.mem_map.mp (List.mem_reverse.mp hd)
    exact List.idxOf_lt_length_of_mem (h.digits c hc)
  have hlt := Nat.ofDigits_lt_base_pow_length (by decide) hd
  rwa [h.value, List.length_reverse, List.length_map, h.length] at hlt

theorem IsHexOf.toNat_hexWord {text : Text} {width n : ℕ} (h : IsHexOf text width n)
    (hw : width ≤ 8) : (hexWord text).toNat = n := by
  have hlt : n < 16 ^ 8 := h.lt.trans_le (Nat.pow_le_pow_right (by decide) hw)
  rw [hexWord, (isHexOf_iff.mp h).2.2]
  exact UInt32.toNat_ofNat_of_lt hlt

theorem isHexOf_hexDigits {k n : ℕ} (h : n < 16 ^ k) : IsHexOf (hexDigits k n) k n := by
  have hdigit : ∀ d < 16, isHex (hexDigit d) ∧ digitValue (hexDigit d) = d := by decide
  rw [isHexOf_iff]
  refine ⟨length_hexDigits k n, ?_⟩
  induction k generalizing n with
  | zero => simp_all [hexDigits, numeral]
  | succ k ih =>
    have hn : n / 16 < 16 ^ k := Nat.div_lt_of_lt_mul (by rwa [pow_succ'] at h)
    obtain ⟨ha, hv⟩ := ih hn
    obtain ⟨hx, hd⟩ := hdigit (n % 16) (Nat.mod_lt _ (by decide))
    rw [hexDigits, numeral_concat, hv, hd]
    exact ⟨by simp [List.all_append, ha, hx], Nat.div_add_mod n 16⟩

theorem isHexOf_wordHex (w : UInt32) : IsHexOf (wordHex w) 8 w.toNat :=
  isHexOf_hexDigits w.toNat_lt

theorem hexWord_wordHex (w : UInt32) : hexWord (wordHex w) = w :=
  UInt32.toNat_inj.mp ((isHexOf_wordHex w).toNat_hexWord le_rfl)

end ListingIndex.Text
