import Mathlib
import ListingIndex.Line.Reference
import ListingIndex.Proofs.Fields

/-! Lists of references, printed and read. A list is printed with one space between two references,
and reading gives back what was printed. -/
namespace ListingIndex.Line.Reference
open Text Column

/-- A reference that a listing can print. -/
structure Valid (r : Reference) : Prop where
  statement : r.statement < 2 ^ 32
  role : ∀ c ∈ r.role, isRole c

def print (r : Reference) : Text := Nat.toDigits 10 r.statement ++ r.role.toList

def printAll (rs : List Reference) : Text := List.intercalate [' '] (rs.map print)

theorem printAll_cons_cons (r q : Reference) (rs : List Reference) :
    printAll (r :: q :: rs) = r.print ++ ' ' :: printAll (q :: rs) := by
  simp [printAll, List.intercalate_cons_cons]

theorem isDecimal_of_mem_toDigits {n : ℕ} {c : Char} (h : c ∈ Nat.toDigits 10 n) : isDecimal c :=
  Nat.isDigit_of_mem_toDigits (by decide) le_rfl h

theorem not_isDecimal_of_isRole {c : Char} (h : isRole c) : ¬ isDecimal c := by
  have hall : "BDMUX".toList.all fun c => !isDecimal c := by decide
  simpa using List.all_eq_true.mp hall c (List.contains_iff_mem.mp h)

/-! Reading -/

theorem readFrom_digits {digits : Text} (h : ∀ c ∈ digits, isDecimal c) (n : ℕ) (s : Text) :
    readFrom (some n) (digits ++ s) =
      readFrom (some (digits.foldl (fun n c => 10 * n + digitValue c) n)) s := by
  induction digits generalizing n with
  | nil => rfl
  | cons c digits ih =>
    have hc : isDecimal c := h c (by simp)
    rw [List.cons_append, readFrom, if_pos hc, ih (fun d hd => h d (by simp [hd]))]
    rfl

/-- A digit is read with the value in front of it, and without one it starts a number. -/
theorem readFrom_none_of_isDecimal {c : Char} (h : isDecimal c) (s : Text) :
    readFrom none (c :: s) = readFrom (some 0) (c :: s) := by
  simp [readFrom, h]

/-- What divides two references belongs to neither of them. -/
theorem readFrom_append {c : Char} (hd : ¬ isDecimal c) (hr : ¬ isRole c) (value : Option ℕ)
    (a b : Text) : readFrom value (a ++ c :: b) = readFrom value a ++ readAll b := by
  induction a generalizing value with
  | nil => simp [readFrom, hd, hr, readAll]
  | cons x a ih =>
    rw [List.cons_append, readFrom, readFrom]
    split
    · exact ih _
    · rw [ih, List.append_assoc]

theorem ofNumber?_of_lt {n : ℕ} (h : n < 2 ^ 32) (role : Option Char) :
    ofNumber? (some n) role = some ⟨n, role⟩ := by
  rw [← wordLimit_eq] at h
  simp [ofNumber?, h]

theorem readAll_of_not_isDecimal {c : Char} (h : ¬ isDecimal c) (s : Text) :
    readAll (c :: s) = readAll s := by
  simp [readAll, readFrom, h, ofNumber?]

theorem readAll_of_no_digits {divider : Text} (h : ∀ c ∈ divider, ¬ isDecimal c) (s : Text) :
    readAll (divider ++ s) = readAll s := by
  induction divider with
  | nil => rfl
  | cons c divider ih =>
    rw [List.cons_append, readAll_of_not_isDecimal (h c (by simp))]
    exact ih fun d hd => h d (by simp [hd])

/-- All digits that stand together are one number, and the character behind them may be its role. -/
theorem readAll_digits {digits s : Text} (hne : digits ≠ []) (hd : ∀ c ∈ digits, isDecimal c)
    (hs : ∀ c ∈ s.head?, ¬ isDecimal c) :
    readAll (digits ++ s) =
      (ofNumber? (some (numeral 10 digits)) (s.head?.filter isRole)).toList ++ readAll s := by
  have hstart : readAll (digits ++ s) = readFrom (some 0) (digits ++ s) := by
    obtain ⟨c, rest, rfl⟩ := List.exists_cons_of_ne_nil hne
    exact readFrom_none_of_isDecimal (hd c (by simp)) _
  rw [hstart, readFrom_digits hd, ← numeral]
  cases s with
  | nil => simp [readFrom, readAll, ofNumber?]
  | cons c s =>
    have hc : ¬ isDecimal c := hs c rfl
    rw [readAll_of_not_isDecimal hc, readFrom, if_neg hc, List.head?_cons, Option.filter_some, readAll]

theorem readAll_print {r : Reference} (h : r.Valid) : readAll r.print = [r] := by
  obtain ⟨statement, role⟩ := r
  have hrole : ∀ c ∈ role.toList, ¬ isDecimal c := fun c hc =>
    not_isDecimal_of_isRole (h.role c (Option.mem_toList.mp hc))
  have hkept : role.toList.head?.filter isRole = role := by
    cases role with
    | none => rfl
    | some c => simp [h.role c rfl]
  have hend : readAll role.toList = [] := by
    rw [← List.append_nil role.toList, readAll_of_no_digits hrole]
    rfl
  rw [print, readAll_digits Nat.toDigits_ne_nil (fun c hc => isDecimal_of_mem_toDigits hc)
    (fun c hc => hrole c (List.mem_of_mem_head? hc)), numeral_toDigits, hkept,
    ofNumber?_of_lt h.statement, hend]
  rfl

/-- A text that shows references, with one or more spaces and commas between two of them. -/
inductive Shows : List Reference → Text → Prop
  | nil : Shows [] []
  | single (r : Reference) : Shows [r] r.print
  | cons (r : Reference) {q : Reference} {rs : List Reference} {divider s : Text} (hne : divider ≠ [])
    (hd : ∀ c ∈ divider, c = ' ' ∨ c = ',') (h : Shows (q :: rs) s) :
    Shows (r :: q :: rs) (r.print ++ divider ++ s)

theorem Shows.readAll_eq {rs : List Reference} {s : Text} (h : Shows rs s) (hv : ∀ r ∈ rs, r.Valid) :
    readAll s = rs := by
  induction h with
  | nil => rfl
  | single r => exact readAll_print (hv r (by simp))
  | @cons r q rs divider s hne hd _ ih =>
    have hrest := ih fun p hp => hv p (by simp [hp])
    have hr := readAll_print (hv r (by simp))
    have hdigits : ∀ c ∈ divider, ¬ isDecimal c := by
      intro c hc
      rcases hd c hc with rfl | rfl <;> decide
    obtain ⟨c, divider, rfl⟩ := List.exists_cons_of_ne_nil hne
    have hrole : ¬ isRole c := by
      rcases hd c (by simp) with rfl | rfl <;> decide
    rw [List.append_assoc, List.cons_append, readAll, readFrom_append (hdigits c (by simp)) hrole,
      readAll_of_no_digits (fun d h => hdigits d (by simp [h])), hrest, ← readAll, hr]
    rfl

theorem shows_printAll (rs : List Reference) : Shows rs (printAll rs) := by
  induction rs with
  | nil => exact .nil
  | cons r rs ih =>
    cases rs with
    | nil => simpa [printAll] using Shows.single r
    | cons q rs =>
      rw [printAll_cons_cons]
      simpa using Shows.cons r (List.cons_ne_nil ' ' []) (by simp) ih

theorem readAll_printAll {rs : List Reference} (h : ∀ r ∈ rs, r.Valid) :
    readAll (printAll rs) = rs :=
  (shows_printAll rs).readAll_eq h

/-! What a printed list looks like -/

theorem print_ne_nil (r : Reference) : r.print ≠ [] := by
  simp [print, Nat.toDigits_ne_nil]

/-- Two spaces never stand side by side. -/
def SinglySpaced (s : Text) : Prop := s.IsChain fun a b => isSpace a → ¬ isSpace b

section
variable {r : Reference} (h : r.Valid)
include h

theorem mem_print {c : Char} (hc : c ∈ r.print) : isDecimal c ∨ isRole c := by
  rcases List.mem_append.mp hc with hc | hc
  · exact Or.inl (isDecimal_of_mem_toDigits hc)
  · exact Or.inr (h.role c (Option.mem_toList.mp hc))

theorem not_isSpace_of_mem_print {c : Char} (hc : c ∈ r.print) : ¬ isSpace c := by
  intro hs
  have hspace : c = ' ' := by simpa [isSpace] using hs
  rcases mem_print h hc with hd | hr
  · exact not_isSpace_of_isDecimal hd hs
  · rw [hspace] at hr
    exact absurd hr (by decide)

theorem isFree_of_mem_print {c : Char} (hc : c ∈ r.print) : isFree c := by
  by_contra hf
  have hfeed : c = '\n' := by simpa [isFree] using hf
  rw [hfeed] at hc
  rcases mem_print h hc with hd | hr
  · exact absurd hd (by decide)
  · exact absurd hr (by decide)

end

theorem singlySpaced_print {r : Reference} (h : r.Valid) : SinglySpaced r.print :=
  List.Pairwise.isChain (List.pairwise_of_forall_mem_list fun _ ha _ _ hs =>
    absurd hs (not_isSpace_of_mem_print h ha))

section
variable {rs : List Reference}

theorem printAll_eq_cons (hne : rs ≠ []) : ∃ c s, printAll rs = c :: s ∧ isDecimal c := by
  obtain ⟨r, rs, rfl⟩ := List.exists_cons_of_ne_nil hne
  obtain ⟨c, digits, hc⟩ :=
    List.exists_cons_of_ne_nil (Nat.toDigits_ne_nil (n := r.statement) (b := 10))
  have hd : isDecimal c := isDecimal_of_mem_toDigits (by rw [hc]; simp)
  cases rs with
  | nil => exact ⟨c, digits ++ r.role.toList, by simp [printAll, print, hc], hd⟩
  | cons q rs =>
    rw [printAll_cons_cons, print, hc]
    exact ⟨c, _, rfl, hd⟩

theorem head?_printAll {c : Char} (h : c ∈ (printAll rs).head?) : isDecimal c := by
  cases rs with
  | nil => cases h
  | cons r rs =>
    obtain ⟨d, s, hs, hd⟩ := printAll_eq_cons (List.cons_ne_nil r rs)
    rw [hs, List.head?_cons, Option.mem_some_iff] at h
    exact h ▸ hd

variable (h : ∀ r ∈ rs, r.Valid)
include h

theorem isFree_of_mem_printAll {c : Char} (hc : c ∈ printAll rs) : isFree c := by
  induction rs with
  | nil => cases hc
  | cons r rs ih =>
    cases rs with
    | nil => exact isFree_of_mem_print (h r (by simp)) (by simpa [printAll] using hc)
    | cons q rs =>
      rw [printAll_cons_cons, List.mem_append, List.mem_cons] at hc
      rcases hc with hc | rfl | hc
      · exact isFree_of_mem_print (h r (by simp)) hc
      · decide
      · exact ih (fun r hr => h r (by simp [hr])) hc

theorem singlySpaced_printAll : SinglySpaced (printAll rs) := by
  induction rs with
  | nil => exact .nil
  | cons r rs ih =>
    have hr := singlySpaced_print (h r (by simp))
    cases rs with
    | nil => simpa [printAll] using hr
    | cons q rs =>
      have hrest := ih fun r hr => h r (by simp [hr])
      rw [printAll_cons_cons]
      refine List.isChain_append.mpr ⟨hr, List.isChain_cons.mpr ⟨?_, hrest⟩, ?_⟩
      · intro c hc _
        exact not_isSpace_of_isDecimal (head?_printAll hc)
      · intro c hc _ _ hs
        exact absurd hs (not_isSpace_of_mem_print (h r (by simp)) (List.mem_of_mem_getLast? hc))

end

/-- One number of one digit, without a letter. -/
def isLoneDigit : List Reference → Bool
  | [⟨n, none⟩] => n < 10
  | _ => false

/-- A printed list has more than one character, unless it is a lone digit. -/
theorem length_printAll_le_one_iff {rs : List Reference} (hne : rs ≠ []) :
    (printAll rs).length ≤ 1 ↔ isLoneDigit rs := by
  obtain ⟨r, rs, rfl⟩ := List.exists_cons_of_ne_nil hne
  cases rs with
  | nil =>
    obtain ⟨n, role⟩ := r
    have hlen := Nat.length_toDigits_le_iff (b := 10) (n := n) (k := 1) (by decide) (by decide)
    cases role with
    | none => simpa [printAll, print, isLoneDigit] using hlen
    | some c => simp [printAll, print, isLoneDigit, Nat.toDigits_ne_nil]
  | cons q rs =>
    have hr : 0 < r.print.length := List.length_pos_iff.mpr r.print_ne_nil
    simp only [printAll_cons_cons, List.length_append, List.length_cons, isLoneDigit,
      Bool.false_eq_true, iff_false]
    omega

end ListingIndex.Line.Reference
