/-! Finite sets of numbers, listed in ascending order. -/
namespace ListingIndex

structure NumberSet where
  toList : List Nat
  ascending : toList.Pairwise (· < ·)
deriving DecidableEq, Repr

namespace NumberSet

def empty : NumberSet := ⟨[], .nil⟩

instance : Membership Nat NumberSet := ⟨fun s n => n ∈ s.toList⟩

instance (n : Nat) (s : NumberSet) : Decidable (n ∈ s) := inferInstanceAs (Decidable (n ∈ s.toList))

/-- Puts a number at its place in an ascending list. -/
def place (n : Nat) : List Nat → List Nat
  | [] => [n]
  | m :: l => if n < m then n :: m :: l else if n = m then m :: l else m :: place n l

theorem mem_place {n k : Nat} {l : List Nat} : k ∈ place n l ↔ k = n ∨ k ∈ l := by
  induction l with
  | nil => simp [place]
  | cons m l ih => grind [place]

theorem place_ascending {n : Nat} {l : List Nat} (h : l.Pairwise (· < ·)) :
    (place n l).Pairwise (· < ·) := by
  induction l with
  | nil => simp [place]
  | cons m l ih =>
    rw [List.pairwise_cons] at h
    unfold place
    split
    · exact List.pairwise_cons.mpr ⟨by grind, List.pairwise_cons.mpr h⟩
    · split
      · exact List.pairwise_cons.mpr h
      · refine List.pairwise_cons.mpr ⟨fun k hk => ?_, ih h.2⟩
        rcases mem_place.mp hk with rfl | hk
        · omega
        · exact h.1 k hk

def insert (s : NumberSet) (n : Nat) : NumberSet := ⟨place n s.toList, place_ascending s.ascending⟩

def insertAll (s : NumberSet) (l : List Nat) : NumberSet := l.foldl insert s

def ofList (l : List Nat) : NumberSet := empty.insertAll l

def union (s t : NumberSet) : NumberSet := s.insertAll t.toList

@[simp] theorem not_mem_empty (n : Nat) : n ∉ empty := List.not_mem_nil

@[simp] theorem mem_insert {s : NumberSet} {n k : Nat} : k ∈ s.insert n ↔ k = n ∨ k ∈ s := mem_place

@[simp] theorem mem_insertAll {s : NumberSet} {l : List Nat} {k : Nat} :
    k ∈ s.insertAll l ↔ k ∈ s ∨ k ∈ l := by
  induction l generalizing s with
  | nil => simp [insertAll]
  | cons n l ih =>
    have : s.insertAll (n :: l) = (s.insert n).insertAll l := rfl
    rw [this, ih, mem_insert, List.mem_cons]
    grind

@[simp] theorem mem_ofList {l : List Nat} {k : Nat} : k ∈ ofList l ↔ k ∈ l := by simp [ofList]

@[simp] theorem mem_union {s t : NumberSet} {k : Nat} : k ∈ s.union t ↔ k ∈ s ∨ k ∈ t :=
  mem_insertAll

/-- Sets with the same numbers are equal. -/
theorem ext {s t : NumberSet} (h : ∀ n, n ∈ s ↔ n ∈ t) : s = t := by
  obtain ⟨l, hl⟩ := s
  obtain ⟨m, hm⟩ := t
  congr
  have hp : l.Perm m := (List.perm_ext_iff_of_nodup (hl.imp Nat.ne_of_lt) (hm.imp Nat.ne_of_lt)).mpr h
  exact hp.eq_of_pairwise (fun a b _ _ hab hba => absurd hab (Nat.not_lt.mpr (Nat.le_of_lt hba))) hl hm

end NumberSet
end ListingIndex
