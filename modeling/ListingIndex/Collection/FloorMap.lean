/-! Finite maps from numbers that also answer for the numbers between their keys: `floor?` gives the
entry with the greatest key at or below a number. Entries are kept with the greatest key first, so
that the answer is the first one that is not too great. -/
namespace ListingIndex

structure FloorMap (α : Type) where
  entries : List (Nat × α)
  descending : entries.Pairwise fun a b => b.1 < a.1
deriving DecidableEq, Repr

namespace FloorMap

variable {α β : Type}

def empty : FloorMap α := ⟨[], .nil⟩

def find? (m : FloorMap α) (k : Nat) : Option α := (m.entries.find? (·.1 = k)).map (·.2)

/-- The entry with the greatest key at or below `k`. -/
def floor? (m : FloorMap α) (k : Nat) : Option (Nat × α) := m.entries.find? (·.1 ≤ k)

/-- The entries, the least key first. -/
def toList (m : FloorMap α) : List (Nat × α) := m.entries.reverse

def keys (m : FloorMap α) : List Nat := m.toList.map (·.1)

theorem find?_eq_some_iff {m : FloorMap α} {k : Nat} {a : α} : m.find? k = some a ↔ (k, a) ∈ m.entries := by
  obtain ⟨l, hd⟩ := m
  simp only [find?]
  induction l with
  | nil => simp
  | cons e l ih =>
    rw [List.pairwise_cons] at hd
    by_cases he : e.1 = k
    · have hl : (k, a) ∉ l := fun hm => by have := hd.1 _ hm; omega
      simp [he, hl, Prod.ext_iff, eq_comm]
    · have hne : (k, a) ≠ e := fun h => he (h ▸ rfl)
      simpa [he, hne] using ih hd.2

theorem mem_keys {m : FloorMap α} {k : Nat} : k ∈ m.keys ↔ ∃ a, m.find? k = some a := by
  simp [keys, toList, find?_eq_some_iff]

theorem floor?_eq_some_iff {m : FloorMap α} {k : Nat} {e : Nat × α} :
    m.floor? k = some e ↔ e ∈ m.entries ∧ e.1 ≤ k ∧ ∀ d ∈ m.entries, d.1 ≤ k → d.1 ≤ e.1 := by
  obtain ⟨l, hd⟩ := m
  simp only [floor?]
  induction l with
  | nil => simp
  | cons c l ih =>
    rw [List.pairwise_cons] at hd
    by_cases hc : c.1 ≤ k
    · simp only [List.find?_cons, hc, decide_true, Option.some.injEq]
      constructor
      · rintro rfl
        refine ⟨by simp, hc, fun d hm _ => ?_⟩
        rcases List.mem_cons.mp hm with rfl | hm
        · exact Nat.le_refl _
        · exact Nat.le_of_lt (hd.1 d hm)
      · rintro ⟨hm, -, hmax⟩
        rcases List.mem_cons.mp hm with rfl | hm
        · rfl
        · have := hmax c (by simp) hc
          have := hd.1 e hm
          omega
    · simp only [List.find?_cons, hc, decide_false, ih hd.2]
      constructor
      · rintro ⟨hm, hk, hmax⟩
        refine ⟨by simp [hm], hk, fun d hm hdk => ?_⟩
        rcases List.mem_cons.mp hm with rfl | hm
        · exact absurd hdk hc
        · exact hmax d hm hdk
      · rintro ⟨hm, hk, hmax⟩
        rcases List.mem_cons.mp hm with rfl | hm
        · exact absurd hk hc
        · exact ⟨hm, hk, fun d hm => hmax d (by simp [hm])⟩

/-- Maps with the same values are equal. -/
theorem ext {m n : FloorMap α} (h : ∀ k, m.find? k = n.find? k) : m = n := by
  have hmem : ∀ e, e ∈ m.entries ↔ e ∈ n.entries := fun e => by
    rw [← find?_eq_some_iff (k := e.1) (a := e.2), ← find?_eq_some_iff (k := e.1) (a := e.2), h]
  have hm := m.descending
  have hn := n.descending
  have hne : ∀ {a b : Nat × α}, b.1 < a.1 → a ≠ b := fun hlt he => by subst he; omega
  have hp := (List.perm_ext_iff_of_nodup (hm.imp hne) (hn.imp hne)).mpr hmem
  obtain ⟨l, _⟩ := m
  obtain ⟨r, _⟩ := n
  congr
  exact hp.eq_of_pairwise (fun a b _ _ hab hba => by omega) hm hn

/-- Replaces the value at `k`, or puts one there, in entries with the greatest key first. -/
def replace (k : Nat) (f : Option α → α) : List (Nat × α) → List (Nat × α)
  | [] => [(k, f none)]
  | (j, a) :: l =>
    if j < k then (k, f none) :: (j, a) :: l
    else if j = k then (k, f (some a)) :: l
    else (j, a) :: replace k f l

theorem mem_keys_replace {k n : Nat} {f : Option α → α} {l : List (Nat × α)}
    (h : n ∈ (replace k f l).map (·.1)) : n = k ∨ n ∈ l.map (·.1) := by
  induction l with
  | nil => simpa [replace] using h
  | cons e l ih =>
    obtain ⟨j, a⟩ := e
    unfold replace at h
    split at h
    · simpa using h
    · split at h
      · simpa using Or.imp_right Or.inr (by simpa using h)
      · simp only [List.map_cons, List.mem_cons] at h ⊢
        grind

theorem replace_descending {k : Nat} {f : Option α → α} {l : List (Nat × α)}
    (h : l.Pairwise fun a b => b.1 < a.1) : (replace k f l).Pairwise fun a b => b.1 < a.1 := by
  induction l with
  | nil => simp [replace]
  | cons e l ih =>
    obtain ⟨j, a⟩ := e
    rw [List.pairwise_cons] at h
    unfold replace
    split
    · refine List.pairwise_cons.mpr ⟨fun b hb => ?_, List.pairwise_cons.mpr h⟩
      rcases List.mem_cons.mp hb with rfl | hb
      · assumption
      · exact Nat.lt_trans (h.1 b hb) (by assumption)
    · split
      · rename_i hjk
        subst hjk
        exact List.pairwise_cons.mpr ⟨fun b hb => h.1 b hb, h.2⟩
      · refine List.pairwise_cons.mpr ⟨fun b hb => ?_, ih h.2⟩
        rcases mem_keys_replace (List.mem_map_of_mem hb) with hk | hk
        · simp only [hk]; omega
        · obtain ⟨c, hc, he⟩ := List.mem_map.mp hk
          exact he ▸ h.1 c hc

/-- Replaces the value at `k`, or puts one there. -/
def update (m : FloorMap α) (k : Nat) (f : Option α → α) : FloorMap α :=
  ⟨replace k f m.entries, replace_descending m.descending⟩

def insert (m : FloorMap α) (k : Nat) (a : α) : FloorMap α := m.update k fun _ => a

theorem map_descending {l : List (Nat × α)} (g : Nat × α → β)
    (h : l.Pairwise fun a b => b.1 < a.1) :
    (l.map fun e => (e.1, g e)).Pairwise fun a b => b.1 < a.1 :=
  List.pairwise_map.mpr h

/-- Changes every value, knowing its key. -/
def mapIdx (m : FloorMap α) (g : Nat → α → β) : FloorMap β :=
  ⟨m.entries.map fun e => (e.1, g e.1 e.2), map_descending (fun e => g e.1 e.2) m.descending⟩

/-- Changes the value at `k`, if there is one. -/
def modify (m : FloorMap α) (k : Nat) (g : α → α) : FloorMap α :=
  m.mapIdx fun j a => if j = k then g a else a

theorem find?_replace (k n : Nat) (f : Option α → α) {l : List (Nat × α)}
    (h : l.Pairwise fun a b => b.1 < a.1) :
    ((replace k f l).find? (·.1 = n)).map (·.2) =
      if n = k then some (f ((l.find? (·.1 = k)).map (·.2))) else (l.find? (·.1 = n)).map (·.2) := by
  induction l with
  | nil => grind [replace]
  | cons e l ih =>
    obtain ⟨j, a⟩ := e
    rw [List.pairwise_cons] at h
    have hn : j < k → l.find? (·.1 = k) = none := fun hj => by
      rw [List.find?_eq_none]
      intro b hb
      have := h.1 b hb
      simp only [decide_eq_true_eq]
      omega
    grind [replace]

theorem find?_update (m : FloorMap α) (k n : Nat) (f : Option α → α) :
    (m.update k f).find? n = if n = k then some (f (m.find? k)) else m.find? n :=
  find?_replace k n f m.descending

theorem find?_mapIdx (m : FloorMap α) (g : Nat → α → β) (n : Nat) :
    (m.mapIdx g).find? n = (m.find? n).map (g n) := by
  simp only [find?, mapIdx]
  induction m.entries with
  | nil => rfl
  | cons e l ih =>
    by_cases h : e.1 = n
    · simp [h]
    · simpa [h] using ih

end FloorMap
end ListingIndex
