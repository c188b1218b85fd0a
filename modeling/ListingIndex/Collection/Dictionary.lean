/-! Dictionaries that list their keys in the order in which they first came. -/
namespace ListingIndex

structure Dictionary (κ α : Type) where
  entries : List (κ × α)
deriving DecidableEq, Repr

namespace Dictionary

variable {κ α : Type}

def empty : Dictionary κ α := ⟨[]⟩

def keys (d : Dictionary κ α) : List κ := d.entries.map (·.1)

def values (d : Dictionary κ α) : List α := d.entries.map (·.2)

variable [DecidableEq κ]

def find? (d : Dictionary κ α) (k : κ) : Option α := (d.entries.find? (·.1 = k)).map (·.2)

def contains (d : Dictionary κ α) (k : κ) : Bool := (d.find? k).isSome

/-- Changes the first entry at `k`, or adds one behind all others. -/
def replace (k : κ) (f : Option α → α) : List (κ × α) → List (κ × α)
  | [] => [(k, f none)]
  | (j, a) :: l => if j = k then (j, f (some a)) :: l else (j, a) :: replace k f l

/-- Changes the value at `k` where it stands, or adds one behind all others. -/
def update (d : Dictionary κ α) (k : κ) (f : Option α → α) : Dictionary κ α := ⟨replace k f d.entries⟩

def insert (d : Dictionary κ α) (k : κ) (a : α) : Dictionary κ α := d.update k fun _ => a

def insertIfNew (d : Dictionary κ α) (k : κ) (a : α) : Dictionary κ α :=
  if d.contains k then d else d.insert k a

/-- Changes the value at `k`, if there is one. -/
def modify (d : Dictionary κ α) (k : κ) (g : α → α) : Dictionary κ α :=
  ⟨d.entries.map fun e => if e.1 = k then (e.1, g e.2) else e⟩

def erase (d : Dictionary κ α) (k : κ) : Dictionary κ α := ⟨d.entries.filter (·.1 ≠ k)⟩

theorem find?_eq_none_iff {d : Dictionary κ α} {k : κ} : d.find? k = none ↔ k ∉ d.keys := by
  simp only [find?, Option.map_eq_none_iff, List.find?_eq_none, decide_eq_true_eq, keys,
    List.mem_map, not_exists, not_and]

/-- Where no key stands twice, every entry is found. -/
theorem find?_of_mem_entries {d : Dictionary κ α} (hd : d.keys.Nodup) {e : κ × α}
    (h : e ∈ d.entries) : d.find? e.1 = some e.2 := by
  obtain ⟨l⟩ := d
  change (l.map (·.1)).Nodup at hd
  change (l.find? (·.1 = e.1)).map (·.2) = some e.2
  change e ∈ l at h
  induction l with
  | nil => cases h
  | cons x l ih =>
    rw [List.map_cons, List.nodup_cons] at hd
    rcases List.mem_cons.mp h with rfl | h
    · simp
    · have hne : x.1 ≠ e.1 := fun hx => hd.1 (hx ▸ List.mem_map_of_mem h)
      rw [List.find?_cons_of_neg (by simpa using hne)]
      exact ih hd.2 h

/-- A new key goes behind all others. -/
theorem keys_update (d : Dictionary κ α) (k : κ) (f : Option α → α) :
    (d.update k f).keys = if k ∈ d.keys then d.keys else d.keys ++ [k] := by
  unfold keys update
  induction d.entries with
  | nil => simp [replace]
  | cons e l ih => grind [replace]

theorem keys_insert (d : Dictionary κ α) (k : κ) (a : α) :
    (d.insert k a).keys = if k ∈ d.keys then d.keys else d.keys ++ [k] := keys_update ..

theorem insertIfNew_of_mem {d : Dictionary κ α} {k : κ} (h : k ∈ d.keys) (a : α) :
    d.insertIfNew k a = d := by
  have hc : d.contains k := Option.isSome_iff_ne_none.mpr fun hn => find?_eq_none_iff.mp hn h
  rw [insertIfNew, if_pos hc]

theorem insertIfNew_of_not_mem {d : Dictionary κ α} {k : κ} (h : k ∉ d.keys) (a : α) :
    d.insertIfNew k a = d.insert k a := by
  simp [insertIfNew, contains, find?_eq_none_iff.mpr h]

theorem find?_update (d : Dictionary κ α) (k n : κ) (f : Option α → α) :
    (d.update k f).find? n = if n = k then some (f (d.find? k)) else d.find? n := by
  unfold find? update
  induction d.entries with
  | nil => by_cases h : n = k <;> simp [replace, h, Ne.symm]
  | cons e l ih => grind [replace]

theorem find?_insert (d : Dictionary κ α) (k n : κ) (a : α) :
    (d.insert k a).find? n = if n = k then some a else d.find? n := find?_update ..

theorem find?_insertIfNew (d : Dictionary κ α) (k n : κ) (a : α) :
    (d.insertIfNew k a).find? n = if n = k then some ((d.find? k).getD a) else d.find? n := by
  unfold insertIfNew contains
  cases h : d.find? k with
  | none => simpa using find?_insert d k n a
  | some b => by_cases hn : n = k <;> simp [hn, h]

theorem find?_modify (d : Dictionary κ α) (k n : κ) (g : α → α) :
    (d.modify k g).find? n = if n = k then (d.find? k).map g else d.find? n := by
  unfold find? modify
  induction d.entries with
  | nil => simp
  | cons e l ih => grind

theorem find?_erase (d : Dictionary κ α) (k n : κ) :
    (d.erase k).find? n = if n = k then none else d.find? n := by
  unfold find? erase
  induction d.entries with
  | nil => simp
  | cons e l ih => grind

end Dictionary
end ListingIndex
