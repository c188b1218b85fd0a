import ListingIndex.Text.Basic

/-! Reading a line column by column. A reader takes the text from some column on and gives the field
found there with the text after it, or nothing. -/
namespace ListingIndex.Column

open Text

/-- Any character may stand in a free column, but a line feed. -/
def isFree (c : Char) : Bool := c != '\n'

def isSpace (c : Char) : Bool := c == ' '

/-- The next `n` characters, all of one class. -/
def exactly (p : Char → Bool) : Nat → Text → Option (Text × Text)
  | 0, s => some ([], s)
  | _ + 1, [] => none
  | n + 1, c :: s => if p c then (exactly p n s).map fun (field, rest) => (c :: field, rest) else none

/-- The longest run of one class, at least one character. -/
def run (p : Char → Bool) (s : Text) : Option (Text × Text) :=
  if (s.takeWhile p).isEmpty then none else some (s.takeWhile p, s.dropWhile p)

/-- The text after a fixed wording. -/
def word : Text → Text → Option Text
  | [], s => some s
  | _ :: _, [] => none
  | c :: w, d :: s => if c = d then word w s else none

/-- The text after one or more spaces, all of them taken. -/
def spaces (s : Text) : Option Text := (run isSpace s).map (·.2)

/-- The text after one space. -/
def space : Text → Option Text
  | c :: s => if isSpace c then some s else none
  | [] => none

theorem exactly_append {p : Char → Bool} {field : Text} (h : field.all p) (rest : Text) :
    exactly p field.length (field ++ rest) = some (field, rest) := by
  induction field with
  | nil => rfl
  | cons c field ih =>
    simp only [List.all_cons, Bool.and_eq_true] at h
    simp [exactly, h.1, ih h.2]

theorem exactly_sound {p : Char → Bool} {n : Nat} {s field rest : Text}
    (h : exactly p n s = some (field, rest)) : s = field ++ rest ∧ field.length = n ∧ field.all p := by
  fun_induction exactly p n s generalizing field with
  | case1 => simp_all
  | case2 => simp at h
  | case3 n c s hc ih =>
    obtain ⟨⟨f, r⟩, hf, he⟩ := Option.map_eq_some_iff.1 h
    simp only [Prod.mk.injEq] at he
    obtain ⟨rfl, rfl⟩ := he
    obtain ⟨rfl, rfl, ha⟩ := ih hf
    simp [hc, ha]
  | case4 => simp at h

/-- A field is read exactly where its characters stand. -/
theorem exactly_eq_some_iff {p : Char → Bool} {n : Nat} {s field rest : Text} :
    exactly p n s = some (field, rest) ↔ s = field ++ rest ∧ field.length = n ∧ field.all p :=
  ⟨exactly_sound, fun ⟨hs, hn, ha⟩ => by rw [hs, ← hn, exactly_append ha]⟩

theorem word_eq_some_iff {w s rest : Text} : word w s = some rest ↔ s = w ++ rest := by
  fun_induction word w s with
  | case1 => simp
  | case2 => simp
  | case3 w d s ih => simp [ih]
  | case4 c w d s h => simp [Ne.symm h]

/-- A run is read where the next character is of another class. -/
theorem run_eq_some_iff {p : Char → Bool} {s field rest : Text} :
    run p s = some (field, rest) ↔
      s = field ++ rest ∧ field ≠ [] ∧ (∀ c ∈ field, p c) ∧ ∀ c ∈ rest.head?, ¬ p c := by
  unfold run
  constructor
  · intro h
    split at h
    · simp at h
    · rename_i hne
      simp only [Option.some.injEq, Prod.mk.injEq] at h
      obtain ⟨rfl, rfl⟩ := h
      refine ⟨List.takeWhile_append_dropWhile.symm, by simpa using hne, fun c hc => ?_, fun c hc => ?_⟩
      · exact List.all_eq_true.mp List.all_takeWhile c hc
      · have := List.head?_dropWhile_not p s
        rw [Option.mem_def.mp hc] at this
        simpa using this
  · rintro ⟨rfl, hne, hf, hr⟩
    have hstop : rest.takeWhile p = [] ∧ rest.dropWhile p = rest := by
      cases rest with
      | nil => simp
      | cons c rest =>
        have : p c = false := by simpa using hr c (by simp)
        simp [this]
    simp [List.takeWhile_append_of_pos hf, List.dropWhile_append_of_pos hf, hstop, hne]

theorem space_eq_some_iff {s rest : Text} : space s = some rest ↔ s = ' ' :: rest := by
  cases s with
  | nil => simp [space]
  | cons c s => by_cases h : c = ' ' <;> simp [space, isSpace, h]

end ListingIndex.Column
