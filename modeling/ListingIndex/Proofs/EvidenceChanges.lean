import Mathlib
import ListingIndex.Proofs.DenseClasses

/-! How the classes of statements answer to a change of the evidence. The order of the evidence does
not count, save that the last one of several symbols defined at a statement decides on its class.
One more statement in the using map turns statements to control sections only, and only down to the
next statement whose class is given outright. -/
namespace ListingIndex

/-- A statement defines the symbol, a relocatable one, in the section `id`. -/
def Symbol.DefinedIn (s : Symbol) (n : ℕ) (id : Int32) : Prop :=
  n ∈ s.defined ∧ ∃ d, s.details = some d ∧ d.relocatable ∧ ¬ d.undefined ∧ d.sectionId = id

/-- A statement defines one symbol in a dummy section and another one in a control section. -/
def SymbolTable.Contested (symbols : SymbolTable) (n : ℕ) : Prop :=
  ∃ s ∈ symbols.values, ∃ t ∈ symbols.values, ∃ i j,
    s.DefinedIn n i ∧ t.DefinedIn n j ∧ i < 0 ∧ 0 ≤ j

theorem Symbol.definitionAt?_eq_some_iff {s : Symbol} {n : ℕ} {c : SectionClass} :
    s.definitionAt? n = some c ↔ ∃ id, s.DefinedIn n id ∧ SectionClass.ofId id = c := by
  unfold definitionAt? DefinedIn SymbolDetails.sectionClass
  cases s.details with
  | none => simp
  | some d =>
    simp only [Option.bind_some, Option.ite_none_right_eq_some, Option.some.injEq]
    constructor
    · rintro ⟨⟨hr, hu, hn⟩, hc⟩
      exact ⟨d.sectionId, ⟨hn, d, rfl, hr, hu, rfl⟩, hc⟩
    · rintro ⟨_, ⟨hn, _, rfl, hr, hu, rfl⟩, hc⟩
      exact ⟨⟨hr, hu, hn⟩, hc⟩

namespace SymbolTable
variable {symbols symbols' : SymbolTable} {n : ℕ}

theorem contested_iff : symbols.Contested n ↔
    ∃ s ∈ symbols.values, ∃ t ∈ symbols.values,
      s.definitionAt? n = some .dummy ∧ t.definitionAt? n = some .control := by
  simp only [Symbol.definitionAt?_eq_some_iff, SectionClass.ofId_eq_dummy_iff,
    SectionClass.ofId_eq_control_iff]
  constructor
  · rintro ⟨s, hs, t, ht, i, j, hi, hj, hlt, hle⟩
    exact ⟨s, hs, t, ht, ⟨i, hi, hlt⟩, ⟨j, hj, hle⟩⟩
  · rintro ⟨s, hs, t, ht, ⟨i, hi, hlt⟩, ⟨j, hj, hle⟩⟩
    exact ⟨s, hs, t, ht, i, j, hi, hj, hlt, hle⟩

instance : Decidable (symbols.Contested n) := decidable_of_iff _ contested_iff.symm

/-- Without a contest all definitions at a statement speak for one class. -/
theorem eq_of_not_contested (h : ¬ symbols.Contested n) {c d : SectionClass}
    (hc : c ∈ symbols.values.filterMap (·.definitionAt? n))
    (hd : d ∈ symbols.values.filterMap (·.definitionAt? n)) : c = d := by
  obtain ⟨s, hs, hsc⟩ := List.mem_filterMap.mp hc
  obtain ⟨t, ht, htd⟩ := List.mem_filterMap.mp hd
  rw [contested_iff] at h
  cases c with
  | control =>
    cases d with
    | control => rfl
    | dummy => exact absurd ⟨t, ht, s, hs, htd, hsc⟩ h
  | dummy =>
    cases d with
    | control => exact absurd ⟨s, hs, t, ht, hsc, htd⟩ h
    | dummy => rfl

section
variable (hp : symbols'.entries.Perm symbols.entries)
include hp

theorem values_perm : symbols'.values.Perm symbols.values := hp.map _

theorem evidenceAt_perm : (symbols'.evidenceAt n).Perm (symbols.evidenceAt n) :=
  (values_perm hp).flatMap_right _

theorem namesControlCounter_perm :
    symbols'.namesControlCounter n = symbols.namesControlCounter n :=
  (values_perm hp).any_eq

theorem definitions_perm (h : ¬ symbols.Contested n) :
    symbols'.values.filterMap (·.definitionAt? n) = symbols.values.filterMap (·.definitionAt? n) := by
  have hd := (values_perm hp).filterMap (·.definitionAt? n)
  have hs : (symbols.values.filterMap (·.definitionAt? n)).Pairwise (· = ·) :=
    List.pairwise_of_forall_mem_list fun c hc d hd => eq_of_not_contested h hc hd
  have hs' : (symbols'.values.filterMap (·.definitionAt? n)).Pairwise (· = ·) :=
    List.pairwise_of_forall_mem_list fun c hc d hd' =>
      eq_of_not_contested h (hd.mem_iff.mp hc) (hd.mem_iff.mp hd')
  exact hd.eq_of_pairwise (fun _ _ _ _ he _ => he) hs' hs

end

/-- The table with one of its entries behind all others. -/
def withLast (symbols : SymbolTable) (e : Text × Symbol) : SymbolTable :=
  ⟨symbols.entries.erase e ++ [e]⟩

theorem withLast_perm {e : Text × Symbol} (he : e ∈ symbols.entries) :
    (symbols.withLast e).entries.Perm symbols.entries :=
  (List.perm_append_singleton e _).trans (List.perm_cons_erase he).symm

theorem getLast?_withLast {e : Text × Symbol} {c : SectionClass} (hc : e.2.definitionAt? n = some c) :
    ((symbols.withLast e).values.filterMap (·.definitionAt? n)).getLast? = some c := by
  simp [withLast, Dictionary.values, hc]

/-- Two symbols that contest a statement both point to a section there. -/
theorem Contested.length_evidenceAt (h : symbols.Contested n) : (symbols.evidenceAt n).length ≠ 1 := by
  obtain ⟨s, hs, t, ht, hsd, htc⟩ := contested_iff.mp h
  have hd : .dummy ∈ symbols.evidenceAt n :=
    List.mem_flatMap.mpr ⟨s, hs, by simp [hsd]⟩
  have hc : .control ∈ symbols.evidenceAt n :=
    List.mem_flatMap.mpr ⟨t, ht, by simp [htc]⟩
  intro hl
  obtain ⟨c, he⟩ := List.length_eq_one_iff.mp hl
  rw [he, List.mem_singleton] at hd hc
  exact SectionClass.noConfusion (hd.trans hc.symm)

end SymbolTable

namespace SectionMap

/-! The order of the evidence -/

theorem cluesAt_filter_of_lt {n last : ℕ} (h : last < n) (clues : List (ℕ × Clue)) :
    cluesAt n (clues.filter (·.1 ≤ last)) = [] := by
  rw [cluesAt, List.filterMap_filter, List.filterMap_eq_nil_iff]
  intro c _
  by_cases hc : c.1 = n
  · simp [hc, h]
  · simp [hc]

theorem cluesAt_map_eq_nil_iff {n : ℕ} {statements : List ℕ} {c : Clue} :
    cluesAt n (statements.map (·, c)) = [] ↔ n ∉ statements := by
  rw [cluesAt, List.filterMap_map, List.filterMap_eq_nil_iff]
  constructor
  · intro h hn
    simpa using h n hn
  · intro h m hm
    have hne : m ≠ n := fun he => h (he ▸ hm)
    simp [hne]

theorem denseClass_of_directClass {symbols : SymbolTable} {blocks : List CodeBlock}
    {baseRegisters transitions : List ℕ} {n : ℕ} {c : SectionClass}
    (h : directClass symbols blocks baseRegisters transitions n = some c) :
    denseClass symbols blocks baseRegisters transitions n = some c := by
  cases n <;> simp [denseClass, h]

section
variable {last : ℕ} {symbols symbols' : SymbolTable} {blocks : List CodeBlock}
  {baseRegisters baseRegisters' transitions transitions' : List ℕ}

/-- Maps are equal if the clues at every statement amount to the same. -/
theorem classify_congr
    (hn : ∀ n ≤ last, cluesAt n (clues symbols' blocks baseRegisters' transitions') = [] ↔
      cluesAt n (clues symbols blocks baseRegisters transitions) = [])
    (he : ∀ n ≤ last,
      (cluesAt n (clues symbols' blocks baseRegisters' transitions')).foldl Evidence.add .none =
        (cluesAt n (clues symbols blocks baseRegisters transitions)).foldl Evidence.add .none) :
    classify last symbols' blocks baseRegisters' transitions' =
      classify last symbols blocks baseRegisters transitions := by
  have hg : gather ((clues symbols' blocks baseRegisters' transitions').filter (·.1 ≤ last)) =
      gather ((clues symbols blocks baseRegisters transitions).filter (·.1 ≤ last)) := by
    apply FloorMap.ext
    intro n
    rw [find?_gather, find?_gather]
    by_cases hl : n ≤ last
    · rw [cluesAt_filter hl, cluesAt_filter hl, he n hl]
      simp only [hn n hl]
    · rw [cluesAt_filter_of_lt (by omega), cluesAt_filter_of_lt (by omega)]
  simp only [classify, hg]

section
variable (hb : ∀ n, n ∈ baseRegisters' ↔ n ∈ baseRegisters)
  (ht : ∀ n, n ∈ transitions' ↔ n ∈ transitions)
include hb ht

theorem cluesAt_eq_nil_iff (hp : symbols'.entries.Perm symbols.entries) (n : ℕ) :
    cluesAt n (clues symbols' blocks baseRegisters' transitions') = [] ↔
      cluesAt n (clues symbols blocks baseRegisters transitions) = [] := by
  have hs : (cluesAt n (symbols'.values.flatMap Symbol.clues)).Perm
      (cluesAt n (symbols.values.flatMap Symbol.clues)) :=
    ((SymbolTable.values_perm hp).flatMap_right _).filterMap _
  have hs' : cluesAt n (symbols'.values.flatMap Symbol.clues) = [] ↔
      cluesAt n (symbols.values.flatMap Symbol.clues) = [] := by
    rw [← List.length_eq_zero_iff, hs.length_eq, List.length_eq_zero_iff]
  simp only [clues, cluesAt_append, List.append_eq_nil_iff, cluesAt_map_eq_nil_iff, hb, ht, hs']

theorem directClass_congr (hp : symbols'.entries.Perm symbols.entries) {n : ℕ}
    (hd : symbols'.values.filterMap (·.definitionAt? n) =
      symbols.values.filterMap (·.definitionAt? n)) :
    directClass symbols' blocks baseRegisters' transitions' n =
      directClass symbols blocks baseRegisters transitions n := by
  have he := SymbolTable.evidenceAt_perm (n := n) hp
  have hh : (symbols.evidenceAt n).length = 1 →
      (symbols'.evidenceAt n).head? = (symbols.evidenceAt n).head? := by
    intro hl
    obtain ⟨c, hc⟩ := List.length_eq_one_iff.mp hl
    rw [hc] at he ⊢
    rw [List.perm_singleton.mp he]
  simp only [directClass, hb, ht, hd, he.length_eq]
  by_cases hl : (symbols.evidenceAt n).length = 1
  · simp only [hh hl]
  · simp only [hl, and_false, if_false]

theorem classify_of_same_definitions (hp : symbols'.entries.Perm symbols.entries)
    (hd : ∀ n ≤ last, symbols'.values.filterMap (·.definitionAt? n) =
      symbols.values.filterMap (·.definitionAt? n)) :
    classify last symbols' blocks baseRegisters' transitions' =
      classify last symbols blocks baseRegisters transitions := by
  refine classify_congr (fun n _ => cluesAt_eq_nil_iff hb ht hp n) fun n hn => ?_
  have he := SymbolTable.evidenceAt_perm (n := n) hp
  rw [foldl_add_clues, foldl_add_clues, directClass_congr hb ht hp (hd n hn), he.count_eq,
    he.count_eq, SymbolTable.namesControlCounter_perm hp]

end

/-- The symbol that comes last decides on a contested statement of which nothing else tells. -/
theorem get?_withLast {n : ℕ} (hn : n ≤ last) (h : symbols.Contested n) (hb : n ∉ baseRegisters)
    (hk : ∀ b ∈ blocks, b.firstStatement ≠ some n) {e : Text × Symbol} (he : e ∈ symbols.entries)
    {c : SectionClass} (hc : e.2.definitionAt? n = some c) :
    (classify last (symbols.withLast e) blocks baseRegisters transitions).get? n = some c := by
  have hl : ((symbols.withLast e).evidenceAt n).length ≠ 1 := by
    rw [(SymbolTable.evidenceAt_perm (SymbolTable.withLast_perm he)).length_eq]
    exact h.length_evidenceAt
  have hf : blocks.filter (·.firstStatement = some n) = [] := by
    rw [List.filter_eq_nil_iff]
    intro b hm
    simpa using hk b hm
  rw [get?_classify_of_le _ _ _ _ _ hn]
  apply denseClass_of_directClass
  simp only [directClass, hl, and_false, if_false, hb, hf, List.getLast?_nil, Option.map_none,
    Option.none_or]
  exact SymbolTable.getLast?_withLast hc

theorem exists_perm_of_contested {n : ℕ} (hn : n ≤ last) (h : symbols.Contested n)
    (hb : n ∉ baseRegisters) (hk : ∀ b ∈ blocks, b.firstStatement ≠ some n) :
    ∃ symbols' : SymbolTable, symbols'.entries.Perm symbols.entries ∧
      (classify last symbols' blocks baseRegisters transitions).get? n ≠
        (classify last symbols blocks baseRegisters transitions).get? n := by
  obtain ⟨s, hs, t, ht, hsd, htc⟩ := SymbolTable.contested_iff.mp h
  obtain ⟨a, ha, rfl⟩ := List.mem_map.mp hs
  obtain ⟨b, hb', rfl⟩ := List.mem_map.mp ht
  have hda : (classify last (symbols.withLast a) blocks baseRegisters transitions).get? n =
      some .dummy := get?_withLast hn h hb hk ha hsd
  have hcb : (classify last (symbols.withLast b) blocks baseRegisters transitions).get? n =
      some .control := get?_withLast hn h hb hk hb' htc
  by_contra hall
  push Not at hall
  rw [hall _ (SymbolTable.withLast_perm ha)] at hda
  rw [hall _ (SymbolTable.withLast_perm hb'), hda] at hcb
  exact SectionClass.noConfusion (Option.some.inj hcb)

end

/-- The map does not change with the order of the using map and of the transitions, nor with how
often a statement is named there. It does not change with the order of the symbols either where no
statement is contested; and a contested statement of which neither the using map nor a block tells
gets another class in some order of the symbols. -/
theorem classify_order (last : ℕ) (symbols : SymbolTable) (blocks : List CodeBlock)
    (baseRegisters baseRegisters' transitions transitions' : List ℕ)
    (hb : ∀ n, n ∈ baseRegisters' ↔ n ∈ baseRegisters)
    (ht : ∀ n, n ∈ transitions' ↔ n ∈ transitions) :
    classify last symbols blocks baseRegisters' transitions' =
        classify last symbols blocks baseRegisters transitions ∧
    ((∀ n ≤ last, ¬ symbols.Contested n) →
      ∀ symbols' : SymbolTable, symbols'.entries.Perm symbols.entries →
        classify last symbols' blocks baseRegisters' transitions' =
          classify last symbols blocks baseRegisters transitions) ∧
    ∀ n ≤ last, symbols.Contested n → n ∉ baseRegisters →
      (∀ b ∈ blocks, b.firstStatement ≠ some n) →
      ∃ symbols' : SymbolTable, symbols'.entries.Perm symbols.entries ∧
        (classify last symbols' blocks baseRegisters transitions).get? n ≠
          (classify last symbols blocks baseRegisters transitions).get? n := by
  refine ⟨?_, ?_, ?_⟩
  · exact classify_of_same_definitions hb ht (.refl _) fun _ _ => rfl
  · intro hc symbols' hp
    exact classify_of_same_definitions hb ht hp fun n hn => SymbolTable.definitions_perm hp (hc n hn)
  · intro n hn hc hnb hnk
    exact exists_perm_of_contested hn hc hnb hnk

/-- Two symbols that agree on statement 2, one that may not count there, and two location counters
that are both named at statement 7. -/
def agreeingSymbols : SymbolTable :=
  let entry (name : String) (defined named : List ℕ) (d : SymbolDetails) : Text × Symbol :=
    (name.toList, ⟨name.toList, .ofList defined, .ofList named, .ofList named, some d⟩)
  ⟨[entry "MAIN" [2] [7] ⟨0, 1, true, false, true⟩, entry "TWIN" [2] [] ⟨0, 1, true, false, false⟩,
    entry "LOST" [2] [] ⟨0, -1, true, true, false⟩, entry "AREA" [5] [7] ⟨0, -1, true, false, true⟩]⟩

theorem classify_order_agreeingSymbols :
    ((∀ n, n ∈ [3, 9, 3] ↔ n ∈ [9, 3]) ∧ (∀ n, n ∈ [2, 7, 7] ↔ n ∈ [7, 2]) ∧
      ∀ n ≤ 10, ¬ agreeingSymbols.Contested n) ∧
    classify 10 ⟨agreeingSymbols.entries.reverse⟩ [] [3, 9, 3] [2, 7, 7] =
      classify 10 agreeingSymbols [] [9, 3] [7, 2] ∧
    (classify 10 agreeingSymbols [] [9, 3] [7, 2]).classes.toList =
      [(2, .control), (3, .control), (5, .dummy), (7, .control), (9, .control)] := by
  have hb : ∀ n, n ∈ [3, 9, 3] ↔ n ∈ [9, 3] := by simp [or_comm]
  have ht : ∀ n, n ∈ [2, 7, 7] ↔ n ∈ [7, 2] := by simp [or_comm]
  have hc : ∀ n ≤ 10, ¬ agreeingSymbols.Contested n := by decide
  have ho := classify_order 10 agreeingSymbols [] [9, 3] [3, 9, 3] [7, 2] [2, 7, 7] hb ht
  exact ⟨⟨hb, ht, hc⟩, ho.2.1 hc ⟨agreeingSymbols.entries.reverse⟩ (List.reverse_perm _),
    by decide⟩

/-! One more statement in the using map -/

theorem get?_classify_of_lt {last n : ℕ} (h : last < n) (symbols : SymbolTable)
    (blocks : List CodeBlock) (baseRegisters transitions : List ℕ) :
    (classify last symbols blocks baseRegisters transitions).get? n = none :=
  if_neg fun hlt => absurd (Nat.le_of_lt_succ hlt) (by omega)

theorem directClass_of_baseRegister {symbols : SymbolTable} {blocks : List CodeBlock}
    {baseRegisters transitions : List ℕ} {n : ℕ} (h : n ∈ baseRegisters)
    (ht : ¬ (n ∈ transitions ∧ (symbols.evidenceAt n).length = 1)) :
    directClass symbols blocks baseRegisters transitions n = some .control := by
  rw [directClass, if_neg ht, if_pos h]

section
variable (symbols : SymbolTable) (blocks : List CodeBlock) (transitions : List ℕ)
  {baseRegisters baseRegisters' : List ℕ} {k : ℕ}
  (hk : ∀ n, n ∈ baseRegisters' ↔ n = k ∨ n ∈ baseRegisters)
include hk

/-- The class given outright changes at the added statement only, and only to a control section. -/
theorem directClass_added (n : ℕ) :
    directClass symbols blocks baseRegisters' transitions n =
        directClass symbols blocks baseRegisters transitions n ∨
      n = k ∧ directClass symbols blocks baseRegisters' transitions n = some .control := by
  by_cases ht : n ∈ transitions ∧ (symbols.evidenceAt n).length = 1
  · left
    rw [directClass, directClass, if_pos ht, if_pos ht]
  · by_cases hn : n = k
    · right
      exact ⟨hn, directClass_of_baseRegister ((hk n).mpr (.inl hn)) ht⟩
    · left
      simp only [directClass, hk, hn, false_or]

/-- A class stays or turns to control section, along the statements that take it over as well. -/
theorem denseClass_added (n : ℕ) :
    denseClass symbols blocks baseRegisters' transitions n =
        denseClass symbols blocks baseRegisters transitions n ∨
      denseClass symbols blocks baseRegisters' transitions n = some .control := by
  induction n with
  | zero => exact (directClass_added symbols blocks transitions hk 0).imp_right And.right
  | succ n ih =>
    rcases directClass_added symbols blocks transitions hk (n + 1) with hd | ⟨-, hd⟩
    · rw [denseClass, denseClass, hd]
      rcases ih with ih | ih
      · rw [ih]
        exact .inl rfl
      · -- a class given outright is kept, and a control section is taken over as it is
        rw [ih]
        cases directClass symbols blocks baseRegisters transitions (n + 1) with
        | none => exact .inr (by simp)
        | some c => exact .inl rfl
    · exact .inr (denseClass_of_directClass hd)

/-- A class that changes is taken over from the added statement. -/
theorem directClass_eq_none_of_changed {n : ℕ}
    (h : denseClass symbols blocks baseRegisters' transitions n ≠
      denseClass symbols blocks baseRegisters transitions n) :
    k ≤ n ∧ ∀ m, k < m → m ≤ n →
      directClass symbols blocks baseRegisters transitions m = none := by
  induction n with
  | zero =>
    rcases directClass_added symbols blocks transitions hk 0 with hd | ⟨rfl, -⟩
    · exact absurd hd h
    · exact ⟨le_rfl, by omega⟩
  | succ n ih =>
    rcases directClass_added symbols blocks transitions hk (n + 1) with hd | ⟨rfl, -⟩
    · rw [denseClass, denseClass, hd] at h
      have hnone : directClass symbols blocks baseRegisters transitions (n + 1) = none := by
        by_contra hsome
        obtain ⟨c, hc⟩ := Option.ne_none_iff_exists'.mp hsome
        simp [hc] at h
      have hne : denseClass symbols blocks baseRegisters' transitions n ≠
          denseClass symbols blocks baseRegisters transitions n := by
        intro he
        exact h (by rw [he])
      obtain ⟨hle, hall⟩ := ih hne
      refine ⟨by omega, fun m hkm hm => ?_⟩
      rcases Nat.lt_or_eq_of_le hm with hm | rfl
      · exact hall m hkm (by omega)
      · exact hnone
    · exact ⟨le_rfl, by omega⟩

end

/-- One more statement in the using map takes no statement out of a control section, leaves no
classified statement without a class, and puts no unclassified one into a dummy section. A class
changes at most from that statement down to the next one whose class is given outright. The
statement itself comes to stand in a control section, unless it starts or resumes a section of which
there is just one piece of evidence. -/
theorem classify_added (last : ℕ) (symbols : SymbolTable) (blocks : List CodeBlock)
    (before after transitions : List ℕ) (k n : ℕ) :
    let old := (classify last symbols blocks (before ++ after) transitions).get? n
    let new := (classify last symbols blocks (before ++ k :: after) transitions).get? n
    (old = some .control → new = some .control) ∧ (old ≠ none → new ≠ none) ∧
      (old = none → new ≠ some .dummy) ∧
      (new ≠ old → k ≤ n ∧ n ≤ last ∧ ∀ m, k < m → m ≤ n →
        directClass symbols blocks (before ++ after) transitions m = none) ∧
      (n = k → n ≤ last → ¬ (n ∈ transitions ∧ (symbols.evidenceAt n).length = 1) →
        new = some .control) := by
  intro old new
  have hk : ∀ m, m ∈ before ++ k :: after ↔ m = k ∨ m ∈ before ++ after := by
    intro m
    simp only [List.mem_append, List.mem_cons]
    tauto
  have hout : last < n → new = old := by
    intro hn
    simp only [old, new, get?_classify_of_lt hn]
  have hraised : new = old ∨ new = some .control := by
    rcases Nat.lt_or_ge last n with hn | hn
    · exact .inl (hout hn)
    · simp only [old, new, get?_classify_of_le _ _ _ _ _ hn]
      exact denseClass_added symbols blocks transitions hk n
  refine ⟨?_, ?_, ?_, ?_, ?_⟩
  · intro ho
    rcases hraised with h | h
    · exact h.trans ho
    · exact h
  · intro ho
    rcases hraised with h | h
    · exact h.trans_ne ho
    · exact h.trans_ne (Option.some_ne_none _)
  · intro ho
    rcases hraised with h | h
    · exact (h.trans ho).trans_ne (by simp)
    · exact h.trans_ne (by simp)
  · intro hne
    have hn : n ≤ last := Nat.le_of_not_lt fun hlt => hne (hout hlt)
    simp only [old, new, get?_classify_of_le _ _ _ _ _ hn] at hne
    obtain ⟨hle, hall⟩ := directClass_eq_none_of_changed symbols blocks transitions hk hne
    exact ⟨hle, hn, hall⟩
  · rintro rfl hn ht
    simp only [new, get?_classify_of_le _ _ _ _ _ hn]
    exact denseClass_of_directClass (directClass_of_baseRegister (by simp) ht)

end SectionMap

end ListingIndex
