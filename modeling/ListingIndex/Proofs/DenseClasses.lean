import Mathlib
import ListingIndex.SectionMap

/-! Classes of statements told one by one: the class that the clues at a statement give it outright,
and the class it takes over from the statement before it. The sparse map, which holds only the
statements with clues, answers the same for every statement. -/
namespace ListingIndex

namespace Symbol

/-- The class of the section whose location counter a statement names through the symbol. -/
def counterAt? (s : Symbol) (n : ℕ) : Option SectionClass :=
  s.details.bind fun d =>
    if d.locationCounter ∧ n ∈ s.pureReferences then some d.sectionClass else none

/-- The class of the section in which a statement defines the symbol. -/
def definitionAt? (s : Symbol) (n : ℕ) : Option SectionClass :=
  s.details.bind fun d =>
    if d.relocatable ∧ ¬ d.undefined ∧ n ∈ s.defined then some d.sectionClass else none

end Symbol

/-- All classes that symbols point to at a statement. A symbol may point twice. -/
def SymbolTable.evidenceAt (symbols : SymbolTable) (n : ℕ) : List SectionClass :=
  symbols.values.flatMap fun s => (s.counterAt? n).toList ++ (s.definitionAt? n).toList

def SymbolTable.namesControlCounter (symbols : SymbolTable) (n : ℕ) : Bool :=
  symbols.values.any fun s => s.counterAt? n = some .control

namespace SectionMap

section
variable (symbols : SymbolTable) (blocks : List CodeBlock) (baseRegisters transitions : List ℕ)

/-- The class that is given to a statement outright: by its only evidence where a section starts or
resumes, else by the using map, else by the last block that it starts, else by the last symbol that
it defines. -/
def directClass (n : ℕ) : Option SectionClass :=
  if n ∈ transitions ∧ (symbols.evidenceAt n).length = 1 then (symbols.evidenceAt n).head?
  else if n ∈ baseRegisters then some .control
  else ((blocks.filter (·.firstStatement = some n)).getLast?.map (·.sectionClass)).or
    (symbols.values.filterMap (·.definitionAt? n)).getLast?

/-- The class of every statement, from the first one on. -/
def denseClass : ℕ → Option SectionClass
  | 0 => directClass symbols blocks baseRegisters transitions 0
  | n + 1 => (directClass symbols blocks baseRegisters transitions (n + 1)).or
      ((denseClass n).map fun c => if symbols.namesControlCounter (n + 1) then .control else c)

end

/-! The clues at one statement -/

def cluesAt (n : ℕ) (clues : List (ℕ × Clue)) : List Clue :=
  clues.filterMap fun c => if c.1 = n then some c.2 else none

theorem cluesAt_append (n : ℕ) (a b : List (ℕ × Clue)) :
    cluesAt n (a ++ b) = cluesAt n a ++ cluesAt n b := List.filterMap_append

/-- The evidence that is gathered at a statement is made of the clues at it, in their order. -/
theorem find?_gather (clues : List (ℕ × Clue)) (n : ℕ) : (gather clues).find? n =
    if cluesAt n clues = [] then none else some ((cluesAt n clues).foldl Evidence.add .none) := by
  induction clues using List.reverseRecOn with
  | nil => rfl
  | append_singleton clues c ih =>
    have hg : gather (clues ++ [c]) =
        (gather clues).update c.1 fun e => (e.getD .none).add c.2 := by
      simp [gather]
    rw [hg, FloorMap.find?_update, cluesAt_append]
    by_cases hn : c.1 = n
    · have hc : cluesAt n [c] = [c.2] := by simp [cluesAt, hn]
      rw [if_pos hn.symm, hn, ih, hc, List.foldl_concat]
      by_cases he : cluesAt n clues = [] <;> simp [he]
    · have hc : cluesAt n [c] = [] := by simp [cluesAt, hn]
      rw [if_neg (Ne.symm hn), ih, hc, List.append_nil]

theorem gather_find? (clues : List (ℕ × Clue)) (n : ℕ) :
    ((gather clues).find? n).getD .none = (cluesAt n clues).foldl Evidence.add .none := by
  rw [find?_gather]
  by_cases he : cluesAt n clues = [] <;> simp [he]

theorem cluesAt_filter {n last : ℕ} (h : n ≤ last) (clues : List (ℕ × Clue)) :
    cluesAt n (clues.filter (·.1 ≤ last)) = cluesAt n clues := by
  rw [cluesAt, List.filterMap_filter, cluesAt]
  apply List.filterMap_congr
  intro c _
  by_cases hc : c.1 = n
  · simp [hc, h]
  · simp [hc]

/-! Filling the gaps -/

/-- Classes from the evidence at every statement. -/
def spread (evidence : ℕ → Evidence) : ℕ → Option SectionClass
  | 0 => (evidence 0).classAfter none
  | n + 1 => (evidence (n + 1)).classAfter (spread evidence n)

/-- The class that a statement would take over. -/
def classBefore (evidence : ℕ → Evidence) : ℕ → Option SectionClass
  | 0 => none
  | n + 1 => spread evidence n

theorem spread_eq (e : ℕ → Evidence) (n : ℕ) :
    spread e n = (e n).classAfter (classBefore e n) := by
  cases n <;> rfl

theorem classAfter_none (c : Option SectionClass) : Evidence.none.classAfter c = c := by
  cases c <;> rfl

theorem spread_congr {e f : ℕ → Evidence} {n : ℕ} (h : ∀ k ≤ n, e k = f k) :
    spread e n = spread f n := by
  induction n with
  | zero => rw [spread, spread, h 0 le_rfl]
  | succ n ih => rw [spread, spread, h (n + 1) le_rfl, ih fun k hk => h k (by omega)]

theorem classBefore_congr {e f : ℕ → Evidence} {n : ℕ} (h : ∀ k < n, e k = f k) :
    classBefore e n = classBefore f n := by
  cases n with
  | zero => rfl
  | succ n => exact spread_congr fun k hk => h k (by omega)

/-- Statements without evidence go with the one before them. -/
theorem spread_gap {e : ℕ → Evidence} {m n : ℕ} (hmn : m ≤ n)
    (h : ∀ k, m < k → k ≤ n → e k = .none) : spread e n = spread e m := by
  induction n, hmn using Nat.le_induction with
  | base => rfl
  | succ n hmn ih =>
    rw [spread, h (n + 1) (by omega) le_rfl, classAfter_none]
    exact ih fun k hk hkn => h k hk (by omega)

theorem spread_before {e : ℕ → Evidence} {n : ℕ} (h : ∀ k ≤ n, e k = .none) :
    spread e n = none := by
  rw [spread_gap (Nat.zero_le n) fun k _ hk => h k hk, spread, h 0 (Nat.zero_le n), classAfter_none]

/-- The evidence at every statement; where there is no entry there is none. -/
def evidenceIn (l : List (ℕ × Evidence)) (n : ℕ) : Evidence :=
  ((l.find? (·.1 = n)).map (·.2)).getD .none

theorem evidenceIn_of_ne {e : ℕ × Evidence} {n : ℕ} (h : e.1 ≠ n) (l : List (ℕ × Evidence)) :
    evidenceIn (e :: l) n = evidenceIn l n := by
  simp [evidenceIn, h]

theorem evidenceIn_self (e : ℕ × Evidence) (l : List (ℕ × Evidence)) :
    evidenceIn (e :: l) e.1 = e.2 := by
  simp [evidenceIn]

theorem evidenceIn_of_forall_ne {n : ℕ} {l : List (ℕ × Evidence)} (h : ∀ b ∈ l, b.1 ≠ n) :
    evidenceIn l n = .none := by
  have hf : l.find? (·.1 = n) = none := by
    rw [List.find?_eq_none]
    intro b hb
    simpa using h b hb
  simp [evidenceIn, hf]

theorem find?_of_forall_le {l : List (ℕ × SectionClass)} {n : ℕ} (h : ∀ b ∈ l, b.1 ≤ n) :
    l.find? (·.1 ≤ n) = l.head? := by
  cases l with
  | nil => rfl
  | cons b l => simp [h b (by simp)]

theorem classAfter_eq_none {e : Evidence} {c : Option SectionClass} (h : e.classAfter c = none) :
    c = none := by
  cases hd : e.decided with
  | some b => simp [Evidence.classAfter, hd] at h
  | none => simpa [Evidence.classAfter, hd] using h

theorem head?_foldr_extend {l : List (ℕ × Evidence)} {n : ℕ}
    (hl : ∀ m, ((l.foldr extend []).find? (·.1 ≤ m)).map (·.2) = spread (evidenceIn l) m)
    (hn : ∀ b ∈ l.foldr extend [], b.1 < n) :
    (l.foldr extend []).head?.map (·.2) = classBefore (evidenceIn l) n := by
  cases n with
  | zero =>
    have hnil : l.foldr extend [] = [] := by
      apply List.eq_nil_iff_forall_not_mem.mpr
      intro b hb
      exact Nat.not_lt_zero _ (hn b hb)
    simp [hnil, classBefore]
  | succ m =>
    have hle : ∀ b ∈ l.foldr extend [], b.1 ≤ m := fun b hb => Nat.le_of_lt_succ (hn b hb)
    rw [← find?_of_forall_le hle, hl m]
    rfl

theorem find?_extend_of_le {e : ℕ × Evidence} {classes : List (ℕ × SectionClass)} {n : ℕ}
    (hn : e.1 ≤ n) : ((extend e classes).find? (·.1 ≤ n)).map (·.2) =
      e.2.classAfter (classes.head?.map (·.2)) := by
  unfold extend
  cases hc : e.2.classAfter (classes.head?.map (·.2)) with
  | some c => simp [hn]
  | none =>
    have hnil : classes = [] := by simpa using classAfter_eq_none hc
    simp [hnil]

theorem find?_extend_of_lt {e : ℕ × Evidence} {classes : List (ℕ × SectionClass)} {n : ℕ}
    (hn : n < e.1) : (extend e classes).find? (·.1 ≤ n) = classes.find? (·.1 ≤ n) := by
  unfold extend
  split
  · simp [Nat.not_le.mpr hn]
  · rfl

/-- The answer of a sparse map that was filled from below, at every statement. -/
theorem find?_foldr_extend {l : List (ℕ × Evidence)} (h : l.Pairwise fun a b => b.1 < a.1) (n : ℕ) :
    ((l.foldr extend []).find? (·.1 ≤ n)).map (·.2) = spread (evidenceIn l) n := by
  induction l generalizing n with
  | nil => exact (spread_before fun k _ => rfl).symm
  | cons e l ih =>
    rw [List.pairwise_cons] at h
    have hbelow : ∀ k < e.1, evidenceIn (e :: l) k = evidenceIn l k := by
      intro k hk
      exact evidenceIn_of_ne hk.ne' l
    rw [List.foldr_cons]
    rcases Nat.lt_or_ge n e.1 with hn | hn
    · rw [find?_extend_of_lt hn, ih h.2 n]
      exact spread_congr fun k hk => (hbelow k (by omega)).symm
    · -- the entry is the greatest, so nothing is said of the statements between it and `n`
      have hgap : ∀ k, e.1 < k → k ≤ n → evidenceIn (e :: l) k = .none := by
        intro k hk _
        rw [evidenceIn_of_ne hk.ne]
        apply evidenceIn_of_forall_ne
        intro b hb
        have := h.1 b hb
        omega
      have hlt : ∀ b ∈ l.foldr extend [], b.1 < e.1 := by
        intro b hb
        obtain ⟨d, hd, he⟩ := mem_of_mem_foldr_extend hb
        exact he ▸ h.1 d hd
      rw [find?_extend_of_le hn, head?_foldr_extend (ih h.2) hlt, spread_gap hn hgap, spread_eq,
        evidenceIn_self, classBefore_congr hbelow]

/-! What the clues at a statement amount to -/

/-- The class that a clue gives to its statement. -/
def decides? : Clue → Option SectionClass
  | .definition c => some c
  | .blockStart c => some c
  | .baseRegister => some .control
  | .counter _ => none
  | .transition => none

/-- The class that a symbol's clue counts for. -/
def pointsTo? : Clue → Option SectionClass
  | .counter c => some c
  | .definition c => some c
  | .blockStart _ => none
  | .baseRegister => none
  | .transition => none

/-- Clues other than transitions: the last one that decides wins, and all that count are counted. -/
theorem foldl_add {clues : List Clue} (h : .transition ∉ clues) :
    clues.foldl Evidence.add .none =
      ⟨(clues.filterMap decides?).getLast?, (clues.filterMap pointsTo?).count .control,
        (clues.filterMap pointsTo?).count .dummy, clues.contains (.counter .control)⟩ := by
  induction clues using List.reverseRecOn with
  | nil => rfl
  | append_singleton clues c ih =>
    have hc : .transition ∉ clues := fun hm => h (by simp [hm])
    rw [List.foldl_concat, ih hc]
    cases c with
    | counter a => cases a <;> simp [Evidence.add, Evidence.count, decides?, pointsTo?,
        SectionClass.isDummy]
    | definition a => cases a <;> simp [Evidence.add, Evidence.count, decides?, pointsTo?]
    | blockStart a => simp [Evidence.add, decides?, pointsTo?, List.filterMap_cons]
    | baseRegister => simp [Evidence.add, decides?, pointsTo?, List.filterMap_cons]
    | transition => exact absurd (by simp) h

/-- However often a section starts or resumes at a statement, its only evidence decides. -/
theorem foldl_add_transitions (n : ℕ) (transitions : List ℕ) (e : Evidence) :
    (cluesAt n (transitions.map (·, .transition))).foldl Evidence.add e =
      if n ∈ transitions then { e with decided := e.sole?.or e.decided } else e := by
  induction transitions generalizing e with
  | nil => rfl
  | cons t transitions ih =>
    by_cases ht : t = n
    · have hc : cluesAt n ((t :: transitions).map (·, .transition)) =
          .transition :: cluesAt n (transitions.map (·, .transition)) := by simp [cluesAt, ht]
      have hs : ({ e with decided := e.sole?.or e.decided } : Evidence).sole? = e.sole? := rfl
      rw [hc, List.foldl_cons, ih, if_pos (show n ∈ t :: transitions by simp [ht])]
      simp only [Evidence.add, hs]
      cases e.sole? <;> simp
    · have hc : cluesAt n ((t :: transitions).map (·, .transition)) =
          cluesAt n (transitions.map (·, .transition)) := by simp [cluesAt, ht]
      rw [hc, ih]
      simp [Ne.symm ht]

theorem sole?_of_counts {l : List SectionClass} {decided : Option SectionClass} {counter : Bool} :
    Evidence.sole? ⟨decided, l.count .control, l.count .dummy, counter⟩ =
      if l.length = 1 then l.head? else none := by
  have hl : l.length = l.count .control + l.count .dummy := by
    induction l with
    | nil => rfl
    | cons c l ih => cases c <;> simp [ih] <;> omega
  cases l with
  | nil => rfl
  | cons c l =>
    cases l with
    | nil => cases c <;> rfl
    | cons b l =>
      have hlen : 2 ≤ (c :: b :: l).length := by simp
      rw [if_neg (by omega)]
      unfold Evidence.sole?
      split <;> simp_all

section
variable (n : ℕ)

theorem cluesAt_numbers (s : NumberSet) (c : Clue) :
    cluesAt n (s.toList.map (·, c)) = if n ∈ s then [c] else [] := by
  have hl : s.toList.Nodup := s.ascending.imp Nat.ne_of_lt
  change cluesAt n (s.toList.map (·, c)) = if n ∈ s.toList then [c] else []
  generalize s.toList = l at hl ⊢
  induction l with
  | nil => rfl
  | cons m l ih =>
    rw [List.nodup_cons] at hl
    by_cases hm : m = n
    · subst hm
      have hi := ih hl.2
      rw [if_neg hl.1] at hi
      simpa [cluesAt] using hi
    · simpa [cluesAt, hm, Ne.symm hm] using ih hl.2

theorem cluesAt_symbol (s : Symbol) : cluesAt n s.clues =
    (s.counterAt? n).toList.map .counter ++ (s.definitionAt? n).toList.map .definition := by
  unfold Symbol.clues Symbol.counterAt? Symbol.definitionAt?
  cases s.details with
  | none => rfl
  | some d =>
    rw [cluesAt_append]
    congr 1
    · by_cases hc : d.locationCounter
      · rw [if_pos hc, cluesAt_numbers]
        by_cases hm : n ∈ s.pureReferences <;> simp [hc, hm]
      · simp [hc, cluesAt]
    · by_cases hr : d.relocatable
      · by_cases hu : d.undefined
        · simp [hr, hu, cluesAt]
        · rw [if_pos (by simp [hr, hu]), cluesAt_numbers]
          by_cases hm : n ∈ s.defined <;> simp [hr, hu, hm]
      · simp [hr, cluesAt]

theorem decides?_symbols (l : List Symbol) :
    (cluesAt n (l.flatMap Symbol.clues)).filterMap decides? = l.filterMap (·.definitionAt? n) := by
  induction l with
  | nil => rfl
  | cons s l ih =>
    rw [List.flatMap_cons, cluesAt_append, List.filterMap_append, ih, cluesAt_symbol]
    cases s.counterAt? n <;> cases hd : s.definitionAt? n <;>
      simp [hd, decides?, List.filterMap_cons]

theorem pointsTo?_symbols (l : List Symbol) :
    (cluesAt n (l.flatMap Symbol.clues)).filterMap pointsTo? =
      l.flatMap fun s => (s.counterAt? n).toList ++ (s.definitionAt? n).toList := by
  induction l with
  | nil => rfl
  | cons s l ih =>
    rw [List.flatMap_cons, cluesAt_append, List.filterMap_append, ih, cluesAt_symbol,
      List.flatMap_cons]
    cases s.counterAt? n <;> cases s.definitionAt? n <;> simp [pointsTo?]

theorem contains_counter_symbols (l : List Symbol) :
    (cluesAt n (l.flatMap Symbol.clues)).contains (.counter .control) =
      l.any fun s => s.counterAt? n = some .control := by
  induction l with
  | nil => rfl
  | cons s l ih =>
    rw [List.flatMap_cons, cluesAt_append, List.contains_append, ih, cluesAt_symbol, List.any_cons]
    congr 1
    cases s.counterAt? n with
    | none => cases s.definitionAt? n <;> rfl
    | some c => cases c <;> cases s.definitionAt? n <;> rfl

theorem transition_not_mem_symbols (l : List Symbol) :
    .transition ∉ cluesAt n (l.flatMap Symbol.clues) := by
  induction l with
  | nil => exact List.not_mem_nil
  | cons s l ih =>
    rw [List.flatMap_cons, cluesAt_append, cluesAt_symbol]
    simp [ih]

theorem cluesAt_blocks (blocks : List CodeBlock) :
    cluesAt n (blocks.filterMap CodeBlock.clue?) =
      (blocks.filter (·.firstStatement = some n)).map (.blockStart ·.sectionClass) := by
  induction blocks with
  | nil => rfl
  | cons b blocks ih =>
    cases hb : b.firstStatement with
    | none => simpa [CodeBlock.clue?, hb] using ih
    | some m =>
      by_cases hm : m = n
      · simpa [CodeBlock.clue?, hb, cluesAt, hm] using ih
      · simpa [CodeBlock.clue?, hb, cluesAt, hm] using ih

theorem cluesAt_baseRegisters (statements : List ℕ) :
    ((cluesAt n (statements.map (·, .baseRegister))).filterMap decides?).getLast? =
      if n ∈ statements then some .control else none := by
  induction statements using List.reverseRecOn with
  | nil => rfl
  | append_singleton statements m ih =>
    rw [List.map_append, cluesAt_append, List.filterMap_append, List.getLast?_append, ih]
    by_cases hm : m = n
    · simp [cluesAt, decides?, hm]
    · simp [cluesAt, hm, Ne.symm hm]

variable (symbols : SymbolTable) (blocks : List CodeBlock) (baseRegisters transitions : List ℕ)

/-- The clues at a statement other than transitions. -/
def settledClues : List Clue :=
  cluesAt n (symbols.values.flatMap Symbol.clues) ++ cluesAt n (blocks.filterMap CodeBlock.clue?) ++
    cluesAt n (baseRegisters.map (·, .baseRegister))

theorem mem_cluesAt_baseRegisters {c : Clue}
    (h : c ∈ cluesAt n (baseRegisters.map (·, .baseRegister))) : c = .baseRegister := by
  simp only [cluesAt, List.mem_filterMap, List.mem_map] at h
  obtain ⟨_, ⟨m, _, rfl⟩, hc⟩ := h
  simp_all

theorem transition_not_mem_settledClues :
    .transition ∉ settledClues n symbols blocks baseRegisters := by
  intro h
  rw [settledClues, List.mem_append, List.mem_append] at h
  rcases h with (h | h) | h
  · exact transition_not_mem_symbols n _ h
  · simp [cluesAt_blocks] at h
  · exact Clue.noConfusion (mem_cluesAt_baseRegisters n _ h)

theorem decides?_settledClues :
    ((settledClues n symbols blocks baseRegisters).filterMap decides?).getLast? =
      if n ∈ baseRegisters then some .control
      else ((blocks.filter (·.firstStatement = some n)).getLast?.map (·.sectionClass)).or
        (symbols.values.filterMap (·.definitionAt? n)).getLast? := by
  have hb : (cluesAt n (blocks.filterMap CodeBlock.clue?)).filterMap decides? =
      (blocks.filter (·.firstStatement = some n)).map (·.sectionClass) := by
    rw [cluesAt_blocks, List.filterMap_map]
    exact congrFun List.filterMap_eq_map _
  rw [settledClues, List.filterMap_append, List.filterMap_append, List.getLast?_append,
    List.getLast?_append, cluesAt_baseRegisters, hb, decides?_symbols, List.getLast?_map]
  by_cases hn : n ∈ baseRegisters <;> simp [hn]

theorem pointsTo?_settledClues :
    (settledClues n symbols blocks baseRegisters).filterMap pointsTo? = symbols.evidenceAt n := by
  have hb : (cluesAt n (blocks.filterMap CodeBlock.clue?)).filterMap pointsTo? = [] := by
    rw [cluesAt_blocks, List.filterMap_map]
    exact List.filterMap_eq_nil_iff.mpr fun _ _ => rfl
  have hr : (cluesAt n (baseRegisters.map (·, .baseRegister))).filterMap pointsTo? = [] := by
    apply List.filterMap_eq_nil_iff.mpr
    intro c hc
    rw [mem_cluesAt_baseRegisters n _ hc]
    rfl
  rw [settledClues, List.filterMap_append, List.filterMap_append, hb, hr, pointsTo?_symbols,
    List.append_nil, List.append_nil, SymbolTable.evidenceAt]

theorem contains_counter_settledClues :
    (settledClues n symbols blocks baseRegisters).contains (.counter .control) =
      symbols.namesControlCounter n := by
  have hb : (cluesAt n (blocks.filterMap CodeBlock.clue?)).contains (.counter .control) = false := by
    simp [cluesAt_blocks]
  have hr : (cluesAt n (baseRegisters.map (·, .baseRegister))).contains (.counter .control) =
      false := by
    rw [List.contains_eq_mem, decide_eq_false_iff_not]
    intro h
    exact Clue.noConfusion (mem_cluesAt_baseRegisters n _ h)
  rw [settledClues, List.contains_append, List.contains_append, hb, hr, contains_counter_symbols,
    Bool.or_false, Bool.or_false, SymbolTable.namesControlCounter]

/-- All clues at a statement together: they decide on the class given to it outright. -/
theorem foldl_add_clues :
    (cluesAt n (clues symbols blocks baseRegisters transitions)).foldl Evidence.add .none =
      ⟨directClass symbols blocks baseRegisters transitions n,
        (symbols.evidenceAt n).count .control, (symbols.evidenceAt n).count .dummy,
        symbols.namesControlCounter n⟩ := by
  have hc : cluesAt n (clues symbols blocks baseRegisters transitions) =
      settledClues n symbols blocks baseRegisters ++
        cluesAt n (transitions.map (·, .transition)) := by
    rw [clues, cluesAt_append, cluesAt_append, cluesAt_append, settledClues]
  rw [hc, List.foldl_append, foldl_add_transitions,
    foldl_add (transition_not_mem_settledClues n symbols blocks baseRegisters),
    decides?_settledClues, pointsTo?_settledClues, contains_counter_settledClues, sole?_of_counts,
    directClass]
  by_cases ht : n ∈ transitions
  · by_cases hl : (symbols.evidenceAt n).length = 1
    · obtain ⟨c, hc⟩ := List.length_eq_one_iff.mp hl
      simp [ht, hc]
    · simp [ht, hl]
  · simp [ht]

end

section
variable (last : ℕ) (symbols : SymbolTable) (blocks : List CodeBlock)
  (baseRegisters transitions : List ℕ)

theorem denseClass_eq_spread {e : ℕ → Evidence} {n : ℕ}
    (hd : ∀ k ≤ n, (e k).decided = directClass symbols blocks baseRegisters transitions k)
    (hc : ∀ k ≤ n, (e k).counter = symbols.namesControlCounter k) :
    denseClass symbols blocks baseRegisters transitions n = spread e n := by
  induction n with
  | zero => rw [denseClass, spread, Evidence.classAfter, hd 0 le_rfl, Option.map_none, Option.or_none]
  | succ n ih =>
    have hn := ih (fun k hk => hd k (by omega)) fun k hk => hc k (by omega)
    rw [denseClass, spread, Evidence.classAfter, hd _ le_rfl, hc _ le_rfl, hn]

theorem get?_classify_of_le {n : ℕ} (hn : n ≤ last) :
    (classify last symbols blocks baseRegisters transitions).get? n =
      denseClass symbols blocks baseRegisters transitions n := by
  let inRange := (clues symbols blocks baseRegisters transitions).filter (·.1 ≤ last)
  have hget : (classify last symbols blocks baseRegisters transitions).get? n =
      (((gather inRange).entries.foldr extend []).find? (·.1 ≤ n)).map (·.2) :=
    if_pos (Nat.lt_succ_of_le hn)
  have he : ∀ k ≤ n, evidenceIn (gather inRange).entries k =
      (cluesAt k (clues symbols blocks baseRegisters transitions)).foldl Evidence.add .none := by
    intro k hk
    rw [← cluesAt_filter (hk.trans hn), ← gather_find?]
    rfl
  rw [hget, find?_foldr_extend (gather inRange).descending]
  symm
  apply denseClass_eq_spread
  · intro k hk
    rw [he k hk, foldl_add_clues]
  · intro k hk
    rw [he k hk, foldl_add_clues]

/-- The sparse map answers like the classes told statement by statement, and has no class to give
past the last statement. -/
theorem classify_eq_denseClass (n : ℕ) :
    (classify last symbols blocks baseRegisters transitions).get? n =
        (if n ≤ last then denseClass symbols blocks baseRegisters transitions n else none) ∧
      (classify last symbols blocks baseRegisters transitions).isControl n =
        decide (n ≤ last ∧ denseClass symbols blocks baseRegisters transitions n = some .control) ∧
      (classify last symbols blocks baseRegisters transitions).size = last + 1 := by
  have hget : (classify last symbols blocks baseRegisters transitions).get? n =
      if n ≤ last then denseClass symbols blocks baseRegisters transitions n else none := by
    by_cases hn : n ≤ last
    · rw [if_pos hn, get?_classify_of_le last symbols blocks baseRegisters transitions hn]
    · rw [if_neg hn]
      exact if_neg fun hlt => hn (Nat.le_of_lt_succ hlt)
  refine ⟨hget, ?_, rfl⟩
  rw [isControl, hget]
  by_cases hn : n ≤ last <;> simp [hn, beq_eq_decide]

end

/-- A symbol in a control section, and one in a dummy section behind it. -/
def twoSections : SymbolTable :=
  [("MAIN".toList, 2, 1), ("WORK".toList, 4, -1)].foldl (fun t s =>
    t.merge ((Symbol.label s.1 s.2.1).withDetails ⟨0, s.2.2, true, false, false⟩)) .empty

theorem classify_eq_denseClass_twoSections :
    (classify 5 twoSections [] [] []).get? 1 = none ∧
    (classify 5 twoSections [] [] []).get? 3 = some .control ∧
    (classify 5 twoSections [] [] []).get? 5 = some .dummy ∧
    (classify 5 twoSections [] [] []).get? 6 = none := by
  have hget := fun n => (classify_eq_denseClass 5 twoSections [] [] [] n).1
  refine ⟨(hget 1).trans ?_, (hget 3).trans ?_, (hget 5).trans ?_, (hget 6).trans ?_⟩
  all_goals decide +kernel

end SectionMap
end ListingIndex
