import Mathlib
import ListingIndex.Proofs.ReferenceLists
import ListingIndex.Symbol

/-! Reading references from any text. Digits that stand together are one number, however long it is,
so that the longest runs of digits tell what is read: each one whose number fits in a word is a
reference, and the others leave no trace. A character that is neither a digit nor a role divides a text
into two that can be read apart. -/
namespace ListingIndex
open Line Text Column

/-- Some digits of a text, with all that stands before and after them. -/
structure DigitRun where
  before : Text
  digits : Text
  after : Text
deriving DecidableEq, Repr

namespace DigitRun

/-- The digits stand in the text, and neither neighbour of them is a digit. -/
structure IsIn (r : DigitRun) (s : Text) : Prop where
  text : r.before ++ (r.digits ++ r.after) = s
  ne_nil : r.digits ≠ []
  digits : ∀ c ∈ r.digits, c.isDigit
  start : ∀ c ∈ r.before.getLast?, ¬ c.isDigit
  stop : ∀ c ∈ r.after.head?, ¬ c.isDigit

/-- The number of a run and the role directly behind it, unless the number needs more than 32 bits. -/
def reference? (r : DigitRun) : Option Reference :=
  let n := Nat.ofDigitChars 10 r.digits 0
  if n < 2 ^ 32 then some ⟨n, r.after.head?.filter (· ∈ "BDMUX".toList)⟩ else none

/-- All runs of a text, from left to right. -/
structure AreIn (runs : List DigitRun) (s : Text) : Prop where
  ordered : runs.Pairwise fun a b => a.before.length < b.before.length
  mem_iff : ∀ r, r ∈ runs ↔ r.IsIn s

/-- A run of a text that has some more text in front. -/
def behind (lead : Text) (r : DigitRun) : DigitRun := { r with before := lead ++ r.before }

theorem filterMap_behind (lead : Text) (runs : List DigitRun) :
    (runs.map (behind lead)).filterMap reference? = runs.filterMap reference? :=
  List.filterMap_map

theorem IsIn.reference?_eq {r : DigitRun} {s : Text} (h : r.IsIn s) :
    r.reference? =
      Reference.ofNumber? (some (numeral 10 r.digits)) (r.after.head?.filter Reference.isRole) := by
  have hrole : (fun c => decide (c ∈ "BDMUX".toList)) = Reference.isRole := by
    funext c
    rw [Reference.isRole, List.contains_eq_mem]
  by_cases hn : Nat.ofDigitChars 10 r.digits 0 < 2 ^ 32
  · rw [reference?, if_pos hn, numeral_ten h.digits, Reference.ofNumber?_of_lt hn, hrole]
  · have hlimit : wordLimit ≤ Nat.ofDigitChars 10 r.digits 0 := wordLimit_eq ▸ Nat.le_of_not_lt hn
    rw [reference?, if_neg hn, numeral_ten h.digits]
    simp [Reference.ofNumber?, hlimit]

section
variable {r : DigitRun} {lead s : Text}

theorem not_isIn_nil (r : DigitRun) : ¬ r.IsIn [] := by
  intro h
  have htext := h.text
  simp only [List.append_eq_nil_iff] at htext
  exact h.ne_nil htext.2.1

theorem IsIn.before_ne_nil (h : r.IsIn s) (hs : ∀ c ∈ s.head?, ¬ c.isDigit) : r.before ≠ [] := by
  intro hb
  obtain ⟨c, digits, hc⟩ := List.exists_cons_of_ne_nil h.ne_nil
  have hhead : c ∈ s.head? := by
    rw [← h.text, hb, hc]
    rfl
  exact hs c hhead (h.digits c (by simp [hc]))

/-- More text in front leaves a run as it is, unless the run goes on there. -/
theorem IsIn.behind (h : r.IsIn s) (hl : r.before = [] → ∀ c ∈ lead.getLast?, ¬ c.isDigit) :
    (r.behind lead).IsIn (lead ++ s) := by
  refine ⟨?_, h.ne_nil, h.digits, fun c hc => ?_, h.stop⟩
  · rw [← h.text]
    exact List.append_assoc ..
  · by_cases hb : r.before = []
    · rw [DigitRun.behind, hb, List.append_nil] at hc
      exact hl hb c hc
    · rw [DigitRun.behind, List.getLast?_append_of_ne_nil _ hb] at hc
      exact h.start c hc

theorem IsIn.of_behind (lead : Text) (h : (r.behind lead).IsIn (lead ++ s)) : r.IsIn s := by
  refine ⟨?_, h.ne_nil, h.digits, fun c hc => h.start c ?_, h.stop⟩
  · apply (List.append_right_inj lead).mp
    rw [← List.append_assoc]
    exact h.text
  · rw [DigitRun.behind, List.getLast?_append, Option.mem_def.mp hc]
    rfl

theorem isIn_cons_iff {c : Char} (hc : ¬ c.isDigit) :
    r.IsIn (c :: s) ↔ ∃ q : DigitRun, q.IsIn s ∧ q.behind [c] = r := by
  constructor
  · intro h
    have hne := h.before_ne_nil (s := c :: s) (by simpa using hc)
    obtain ⟨before, digits, after⟩ := r
    obtain ⟨d, before, rfl⟩ := List.exists_cons_of_ne_nil hne
    obtain ⟨rfl, -⟩ := List.cons.inj h.text
    exact ⟨⟨before, digits, after⟩, IsIn.of_behind [d] h, rfl⟩
  · rintro ⟨q, h, rfl⟩
    exact h.behind fun _ => by simpa using hc

theorem isIn_append_iff {digits : Text} (hne : digits ≠ []) (hd : ∀ c ∈ digits, c.isDigit)
    (hs : ∀ c ∈ s.head?, ¬ c.isDigit) :
    r.IsIn (digits ++ s) ↔ r = ⟨[], digits, s⟩ ∨ ∃ q : DigitRun, q.IsIn s ∧ q.behind digits = r := by
  constructor
  · intro h
    obtain ⟨before, found, after⟩ := r
    rcases List.append_eq_append_iff.mp h.text with ⟨rest, hrest, -⟩ | ⟨rest, rfl, -⟩
    · -- the run starts among the digits, hence with the first of them, and ends where they end
      have hbefore : before = [] := by
        by_contra hb
        obtain ⟨c, hc⟩ := Option.ne_none_iff_exists'.mp (mt List.getLast?_eq_none_iff.mp hb)
        have hmem : c ∈ digits := hrest ▸ List.mem_append_left rest (List.mem_of_getLast? hc)
        exact h.start c hc (hd c hmem)
      subst hbefore
      have hrun : run Char.isDigit (digits ++ s) = some (found, after) :=
        run_eq_some_iff.mpr ⟨h.text.symm, h.ne_nil, h.digits, h.stop⟩
      rw [run_eq_some_iff.mpr ⟨rfl, hne, hd, hs⟩] at hrun
      obtain ⟨rfl, rfl⟩ := Prod.mk.inj (Option.some.inj hrun)
      exact Or.inl rfl
    · exact Or.inr ⟨⟨rest, found, after⟩, IsIn.of_behind digits h, rfl⟩
  · rintro (rfl | ⟨q, h, rfl⟩)
    · exact ⟨rfl, hne, hd, by simp, hs⟩
    · exact h.behind fun hb => absurd hb (h.before_ne_nil hs)

end

section
variable {runs : List DigitRun} {s : Text} (h : AreIn runs s)
include h

theorem AreIn.ordered_behind (lead : Text) :
    (runs.map (behind lead)).Pairwise fun a b => a.before.length < b.before.length := by
  refine List.pairwise_map.mpr (h.ordered.imp fun hab => ?_)
  simp only [behind, List.length_append]
  omega

theorem AreIn.cons {c : Char} (hc : ¬ c.isDigit) : AreIn (runs.map (behind [c])) (c :: s) := by
  refine ⟨h.ordered_behind [c], fun r => ?_⟩
  simp only [List.mem_map, isIn_cons_iff hc, h.mem_iff]

theorem AreIn.append {digits : Text} (hne : digits ≠ []) (hd : ∀ c ∈ digits, c.isDigit)
    (hs : ∀ c ∈ s.head?, ¬ c.isDigit) :
    AreIn (⟨[], digits, s⟩ :: runs.map (behind digits)) (digits ++ s) := by
  refine ⟨List.pairwise_cons.mpr ⟨fun r hr => ?_, h.ordered_behind digits⟩, fun r => ?_⟩
  · obtain ⟨q, -, rfl⟩ := List.mem_map.mp hr
    have := List.length_pos_iff.mpr hne
    simp only [behind, List.length_append, List.length_nil]
    omega
  · simp only [List.mem_cons, List.mem_map, isIn_append_iff hne hd hs, h.mem_iff]

end

/-- A text is taken apart from the left: a character that is no digit, or all digits that stand
together. -/
@[elab_as_elim]
theorem text_induction {motive : Text → Prop} (nil : motive [])
    (other : ∀ c s, ¬ c.isDigit → motive s → motive (c :: s))
    (run : ∀ digits s, digits ≠ [] → (∀ c ∈ digits, c.isDigit) → (∀ c ∈ s.head?, ¬ c.isDigit) →
      motive s → motive (digits ++ s)) (s : Text) : motive s := by
  -- behind a digit the rest of its run is still to be passed over
  suffices h : motive (s.dropWhile Char.isDigit) ∧ motive s from h.2
  induction s with
  | nil => exact ⟨nil, nil⟩
  | cons c s ih =>
    by_cases hc : c.isDigit
    · have hdrop : (c :: s).dropWhile Char.isDigit = s.dropWhile Char.isDigit :=
        List.dropWhile_cons_of_pos hc
      obtain ⟨-, hne, hd, hs⟩ := run_eq_some_iff.mp (if_neg (by simp [hc]) :
        Column.run Char.isDigit (c :: s) =
          some ((c :: s).takeWhile Char.isDigit, (c :: s).dropWhile Char.isDigit))
      refine ⟨hdrop ▸ ih.1, ?_⟩
      rw [← List.takeWhile_append_dropWhile (p := Char.isDigit) (l := c :: s)]
      exact run _ _ hne hd hs (hdrop ▸ ih.1)
    · have hdrop : (c :: s).dropWhile Char.isDigit = c :: s := List.dropWhile_cons_of_neg hc
      rw [hdrop]
      exact ⟨other c s hc ih.2, other c s hc ih.2⟩

theorem exists_areIn (s : Text) :
    ∃ runs, AreIn runs s ∧ Reference.readAll s = runs.filterMap reference? := by
  induction s using text_induction with
  | nil => exact ⟨[], ⟨.nil, fun r => by simp [not_isIn_nil]⟩, rfl⟩
  | other c s hc ih =>
    obtain ⟨runs, hr, hread⟩ := ih
    refine ⟨_, hr.cons hc, ?_⟩
    rw [Reference.readAll_of_not_isDecimal hc, hread, filterMap_behind]
  | run digits s hne hd hs ih =>
    obtain ⟨runs, hr, hread⟩ := ih
    have hruns := hr.append hne hd hs
    have hfirst := ((hruns.mem_iff _).mp List.mem_cons_self).reference?_eq
    refine ⟨_, hruns, ?_⟩
    rw [Reference.readAll_digits hne hd hs, ← hfirst, hread, List.filterMap_cons, filterMap_behind]
    cases reference? ⟨[], digits, s⟩ <;> rfl

end DigitRun

theorem Symbol.addReferences_append (t : Symbol) {c : Char} (hd : ¬ isDecimal c)
    (hr : ¬ Reference.isRole c) (a b : Text) :
    (t.addReferences a).addReferences b = t.addReferences (a ++ c :: b) := by
  rw [addReferences, addReferences, addReferences, Reference.readAll, Reference.readAll,
    Reference.readAll, Reference.readFrom_append hd hr, List.foldl_append, Reference.readAll]

/-- Every text is read as the references of its longest runs of digits, from left to right. A printed
list is read back, whatever spaces and commas divide it. Where a character is neither a digit nor a
role, a text can be cut and its parts read, or added to a symbol, one after the other. -/
theorem references_tokenize :
    (∀ s : Text, ∃ runs, DigitRun.AreIn runs s ∧
      Reference.readAll s = runs.filterMap DigitRun.reference?) ∧
    (∀ (rs : List Reference) (s : Text), (∀ r ∈ rs, r.Valid) → Reference.Shows rs s →
      Reference.readAll s = rs) ∧
    ∀ (a b : Text) (c : Char), ¬ c.isDigit → c ∉ "BDMUX".toList →
      Reference.readAll (a ++ c :: b) = Reference.readAll a ++ Reference.readAll b ∧
      ∀ t : Symbol, (t.addReferences a).addReferences b = t.addReferences (a ++ c :: b) := by
  refine ⟨DigitRun.exists_areIn, fun rs s hv hs => hs.readAll_eq hv, fun a b c hd hr => ?_⟩
  have hrole : ¬ Reference.isRole c := by rwa [Reference.isRole, List.contains_iff_mem]
  exact ⟨Reference.readFrom_append hd hrole none a b, fun t => t.addReferences_append hd hrole a b⟩

theorem references_tokenize_long_number :
    let s := "12 99999999999M7U".toList
    (∃ runs, DigitRun.AreIn runs s ∧
      ⟨"12 ".toList, "99999999999".toList, "M7U".toList⟩ ∈ runs ∧
      runs.filterMap DigitRun.reference? = [⟨12, none⟩, ⟨7, some 'U'⟩]) ∧
    Reference.readAll "12 , 7U".toList = [⟨12, none⟩, ⟨7, some 'U'⟩] ∧
    ((Symbol.ofName "A".toList).addReferences "12".toList).addReferences "99999999999M7U".toList =
      (Symbol.ofName "A".toList).addReferences s := by
  obtain ⟨hruns, hshown, hsplit⟩ := references_tokenize
  refine ⟨?_, hshown _ _ ?_ ?_, (hsplit "12".toList _ ' ' (by decide) (by decide)).2 _⟩
  · obtain ⟨runs, hr, hread⟩ := hruns "12 99999999999M7U".toList
    refine ⟨runs, hr, (hr.mem_iff _).mpr ⟨rfl, by decide, ?_, by simp, by simp⟩, ?_⟩
    · exact List.all_eq_true.mp (by decide)
    · rw [← hread]
      decide +kernel
  · simp only [List.forall_mem_cons, List.not_mem_nil, false_imp_iff, implies_true, and_true]
    exact ⟨⟨by decide, by simp⟩, ⟨by decide, by simp [Reference.isRole]⟩⟩
  · exact .cons ⟨12, none⟩ (List.cons_ne_nil ' ' [',', ' ']) (by simp) (.single ⟨7, some 'U'⟩)

end ListingIndex
