import Mathlib
import ListingIndex.Line.Boundary
import ListingIndex.Proofs.Fields

/-! Title lines. In front of its page number a title line has a field of 111 columns, and the title of
a report that stands furthest to the right in it says which report the page belongs to. A title in the
first column does not count, so that there is always something in front of it. -/
namespace ListingIndex.Line
open Text Column

namespace Boundary

/-- The title of a report starts at character `i` of a field. -/
def TitleAt (field : Text) (r : Report) (i : ℕ) : Prop := r.title <+: field.drop i

theorem titleAt_drop_one {field : Text} {r : Report} {i : ℕ} :
    TitleAt (field.drop 1) r i ↔ TitleAt field r (i + 1) := by
  rw [TitleAt, TitleAt, List.drop_drop, Nat.add_comm]

theorem titleAt_le_succ_iff (field : Text) (i : ℕ) :
    (∀ q j, TitleAt (field.drop 1) q j → j ≤ i) ↔ ∀ q j, TitleAt field q j → j ≤ i + 1 := by
  simp only [titleAt_drop_one]
  constructor
  · intro h q j hq
    cases j with
    | zero => exact Nat.zero_le _
    | succ j => exact Nat.succ_le_succ (h q j hq)
  · intro h q j hq
    exact Nat.le_of_succ_le_succ (h q (j + 1) hq)

/-- No title starts with another one. -/
theorem eq_of_title_starts {q r : Report} (h : q.title <+: r.title) : q = r := by
  have hall : ∀ q ∈ Report.all, ∀ r ∈ Report.all, q.title.isPrefixOf r.title → q = r := by
    decide +kernel
  exact hall q (Report.mem_all q) r (Report.mem_all r) (List.isPrefixOf_iff_prefix.mpr h)

theorem title_prefix_of_titleAt? {s : Text} {r : Report} (h : titleAt? s = some r) :
    r.title <+: s := by
  have hp := List.find?_some h
  exact List.isPrefixOf_iff_prefix.mp hp

theorem titleAt?_eq_some_iff {s : Text} {r : Report} : titleAt? s = some r ↔ r.title <+: s := by
  refine ⟨title_prefix_of_titleAt?, ?_⟩
  intro h
  cases hf : titleAt? s with
  | none =>
    have hn := List.find?_eq_none.mp hf r (Report.mem_all r)
    exact absurd (List.isPrefixOf_iff_prefix.mpr h) hn
  | some q =>
    rcases List.prefix_or_prefix_of_prefix (title_prefix_of_titleAt? hf) h with hp | hp
    · rw [eq_of_title_starts hp]
    · rw [eq_of_title_starts hp]

theorem lastTitle?_eq_none_iff {s : Text} : lastTitle? s = none ↔ ∀ r i, ¬ TitleAt s r i := by
  induction s with
  | nil =>
    simp only [lastTitle?, TitleAt, List.drop_nil, List.prefix_nil, true_iff]
    intro r i
    cases r <;> decide
  | cons c s ih =>
    rw [lastTitle?, Option.or_eq_none_iff, ih, Option.eq_none_iff_forall_ne_some]
    simp only [ne_eq, titleAt?_eq_some_iff]
    constructor
    · intro h r i
      cases i with
      | zero => exact h.2 r
      | succ i => exact h.1 r i
    · intro h
      exact ⟨fun r i => h r (i + 1), fun r => h r 0⟩

theorem lastTitle?_eq_some_iff {s : Text} {r : Report} :
    lastTitle? s = some r ↔ ∃ i, TitleAt s r i ∧ ∀ q j, TitleAt s q j → j ≤ i := by
  induction s generalizing r with
  | nil =>
    have hn := lastTitle?_eq_none_iff.mp (show lastTitle? [] = none from rfl)
    simp [lastTitle?, hn]
  | cons c s ih =>
    rw [lastTitle?]
    cases hl : lastTitle? s with
    | none =>
      -- no title starts further to the right
      have hn := lastTitle?_eq_none_iff.mp hl
      rw [Option.none_or, titleAt?_eq_some_iff]
      constructor
      · intro h
        refine ⟨0, h, ?_⟩
        intro q j hq
        cases j with
        | zero => exact le_rfl
        | succ j => exact absurd hq (hn q j)
      · intro h
        obtain ⟨i, hi, -⟩ := h
        cases i with
        | zero => exact hi
        | succ i => exact absurd hi (hn r i)
    | some p =>
      rw [Option.some_or, ← hl, ih]
      constructor
      · intro h
        obtain ⟨i, hi, hmax⟩ := h
        exact ⟨i + 1, hi, (titleAt_le_succ_iff (c :: s) i).mp hmax⟩
      · intro h
        obtain ⟨i, hi, hmax⟩ := h
        obtain ⟨k, hk, -⟩ := ih.mp hl
        cases i with
        | zero => exact absurd (hmax p (k + 1) hk) (by omega)
        | succ i => exact ⟨i, hi, (titleAt_le_succ_iff (c :: s) i).mpr hmax⟩

/-- A title line belongs to the report whose title stands furthest to the right, behind the first
column. -/
theorem ofTitle_eq_report_iff {field : Text} {r : Report} : ofTitle field = report r ↔
    ∃ i, 1 ≤ i ∧ TitleAt field r i ∧ ∀ q j, TitleAt field q j → j ≤ i := by
  have hl : ofTitle field = report r ↔ lastTitle? (field.drop 1) = some r := by
    unfold ofTitle
    cases lastTitle? (field.drop 1) <;> simp
  rw [hl, lastTitle?_eq_some_iff]
  constructor
  · intro h
    obtain ⟨i, hi, hmax⟩ := h
    exact ⟨i + 1, by omega, titleAt_drop_one.mp hi, (titleAt_le_succ_iff field i).mp hmax⟩
  · intro h
    obtain ⟨i, hle, hi, hmax⟩ := h
    obtain ⟨i, rfl⟩ := Nat.exists_eq_add_of_le' hle
    exact ⟨i, titleAt_drop_one.mpr hi, (titleAt_le_succ_iff field i).mpr hmax⟩

theorem ofTitle_eq_page_iff {field : Text} :
    (∃ title, ofTitle field = page title) ↔ ∀ r i, 1 ≤ i → ¬ TitleAt field r i := by
  have hl : (∃ title, ofTitle field = page title) ↔ lastTitle? (field.drop 1) = none := by
    unfold ofTitle
    cases lastTitle? (field.drop 1) <;> simp
  simp only [hl, lastTitle?_eq_none_iff, titleAt_drop_one]
  constructor
  · intro h r i hle
    obtain ⟨i, rfl⟩ := Nat.exists_eq_add_of_le' hle
    exact h r i
  · intro h r i
    exact h r (i + 1) (by omega)

/-! Lines that are read as title lines -/

/-- A title line has a field of 111 columns, the word `Page`, spaces, and a page number. -/
def IsTitleLine (s field : Text) : Prop :=
  field.length = 111 ∧ ∃ (k : ℕ) (digit : Char) (rest : Text), 0 < k ∧ isDecimal digit ∧
    s = field ++ "Page".toList ++ List.replicate k ' ' ++ digit :: rest

/-- A line that is read as something else, whatever stands in its title columns. -/
inductive Precedes (s : Text) : Prop
  | returnCode (h : "Return Code ".toList <+: s)
  | message {number text : Text} {letter : Char} (hn : number.length = 3)
    (hd : ∀ c ∈ number, isDecimal c) (hl : letter ∈ "NIWES".toList) (ht : text ≠ [])
    (h : s = "** ASMA".toList ++ number ++ letter :: ' ' :: text)
  | columns {mark : Text} {layout : Layout}
    (hm : mark ∈ ["  ".toList, "C-".toList, "D-".toList, "R-".toList])
    (h : mark ++ headerText layout <+: s)

section
variable {s : Text}

theorem returnCode?_isSome_iff : (returnCode? s).isSome ↔ "Return Code ".toList <+: s := by
  rw [returnCode?, Option.isSome_map, Option.isSome_iff_exists]
  simp only [word_eq_some_iff]
  constructor
  · intro h
    obtain ⟨rest, rfl⟩ := h
    exact ⟨rest, rfl⟩
  · intro h
    obtain ⟨rest, rfl⟩ := h
    exact ⟨rest, rfl⟩

theorem message?_isSome_iff (hf : '\n' ∉ s) : (message? s).isSome ↔
    ∃ number letter text, number.length = 3 ∧ (∀ c ∈ number, isDecimal c) ∧ letter ∈ "NIWES".toList ∧
      text ≠ [] ∧ s = "** ASMA".toList ++ number ++ letter :: ' ' :: text := by
  rw [Option.isSome_iff_exists]
  constructor
  · intro h
    obtain ⟨b, h⟩ := h
    obtain ⟨s₁, h₁, h⟩ := Option.bind_eq_some_iff.mp h
    obtain ⟨⟨number, s₂⟩, h₂, h⟩ := Option.bind_eq_some_iff.mp h
    obtain ⟨⟨severity, s₃⟩, h₃, h⟩ := Option.bind_eq_some_iff.mp h
    obtain ⟨s₄, h₄, h⟩ := Option.bind_eq_some_iff.mp h
    obtain ⟨⟨text, s₅⟩, h₅, -⟩ := Option.bind_eq_some_iff.mp h
    obtain rfl := word_eq_some_iff.mp h₁
    obtain ⟨rfl, hn, hd⟩ := exactly_eq_some_iff.mp h₂
    obtain ⟨rfl, hl, hs⟩ := exactly_eq_some_iff.mp h₃
    obtain rfl := space_eq_some_iff.mp h₄
    obtain ⟨rfl, hne, -, -⟩ := run_eq_some_iff.mp h₅
    obtain ⟨letter, rfl⟩ := List.length_eq_one_iff.mp hl
    refine ⟨number, letter, text ++ s₅, hn, List.all_eq_true.mp hd, ?_, by simp [hne], by simp⟩
    simpa [isSeverityLetter] using hs
  · intro h
    obtain ⟨number, letter, text, hn, hd, hl, ht, rfl⟩ := h
    have hnumber : exactly isDecimal 3 (number ++ letter :: ' ' :: text) =
        some (number, letter :: ' ' :: text) :=
      exactly_eq_some_iff.mpr ⟨rfl, hn, List.all_eq_true.mpr hd⟩
    have hletter : exactly isSeverityLetter 1 (letter :: ' ' :: text) = some ([letter], ' ' :: text) :=
      exactly_eq_some_iff.mpr ⟨rfl, rfl, by simpa [isSeverityLetter] using hl⟩
    have htext : run isFree text = some (text, []) := by
      refine run_eq_some_iff.mpr ⟨(List.append_nil _).symm, ht, ?_, by simp⟩
      exact fun c hc => isFree_of_not_mem hf (by simp [hc])
    refine ⟨message ("ASMA".toList ++ number ++ [letter]) (trim text), ?_⟩
    refine bind_eq_of_eq_some (word_eq_some_iff.mpr (List.append_assoc _ _ _)) ?_
    refine bind_eq_of_eq_some hnumber ?_
    refine bind_eq_of_eq_some hletter ?_
    refine bind_eq_of_eq_some (space_eq_some_iff.mpr rfl) ?_
    exact bind_eq_of_eq_some htext rfl

theorem exists_headerMark_iff {t : Text} : (∃ c, headerMark s = some (c, t)) ↔
    ∃ mark ∈ ["  ".toList, "C-".toList, "D-".toList, "R-".toList], s = mark ++ t := by
  unfold headerMark
  split <;> simp_all

theorem columns?_isSome_iff : (columns? s).isSome ↔
    ∃ mark ∈ ["  ".toList, "C-".toList, "D-".toList, "R-".toList], ∃ layout,
      mark ++ headerText layout <+: s := by
  rw [Option.isSome_iff_exists]
  constructor
  · intro h
    obtain ⟨b, h⟩ := h
    obtain ⟨⟨c, t⟩, hc, h⟩ := Option.bind_eq_some_iff.mp h
    obtain ⟨layout, hl, -⟩ := Option.bind_eq_some_iff.mp h
    obtain ⟨mark, hm, rfl⟩ := exists_headerMark_iff.mp ⟨c, hc⟩
    have hp := List.find?_some hl
    exact ⟨mark, hm, layout, (List.prefix_append_right_inj mark).mpr (List.isPrefixOf_iff_prefix.mp hp)⟩
  · intro h
    obtain ⟨mark, hm, layout, rest, rfl⟩ := h
    obtain ⟨c, hc⟩ := exists_headerMark_iff.mpr
      ⟨mark, hm, List.append_assoc mark (headerText layout) rest⟩
    have hl : ([Layout.short, Layout.long].find? fun layout' =>
        (headerText layout').isPrefixOf (headerText layout ++ rest)).isSome := by
      refine List.find?_isSome.mpr ⟨layout, by cases layout <;> simp, ?_⟩
      exact List.isPrefixOf_iff_prefix.mpr (List.prefix_append _ _)
    obtain ⟨found, hl⟩ := Option.isSome_iff_exists.mp hl
    exact ⟨columns found c, bind_eq_of_eq_some hc (bind_eq_of_eq_some hl rfl)⟩

theorem page?_eq_some_iff (hf : '\n' ∉ s) {b : Boundary} :
    page? s = some b ↔ ∃ field, IsTitleLine s field ∧ b = ofTitle field := by
  constructor
  · intro h
    obtain ⟨⟨field, s₁⟩, h₁, h⟩ := Option.bind_eq_some_iff.mp h
    obtain ⟨s₂, h₂, h⟩ := Option.bind_eq_some_iff.mp h
    obtain ⟨s₃, h₃, h⟩ := Option.bind_eq_some_iff.mp h
    obtain ⟨⟨digits, s₄⟩, h₄, hb⟩ := Option.bind_eq_some_iff.mp h
    obtain ⟨rfl, hlen, -⟩ := exactly_eq_some_iff.mp h₁
    obtain rfl := word_eq_some_iff.mp h₂
    obtain ⟨k, hk, rfl⟩ := exists_of_spaces h₃
    obtain ⟨rfl, hd, hdigit, -⟩ := run_eq_some_iff.mp h₄
    obtain ⟨digit, more, rfl⟩ := List.exists_cons_of_ne_nil hd
    refine ⟨field, ⟨hlen, k, digit, more ++ s₄, hk, hdigit digit (by simp), ?_⟩,
      (Option.some.inj hb).symm⟩
    simp only [List.append_assoc, List.cons_append]
  · intro h
    obtain ⟨field, ⟨hlen, k, digit, rest, hk, hdigit, rfl⟩, rfl⟩ := h
    simp only [List.append_assoc] at hf ⊢
    have hfield : exactly isFree titleWidth (field ++ ("Page".toList ++ (List.replicate k ' ' ++
        digit :: rest))) = some (field, "Page".toList ++ (List.replicate k ' ' ++ digit :: rest)) := by
      refine exactly_eq_some_iff.mpr ⟨rfl, hlen, List.all_eq_true.mpr fun c hc => ?_⟩
      exact isFree_of_not_mem hf (by simp [hc])
    have hspaces : spaces (List.replicate k ' ' ++ digit :: rest) = some (digit :: rest) := by
      refine spaces_replicate hk fun c hc => ?_
      rw [← Option.some.inj hc]
      exact not_isSpace_of_isDecimal hdigit
    have hnumber : run isDecimal (digit :: rest) =
        some ((digit :: rest).takeWhile isDecimal, (digit :: rest).dropWhile isDecimal) := by
      rw [run, List.takeWhile_cons_of_pos hdigit]
      rfl
    refine bind_eq_of_eq_some hfield ?_
    refine bind_eq_of_eq_some (word_eq_some_iff.mpr rfl) ?_
    exact bind_eq_of_eq_some hspaces (bind_eq_of_eq_some hnumber rfl)

theorem precedes_iff (hf : '\n' ∉ s) :
    Precedes s ↔ (returnCode? s).isSome ∨ (message? s).isSome ∨ (columns? s).isSome := by
  rw [returnCode?_isSome_iff, message?_isSome_iff hf, columns?_isSome_iff]
  constructor
  · intro h
    cases h with
    | returnCode h => exact Or.inl h
    | message hn hd hl ht h => exact Or.inr (Or.inl ⟨_, _, _, hn, hd, hl, ht, h⟩)
    | columns hm h => exact Or.inr (Or.inr ⟨_, hm, _, h⟩)
  · intro h
    rcases h with h | ⟨number, letter, text, hn, hd, hl, ht, h⟩ | ⟨mark, hm, layout, h⟩
    · exact .returnCode h
    · exact .message hn hd hl ht h
    · exact .columns hm h

end

/-- Title lines say which page begins. -/
def isTitle : Boundary → Bool
  | report _ | page _ => true
  | returnCode | message _ _ | columns _ _ => false

theorem isTitle_eq_false {s : Text} {b : Boundary}
    (h : returnCode? s = some b ∨ message? s = some b ∨ columns? s = some b) : b.isTitle = false := by
  rcases h with h | h | h
  · obtain ⟨_, -, rfl⟩ := Option.map_eq_some_iff.mp h
    rfl
  · obtain ⟨_, -, h⟩ := Option.bind_eq_some_iff.mp h
    obtain ⟨_, -, h⟩ := Option.bind_eq_some_iff.mp h
    obtain ⟨_, -, h⟩ := Option.bind_eq_some_iff.mp h
    obtain ⟨_, -, h⟩ := Option.bind_eq_some_iff.mp h
    obtain ⟨_, -, h⟩ := Option.bind_eq_some_iff.mp h
    obtain rfl := Option.some.inj h
    rfl
  · obtain ⟨_, -, h⟩ := Option.bind_eq_some_iff.mp h
    obtain ⟨_, -, h⟩ := Option.bind_eq_some_iff.mp h
    obtain rfl := Option.some.inj h
    rfl

end Boundary

open Boundary

/-- The title line of a page, with the page number set to the right. -/
def titleRow (title : Text) (page : ℕ) : Text :=
  title.rightpad titleWidth ' ' ++ "Page ".toList ++ (Nat.toDigits 10 page).leftpad 4 ' '

/-- The title line of a page of a report. -/
def reportRow (r : Report) (page : ℕ) : Text := titleRow (List.replicate 41 ' ' ++ r.title) page

theorem isTitleLine_titleRow {title : Text} (h : title.length ≤ titleWidth) (page : ℕ) :
    IsTitleLine (titleRow title page) (title.rightpad titleWidth ' ') := by
  obtain ⟨digit, rest, hdigits⟩ :=
    List.exists_cons_of_ne_nil (Nat.toDigits_ne_nil (n := page) (b := 10))
  have hd : isDecimal digit := by
    apply Nat.isDigit_of_mem_toDigits (b := 10) (n := page) (by decide) le_rfl
    rw [hdigits]
    exact List.mem_cons_self
  have hlen : (title.rightpad titleWidth ' ').length = titleWidth := by
    rw [List.rightpad, List.length_append, List.length_replicate, Nat.add_sub_cancel' h]
  refine ⟨hlen, 1 + (4 - (digit :: rest).length), digit, rest, by omega, hd, ?_⟩
  rw [titleRow, hdigits, List.leftpad, List.replicate_add]
  simp

/-- A title line, behind its indicator, with the columns in front of its page number. -/
def Titled (indicator : Bool) (line field : Text) : Prop :=
  ∃ (lead : Option Char) (s : Text), lead.isSome = indicator ∧ line = lead.toList ++ s ∧
    ¬ Precedes s ∧ IsTitleLine s field

section
variable {indicator : Bool} {line : Text}

theorem boundary?_behind {s : Text} (h : behindIndicator indicator line = some s) :
    boundary? indicator line =
      (returnCode? s).or ((message? s).or ((columns? s).or (page? s))) := by
  rw [boundary?, h]
  simp only [Option.bind_eq_bind, Option.bind_some, List.findSome?_cons, List.findSome?_nil]
  cases returnCode? s <;> cases message? s <;> cases columns? s <;> cases page? s <;> rfl

variable (hf : '\n' ∉ line)
include hf

theorem behindIndicator_iff {s : Text} : behindIndicator indicator line = some s ↔
    ∃ lead : Option Char, lead.isSome = indicator ∧ line = lead.toList ++ s := by
  rw [behindIndicator_eq_some_iff]
  constructor
  · intro h
    obtain ⟨lead, hi, -, hl⟩ := h
    exact ⟨lead, hi, hl⟩
  · intro h
    obtain ⟨lead, hi, rfl⟩ := h
    refine ⟨lead, hi, ?_, rfl⟩
    intro c hc
    exact isFree_of_not_mem hf (by simp [Option.mem_def.mp hc])

theorem boundary?_of_titled {field : Text} (h : Titled indicator line field) :
    boundary? indicator line = some (ofTitle field) := by
  obtain ⟨lead, s, hi, rfl, hn, ht⟩ := h
  have hfs : '\n' ∉ s := fun hs => hf (by simp [hs])
  rw [precedes_iff hfs, not_or, not_or] at hn
  simp only [Option.not_isSome_iff_eq_none] at hn
  rw [boundary?_behind ((behindIndicator_iff hf).mpr ⟨lead, hi, rfl⟩), hn.1, hn.2.1, hn.2.2,
    (page?_eq_some_iff hfs).mpr ⟨field, ht, rfl⟩]
  rfl

/-- No other lines are read as title lines. -/
theorem titled_of_boundary? {b : Boundary} (h : boundary? indicator line = some b)
    (hb : b.isTitle) : ∃ field, Titled indicator line field := by
  obtain ⟨s, hs, -⟩ := Option.bind_eq_some_iff.mp h
  obtain ⟨lead, hi, rfl⟩ := (behindIndicator_iff hf).mp hs
  have hfs : '\n' ∉ s := fun hm => hf (by simp [hm])
  rw [boundary?_behind hs] at h
  have hother : ¬ (returnCode? s = some b ∨ message? s = some b ∨ columns? s = some b) := by
    intro ho
    rw [isTitle_eq_false ho] at hb
    cases hb
  simp only [not_or] at hother
  obtain ⟨hr, h⟩ := (Option.or_eq_some_iff.mp h).resolve_left hother.1
  obtain ⟨hm, h⟩ := (Option.or_eq_some_iff.mp h).resolve_left hother.2.1
  obtain ⟨hc, h⟩ := (Option.or_eq_some_iff.mp h).resolve_left hother.2.2
  obtain ⟨field, ht, -⟩ := (page?_eq_some_iff hfs).mp h
  refine ⟨field, lead, s, hi, rfl, ?_, ht⟩
  rw [precedes_iff hfs, hr, hm, hc]
  simp

end

/-- Title lines are told by the title furthest to the right. A page belongs to a report if and only if
the title of the report starts behind the first column and no other one starts further to the right,
and to no report if and only if no title starts behind the first column. No other line is read as the
title line of a page. -/
theorem boundary?_titles (indicator : Bool) (line : Text) (hf : '\n' ∉ line) :
    (∀ field, Titled indicator line field →
      (∀ r, boundary? indicator line = some (.report r) ↔
        ∃ i, 1 ≤ i ∧ TitleAt field r i ∧ ∀ q j, TitleAt field q j → j ≤ i) ∧
      ((∃ title, boundary? indicator line = some (.page title)) ↔
        ∀ r i, 1 ≤ i → ¬ TitleAt field r i)) ∧
    ((∀ field, ¬ Titled indicator line field) →
      (∀ r, boundary? indicator line ≠ some (.report r)) ∧
        ∀ title, boundary? indicator line ≠ some (.page title)) := by
  refine ⟨?_, ?_⟩
  · intro field h
    rw [boundary?_of_titled hf h]
    simp only [Option.some.injEq]
    exact ⟨fun r => ofTitle_eq_report_iff, ofTitle_eq_page_iff⟩
  · intro hn
    refine ⟨fun r hb => ?_, fun title hb => ?_⟩
    · obtain ⟨field, ht⟩ := titled_of_boundary? hf hb rfl
      exact hn field ht
    · obtain ⟨field, ht⟩ := titled_of_boundary? hf hb rfl
      exact hn field ht

/-- A page whose title names two reports. -/
def crowdedText : Text := "  SAMPLE   Using Map of the Relocation Dictionary, see Using Map".toList

def crowdedTitle : Text := crowdedText.rightpad titleWidth ' '

def crowdedLine : Text := '1' :: titleRow crowdedText 7

theorem crowdedLine_titled : Titled true crowdedLine crowdedTitle := by
  refine ⟨some '1', titleRow crowdedText 7, rfl, rfl, ?_, isTitleLine_titleRow (by decide) 7⟩
  rw [precedes_iff (by decide +kernel)]
  decide +kernel

theorem boundary?_titles_crowdedLine : '\n' ∉ crowdedLine ∧ Titled true crowdedLine crowdedTitle ∧
    boundary? true crowdedLine = some (.report .usingMap) ∧
    (∃ i, 1 ≤ i ∧ TitleAt crowdedTitle .usingMap i ∧ ∀ q j, TitleAt crowdedTitle q j → j ≤ i) ∧
    ¬ ∃ title, boundary? true crowdedLine = some (.page title) := by
  have hf : '\n' ∉ crowdedLine := by decide +kernel
  have hb : boundary? true crowdedLine = some (.report .usingMap) := by decide +kernel
  obtain ⟨hreport, hpage⟩ := (boundary?_titles true crowdedLine hf).1 crowdedTitle crowdedLine_titled
  obtain ⟨i, hi, ht, hmax⟩ := (hreport .usingMap).mp hb
  refine ⟨hf, crowdedLine_titled, hb, ⟨i, hi, ht, hmax⟩, ?_⟩
  rw [hpage]
  exact fun hn => hn .usingMap i hi ht

end ListingIndex.Line
