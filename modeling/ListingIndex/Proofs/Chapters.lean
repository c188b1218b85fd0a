import Mathlib
import ListingIndex.Outline.Contents

/-! Chapters of object code. The blocks of a listing fall into groups of adjacent blocks under one
title, and a chapter takes in all lines of its group. -/
namespace ListingIndex.Chapter

/-- The chapter of a group of blocks. -/
structure Gathers (c : Chapter) (group : List CodeBlock) : Prop where
  title : ∀ b ∈ group, b.title = c.title
  start : IsLeast {n | ∃ b ∈ group, b.start = n} c.start
  stop : IsGreatest {n | ∃ b ∈ group, b.stop = n} c.stop

theorem gathers_singleton (b : CodeBlock) : Gathers ⟨b.title, b.start, b.stop⟩ [b] := by
  refine ⟨by simp, ⟨⟨b, by simp, rfl⟩, ?_⟩, ⟨b, by simp, rfl⟩, ?_⟩
  · rintro n ⟨a, ha, rfl⟩
    exact (congrArg CodeBlock.start (List.mem_singleton.mp ha)).ge
  · rintro n ⟨a, ha, rfl⟩
    exact (congrArg CodeBlock.stop (List.mem_singleton.mp ha)).le

theorem Gathers.cons {c : Chapter} {group : List CodeBlock} (h : c.Gathers group) {b : CodeBlock}
    (hb : c.title = b.title) :
    Gathers ⟨c.title, min b.start c.start, max b.stop c.stop⟩ (b :: group) := by
  obtain ⟨ht, ⟨⟨a, ha, has⟩, hleast⟩, ⟨z, hz, hzs⟩, hgreatest⟩ := h
  refine ⟨?_, ⟨?_, ?_⟩, ?_, ?_⟩
  · intro x hx
    rcases List.mem_cons.mp hx with rfl | hx
    · exact hb.symm
    · exact ht x hx
  · rcases le_total b.start c.start with hle | hle
    · exact ⟨b, by simp, (min_eq_left hle).symm⟩
    · exact ⟨a, by simp [ha], has.trans (min_eq_right hle).symm⟩
  · rintro n ⟨x, hx, rfl⟩
    rcases List.mem_cons.mp hx with rfl | hx
    · exact min_le_left ..
    · exact (min_le_right ..).trans (hleast ⟨x, hx, rfl⟩)
  · rcases le_total b.stop c.stop with hle | hle
    · exact ⟨z, by simp [hz], hzs.trans (max_eq_right hle).symm⟩
    · exact ⟨b, by simp, (max_eq_left hle).symm⟩
  · rintro n ⟨x, hx, rfl⟩
    rcases List.mem_cons.mp hx with rfl | hx
    · exact le_max_left ..
    · exact (hgreatest ⟨x, hx, rfl⟩).trans (le_max_right ..)

/-- The chapters are those of the groups, from the first to the last. -/
def Divides (chapters : List Chapter) (blocks : List CodeBlock) : Prop :=
  ∃ groups : List (List CodeBlock), groups.flatten = blocks ∧ List.Forall₂ Gathers chapters groups

theorem Divides.addBlock {chapters : List Chapter} {blocks : List CodeBlock}
    (h : Divides chapters blocks) (b : CodeBlock) : Divides (addBlock b chapters) (b :: blocks) := by
  obtain ⟨groups, rfl, hg⟩ := h
  cases hg with
  | nil => exact ⟨[[b]], rfl, .cons (gathers_singleton b) .nil⟩
  | @cons c group rest groups hc hrest =>
    rw [Chapter.addBlock]
    split
    case isTrue ht => exact ⟨(b :: group) :: groups, rfl, .cons (hc.cons ht) hrest⟩
    case isFalse => exact ⟨[b] :: group :: groups, rfl, .cons (gathers_singleton b) (.cons hc hrest)⟩

theorem divides_ofBlocks (blocks : List CodeBlock) : Divides (ofBlocks blocks) blocks := by
  induction blocks with
  | nil => exact ⟨[], rfl, .nil⟩
  | cons b blocks ih => exact ih.addBlock b

/-- Chapters side by side have different titles. -/
def Alternate (chapters : List Chapter) : Prop := chapters.IsChain fun a b => a.title ≠ b.title

theorem Alternate.addBlock {chapters : List Chapter} (h : Alternate chapters) (b : CodeBlock) :
    Alternate (addBlock b chapters) := by
  cases chapters with
  | nil => exact .singleton _
  | cons c rest =>
    rw [Chapter.addBlock]
    split
    case isTrue =>
      cases rest with
      | nil => exact .singleton _
      | cons d rest => exact List.isChain_cons_cons.mpr (List.isChain_cons_cons.mp h)
    case isFalse ht => exact List.isChain_cons_cons.mpr ⟨fun he => ht he.symm, h⟩

theorem alternate_ofBlocks (blocks : List CodeBlock) : Alternate (ofBlocks blocks) := by
  induction blocks with
  | nil => exact .nil
  | cons b blocks ih => exact ih.addBlock b

theorem exists_start_le {blocks : List CodeBlock} {b : CodeBlock} (hb : b ∈ blocks) :
    ∃ c ∈ ofBlocks blocks, c.start ≤ b.start := by
  obtain ⟨groups, hf, hg⟩ := divides_ofBlocks blocks
  rw [← hf] at hb
  obtain ⟨group, hmem, hb⟩ := List.mem_flatten.mp hb
  obtain ⟨i, hi, rfl⟩ := List.mem_iff_getElem.mp hmem
  have hc := (List.forall₂_iff_get.mp hg).2 i (hg.length_eq ▸ hi) hi
  exact ⟨_, List.get_mem .., hc.start.2 ⟨b, hb, rfl⟩⟩

/-- One chapter ends in front of another. -/
def Before (a b : Chapter) : Prop := a.start < a.stop ∧ a.stop ≤ b.start

instance : Trans Before Before Before where
  trans h₁ h₂ := ⟨h₁.1, h₁.2.trans (h₂.1.le.trans h₂.2)⟩

theorem Gathers.before {c d : Chapter} {group next : List CodeBlock} (hc : c.Gathers group)
    (hd : d.Gathers next) (ht : c.title ≠ d.title) (hlt : ∀ b ∈ group, b.start < b.stop)
    (hp : ∀ a ∈ group, ∀ b ∈ next, a.title = b.title ∨ a.stop ≤ b.start) : Before c d := by
  constructor
  · obtain ⟨a, ha, has⟩ := hc.start.1
    have hstop := hc.stop.2 ⟨a, ha, rfl⟩
    have := hlt a ha
    omega
  · obtain ⟨a, ha, has⟩ := hc.stop.1
    obtain ⟨b, hb, hbs⟩ := hd.start.1
    rcases hp a ha b hb with he | hle
    · exact absurd ((hc.title a ha).symm.trans (he.trans (hd.title b hb))) ht
    · exact has ▸ hbs ▸ hle

theorem isChain_before {chapters : List Chapter} {groups : List (List CodeBlock)}
    (hg : List.Forall₂ Gathers chapters groups) (ht : Alternate chapters)
    (hlt : ∀ group ∈ groups, ∀ b ∈ group, b.start < b.stop)
    (hp : groups.Pairwise fun group next =>
      ∀ a ∈ group, ∀ b ∈ next, a.title = b.title ∨ a.stop ≤ b.start) :
    chapters.IsChain Before := by
  induction hg with
  | nil => exact .nil
  | @cons c group chapters groups hc hrest ih =>
    cases hrest with
    | nil => exact .singleton _
    | @cons d next chapters groups hd hrest =>
      obtain ⟨hcd, ht⟩ := List.isChain_cons_cons.mp ht
      rw [List.pairwise_cons] at hp
      refine List.isChain_cons_cons.mpr ⟨?_, ih ht (fun g hm => hlt g (by simp [hm])) hp.2⟩
      exact hc.before hd hcd (hlt group (by simp)) (hp.1 next (by simp))

/-- Blocks under different titles keep apart, and so do the chapters. -/
theorem before_ofBlocks {blocks : List CodeBlock} (hlt : ∀ b ∈ blocks, b.start < b.stop)
    (hp : blocks.Pairwise fun a b => a.title = b.title ∨ a.stop ≤ b.start) :
    (ofBlocks blocks).Pairwise Before := by
  obtain ⟨groups, hf, hg⟩ := divides_ofBlocks blocks
  rw [← hf] at hlt hp
  refine List.isChain_iff_pairwise.mp (isChain_before hg (alternate_ofBlocks blocks) ?_
    (List.pairwise_flatten.mp hp).2)
  intro group hm b hb
  exact hlt b (List.mem_flatten.mpr ⟨group, hm, hb⟩)

/-! The chapter of a line -/

/-- The last chapter that starts at or above a line, if there is one. -/
def LastAbove (chapters : List Chapter) (line : ℕ) : Option ℕ → Prop
  | some i => (∃ c, chapters[i]? = some c ∧ c.start ≤ line) ∧
      ∀ j c, i < j → chapters[j]? = some c → line < c.start
  | none => ∀ c ∈ chapters, line < c.start

theorem pairwise_zipIdx {α : Type} (xs : List α) : xs.zipIdx.Pairwise fun a b => a.2 < b.2 := by
  refine List.pairwise_map.mp ?_
  rw [List.zipIdx_map_snd]
  exact List.pairwise_lt_range' ..

theorem lastAbove_indexOf? (chapters : List Chapter) (line : ℕ) :
    LastAbove chapters line (indexOf? chapters line) := by
  have hmem : ∀ c i, (c, i) ∈ chapters.zipIdx.filter (fun c => c.1.start ≤ line) ↔
      chapters[i]? = some c ∧ c.start ≤ line := by
    simp [List.mk_mem_zipIdx_iff_getElem?]
  have hasc := (pairwise_zipIdx chapters).filter fun c => c.1.start ≤ line
  rw [indexOf?]
  cases hl : (chapters.zipIdx.filter fun c => c.1.start ≤ line).getLast? with
  | none =>
    rw [List.getLast?_eq_none_iff] at hl
    rintro c hc
    obtain ⟨i, hi⟩ := List.mem_iff_getElem?.mp hc
    by_contra hle
    have := (hmem c i).mpr ⟨hi, by omega⟩
    rw [hl] at this
    cases this
  | some last =>
    obtain ⟨c, i⟩ := last
    obtain ⟨front, hf⟩ := List.getLast?_eq_some_iff.mp hl
    rw [hf] at hmem hasc
    refine ⟨⟨c, (hmem c i).mp (by simp)⟩, ?_⟩
    intro j d (hij : i < j) hd
    by_contra hle
    -- a later chapter would stand behind the last one of the list
    have hj : (d, j) ∈ front ++ [(c, i)] := (hmem d j).mpr ⟨hd, by omega⟩
    rcases List.mem_append.mp hj with hj | hj
    · have := (List.pairwise_append.mp hasc).2.2 _ hj (c, i) (by simp)
      dsimp only at this
      omega
    · have : j = i := by simpa using congrArg Prod.snd (List.mem_singleton.mp hj)
      omega

theorem LastAbove.unique {chapters : List Chapter} {line : ℕ} {p q : Option ℕ}
    (hp : LastAbove chapters line p) (hq : LastAbove chapters line q) : p = q := by
  have hnone : ∀ {i}, LastAbove chapters line none → ¬ LastAbove chapters line (some i) := by
    rintro i hn ⟨⟨c, hc, hle⟩, -⟩
    have := hn c (List.mem_of_getElem? hc)
    omega
  have hle : ∀ {i j}, LastAbove chapters line (some i) → LastAbove chapters line (some j) → j ≤ i := by
    rintro i j ⟨-, hi⟩ ⟨⟨c, hc, hle⟩, -⟩
    by_contra hij
    have := hi j c (by omega) hc
    omega
  cases p with
  | none =>
    cases q with
    | none => rfl
    | some j => exact absurd hq (hnone hp)
  | some i =>
    cases q with
    | none => exact absurd hp (hnone hq)
    | some j => exact congrArg some (le_antisymm (hle hq hp) (hle hp hq))

theorem lastAbove_iff {chapters : List Chapter} {line : ℕ} {place : Option ℕ} :
    LastAbove chapters line place ↔ indexOf? chapters line = place :=
  ⟨fun h => (lastAbove_indexOf? chapters line).unique h, fun h => h ▸ lastAbove_indexOf? ..⟩

end ListingIndex.Chapter
