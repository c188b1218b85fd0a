import Mathlib
import ListingIndex.Proofs.Chapters
import ListingIndex.Proofs.PageTitles

/-! The outline of object code. Every symbol that is no literal and has a definition in print hangs
there once, at the line of its first printed definition, and under the last chapter that starts
at or above this line. -/
namespace ListingIndex

/-! Nodes of a tree -/

namespace OutlineNode
mutual

/-- The symbols in a tree, from the top down. -/
def entries : OutlineNode → List OutlineNode
  | ⟨name, kind, span, children⟩ =>
    (if kind = .entry then [⟨name, kind, span, children⟩] else []) ++ entriesOf children

def entriesOf : List OutlineNode → List OutlineNode
  | [] => []
  | n :: ns => n.entries ++ entriesOf ns

end

theorem entriesOf_eq_flatMap (ns : List OutlineNode) : entriesOf ns = ns.flatMap entries := by
  induction ns with
  | nil => rw [entriesOf, List.flatMap_nil]
  | cons n ns ih => rw [entriesOf, ih, List.flatMap_cons]

theorem entries_leaf (name : Text) (span : Span) :
    (OutlineNode.mk name .entry span []).entries = [⟨name, .entry, span, []⟩] := by
  simp [entries, entriesOf]

theorem entries_of_kind_ne {name : Text} {kind : OutlineKind} (h : kind ≠ .entry) (span : Span)
    (children : List OutlineNode) :
    (OutlineNode.mk name kind span children).entries = children.flatMap entries := by
  rw [entries, if_neg h, List.nil_append, entriesOf_eq_flatMap]

end OutlineNode

/-! Symbols in print -/

/-- A symbol of a table, by its place there, and a line. -/
structure ShownSymbol where
  index : ℕ
  symbol : Symbol
  line : ℕ
deriving DecidableEq, Repr

namespace ShownSymbol

def leaf (e : ShownSymbol) : OutlineNode := ⟨e.symbol.name, .entry, ⟨⟨e.line, 0⟩, ⟨e.line, 0⟩⟩, []⟩

/-- From the top of the listing down, and on one line in the order of the table. -/
def Above (a b : ShownSymbol) : Prop := a.line < b.line ∨ a.line = b.line ∧ a.index < b.index

end ShownSymbol

section
variable {α : Type} (key : α → ℕ) (xs : List α)

theorem key_le_trans (a b c : α) : decide (key a ≤ key b) → decide (key b ≤ key c) →
    decide (key a ≤ key c) := by
  simp only [decide_eq_true_eq]
  exact Nat.le_trans

theorem key_le_total (a b : α) : decide (key a ≤ key b) || decide (key b ≤ key a) := by
  simpa using Nat.le_total (key a) (key b)

theorem pairwise_mergeSort_key : (xs.mergeSort fun a b => key a ≤ key b).Pairwise
    fun a b => key a ≤ key b :=
  (List.pairwise_mergeSort (key_le_trans key) (key_le_total key) xs).imp of_decide_eq_true

/-- Sorting keeps the order of what has the same key. -/
theorem filter_mergeSort_key (k : ℕ) :
    (xs.mergeSort fun a b => key a ≤ key b).filter (key · = k) = xs.filter (key · = k) := by
  have hsame : (xs.filter (key · = k)).Pairwise fun a b => decide (key a ≤ key b) := by
    refine List.pairwise_of_forall_mem_list ?_
    intro a ha b hb
    have ha := List.of_mem_filter ha
    have hb := List.of_mem_filter hb
    simp only [decide_eq_true_eq] at ha hb ⊢
    omega
  have hsub :=
    List.sublist_mergeSort (key_le_trans key) (key_le_total key) hsame List.filter_sublist
  have hfilter := hsub.filter (key · = k)
  rw [List.filter_filter] at hfilter
  simp only [Bool.and_self] at hfilter
  refine (hfilter.eq_of_length ?_).symm
  exact ((List.mergeSort_perm xs _).filter _).length_eq.symm

end

theorem ShownSymbol.above_mergeSort {xs : List ShownSymbol}
    (h : xs.Pairwise fun a b => a.index < b.index) :
    (xs.mergeSort fun a b => a.line ≤ b.line).Pairwise Above := by
  refine List.pairwise_iff_forall_sublist.mpr ?_
  intro a b hab
  have hle : a.line ≤ b.line :=
    List.pairwise_iff_forall_sublist.mp (pairwise_mergeSort_key ShownSymbol.line xs) hab
  rcases hle.lt_or_eq with hlt | heq
  · exact Or.inl hlt
  · -- the two stand on one line, and so in the order of the table
    have hfilter := hab.filter (·.line = b.line)
    rw [filter_mergeSort_key ShownSymbol.line] at hfilter
    have hsub : [a, b].Sublist xs := by
      simpa [heq] using hfilter.trans List.filter_sublist
    exact Or.inr ⟨heq, List.pairwise_iff_forall_sublist.mp h hsub⟩

namespace Listing

/-- The line on which the first definition of a symbol that is in print stands. -/
def PrintedAt (l : Listing) (s : Symbol) (line : ℕ) : Prop :=
  ∃ n, IsLeast {n | n ∈ s.defined ∧ n ∈ l.statements.keys} n ∧ l.lineOf? n = some line

theorem lineOf?_eq_none_iff {l : Listing} {n : ℕ} : l.lineOf? n = none ↔ n ∉ l.statements.keys := by
  simp [lineOf?, FloorMap.mem_keys, Option.eq_none_iff_forall_ne_some]

theorem definitionLine?_eq_some_iff {l : Listing} {s : Symbol} {line : ℕ} :
    l.definitionLine? s = some line ↔ l.PrintedAt s line := by
  have hasc := s.defined.ascending
  rw [definitionLine?, List.findSome?_eq_some_iff]
  constructor
  · rintro ⟨front, n, back, hs, hn, hfront⟩
    have hkey : n ∈ l.statements.keys := by
      by_contra h
      rw [lineOf?_eq_none_iff.mpr h] at hn
      cases hn
    refine ⟨n, ⟨⟨?_, hkey⟩, ?_⟩, hn⟩
    · change n ∈ s.defined.toList
      simp [hs]
    · rintro m ⟨hm, hmk⟩
      change m ∈ s.defined.toList at hm
      rw [hs] at hm hasc
      rcases List.mem_append.mp hm with hm | hm
      · exact absurd hmk (lineOf?_eq_none_iff.mp (hfront m hm))
      · rcases List.mem_cons.mp hm with rfl | hm
        · exact le_rfl
        · exact ((List.pairwise_cons.mp (List.pairwise_append.mp hasc).2.1).1 m hm).le
  · rintro ⟨n, ⟨⟨hn, hk⟩, hleast⟩, hline⟩
    obtain ⟨front, back, hs⟩ := List.append_of_mem (show n ∈ s.defined.toList from hn)
    refine ⟨front, n, back, hs, hline, ?_⟩
    intro m hm
    refine lineOf?_eq_none_iff.mpr fun hmk => ?_
    have hle := hleast ⟨show m ∈ s.defined.toList by simp [hs, hm], hmk⟩
    rw [hs] at hasc
    have hlt := (List.pairwise_append.mp hasc).2.2 m hm n (by simp)
    omega

/-- The outline shows the symbol at its line. -/
def Shows (l : Listing) (o : Options) (e : ShownSymbol) : Prop :=
  l.symbols.values[e.index]? = some e.symbol ∧ e.symbol.name.head? ≠ some o.literalMark ∧
    l.PrintedAt e.symbol e.line

/-- The symbols in the outline, in the order of the table. -/
def tableSymbols (l : Listing) (o : Options) : List ShownSymbol :=
  l.symbols.values.zipIdx.filterMap fun (s, i) =>
    if o.isLiteral s.name then none else (l.definitionLine? s).map (⟨i, s, ·⟩)

/-- The symbols in the outline, from the top of the listing down. -/
def shownSymbols (l : Listing) (o : Options) : List ShownSymbol :=
  (l.tableSymbols o).mergeSort fun a b => a.line ≤ b.line

theorem mem_shownSymbols {l : Listing} {o : Options} {e : ShownSymbol} :
    e ∈ l.shownSymbols o ↔ l.Shows o e := by
  obtain ⟨i, s, line⟩ := e
  simp only [shownSymbols, tableSymbols, List.mem_mergeSort, List.mem_filterMap, Prod.exists,
    List.mk_mem_zipIdx_iff_getElem?, Option.ite_none_left_eq_some, Option.map_eq_some_iff,
    definitionLine?_eq_some_iff, ShownSymbol.mk.injEq, Shows, Options.isLiteral_iff]
  constructor
  · rintro ⟨t, j, ht, hlit, n, hn, rfl, rfl, rfl⟩
    exact ⟨ht, hlit, hn⟩
  · rintro ⟨ht, hlit, hn⟩
    exact ⟨s, i, ht, hlit, line, hn, rfl, rfl, rfl⟩

theorem PrintedAt.unique {l : Listing} {s : Symbol} {m n : ℕ} (hm : l.PrintedAt s m)
    (hn : l.PrintedAt s n) : m = n :=
  Option.some.inj ((definitionLine?_eq_some_iff.mpr hm).symm.trans
    (definitionLine?_eq_some_iff.mpr hn))

/-- A symbol is shown once. -/
theorem Shows.eq_of_index_eq {l : Listing} {o : Options} {a b : ShownSymbol} (ha : l.Shows o a)
    (hb : l.Shows o b) (h : a.index = b.index) : a = b := by
  obtain ⟨i, s, m⟩ := a
  obtain ⟨j, t, n⟩ := b
  obtain rfl : i = j := h
  obtain rfl : s = t := Option.some.inj (ha.1.symm.trans hb.1)
  obtain rfl : m = n := ha.2.2.unique hb.2.2
  rfl

theorem exists_printedAt_iff {l : Listing} {s : Symbol} :
    (∃ line, l.PrintedAt s line) ↔ ∃ n ∈ s.defined, n ∈ l.statements.keys := by
  constructor
  · rintro ⟨line, n, ⟨⟨hn, hk⟩, -⟩, -⟩
    exact ⟨n, hn, hk⟩
  · rintro ⟨n, hn, hk⟩
    have hne : l.definitionLine? s ≠ none := by
      intro hnone
      exact lineOf?_eq_none_iff.mp (List.findSome?_eq_none_iff.mp hnone n hn) hk
    obtain ⟨line, hline⟩ := Option.ne_none_iff_exists'.mp hne
    exact ⟨line, definitionLine?_eq_some_iff.mp hline⟩

theorem shownSymbols_pairwise (l : Listing) (o : Options) :
    (l.shownSymbols o).Pairwise ShownSymbol.Above := by
  have hasc := Chapter.pairwise_zipIdx l.symbols.values
  refine ShownSymbol.above_mergeSort (hasc.filterMap _ ?_)
  intro a b hab x hx y hy
  simp only [Option.ite_none_left_eq_some, Option.map_eq_some_iff] at hx hy
  obtain ⟨-, -, -, rfl⟩ := hx
  obtain ⟨-, -, -, rfl⟩ := hy
  exact hab

theorem visibleSymbols_eq (l : Listing) (o : Options) :
    l.visibleSymbols o = (l.shownSymbols o).map fun e => (e.symbol.name, e.line) := by
  have htable : (l.symbols.values.filter fun s => !o.isLiteral s.name).filterMap (fun s =>
      (l.definitionLine? s).map (s.name, ·)) =
        (l.tableSymbols o).map fun e => (e.symbol.name, e.line) := by
    nth_rewrite 1 [← List.zipIdx_map_fst 0 l.symbols.values]
    rw [tableSymbols, List.filterMap_filter, List.filterMap_map, List.map_filterMap]
    refine List.filterMap_congr fun e _ => ?_
    cases hlit : o.isLiteral e.1.name with
    | true => simp [hlit]
    | false => simp [hlit, Option.map_map, Function.comp_def]
  rw [visibleSymbols, shownSymbols, htable]
  refine (List.map_mergeSort ?_).symm
  intro a _ b _
  rfl

/-! The symbols of each chapter -/

/-- The symbols at a place among the chapters. -/
def hung (l : Listing) (o : Options) (place : Option ℕ) : List ShownSymbol :=
  (l.shownSymbols o).filter fun e => Chapter.indexOf? (Chapter.ofBlocks l.blocks) e.line == place

theorem mem_hung {l : Listing} {o : Options} {place : Option ℕ} {e : ShownSymbol} :
    e ∈ l.hung o place ↔
      l.Shows o e ∧ Chapter.LastAbove (Chapter.ofBlocks l.blocks) e.line place := by
  rw [hung, List.mem_filter, mem_shownSymbols, beq_iff_eq, Chapter.lastAbove_iff]

/-- The symbols of all chapters, and then those of none. -/
def hungAll (l : Listing) (o : Options) : List ShownSymbol :=
  (List.range (Chapter.ofBlocks l.blocks).length).flatMap (fun i => l.hung o (some i)) ++ l.hung o none

theorem mem_hungAll {l : Listing} {o : Options} {e : ShownSymbol} :
    e ∈ l.hungAll o ↔ l.Shows o e := by
  simp only [hungAll, List.mem_append, List.mem_flatMap, List.mem_range, mem_hung]
  constructor
  · rintro (⟨i, -, he, -⟩ | ⟨he, -⟩) <;> exact he
  · intro he
    have hplace := Chapter.lastAbove_indexOf? (Chapter.ofBlocks l.blocks) e.line
    cases hi : Chapter.indexOf? (Chapter.ofBlocks l.blocks) e.line with
    | none => exact Or.inr ⟨he, hi ▸ hplace⟩
    | some i =>
      rw [hi] at hplace
      obtain ⟨c, hc, -⟩ := hplace.1
      exact Or.inl ⟨i, (List.getElem?_eq_some_iff.mp hc).1, he, hplace⟩

theorem nodup_hung (l : Listing) (o : Options) (place : Option ℕ) : (l.hung o place).Nodup := by
  refine ((l.shownSymbols_pairwise o).filter _).imp ?_
  rintro a b hab rfl
  rcases hab with hlt | ⟨-, hlt⟩ <;> exact lt_irrefl _ hlt

theorem disjoint_hung {l : Listing} {o : Options} {p q : Option ℕ} (h : p ≠ q) :
    List.Disjoint (l.hung o p) (l.hung o q) := by
  intro e hp hq
  exact h ((mem_hung.mp hp).2.unique (mem_hung.mp hq).2)

theorem nodup_hungAll (l : Listing) (o : Options) : (l.hungAll o).Nodup := by
  refine List.nodup_append'.mpr ⟨List.nodup_flatMap.mpr ⟨fun i _ => l.nodup_hung o _, ?_⟩,
    l.nodup_hung o none, ?_⟩
  · refine List.nodup_range.imp ?_
    intro i j hij
    exact disjoint_hung (by simpa using hij)
  · intro e he hn
    obtain ⟨i, -, hi⟩ := List.mem_flatMap.mp he
    exact disjoint_hung (by simp) hi hn

/-- How the symbols hang below the object code: under each chapter, and behind all chapters those
that stand in front of the first. -/
structure Hangs (l : Listing) (o : Options) (node : OutlineNode)
    (hanging : Option ℕ → List ShownSymbol) : Prop where
  name : node.name = "Object Code".toList
  kind : node.kind = .part
  children : node.children =
    (Chapter.ofBlocks l.blocks).zipIdx.map (fun (c, i) =>
      ⟨if c.title = [] then "(untitled)".toList else c.title, .block, ⟨⟨c.start, 0⟩, ⟨c.stop, 0⟩⟩,
        (hanging (some i)).map ShownSymbol.leaf⟩) ++
    (hanging none).map ShownSymbol.leaf
  ordered : ∀ place, (hanging place).Pairwise ShownSymbol.Above
  placed : ∀ place e, e ∈ hanging place ↔
    l.Shows o e ∧ Chapter.LastAbove (Chapter.ofBlocks l.blocks) e.line place

theorem exists_hangs {l : Listing} (h : l.blocks ≠ []) (o : Options) :
    ∃ node, l.codeOutline? o = some node ∧ l.Hangs o node (l.hung o) := by
  obtain ⟨range, hrange⟩ : ∃ range, l.objectCode? = some range := by
    obtain ⟨b, bs, hb⟩ := List.exists_cons_of_ne_nil h
    exact ⟨_, by simp only [objectCode?, hb, List.head?_cons, List.getLast?_cons]; rfl⟩
  have hunder : ∀ place, ((l.symbolLeaves o).filter (·.1 == place)).map (·.2) =
      (l.hung o place).map ShownSymbol.leaf := by
    intro place
    rw [symbolLeaves, visibleSymbols_eq, List.map_map, List.filter_map, List.map_map]
    rfl
  refine ⟨_, by rw [codeOutline?, hrange]; rfl, ?_⟩
  refine ⟨rfl, rfl, ?_, fun place => (l.shownSymbols_pairwise o).filter _, fun _ _ => mem_hung⟩
  simp only [hunder, Chapter.name, List.isEmpty_iff]
  rfl

theorem entries_leaves (es : List ShownSymbol) :
    (es.map ShownSymbol.leaf).flatMap OutlineNode.entries = es.map ShownSymbol.leaf := by
  have hleaf : ∀ e : ShownSymbol, e.leaf.entries = [e.leaf] := fun e => OutlineNode.entries_leaf ..
  simp only [List.flatMap_map, hleaf]
  exact List.map_eq_flatMap.symm

theorem Hangs.entries {l : Listing} {o : Options} {node : OutlineNode}
    (h : l.Hangs o node (l.hung o)) : node.entries = (l.hungAll o).map ShownSymbol.leaf := by
  obtain ⟨name, kind, span, children⟩ := node
  obtain rfl : kind = .part := h.kind
  have hchildren := h.children
  dsimp only at hchildren
  have hchapter : ∀ (name : Text) (span : Span) (es : List ShownSymbol),
      (OutlineNode.mk name .block span (es.map ShownSymbol.leaf)).entries =
        es.map ShownSymbol.leaf := by
    intro name span es
    rw [OutlineNode.entries_of_kind_ne (by decide), entries_leaves]
  rw [OutlineNode.entries_of_kind_ne (by decide), hchildren, List.flatMap_append, entries_leaves,
    List.flatMap_map, hungAll, List.map_append, List.map_flatMap]
  simp only [hchapter]
  rw [List.range_eq_range', ← List.zipIdx_map_snd, List.flatMap_map]

theorem entriesOf_parts {l : Listing} {o : Options} {node : OutlineNode}
    (h : l.codeOutline? o = some node) : node ∈ l.parts o ∧
      (l.parts o).flatMap OutlineNode.entries = node.entries := by
  have hreport : ∀ r, (l.reportOutline? r).toList.flatMap OutlineNode.entries = [] := by
    intro r
    rw [reportOutline?]
    cases l.reports.find? r with
    | none => rfl
    | some range => simp [OutlineNode.entries_of_kind_ne]
  refine ⟨?_, ?_⟩
  · refine List.mem_flatMap.mpr ⟨.externalSymbols, by decide, ?_⟩
    simp [h]
  · rw [parts, List.flatMap_assoc]
    simp only [List.flatMap_append, hreport, List.nil_append, h, Report.all, List.flatMap_cons,
      List.flatMap_nil]
    simp

theorem entries_outline {l : Listing} {o : Options} {node : OutlineNode} {listings : List Listing}
    {i : ℕ} (h : l.codeOutline? o = some node) (hi : listings[i]? = some l) :
    ∃ root, (outline listings o)[i]? = some root ∧ node ∈ root.children ∧
      root.entries = node.entries := by
  obtain ⟨hmem, hentries⟩ := entriesOf_parts h
  obtain ⟨name, hroot⟩ :
      ∃ name, (outline listings o)[i]? = some ⟨name, .listing, l.span, l.parts o⟩ := by
    simp [outline, numbered, hi]
  refine ⟨_, hroot, hmem, ?_⟩
  rw [OutlineNode.entries_of_kind_ne (by decide), hentries]

section
variable {doc : Document} {l : Listing} (hl : l ∈ doc.listings)
include hl

/-- In a listing that was read every symbol has a chapter. -/
theorem hung_none (o : Options) : l.hung o none = [] := by
  refine List.eq_nil_iff_forall_not_mem.mpr fun e he => ?_
  obtain ⟨⟨-, -, n, -, hline⟩, habove⟩ := mem_hung.mp he
  obtain ⟨b, hb, hble⟩ := exists_block_above hl hline
  obtain ⟨c, hc, hcle⟩ := Chapter.exists_start_le hb
  have := habove c hc
  omega

theorem chapters_before : (Chapter.ofBlocks l.blocks).Pairwise Chapter.Before := by
  obtain ⟨hwithin, -⟩ := blocks_spaced (doc.settled_listings.indexed l hl)
  refine Chapter.before_ofBlocks ?_ (blocks_apart hl)
  intro b hb
  have := hwithin b hb
  omega

end
end Listing

/-- The outline loses no symbol and shows none twice. The chapters are the groups of adjacent blocks
under one title, and below them hang the symbols that are no literals and have a definition in print.
In a listing that was read the chapters keep apart, and every symbol has one. -/
theorem codeOutline_complete (l : Listing) (o : Options) (h : l.blocks ≠ []) :
    let chapters := Chapter.ofBlocks l.blocks
    Chapter.Divides chapters l.blocks ∧ chapters.IsChain (fun a b => a.title ≠ b.title) ∧
    ∃ node hanging, l.codeOutline? o = some node ∧ l.Hangs o node hanging ∧
      (∃ symbols : List ShownSymbol, (symbols.map (·.index)).Nodup ∧
        (∀ i, i ∈ symbols.map (·.index) ↔ ∃ s, l.symbols.values[i]? = some s ∧
          s.name.head? ≠ some o.literalMark ∧ ∃ n ∈ s.defined, n ∈ l.statements.keys) ∧
        (∀ e ∈ symbols, l.Shows o e) ∧ node.entries = symbols.map ShownSymbol.leaf) ∧
      (∀ (listings : List Listing) (i : ℕ), listings[i]? = some l →
        ∃ root, (outline listings o)[i]? = some root ∧ node ∈ root.children ∧
          root.entries = node.entries) ∧
      ∀ doc : Document, l ∈ doc.listings → hanging none = [] ∧
        chapters.Pairwise fun a b => a.stop ≤ b.start ∧ a.start < b.start := by
  intro chapters
  obtain ⟨node, hnode, hangs⟩ := Listing.exists_hangs h o
  refine ⟨Chapter.divides_ofBlocks l.blocks, Chapter.alternate_ofBlocks l.blocks, node, l.hung o,
    hnode, hangs, ⟨l.hungAll o, ?_, ?_, fun e => Listing.mem_hungAll.mp, hangs.entries⟩,
    fun listings i hi => Listing.entries_outline hnode hi, ?_⟩
  · refine (l.nodup_hungAll o).map_on ?_
    intro a ha b hb hab
    exact (Listing.mem_hungAll.mp ha).eq_of_index_eq (Listing.mem_hungAll.mp hb) hab
  · intro i
    simp only [List.mem_map, Listing.mem_hungAll]
    constructor
    · rintro ⟨e, ⟨hs, hlit, hline⟩, rfl⟩
      exact ⟨e.symbol, hs, hlit, Listing.exists_printedAt_iff.mp ⟨e.line, hline⟩⟩
    · rintro ⟨s, hs, hlit, hdefined⟩
      obtain ⟨line, hline⟩ := Listing.exists_printedAt_iff.mpr hdefined
      exact ⟨⟨i, s, line⟩, ⟨hs, hlit, hline⟩, rfl⟩
  · intro doc hl
    refine ⟨Listing.hung_none hl o, (Listing.chapters_before hl).imp ?_⟩
    rintro a b ⟨hlt, hle⟩
    exact ⟨hle, hlt.trans_le hle⟩

/-- Object code under two titles, with a label on each page. -/
def chaptersSample : Document where
  uri := "sample"
  lines :=
    let columns := "  Loc  Object Code    Addr1 Addr2  Stmt   Source Statement".toList
    [Line.reportRow .optionSummary 1, Line.titleRow "SAMPLE   FIRST".toList 1, columns,
      "000000                00000 00018     1 MAIN     CSECT".toList,
      Line.titleRow "SAMPLE   SECOND".toList 1, columns,
      "000004 18CF                           2 LOOP     LR    12,15".toList, "Return Code 004".toList]

def chaptersListing : Listing := chaptersSample.listings.headD (.startingAt 0 false)

theorem chaptersListing_spec : chaptersListing ∈ chaptersSample.listings ∧
    (chaptersListing.symbols.values.map fun s => (s.name, chaptersListing.definitionLine? s)) =
      [("MAIN".toList, some 3), ("LOOP".toList, some 6)] ∧
    Chapter.ofBlocks chaptersListing.blocks = [⟨"FIRST".toList, 1, 4⟩, ⟨"SECOND".toList, 4, 7⟩] := by
  have he : chaptersSample.listings.map (fun l =>
      (l.symbols.values.map fun s => (s.name, l.definitionLine? s), Chapter.ofBlocks l.blocks)) =
      [([("MAIN".toList, some 3), ("LOOP".toList, some 6)],
        [⟨"FIRST".toList, 1, 4⟩, ⟨"SECOND".toList, 4, 7⟩])] := by decide +kernel
  obtain ⟨l, hs, he⟩ := List.map_eq_singleton_iff.mp he
  have hi : chaptersListing = l := by rw [chaptersListing, hs, List.headD_cons]
  rw [hi, hs]
  exact ⟨by simp, congrArg Prod.fst he, congrArg Prod.snd he⟩

theorem codeOutline_complete_chaptersListing : chaptersListing ∈ chaptersSample.listings ∧
    chaptersListing.blocks ≠ [] ∧ ∃ node hanging leaves,
      chaptersListing.codeOutline? .standard = some node ∧
      chaptersListing.Hangs .standard node hanging ∧ hanging none = [] ∧
      ⟨"SECOND".toList, .block, ⟨⟨4, 0⟩, ⟨7, 0⟩⟩, leaves⟩ ∈ node.children ∧
      ⟨"LOOP".toList, .entry, ⟨⟨6, 0⟩, ⟨6, 0⟩⟩, []⟩ ∈ leaves := by
  obtain ⟨hl, hsymbols, hchapters⟩ := chaptersListing_spec
  have hne : chaptersListing.blocks ≠ [] := by
    intro hnil
    rw [hnil] at hchapters
    cases hchapters
  obtain ⟨-, -, node, hanging, hnode, hangs, -, -, hscanned⟩ :=
    codeOutline_complete chaptersListing .standard hne
  have hsecond : ((chaptersListing.symbols.values.map fun s =>
      (s.name, chaptersListing.definitionLine? s))[1]?) = some ("LOOP".toList, some 6) := by
    rw [hsymbols]
    rfl
  rw [List.getElem?_map, Option.map_eq_some_iff] at hsecond
  obtain ⟨s, hs, hloop⟩ := hsecond
  obtain ⟨hname, hline⟩ := Prod.mk.inj hloop
  have hloop : ⟨1, s, 6⟩ ∈ hanging (some 1) := by
    refine (hangs.placed _ _).mpr ⟨⟨hs, ?_, Listing.definitionLine?_eq_some_iff.mp hline⟩, ?_⟩
    · dsimp only
      rw [hname]
      decide
    · rw [hchapters, Chapter.lastAbove_iff]
      rfl
  refine ⟨hl, hne, node, hanging, (hanging (some 1)).map ShownSymbol.leaf, hnode, hangs,
    (hscanned _ hl).1, ?_, List.mem_map.mpr ⟨⟨1, s, 6⟩, hloop, ?_⟩⟩
  · rw [hangs.children, hchapters]
    refine List.mem_append_left _ (List.mem_map.mpr ⟨(⟨"SECOND".toList, 4, 7⟩, 1), ?_, rfl⟩)
    exact List.mem_cons_of_mem _ List.mem_cons_self
  · rw [ShownSymbol.leaf, hname]

end ListingIndex
