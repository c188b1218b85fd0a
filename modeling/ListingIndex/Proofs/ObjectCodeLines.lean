import Mathlib
import ListingIndex.Proofs.CutNames
import ListingIndex.Proofs.PageTitles

/-! The lines from which a name in the source columns is read. A name that is cut goes on in the line
of object code before or behind, and the headers between two blocks are left out. A block may be empty,
though, with nothing between its column header and the next boundary. For a cursor beside such a block
a line is read that is no object code. -/
namespace ListingIndex
open Line Token

namespace Draft

/-- Every block stands below a column header, and a boundary ends it, or else line `m`. -/
def Enclosed (d : Draft) (bs : List Break) : Prop :=
  ∀ m, ∀ b ∈ d.blocksAt m,
    (∃ x ∈ bs, x.number + 1 = b.codeStart ∧ ∃ layout c, x.boundary = .columns layout c) ∧
      (b.stop = m ∨ ∃ x ∈ bs, x.number = b.stop)

theorem enclosed_startingAt (start : ℕ) (indicator : Bool) : (startingAt start indicator).Enclosed [] := by
  intro m b hb
  cases hb

section
variable {d : Draft} {bs : List Break} (h : d.Enclosed bs)
include h

theorem Enclosed.congr {e : Draft} (he : e.extents = d.extents) : e.Enclosed bs := by
  intro m
  rw [(extents_congr he m).2.1]
  exact h m

/-- What was open in front of a boundary ends there. -/
theorem Enclosed.ends (n : ℕ) (x : Boundary) : ∀ b ∈ d.blocksAt n,
    (∃ y ∈ bs ++ [⟨n, x⟩], y.number + 1 = b.codeStart ∧ ∃ layout c, y.boundary = .columns layout c) ∧
      ∃ y ∈ bs ++ [⟨n, x⟩], y.number = b.stop := by
  intro b hb
  obtain ⟨⟨y, hy, hhead⟩, hstop⟩ := h n b hb
  refine ⟨⟨y, List.mem_append_left _ hy, hhead⟩, ?_⟩
  rcases hstop with hstop | ⟨z, hz, hstop⟩
  · exact ⟨⟨n, x⟩, by simp, hstop.symm⟩
  · exact ⟨z, List.mem_append_left _ hz, hstop⟩

theorem Enclosed.addBoundary (n width : ℕ) {x : Boundary} (hx : x.isBreak) :
    (d.addBoundary n width x).Enclosed (bs ++ [⟨n, x⟩]) := by
  have he := h.ends n x
  intro m b hb
  rw [blocksAt_addBoundary] at hb
  cases x with
  | message code text => cases hx
  | returnCode => exact ⟨(he b hb).1, Or.inr (he b hb).2⟩
  | report r => exact ⟨(he b hb).1, Or.inr (he b hb).2⟩
  | page title => exact ⟨(he b hb).1, Or.inr (he b hb).2⟩
  | columns layout c =>
    rcases List.mem_append.mp hb with hb | hb
    · exact ⟨(he b hb).1, Or.inr (he b hb).2⟩
    · rw [List.mem_singleton.mp hb]
      exact ⟨⟨⟨n, .columns layout c⟩, by simp, rfl, layout, c, rfl⟩, Or.inl rfl⟩

theorem Enclosed.addLine (doc : Document) (n : ℕ) : (d.addLine n (doc.line n)).Enclosed
    (bs ++ (doc.breakAt? d.listing.indicator n).toList) := by
  unfold Document.breakAt?
  cases hb : boundary? d.listing.indicator (doc.line n) with
  | none =>
    rw [addLine_record hb, Option.filter_none, Option.map_none, Option.toList_none, List.append_nil]
    exact h.congr (d.recordFrame n (doc.line n)).extents
  | some b =>
    rw [addLine_boundary hb]
    cases hi : b.isBreak with
    | true =>
      rw [Option.filter_some_pos hi]
      exact h.addBoundary n _ hi
    | false =>
      rw [Option.filter_some_neg (by simp [hi]), Option.map_none, Option.toList_none, List.append_nil]
      cases b with
      | message code text => exact h.congr rfl
      | _ => cases hi

end
end Draft

theorem Document.enclosed_draft (doc : Document) (start : ℕ) (indicator : Bool) {n : ℕ}
    (h : start ≤ n) :
    (doc.draft start indicator n).Enclosed (doc.breaks start indicator n) := by
  induction n, h using Nat.le_induction with
  | base =>
    rw [draft_start, breaks, readings_start]
    exact Draft.enclosed_startingAt start indicator
  | succ n hn ih =>
    rw [breaks_succ doc start indicator hn]
    cases hr : doc.readsBelow start indicator (n - start) with
    | true =>
      have ha := ih.addLine doc n
      rw [indicator_draft] at ha
      rw [draft_succ_of_reads hn hr, if_pos rfl]
      exact ha
    | false =>
      rw [draft_succ_of_hidden hn hr, if_neg (by simp), List.append_nil]
      exact ih

namespace Listing

/-- Line `n` shows object code: it stands below the column header of a block and above its end. -/
def InObjectCode (l : Listing) (n : ℕ) : Prop := ∃ b ∈ l.blocks, b.codeStart ≤ n ∧ n < b.stop

/-- Line `n` is a column header of the listing. -/
def IsHeader (l : Listing) (doc : Document) (n : ℕ) : Prop :=
  ∃ layout c, boundary? l.indicator (doc.line n) = some (.columns layout c)

/-- For a cursor on line `p` of object code line `n` is read in place of one: the column header of an
empty block above the block of `p`, or the line that ends an empty block below it. -/
inductive Stray (l : Listing) (p : ℕ) : ℕ → Prop
  | above {i : ℕ} {e b : CodeBlock} (he : l.blocks[i]? = some e) (hb : l.blocks[i + 1]? = some b)
    (hempty : e.codeStart = e.stop) (hp : p = b.codeStart) : Stray l p (e.codeStart - 1)
  | below {i : ℕ} {b e : CodeBlock} (hb : l.blocks[i]? = some b) (he : l.blocks[i + 1]? = some e)
    (hempty : e.codeStart = e.stop) (hp : p + 1 = b.stop) : Stray l p e.stop

section
variable {doc : Document} {l : Listing} (h : doc.Indexes l)
include h

/-- A block stands below a column header, and a boundary ends it or the listing does. -/
theorem block_enclosed {b : CodeBlock} (hb : b ∈ l.blocks) :
    (∃ n, n + 1 = b.codeStart ∧ l.IsHeader doc n) ∧ (b.stop = l.stop ∨ b.stop ∈ l.breaks doc) := by
  have he := doc.enclosed_draft l.start l.indicator h.start_lt.le l.stop
  rw [← blocks_unstarted h] at he
  obtain ⟨⟨x, hx, hn, layout, c, hc⟩, hstop⟩ := he _ (List.mem_map_of_mem hb)
  have hread := ((doc.mem_breaks ..).mp hx).2.1
  refine ⟨⟨x.number, hn, layout, c, hc ▸ hread⟩, ?_⟩
  rcases hstop with hstop | ⟨y, hy, hstop⟩
  · exact Or.inl hstop
  · exact Or.inr (mem_breaks.mpr ⟨y, hy, hstop⟩)

theorem inObjectCode_or_empty {i : ℕ} {b : CodeBlock} (hb : l.blocks[i]? = some b) :
    (b.codeStart < b.stop ∧ ∀ n, b.codeStart ≤ n → n < b.stop → l.InObjectCode n) ∨
      b.codeStart = b.stop := by
  have hm := List.mem_of_getElem? hb
  rcases ((blocks_spaced h).1 b hm).2.2.1.lt_or_eq with hlt | heq
  · exact Or.inl ⟨hlt, fun n h₁ h₂ => ⟨b, hm, h₁, h₂⟩⟩
  · exact Or.inr heq

theorem lineBefore?_eq_some {p n : ℕ} (hn : l.lineBefore? p = some n) :
    l.InObjectCode n ∨ l.Stray p n := by
  obtain ⟨i, hi, hn⟩ := Option.bind_eq_some_iff.mp hn
  obtain ⟨b, hb, hstart, hstop⟩ := (blockAt?_eq_some_iff (blocks_spaced h).2).mp hi
  obtain ⟨b', hb', hn⟩ := Option.bind_eq_some_iff.mp hn
  obtain rfl : b = b' := Option.some.inj (hb.symm.trans hb')
  split at hn
  case isTrue hlt =>
    obtain rfl := Option.some.inj hn
    exact Or.inl ⟨b, List.mem_of_getElem? hb, by omega, by omega⟩
  case isFalse hge =>
    cases i with
    | zero => cases hn
    | succ i =>
      obtain ⟨e, he, hn⟩ := Option.bind_eq_some_iff.mp hn
      rw [Option.ite_none_left_eq_some, Option.some.injEq] at hn
      obtain ⟨hpos, rfl⟩ := hn
      rcases inObjectCode_or_empty h he with ⟨hlt, hcode⟩ | hempty
      · exact Or.inl (hcode _ (by omega) (by omega))
      · rw [← hempty]
        exact Or.inr (.above he hb hempty (by omega))

theorem lineAfter?_eq_some {p n : ℕ} (hn : l.lineAfter? p = some n) :
    l.InObjectCode n ∨ l.Stray p n := by
  obtain ⟨i, hi, hn⟩ := Option.bind_eq_some_iff.mp hn
  obtain ⟨b, hb, hstart, hstop⟩ := (blockAt?_eq_some_iff (blocks_spaced h).2).mp hi
  obtain ⟨b', hb', hn⟩ := Option.bind_eq_some_iff.mp hn
  obtain rfl : b = b' := Option.some.inj (hb.symm.trans hb')
  split at hn
  case isTrue hlt =>
    obtain rfl := Option.some.inj hn
    exact Or.inl ⟨b, List.mem_of_getElem? hb, by omega, by omega⟩
  case isFalse hge =>
    obtain ⟨e, he, rfl⟩ := Option.map_eq_some_iff.mp hn
    rcases inObjectCode_or_empty h he with ⟨hlt, hcode⟩ | hempty
    · exact Or.inl (hcode _ le_rfl hlt)
    · rw [hempty]
      exact Or.inr (.below hb he hempty (by omega))

/-- The lines around an empty block show no object code, for other blocks end above or begin below. -/
theorem not_inObjectCode_beside {i n : ℕ} {e : CodeBlock} (he : l.blocks[i]? = some e)
    (hempty : e.codeStart = e.stop) (hn : n + 1 = e.codeStart ∨ n = e.stop) : ¬ l.InObjectCode n := by
  intro hc
  have ho := (blocks_spaced h).2
  obtain ⟨b, hb, h₁, h₂⟩ := hc
  obtain ⟨j, hj, rfl⟩ := List.mem_iff_getElem.mp hb
  obtain ⟨hi, rfl⟩ := List.getElem?_eq_some_iff.mp he
  rcases Nat.lt_trichotomy i j with hij | rfl | hij
  · have := (List.pairwise_iff_getElem.mp ho i j hi hj hij).1
    omega
  · omega
  · have := (List.pairwise_iff_getElem.mp ho j i hj hi hij).1
    omega

/-- Stray lines stand beside an empty block, outside of object code. -/
theorem Stray.spec {p n : ℕ} (hs : l.Stray p n) : ¬ l.InObjectCode n ∧
    ∃ e ∈ l.blocks, e.codeStart = e.stop ∧ (n + 1 = e.codeStart ∧ l.IsHeader doc n ∨
      n = e.stop ∧ (n = l.stop ∨ n ∈ l.breaks doc)) := by
  cases hs with
  | @above i e b he hb hempty hp =>
    have hm := List.mem_of_getElem? he
    obtain ⟨n, hn, hhead⟩ := (block_enclosed h hm).1
    obtain rfl : n = e.codeStart - 1 := by omega
    exact ⟨not_inObjectCode_beside h he hempty (Or.inl hn), e, hm, hempty, Or.inl ⟨hn, hhead⟩⟩
  | @below i b e hb he hempty hp =>
    have hm := List.mem_of_getElem? he
    exact ⟨not_inObjectCode_beside h he hempty (Or.inr rfl), e, hm, hempty,
      Or.inr ⟨rfl, (block_enclosed h hm).2⟩⟩

end

/-- A name in the source columns depends on the lines from which it is read. -/
theorem nameAt?_congr {l : Listing} {doc doc' : Document} {o : Options} {p : Position} {left right : ℕ}
    (hw : l.sourceWindow? = some (left, right)) (hb : (l.blockAt? p.line).isSome)
    (hleft : left ≤ p.character) (hright : p.character < right)
    (hline : doc.line p.line = doc'.line p.line)
    (hbefore : ∀ n, l.lineBefore? p.line = some n → doc.line n = doc'.line n)
    (hafter : ∀ n, l.lineAfter? p.line = some n → doc.line n = doc'.line n) :
    l.nameAt? doc o p = l.nameAt? doc' o p := by
  have hrow : ∀ n, doc.line n = doc'.line n → row doc n = row doc' n := by
    intro n hn
    rw [row, row, hn]
  have helim : ∀ m : Option ℕ, (∀ n, m = some n → doc.line n = doc'.line n) →
      m.elim [] (row doc) = m.elim [] (row doc') := by
    intro m hm
    cases m with
    | none => rfl
    | some n => exact hrow n (hm n rfl)
  rw [nameAt?_eq_inWindow hw hb hleft hright, nameAt?_eq_inWindow hw hb hleft hright, hrow _ hline,
    helim _ hbefore, helim _ hafter]

end Listing

/-- A name in the source columns of object code is read from lines of object code and from stray lines
alone, and stray lines stand beside empty blocks: each is the column header of one, or the boundary
that ends it, or the first line behind the listing. Where no block is empty, two documents with the
same object code give the same names. -/
theorem nameAt?_object_code (doc doc' : Document) (l : Listing) (o : Options) (p : Position)
    (left right : ℕ) (hl : l ∈ doc.listings) (hw : l.sourceWindow? = some (left, right))
    (hp : l.InObjectCode p.line) (hleft : left ≤ p.character) (hright : p.character < right) :
    ((∀ n, l.InObjectCode n ∨ l.Stray p.line n → doc.line n = doc'.line n) →
      l.nameAt? doc o p = l.nameAt? doc' o p) ∧
    (∀ n, l.Stray p.line n → ¬ l.InObjectCode n ∧ ∃ e ∈ l.blocks, e.codeStart = e.stop ∧
      (n + 1 = e.codeStart ∧ l.IsHeader doc n ∨ n = e.stop ∧ (n = l.stop ∨ n ∈ l.breaks doc))) ∧
    ((∀ b ∈ l.blocks, b.codeStart ≠ b.stop) → (∀ n, l.InObjectCode n → doc.line n = doc'.line n) →
      l.nameAt? doc o p = l.nameAt? doc' o p) := by
  have hi := doc.settled_listings.indexed l hl
  have hstray : ∀ n, l.Stray p.line n → _ := fun n hs => Listing.Stray.spec hi hs
  have hsame : (∀ n, l.InObjectCode n ∨ l.Stray p.line n → doc.line n = doc'.line n) →
      l.nameAt? doc o p = l.nameAt? doc' o p := by
    intro hd
    obtain ⟨b, hb, h₁, h₂⟩ := hp
    obtain ⟨j, hj⟩ := List.mem_iff_getElem?.mp hb
    have hat : l.blockAt? p.line = some j :=
      (Listing.blockAt?_eq_some_iff (Listing.blocks_spaced hi).2).mpr ⟨b, hj, h₁, h₂⟩
    exact Listing.nameAt?_congr hw (by rw [hat]; rfl) hleft hright (hd _ (Or.inl ⟨b, hb, h₁, h₂⟩))
      (fun n hn => hd n (Listing.lineBefore?_eq_some hi hn))
      (fun n hn => hd n (Listing.lineAfter?_eq_some hi hn))
  refine ⟨hsame, hstray, ?_⟩
  intro hfull hd
  refine hsame fun n hn => ?_
  rcases hn with hn | hn
  · exact hd n hn
  · obtain ⟨-, e, he, hempty, -⟩ := hstray n hn
    exact absurd hempty (hfull e he)

/-- One line of object code between two empty blocks. -/
def strayDocument (title last : Text) : Document where
  uri := "sample"
  lines :=
    let columns : Text := "  Loc  Object Code    Addr1 Addr2  Stmt   Source Statement".toList
    let statement : Text := "000000 5810 C000            0C000     1 FIELD1   L     R1,".toList
    [reportRow .optionSummary 1, titleRow title 1, columns, titleRow [] 1, columns,
      statement ++ List.replicate 47 ' ' ++ "LONGNAX".toList, titleRow title 1, columns,
      titleRow last 1]

def straySample : Document :=
  strayDocument "SAMPLE".toList (List.replicate 41 ' ' ++ Report.symbolReferences.title)

def strayListing : Listing := straySample.listings.headD (.startingAt 0 false)

theorem strayListing_spec : strayListing ∈ straySample.listings ∧
    strayListing.sourceWindow? = some (40, 111) ∧
    strayListing.blocks.map (fun b => (b.codeStart, b.stop)) = [(3, 3), (5, 6), (8, 8)] ∧
    strayListing.nameAt? straySample .standard ⟨5, 106⟩ = some "LONGNAL".toList ∧
    strayListing.nameAt? (strayDocument [] []) .standard ⟨5, 106⟩ = some "LONGNA".toList := by
  decide +kernel

theorem strayListing_block {b : CodeBlock} (hb : b ∈ strayListing.blocks) :
    (b.codeStart, b.stop) ∈ [(3, 3), (5, 6), (8, 8)] := by
  rw [← strayListing_spec.2.2.1]
  exact List.mem_map_of_mem hb

theorem strayListing_inObjectCode {n : ℕ} : strayListing.InObjectCode n ↔ n = 5 := by
  constructor
  · intro h
    obtain ⟨b, hb, h₁, h₂⟩ := h
    have hm := strayListing_block hb
    simp only [List.mem_cons, Prod.mk.injEq, List.not_mem_nil, or_false] at hm
    omega
  · intro h
    have hm : (5, 6) ∈ strayListing.blocks.map (fun b => (b.codeStart, b.stop)) := by
      rw [strayListing_spec.2.2.1]
      decide
    obtain ⟨b, hb, he⟩ := List.mem_map.mp hm
    obtain ⟨h₁, h₂⟩ := Prod.mk.inj he
    exact ⟨b, hb, by omega, by omega⟩

/-- The titles of the pages do not count, but the report below the last header is read. -/
theorem nameAt?_object_code_strayListing :
    strayListing ∈ straySample.listings ∧ strayListing.InObjectCode 5 ∧
    strayListing.nameAt? straySample .standard ⟨5, 106⟩ = some "LONGNAL".toList ∧
    strayListing.nameAt? (strayDocument "OTHER".toList (List.replicate 41 ' ' ++
      Report.symbolReferences.title)) .standard ⟨5, 106⟩ = some "LONGNAL".toList := by
  obtain ⟨hl, hw, -, hname, -⟩ := strayListing_spec
  have hp : strayListing.InObjectCode 5 := strayListing_inObjectCode.mpr rfl
  obtain ⟨hsame, hstray, -⟩ := nameAt?_object_code straySample (strayDocument "OTHER".toList
    (List.replicate 41 ' ' ++ Report.symbolReferences.title)) strayListing .standard ⟨5, 106⟩ 40 111 hl hw
    hp (by decide) (by decide)
  refine ⟨hl, hp, hname, (hsame fun n hn => ?_).symm.trans hname⟩
  have hlines : n = 2 ∨ n = 3 ∨ n = 5 ∨ n = 7 ∨ n = 8 := by
    rcases hn with hn | hn
    · have := strayListing_inObjectCode.mp hn
      omega
    · obtain ⟨-, e, he, hempty, hat⟩ := hstray n hn
      have hm := strayListing_block he
      simp only [List.mem_cons, Prod.mk.injEq, List.not_mem_nil, or_false] at hm
      have hn : n + 1 = e.codeStart ∨ n = e.stop := hat.imp And.left And.left
      omega
  rcases hlines with rfl | rfl | rfl | rfl | rfl <;> rfl

/-- Two documents with the same object code need not give the same name. -/
theorem name_from_stray_line : ¬ ∀ (doc doc' : Document) (l : Listing) (o : Options) (p : Position)
    (left right : ℕ), l ∈ doc.listings → l.sourceWindow? = some (left, right) →
    l.InObjectCode p.line → left ≤ p.character → p.character < right →
    (∀ n, l.InObjectCode n → doc.line n = doc'.line n) →
    l.nameAt? doc o p = l.nameAt? doc' o p := by
  intro hall
  obtain ⟨hl, hw, -, hname, hother⟩ := strayListing_spec
  have heq := hall straySample (strayDocument [] []) strayListing .standard ⟨5, 106⟩ 40 111 hl hw
    (strayListing_inObjectCode.mpr rfl) (by decide) (by decide) fun n hn => by
      rw [strayListing_inObjectCode.mp hn]
      rfl
  rw [hname, hother] at heq
  revert heq
  decide

end ListingIndex
