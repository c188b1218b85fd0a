import Mathlib
import ListingIndex.Proofs.Ranges
import ListingIndex.Proofs.Runs

/-! A name that the sentinel column cuts. Its head ends one line of object code and its tail starts the
next one, below the indent. A cursor in the head finds all of the name. A cursor in the tail finds what
of the head stands behind the indent, because the columns in front of the indent are left out on both
lines. -/
namespace ListingIndex
open Text Line

namespace Token
variable {w : Window} {previous this next : List Cell} {h e c : ℕ}

/-- The sentinel column is there, and no blank stands in it. -/
def HasSentinel (row : List Cell) (sentinel : ℕ) : Prop := ∃ c, row[sentinel]? = some c ∧ c ≠ some ' '

theorem isContinued_iff {row : List Cell} {sentinel : ℕ} :
    isContinued row sentinel ↔ HasSentinel row sentinel := by
  simp [isContinued, HasSentinel, Option.any_eq_true]

instance (row : List Cell) (sentinel : ℕ) : Decidable (HasSentinel row sentinel) :=
  decidable_of_iff _ isContinued_iff

/-- The run of columns `h` up to the sentinel goes on in the next row, in the columns behind the indent
up to `e`, and ends there. -/
structure Cut (w : Window) (this next : List Cell) (h e : ℕ) : Prop where
  sentinel : HasSentinel this w.right
  head : RunBefore this w.left h w.right
  head_lt : h < w.right
  tail : RunFrom next (w.left + w.indent) e w.right
  ends : e < w.right ∨ ¬ HasSentinel next w.right

theorem named_of_ne_nil {run : Text} (hr : run ≠ []) : named run = some (canonical run) := by
  rw [named, if_neg (by simpa using hr)]

theorem Cut.length_head (cut : Cut w this next h e) {s : ℕ} (hs : h ≤ s) :
    (textIn this s w.right).length = w.right - s :=
  length_textIn fun k h₁ h₂ => cut.head.symbols k (hs.trans h₁) h₂

theorem Cut.head_ne_nil (cut : Cut w this next h e) {s : ℕ} (hs : h ≤ s) (hr : s < w.right) :
    textIn this s w.right ≠ [] := by
  apply List.ne_nil_of_length_pos
  rw [cut.length_head hs]
  omega

theorem Cut.length_tail (cut : Cut w this next h e) {s : ℕ} (hs : w.left + w.indent ≤ s) :
    (textIn next s e).length = e - s :=
  length_textIn fun k h₁ h₂ => (cut.tail.symbols k (hs.trans h₁) h₂).2

theorem Window.continuation_eq (hw : w.left + w.indent < 2 ^ 64) :
    w.continuation = w.left + w.indent :=
  Nat.mod_eq_of_lt hw

/-- From the head all of the name is found. -/
theorem Cut.inWindow_head (cut : Cut w this next h e) (hw : w.left + w.indent < 2 ^ 64)
    (hp : ¬ HasSentinel previous w.right) (hc : h ≤ c) (hr : c < w.right) :
    inWindow w previous this next c =
      some (canonical (textIn this h w.right ++ textIn next (w.left + w.indent) e)) := by
  have hbefore : RunBefore this w.left h c :=
    ⟨cut.head.first_le, hc, fun k h₁ h₂ => cut.head.symbols k h₁ (h₂.trans hr), cut.head.start⟩
  have hafter : RunFrom this c w.right w.right :=
    ⟨hr.le, fun k h₁ h₂ => ⟨h₂, cut.head.symbols k (hc.trans h₁) h₂⟩, .inl le_rfl⟩
  have hlen : c + (textIn this c w.right).length = w.right := by
    rw [cut.length_head hc]; omega
  have hne : textIn this h w.right ≠ [] := cut.head_ne_nil le_rfl cut.head_lt
  simp only [inWindow, Window.continuation_eq hw, isContinued_iff, hp, if_false, false_and,
    cut.sentinel, true_and]
  rw [hbefore.runBefore_eq, hafter.runFrom_eq, if_pos hlen, cut.tail.runFrom_eq, List.nil_append,
    textIn_append hc hr.le, named_of_ne_nil (by simp [hne])]

/-- From the tail the head is found as far back as the indent. -/
theorem Cut.inWindow_tail (cut : Cut w previous this h e) (hw : w.left + w.indent < 2 ^ 64)
    (hc : w.left + w.indent ≤ c) (he : c ≤ e) (hr : c < w.right) : inWindow w previous this next c =
      some (canonical (textIn previous (max h (w.left + w.indent)) w.right ++
        textIn this (w.left + w.indent) e)) := by
  set first := w.left + w.indent with hfirst
  have hbefore : RunBefore this first first c :=
    ⟨le_rfl, hc, fun k h₁ h₂ => (cut.tail.symbols k h₁ (h₂.trans_le he)).2, .inl rfl⟩
  have hafter : RunFrom this c e w.right :=
    ⟨he, fun k h₁ h₂ => cut.tail.symbols k (hc.trans h₁) h₂, cut.tail.ends⟩
  have hhead : RunBefore previous first (max h first) w.right := by
    have hlt := cut.head_lt
    refine ⟨le_max_right _ _, by omega, fun k h₁ h₂ =>
      cut.head.symbols k ((le_max_left _ _).trans h₁) h₂, ?_⟩
    rcases Nat.lt_or_ge first h with hi | hi
    · rw [max_eq_left hi.le]
      exact .inr (cut.head.start.resolve_left (by omega))
    · exact .inl (max_eq_right hi)
  have hlen : c = first + (textIn this first c).length := by
    rw [length_textIn hbefore.symbols]; omega
  have hstop : ¬ (HasSentinel this w.right ∧ c + (textIn this c e).length = w.right) := by
    rw [cut.length_tail hc]
    rintro ⟨hs, hsum⟩
    exact cut.ends.elim (by omega) (· hs)
  have hne : textIn previous (max h first) w.right ≠ [] :=
    cut.head_ne_nil (le_max_left _ _) (max_lt cut.head_lt (hc.trans_lt hr))
  simp only [inWindow, Window.continuation_eq hw, isContinued_iff, cut.sentinel, if_true, true_and,
    ← hfirst]
  rw [hbefore.runBefore_eq, hafter.runFrom_eq, if_pos hlen, hhead.runBefore_eq, if_neg hstop,
    List.append_nil, List.append_assoc, textIn_append hc he, named_of_ne_nil (by simp [hne])]

end Token

namespace Listing
open Token

/-- Line `q` of object code is next to line `p`, in its block or across the page headers between two
blocks that are not empty. -/
inductive Next (l : Listing) : ℕ → ℕ → Prop
  | below {i n : ℕ} {b : CodeBlock} (hb : l.blocks[i]? = some b) (hn : b.codeStart ≤ n)
    (hs : n + 1 < b.stop) : Next l n (n + 1)
  | across {i : ℕ} {b c : CodeBlock} (hb : l.blocks[i]? = some b) (hc : l.blocks[i + 1]? = some c)
    (hn : b.codeStart < b.stop) (hs : c.codeStart < c.stop) : Next l (b.stop - 1) c.codeStart

/-- The line in which the head of a name is looked for that starts line `n`. -/
def lineBefore? (l : Listing) (n : ℕ) : Option ℕ :=
  (l.blockAt? n).bind fun i => Token.lineBefore? l.blocks i n

/-- The line in which the tail of a name is looked for that ends line `n`. -/
def lineAfter? (l : Listing) (n : ℕ) : Option ℕ :=
  (l.blockAt? n).bind fun i => Token.lineAfter? l.blocks i n

variable {l : Listing} {doc : Document} {p q : ℕ}

theorem Next.spec (hn : l.Next p q)
    (ho : l.blocks.Pairwise fun a b => a.stop < b.codeStart ∧ a.start ≤ b.start) :
    (l.blockAt? p).isSome ∧ (l.blockAt? q).isSome ∧ l.lineAfter? p = some q ∧
      l.lineBefore? q = some p := by
  cases hn with
  | @below i _ b hb hn hs =>
    have hp : l.blockAt? p = some i := (blockAt?_eq_some_iff ho).mpr ⟨b, hb, hn, by omega⟩
    have hq : l.blockAt? (p + 1) = some i := (blockAt?_eq_some_iff ho).mpr ⟨b, hb, by omega, hs⟩
    have hlt : b.codeStart < p + 1 := by omega
    simp only [lineAfter?, lineBefore?, Token.lineAfter?, Token.lineBefore?, hp, hq, hb,
      Option.bind_some, Option.bind_eq_bind, if_pos hs, if_pos hlt, Option.isSome_some,
      Nat.add_sub_cancel, and_self]
  | @across i b c hb hc hn hs =>
    have hp : l.blockAt? (b.stop - 1) = some i :=
      (blockAt?_eq_some_iff ho).mpr ⟨b, hb, by omega, by omega⟩
    have hq : l.blockAt? c.codeStart = some (i + 1) :=
      (blockAt?_eq_some_iff ho).mpr ⟨c, hc, le_rfl, hs⟩
    have hstop : ¬ b.stop - 1 + 1 < b.stop := by omega
    have hpos : b.stop ≠ 0 := by omega
    simp only [lineAfter?, lineBefore?, Token.lineAfter?, Token.lineBefore?, hp, hq, hb, hc,
      Option.bind_some, Option.bind_eq_bind, if_neg hstop, lt_irrefl, if_false, if_neg hpos,
      Option.map_some, Option.isSome_some, and_self]

/-- In the source columns a name is looked for in three lines. -/
theorem nameAt?_eq_inWindow {o : Options} {left right c : ℕ} (hw : l.sourceWindow? = some (left, right))
    (hb : (l.blockAt? p).isSome) (hl : left ≤ c) (hr : c < right) :
    l.nameAt? doc o ⟨p, c⟩ = inWindow ⟨left, right, o.continuationIndent⟩
      ((l.lineBefore? p).elim [] (row doc)) (row doc p) ((l.lineAfter? p).elim [] (row doc)) c := by
  obtain ⟨i, hi⟩ := Option.isSome_iff_exists.mp hb
  simp [nameAt?, lineBefore?, lineAfter?, hw, hi, hl, hr]

/-- A cursor in the source columns of a line of object code. -/
def InWindow (l : Listing) (p : Position) : Prop :=
  ∃ left right, l.sourceWindow? = some (left, right) ∧ (l.blockAt? p.line).isSome ∧
    left ≤ p.character ∧ p.character < right

/-- Everywhere else a name is looked for in one line. -/
theorem nameAt?_eq_inRow {o : Options} {p : Position} (h : ¬ l.InWindow p) :
    l.nameAt? doc o p = inRow (row doc p.line) l.indicatorWidth p.character := by
  have hplain : (if p.line < doc.lineCount then inRow (row doc p.line) l.indicatorWidth p.character
      else none) = inRow (row doc p.line) l.indicatorWidth p.character := by
    by_cases hn : p.line < doc.lineCount
    · rw [if_pos hn]
    · rw [if_neg hn, row, Document.line, List.getElem?_eq_none (Nat.le_of_not_lt hn)]
      simp [inRow, runBefore, runFrom, cells, named]
  unfold nameAt?
  rw [hplain]
  cases hw : l.sourceWindow? with
  | none => rfl
  | some w =>
    cases hb : l.blockAt? p.line with
    | none => rfl
    | some i => exact if_neg fun hc => h ⟨w.1, w.2, hw, by rw [hb]; rfl, hc⟩

end Listing

open Token

/-- A name that is cut is found whole from its head. From its tail it is found without the columns of
its head in front of the indent, so that the two lines give one name if and only if the head has
none. -/
theorem nameAt?_cut (doc : Document) (o : Options) (l : Listing) (left right p q h e : ℕ)
    (hl : l ∈ doc.listings) (hw : l.sourceWindow? = some (left, right))
    (ho : left + o.continuationIndent < 2 ^ 64) (hn : l.Next p q)
    (hp : ∀ n, l.lineBefore? p = some n → ¬ HasSentinel (row doc n) right)
    (hc : Cut ⟨left, right, o.continuationIndent⟩ (row doc p) (row doc q) h e) :
    (∀ c, h ≤ c → c < right → l.nameAt? doc o ⟨p, c⟩ = some (canonical
      (textIn (row doc p) h right ++ textIn (row doc q) (left + o.continuationIndent) e))) ∧
    (∀ c, left + o.continuationIndent ≤ c → c ≤ e → c < right →
      l.nameAt? doc o ⟨q, c⟩ = some (canonical
        (textIn (row doc p) (max h (left + o.continuationIndent)) right ++
          textIn (row doc q) (left + o.continuationIndent) e))) ∧
    ∀ c c', h ≤ c → c < right → left + o.continuationIndent ≤ c' → c' ≤ e → c' < right →
      (l.nameAt? doc o ⟨p, c⟩ = l.nameAt? doc o ⟨q, c'⟩ ↔ left + o.continuationIndent ≤ h) := by
  obtain ⟨hbp, hbq, hafter, hbefore⟩ :=
    hn.spec (Listing.blocks_spaced (doc.settled_listings.indexed l hl)).2
  have hfirst : ¬ HasSentinel ((l.lineBefore? p).elim [] (row doc)) right := by
    cases hb : l.lineBefore? p with
    | none => simp [HasSentinel]
    | some n => exact hp n hb
  have hhead : ∀ c, h ≤ c → c < right → l.nameAt? doc o ⟨p, c⟩ = some (canonical
      (textIn (row doc p) h right ++ textIn (row doc q) (left + o.continuationIndent) e)) := by
    intro c h₁ h₂
    rw [Listing.nameAt?_eq_inWindow hw hbp (hc.head.first_le.trans h₁) h₂, hafter]
    exact hc.inWindow_head ho hfirst h₁ h₂
  have htail : ∀ c, left + o.continuationIndent ≤ c → c ≤ e → c < right →
      l.nameAt? doc o ⟨q, c⟩ = some (canonical
        (textIn (row doc p) (max h (left + o.continuationIndent)) right ++
          textIn (row doc q) (left + o.continuationIndent) e)) := by
    intro c h₁ h₂ h₃
    rw [Listing.nameAt?_eq_inWindow hw hbq (by omega) h₃, hbefore]
    exact hc.inWindow_tail ho h₁ h₂ h₃
  refine ⟨hhead, htail, ?_⟩
  intro c c' h₁ h₂ h₃ h₄ h₅
  rw [hhead c h₁ h₂, htail c' h₃ h₄ h₅]
  constructor
  · -- the names differ in length by the columns of the head in front of the indent
    intro heq
    have hlen := congrArg List.length (Option.some.inj heq)
    simp only [length_canonical, List.length_append] at hlen
    have hlong : (textIn (row doc p) h right).length = right - h := hc.length_head le_rfl
    have hshort : (textIn (row doc p) (max h (left + o.continuationIndent)) right).length =
      right - max h (left + o.continuationIndent) := hc.length_head (le_max_left _ _)
    omega
  · intro hi
    rw [max_eq_left hi]

/-- The operand of the first statement starts in front of the indent and ends in the next line. -/
def cutNameSample : Document where
  uri := "sample"
  lines :=
    [reportRow .optionSummary 1, titleRow "SAMPLE".toList 2,
      "  Loc  Object Code    Addr1 Addr2  Stmt   Source Statement".toList,
      "000000 5810 C000            0C000     1  L    R1,".toList ++ List.replicate 62 'A' ++ ['X'],
      List.replicate 55 ' ' ++ ['B']]

def cutNameListing : Listing := cutNameSample.listings.headD (.startingAt 0 false)

theorem cutNameListing_spec : cutNameListing ∈ cutNameSample.listings ∧
    cutNameListing.sourceWindow? = some (40, 111) ∧
    cutNameListing.blocks.map (fun b => (b.codeStart, b.stop)) = [(3, 5)] ∧
    cutNameListing.lineBefore? 3 = none ∧
    cutNameListing.nameAt? cutNameSample .standard ⟨3, 50⟩ ≠
      cutNameListing.nameAt? cutNameSample .standard ⟨4, 55⟩ := by
  decide +kernel

theorem cutNameListing_next : cutNameListing.Next 3 4 := by
  have hb : cutNameListing.blocks.map (fun b => (b.codeStart, b.stop)) = [(3, 5)] :=
    cutNameListing_spec.2.2.1
  obtain ⟨b, hbs, hb⟩ := List.map_eq_singleton_iff.mp hb
  obtain ⟨hstart, hstop⟩ := Prod.mk.inj hb
  exact .below (i := 0) (b := b) (by rw [hbs]; rfl) (by omega) (by omega)

theorem cutNameListing_uncontinued (n : ℕ) (hn : cutNameListing.lineBefore? 3 = some n) :
    ¬ HasSentinel (row cutNameSample n) 111 := by
  rw [cutNameListing_spec.2.2.2.1] at hn
  cases hn

theorem cutNameListing_cut :
    Cut ⟨40, 111, 15⟩ (row cutNameSample 3) (row cutNameSample 4) 49 56 where
  sentinel := by decide +kernel
  head := ⟨by decide, by decide, by decide +kernel, by decide +kernel⟩
  head_lt := by decide
  tail := ⟨by decide, by decide +kernel, by decide +kernel⟩
  ends := by decide

theorem nameAt?_cut_cutNameListing :
    cutNameListing ∈ cutNameSample.listings ∧
    cutNameListing.nameAt? cutNameSample .standard ⟨3, 50⟩ = some (List.replicate 62 'A' ++ ['B']) ∧
    cutNameListing.nameAt? cutNameSample .standard ⟨4, 55⟩ = some (List.replicate 56 'A' ++ ['B']) := by
  obtain ⟨hl, hw, -⟩ := cutNameListing_spec
  obtain ⟨hhead, htail, -⟩ := nameAt?_cut cutNameSample .standard cutNameListing 40 111 3 4 49 56 hl hw
    (by decide) cutNameListing_next cutNameListing_uncontinued cutNameListing_cut
  refine ⟨hl, (hhead 50 (by decide) (by decide)).trans ?_,
    (htail 55 (by decide) (by decide) (by decide)).trans ?_⟩
  · decide +kernel
  · decide +kernel

/-- A name that is cut need not be found alike from both of its lines. -/
theorem cut_name_differs : ¬ ∀ (doc : Document) (o : Options) (l : Listing)
    (left right p q h e c c' : ℕ), l ∈ doc.listings → l.sourceWindow? = some (left, right) →
    l.Next p q → (∀ n, l.lineBefore? p = some n → ¬ HasSentinel (row doc n) right) →
    Cut ⟨left, right, o.continuationIndent⟩ (row doc p) (row doc q) h e →
    h ≤ c → c < right → left + o.continuationIndent ≤ c' → c' ≤ e → c' < right →
    l.nameAt? doc o ⟨p, c⟩ = l.nameAt? doc o ⟨q, c'⟩ := by
  intro hall
  obtain ⟨hl, hw, -, -, hne⟩ := cutNameListing_spec
  have heq := hall cutNameSample .standard cutNameListing 40 111 3 4 49 56 50 55 hl hw cutNameListing_next
    cutNameListing_uncontinued cutNameListing_cut (by decide) (by decide) (by decide) (by decide) (by decide)
  exact hne heq

end ListingIndex
