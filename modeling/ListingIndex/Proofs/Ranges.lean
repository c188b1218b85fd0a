import Mathlib
import ListingIndex.Proofs.Reading
import ListingIndex.Proofs.TitleLines

/-! Where the blocks of object code and the reports of a listing begin and end. Both are left open
when they begin, and the next boundary that is no message ends them; a report that goes on to another
page is opened again. What follows is said of a draft as it would be if line `m` ended whatever is
open, so that it can be carried from line to line. -/
namespace ListingIndex
open Line

/-- All boundaries but messages end what is open. -/
def Line.Boundary.isBreak : Boundary → Bool
  | .message _ _ => false
  | .returnCode | .columns _ _ | .report _ | .page _ => true

/-- A line that ends what is open in front of it. -/
structure Break where
  number : ℕ
  boundary : Boundary
deriving DecidableEq, Repr

def Document.breakAt? (doc : Document) (indicator : Bool) (n : ℕ) : Option Break :=
  ((boundary? indicator (doc.line n)).filter Boundary.isBreak).map (⟨n, ·⟩)

def Document.breaks (doc : Document) (start : ℕ) (indicator : Bool) (stop : ℕ) : List Break :=
  (doc.readings start indicator stop).filterMap (doc.breakAt? indicator)

namespace Break

def isPage (r : Report) (b : Break) : Bool := b.boundary = .report r

def firstPage? (bs : List Break) (r : Report) : Option ℕ := (bs.find? (isPage r)).map (·.number)

/-- The first line below the last page of a report that is no part of it. -/
def endOfPages? (bs : List Break) (r : Report) : Option ℕ :=
  (bs.rtakeWhile (!isPage r ·)).head?.map (·.number)

/-- The lines of a report, if those that are still open end in front of line `m`. -/
def range? (bs : List Break) (m : ℕ) (r : Report) : Option LineRange :=
  (firstPage? bs r).map (⟨·, (endOfPages? bs r).getD m⟩)

section
variable (bs : List Break) {b : Break} {r : Report}

theorem range?_concat_page (h : b.isPage r = true) (m : ℕ) :
    range? (bs ++ [b]) m r = some ⟨(firstPage? bs r).getD b.number, m⟩ := by
  have he : endOfPages? (bs ++ [b]) r = none := by
    rw [endOfPages?, List.rtakeWhile_concat_neg _ _ _ (by simp [h])]
    rfl
  rw [range?, he, firstPage?, List.find?_append, firstPage?]
  cases bs.find? (isPage r) <;> simp [h]

theorem range?_concat_other (h : b.isPage r = false) (m : ℕ) :
    range? (bs ++ [b]) m r = range? bs b.number r := by
  have hf : firstPage? (bs ++ [b]) r = firstPage? bs r := by
    rw [firstPage?, List.find?_append, firstPage?]
    cases bs.find? (isPage r) <;> simp [h]
  have he : endOfPages? (bs ++ [b]) r = some ((endOfPages? bs r).getD b.number) := by
    rw [endOfPages?, List.rtakeWhile_concat_pos _ _ _ (by simp [h]), List.head?_append, endOfPages?]
    cases (bs.rtakeWhile (!isPage r ·)).head? <;> rfl
  rw [range?, range?, hf, he, Option.getD_some]

end

section
variable {bs : List Break} {r : Report}

theorem firstPage?_eq_none_iff : firstPage? bs r = none ↔ ∀ b ∈ bs, b.isPage r = false := by
  simp [firstPage?]

variable (hp : bs.Pairwise fun a b => a.number < b.number) {s : ℕ} (h : firstPage? bs r = some s)
include hp h

theorem isLeast_firstPage : IsLeast {n | ∃ b ∈ bs, b.isPage r = true ∧ b.number = n} s := by
  obtain ⟨p, hf, rfl⟩ := Option.map_eq_some_iff.mp h
  obtain ⟨hr, front, back, rfl, hn⟩ := List.find?_eq_some_iff_append.mp hf
  rw [List.pairwise_append, List.pairwise_cons] at hp
  refine ⟨⟨p, by simp, hr, rfl⟩, ?_⟩
  intro n hm
  obtain ⟨b, hb, hbr, rfl⟩ := hm
  rcases List.mem_append.mp hb with hb | hb
  · have := hn b hb
    rw [hbr] at this
    cases this
  · rcases List.mem_cons.mp hb with rfl | hb
    · exact le_rfl
    · exact (hp.2.1.1 b hb).le

omit hp in
theorem split_lastPage : ∃ front p back, bs = front ++ p :: back ∧ p.isPage r = true ∧
    (∀ b ∈ back, b.isPage r = false) ∧ endOfPages? bs r = back.head?.map (·.number) := by
  have hne : bs.rdropWhile (!isPage r ·) ≠ [] := by
    intro he
    rw [List.rdropWhile_eq_nil_iff] at he
    have hn := firstPage?_eq_none_iff.mpr fun b hb => by simpa using he b hb
    rw [h] at hn
    cases hn
  refine ⟨(bs.rdropWhile (!isPage r ·)).dropLast, (bs.rdropWhile (!isPage r ·)).getLast hne,
    bs.rtakeWhile (!isPage r ·), ?_, ?_, ?_, rfl⟩
  · rw [List.append_cons, List.dropLast_append_getLast, List.rdropWhile_append_rtakeWhile]
  · simpa using List.rdropWhile_last_not _ _ hne
  · intro b hb
    simpa using List.mem_rtakeWhile_imp hb

/-- Below the last page of a report stand the breaks that are no pages of it, and the first of them
ends it. -/
theorem exists_lastPage :
    ∃ last, IsGreatest {n | ∃ b ∈ bs, b.isPage r = true ∧ b.number = n} last ∧
      (endOfPages? bs r = none ∧ (∀ b ∈ bs, b.number ≤ last) ∨
        ∃ e, endOfPages? bs r = some e ∧ IsLeast {n | (∃ b ∈ bs, b.number = n) ∧ last < n} e) := by
  obtain ⟨front, p, back, rfl, hlast, hback, he⟩ := split_lastPage h
  rw [he]
  rw [List.pairwise_append, List.pairwise_cons] at hp
  obtain ⟨-, ⟨hpb, hbb⟩, hfront⟩ := hp
  refine ⟨p.number, ⟨⟨p, by simp, hlast, rfl⟩, ?_⟩, ?_⟩
  · intro n hm
    obtain ⟨b, hb, hbr, rfl⟩ := hm
    rcases List.mem_append.mp hb with hb | hb
    · exact (hfront b hb p (by simp)).le
    · rcases List.mem_cons.mp hb with rfl | hb
      · exact le_rfl
      · rw [hback b hb] at hbr
        cases hbr
  · cases back with
    | nil =>
      left
      refine ⟨rfl, ?_⟩
      intro b hb
      rcases List.mem_append.mp hb with hb | hb
      · exact (hfront b hb p (by simp)).le
      · rw [List.mem_singleton.mp hb]
    | cons e back =>
      right
      refine ⟨e.number, rfl, ⟨⟨e, by simp, rfl⟩, hpb e (by simp)⟩, ?_⟩
      intro n hm
      obtain ⟨⟨b, hb, rfl⟩, hlt⟩ := hm
      rcases List.mem_append.mp hb with hb | hb
      · have := hfront b hb p (by simp)
        omega
      · rcases List.mem_cons.mp hb with rfl | hb
        · omega
        · rcases List.mem_cons.mp hb with rfl | hb
          · exact le_rfl
          · exact ((List.pairwise_cons.mp hbb).1 b hb).le

end
end Break

namespace Draft

/-- The blocks, if the open one ends in front of line `m`. -/
def blocksAt (d : Draft) (m : ℕ) : List CodeBlock := (d.close m).listing.blocks.map (·.unstarted)

def reportsAt (d : Draft) (m : ℕ) : Dictionary Report LineRange := (d.close m).listing.reports

theorem extents_congr {d e : Draft} (h : e.extents = d.extents) (m : ℕ) :
    e.titleLine = d.titleLine ∧ e.blocksAt m = d.blocksAt m ∧ e.reportsAt m = d.reportsAt m := by
  simp only [extents, Prod.mk.injEq] at h
  obtain ⟨ht, hb, hr, ho⟩ := h
  refine ⟨ht, ?_⟩
  simp only [blocksAt, reportsAt, close]
  cases hd : d.opened with
  | none =>
    rw [hd, Option.map_none, Option.map_eq_none_iff] at ho
    simp [ho, hb, hr]
  | some o =>
    rw [hd, Option.map_some, Option.map_eq_some_iff] at ho
    obtain ⟨p, hp, hu⟩ := ho
    cases o <;> cases p <;> simp_all [Opened.unstarted, CodeBlock.unstarted]

theorem extents_enter (d : Draft) (a : Area) : (d.enter a).extents = d.extents := by
  obtain ⟨symbols, pending, he⟩ := enter_shape d a
  rw [he]
  rfl

section
variable (d : Draft) (n width m : ℕ)

theorem extents_message (code text : Text) :
    (d.addBoundary n width (.message code text)).titleLine = d.titleLine ∧
    (d.addBoundary n width (.message code text)).blocksAt m = d.blocksAt m ∧
    (d.addBoundary n width (.message code text)).reportsAt m = d.reportsAt m :=
  extents_congr (by rfl) m

theorem extents_returnCode :
    (d.addBoundary n width .returnCode).titleLine = d.titleLine ∧
    (d.addBoundary n width .returnCode).blocksAt m = d.blocksAt n ∧
    (d.addBoundary n width .returnCode).reportsAt m =
      (d.reportsAt n).modify .assemblerSummary fun range => { range with stop := n + 1 } := by
  obtain ⟨reports, blocks, hc⟩ := close_shape d n
  rw [addBoundary, blocksAt, blocksAt, reportsAt, reportsAt, hc]
  exact ⟨rfl, rfl, rfl⟩

theorem extents_columns (layout : Layout) (c : SectionClass) :
    (d.addBoundary n width (.columns layout c)).titleLine = d.titleLine ∧
    (d.addBoundary n width (.columns layout c)).blocksAt m =
      d.blocksAt n ++ [⟨d.titleLine, m, d.title, n + 1, c, none⟩] ∧
    (d.addBoundary n width (.columns layout c)).reportsAt m = d.reportsAt n := by
  obtain ⟨reports, blocks, hc⟩ := close_shape d n
  rw [addBoundary, blocksAt, blocksAt, reportsAt, reportsAt, hc]
  refine ⟨rfl, ?_, rfl⟩
  simp [openBlock, close, CodeBlock.unstarted]

theorem extents_page (title : Text) :
    (d.addBoundary n width (.page title)).titleLine = n ∧
    (d.addBoundary n width (.page title)).blocksAt m = d.blocksAt n ∧
    (d.addBoundary n width (.page title)).reportsAt m = d.reportsAt n := by
  obtain ⟨reports, blocks, hc⟩ := close_shape d n
  obtain ⟨symbols, pending, he⟩ := enter_shape (d.close n) d.area.afterPage
  rw [addBoundary, blocksAt, blocksAt, reportsAt, reportsAt, he, hc]
  exact ⟨rfl, rfl, rfl⟩

theorem extents_report (r : Report) :
    (d.addBoundary n width (.report r)).titleLine = d.titleLine ∧
    (d.addBoundary n width (.report r)).blocksAt m = d.blocksAt n ∧
    (d.addBoundary n width (.report r)).reportsAt m =
      ((d.reportsAt n).insertIfNew r ⟨n, n⟩).modify r fun range => { range with stop := m } := by
  obtain ⟨reports, blocks, hc⟩ := close_shape d n
  have he := extents_congr (extents_enter ((d.close n).openReport n r) (d.area.afterReport r)) m
  rw [addBoundary, he.1, he.2.1, he.2.2, blocksAt, blocksAt, reportsAt, reportsAt, hc]
  exact ⟨rfl, rfl, rfl⟩

end

/-- Blocks follow each other inside the listing, each below its page title. -/
structure Spaced (d : Draft) (n : ℕ) : Prop where
  start_le : d.listing.start ≤ d.titleLine
  title_le : d.titleLine ≤ n
  within : ∀ m, n ≤ m → ∀ b ∈ d.blocksAt m,
    d.listing.start ≤ b.start ∧ b.start < b.codeStart ∧ b.codeStart ≤ b.stop ∧ b.stop ≤ m
  titled : ∀ m, n ≤ m → ∀ b ∈ d.blocksAt m, b.start ≤ d.titleLine
  ordered : ∀ m, n ≤ m →
    (d.blocksAt m).Pairwise fun a b => a.stop < b.codeStart ∧ a.start ≤ b.start

theorem spaced_startingAt (start : ℕ) (indicator : Bool) :
    (startingAt start indicator).Spaced start := by
  refine ⟨le_rfl, le_rfl, ?_, ?_, ?_⟩
  · intro m _ b hb
    cases hb
  · intro m _ b hb
    cases hb
  · intro m _
    exact .nil

section
variable {d : Draft} {n : ℕ} (h : d.Spaced n)
include h

theorem Spaced.skip : d.Spaced (n + 1) :=
  ⟨h.start_le, by have := h.title_le; omega, fun m hm => h.within m (by omega),
    fun m hm => h.titled m (by omega), fun m hm => h.ordered m (by omega)⟩

theorem Spaced.congr {e : Draft} (hs : e.listing.start = d.listing.start)
    (he : e.extents = d.extents) : e.Spaced n := by
  have hx := extents_congr he
  refine ⟨?_, ?_, ?_, ?_, ?_⟩
  · rw [hs, (hx n).1]
    exact h.start_le
  · rw [(hx n).1]
    exact h.title_le
  · intro m hm
    rw [hs, (hx m).2.1]
    exact h.within m hm
  · intro m hm
    rw [(hx m).1, (hx m).2.1]
    exact h.titled m hm
  · intro m hm
    rw [(hx m).2.1]
    exact h.ordered m hm

/-- What ends the open block and opens none may move the title line down. -/
theorem Spaced.close {e : Draft} (hs : e.listing.start = d.listing.start)
    (ht : d.titleLine ≤ e.titleLine) (hn : e.titleLine ≤ n)
    (hb : ∀ m, e.blocksAt m = d.blocksAt n) : e.Spaced (n + 1) := by
  have hw := h.within n le_rfl
  refine ⟨?_, by omega, ?_, ?_, ?_⟩
  · rw [hs]
    exact h.start_le.trans ht
  · intro m hm b hmem
    rw [hb] at hmem
    have := hw b hmem
    rw [hs]
    omega
  · intro m hm b hmem
    rw [hb] at hmem
    exact (h.titled n le_rfl b hmem).trans ht
  · intro m hm
    rw [hb]
    exact h.ordered n le_rfl

theorem Spaced.columns (width : ℕ) (layout : Layout) (c : SectionClass) :
    (d.addBoundary n width (.columns layout c)).Spaced (n + 1) := by
  have hx := fun m => extents_columns d n width m layout c
  have hs : (d.addBoundary n width (.columns layout c)).listing.start = d.listing.start :=
    congrArg Prod.fst (d.boundaryFrame n width (.columns layout c)).origin
  have hw := h.within n le_rfl
  have ht := h.titled n le_rfl
  have h₁ := h.start_le
  have h₂ := h.title_le
  refine ⟨?_, ?_, ?_, ?_, ?_⟩
  · rw [hs, (hx n).1]
    exact h₁
  · rw [(hx n).1]
    omega
  · intro m hm b hmem
    rw [(hx m).2.1, List.mem_append, List.mem_singleton] at hmem
    rw [hs]
    rcases hmem with hmem | rfl
    · have := hw b hmem
      omega
    · dsimp only
      omega
  · intro m hm b hmem
    rw [(hx m).2.1, List.mem_append, List.mem_singleton] at hmem
    rw [(hx m).1]
    rcases hmem with hmem | rfl
    · exact ht b hmem
    · exact le_rfl
  · intro m hm
    rw [(hx m).2.1, List.pairwise_append]
    refine ⟨h.ordered n le_rfl, List.pairwise_singleton _ _, ?_⟩
    intro a ha b hb
    rw [List.mem_singleton.mp hb]
    have := hw a ha
    have := ht a ha
    dsimp only
    omega

theorem Spaced.addLine (line : Text) : (d.addLine n line).Spaced (n + 1) := by
  cases hb : boundary? d.listing.indicator line with
  | none =>
    rw [addLine_record hb]
    have hf := d.recordFrame n line
    exact (h.congr (congrArg Prod.fst hf.origin) hf.extents).skip
  | some b =>
    rw [addLine_boundary hb]
    have hs : (d.addBoundary n line.length b).listing.start = d.listing.start :=
      congrArg Prod.fst (d.boundaryFrame n line.length b).origin
    cases b with
    | message code text =>
      have he : (d.addBoundary n line.length (.message code text)).extents = d.extents := rfl
      exact (h.congr hs he).skip
    | columns layout c => exact h.columns line.length layout c
    | returnCode =>
      have hx := extents_returnCode d n line.length
      exact h.close hs (hx n).1.ge ((hx n).1.trans_le h.title_le) fun m => (hx m).2.1
    | page title =>
      have hx := fun m => extents_page d n line.length m title
      exact h.close hs ((hx n).1 ▸ h.title_le) (hx n).1.le fun m => (hx m).2.1
    | report r =>
      have hx := fun m => extents_report d n line.length m r
      exact h.close hs (hx n).1.ge ((hx n).1.trans_le h.title_le) fun m => (hx m).2.1

end

/-- Reports have the ranges that the breaks above give them. -/
def Paged (d : Draft) (bs : List Break) : Prop :=
  ∀ m r, (d.reportsAt m).find? r = Break.range? bs m r

theorem Paged.congr {d e : Draft} {bs : List Break} (h : d.Paged bs)
    (he : e.extents = d.extents) : e.Paged bs := by
  intro m r
  rw [(extents_congr he m).2.2]
  exact h m r

theorem Paged.addBoundary {d : Draft} {bs : List Break} (h : d.Paged bs) (n width : ℕ)
    {b : Boundary} (hb : b.isBreak = true) (hr : b ≠ .returnCode) :
    (d.addBoundary n width b).Paged (bs ++ [⟨n, b⟩]) := by
  intro m r
  cases b with
  | message code text => cases hb
  | returnCode => exact absurd rfl hr
  | columns layout c =>
    rw [(extents_columns d n width m layout c).2.2, h, Break.range?_concat_other _ rfl]
  | page title =>
    rw [(extents_page d n width m title).2.2, h, Break.range?_concat_other _ rfl]
  | report q =>
    rw [(extents_report d n width m q).2.2, Dictionary.find?_modify, Dictionary.find?_insertIfNew,
      Dictionary.find?_insertIfNew, h, h]
    by_cases hq : r = q
    · subst hq
      rw [if_pos rfl, if_pos rfl, Break.range?_concat_page bs (by simp [Break.isPage]), Break.range?]
      cases Break.firstPage? bs r <;> rfl
    · have ho : Break.isPage r ⟨n, .report q⟩ = false := by simpa [Break.isPage] using Ne.symm hq
      rw [if_neg hq, if_neg hq, Break.range?_concat_other bs ho]

theorem Paged.addLine {d : Draft} {bs : List Break} (h : d.Paged bs) (doc : Document) (n : ℕ)
    (he : ¬ endsListing d.listing.indicator (doc.line n)) :
    (d.addLine n (doc.line n)).Paged (bs ++ (doc.breakAt? d.listing.indicator n).toList) := by
  unfold Document.breakAt?
  cases hb : boundary? d.listing.indicator (doc.line n) with
  | none =>
    rw [addLine_record hb, Option.filter_none, Option.map_none, Option.toList_none, List.append_nil]
    exact h.congr (d.recordFrame n (doc.line n)).extents
  | some b =>
    rw [addLine_boundary hb]
    cases hi : b.isBreak with
    | true =>
      have hr : b ≠ .returnCode := by
        intro hr
        exact he (by simp [endsListing, hb, hr])
      rw [Option.filter_some_pos hi]
      exact h.addBoundary n _ hi hr
    | false =>
      rw [Option.filter_some_neg (by simp [hi]), Option.map_none, Option.toList_none,
        List.append_nil]
      cases b with
      | message code text =>
        exact h.congr rfl
      | _ => cases hi

theorem finish_extents (d : Draft) (stop : ℕ) :
    (d.finish stop).blocks.map (·.unstarted) = d.blocksAt stop ∧
      (d.finish stop).reports = d.reportsAt stop := by
  obtain ⟨symbols, hf⟩ := flush_shape d
  have he : d.flush.extents = d.extents := by
    rw [hf]
    rfl
  obtain ⟨-, hb, hr⟩ := extents_congr he stop
  exact ⟨hb, hr⟩

end Draft

namespace Document
section
variable (doc : Document) (start : ℕ) (indicator : Bool) {n : ℕ} (h : start ≤ n)
include h

theorem breaks_succ : doc.breaks start indicator (n + 1) = doc.breaks start indicator n ++
    if doc.readsBelow start indicator (n - start) then (doc.breakAt? indicator n).toList else [] := by
  rw [breaks, readings_succ h, List.filterMap_append, breaks]
  split
  · cases hb : doc.breakAt? indicator n <;> simp [hb]
  · rfl

theorem spaced_draft : (doc.draft start indicator n).Spaced n := by
  induction n, h using Nat.le_induction with
  | base =>
    rw [draft_start]
    exact Draft.spaced_startingAt start indicator
  | succ n hn ih =>
    cases hr : doc.readsBelow start indicator (n - start) with
    | true =>
      rw [draft_succ_of_reads hn hr]
      exact ih.addLine (doc.line n)
    | false =>
      rw [draft_succ_of_hidden hn hr]
      exact ih.skip

/-- Up to the return code, the breaks of a listing give its reports their ranges. -/
theorem paged_draft
    (hr : ∀ m ∈ doc.readings start indicator n, ¬ endsListing indicator (doc.line m)) :
    (doc.draft start indicator n).Paged (doc.breaks start indicator n) := by
  induction n, h using Nat.le_induction with
  | base =>
    rw [draft_start, breaks, readings_start]
    intro m r
    rfl
  | succ n hn ih =>
    have hp := ih fun m hm => hr m (by rw [readings_succ hn]; exact List.mem_append_left _ hm)
    rw [breaks_succ doc start indicator hn]
    cases hb : doc.readsBelow start indicator (n - start) with
    | true =>
      have hm : n ∈ doc.readings start indicator (n + 1) := mem_readings.mpr ⟨hn, by omega, hb⟩
      have hl := hp.addLine doc n (by rw [indicator_draft]; exact hr n hm)
      rw [indicator_draft] at hl
      rw [draft_succ_of_reads hn hb, if_pos rfl]
      exact hl
    | false =>
      rw [draft_succ_of_hidden hn hb, if_neg (by simp), List.append_nil]
      exact hp

end

section
variable (doc : Document) (start : ℕ) (indicator : Bool) (stop : ℕ)

theorem mem_breaks {b : Break} : b ∈ doc.breaks start indicator stop ↔
    b.number ∈ doc.readings start indicator stop ∧
      boundary? indicator (doc.line b.number) = some b.boundary ∧ b.boundary.isBreak = true := by
  obtain ⟨n, x⟩ := b
  simp only [breaks, breakAt?, List.mem_filterMap, Option.map_eq_some_iff, Option.filter_eq_some_iff,
    Break.mk.injEq]
  constructor
  · intro h
    obtain ⟨m, hm, y, hy, rfl, rfl⟩ := h
    exact ⟨hm, hy⟩
  · intro h
    exact ⟨n, h.1, x, h.2, rfl, rfl⟩

theorem breaks_ascending :
    (doc.breaks start indicator stop).Pairwise fun a b => a.number < b.number := by
  refine (doc.readings_ascending start indicator stop).filterMap _ ?_
  intro m n hmn a ha b hb
  obtain ⟨x, -, rfl⟩ := Option.map_eq_some_iff.mp ha
  obtain ⟨y, -, rfl⟩ := Option.map_eq_some_iff.mp hb
  exact hmn

end
end Document

namespace Listing

/-- The title lines of a report. -/
def pages (l : Listing) (doc : Document) (r : Report) : Set ℕ :=
  {n | n ∈ l.readings doc ∧ boundary? l.indicator (doc.line n) = some (.report r)}

/-- The boundaries of a listing that are no messages. -/
def breaks (l : Listing) (doc : Document) : Set ℕ :=
  {n | n ∈ l.readings doc ∧ ∃ b, boundary? l.indicator (doc.line n) = some b ∧ b.isBreak = true}

theorem pages_eq (l : Listing) (doc : Document) (r : Report) : l.pages doc r =
    {n | ∃ b ∈ doc.breaks l.start l.indicator l.stop, b.isPage r = true ∧ b.number = n} := by
  ext n
  constructor
  · intro h
    exact ⟨⟨n, .report r⟩, (doc.mem_breaks ..).mpr ⟨h.1, h.2, rfl⟩, by simp [Break.isPage], rfl⟩
  · intro h
    obtain ⟨b, hb, hr, rfl⟩ := h
    obtain ⟨hn, hx, -⟩ := (doc.mem_breaks ..).mp hb
    have hr : b.boundary = .report r := by simpa [Break.isPage] using hr
    exact ⟨hn, hr ▸ hx⟩

theorem mem_breaks {l : Listing} {doc : Document} {n : ℕ} : n ∈ l.breaks doc ↔
    ∃ b ∈ doc.breaks l.start l.indicator l.stop, b.number = n := by
  constructor
  · intro h
    obtain ⟨hn, b, hb, hi⟩ := h
    exact ⟨⟨n, b⟩, (doc.mem_breaks ..).mpr ⟨hn, hb, hi⟩, rfl⟩
  · intro h
    obtain ⟨b, hb, rfl⟩ := h
    obtain ⟨hn, hx, hi⟩ := (doc.mem_breaks ..).mp hb
    exact ⟨hn, _, hx, hi⟩

section
variable {doc : Document} {l : Listing} (h : doc.Indexes l)
include h

theorem blocks_unstarted :
    l.blocks.map (·.unstarted) = (doc.draft l.start l.indicator l.stop).blocksAt l.stop := by
  rw [← (Draft.finish_extents _ l.stop).1, ← h.finished]

theorem blocks_spaced :
    (∀ b ∈ l.blocks, l.start ≤ b.start ∧ b.start < b.codeStart ∧ b.codeStart ≤ b.stop ∧
      b.stop ≤ l.stop) ∧
    l.blocks.Pairwise fun a b => a.stop < b.codeStart ∧ a.start ≤ b.start := by
  have hs := doc.spaced_draft l.start l.indicator h.start_lt.le
  have hw := hs.within l.stop le_rfl
  have ho := hs.ordered l.stop le_rfl
  rw [← blocks_unstarted h] at hw ho
  have hstart : (doc.draft l.start l.indicator l.stop).listing.start = l.start :=
    congrArg Prod.fst (doc.origin_draft l.start l.indicator l.stop)
  rw [hstart] at hw
  exact ⟨List.forall_mem_map.mp hw, List.pairwise_map.mp ho⟩

theorem reports_eq : l.reports = (doc.draft l.start l.indicator l.stop).reportsAt l.stop := by
  rw [← (Draft.finish_extents _ l.stop).2, ← h.finished]

theorem find?_reports_of_endsWithDocument (he : l.EndsWithDocument doc) (r : Report) :
    l.reports.find? r = Break.range? (doc.breaks l.start l.indicator l.stop) l.stop r := by
  have hp := doc.paged_draft l.start l.indicator h.start_lt.le
    fun m hm => by simpa [endsListing] using he.2 m hm
  rw [reports_eq h]
  exact hp l.stop r

/-- The return code is a break of its own, and the assembler summary reaches over it. -/
theorem find?_reports_of_endsAtReturnCode (he : l.EndsAtReturnCode doc) (r : Report) :
    l.reports.find? r =
      (Break.range? (doc.breaks l.start l.indicator l.stop) l.stop r).map fun range =>
        if r = .assemblerSummary then { range with stop := l.stop } else range := by
  obtain ⟨hm, hb, hn⟩ := he
  obtain ⟨hle, -, hread⟩ := Document.mem_readings.mp hm
  have hlt := h.start_lt
  have hstop : l.stop = l.stop - 1 + 1 := by omega
  generalize l.stop - 1 = n at hstop hle hread hb hn
  have hp := doc.paged_draft l.start l.indicator hle fun m hm => by
    obtain ⟨h₁, h₂, h₃⟩ := Document.mem_readings.mp hm
    simpa [endsListing] using hn m (Document.mem_readings.mpr ⟨h₁, by omega, h₃⟩) h₂
  have hx : (doc.draft l.start l.indicator n).listing.indicator = l.indicator :=
    doc.indicator_draft l.start l.indicator n
  have hd : doc.draft l.start l.indicator l.stop =
      (doc.draft l.start l.indicator n).addBoundary n (doc.line n).length .returnCode := by
    rw [hstop, Document.draft_succ_of_reads hle hread, Draft.addLine_boundary (by rw [hx, hb])]
  have hbs : doc.breaks l.start l.indicator l.stop =
      doc.breaks l.start l.indicator n ++ [⟨n, .returnCode⟩] := by
    rw [hstop, doc.breaks_succ l.start l.indicator hle, if_pos hread, Document.breakAt?, hb]
    rfl
  rw [reports_eq h, hd, (Draft.extents_returnCode _ n _ l.stop).2.2, Dictionary.find?_modify, hp, hp,
    hbs, Break.range?_concat_other _ rfl, ← hstop]
  by_cases hr : r = .assemblerSummary
  · subst hr
    simp
  · simp [hr]

end

theorem blockAt?_eq_some_iff {l : Listing}
    (h : l.blocks.Pairwise fun a b => a.stop < b.codeStart ∧ a.start ≤ b.start) {n i : ℕ} :
    l.blockAt? n = some i ↔ ∃ b, l.blocks[i]? = some b ∧ b.codeStart ≤ n ∧ n < b.stop := by
  rw [blockAt?, List.findIdx?_eq_some_iff_getElem]
  constructor
  · intro hb
    obtain ⟨hi, hb, -⟩ := hb
    refine ⟨l.blocks[i], List.getElem?_eq_getElem hi, ?_⟩
    simpa using hb
  · intro hb
    obtain ⟨b, hb, h₁, h₂⟩ := hb
    obtain ⟨hi, rfl⟩ := List.getElem?_eq_some_iff.mp hb
    refine ⟨hi, by simp [h₁, h₂], ?_⟩
    intro j hj
    have := (List.pairwise_iff_getElem.mp h j i (by omega) hi hj).1
    simp only [Bool.and_eq_true, decide_eq_true_eq, not_and]
    omega

theorem range_bounds {doc : Document} {l : Listing} {r : Report} {range : LineRange}
    (h : Break.range? (doc.breaks l.start l.indicator l.stop) l.stop r = some range) :
    IsLeast (l.pages doc r) range.start ∧ ∃ last, IsGreatest (l.pages doc r) last ∧
      (IsLeast {n | n ∈ l.breaks doc ∧ last < n} range.stop ∨
        {n | n ∈ l.breaks doc ∧ last < n} = ∅ ∧ range.stop = l.stop) := by
  have hp := doc.breaks_ascending l.start l.indicator l.stop
  obtain ⟨s, hs, rfl⟩ := Option.map_eq_some_iff.mp h
  have hfirst := Break.isLeast_firstPage hp hs
  obtain ⟨last, hlast, he⟩ := Break.exists_lastPage hp hs
  rw [← l.pages_eq doc r] at hfirst hlast
  refine ⟨hfirst, last, hlast, ?_⟩
  rcases he with ⟨he, hle⟩ | ⟨e, he, hleast⟩
  · right
    rw [he]
    refine ⟨Set.eq_empty_iff_forall_notMem.mpr ?_, rfl⟩
    intro n hn
    obtain ⟨b, hb, hbn⟩ := mem_breaks.mp hn.1
    have := hle b hb
    have := hn.2
    omega
  · left
    simp only [he, Option.getD_some, mem_breaks]
    exact hleast

theorem range_within {doc : Document} {l : Listing} {r : Report} {range : LineRange}
    (h : Break.range? (doc.breaks l.start l.indicator l.stop) l.stop r = some range) :
    l.start ≤ range.start ∧ range.start < range.stop ∧ range.stop ≤ l.stop := by
  obtain ⟨hfirst, last, hlast, hstop⟩ := range_bounds h
  obtain ⟨hs, -, -⟩ := Document.mem_readings.mp hfirst.1.1
  obtain ⟨-, hlt, -⟩ := Document.mem_readings.mp hlast.1.1
  have hle : range.start ≤ last := hfirst.2 hlast.1
  rcases hstop with hstop | ⟨-, hstop⟩
  · obtain ⟨⟨hm, -⟩, hgt⟩ := hstop.1
    obtain ⟨-, hm, -⟩ := Document.mem_readings.mp hm
    omega
  · omega

theorem range?_eq_none_iff {doc : Document} {l : Listing} {r : Report} :
    Break.range? (doc.breaks l.start l.indicator l.stop) l.stop r = none ↔ l.pages doc r = ∅ := by
  rw [Break.range?, Option.map_eq_none_iff, Break.firstPage?_eq_none_iff, l.pages_eq,
    Set.eq_empty_iff_forall_notMem]
  constructor
  · intro h n hn
    obtain ⟨b, hb, hr, -⟩ := hn
    rw [h b hb] at hr
    cases hr
  · intro h b hb
    by_contra hr
    exact h b.number ⟨b, hb, by simpa using hr, rfl⟩

/-- A report has the lines that the breaks of the listing give it, unless it is the summary of a
listing that ends at its return code. -/
theorem find?_reports {doc : Document} {l : Listing} (h : doc.Indexes l) (r : Report) :
    l.reports.find? r =
      (Break.range? (doc.breaks l.start l.indicator l.stop) l.stop r).map fun range =>
        if r = .assemblerSummary ∧ l.EndsAtReturnCode doc then { range with stop := l.stop }
        else range := by
  rcases h.ending with he | he
  · simp only [find?_reports_of_endsAtReturnCode h he, he, and_true]
  · have hn : ¬ l.EndsAtReturnCode doc := fun hx => he.2 _ hx.1 hx.2.1
    simp [find?_reports_of_endsWithDocument h he, hn]

end Listing

/-- The ranges of a listing. Blocks of object code stand in their order, no two of them share a line
of object code. A report starts with its first title line, and the first boundary below its last
title line that is no message ends it, or else the end of the listing; the assembler summary reaches
over the return code. -/
theorem listing_ranges (doc : Document) (l : Listing) (hl : l ∈ doc.listings) :
    (∀ b ∈ l.blocks, l.start ≤ b.start ∧ b.start < b.codeStart ∧ b.codeStart ≤ b.stop ∧
      b.stop ≤ l.stop) ∧
    l.blocks.Pairwise (fun a b => a.stop < b.codeStart ∧ a.start ≤ b.start) ∧
    (∀ n i, l.blockAt? n = some i ↔
      ∃ b, l.blocks[i]? = some b ∧ b.codeStart ≤ n ∧ n < b.stop) ∧
    ∀ r, (l.reports.find? r = none ↔ l.pages doc r = ∅) ∧
      ∀ range, l.reports.find? r = some range →
        l.start ≤ range.start ∧ range.start < range.stop ∧ range.stop ≤ l.stop ∧
        IsLeast (l.pages doc r) range.start ∧
        (r = .assemblerSummary ∧ l.EndsAtReturnCode doc → range.stop = l.stop) ∧
        (¬ (r = .assemblerSummary ∧ l.EndsAtReturnCode doc) →
          ∃ last, IsGreatest (l.pages doc r) last ∧
            (IsLeast {n | n ∈ l.breaks doc ∧ last < n} range.stop ∨
              {n | n ∈ l.breaks doc ∧ last < n} = ∅ ∧ range.stop = l.stop)) := by
  have h := doc.settled_listings.indexed l hl
  obtain ⟨hw, ho⟩ := Listing.blocks_spaced h
  refine ⟨hw, ho, fun n i => Listing.blockAt?_eq_some_iff ho, ?_⟩
  intro r
  rw [Listing.find?_reports h]
  refine ⟨by rw [Option.map_eq_none_iff, Listing.range?_eq_none_iff], ?_⟩
  intro range hr
  obtain ⟨full, hfull, rfl⟩ := Option.map_eq_some_iff.mp hr
  obtain ⟨hfirst, hlast⟩ := Listing.range_bounds hfull
  obtain ⟨h₁, h₂, h₃⟩ := Listing.range_within hfull
  by_cases hs : r = .assemblerSummary ∧ l.EndsAtReturnCode doc
  · rw [if_pos hs]
    exact ⟨h₁, by dsimp only; omega, le_rfl, hfirst, fun _ => rfl, fun hn => absurd hs hn⟩
  · rw [if_neg hs]
    exact ⟨h₁, h₂, h₃, hfirst, fun hn => absurd hn hs, fun _ => hlast⟩

/-- Two blocks of object code with a message in the first of them, a report that goes on behind
them, and a summary that the return code ends. -/
def rangesSample : Document where
  uri := "sample"
  lines :=
    let options : Text := reportRow .optionSummary 1
    let columns : Text := "  Loc  Object Code    Addr1 Addr2  Stmt   Source Statement".toList
    [options, titleRow "SAMPLE".toList 1, columns, "** ASMA017W X".toList, columns, options,
      titleRow (' ' :: Report.assemblerSummary.title) 1, "Return Code 004".toList]

def rangesListing : Listing := rangesSample.listings.headD (.startingAt 0 false)

theorem listing_ranges_rangesListing : rangesListing ∈ rangesSample.listings ∧
    rangesListing.blocks.map (fun b => (b.start, b.codeStart, b.stop)) = [(1, 3, 4), (1, 5, 5)] ∧
    rangesListing.reports.entries = [(.optionSummary, ⟨0, 6⟩), (.assemblerSummary, ⟨6, 8⟩)] ∧
    rangesListing.blocks.Pairwise (fun a b => a.stop < b.codeStart ∧ a.start ≤ b.start) ∧
    ∃ last, IsGreatest (rangesListing.pages rangesSample .optionSummary) last ∧
      (IsLeast {n | n ∈ rangesListing.breaks rangesSample ∧ last < n} 6 ∨
        {n | n ∈ rangesListing.breaks rangesSample ∧ last < n} = ∅ ∧ 6 = rangesListing.stop) := by
  have he : rangesSample.listings.map (fun l =>
      (l.blocks.map (fun b => (b.start, b.codeStart, b.stop)), l.reports.entries)) =
      [([(1, 3, 4), (1, 5, 5)], [(.optionSummary, ⟨0, 6⟩), (.assemblerSummary, ⟨6, 8⟩)])] := by
    decide +kernel
  obtain ⟨l, hs, he⟩ := List.map_eq_singleton_iff.mp he
  have hi : rangesListing = l := by rw [rangesListing, hs, List.headD_cons]
  have hl : rangesListing ∈ rangesSample.listings := by simp [hi, hs]
  rw [← hi, Prod.mk.injEq] at he
  have hr : rangesListing.reports.find? .optionSummary = some ⟨0, 6⟩ := by
    simp [Dictionary.find?, he.2]
  obtain ⟨-, ho, -, hp⟩ := listing_ranges rangesSample rangesListing hl
  obtain ⟨-, -, -, -, -, hlast⟩ := (hp .optionSummary).2 _ hr
  exact ⟨hl, he.1, he.2, ho, hlast (by simp)⟩

end ListingIndex
