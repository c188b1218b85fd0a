import Mathlib
import ListingIndex.Proofs.Place
import ListingIndex.Proofs.TitleLines

/-! The index of statements, told by the lines of object code. A statement may be printed on
several lines and pages; it goes under the first of them, with the first location that is printed
with it. -/
namespace ListingIndex
open Line

/-- A line of object code and its number. -/
structure CodeRow where
  number : ℕ
  code : Code
deriving DecidableEq, Repr

def Reading.row? (indicator : Bool) (r : Reading) : Option CodeRow :=
  (r.code? indicator).map (⟨r.number, ·⟩)

/-- All object code of a listing, from the top down. -/
def Listing.rows (l : Listing) (doc : Document) : List CodeRow :=
  (l.placed doc).filterMap (·.row? l.indicator)

namespace CodeRow

def statements (rows : List CodeRow) : List ℕ := rows.map (·.code.statement)

def showing (s : ℕ) (rows : List CodeRow) : List CodeRow := rows.filter (·.code.statement = s)

/-- The first line of a statement, and the first location on its lines. -/
def firstPlace? (rows : List CodeRow) (s : ℕ) : Option StatementLine :=
  (showing s rows).head?.map fun r => ⟨r.number, (showing s rows).findSome? (·.code.address)⟩

theorem firstPlace?_concat (rows : List CodeRow) (r : CodeRow) (s : ℕ) :
    firstPlace? (rows ++ [r]) s =
      if s = r.code.statement then
        some (Draft.placeStatement r.number r.code.address (firstPlace? rows s))
      else firstPlace? rows s := by
  by_cases hs : s = r.code.statement
  · have hc : showing s (rows ++ [r]) = showing s rows ++ [r] := by
      simp [showing, List.filter_append, hs]
    have ha : (showing s rows ++ [r]).findSome? (·.code.address) =
        ((showing s rows).findSome? (·.code.address)).or r.code.address := by
      rw [List.findSome?_append, List.findSome?_singleton]
    rw [if_pos hs, firstPlace?, firstPlace?, hc, ha]
    cases showing s rows with
    | nil => simp [Draft.placeStatement]
    | cons q rest => simp [Draft.placeStatement]
  · have hc : showing s (rows ++ [r]) = showing s rows := by
      simp [showing, List.filter_append, Ne.symm hs]
    rw [if_neg hs, firstPlace?, firstPlace?, hc]

theorem exists_firstPlace?_iff {rows : List CodeRow} {s : ℕ} :
    (∃ p, firstPlace? rows s = some p) ↔ s ∈ statements rows := by
  rw [← Option.isSome_iff_exists, firstPlace?, Option.isSome_map, List.isSome_head?]
  simp [showing, statements, List.filter_eq_nil_iff]

section
variable {rows : List CodeRow} (hr : rows.Pairwise fun a b => a.number < b.number)
include hr

theorem eq_of_number_eq {a b : CodeRow} (ha : a ∈ rows) (hb : b ∈ rows)
    (h : a.number = b.number) : a = b := by
  have hn : (rows.map (·.number)).Nodup :=
    (List.pairwise_map.mpr hr).imp Nat.ne_of_lt
  exact List.inj_on_of_nodup_map hn ha hb h

theorem isLeast_of_firstPlace? {s : ℕ} {p : StatementLine} (h : firstPlace? rows s = some p) :
    IsLeast {n | ∃ r ∈ rows, r.code.statement = s ∧ r.number = n} p.line := by
  -- the rows that show `s` keep their order, so the first of them stands highest
  have hs : (showing s rows).Pairwise fun a b => a.number < b.number := hr.filter _
  have hm : ∀ r, r ∈ showing s rows ↔ r ∈ rows ∧ r.code.statement = s := by simp [showing]
  rw [firstPlace?, Option.map_eq_some_iff] at h
  obtain ⟨r, hh, rfl⟩ := h
  obtain ⟨rest, he⟩ := List.head?_eq_some_iff.mp hh
  rw [he, List.pairwise_cons] at hs
  have hmem := (hm r).mp (by simp [he])
  refine ⟨⟨r, hmem.1, hmem.2, rfl⟩, ?_⟩
  rintro n ⟨q, hq, hqs, rfl⟩
  have hq' : q ∈ r :: rest := he ▸ (hm q).mpr ⟨hq, hqs⟩
  rcases List.mem_cons.mp hq' with rfl | hq'
  · exact le_rfl
  · exact (hs.1 q hq').le

end
end CodeRow

namespace Draft

/-- What a draft says of statements is what the rows of object code make of it. -/
structure Tells (d : Draft) (rows : List CodeRow) : Prop where
  statements : ∀ s, d.listing.statements.find? s = CodeRow.firstPlace? rows s
  last_le : ∀ s ∈ CodeRow.statements rows, s ≤ d.listing.lastStatement
  last_mem : rows = [] ∧ d.listing.lastStatement = 0 ∨
    d.listing.lastStatement ∈ CodeRow.statements rows
  transitions : ∀ s ∈ d.transitions, s ∈ CodeRow.statements rows
  firstStatements : ∀ s ∈ d.firstStatements, s ∈ CodeRow.statements rows

theorem tells_startingAt (start : ℕ) (indicator : Bool) : (startingAt start indicator).Tells [] :=
  ⟨fun _ => rfl, by simp [CodeRow.statements], Or.inl ⟨rfl, rfl⟩, by simp [startingAt],
    by simp [startingAt, firstStatements, Listing.startingAt]⟩

theorem Tells.congr {d e : Draft} {rows : List CodeRow} (h : d.Tells rows)
    (hc : e.codeIndex = d.codeIndex) : e.Tells rows := by
  simp only [codeIndex, Prod.mk.injEq] at hc
  obtain ⟨hs, hl, ht, hf⟩ := hc
  exact ⟨hs ▸ h.statements, hl ▸ h.last_le, hl ▸ h.last_mem, ht ▸ h.transitions,
    hf ▸ h.firstStatements⟩

theorem mem_firstStatements_addCode {d : Draft} {n : ℕ} {layout : Layout} {l : Code} {s : ℕ}
    (h : s ∈ (d.addCode n layout l).firstStatements) : s ∈ d.firstStatements ∨ s = l.statement := by
  cases ho : d.opened with
  | none => exact Or.inl (by simpa [firstStatements, addCode, ho] using h)
  | some o =>
    cases o with
    | report r => exact Or.inl (by simpa [firstStatements, addCode, ho, Opened.startWith] using h)
    | block b =>
      by_cases hb : b.codeStart = n
      · simp only [firstStatements, addCode, ho, Option.map_some, Opened.startWith, hb, if_true,
          List.mem_append, Option.toList_some, List.mem_singleton] at h ⊢
        exact h.imp_left Or.inl
      · exact Or.inl (by simpa [firstStatements, addCode, ho, Opened.startWith, hb] using h)

theorem Tells.addCode {d : Draft} {rows : List CodeRow} (h : d.Tells rows) (n : ℕ)
    (layout : Layout) (l : Code) : (d.addCode n layout l).Tells (rows ++ [⟨n, l⟩]) := by
  have hm : ∀ s, s ∈ CodeRow.statements (rows ++ [⟨n, l⟩]) ↔
      s ∈ CodeRow.statements rows ∨ s = l.statement := by
    simp [CodeRow.statements]
  refine ⟨?_, ?_, Or.inr ?_, ?_, ?_⟩
  · intro s
    have hf : (d.addCode n layout l).listing.statements.find? s = _ := FloorMap.find?_update ..
    rw [hf, CodeRow.firstPlace?_concat, h.statements, h.statements]
    by_cases hs : s = l.statement <;> simp [hs]
  · intro s hs
    rcases (hm s).mp hs with hs | rfl
    · exact (h.last_le s hs).trans (le_max_left ..)
    · exact le_max_right ..
  · rw [hm]
    change max d.listing.lastStatement l.statement ∈ _ ∨ max d.listing.lastStatement l.statement = _
    rcases h.last_mem with ⟨-, h0⟩ | hl
    · exact Or.inr (by rw [h0, Nat.zero_max])
    · rcases max_choice d.listing.lastStatement l.statement with he | he
      · exact Or.inl (he.symm ▸ hl)
      · exact Or.inr he
  · intro s hs
    rw [hm]
    rcases List.mem_append.mp hs with hs | hs
    · exact Or.inl (h.transitions s hs)
    · exact Or.inr (by simpa using (List.mem_ite_nil_right.mp hs).2)
  · intro s hs
    rw [hm]
    exact (mem_firstStatements_addCode hs).imp_left (h.firstStatements s)

theorem Tells.addReadings {d : Draft} {rows : List CodeRow} {rs : List Reading} (h : d.Tells rows)
    (hc : Consecutive d.listing.indicator d.place rs) :
    (d.addReadings rs).Tells (rows ++ rs.filterMap (·.row? d.listing.indicator)) := by
  induction rs generalizing d rows with
  | nil => simpa [Draft.addReadings] using h
  | cons r rs ih =>
    cases hl : r.code? d.listing.indicator with
    | none =>
      have hd := h.congr (addLine_of_not_code hc.1 hl).1
      have hi := ih hd hc.tail
      rw [indicator_addLine] at hi
      simpa [addReadings_cons, Reading.row?, hl] using hi
    | some l =>
      obtain ⟨layout, ha⟩ := addLine_of_code hc.1 hl
      have hd : (d.addLine r.number r.line).Tells (rows ++ [⟨r.number, l⟩]) :=
        ha ▸ h.addCode r.number layout l
      have hi := ih hd hc.tail
      rw [indicator_addLine] at hi
      simpa [addReadings_cons, Reading.row?, hl] using hi

theorem codeIndex_finish (d : Draft) (stop : ℕ) :
    ((d.finish stop).statements, (d.finish stop).lastStatement, d.transitions,
      (d.finish stop).blocks.filterMap (·.firstStatement)) = d.codeIndex := by
  obtain ⟨symbols, hf⟩ := flush_shape d
  obtain ⟨reports, blocks, hc⟩ := close_shape d.flush stop
  have hi : (d.flush.close stop).codeIndex = d.codeIndex := by
    rw [codeIndex_close, hf]
    rfl
  have ho : (d.flush.close stop).opened = none := by rw [hc]
  have ht : (d.flush.close stop).transitions = d.transitions := by rw [hc, hf]
  rw [← hi, codeIndex, firstStatements, ho, List.append_nil, ht]
  rfl

theorem sectionMap_finish (d : Draft) (stop : ℕ) :
    (d.finish stop).sectionMap = .classify (d.finish stop).lastStatement (d.finish stop).symbols
      (d.finish stop).blocks d.baseRegisters d.transitions := by
  obtain ⟨symbols, hf⟩ := flush_shape d
  obtain ⟨reports, blocks, hc⟩ := close_shape d.flush stop
  have hb : d.baseRegisters = (d.flush.close stop).baseRegisters := by rw [hc, hf]
  have ht : d.transitions = (d.flush.close stop).transitions := by rw [hc, hf]
  rw [hb, ht]
  rfl

end Draft

namespace Listing

theorem rows_ascending (l : Listing) (doc : Document) :
    (l.rows doc).Pairwise fun a b => a.number < b.number := by
  have hn : ∀ (q : Reading) (r : CodeRow), q.row? l.indicator = some r → r.number = q.number := by
    intro q r h
    obtain ⟨c, -, rfl⟩ := Option.map_eq_some_iff.mp h
    rfl
  refine (l.placed_ascending doc).filterMap _ ?_
  intro a b hab r hr q hq
  rw [hn a r hr, hn b q hq]
  exact hab

theorem number_mem_readings {l : Listing} {doc : Document} {r : CodeRow} (h : r ∈ l.rows doc) :
    r.number ∈ l.readings doc := by
  obtain ⟨q, hq, hr⟩ := List.mem_filterMap.mp h
  obtain ⟨c, -, rfl⟩ := Option.map_eq_some_iff.mp hr
  exact number_mem_of_placed hq

end Listing

/-- The draft of a listing tells what the rows of its object code say. -/
theorem Document.tells_draft (doc : Document) (l : Listing) :
    (doc.draft l.start l.indicator l.stop).Tells (l.rows doc) := by
  have hc : Consecutive l.indicator .first (l.placed doc) := doc.consecutive_placed ..
  have ht := (Draft.tells_startingAt l.start l.indicator).addReadings hc
  rw [doc.draft_eq_addReadings]
  exact ht

namespace Listing
section
variable {doc : Document} {l : Listing} (hl : l ∈ doc.listings)
include hl

theorem eq_finish_draft : l = (doc.draft l.start l.indicator l.stop).finish l.stop :=
  (doc.settled_listings.indexed l hl).finished

/-- What a listing keeps of its object code is what its draft had of it. -/
theorem codeIndex_draft :
    (l.statements, l.lastStatement, (doc.draft l.start l.indicator l.stop).transitions,
      l.blocks.filterMap (·.firstStatement)) =
        (doc.draft l.start l.indicator l.stop).codeIndex := by
  have hc := Draft.codeIndex_finish (doc.draft l.start l.indicator l.stop) l.stop
  rwa [← eq_finish_draft hl] at hc

theorem find?_statements (s : ℕ) :
    l.statements.find? s = CodeRow.firstPlace? (l.rows doc) s := by
  have hs : l.statements = (doc.draft l.start l.indicator l.stop).listing.statements :=
    congrArg Prod.fst (codeIndex_draft hl)
  rw [hs]
  exact (doc.tells_draft l).statements s

theorem mem_keys_statements {s : ℕ} :
    s ∈ l.statements.keys ↔ s ∈ CodeRow.statements (l.rows doc) := by
  rw [FloorMap.mem_keys, find?_statements hl, CodeRow.exists_firstPlace?_iff]

theorem isLeast_line {s : ℕ} {p : StatementLine} (hp : l.statements.find? s = some p) :
    IsLeast {n | ∃ r ∈ l.rows doc, r.code.statement = s ∧ r.number = n} p.line := by
  rw [find?_statements hl] at hp
  exact CodeRow.isLeast_of_firstPlace? (l.rows_ascending doc) hp

theorem containsLine_statement {s : ℕ} {p : StatementLine} (hp : l.statements.find? s = some p) :
    l.containsLine p.line := by
  obtain ⟨r, hr, -, hn⟩ := (isLeast_line hl hp).1
  obtain ⟨h₁, h₂, -⟩ := Document.mem_readings.mp (number_mem_readings hr)
  simp only [containsLine, ← hn, Bool.and_eq_true, decide_eq_true_eq]
  exact ⟨h₁, h₂⟩

/-- A line shows one statement. -/
theorem statement_unique {s t : ℕ} {p q : StatementLine} (hp : l.statements.find? s = some p)
    (hq : l.statements.find? t = some q) (h : p.line = q.line) : s = t := by
  obtain ⟨a, ha, rfl, hap⟩ := (isLeast_line hl hp).1
  obtain ⟨b, hb, rfl, hbq⟩ := (isLeast_line hl hq).1
  have hab : a = b := CodeRow.eq_of_number_eq (l.rows_ascending doc) ha hb (by rw [hap, hbq, h])
  rw [hab]

theorem isGreatest_lastStatement : l.statements.keys = [] ∧ l.lastStatement = 0 ∨
    IsGreatest {s | s ∈ l.statements.keys} l.lastStatement := by
  have ht := doc.tells_draft l
  have he : l.lastStatement = (doc.draft l.start l.indicator l.stop).listing.lastStatement :=
    congrArg (·.2.1) (codeIndex_draft hl)
  rw [he]
  rcases ht.last_mem with ⟨hn, h0⟩ | hm
  · left
    refine ⟨List.eq_nil_iff_forall_not_mem.mpr ?_, h0⟩
    intro s hs
    rw [mem_keys_statements hl, hn] at hs
    cases hs
  · right
    refine ⟨(mem_keys_statements hl).mpr hm, ?_⟩
    intro s hs
    exact ht.last_le s ((mem_keys_statements hl).mp hs)

theorem firstStatement_mem_keys {b : CodeBlock} {s : ℕ} (hb : b ∈ l.blocks)
    (hs : b.firstStatement = some s) : s ∈ l.statements.keys := by
  have hf : l.blocks.filterMap (·.firstStatement) =
      (doc.draft l.start l.indicator l.stop).firstStatements :=
    congrArg (·.2.2.2) (codeIndex_draft hl)
  have hm : s ∈ l.blocks.filterMap (·.firstStatement) := List.mem_filterMap.mpr ⟨b, hb, hs⟩
  rw [hf] at hm
  exact (mem_keys_statements hl).mpr ((doc.tells_draft l).firstStatements s hm)

end
end Listing

/-- Every statement that the object code of a listing shows is indexed, and no other: under the
first line that shows it, with the first location on its lines. The last statement is the greatest
of them, and the statements that open blocks and sections are among them. -/
theorem statements_first_places (doc : Document) (l : Listing) (hl : l ∈ doc.listings) :
    let rows := l.rows doc
    let d := doc.draft l.start l.indicator l.stop
    rows.Pairwise (fun a b => a.number < b.number) ∧
    (∀ s, s ∈ l.statements.keys ↔ ∃ r ∈ rows, r.code.statement = s) ∧
    (∀ s p, l.statements.find? s = some p →
      IsLeast {n | ∃ r ∈ rows, r.code.statement = s ∧ r.number = n} p.line ∧
      p.address = (rows.filter (·.code.statement = s)).findSome? (·.code.address) ∧
      l.containsLine p.line) ∧
    (∀ s t p q, l.statements.find? s = some p → l.statements.find? t = some q →
      p.line = q.line → s = t) ∧
    (l.statements.keys = [] ∧ l.lastStatement = 0 ∨
      IsGreatest {s | s ∈ l.statements.keys} l.lastStatement) ∧
    (∀ b ∈ l.blocks, ∀ s, b.firstStatement = some s → s ∈ l.statements.keys) ∧
    l.sectionMap = .classify l.lastStatement l.symbols l.blocks d.baseRegisters d.transitions ∧
    ∀ s ∈ d.transitions, s ∈ l.statements.keys := by
  intro rows d
  refine ⟨l.rows_ascending doc, ?_, ?_, fun s t p q => Listing.statement_unique hl,
    Listing.isGreatest_lastStatement hl, fun b hb s => Listing.firstStatement_mem_keys hl hb,
    ?_, ?_⟩
  · intro s
    rw [Listing.mem_keys_statements hl, CodeRow.statements, List.mem_map]
  · intro s p hp
    refine ⟨Listing.isLeast_line hl hp, ?_, Listing.containsLine_statement hl hp⟩
    rw [Listing.find?_statements hl, CodeRow.firstPlace?, Option.map_eq_some_iff] at hp
    obtain ⟨r, -, rfl⟩ := hp
    rfl
  · have hm := Draft.sectionMap_finish d l.stop
    rw [← Listing.eq_finish_draft hl] at hm
    exact hm
  · intro s hs
    exact (Listing.mem_keys_statements hl).mpr ((doc.tells_draft l).transitions s hs)

/-- Object code in which a statement goes on to a line with its location, and an earlier statement
is printed behind it. -/
def indexSample : Document where
  uri := "sample"
  lines :=
    [reportRow .optionSummary 1, titleRow "SAMPLE".toList 1,
      "  Loc  Object Code    Addr1 Addr2  Stmt   Source Statement".toList,
      List.replicate 37 ' ' ++ "2 MAIN     DS    0H".toList,
      "000004 18CF                           2 MAIN     LR    12,15".toList,
      "000000                00000 00018     1 SAMPLE   CSECT".toList, "Return Code 004".toList]

def indexListing : Listing := indexSample.listings.headD (.startingAt 0 false)

theorem statements_first_places_indexListing : indexListing ∈ indexSample.listings ∧
    indexListing.statements.entries = [(2, ⟨3, some 4⟩), (1, ⟨5, some 0⟩)] ∧
    IsLeast {n | ∃ r ∈ indexListing.rows indexSample, r.code.statement = 2 ∧ r.number = n} 3 ∧
    (indexListing.statements.keys = [] ∧ indexListing.lastStatement = 0 ∨
      IsGreatest {s | s ∈ indexListing.statements.keys} indexListing.lastStatement) := by
  have he : indexSample.listings.map (·.statements.entries) =
      [[(2, ⟨3, some 4⟩), (1, ⟨5, some 0⟩)]] := by decide +kernel
  obtain ⟨l, hs, he⟩ := List.map_eq_singleton_iff.mp he
  have hi : indexListing = l := by rw [indexListing, hs, List.headD_cons]
  have hl : indexListing ∈ indexSample.listings := by simp [hi, hs]
  rw [← hi] at he
  have hf : indexListing.statements.find? 2 = some ⟨3, some 4⟩ :=
    FloorMap.find?_eq_some_iff.mpr (by simp [he])
  obtain ⟨-, -, hp, -, hg, -⟩ := statements_first_places indexSample indexListing hl
  exact ⟨hl, he, (hp 2 ⟨3, some 4⟩ hf).1, hg⟩

end ListingIndex
