import Mathlib
import ListingIndex.Proofs.StatementIndex
import ListingIndex.Query.Symbol

/-! What is answered about the symbol under a cursor. Definitions, references and the quotation all go
from statements to lines in one way: a statement that is not printed goes with the closest printed
one in front of it. -/
namespace ListingIndex

def Location.line (x : Location) : ℕ := x.span.start.line

theorem NumberSet.sort_toFinset (s : NumberSet) : s.toList.toFinset.sort = s.toList :=
  (List.toFinset_sort (· ≤ ·) (s.ascending.imp Nat.ne_of_lt)).mpr (s.ascending.imp Nat.le_of_lt)

theorem Symbol.mem_statements {s : Symbol} {declarations : Bool} {k : ℕ} :
    k ∈ s.statements declarations ↔ k ∈ s.references ∨ declarations = true ∧ k ∈ s.defined := by
  cases declarations <;> simp [statements]

namespace Listing

/-- Line `n` shows the greatest printed statement up to `k`. -/
def ShownAt (l : Listing) (k n : ℕ) : Prop :=
  ∃ j place, IsGreatest {i | i ∈ l.statements.keys ∧ i ≤ k} j ∧
    l.statements.find? j = some place ∧ place.line = n

theorem lineNear?_eq_some_iff {l : Listing} {k n : ℕ} :
    l.lineNear? k = some n ↔ l.ShownAt k n := by
  have hk : ∀ i, i ∈ l.statements.keys ↔ ∃ a, (i, a) ∈ l.statements.entries := by
    intro i
    simp only [FloorMap.mem_keys, FloorMap.find?_eq_some_iff]
  constructor
  · intro h
    obtain ⟨e, he, hn⟩ := Option.map_eq_some_iff.mp h
    obtain ⟨hm, hle, hmax⟩ := FloorMap.floor?_eq_some_iff.mp he
    refine ⟨e.1, e.2, ⟨⟨(hk e.1).mpr ⟨e.2, hm⟩, hle⟩, ?_⟩, FloorMap.find?_eq_some_iff.mpr hm, hn⟩
    intro i hi
    obtain ⟨a, ha⟩ := (hk i).mp hi.1
    exact hmax (i, a) ha hi.2
  · intro h
    obtain ⟨j, place, hj, hf, hn⟩ := h
    refine Option.map_eq_some_iff.mpr ⟨(j, place), FloorMap.floor?_eq_some_iff.mpr ?_, hn⟩
    refine ⟨FloorMap.find?_eq_some_iff.mp hf, hj.1.2, ?_⟩
    intro e he hle
    exact hj.2 ⟨(hk e.1).mpr ⟨e.2, he⟩, hle⟩

theorem exists_shownAt {l : Listing} {j k : ℕ} (hj : j ∈ l.statements.keys) (h : j ≤ k) :
    ∃ n, l.ShownAt k n := by
  obtain ⟨a, ha⟩ := FloorMap.mem_keys.mp hj
  cases hf : l.lineNear? k with
  | some n => exact ⟨n, lineNear?_eq_some_iff.mp hf⟩
  | none =>
    have hn := List.find?_eq_none.mp (Option.map_eq_none_iff.mp hf)
    exact absurd h (by simpa using hn (j, a) (FloorMap.find?_eq_some_iff.mp ha))

theorem mem_linesNear {l : Listing} {ks : List ℕ} {n : ℕ} :
    n ∈ l.linesNear ks ↔ ∃ k ∈ ks, l.ShownAt k n := by
  simp only [linesNear, NumberSet.mem_ofList, List.mem_filterMap, lineNear?_eq_some_iff]

theorem referenceLines_true (l : Listing) (s : Symbol) :
    l.referenceLines s true = (l.referenceLines s false).union (l.definitionLines s) := by
  apply NumberSet.ext
  intro n
  rw [NumberSet.mem_union]
  unfold referenceLines definitionLines
  rw [mem_linesNear, mem_linesNear, mem_linesNear]
  constructor
  · intro h
    obtain ⟨k, hk, hs⟩ := h
    rcases Symbol.mem_statements.mp hk with hk | ⟨-, hk⟩
    · exact Or.inl ⟨k, Symbol.mem_statements.mpr (Or.inl hk), hs⟩
    · exact Or.inr ⟨k, hk, hs⟩
  · intro h
    rcases h with ⟨k, hk, hs⟩ | ⟨k, hk, hs⟩
    · have hk : k ∈ s.references := by simpa using Symbol.mem_statements.mp hk
      exact ⟨k, Symbol.mem_statements.mpr (Or.inl hk), hs⟩
    · exact ⟨k, Symbol.mem_statements.mpr (Or.inr ⟨rfl, hk⟩), hs⟩

theorem line_locations (l : Listing) (d : Document) (lines : NumberSet) :
    (l.locations d lines).map Location.line = lines.toList := by
  simp [locations, Function.comp_def, Location.line, sourceSpan, Span.onLine]

/-- The lines of some statements: each shows one of them, and no statement behind the first printed
one is left out. -/
structure LinesOf (l : Listing) (statements : ℕ → Prop) (lines : List ℕ) : Prop where
  shown : ∀ n ∈ lines, ∃ k, statements k ∧ l.ShownAt k n
  complete : ∀ k, statements k → (∃ j ∈ l.statements.keys, j ≤ k) → ∃ n ∈ lines, l.ShownAt k n

theorem linesOf_linesNear (l : Listing) (ks : NumberSet) :
    l.LinesOf (· ∈ ks) (l.linesNear ks.toList).toList := by
  refine ⟨?_, ?_⟩
  · intro n hn
    exact mem_linesNear.mp hn
  · intro k hk hj
    obtain ⟨j, hj, hle⟩ := hj
    obtain ⟨n, hn⟩ := exists_shownAt hj hle
    exact ⟨n, mem_linesNear.mpr ⟨k, hk, hn⟩, hn⟩

/-- Lines of a scanned listing stay inside it. -/
theorem ShownAt.containsLine {doc : Document} {l : Listing} (hl : l ∈ doc.listings) {k n : ℕ}
    (h : l.ShownAt k n) : l.containsLine n = true := by
  obtain ⟨j, place, -, hf, rfl⟩ := h
  exact containsLine_statement hl hf

theorem referenceLines_linesOf (l : Listing) (s : Symbol) (declarations : Bool) :
    l.LinesOf (fun k => k ∈ s.references ∨ declarations = true ∧ k ∈ s.defined)
      (l.referenceLines s declarations).toList := by
  have h := l.linesOf_linesNear (s.statements declarations)
  simp only [Symbol.mem_statements] at h
  exact h

section
variable (l : Listing) (d : Document) (o : Options) (p : Position)

def targetLines : List ℕ := (l.definitions d o p).map Location.line

def referencedLines (declarations : Bool) : List ℕ :=
  (l.references d o p declarations).locations.map Location.line

def quotedLines : List ℕ := (l.quotation? d o p).elim [] (·.lines)

variable {l d o p}

theorem answers_of_none (h : l.symbolAt? d o p = none) :
    l.definitions d o p = [] ∧ (∀ declarations, l.references d o p declarations = .none) ∧
      l.quotation? d o p = none := by
  simp [definitions, references, quotation?_eq, h]

theorem answers_of_some {s : Symbol} (h : l.symbolAt? d o p = some s) :
    l.targetLines d o p = (l.definitionLines s).toList ∧
      (∀ declarations, l.referencedLines d o p declarations =
        (l.referenceLines s declarations).toList) ∧
      l.quotedLines d o p = (l.definitionLines s).toList := by
  refine ⟨?_, ?_, ?_⟩
  · simp only [targetLines, definitions, h, line_locations]
  · intro declarations
    simp only [referencedLines, references, h, line_locations]
  · rw [quotedLines, quotation?_eq, h, Option.bind_some]
    cases (l.definitionLines s).toList <;> rfl

end
end Listing

/-- Definitions, references and the quotation of the symbol under a cursor have their lines in order,
and agree with each other: the quotation has the lines of the definitions, and these are all that is
added where declarations are asked for. Each line shows the closest printed statement up to one of
the symbol, every statement of the symbol that has one is answered for, and lines of a scanned
listing stay inside it. -/
theorem symbol_answers (l : Listing) (d : Document) (o : Options) (p : Position) :
    (l.targetLines d o p).Pairwise (· < ·) ∧
    (∀ declarations, (l.referencedLines d o p declarations).Pairwise (· < ·)) ∧
    l.quotedLines d o p = l.targetLines d o p ∧
    (l.quotation? d o p = none ↔ l.definitions d o p = []) ∧
    l.referencedLines d o p true =
      (l.referencedLines d o p false ++ l.targetLines d o p).toFinset.sort ∧
    ((l.nameAt? d o p).bind l.symbols.lookup = none →
      l.definitions d o p = [] ∧ ∀ declarations, l.references d o p declarations = .none) ∧
    (∀ s, (l.nameAt? d o p).bind l.symbols.lookup = some s →
      l.LinesOf (· ∈ s.defined) (l.targetLines d o p) ∧
      ∀ declarations, l.LinesOf (fun k => k ∈ s.references ∨ declarations = true ∧ k ∈ s.defined)
        (l.referencedLines d o p declarations)) ∧
    ∀ doc : Document, l ∈ doc.listings → ∀ n,
      n ∈ l.targetLines d o p ∨ (∃ declarations, n ∈ l.referencedLines d o p declarations) →
        l.containsLine n = true := by
  cases h : l.symbolAt? d o p with
  | none =>
    obtain ⟨hd, hr, hq⟩ := Listing.answers_of_none h
    have hs : (l.nameAt? d o p).bind l.symbols.lookup = none := h
    simp [Listing.targetLines, Listing.referencedLines, Listing.quotedLines, hd, hr, hq, hs,
      References.none]
  | some s =>
    obtain ⟨hd, hr, hq⟩ := Listing.answers_of_some h
    have hs : (l.nameAt? d o p).bind l.symbols.lookup = some s := h
    have hdef : l.LinesOf (· ∈ s.defined) (l.definitionLines s).toList :=
      l.linesOf_linesNear s.defined
    have hunion : (l.referenceLines s true).toList =
        ((l.referenceLines s false).toList ++ (l.definitionLines s).toList).toFinset.sort := by
      rw [← NumberSet.sort_toFinset, Listing.referenceLines_true]
      congr 1
      ext n
      rw [List.mem_toFinset, List.mem_toFinset, List.mem_append]
      exact NumberSet.mem_union
    have hnone : l.quotation? d o p = none ↔ l.definitions d o p = [] := by
      rw [Listing.quotation?_eq, Listing.definitions, h]
      simp [Listing.locations]
    have href : ∀ b, l.LinesOf (fun k => k ∈ s.references ∨ b = true ∧ k ∈ s.defined)
        (l.referencedLines d o p b) := by
      intro b
      rw [hr b]
      exact l.referenceLines_linesOf s b
    rw [hd, hq, hs, hr true, hr false]
    refine ⟨(l.definitionLines s).ascending, ?_, rfl, hnone, hunion, by simp, ?_, ?_⟩
    · intro b
      rw [hr b]
      exact (l.referenceLines s b).ascending
    · intro t ht
      obtain rfl := Option.some.inj ht
      exact ⟨hdef, href⟩
    · intro doc hl n hn
      rcases hn with hn | ⟨b, hn⟩
      · obtain ⟨k, -, hk⟩ := hdef.shown n hn
        exact hk.containsLine hl
      · obtain ⟨k, -, hk⟩ := (href b).shown n hn
        exact hk.containsLine hl

/-- A symbol with a definition and a reference that are not printed. -/
def answersSample : Document where
  uri := "sample"
  lines :=
    [Line.reportRow .optionSummary 1, Line.titleRow "SAMPLE".toList 1,
      "  Loc  Object Code    Addr1 Addr2  Stmt   Source Statement".toList,
      "000000                00000 00018     1 SAMPLE   CSECT".toList,
      "000004 18CF                           4          LR    12,15".toList,
      Line.titleRow (' ' :: Report.symbolReferences.title) 1, [],
      "SAMPLE       1 00000000 00000001     J                   2     4U   9".toList,
      "Return Code 004".toList]

def answersListing : Listing := answersSample.listings.headD (.startingAt 0 false)

theorem symbol_answers_answersListing : answersListing ∈ answersSample.listings ∧
    answersListing.targetLines answersSample .standard ⟨7, 2⟩ = [3] ∧
    answersListing.referencedLines answersSample .standard ⟨7, 2⟩ false = [4] ∧
    answersListing.referencedLines answersSample .standard ⟨7, 2⟩ true =
      ([4] ++ [3]).toFinset.sort ∧
    answersListing.containsLine 3 = true := by
  have he : answersSample.listings.map (fun l =>
      (l.targetLines answersSample .standard ⟨7, 2⟩,
        l.referencedLines answersSample .standard ⟨7, 2⟩ false)) = [([3], [4])] := by
    decide +kernel
  obtain ⟨l, hs, he⟩ := List.map_eq_singleton_iff.mp he
  have hi : answersListing = l := by rw [answersListing, hs, List.headD_cons]
  have hl : answersListing ∈ answersSample.listings := by simp [hi, hs]
  rw [← hi, Prod.mk.injEq] at he
  obtain ⟨-, -, -, -, hu, -, -, hc⟩ :=
    symbol_answers answersListing answersSample .standard ⟨7, 2⟩
  rw [he.1, he.2] at hu
  exact ⟨hl, he.1, he.2, hu, hc answersSample hl 3 (Or.inl (by simp [he.1]))⟩

end ListingIndex
