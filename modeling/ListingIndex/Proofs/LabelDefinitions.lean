import Mathlib
import ListingIndex.Proofs.TableChanges

/-! Labels and their definitions. A label gets a symbol of its own only where the cross references tell
nothing of its name, and they may tell of a name without a definition: a long name stands on a line
of its own, and the line with its columns may be missing. -/
namespace ListingIndex
open Line Text

/-- All groups of the symbol cross reference. -/
def Listing.symbolGroups (l : Listing) (doc : Document) : List SymbolGroup :=
  (stays (l.placed doc)).flatMap fun stay =>
    ListingIndex.symbolGroups (stay.filterMap (·.crossReference? l.indicator))

theorem NumberSet.eq_empty_iff {s : NumberSet} : s = .empty ↔ ∀ n, n ∉ s := by
  constructor
  · rintro rfl n
    exact not_mem_empty n
  · intro h
    exact ext fun n => ⟨fun hn => absurd hn (h n), fun hn => absurd hn (not_mem_empty n)⟩

theorem Symbol.defined_label_ne_empty (name : Text) (n : ℕ) : (label name n).defined ≠ .empty := by
  intro h
  exact NumberSet.eq_empty_iff.mp h n (NumberSet.mem_insert.mpr (Or.inl rfl))

/-- Only a group without columns leaves its symbol without a definition. -/
theorem SymbolGroup.defined_eq_empty_iff (g : SymbolGroup) :
    g.symbol.defined = .empty ↔ g.entries = [] := by
  have hm : ∀ n, n ∈ g.symbol.defined ↔ ∃ e ∈ g.entries, e.definedAt = n := by
    simp [symbol, NumberSet.mem_ofList]
  rw [NumberSet.eq_empty_iff, List.eq_nil_iff_forall_not_mem]
  constructor
  · intro h e he
    exact h e.definedAt ((hm _).mpr ⟨e, he, rfl⟩)
  · intro h n hn
    obtain ⟨e, he, -⟩ := (hm n).mp hn
    exact h e he

theorem exists_dsectSymbol_of_mem {name : Option Text} {ds : List Dsect} {s : Symbol}
    (h : s ∈ dsectSymbols name ds) : ∃ n e, s = dsectSymbol n e := by
  induction ds generalizing name with
  | nil => cases h
  | cons d ds ih =>
    cases d with
    | named n e =>
      rcases List.mem_append.mp h with h | h
      · obtain ⟨e, -, rfl⟩ := List.mem_map.mp h
        exact ⟨n, e, rfl⟩
      · exact ih h
    | continuation e =>
      rcases List.mem_append.mp h with h | h
      · obtain ⟨n, -, rfl⟩ := List.mem_map.mp h
        exact ⟨n, e, rfl⟩
      · exact ih h

/-- Groups are merged, and dummy sections fill in. -/
theorem exists_group_or_dsect_of_mem {indicator : Bool} {name : Option Text}
    {ss : List (List Reading)} {c : TableChange} (h : c ∈ tableChanges indicator name ss) :
    (∃ stay ∈ ss, ∃ g ∈ symbolGroups (stay.filterMap (·.crossReference? indicator)),
      c.symbol = g.symbol) ∨ ∃ n e, c.symbol = dsectSymbol n e := by
  induction ss generalizing name with
  | nil => cases h
  | cons stay ss ih =>
    rw [tableChanges_cons, List.mem_append, stayChanges, List.mem_append] at h
    rcases h with (h | h) | h
    · obtain ⟨g, hg, rfl⟩ := List.mem_map.mp h
      exact Or.inl ⟨stay, by simp, g, hg, rfl⟩
    · obtain ⟨s, hs, rfl⟩ := List.mem_map.mp h
      exact Or.inr (exists_dsectSymbol_of_mem hs)
    · rcases ih h with ⟨q, hq, hg⟩ | hd
      · exact Or.inl ⟨q, by simp [hq], hg⟩
      · exact Or.inr hd

namespace Listing

theorem defined_telling_eq_empty_iff {l : Listing} {doc : Document} {name : Text} {t : Symbol}
    (h : t ∈ l.tellings doc name) :
    t.defined = .empty ↔ ∃ g ∈ l.symbolGroups doc, t = g.symbol ∧ g.entries = [] := by
  obtain ⟨c, hc, rfl⟩ := mem_of_mem_tellings h
  constructor
  · intro he
    rcases exists_group_or_dsect_of_mem hc with ⟨stay, hs, g, hg, hgs⟩ | ⟨n, e, hd⟩
    · rw [hgs] at he
      exact ⟨g, List.mem_flatMap.mpr ⟨stay, hs, hg⟩, hgs, g.defined_eq_empty_iff.mp he⟩
    · rw [hd] at he
      exact absurd he (Symbol.defined_label_ne_empty n e.definedAt)
  · rintro ⟨g, -, hgs, he⟩
    rw [hgs]
    exact g.defined_eq_empty_iff.mpr he

end Listing

/-- A label has a symbol. That symbol lacks a definition only where all that the cross references tell
of its name are groups without columns. -/
theorem label_defined_unless_bare (doc : Document) (l : Listing) (r : Reading) (name : Text)
    (statement : ℕ) (hl : l ∈ doc.listings) (hr : r ∈ l.placed doc)
    (hn : r.label? l.indicator = some (name, statement)) :
    ∃ s, l.symbols.lookup name = some s ∧
      (s.defined = .empty ↔ l.tellings doc (canonical name) ≠ [] ∧
        ∀ t ∈ l.tellings doc (canonical name),
          ∃ g ∈ l.symbolGroups doc, t = g.symbol ∧ g.entries = []) := by
  have hf := Listing.find?_symbols (doc.settled_listings.indexed l hl) (canonical name)
  cases ht : Symbol.mergeAll? (l.tellings doc (canonical name)) with
  | none =>
    have hnil := Symbol.mergeAll?_eq_none_iff.mp ht
    -- nothing is told of the name, so that the first label of the name brings the symbol
    have hm : (name, statement) ∈ (l.placed doc).filterMap (·.label? l.indicator) :=
      List.mem_filterMap.mpr ⟨r, hr, hn⟩
    have hs : (((l.placed doc).filterMap (·.label? l.indicator)).find?
        (canonical ·.1 = canonical name)).isSome := by
      rw [List.find?_isSome]
      exact ⟨_, hm, by simp⟩
    obtain ⟨first, hfirst⟩ := Option.isSome_iff_exists.mp hs
    rw [ht, hfirst] at hf
    exact ⟨_, hf, by simp [hnil, Symbol.defined_label_ne_empty]⟩
  | some s =>
    have hne : l.tellings doc (canonical name) ≠ [] := by
      intro he
      rw [Symbol.mergeAll?_eq_none_iff.mpr he] at ht
      cases ht
    rw [ht, Option.some_or] at hf
    refine ⟨s, hf, ?_⟩
    calc
      s.defined = .empty ↔ ∀ t ∈ l.tellings doc (canonical name), t.defined = .empty := by
        simp only [NumberSet.eq_empty_iff, Symbol.mem_defined_mergeAll? ht]
        constructor
        · intro h t hm n hn
          exact h n ⟨t, hm, hn⟩
        · intro h n hn
          obtain ⟨t, hm, hn⟩ := hn
          exact h t hm n hn
      _ ↔ ∀ t ∈ l.tellings doc (canonical name),
          ∃ g ∈ l.symbolGroups doc, t = g.symbol ∧ g.entries = [] :=
        forall₂_congr fun t hm => Listing.defined_telling_eq_empty_iff hm
      _ ↔ _ := by simp [hne]

/-- A document that ends below a long name of the cross reference. The name is a label as well. -/
def bareNameSample : Document where
  uri := "sample"
  lines :=
    [reportRow .optionSummary 1, titleRow "SAMPLE".toList 2,
      "  Loc  Object Code    Addr1 Addr2  Stmt   Source Statement".toList,
      "000000                                1 LONGLABEL1 DS   F".toList,
      "000004                                2 SHORT    DS    F".toList,
      reportRow .symbolReferences 3,
      "Symbol   Length   Value     Id    R Type Asm  Program   Defn References".toList,
      "LONGLABEL1".toList]

def bareNameListing : Listing := bareNameSample.listings.headD (.startingAt 0 false)

/-- The line of object code `n` lines below the column header. -/
def bareNameReading (n : ℕ) : Reading :=
  ⟨3 + n, bareNameSample.line (3 + n), ⟨.code, some .short⟩⟩

theorem bareNameReading_spec : bareNameListing ∈ bareNameSample.listings ∧
    (bareNameReading 0 ∈ bareNameListing.placed bareNameSample ∧
      (bareNameReading 0).label? bareNameListing.indicator = some ("LONGLABEL1".toList, 1)) ∧
    (bareNameReading 1 ∈ bareNameListing.placed bareNameSample ∧
      (bareNameReading 1).label? bareNameListing.indicator = some ("SHORT".toList, 2)) ∧
    (bareNameListing.symbols.lookup "LONGLABEL1".toList).map (·.defined) = some .empty ∧
    bareNameListing.tellings bareNameSample "SHORT".toList = [] := by
  decide +kernel

theorem label_defined_unless_bare_bareNameListing :
    (bareNameListing ∈ bareNameSample.listings ∧
      bareNameReading 1 ∈ bareNameListing.placed bareNameSample ∧
      (bareNameReading 1).label? bareNameListing.indicator = some ("SHORT".toList, 2)) ∧
    ∃ s, bareNameListing.symbols.lookup "SHORT".toList = some s ∧ s.defined ≠ .empty := by
  obtain ⟨hl, -, ⟨hr, hn⟩, -, ht⟩ := bareNameReading_spec
  obtain ⟨s, hs, he⟩ := label_defined_unless_bare bareNameSample bareNameListing (bareNameReading 1)
    "SHORT".toList 2 hl hr hn
  refine ⟨⟨hl, hr, hn⟩, s, hs, ?_⟩
  rw [Ne, he]
  intro h
  exact h.1 ht

/-- A label need not have a definition: its symbol has none if the cross reference shows its name and
ends there. -/
theorem label_without_definition : ¬ ∀ (doc : Document) (l : Listing) (r : Reading) (name : Text)
    (statement : ℕ), l ∈ doc.listings → r ∈ l.placed doc →
    r.label? l.indicator = some (name, statement) →
    ∃ s, l.symbols.lookup name = some s ∧ s.defined ≠ .empty := by
  intro h
  obtain ⟨hl, ⟨hr, hn⟩, -, hd, -⟩ := bareNameReading_spec
  obtain ⟨s, hf, hne⟩ := h bareNameSample bareNameListing (bareNameReading 0) _ _ hl hr hn
  rw [hf] at hd
  exact hne (Option.some.inj hd)

end ListingIndex
