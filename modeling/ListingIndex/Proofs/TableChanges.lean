import Mathlib
import ListingIndex.Proofs.SymbolGroups

/-! What a symbol table holds of one name. Of all changes of a table those of the name count: the first
one brings the symbol, and every merge behind it adds to the symbol. -/
namespace ListingIndex
open Line Text

namespace TableChange

def symbol : TableChange → Symbol
  | merge s => s
  | insertIfNew s => s

def merged? : TableChange → Option Symbol
  | merge s => some s
  | insertIfNew _ => none

/-- The symbols that count of changes of one name. -/
def counted : List TableChange → List Symbol
  | [] => []
  | c :: rest => c.symbol :: rest.filterMap merged?

theorem mem_of_mem_counted {cs : List TableChange} {s : Symbol} (h : s ∈ counted cs) :
    ∃ c ∈ cs, c.symbol = s := by
  cases cs with
  | nil => cases h
  | cons b rest =>
    rcases List.mem_cons.mp h with rfl | h
    · exact ⟨b, by simp, rfl⟩
    · obtain ⟨c, hc, hm⟩ := List.mem_filterMap.mp h
      refine ⟨c, by simp [hc], ?_⟩
      cases c with
      | merge t => exact Option.some.inj hm
      | insertIfNew t => cases hm

end TableChange

/-- What changes tell of a name: the symbol of the first change, and those of the merges behind it. -/
def tellings (name : Text) (cs : List TableChange) : List Symbol :=
  TableChange.counted (cs.filter (·.symbol.name = name))

theorem tellings_ne_nil_iff {name : Text} {cs : List TableChange} :
    tellings name cs ≠ [] ↔ ∃ c ∈ cs, c.symbol.name = name := by
  have hc : ∀ bs, TableChange.counted bs ≠ [] ↔ bs ≠ [] := by
    intro bs
    cases bs <;> simp [TableChange.counted]
  rw [tellings, hc]
  simp [List.filter_eq_nil_iff]

theorem mem_of_mem_tellings {name : Text} {cs : List TableChange} {s : Symbol}
    (h : s ∈ tellings name cs) : ∃ c ∈ cs, c.symbol = s := by
  obtain ⟨c, hm, rfl⟩ := TableChange.mem_of_mem_counted h
  exact ⟨c, List.mem_of_mem_filter hm, rfl⟩

/-- Merges symbols into the first of them. -/
def Symbol.mergeAll? : List Symbol → Option Symbol
  | [] => none
  | s :: ss => some (ss.foldl Symbol.merge s)

theorem Symbol.mergeAll?_concat (ss : List Symbol) (s : Symbol) :
    mergeAll? (ss ++ [s]) = some (((mergeAll? ss).map (·.merge s)).getD s) := by
  cases ss with
  | nil => rfl
  | cons t ts => simp [mergeAll?]

theorem Symbol.mergeAll?_eq_none_iff {ss : List Symbol} : mergeAll? ss = none ↔ ss = [] := by
  cases ss <;> simp [mergeAll?]

section
variable (cs : List TableChange) (s : Symbol)

theorem mergeAll?_tellings_merge : Symbol.mergeAll? (tellings s.name (cs ++ [.merge s])) =
    some (((Symbol.mergeAll? (tellings s.name cs)).map (·.merge s)).getD s) := by
  have hc : tellings s.name (cs ++ [.merge s]) = tellings s.name cs ++ [s] := by
    simp only [tellings, List.filter_append]
    cases cs.filter (·.symbol.name = s.name) <;>
      simp [TableChange.counted, TableChange.symbol, TableChange.merged?]
  rw [hc, Symbol.mergeAll?_concat]

theorem mergeAll?_tellings_insertIfNew :
    Symbol.mergeAll? (tellings s.name (cs ++ [.insertIfNew s])) =
      some ((Symbol.mergeAll? (tellings s.name cs)).getD s) := by
  have hm : [TableChange.insertIfNew s].filterMap TableChange.merged? = [] := rfl
  simp only [tellings, List.filter_append]
  cases cs.filter (·.symbol.name = s.name) <;>
    simp [TableChange.counted, TableChange.symbol, Symbol.mergeAll?, hm]

theorem tellings_concat_of_ne {name : Text} {c : TableChange} (h : c.symbol.name ≠ name) :
    tellings name (cs ++ [c]) = tellings name cs := by
  simp [tellings, List.filter_append, h]

end

/-- A symbol that is merged from others has all the statements of each kind that they have. -/
theorem Symbol.mem_mergeAll? {kind : Symbol → NumberSet}
    (hk : ∀ s t : Symbol, kind (s.merge t) = (kind s).union (kind t)) {ss : List Symbol} {s : Symbol}
    (h : mergeAll? ss = some s) {n : ℕ} : n ∈ kind s ↔ ∃ t ∈ ss, n ∈ kind t := by
  induction ss using List.reverseRecOn generalizing s with
  | nil => cases h
  | append_singleton ss t ih =>
    rw [mergeAll?_concat] at h
    cases hs : mergeAll? ss with
    | none =>
      rw [hs] at h
      obtain rfl := Option.some.inj h
      simp [mergeAll?_eq_none_iff.mp hs]
    | some u =>
      rw [hs] at h
      obtain rfl := Option.some.inj h
      rw [Option.map_some, Option.getD_some, hk, NumberSet.mem_union, ih hs]
      simp only [List.mem_append, List.mem_singleton, or_and_right, exists_or, exists_eq_left]

theorem Symbol.mem_defined_mergeAll? {ss : List Symbol} {s : Symbol} (h : mergeAll? ss = some s)
    {n : ℕ} : n ∈ s.defined ↔ ∃ t ∈ ss, n ∈ t.defined :=
  mem_mergeAll? (fun _ _ => rfl) h

namespace SymbolTable

theorem find?_merge (t : SymbolTable) (s : Symbol) (name : Text) :
    (t.merge s).find? name =
      if name = s.name then some (((t.find? s.name).map (·.merge s)).getD s) else t.find? name :=
  Dictionary.find?_update ..

/-- The symbol of a name is what the changes of the table tell of it. -/
theorem find?_foldl_apply (cs : List TableChange) (name : Text) :
    (cs.foldl SymbolTable.apply .empty).find? name = Symbol.mergeAll? (tellings name cs) := by
  induction cs using List.reverseRecOn with
  | nil => rfl
  | append_singleton cs c ih =>
    rw [List.foldl_concat]
    by_cases hn : c.symbol.name = name
    · cases c with
      | merge s =>
        obtain rfl : s.name = name := hn
        rw [SymbolTable.apply, find?_merge, if_pos rfl, ih, mergeAll?_tellings_merge]
      | insertIfNew s =>
        obtain rfl : s.name = name := hn
        rw [SymbolTable.apply, SymbolTable.insertIfNew, Dictionary.find?_insertIfNew, if_pos rfl, ih,
          mergeAll?_tellings_insertIfNew]
    · rw [tellings_concat_of_ne cs hn, ← ih]
      cases c with
      | merge s => exact (find?_merge ..).trans (if_neg (Ne.symm hn))
      | insertIfNew s => exact (Dictionary.find?_insertIfNew ..).trans (if_neg (Ne.symm hn))

/-- A label gets into the table where no symbol of its name is, the first one of each name. -/
theorem find?_foldl_label (ls : List (Text × ℕ)) (t : SymbolTable) (name : Text) :
    (ls.foldl (fun t l => t.insertIfNew (.label l.1 l.2)) t).find? name =
      (t.find? name).or ((ls.find? (canonical ·.1 = name)).map fun l => .label l.1 l.2) := by
  induction ls generalizing t with
  | nil => simp
  | cons l ls ih =>
    have hf : (t.insertIfNew (.label l.1 l.2)).find? name =
        if name = canonical l.1 then some ((t.find? (canonical l.1)).getD (.label l.1 l.2))
        else t.find? name := Dictionary.find?_insertIfNew ..
    rw [List.foldl_cons, ih, hf]
    by_cases hn : canonical l.1 = name
    · subst hn
      cases t.find? (canonical l.1) <;> simp
    · simp [hn, Ne.symm hn]

end SymbolTable

/-- The symbols of a listing before its labels are added. -/
theorem Document.flush_symbols_draft (doc : Document) (start : ℕ) (indicator : Bool) (stop : ℕ) :
    (doc.draft start indicator stop).flush.listing.symbols =
      (tableChanges indicator none (stays (doc.placed indicator .first
        (doc.readings start indicator stop)))).foldl SymbolTable.apply .empty := by
  generalize hr : doc.placed indicator .first (doc.readings start indicator stop) = rs
  have hf : (stays rs).flatten = rs := List.flatten_splitBy _ _
  have hc : Consecutive indicator .first (stays rs).flatten := by
    rw [hf, ← hr]
    exact doc.consecutive_placed indicator .first _
  have hch := List.isChain_getLast_head_splitBy
    (fun a b : Reading => a.place.area == b.place.area) rs
  have hs := symbols_stays (d := .startingAt start indicator) hc
    (fun stay hm => List.isChain_of_mem_splitBy hm) hch rfl
  rw [hf] at hs
  rw [doc.draft_eq_addReadings, hr, hs]
  rfl

namespace Listing

/-- What the cross references of a listing tell of a name. -/
def tellings (l : Listing) (doc : Document) (name : Text) : List Symbol :=
  ListingIndex.tellings name (tableChanges l.indicator none (stays (l.placed doc)))

/-- A symbol is what the cross references tell of its name, or else its first label. -/
theorem find?_symbols {doc : Document} {l : Listing} (h : doc.Indexes l) (name : Text) :
    l.symbols.find? name = (Symbol.mergeAll? (l.tellings doc name)).or
      ((((l.placed doc).filterMap (·.label? l.indicator)).find? (canonical ·.1 = name)).map
        fun s => .label s.1 s.2) := by
  have hc : Consecutive l.indicator .first (l.placed doc) := doc.consecutive_placed ..
  have hb := labels_addReadings (d := .startingAt l.start l.indicator) hc
  have hs : l.symbols = _ := (congrArg Listing.symbols h.finished).trans (Draft.symbols_finish ..)
  have hl : (doc.draft l.start l.indicator l.stop).labels =
      (l.placed doc).filterMap (·.label? l.indicator) := by
    rw [doc.draft_eq_addReadings]
    exact hb
  rw [hs, hl, SymbolTable.find?_foldl_label, doc.flush_symbols_draft, SymbolTable.find?_foldl_apply]
  rfl

end Listing
end ListingIndex
