import Mathlib
import ListingIndex.Proofs.Place
import ListingIndex.Proofs.TitleLines

/-! The symbol table of a listing, told by the lines of its cross references. Lines of one stay in
the cross reference fall into groups, one for each name and the lines that continue it; a group says
all that is known of its symbol. Against this stands the scan, which holds the symbol of the latest
name back until the next name or the end of the stay. -/
namespace ListingIndex
open Line Text

namespace Line.CrossReference

/-- The name on a line that starts a group. -/
def name? : CrossReference → Option Text
  | entry name _ => some name
  | longName name => some name
  | deferred _ => none
  | more _ => none

/-- The columns of an entry, on the line of its name or below it. -/
def fields? : CrossReference → Option Entry
  | entry _ fields => some fields
  | deferred fields => some fields
  | longName _ => none
  | more _ => none

def items : CrossReference → List Reference
  | entry _ fields => Reference.readAll fields.references
  | deferred fields => Reference.readAll fields.references
  | longName _ => []
  | more references => Reference.readAll references

def isContinuation (r : CrossReference) : Bool := r.name?.isNone

end Line.CrossReference

open CrossReference

/-- A name and all lines that tell of it, the line of the name first. -/
structure SymbolGroup where
  name : Text
  lines : List CrossReference
deriving DecidableEq, Repr

/-- Every name starts a group, which takes all lines up to the next name. Lines in front of the
first name are left out. -/
def symbolGroups : List CrossReference → List SymbolGroup
  | [] => []
  | r :: rs => match r.name? with
    | some name => ⟨name, r :: rs.takeWhile isContinuation⟩ :: symbolGroups rs
    | none => symbolGroups rs

namespace SymbolGroup

def entries (g : SymbolGroup) : List Entry := g.lines.filterMap fields?

def items (g : SymbolGroup) : List Reference := g.lines.flatMap CrossReference.items

/-- The symbol that a group denotes: all definitions, all references, and the details of the last
entry. -/
def symbol (g : SymbolGroup) : Symbol where
  name := canonical g.name
  defined := .ofList (g.entries.map (·.definedAt))
  references := .ofList (g.items.map (·.statement))
  pureReferences := .ofList ((g.items.filter (·.isPure)).map (·.statement))
  details := g.entries.getLast?.map fun e =>
    { value := e.value
      sectionId := e.sectionId
      relocatable := e.relocatable
      undefined := e.typeFlag = 'U'
      locationCounter := e.typeFlag = 'J' }

end SymbolGroup

inductive TableChange where
  | merge (s : Symbol)
  | insertIfNew (s : Symbol)
deriving DecidableEq, Repr

def SymbolTable.apply (t : SymbolTable) : TableChange → SymbolTable
  | .merge s => t.merge s
  | .insertIfNew s => t.insertIfNew s

/-- The symbol of a dummy section, which starts at the beginning of its storage. -/
def dsectSymbol (name : Text) (e : DsectEntry) : Symbol where
  name := canonical name
  defined := .ofList [e.definedAt]
  references := .empty
  pureReferences := .empty
  details := some
    { value := 0
      sectionId := e.sectionId
      relocatable := true
      undefined := false
      locationCounter := true }

/-- A label says where its symbol is defined, and nothing else. -/
def labelSymbol (name : Text) (statement : ℕ) : Symbol where
  name := canonical name
  defined := .ofList [statement]
  references := .empty
  pureReferences := .empty
  details := none

/-- The symbols of dummy section lines below the name `name`. An entry on a line of its own goes with
the latest name. -/
def dsectSymbols : Option Text → List Dsect → List Symbol
  | _, [] => []
  | _, .named name e :: ds => e.toList.map (dsectSymbol name) ++ dsectSymbols (some name) ds
  | name, .continuation e :: ds => name.toList.map (dsectSymbol · e) ++ dsectSymbols name ds

def latestDsect : Option Text → List Dsect → Option Text
  | name, [] => name
  | _, .named name _ :: ds => latestDsect (some name) ds
  | name, .continuation _ :: ds => latestDsect name ds

/-- The lines that are read, cut into uninterrupted stays in one area. -/
def stays (rs : List Reading) : List (List Reading) :=
  rs.splitBy fun a b => a.place.area == b.place.area

section
variable (indicator : Bool)

/-- What one stay changes, below the dummy section name `name`. -/
def stayChanges (name : Option Text) (stay : List Reading) : List TableChange :=
  (symbolGroups (stay.filterMap (·.crossReference? indicator))).map (.merge ·.symbol) ++
    (dsectSymbols name (stay.filterMap (·.dsect? indicator))).map .insertIfNew

/-- What stays change, one after the other. -/
def tableChanges : Option Text → List (List Reading) → List TableChange
  | _, [] => []
  | name, stay :: rest => stayChanges indicator name stay ++
      tableChanges (latestDsect name (stay.filterMap (·.dsect? indicator))) rest

/-- The label on a line of object code, with its statement. -/
def Reading.label? (r : Reading) : Option (Text × ℕ) :=
  (r.code? indicator).bind fun l => l.label.map (·, l.statement)

end

/-- The symbol table of a listing, told by its lines. -/
def Listing.symbolsOf (l : Listing) (doc : Document) : SymbolTable :=
  let rs := l.placed doc
  (rs.filterMap (·.label? l.indicator)).foldl (fun t s => t.insertIfNew (labelSymbol s.1 s.2))
    ((tableChanges l.indicator none (stays rs)).foldl SymbolTable.apply .empty)

namespace Symbol

theorem foldl_addReference (s : Symbol) (rs : List Reference) :
    rs.foldl addReference s =
      { s with
        references := s.references.insertAll (rs.map (·.statement))
        pureReferences := s.pureReferences.insertAll ((rs.filter (·.isPure)).map (·.statement)) } := by
  induction rs generalizing s with
  | nil => rfl
  | cons r rs ih =>
    rw [List.foldl_cons, ih]
    by_cases hr : r.isPure <;> simp [addReference, NumberSet.insertAll, hr]

theorem addEntry_eq (s : Symbol) (e : Entry) :
    s.addEntry e =
      { s with
        defined := s.defined.insert e.definedAt
        references := s.references.insertAll ((Reference.readAll e.references).map (·.statement))
        pureReferences := s.pureReferences.insertAll
          (((Reference.readAll e.references).filter (·.isPure)).map (·.statement))
        details := some
          { value := e.value
            sectionId := e.sectionId
            relocatable := e.relocatable
            undefined := e.typeFlag = 'U'
            locationCounter := e.typeFlag = 'J' } } :=
  foldl_addReference _ _

/-- Adds what one line says of a symbol. -/
def extend (s : Symbol) : CrossReference → Symbol
  | .entry _ fields => s.addEntry fields
  | .longName _ => s
  | .deferred fields => s.addEntry fields
  | .more references => s.addReferences references

end Symbol

theorem NumberSet.insertAll_append (s : NumberSet) (a b : List ℕ) :
    s.insertAll (a ++ b) = (s.insertAll a).insertAll b := List.foldl_append

/-- One more line adds to a group what it adds to the symbol. -/
theorem SymbolGroup.symbol_concat (name : Text) (rs : List CrossReference) (r : CrossReference) :
    symbol ⟨name, rs ++ [r]⟩ = (symbol ⟨name, rs⟩).extend r := by
  have he : entries ⟨name, rs ++ [r]⟩ = entries ⟨name, rs⟩ ++ r.fields?.toList := by
    simp only [entries, List.filterMap_append]
    cases hr : r.fields? <;> simp [hr]
  have hi : items ⟨name, rs ++ [r]⟩ = items ⟨name, rs⟩ ++ r.items := by
    simp [items]
  simp only [symbol, he, hi]
  cases r with
  | entry n fields =>
    simp [Symbol.extend, Symbol.addEntry_eq, fields?, CrossReference.items, NumberSet.ofList,
      NumberSet.insertAll_append]
    rfl
  | longName n => simp [Symbol.extend, fields?, CrossReference.items]
  | deferred fields =>
    simp [Symbol.extend, Symbol.addEntry_eq, fields?, CrossReference.items, NumberSet.ofList,
      NumberSet.insertAll_append]
    rfl
  | more references =>
    simp [Symbol.extend, Symbol.addReferences, Symbol.foldl_addReference, fields?,
      CrossReference.items, NumberSet.ofList, NumberSet.insertAll_append]

theorem SymbolGroup.symbol_eq_foldl (name : Text) (rs : List CrossReference) :
    symbol ⟨name, rs⟩ = rs.foldl Symbol.extend (.ofName name) := by
  induction rs using List.reverseRecOn with
  | nil => rfl
  | append_singleton rs r ih => rw [symbol_concat, ih, List.foldl_concat]

/-- The symbols of cross reference lines below a symbol that is held back: that symbol with the lines
that continue it, then one for each group. -/
def heldSymbols (held : Option Symbol) (rs : List CrossReference) : List Symbol :=
  held.toList.map ((rs.takeWhile isContinuation).foldl Symbol.extend) ++
    (symbolGroups rs).map (·.symbol)

theorem heldSymbols_nil (held : Option Symbol) : heldSymbols held [] = held.toList := by
  cases held <;> rfl

theorem heldSymbols_name {r : CrossReference} {name : Text} (h : r.name? = some name)
    (held : Option Symbol) (rs : List CrossReference) :
    heldSymbols held (r :: rs) =
      held.toList ++ heldSymbols (some ((Symbol.ofName name).extend r)) rs := by
  have hc : r.isContinuation = false := by simp [isContinuation, h]
  simp [heldSymbols, symbolGroups, h, hc, SymbolGroup.symbol_eq_foldl]

theorem heldSymbols_continuation {r : CrossReference} (h : r.name? = none)
    (held : Option Symbol) (rs : List CrossReference) :
    heldSymbols held (r :: rs) = heldSymbols (held.map (·.extend r)) rs := by
  have hc : r.isContinuation = true := by simp [isContinuation, h]
  cases held <;> simp [heldSymbols, symbolGroups, h, hc]

namespace Draft

theorem flush_symbols (d : Draft) :
    d.flush.listing.symbols = d.pending.toList.foldl SymbolTable.merge d.listing.symbols := by
  unfold flush
  cases hp : d.pending <;> simp

theorem flush_pending (d : Draft) : d.flush.pending = none := by
  unfold flush
  cases hp : d.pending <;> simp [hp]

theorem flush_of_none {d : Draft} (h : d.pending = none) : d.flush = d := by
  simp [flush, h]

/-- The symbols read so far, and the one that is held back. -/
def symbolState (d : Draft) : SymbolTable × Option Symbol := (d.listing.symbols, d.pending)

theorem symbolState_close (d : Draft) (n : ℕ) : (d.close n).symbolState = d.symbolState := by
  obtain ⟨reports, blocks, hc⟩ := close_shape d n
  rw [hc]
  rfl

theorem symbolState_enter (d : Draft) (a : Area) :
    (d.enter a).symbolState = if a = d.area then d.symbolState else d.flush.symbolState := by
  unfold enter
  split <;> rfl

theorem symbolState_flush_congr {d e : Draft} (h : d.symbolState = e.symbolState) :
    d.flush.symbolState = e.flush.symbolState := by
  obtain ⟨hs, hp⟩ := Prod.mk.inj h
  refine Prod.ext ?_ ?_
  · exact (flush_symbols d).trans (by rw [hs, hp]; exact (flush_symbols e).symm)
  · exact (flush_pending d).trans (flush_pending e).symm

/-- Boundaries touch the symbols only where they lead to another area. -/
theorem symbolState_addBoundary (d : Draft) (n width : ℕ) (b : Boundary) :
    (d.addBoundary n width b).symbolState =
      if (d.place.after (some b)).area = d.area then d.symbolState else d.flush.symbolState := by
  have hc := symbolState_close d n
  have ha : (d.close n).area = d.area := by
    obtain ⟨reports, blocks, hs⟩ := close_shape d n
    rw [hs]
  cases b with
  | returnCode => exact hc.trans (if_pos rfl).symm
  | message code text => exact (if_pos rfl).symm
  | columns layout c => exact hc.trans (if_pos rfl).symm
  | report r =>
    have ho : ((d.close n).openReport n r).symbolState = d.symbolState := hc
    have hr := symbolState_enter ((d.close n).openReport n r) (d.area.afterReport r)
    rw [ho, symbolState_flush_congr ho, show ((d.close n).openReport n r).area = d.area from ha] at hr
    exact hr
  | page title =>
    have hr := symbolState_enter (d.close n) d.area.afterPage
    rw [hc, symbolState_flush_congr hc, ha] at hr
    exact hr

theorem pending_addBoundary {d : Draft} (h : d.pending = none) (n width : ℕ) (b : Boundary) :
    (d.addBoundary n width b).symbolState = d.symbolState := by
  rw [symbolState_addBoundary, flush_of_none h, ite_self]

end Draft

section
variable {d : Draft} {r : Reading} (hp : r.place = d.place)
include hp

theorem labels_addLine : (d.addLine r.number r.line).labels =
    d.labels ++ (r.label? d.listing.indicator).toList := by
  cases hl : r.code? d.listing.indicator with
  | none => simp [(Draft.addLine_of_not_code hp hl).2, Reading.label?, hl]
  | some l =>
    obtain ⟨layout, ha⟩ := Draft.addLine_of_code hp hl
    rw [ha]
    cases hn : l.label <;> simp [Reading.label?, hl, hn, Draft.addCode]

theorem dsectName_addLine : (d.addLine r.number r.line).dsectName =
    latestDsect d.dsectName (r.dsect? d.listing.indicator).toList := by
  cases hb : boundary? d.listing.indicator r.line with
  | some b =>
    rw [Draft.addLine_boundary hb, (d.boundaryFrame _ _ b).dsectName]
    simp [Reading.dsect?, Reading.record?_of_boundary hb, latestDsect]
  | none =>
    rw [Draft.addLine_record hb]
    have ha : r.place.area = d.area := congrArg Place.area hp
    by_cases hd : d.area = .dsects
    · rw [Reading.dsect?, Reading.record?_of_area hb (ha.trans hd)]
      simp only [Draft.addRecord, hd]
      cases Line.dsect? d.listing.indicator r.line with
      | none => rfl
      | some l =>
        cases l with
        | named name e => cases e <;> rfl
        | continuation e =>
          simp only [Option.elim, Draft.addDsect, Option.toList, latestDsect]
          split <;> rfl
    · rw [(d.recordFrame _ _).dsectName hd]
      simp [Reading.dsect?, Reading.record?_of_area_ne (ha.trans_ne hd), latestDsect]

/-- Outside the cross reference no symbol is held back, and only dummy section lines add symbols. -/
theorem symbols_addLine (ha : d.area ≠ .crossReferences) (hn : d.pending = none) :
    (d.addLine r.number r.line).pending = none ∧
      (d.addLine r.number r.line).listing.symbols =
        (dsectSymbols d.dsectName (r.dsect? d.listing.indicator).toList).foldl
          SymbolTable.insertIfNew d.listing.symbols := by
  cases hb : boundary? d.listing.indicator r.line with
  | some b =>
    obtain ⟨hs, hq⟩ := Prod.mk.inj (Draft.pending_addBoundary hn r.number r.line.length b)
    rw [Draft.addLine_boundary hb, hs, hq]
    exact ⟨hn, by simp [Reading.dsect?, Reading.record?_of_boundary hb, dsectSymbols]⟩
  | none =>
    rw [Draft.addLine_record hb]
    have hr : r.place.area = d.area := congrArg Place.area hp
    by_cases hd : d.area = .dsects
    · rw [Reading.dsect?, Reading.record?_of_area hb (hr.trans hd)]
      simp only [Draft.addRecord, hd]
      cases Line.dsect? d.listing.indicator r.line with
      | none => exact ⟨hn, rfl⟩
      | some l =>
        cases l with
        | named name e => cases e <;> exact ⟨hn, rfl⟩
        | continuation e =>
          simp only [Option.elim, Draft.addDsect, Option.toList, dsectSymbols]
          split
          · rename_i name hname
            rw [hname]
            exact ⟨hn, rfl⟩
          · rename_i hname
            rw [hname]
            exact ⟨hn, rfl⟩
    · have hf := d.recordFrame r.number r.line
      rw [hf.symbols ha hd, hf.pending ha]
      refine ⟨hn, ?_⟩
      simp [Reading.dsect?, Reading.record?_of_area_ne (hr.trans_ne hd), dsectSymbols]

end

theorem filterMap_cons_toList {α β : Type} (f : α → Option β) (a : α) (l : List α) :
    (a :: l).filterMap f = (f a).toList ++ l.filterMap f := by
  cases h : f a <;> simp [h]

theorem latestDsect_append (name : Option Text) (a b : List Dsect) :
    latestDsect name (a ++ b) = latestDsect (latestDsect name a) b := by
  induction a generalizing name with
  | nil => rfl
  | cons l a ih => cases l <;> exact ih _

theorem dsectSymbols_append (name : Option Text) (a b : List Dsect) :
    dsectSymbols name (a ++ b) = dsectSymbols name a ++ dsectSymbols (latestDsect name a) b := by
  induction a generalizing name with
  | nil => rfl
  | cons l a ih => cases l <;> simp [dsectSymbols, latestDsect, ih]

theorem labels_addReadings {d : Draft} {rs : List Reading}
    (h : Consecutive d.listing.indicator d.place rs) :
    (d.addReadings rs).labels = d.labels ++ rs.filterMap (·.label? d.listing.indicator) := by
  induction rs generalizing d with
  | nil => simp [Draft.addReadings]
  | cons r rs ih =>
    rw [Draft.addReadings_cons, ih h.tail, labels_addLine h.1, Draft.indicator_addLine,
      filterMap_cons_toList, List.append_assoc]

theorem dsectName_addReadings {d : Draft} {rs : List Reading}
    (h : Consecutive d.listing.indicator d.place rs) :
    (d.addReadings rs).dsectName =
      latestDsect d.dsectName (rs.filterMap (·.dsect? d.listing.indicator)) := by
  induction rs generalizing d with
  | nil => rfl
  | cons r rs ih =>
    rw [Draft.addReadings_cons, ih h.tail, dsectName_addLine h.1, Draft.indicator_addLine,
      filterMap_cons_toList, latestDsect_append]

theorem symbols_stay_outside {d : Draft} {rs : List Reading}
    (h : Consecutive d.listing.indicator d.place rs)
    (ha : ∀ r ∈ rs, r.place.area ≠ .crossReferences) (hn : d.pending = none) :
    (d.addReadings rs).pending = none ∧
      (d.addReadings rs).listing.symbols =
        (dsectSymbols d.dsectName (rs.filterMap (·.dsect? d.listing.indicator))).foldl
          SymbolTable.insertIfNew d.listing.symbols := by
  induction rs generalizing d with
  | nil => exact ⟨hn, rfl⟩
  | cons r rs ih =>
    have hr : d.area ≠ .crossReferences := by
      rw [show d.area = r.place.area from congrArg Place.area h.1.symm]
      exact ha r (by simp)
    obtain ⟨hq, hs⟩ := symbols_addLine h.1 hr hn
    obtain ⟨hq', hs'⟩ := ih h.tail (fun q hm => ha q (by simp [hm])) hq
    refine ⟨hq', ?_⟩
    rw [Draft.addReadings_cons, hs', hs, dsectName_addLine h.1, Draft.indicator_addLine,
      filterMap_cons_toList, dsectSymbols_append, List.foldl_append]

namespace Draft

theorem addCrossReference_name {r : CrossReference} {name : Text} (h : r.name? = some name)
    (d : Draft) : (d.addCrossReference r).symbolState =
      (d.flush.listing.symbols, some ((Symbol.ofName name).extend r)) := by
  cases r with
  | entry n fields =>
    cases h
    rfl
  | longName n =>
    cases h
    rfl
  | deferred fields => cases h
  | more references => cases h

theorem addCrossReference_continuation {r : CrossReference} (h : r.name? = none) (d : Draft) :
    (d.addCrossReference r).symbolState = (d.listing.symbols, d.pending.map (·.extend r)) := by
  cases r with
  | entry n fields => cases h
  | longName n => cases h
  | deferred fields => rfl
  | more references => rfl

end Draft

/-- A stay in the cross reference: when its last symbol is let go, all its groups are in the
table. -/
theorem symbols_stay_inside {d : Draft} {rs : List Reading}
    (h : Consecutive d.listing.indicator d.place rs)
    (ha : ∀ r ∈ rs, r.place.area = .crossReferences) :
    (d.addReadings rs).flush.listing.symbols =
      (heldSymbols d.pending (rs.filterMap (·.crossReference? d.listing.indicator))).foldl
        SymbolTable.merge d.listing.symbols := by
  induction rs generalizing d with
  | nil => rw [List.filterMap_nil, heldSymbols_nil, ← Draft.flush_symbols]; rfl
  | cons r rs ih =>
    have hr : r.place.area = .crossReferences := ha r (by simp)
    have hd : d.area = .crossReferences := (congrArg Place.area h.1).symm.trans hr
    have hi := ih h.tail fun q hm => ha q (by simp [hm])
    rw [Draft.indicator_addLine] at hi
    rw [Draft.addReadings_cons, filterMap_cons_toList]
    cases hb : boundary? d.listing.indicator r.line with
    | some b =>
      have hs := Draft.symbolState_addBoundary d r.number r.line.length b
      rw [← Draft.addLine_boundary hb] at hs
      rw [Reading.crossReference?, Reading.record?_of_boundary hb, Option.toList_none,
        List.nil_append]
      by_cases hsame : (d.place.after (some b)).area = d.area
      · rw [if_pos hsame] at hs
        obtain ⟨hs, hq⟩ := Prod.mk.inj hs
        rw [hi, hs, hq]
      · -- the boundary leads out of the area, so the stay ends here
        rw [if_neg hsame] at hs
        obtain ⟨hs, hq⟩ := Prod.mk.inj hs
        have hnil : rs = [] := by
          cases rs with
          | nil => rfl
          | cons q qs =>
            have hplace := congrArg Place.area h.2.1
            rw [hb, ha q (by simp), ← hd] at hplace
            exact absurd hplace.symm hsame
        subst hnil
        rw [hi, hs, hq, Draft.flush_pending, List.filterMap_nil, heldSymbols_nil, heldSymbols_nil,
          Draft.flush_symbols]
        rfl
    | none =>
      have hl : d.addLine r.number r.line =
          (Line.crossReference? d.listing.indicator r.line).elim d d.addCrossReference := by
        rw [Draft.addLine_record hb, Draft.addRecord, hd]
      rw [Reading.crossReference?, Reading.record?_of_area hb hr, hi, hl]
      cases Line.crossReference? d.listing.indicator r.line with
      | none => rfl
      | some x =>
        rw [Option.elim_some, Option.toList_some, List.singleton_append]
        cases hx : x.name? with
        | some name =>
          obtain ⟨hs, hq⟩ := Prod.mk.inj (Draft.addCrossReference_name hx d)
          rw [hs, hq, heldSymbols_name hx, List.foldl_append, Draft.flush_symbols]
        | none =>
          obtain ⟨hs, hq⟩ := Prod.mk.inj (Draft.addCrossReference_continuation hx d)
          rw [hs, hq, heldSymbols_continuation hx]

/-- No symbol is held back outside the cross reference. -/
def Draft.Tidy (d : Draft) : Prop := d.area ≠ .crossReferences → d.pending = none

theorem Draft.Tidy.addLine {d : Draft} (h : d.Tidy) (n : ℕ) (line : Text) :
    (d.addLine n line).Tidy := by
  cases hb : boundary? d.listing.indicator line with
  | some b =>
    rw [Draft.addLine_boundary hb]
    have hp := (d.boundaryFrame n line.length b).place
    have hs := d.symbolState_addBoundary n line.length b
    intro ha
    by_cases hsame : (d.place.after (some b)).area = d.area
    · rw [if_pos hsame] at hs
      rw [(Prod.mk.inj hs).2]
      apply h
      rwa [← hsame, ← hp]
    · rw [if_neg hsame] at hs
      exact (Prod.mk.inj hs).2.trans d.flush_pending
  | none =>
    rw [Draft.addLine_record hb]
    have hf := d.recordFrame n line
    have hp : (d.addRecord n line).area = d.area := congrArg Place.area hf.place
    intro ha
    rw [hp] at ha
    rw [hf.pending ha]
    exact h ha

theorem Draft.Tidy.addReadings {d : Draft} (h : d.Tidy) (rs : List Reading) :
    (d.addReadings rs).Tidy := by
  induction rs generalizing d with
  | nil => exact h
  | cons r rs ih => exact ih (h.addLine r.number r.line)

section
variable {d : Draft} {stay : List Reading} {a : Area}
  (hc : Consecutive d.listing.indicator d.place stay) (ha : ∀ r ∈ stay, r.place.area = a)
  (hn : d.pending = none)
include hc ha hn

theorem symbols_stay : (d.addReadings stay).flush.listing.symbols =
    (stayChanges d.listing.indicator d.dsectName stay).foldl SymbolTable.apply
      d.listing.symbols := by
  by_cases hr : a = .crossReferences
  · subst hr
    have hd : stay.filterMap (·.dsect? d.listing.indicator) = [] := by
      rw [List.filterMap_eq_nil_iff]
      intro r hm
      exact Reading.record?_of_area_ne (by rw [ha r hm]; decide)
    rw [symbols_stay_inside hc ha, hn, stayChanges, hd, heldSymbols, dsectSymbols, List.map_nil,
      List.append_nil, List.foldl_map, Option.toList_none, List.map_nil, List.nil_append,
      List.foldl_map]
    rfl
  · have hx : stay.filterMap (·.crossReference? d.listing.indicator) = [] := by
      rw [List.filterMap_eq_nil_iff]
      intro r hm
      exact Reading.record?_of_area_ne (by rw [ha r hm]; exact hr)
    obtain ⟨hq, hs⟩ := symbols_stay_outside hc (fun r hm => by rw [ha r hm]; exact hr) hn
    rw [Draft.flush_of_none hq, hs, stayChanges, hx, symbolGroups, List.map_nil, List.nil_append,
      List.foldl_map]
    rfl

/-- A stay that has led out of its area leaves no symbol behind. -/
theorem pending_stay (hne : (d.addReadings stay).area ≠ a) :
    (d.addReadings stay).pending = none := by
  by_cases hr : a = .crossReferences
  · have ht : d.Tidy := fun _ => hn
    exact ht.addReadings stay (by rwa [← hr])
  · exact (symbols_stay_outside hc (fun r hm => by rw [ha r hm]; exact hr) hn).1

end

theorem isChain_area {rs : List Reading} (h : rs.IsChain fun a b => a.place.area == b.place.area) :
    ∃ a, ∀ r ∈ rs, r.place.area = a := by
  cases rs with
  | nil => exact ⟨.options, by simp⟩
  | cons q rs =>
    refine ⟨q.place.area, ?_⟩
    induction rs generalizing q with
    | nil => simp
    | cons p rs ih =>
      obtain ⟨hqp, hc⟩ := List.isChain_cons_cons.mp h
      have he : q.place.area = p.place.area := by simpa using hqp
      intro r hm
      rcases List.mem_cons.mp hm with rfl | hm
      · rfl
      · rw [he]
        exact ih p hc r hm

theorem tableChanges_cons (indicator : Bool) (name : Option Text) (stay : List Reading)
    (rest : List (List Reading)) : tableChanges indicator name (stay :: rest) =
      stayChanges indicator name stay ++
        tableChanges indicator (latestDsect name (stay.filterMap (·.dsect? indicator))) rest := rfl

/-- Stays one after the other, each in another area than the one before it. -/
theorem symbols_stays {ss : List (List Reading)} {d : Draft}
    (hc : Consecutive d.listing.indicator d.place ss.flatten)
    (hu : ∀ stay ∈ ss, stay.IsChain fun a b => a.place.area == b.place.area)
    (hch : ss.IsChain fun a b => ∃ ha hb,
      ((a.getLast ha).place.area == (b.head hb).place.area) = false)
    (hn : d.pending = none) :
    (d.addReadings ss.flatten).flush.listing.symbols =
      (tableChanges d.listing.indicator d.dsectName ss).foldl SymbolTable.apply
        d.listing.symbols := by
  induction ss generalizing d with
  | nil =>
    rw [List.flatten_nil, Draft.addReadings, List.foldl_nil, Draft.flush_of_none hn]
    rfl
  | cons stay ss ih =>
    obtain ⟨h₁, h₂⟩ := consecutive_append hc
    obtain ⟨a, ha⟩ := isChain_area (hu stay (by simp))
    have hs := symbols_stay h₁ ha hn
    cases ss with
    | nil =>
      rw [List.flatten_singleton, hs]
      simp [tableChanges]
    | cons next rest =>
      obtain ⟨hlast, hhead, hdiff⟩ := (List.isChain_cons_cons.mp hch).1
      have hne : (d.addReadings stay).area ≠ a := by
        obtain ⟨q, qs, rfl⟩ := List.exists_cons_of_ne_nil hhead
        have hq : q.place = (d.addReadings stay).place := h₂.1
        have hl := ha _ (List.getLast_mem hlast)
        intro he
        have hqa : q.place.area = a := (congrArg Place.area hq).trans he
        rw [hl, List.head_cons, hqa, beq_self_eq_true] at hdiff
        exact Bool.noConfusion hdiff
      have hp := pending_stay h₁ ha hn hne
      rw [Draft.flush_of_none hp] at hs
      rw [← Draft.indicator_addReadings d stay] at h₂
      have hi := ih h₂ (fun s hm => hu s (List.mem_cons_of_mem _ hm)) hch.tail hp
      rw [List.flatten_cons, Draft.addReadings_append, hi, hs, dsectName_addReadings h₁,
        Draft.indicator_addReadings, tableChanges_cons _ _ stay, List.foldl_append]

theorem Draft.symbols_finish (d : Draft) (stop : ℕ) : (d.finish stop).symbols =
    d.labels.foldl (fun t s => t.insertIfNew (.label s.1 s.2)) d.flush.listing.symbols := by
  obtain ⟨symbols, hf⟩ := flush_shape d
  obtain ⟨reports, blocks, hc⟩ := close_shape d.flush stop
  have hb : d.flush.labels = d.labels := by rw [hf]
  simp only [finish, addLabels]
  rw [hc, ← hb]

/-- The symbol table of a listing is the one that its groups of cross reference lines, its dummy
section lines and its labels make. -/
theorem symbols_eq_symbolsOf (doc : Document) (l : Listing) (hl : l ∈ doc.listings) :
    l.symbols = l.symbolsOf doc := by
  let d : Draft := .startingAt l.start l.indicator
  have hi : l = (d.addReadings (l.placed doc)).finish l.stop :=
    (doc.settled_listings.indexed l hl).finish_placed
  have hc : Consecutive l.indicator .first (l.placed doc) :=
    doc.consecutive_placed l.indicator .first (l.readings doc)
  have hf : (stays (l.placed doc)).flatten = l.placed doc := List.flatten_splitBy _ _
  have hch := List.isChain_getLast_head_splitBy
    (fun a b : Reading => a.place.area == b.place.area) (l.placed doc)
  have hfc : Consecutive l.indicator .first (stays (l.placed doc)).flatten := by rwa [hf]
  have hs := symbols_stays (d := d) hfc (fun stay hm => List.isChain_of_mem_splitBy hm) hch rfl
  have hb := labels_addReadings (d := d) hc
  rw [hf] at hs
  calc
    l.symbols = ((d.addReadings (l.placed doc)).finish l.stop).symbols := congrArg Listing.symbols hi
    _ = l.symbolsOf doc := by
      rw [Draft.symbols_finish, hs, hb]
      rfl

/-- A label in object code, two symbols of the cross reference, of which the first takes up two lines,
and a dummy section. The entry in the place of the column headings is passed over, so the line below
it goes to no symbol. -/
def groupsSample : Document where
  uri := "sample"
  lines :=
    [reportRow .optionSummary 1, titleRow "SAMPLE".toList 2,
      "  Loc  Object Code    Addr1 Addr2  Stmt   Source Statement".toList,
      "000004 18CF                           5 LOOP     LR    12,15".toList,
      reportRow .symbolReferences 3,
      "HIDDEN       1 00000000 00000001     J                   1     4U".toList,
      List.replicate 60 ' ' ++ "19 20".toList,
      "SAMPLE       1 00000000 00000001     J                   1     4U".toList,
      List.replicate 60 ' ' ++ "17 18".toList,
      "LIMIT        1 0000001F 00000001 A   U                   7     9M".toList,
      reportRow .dsectReferences 4, "WORKAREA  00000008  FFFFFFFF      12".toList,
      "Return Code 004".toList]

def groupsListing : Listing := groupsSample.listings.headD (.startingAt 0 false)

def groupsSymbols : List Symbol :=
  [⟨"SAMPLE".toList, .ofList [1], .ofList [4, 17, 18], .ofList [17, 18],
      some ⟨0, 1, true, false, true⟩⟩,
    ⟨"LIMIT".toList, .ofList [7], .ofList [9], .empty, some ⟨0x1F, 1, false, true, false⟩⟩,
    ⟨"WORKAREA".toList, .ofList [12], .empty, .empty, some ⟨0, -1, true, false, true⟩⟩,
    ⟨"LOOP".toList, .ofList [5], .empty, .empty, none⟩]

theorem groupsListing_spec : groupsListing ∈ groupsSample.listings ∧
    groupsListing.symbols.values = groupsSymbols := by
  have hs : groupsSample.listings.map (·.symbols.values) = [groupsSymbols] := by decide +kernel
  obtain ⟨l, hl, hv⟩ := List.map_eq_singleton_iff.mp hs
  have hi : groupsListing = l := by rw [groupsListing, hl, List.headD_cons]
  rw [hi, hl]
  exact ⟨List.mem_singleton_self l, hv⟩

theorem symbols_eq_symbolsOf_groupsListing : groupsListing ∈ groupsSample.listings ∧
    groupsListing.symbols = groupsListing.symbolsOf groupsSample ∧
    groupsListing.symbols.values = groupsSymbols := by
  obtain ⟨hl, hv⟩ := groupsListing_spec
  exact ⟨hl, symbols_eq_symbolsOf groupsSample groupsListing hl, hv⟩

end ListingIndex
