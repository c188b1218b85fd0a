import Mathlib
import ListingIndex.Proofs.Simulation
import ListingIndex.Proofs.SymbolGroups

/-! Which symbol a continuation line of the cross reference speaks of. Another text in place of the
line shows it: two scans that part at the line stay together, save for one symbol, the one that is
held back when the line comes. That is the symbol of the latest name that could be read, which need
not stand on the first line of the entry. -/
namespace ListingIndex
open Line Text CrossReference

namespace Reading

/-- The name on a line of the cross reference. -/
def name? (indicator : Bool) (r : Reading) : Option Text :=
  (r.crossReference? indicator).bind CrossReference.name?

/-- The first line of an entry, whether it can be read or not, shows something in its first column. -/
def startsEntry (indicator : Bool) (r : Reading) : Bool :=
  (boundary? indicator r.line).isNone &&
    (behindIndicator indicator r.line).any fun s => s.head?.any (· != ' ')

/-- The latest first line of an entry in a stay. -/
def entryLine? (indicator : Bool) (stay : List Reading) : Option Reading :=
  (stay.filter (·.startsEntry indicator)).getLast?

def latestName? (indicator : Bool) (stay : List Reading) : Option Text :=
  (stay.filterMap (·.name? indicator)).getLast?

end Reading

/-- The end of lines that stands in the cross reference. -/
def lastStay (rs : List Reading) : List Reading := rs.rtakeWhile (·.place.area = .crossReferences)

namespace Listing

/-- The first line of the entry that goes on at line `n`. -/
def entryLine? (l : Listing) (doc : Document) (n : ℕ) : Option Reading :=
  Reading.entryLine? l.indicator (lastStay (l.above doc n))

def entryName? (l : Listing) (doc : Document) (n : ℕ) : Option Text :=
  (l.entryLine? doc n).bind (·.name? l.indicator)

/-- The latest name above line `n` in the same stay. -/
def latestName? (l : Listing) (doc : Document) (n : ℕ) : Option Text :=
  Reading.latestName? l.indicator (lastStay (l.above doc n))

end Listing

/-! Tables, drafts and listings that differ in one symbol -/

section
variable (owner : Option Text)

def Symbol.SameBut (s t : Symbol) : Prop := t.name = s.name ∧ (some s.name ≠ owner → t = s)

/-- Two tables with the same names, that differ in the symbol `owner` at most. -/
def SymbolTable.SameBut (t u : SymbolTable) : Prop :=
  List.Forall₂ (fun a b => b.1 = a.1 ∧ (some a.1 ≠ owner → b.2 = a.2)) t.entries u.entries

/-- Two listings that differ in the symbol `owner` at most, and in what follows from the symbols. -/
structure Listing.SameBut (l k : Listing) : Prop where
  rest : k = { l with symbols := k.symbols, sectionMap := k.sectionMap }
  symbols : l.symbols.SameBut owner k.symbols
  sectionMap : k.symbols = l.symbols → k.sectionMap = l.sectionMap

end

/-- The document with another text on line `n`. -/
def Document.withLine (doc : Document) (n : ℕ) (line : Text) : Document :=
  { doc with lines := doc.lines.set n line }

/-- Whether a line that stands in the cross reference neither ends a stay nor brings a name. -/
def Line.Continues (indicator : Bool) (line : Text) : Prop :=
  boundary? indicator line = none ∧ ∀ x, crossReference? indicator line = some x → x.isContinuation

/-- What a continuation line `n` of the listing `l` says is said of the symbol `owner` alone: any
other such line, or an empty one, leaves all else as it is. -/
def Document.SpeaksOf (doc : Document) (n : ℕ) (l : Listing) (owner : Option Text) : Prop :=
  ∀ line, Continues l.indicator line →
    List.Forall₂ (fun a b => a.SameBut owner b ∧ (a ≠ l → b = a)) doc.listings
      (doc.withLine n line).listings

namespace SymbolTable.SameBut
variable {owner : Option Text} {t u : SymbolTable}

protected theorem refl (t : SymbolTable) : t.SameBut owner t :=
  List.forall₂_same.mpr fun _ _ => ⟨rfl, fun _ => rfl⟩

theorem update (h : t.SameBut owner u) {k : Text} {f g : Option Symbol → Symbol}
    (hfg : some k ≠ owner → g = f) : SameBut owner (t.update k f) (u.update k g) := by
  obtain ⟨ts⟩ := t
  obtain ⟨us⟩ := u
  change List.Forall₂ _ ts us at h
  change List.Forall₂ _ (Dictionary.replace k f ts) (Dictionary.replace k g us)
  induction h with
  | nil => exact .cons ⟨rfl, fun hk => by rw [hfg hk]⟩ .nil
  | @cons a b as bs hab hrest ih =>
    obtain ⟨hk, hv⟩ := hab
    by_cases ha : a.1 = k
    · have hb : b.1 = k := hk.trans ha
      simp only [Dictionary.replace, ha, hb, if_true]
      refine .cons ⟨rfl, fun hne => ?_⟩ hrest
      rw [hv (ha ▸ hne), hfg hne]
    · have hb : b.1 ≠ k := hk.trans_ne ha
      simp only [Dictionary.replace, ha, hb, if_false]
      exact .cons ⟨hk, hv⟩ ih

theorem contains (h : t.SameBut owner u) (k : Text) : u.contains k = t.contains k := by
  obtain ⟨ts⟩ := t
  obtain ⟨us⟩ := u
  change List.Forall₂ _ ts us at h
  unfold Dictionary.contains Dictionary.find?
  induction h with
  | nil => rfl
  | @cons a b as bs hab hrest ih => by_cases ha : a.1 = k <;> simp_all

theorem insertIfNew (h : t.SameBut owner u) (s : Symbol) :
    (t.insertIfNew s).SameBut owner (u.insertIfNew s) := by
  unfold SymbolTable.insertIfNew Dictionary.insertIfNew
  rw [h.contains]
  split
  · exact h
  · exact h.update fun _ => rfl

theorem merge (h : t.SameBut owner u) {s r : Symbol} (hs : s.SameBut owner r) :
    (t.merge s).SameBut owner (u.merge r) := by
  unfold SymbolTable.merge
  rw [hs.1]
  exact h.update fun hne => by rw [hs.2 hne]

theorem eq_of_none (h : t.SameBut none u) : u = t := by
  have he : List.Forall₂ Eq t.entries u.entries :=
    List.Forall₂.imp (fun a b hab => Prod.ext hab.1.symm (hab.2 (by simp)).symm) h
  rw [List.forall₂_eq_eq_eq] at he
  cases t
  cases u
  exact congrArg Dictionary.mk he.symm

end SymbolTable.SameBut

theorem Symbol.name_extend (s : Symbol) (x : CrossReference) : (s.extend x).name = s.name := by
  cases x with
  | entry name fields => rw [extend, addEntry_eq]
  | longName name => rfl
  | deferred fields => rw [extend, addEntry_eq]
  | more references => rw [extend, addReferences, foldl_addReference]

namespace Draft

def withSymbols (d : Draft) (w : SymbolTable × Option Symbol) : Draft :=
  { d with listing.symbols := w.1, pending := w.2 }

/-- Two drafts that differ in the symbol `owner` at most. -/
structure SameBut (owner : Option Text) (d e : Draft) : Prop where
  rest : e = d.withSymbols e.symbolState
  symbols : d.listing.symbols.SameBut owner e.listing.symbols
  pending : Option.Rel (Symbol.SameBut owner) d.pending e.pending

/-- Keeps the symbols and does not look at them. -/
structure Unsymbolic (f : Draft → Draft) : Prop where
  symbolState : ∀ d, (f d).symbolState = d.symbolState
  withSymbols : ∀ d w, f (d.withSymbols w) = (f d).withSymbols w

theorem unsymbolic_close (n : ℕ) : Unsymbolic (close · n) := by
  refine ⟨fun d => symbolState_close d n, fun d w => ?_⟩
  obtain ⟨l, area, opened, _⟩ := d
  cases opened with
  | none => rfl
  | some o => cases o <;> rfl

theorem unsymbolic_addExternal (x : External) : Unsymbolic (addExternal · x) := by
  have hs : ∀ name e, Unsymbolic (addSection · name e) := by
    intro name e
    refine ⟨fun d => ?_, fun d w => ?_⟩ <;> cases he : e.isSection <;>
      simp [addSection, withSymbols, Draft.symbolState, he]
  refine ⟨fun d => ?_, fun d w => ?_⟩
  · obtain ⟨names, sections, name, he⟩ := addExternal_shape d x
    rw [he]
    rfl
  · cases x with
    | named name e =>
      cases e with
      | none => rfl
      | some e => exact (hs name e).withSymbols { d with sectionName := some name } w
    | continuation e =>
      cases hn : d.sectionName with
      | none => simp [addExternal, withSymbols, hn]
      | some name => simpa [addExternal, withSymbols, hn] using (hs name e).withSymbols d w

theorem unsymbolic_addUsing (u : Using) : Unsymbolic (addUsing · u) := by
  refine ⟨fun d => ?_, fun d w => ?_⟩ <;> cases hc : SectionClass.ofId u.sectionId <;>
    simp [addUsing, withSymbols, Draft.symbolState, hc]

namespace SameBut
variable {owner : Option Text} {d e : Draft}

protected theorem refl (d : Draft) : d.SameBut owner d := by
  refine ⟨rfl, .refl _, ?_⟩
  cases d.pending with
  | none => exact .none
  | some s => exact .some ⟨rfl, fun _ => rfl⟩

theorem map (h : d.SameBut owner e) {f : Draft → Draft} (hf : Unsymbolic f) :
    (f d).SameBut owner (f e) := by
  obtain ⟨hds, hdp⟩ := Prod.mk.inj (hf.symbolState d)
  obtain ⟨hes, hep⟩ := Prod.mk.inj (hf.symbolState e)
  refine ⟨?_, ?_, ?_⟩
  · calc
      f e = f (d.withSymbols e.symbolState) := congrArg f h.rest
      _ = (f d).withSymbols (f e).symbolState := by rw [hf.withSymbols, hf.symbolState]
  · rw [hds, hes]
    exact h.symbols
  · rw [hdp, hep]
    exact h.pending

theorem flush (h : d.SameBut owner e) : d.flush.SameBut owner e.flush := by
  refine ⟨?_, ?_, ?_⟩
  · obtain ⟨symbols, hd⟩ := flush_shape d
    obtain ⟨symbols', he⟩ := flush_shape e
    rw [hd, he, h.rest]
    rfl
  · rw [flush_symbols, flush_symbols]
    have hp := h.pending
    cases hd : d.pending <;> cases he : e.pending <;> rw [hd, he] at hp <;> cases hp
    · exact h.symbols
    · exact h.symbols.merge ‹_›
  · rw [flush_pending, flush_pending]
    exact .none

theorem area (h : d.SameBut owner e) : e.area = d.area := by
  rw [h.rest]
  rfl

theorem indicator (h : d.SameBut owner e) : e.listing.indicator = d.listing.indicator := by
  rw [h.rest]
  rfl

theorem enter (h : d.SameBut owner e) (a : Area) : (d.enter a).SameBut owner (e.enter a) := by
  unfold Draft.enter
  rw [h.area]
  split
  · exact h
  · exact h.flush.map (f := fun d => { d with area := a }) ⟨fun _ => rfl, fun _ _ => rfl⟩

theorem addBoundary (h : d.SameBut owner e) (n width : ℕ) (b : Boundary) :
    (d.addBoundary n width b).SameBut owner (e.addBoundary n width b) := by
  have hc := h.map (unsymbolic_close n)
  cases b with
  | message code text =>
    exact h.map (f := (addMessage · n width code text)) ⟨fun _ => rfl, fun _ _ => rfl⟩
  | returnCode => exact hc.map (f := (closeSummary · n)) ⟨fun _ => rfl, fun _ _ => rfl⟩
  | columns layout c =>
    exact hc.map (f := (openBlock · n layout c)) ⟨fun _ => rfl, fun _ _ => rfl⟩
  | report r =>
    simp only [Draft.addBoundary, h.area]
    have ho := hc.map (f := (openReport · n r)) ⟨fun _ => rfl, fun _ _ => rfl⟩
    exact ho.enter _
  | page title =>
    simp only [Draft.addBoundary, h.area]
    exact (hc.enter _).map (f := fun d => { d with title := title, titleLine := n })
      ⟨fun _ => rfl, fun _ _ => rfl⟩

theorem addCrossReference (h : d.SameBut owner e) (x : CrossReference) :
    (d.addCrossReference x).SameBut owner (e.addCrossReference x) := by
  have hrest : e.addCrossReference x =
      (d.addCrossReference x).withSymbols (e.addCrossReference x).symbolState := by
    obtain ⟨symbols, pending, hd⟩ := addCrossReference_shape d x
    obtain ⟨symbols', pending', he⟩ := addCrossReference_shape e x
    rw [hd, he, h.rest]
    rfl
  cases hx : x.name? with
  | some name =>
    obtain ⟨hds, hdp⟩ := Prod.mk.inj (addCrossReference_name hx d)
    obtain ⟨hes, hep⟩ := Prod.mk.inj (addCrossReference_name hx e)
    refine ⟨hrest, ?_, ?_⟩
    · rw [hds, hes]
      exact h.flush.symbols
    · rw [hdp, hep]
      exact .some ⟨rfl, fun _ => rfl⟩
  | none =>
    obtain ⟨hds, hdp⟩ := Prod.mk.inj (addCrossReference_continuation hx d)
    obtain ⟨hes, hep⟩ := Prod.mk.inj (addCrossReference_continuation hx e)
    refine ⟨hrest, ?_, ?_⟩
    · rw [hds, hes]
      exact h.symbols
    · have hp := h.pending
      rw [hdp, hep]
      cases hd : d.pending <;> cases he : e.pending <;> rw [hd, he] at hp <;> cases hp
      · exact .none
      · rename_i s r hsr
        refine .some ⟨?_, fun hne => ?_⟩
        · rw [Symbol.name_extend, Symbol.name_extend, hsr.1]
        · rw [Symbol.name_extend] at hne
          rw [hsr.2 hne]

theorem addDsect (h : d.SameBut owner e) (x : Dsect) :
    (d.addDsect x).SameBut owner (e.addDsect x) := by
  have hentry : ∀ {d e : Draft} name y, d.SameBut owner e →
      (d.addDsectEntry name y).SameBut owner (e.addDsectEntry name y) := by
    intro d e name y h
    refine ⟨?_, h.symbols.insertIfNew _, h.pending⟩
    unfold addDsectEntry
    rw [h.rest]
    rfl
  have hname : ∀ name, { d with dsectName := name }.SameBut owner { e with dsectName := name } :=
    fun name => h.map (f := fun d => { d with dsectName := name })
      ⟨fun _ => rfl, fun _ _ => rfl⟩
  cases x with
  | named name y =>
    cases y with
    | none => exact hname _
    | some y => exact hentry name y (hname _)
  | continuation y =>
    have hd : e.dsectName = d.dsectName := by
      rw [h.rest]
      rfl
    simp only [Draft.addDsect, hd]
    cases d.dsectName with
    | none => exact h
    | some name => exact hentry name y h

theorem addRecord (h : d.SameBut owner e) (n : ℕ) (line : Text) :
    (d.addRecord n line).SameBut owner (e.addRecord n line) := by
  have hy : e.listing.layout = d.listing.layout := by
    rw [h.rest]
    rfl
  unfold Draft.addRecord
  simp only [h.area, h.indicator, hy]
  cases d.area with
  | options => exact h
  | other => exact h
  | externals =>
    cases external? d.listing.indicator line with
    | none => exact h
    | some x => exact h.map (unsymbolic_addExternal x)
  | code =>
    cases d.listing.layout with
    | none => exact h
    | some layout =>
      dsimp only
      cases code? layout d.listing.indicator line with
      | none => exact h
      | some x => exact h.map (f := (addCode · n layout x)) ⟨fun _ => rfl, fun _ _ => rfl⟩
  | crossReferences =>
    cases crossReference? d.listing.indicator line with
    | none => exact h
    | some x => exact h.addCrossReference x
  | dsects =>
    cases dsect? d.listing.indicator line with
    | none => exact h
    | some x => exact h.addDsect x
  | usings =>
    cases using? d.listing.indicator line with
    | none => exact h
    | some x => exact h.map (unsymbolic_addUsing x)

theorem addLine (h : d.SameBut owner e) (n : ℕ) (line : Text) :
    (d.addLine n line).SameBut owner (e.addLine n line) := by
  unfold Draft.addLine
  rw [h.indicator]
  cases boundary? d.listing.indicator line with
  | none => exact h.addRecord n line
  | some b => exact h.addBoundary n line.length b

theorem addLabels (h : d.SameBut owner e) : d.addLabels.SameBut owner e.addLabels := by
  have hl : e.labels = d.labels := by
    rw [h.rest]
    rfl
  have hfold : ∀ (ls : List (Text × ℕ)) {t u : SymbolTable}, t.SameBut owner u →
      SymbolTable.SameBut owner (ls.foldl (fun t l => t.insertIfNew (.label l.1 l.2)) t)
        (ls.foldl (fun t l => t.insertIfNew (.label l.1 l.2)) u) := by
    intro ls
    induction ls with
    | nil => exact id
    | cons l ls ih => exact fun h => ih (h.insertIfNew _)
  refine ⟨?_, ?_, h.pending⟩
  · unfold Draft.addLabels
    rw [h.rest]
    rfl
  · simp only [Draft.addLabels, hl]
    exact hfold _ h.symbols

theorem finish (h : d.SameBut owner e) (stop : ℕ) :
    (d.finish stop).SameBut owner (e.finish stop) := by
  have hl := (h.flush.map (unsymbolic_close stop)).addLabels
  refine ⟨?_, hl.symbols, ?_⟩
  · simp only [Draft.finish]
    rw [hl.rest]
    rfl
  · intro hs
    simp only [Draft.finish] at hs ⊢
    rw [hs, hl.rest]
    rfl

end SameBut

/-- One symbol aside, two scans go on alike below the line at which they part. Only the listing that
starts at line `start` is affected. -/
theorem simulation_sameBut (owner : Option Text) (start : ℕ) :
    Scan.Simulation
      (fun d e => d.SameBut owner e ∧ (d.listing.start ≠ start → e = d))
      (fun l k => l.SameBut owner k ∧ (l.start ≠ start → k = l)) := by
  refine ⟨fun _ _ => ⟨.refl _, fun _ => rfl⟩, fun h => h.1.indicator, ?_⟩
  intro d e h stop
  refine ⟨h.1.finish stop, fun hne => ?_⟩
  rw [start_finish] at hne
  rw [h.2 hne]

theorem alike_sameBut (owner : Option Text) (start : ℕ) (line : Text) :
    Scan.Alike (fun d e => d.SameBut owner e ∧ (d.listing.start ≠ start → e = d)) line line := by
  refine ⟨rfl, fun _ => rfl, fun _ => rfl, fun h n => ⟨h.1.addLine n line, ?_⟩⟩
  intro hne
  rw [start_addLine] at hne
  rw [h.2 hne]

/-- A continuation line changes nothing but the symbol that is held back. -/
theorem addRecord_continues {d : Draft} {line : Text} (ha : d.area = .crossReferences)
    (hc : Continues d.listing.indicator line) (n : ℕ) :
    ∃ g : Symbol → Symbol, (∀ s, (g s).name = s.name) ∧
      d.addRecord n line = d.withSymbols (d.listing.symbols, d.pending.map g) := by
  have hr : d.addRecord n line =
      (crossReference? d.listing.indicator line).elim d d.addCrossReference := by
    rw [addRecord, ha]
  rw [hr]
  cases hx : crossReference? d.listing.indicator line with
  | none => exact ⟨id, fun _ => rfl, by rw [Option.map_id]; rfl⟩
  | some x =>
    have hn : x.name? = none := Option.isNone_iff_eq_none.mp (hc.2 x hx)
    obtain ⟨symbols, pending, hd⟩ := addCrossReference_shape d x
    have hs := addCrossReference_continuation hn d
    refine ⟨(·.extend x), fun s => s.name_extend x, ?_⟩
    rw [Option.elim_some, ← hs, hd]
    rfl

theorem sameBut_of_continues {d : Draft} {x y : Text} (ha : d.area = .crossReferences)
    (hx : Continues d.listing.indicator x) (hy : Continues d.listing.indicator y) (n : ℕ) :
    (d.addRecord n x).SameBut (d.pending.map (·.name)) (d.addRecord n y) := by
  obtain ⟨f, hf, hd⟩ := addRecord_continues ha hx n
  obtain ⟨g, hg, he⟩ := addRecord_continues ha hy n
  rw [hd, he]
  refine ⟨rfl, .refl _, ?_⟩
  simp only [withSymbols]
  cases d.pending with
  | none => exact .none
  | some s => exact .some ⟨(hg s).trans (hf s).symm, fun hne => absurd (by simp [hf]) hne⟩

/-- Holds the symbol `name` back in the cross reference, and none elsewhere. -/
def Holds (d : Draft) (name : Option Text) : Prop :=
  d.pending.map (·.name) = if d.area = .crossReferences then name.map canonical else none

theorem Holds.addLine {d : Draft} {name : Option Text} (h : d.Holds name) {r : Reading}
    (hp : r.place = d.place) : (d.addLine r.number r.line).Holds
      (if d.area = .crossReferences then (r.name? d.listing.indicator).or name else none) := by
  have hr : r.place.area = d.area := congrArg Place.area hp
  have harea : (d.addLine r.number r.line).area =
      (d.place.after (boundary? d.listing.indicator r.line)).area :=
    congrArg Place.area (d.place_addLine r.number r.line)
  by_cases hc : d.area = .crossReferences
  · unfold Holds at h ⊢
    rw [if_pos hc] at h ⊢
    cases hb : boundary? d.listing.indicator r.line with
    | some b =>
      have hs := d.symbolState_addBoundary r.number r.line.length b
      rw [← addLine_boundary hb] at hs
      rw [hb] at harea
      rw [Reading.name?, Reading.crossReference?, Reading.record?_of_boundary hb, Option.bind_none,
        Option.none_or, harea]
      by_cases hsame : (d.place.after (some b)).area = d.area
      · rw [if_pos hsame] at hs
        rw [(Prod.mk.inj hs).2, hsame, if_pos hc]
        exact h
      · rw [if_neg hsame] at hs
        rw [(Prod.mk.inj hs).2, flush_pending, if_neg (hc ▸ hsame)]
        rfl
    | none =>
      have hl : d.addLine r.number r.line =
          (crossReference? d.listing.indicator r.line).elim d d.addCrossReference := by
        rw [addLine_record hb, addRecord, hc]
      rw [hb] at harea
      rw [Reading.name?, Reading.crossReference?, Reading.record?_of_area hb (hr.trans hc),
        if_pos (harea.trans hc), hl]
      cases crossReference? d.listing.indicator r.line with
      | none => exact h
      | some x =>
        cases hx : x.name? with
        | some name' =>
          have hs := (Prod.mk.inj (addCrossReference_name hx d)).2
          simp [hs, hx, Symbol.name_extend, Symbol.ofName]
        | none =>
          have hs := (Prod.mk.inj (addCrossReference_continuation hx d)).2
          simp [hs, hx, Symbol.name_extend, Function.comp_def, h]
  · have hn : d.pending = none := by
      unfold Holds at h
      rw [if_neg hc] at h
      exact Option.map_eq_none_iff.mp h
    unfold Holds
    rw [(symbols_addLine hp hc hn).1, if_neg hc, Option.map_none, Option.map_none, ite_self]

end Draft

theorem latestName?_concat (indicator : Bool) (rs : List Reading) (r : Reading) :
    Reading.latestName? indicator (lastStay (rs ++ [r])) =
      if r.place.area = .crossReferences then
        (r.name? indicator).or (Reading.latestName? indicator (lastStay rs))
      else none := by
  unfold lastStay Reading.latestName?
  by_cases hr : r.place.area = .crossReferences
  · rw [List.rtakeWhile_concat_pos _ _ _ (by simpa using hr), List.filterMap_append, if_pos hr]
    cases hn : r.name? indicator <;> simp [hn]
  · rw [List.rtakeWhile_concat_neg _ _ _ (by simpa using hr), if_neg hr]
    rfl

/-- The symbol that is held back is the one of the latest name of the stay. -/
theorem Draft.holds_addReadings (start : ℕ) {indicator : Bool} {rs : List Reading}
    (h : Consecutive indicator .first rs) :
    ((startingAt start indicator).addReadings rs).Holds
      (Reading.latestName? indicator (lastStay rs)) := by
  induction rs using List.reverseRecOn with
  | nil => rfl
  | append_singleton rs r ih =>
    obtain ⟨hrs, hr, -⟩ := consecutive_append (d := startingAt start indicator) h
    have hs := (ih hrs).addLine hr
    rw [indicator_addReadings] at hs
    rw [addReadings_append, latestName?_concat, hr]
    exact hs

/-- A line with a name starts with a character of it. -/
theorem Line.CrossReference.head?_of_name? {s : Text} {x : CrossReference} {name : Text}
    (hx : read? s = some x) (hn : x.name? = some name) : s.head?.any isSymbolStart := by
  unfold read? at hx
  cases hs : Line.name s with
  | some found =>
    rw [Line.name, Option.ite_none_right_eq_some] at hs
    exact hs.1
  | none =>
    simp only [hs, continuation?] at hx
    split at hx
    · obtain ⟨e, -, rfl⟩ := Option.map_eq_some_iff.mp hx
      cases hn
    · rw [Option.ite_none_right_eq_some] at hx
      obtain ⟨references, -, rfl⟩ := Option.map_eq_some_iff.mp hx.2
      cases hn

namespace Reading

theorem startsEntry_of_name? {indicator : Bool} {r : Reading} {name : Text}
    (h : r.name? indicator = some name) : r.startsEntry indicator := by
  obtain ⟨x, hx, hn⟩ := Option.bind_eq_some_iff.mp h
  rw [crossReference?, record?, Option.ite_none_right_eq_some] at hx
  obtain ⟨⟨hb, -⟩, hx⟩ := hx
  obtain ⟨s, hs, hx⟩ := Option.bind_eq_some_iff.mp hx
  obtain ⟨c, hc, hstart⟩ := (Option.any_eq_true ..).mp (head?_of_name? hx hn)
  have hne : c ≠ ' ' := by
    intro he
    rw [he] at hstart
    exact absurd hstart (by decide)
  simp [startsEntry, hb, hs, hc, hne]

/-- The latest name of a stay stands on its latest first line of an entry, unless that line cannot be
read. -/
theorem latestName?_eq_or (indicator : Bool) (stay : List Reading) :
    (entryLine? indicator stay).bind (·.name? indicator) = latestName? indicator stay ∨
    ∃ f name, entryLine? indicator stay = some f ∧ f.name? indicator = none ∧
      latestName? indicator stay = some name := by
  unfold entryLine? latestName?
  induction stay using List.reverseRecOn with
  | nil => exact Or.inl rfl
  | append_singleton stay r ih =>
    rw [List.filter_append, List.filterMap_append]
    by_cases hr : r.startsEntry indicator
    · cases hn : r.name? indicator with
      | some name => simp [hr, hn]
      | none =>
        cases hl : (stay.filterMap (·.name? indicator)).getLast? with
        | none => simp [hr, hn, hl]
        | some name => simp [hr, hn, hl]
    · have hn : r.name? indicator = none := by
        by_contra hne
        obtain ⟨name, hname⟩ := Option.ne_none_iff_exists'.mp hne
        exact hr (startsEntry_of_name? hname)
      simpa [hr, hn] using ih

end Reading

/-- Two scans that part at a continuation line. -/
theorem Scan.listings_sameBut {s : Scan} {d : Draft} {x y : Text} (hm : s.mode = .reading d)
    (ha : d.area = .crossReferences) (hx : Continues d.listing.indicator x)
    (hy : Continues d.listing.indicator y) (lines : List Text) :
    List.Forall₂ (fun a b => a.SameBut (d.pending.map (·.name)) b ∧
        (a.start ≠ d.listing.start → b = a))
      ((s.step x).run lines).listings ((s.step y).run lines).listings := by
  have hsim := Draft.simulation_sameBut (d.pending.map (·.name)) d.listing.start
  have hstart : (d.addRecord s.next x).listing.start = d.listing.start :=
    congrArg Prod.fst (d.recordFrame s.next x).origin
  rw [step_record hm hx.1, step_record hm hy.1]
  refine Related.listings hsim (Related.run hsim ?_ ?_)
  · refine ⟨rfl, ?_, .reading ⟨Draft.sameBut_of_continues ha hx hy s.next, ?_⟩⟩
    · exact List.forall₂_same.mpr fun l _ => ⟨⟨rfl, .refl l.symbols, fun _ => rfl⟩, fun _ => rfl⟩
    · exact fun hne => absurd hstart hne
  · exact List.forall₂_same.mpr fun line _ => Draft.alike_sameBut _ _ line

theorem Document.withLine_line (doc : Document) {n : ℕ} (hn : n < doc.lineCount) :
    doc.withLine n (doc.line n) = doc := by
  have hlt : n < doc.lines.length := hn
  simp [withLine, line, hlt]

/-- A scan with another text on line `n` is the same scan in front of that line. -/
theorem Document.listings_withLine (doc : Document) {n : ℕ} (hn : n < doc.lineCount) (line : Text) :
    (doc.withLine n line).listings = (((Scan.initial.run (doc.lines.take n)).step line).run
      (doc.lines.drop (n + 1))).listings := by
  have hlt : n < doc.lines.length := hn
  simp only [listings, withLine, List.set_eq_take_append_cons_drop, if_pos hlt, Scan.run_append]
  rfl

section
variable {doc : Document} {l : Listing} {r : Reading} (hl : l ∈ doc.listings)
  (hr : r ∈ l.placed doc)
include hl hr

/-- In the cross reference the scan stands in front of a line with the draft of its listing. -/
theorem Document.mode_of_crossReferences (ha : r.place.area = .crossReferences) :
    (Scan.initial.run (doc.lines.take r.number)).mode =
      .reading (doc.draft l.start l.indicator r.number) := by
  have hn := Listing.number_mem_of_placed hr
  refine mode_of_mem_readings hl hn (lt_of_le_of_ne (mem_readings.mp hn).1 ?_)
  intro he
  -- the first line of a listing stands in another area
  have hp := Listing.place_draft hr
  rw [← he, draft_start] at hp
  rw [← hp] at ha
  exact Area.noConfusion ha

/-- A continuation line speaks of the symbol that is held back when it comes. -/
theorem Document.speaksOf_pending (ha : r.place.area = .crossReferences)
    (hc : Continues l.indicator r.line) :
    doc.SpeaksOf r.number l
      ((doc.draft l.start l.indicator r.number).pending.map (·.name)) := by
  intro line hline
  have hlt : r.number < doc.lineCount :=
    (mem_readings.mp (Listing.number_mem_of_placed hr)).2.1.trans_le
      (doc.settled_listings.indexed l hl).stop_le
  have hself : doc.withLine r.number r.line = doc := by
    rw [(Listing.placed_split hr).1, doc.withLine_line hlt]
  have hm := Document.mode_of_crossReferences hl hr ha
  have hd : (doc.draft l.start l.indicator r.number).area = .crossReferences :=
    (congrArg Place.area (Listing.place_draft hr)).trans ha
  have hind := doc.indicator_draft l.start l.indicator r.number
  have hstart : (doc.draft l.start l.indicator r.number).listing.start = l.start :=
    congrArg Prod.fst (doc.origin_draft l.start l.indicator r.number)
  rw [← hind] at hc hline
  have hf := Scan.listings_sameBut hm hd hc hline (doc.lines.drop (r.number + 1))
  rw [← doc.listings_withLine hlt, ← doc.listings_withLine hlt, hself, hstart] at hf
  have hand := (List.forall₂_and_left _ _).mpr ⟨fun a (ha : a ∈ doc.listings) => ha, hf⟩
  refine hand.imp ?_
  intro a b hab
  obtain ⟨hmem, hsame, heq⟩ := hab
  exact ⟨hsame, fun hne => heq fun hs => hne (doc.eq_of_start_eq hmem hl hs)⟩

end

/-- A continuation line speaks of the symbol of the latest name in its stay, and of no other. The
name stands on the first line of the entry that goes on, unless that line cannot be read. -/
theorem continuation_speaks_of_latest_name (doc : Document) (l : Listing) (r : Reading)
    (x : CrossReference) (hl : l ∈ doc.listings) (hr : r ∈ l.placed doc)
    (hx : r.crossReference? l.indicator = some x) (hc : x.isContinuation) :
    doc.SpeaksOf r.number l ((l.latestName? doc r.number).map canonical) ∧
    (l.entryName? doc r.number = l.latestName? doc r.number ∨
      ∃ f name, l.entryLine? doc r.number = some f ∧ f.name? l.indicator = none ∧
        l.latestName? doc r.number = some name) := by
  rw [Reading.crossReference?, Reading.record?, Option.ite_none_right_eq_some] at hx
  obtain ⟨⟨hb, ha⟩, hx⟩ := hx
  have hcont : Continues l.indicator r.line := by
    refine ⟨hb, fun y hy => ?_⟩
    rw [← Option.some.inj (hx.symm.trans hy)]
    exact hc
  have hs := Document.speaksOf_pending hl hr ha hcont
  have hh := Draft.holds_addReadings l.start
    (doc.consecutive_placed l.indicator .first (doc.readings l.start l.indicator r.number))
  have hd : (doc.draft l.start l.indicator r.number).area = .crossReferences :=
    (congrArg Place.area (Listing.place_draft hr)).trans ha
  rw [← doc.draft_eq_addReadings, Draft.Holds, if_pos hd] at hh
  rw [hh] at hs
  exact ⟨hs, Reading.latestName?_eq_or l.indicator (lastStay (l.above doc r.number))⟩

/-- A literal in the cross reference, which has no name, with references on the line below it. -/
def literalSample : Document where
  uri := "sample"
  lines :=
    [reportRow .optionSummary 1, reportRow .symbolReferences 2,
      "Symbol   Length   Value     Id    R Type Asm  Program   Defn References".toList,
      "SAMPLE       1 00000000 00000001     J                   1     4U".toList,
      "=F'1'        4 00000010 00000001     A  F                9     5".toList,
      List.replicate 60 ' ' ++ "17 18".toList, "Return Code 004".toList]

def literalListing : Listing := literalSample.listings.headD (.startingAt 0 false)

/-- The line below the literal. -/
def literalReading : Reading := ⟨5, literalSample.line 5, ⟨.crossReferences, none⟩⟩

theorem literalReading_spec : literalListing ∈ literalSample.listings ∧
    literalReading ∈ literalListing.placed literalSample ∧
    literalListing.indicator = false ∧
    literalReading.crossReference? literalListing.indicator = some (.more "17 18".toList) ∧
    literalListing.entryName? literalSample 5 = none ∧
    literalListing.latestName? literalSample 5 = some "SAMPLE".toList := by
  decide +kernel

theorem continuation_speaks_of_latest_name_literalListing :
    (literalListing ∈ literalSample.listings ∧
      literalReading ∈ literalListing.placed literalSample) ∧
    literalSample.SpeaksOf 5 literalListing (some "SAMPLE".toList) := by
  obtain ⟨hl, hr, -, hx, -, hn⟩ := literalReading_spec
  have hs := (continuation_speaks_of_latest_name literalSample literalListing literalReading
    (.more "17 18".toList) hl hr hx (by decide)).1
  rw [show literalReading.number = 5 from rfl, hn] at hs
  exact ⟨⟨hl, hr⟩, hs⟩

/-- A continuation line need not speak of the entry above it: below a literal it adds to the symbol
above the literal. -/
theorem continuation_below_literal : ¬ ∀ (doc : Document) (l : Listing) (r : Reading)
    (x : CrossReference), l ∈ doc.listings → r ∈ l.placed doc →
    r.crossReference? l.indicator = some x → x.isContinuation →
    doc.SpeaksOf r.number l ((l.entryName? doc r.number).map canonical) := by
  intro h
  obtain ⟨hl, hr, hi, hx, hn, -⟩ := literalReading_spec
  have hs := h literalSample literalListing literalReading _ hl hr hx (by decide)
  rw [show literalReading.number = 5 from rfl, hn] at hs
  have hempty : Continues literalListing.indicator [] := by
    have hc : boundary? false [] = none ∧ crossReference? false [] = none := by decide
    rw [hi]
    exact ⟨hc.1, fun x hx => by rw [hc.2] at hx; cases hx⟩
  have hmap : literalSample.listings.map (·.symbols) =
      (literalSample.withLine 5 []).listings.map (·.symbols) := by
    rw [← List.forall₂_eq_eq_eq, List.forall₂_map_left_iff, List.forall₂_map_right_iff]
    exact (hs [] hempty).imp fun a b hab => hab.1.symbols.eq_of_none.symm
  exact absurd hmap (by decide +kernel)

end ListingIndex
