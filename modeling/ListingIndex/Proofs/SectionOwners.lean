import Mathlib
import ListingIndex.Proofs.Place
import ListingIndex.Proofs.TitleLines

/-! Owners in the external symbol dictionary. An entry names its owner by id, and the owner may be
owned itself. Each section is listed under the name at the root of its chain of owners, although the
chain is never followed: by the time an entry is read, its owner already goes under its root. -/
namespace ListingIndex
open Line

/-- An entry of the dictionary with the name under which it stands. -/
structure NamedEntry extends ExternalEntry where
  name : Text
deriving DecidableEq, Repr

namespace NamedEntry

/-- The end of a chain of owners: no owner is named, or the entry itself. -/
def IsRoot (e : NamedEntry) : Prop := e.owner = none ∨ e.owner = some e.id

instance (e : NamedEntry) : Decidable e.IsRoot :=
  inferInstanceAs (Decidable (e.owner = none ∨ e.owner = some e.id))

/-- The storage of an entry is known. -/
def isPlaced (e : NamedEntry) : Bool := e.address.isSome && e.length.isSome

/-- Entries with ids of their own, each at the root or owned by an entry above it. -/
structure WellOwned (es : List NamedEntry) : Prop where
  distinct : (es.map (·.id)).Nodup
  owned : ∀ e ∈ es, e.IsRoot ∨ ∃ f ∈ es.takeWhile (· ≠ e), e.owner = some f.id

instance (es : List NamedEntry) : Decidable (WellOwned es) :=
  decidable_of_iff ((es.map (·.id)).Nodup ∧
      ∀ e ∈ es, e.IsRoot ∨ ∃ f ∈ es.takeWhile (· ≠ e), e.owner = some f.id)
    ⟨fun h => ⟨h.1, h.2⟩, fun h => ⟨h.distinct, h.owned⟩⟩

/-- The entry that is reached by going from owner to owner. -/
inductive RootOf (es : List NamedEntry) : NamedEntry → NamedEntry → Prop
  | self {e : NamedEntry} (he : e ∈ es) (hr : e.IsRoot) : RootOf es e e
  | owner {e f r : NamedEntry} (he : e ∈ es) (hf : f ∈ es) (ho : e.owner = some f.id)
      (hne : f.id ≠ e.id) (hr : RootOf es f r) : RootOf es e r

section
variable {es : List NamedEntry} {e f r : NamedEntry}

theorem RootOf.mem (h : RootOf es e r) : e ∈ es := by
  cases h with
  | self he _ => exact he
  | owner he _ _ _ _ => exact he

theorem RootOf.mono {fs : List NamedEntry} (hs : ∀ e ∈ es, e ∈ fs) (h : RootOf es e r) :
    RootOf fs e r := by
  induction h with
  | self he hr => exact .self (hs _ he) hr
  | owner he hf ho hne _ ih => exact .owner (hs _ he) (hs _ hf) ho hne ih

theorem IsRoot.not_owned (h : e.IsRoot) (ho : e.owner = some f.id) : f.id = e.id := by
  rcases h with h | h
  · rw [ho] at h
    cases h
  · rw [ho] at h
    exact Option.some.inj h

/-- A chain of owners does not branch. -/
theorem RootOf.unique (hd : (es.map (·.id)).Nodup) (h : RootOf es e r) {q : NamedEntry}
    (hq : RootOf es e q) : q = r := by
  induction h with
  | self _ hr =>
    cases hq with
    | self _ _ => rfl
    | owner _ _ ho hne _ => exact absurd (hr.not_owned ho) hne
  | owner _ hf ho hne _ ih =>
    cases hq with
    | self _ hr => exact absurd (hr.not_owned ho) hne
    | owner _ hf' ho' _ hq =>
      have hid := Option.some.inj (ho'.symm.trans ho)
      have hff := List.inj_on_of_nodup_map hd hf' hf hid
      exact ih (hff ▸ hq)

theorem takeWhile_append_of_mem (he : e ∈ es) (fs : List NamedEntry) :
    (es ++ fs).takeWhile (· ≠ e) = es.takeWhile (· ≠ e) := by
  induction es with
  | nil => cases he
  | cons f es ih =>
    by_cases hf : f = e
    · simp [hf]
    · have he' : e ∈ es := (List.mem_cons.mp he).resolve_left (Ne.symm hf)
      simpa [hf] using ih he'

theorem takeWhile_of_not_mem (he : e ∉ es) (fs : List NamedEntry) :
    (es ++ e :: fs).takeWhile (· ≠ e) = es := by
  induction es with
  | nil => simp
  | cons f es ih =>
    rw [List.mem_cons, not_or] at he
    obtain ⟨hne, hes⟩ := he
    simpa [Ne.symm hne] using ih hes

namespace WellOwned

theorem init (h : WellOwned (es ++ [e])) : WellOwned es := by
  have hd := h.distinct
  rw [List.map_append] at hd
  refine ⟨hd.of_append_left, fun f hf => ?_⟩
  have ho := h.owned f (by simp [hf])
  rwa [takeWhile_append_of_mem hf] at ho

theorem id_not_mem (h : WellOwned (es ++ [e])) : e.id ∉ es.map (·.id) := by
  have hd := h.distinct
  rw [List.map_append, List.map_singleton] at hd
  intro hm
  exact List.disjoint_of_nodup_append hd hm (by simp)

theorem last_owned (h : WellOwned (es ++ [e])) : e.IsRoot ∨ ∃ f ∈ es, e.owner = some f.id := by
  have hn : e ∉ es := fun hm => h.id_not_mem (List.mem_map_of_mem hm)
  have ho := h.owned e (by simp)
  rwa [takeWhile_of_not_mem hn] at ho

end WellOwned

/-! Reading entries one after the other -/

/-- What an entry adds to the names of the sections and to the control sections. -/
def addTo (e : NamedEntry) (s : Dictionary Text Text × List ControlSection) :
    Dictionary Text Text × List ControlSection :=
  if e.isSection then
    let owner := (e.owner.bind s.1.find?).getD e.name
    (s.1.insert e.id owner, s.2 ++
      (e.address.bind fun address => e.length.map fun length => ⟨owner, address, length⟩).toList)
  else s

/-- Entries of other types than sections change nothing. -/
theorem foldl_addTo_filter (s : Dictionary Text Text × List ControlSection) (es : List NamedEntry) :
    es.foldl (fun s e => e.addTo s) s =
      (es.filter (·.isSection)).foldl (fun s e => e.addTo s) s := by
  induction es generalizing s with
  | nil => rfl
  | cons e es ih =>
    by_cases he : e.isSection
    · rw [List.filter_cons, if_pos he, List.foldl_cons, List.foldl_cons, ih]
    · have hs : e.addTo s = s := if_neg he
      rw [List.filter_cons, if_neg he, List.foldl_cons, hs, ih]

/-- A control section with the storage of an entry, under the name at the root of its owners. -/
def PlacedAs (es : List NamedEntry) (e : NamedEntry) (c : ControlSection) : Prop :=
  ∃ r, RootOf es e r ∧ c.name = r.name ∧ e.address = some c.address ∧ e.length = some c.length

/-- All ids are known, each under the name at the root of its owners. -/
structure Resolved (es : List NamedEntry) (s : Dictionary Text Text × List ControlSection) :
    Prop where
  keys : s.1.keys = es.map (·.id)
  names : ∀ e ∈ es, ∃ r, RootOf es e r ∧ s.1.find? e.id = some r.name
  sections : List.Forall₂ (PlacedAs es) (es.filter (·.isPlaced)) s.2

theorem resolved_nil : Resolved [] (.empty, []) := ⟨rfl, by simp, .nil⟩

namespace Resolved
variable {s : Dictionary Text Text × List ControlSection}

/-- The name that an entry gets is the one at its root, for its owner goes under that name. -/
theorem exists_root (h : Resolved es s) (hw : WellOwned (es ++ [e])) :
    ∃ r, RootOf (es ++ [e]) e r ∧ (e.owner.bind s.1.find?).getD e.name = r.name := by
  have hk : e.id ∉ s.1.keys := h.keys ▸ hw.id_not_mem
  rcases hw.last_owned with hr | ⟨f, hf, ho⟩
  · refine ⟨e, .self (by simp) hr, ?_⟩
    rcases hr with ho | ho
    · rw [ho, Option.bind_none, Option.getD_none]
    · -- the own id is not known yet
      rw [ho, Option.bind_some, Dictionary.find?_eq_none_iff.mpr hk, Option.getD_none]
  · obtain ⟨r, hr, hn⟩ := h.names f hf
    have hne : f.id ≠ e.id := fun he => hw.id_not_mem (he ▸ List.mem_map_of_mem hf)
    refine ⟨r, .owner (by simp) (by simp [hf]) ho hne (hr.mono fun _ hm => by simp [hm]), ?_⟩
    rw [ho, Option.bind_some, hn, Option.getD_some]

theorem addTo (h : Resolved es s) (hw : WellOwned (es ++ [e])) (he : e.isSection) :
    Resolved (es ++ [e]) (e.addTo s) := by
  obtain ⟨r, hr, hn⟩ := h.exists_root hw
  have hk : e.id ∉ s.1.keys := h.keys ▸ hw.id_not_mem
  have hmono : ∀ {f q}, RootOf es f q → RootOf (es ++ [e]) f q :=
    fun hq => hq.mono fun _ hm => by simp [hm]
  simp only [NamedEntry.addTo, he, if_true, hn]
  refine ⟨?_, ?_, ?_⟩
  · rw [Dictionary.keys_insert, if_neg hk, h.keys, List.map_append]
    rfl
  · intro f hf
    rw [Dictionary.find?_insert]
    rcases List.mem_append.mp hf with hf | hf
    · have hne : f.id ≠ e.id := fun he => hw.id_not_mem (he ▸ List.mem_map_of_mem hf)
      obtain ⟨q, hq, hfind⟩ := h.names f hf
      exact ⟨q, hmono hq, by rw [if_neg hne, hfind]⟩
    · rw [List.mem_singleton.mp hf, if_pos rfl]
      exact ⟨r, hr, rfl⟩
  · rw [List.filter_append]
    refine List.rel_append (h.sections.imp ?_) ?_
    · rintro f c ⟨q, hq, hc⟩
      exact ⟨q, hmono hq, hc⟩
    · cases ha : e.address with
      | none => simp [isPlaced, ha]
      | some address =>
        cases hl : e.length with
        | none => simp [isPlaced, ha, hl]
        | some length => simpa [isPlaced, ha, hl] using ⟨r, hr, rfl, ha, hl⟩

end Resolved

theorem resolved_foldl {es : List NamedEntry} (hw : WellOwned es) (hs : ∀ e ∈ es, e.isSection) :
    Resolved es (es.foldl (fun s e => e.addTo s) (.empty, [])) := by
  induction es using List.reverseRecOn with
  | nil => exact resolved_nil
  | append_singleton es e ih =>
    rw [List.foldl_concat]
    exact (ih hw.init fun f hf => hs f (by simp [hf])).addTo hw (hs e (by simp))

end
end NamedEntry

/-! The dictionary of a listing -/

namespace Line.External

/-- The name that stands above the next line. -/
def nameBelow (above : Option Text) : External → Option Text
  | named name _ => some name
  | continuation _ => above

/-- The entry on a line, under the name on the line itself or the latest one above it. -/
def entry? (above : Option Text) : External → Option NamedEntry
  | named name entry => entry.map (⟨·, name⟩)
  | continuation entry => above.map (⟨entry, ·⟩)

def entries (above : Option Text) : List External → List NamedEntry
  | [] => []
  | x :: xs => (x.entry? above).toList ++ entries (x.nameBelow above) xs

end Line.External

def Reading.external? (indicator : Bool) (r : Reading) : Option External :=
  r.record? indicator .externals (Line.external? indicator)

namespace Draft

theorem sectionState_addSection (d : Draft) (name : Text) (e : ExternalEntry) :
    (d.addSection name e).sectionState =
      (d.sectionName, (NamedEntry.mk e name).addTo d.sectionState.2) := by
  unfold addSection NamedEntry.addTo
  by_cases he : e.isSection
  · simp only [he, if_true, sectionState]
    cases e.address <;> cases e.length <;> rfl
  · simp only [he, sectionState]
    rfl

theorem sectionState_addExternal (d : Draft) (x : External) : (d.addExternal x).sectionState =
    (x.nameBelow d.sectionName,
      (x.entry? d.sectionName).toList.foldl (fun s e => e.addTo s) d.sectionState.2) := by
  cases x with
  | named name entry =>
    cases entry with
    | none => rfl
    | some e => exact sectionState_addSection { d with sectionName := some name } name e
  | continuation e =>
    cases hn : d.sectionName with
    | none => simp [addExternal, hn, External.nameBelow, External.entry?, sectionState]
    | some name =>
      have hs := d.sectionState_addSection name e
      simpa [addExternal, hn, External.nameBelow, External.entry?] using hs

theorem sectionState_addLine {d : Draft} {r : Reading} (hp : r.place = d.place) :
    (d.addLine r.number r.line).sectionState =
      (r.external? d.listing.indicator).elim d.sectionState fun x => (d.addExternal x).sectionState := by
  have ha : r.place.area = d.area := congrArg Place.area hp
  cases hb : boundary? d.listing.indicator r.line with
  | some b =>
    rw [addLine_boundary hb, Reading.external?, Reading.record?_of_boundary hb]
    exact (d.boundaryFrame _ _ b).sections
  | none =>
    rw [addLine_record hb]
    by_cases he : d.area = .externals
    · rw [Reading.external?, Reading.record?_of_area hb (ha.trans he), addRecord, he]
      cases Line.external? d.listing.indicator r.line <;> rfl
    · rw [Reading.external?, Reading.record?_of_area_ne (ha.trans_ne he)]
      exact (d.recordFrame _ _).sections he

/-- The sections of a draft are what the entries on its lines make of them. -/
theorem sections_addReadings {d : Draft} {rs : List Reading}
    (h : Consecutive d.listing.indicator d.place rs) :
    (d.addReadings rs).sectionState.2 =
      (External.entries d.sectionName (rs.filterMap (·.external? d.listing.indicator))).foldl
        (fun s e => e.addTo s) d.sectionState.2 := by
  induction rs generalizing d with
  | nil => rfl
  | cons r rs ih =>
    have hs := sectionState_addLine h.1
    rw [addReadings_cons, ih h.tail, indicator_addLine]
    cases hx : r.external? d.listing.indicator with
    | none =>
      rw [hx] at hs
      have hn : (d.addLine r.number r.line).sectionName = d.sectionName := congrArg Prod.fst hs
      rw [List.filterMap_cons_none hx, hn, hs]
      rfl
    | some x =>
      rw [hx, Option.elim_some, sectionState_addExternal] at hs
      have hn : (d.addLine r.number r.line).sectionName = x.nameBelow d.sectionName :=
        congrArg Prod.fst hs
      rw [List.filterMap_cons_some hx, hn, hs, External.entries, List.foldl_append]

theorem sections_finish (d : Draft) (stop : ℕ) :
    ((d.finish stop).sectionNames, (d.finish stop).controlSections) = d.sectionState.2 := by
  obtain ⟨symbols, classes, hf⟩ := finish_shape d stop
  obtain ⟨reports, blocks, hc⟩ := close_shape d stop
  rw [hf, hc]
  rfl

end Draft

namespace Listing

/-- The entries of the external symbol dictionary, in the order of their lines. -/
def dictionary (l : Listing) (doc : Document) : List NamedEntry :=
  External.entries none ((l.placed doc).filterMap (·.external? l.indicator))

def sectionEntries (l : Listing) (doc : Document) : List NamedEntry :=
  (l.dictionary doc).filter (·.isSection)

theorem sections_eq {l : Listing} {doc : Document} (hl : l ∈ doc.listings) :
    (l.sectionNames, l.controlSections) =
      (l.sectionEntries doc).foldl (fun s e => e.addTo s) (.empty, []) := by
  have hf := (doc.settled_listings.indexed l hl).finish_placed
  have hs := Draft.sections_finish ((Draft.startingAt l.start l.indicator).addReadings (l.placed doc))
    l.stop
  have hc : Consecutive l.indicator .first (l.placed doc) := doc.consecutive_placed ..
  rw [← hf] at hs
  rw [hs, Draft.sections_addReadings (d := .startingAt l.start l.indicator) hc, sectionEntries,
    ← NamedEntry.foldl_addTo_filter]
  rfl

end Listing

/-- A listing knows the ids of the sections in its dictionary and no others, each under the name at
the root of its owners. Its control sections are the sections whose storage is known, in the order
of their lines and under the same names. -/
theorem sections_under_roots (doc : Document) (l : Listing) (hl : l ∈ doc.listings)
    (hw : NamedEntry.WellOwned (l.sectionEntries doc)) :
    l.sectionNames.keys = (l.sectionEntries doc).map (·.id) ∧
    (∀ e ∈ l.sectionEntries doc, ∃! r, NamedEntry.RootOf (l.sectionEntries doc) e r) ∧
    (∀ e r, NamedEntry.RootOf (l.sectionEntries doc) e r →
      l.sectionNames.find? e.id = some r.name) ∧
    List.Forall₂ (NamedEntry.PlacedAs (l.sectionEntries doc))
      ((l.sectionEntries doc).filter (·.isPlaced)) l.controlSections := by
  have hr := NamedEntry.resolved_foldl hw fun e he => (List.mem_filter.mp he).2
  rw [← Listing.sections_eq hl] at hr
  refine ⟨hr.keys, ?_, ?_, hr.sections⟩
  · intro e he
    obtain ⟨r, hroot, -⟩ := hr.names e he
    exact ⟨r, hroot, fun q hq => hroot.unique hw.distinct hq⟩
  · intro e r hroot
    obtain ⟨q, hq, hn⟩ := hr.names e hroot.mem
    rw [hn, hroot.unique hw.distinct hq]

/-- A dictionary on two pages, with entries of other types, a chain of three owners whose middle one
has a long name, and a section without storage that is its own owner. -/
def ownersSample : Document where
  uri := "sample"
  lines :=
    [reportRow .optionSummary 1, reportRow .externalSymbols 2,
      "Symbol   Type   Id     Address  Length   Owner Id Flags Alias-of".toList,
      "SAMPLE   SD 00000001 00000000 00000028           00".toList,
      "ENTRY1   LD 00000002 00000014           00000001 ".toList,
      "EXTPGM   ER 00000003                             ".toList,
      "VERYLONGSECTION ".toList, reportRow .externalSymbols 3,
      "         ED 00000004 00000028 00000010  00000001 ".toList,
      "CHILD    PC 00000005 00000038 00000008  00000004 ".toList,
      "COMMON   CM 00000006                    00000006 ".toList, "Return Code 004".toList]

def ownersListing : Listing := ownersSample.listings.headD (.startingAt 0 false)

def ownersEntries : List NamedEntry :=
  [⟨⟨"SD".toList, "00000001".toList, some 0, some 0x28, none⟩, "SAMPLE".toList⟩,
    ⟨⟨"ED".toList, "00000004".toList, some 0x28, some 0x10, some "00000001".toList⟩,
      "VERYLONGSECTION".toList⟩,
    ⟨⟨"PC".toList, "00000005".toList, some 0x38, some 8, some "00000004".toList⟩, "CHILD".toList⟩,
    ⟨⟨"CM".toList, "00000006".toList, none, none, some "00000006".toList⟩, "COMMON".toList⟩]

theorem ownersListing_spec : ownersListing ∈ ownersSample.listings ∧
    ownersListing.sectionEntries ownersSample = ownersEntries ∧
    ownersListing.sectionNames.entries =
      [("00000001".toList, "SAMPLE".toList), ("00000004".toList, "SAMPLE".toList),
        ("00000005".toList, "SAMPLE".toList), ("00000006".toList, "COMMON".toList)] ∧
    ownersListing.controlSections =
      [⟨"SAMPLE".toList, 0, 0x28⟩, ⟨"SAMPLE".toList, 0x28, 0x10⟩, ⟨"SAMPLE".toList, 0x38, 8⟩] := by
  decide +kernel

theorem sections_under_roots_ownersListing :
    (ownersListing ∈ ownersSample.listings ∧
      NamedEntry.WellOwned (ownersListing.sectionEntries ownersSample)) ∧
    (∀ e ∈ ownersEntries, ∃! r, NamedEntry.RootOf ownersEntries e r) ∧
    (∀ e r, NamedEntry.RootOf ownersEntries e r →
      ownersListing.sectionNames.find? e.id = some r.name) ∧
    ownersListing.sectionNames.entries =
      [("00000001".toList, "SAMPLE".toList), ("00000004".toList, "SAMPLE".toList),
        ("00000005".toList, "SAMPLE".toList), ("00000006".toList, "COMMON".toList)] := by
  obtain ⟨hl, he, hn, -⟩ := ownersListing_spec
  have hw : NamedEntry.WellOwned (ownersListing.sectionEntries ownersSample) := by
    rw [he]
    decide
  obtain ⟨-, hroot, hname, -⟩ := sections_under_roots ownersSample ownersListing hl hw
  rw [he] at hroot hname
  exact ⟨⟨hl, hw⟩, hroot, hname, hn⟩

end ListingIndex
