import Mathlib
import ListingIndex.Session.Basic

/-! Runs of a session, and what it keeps of them. Only attempts to index a document and releases
touch the caches, so the latest of these events on a uri tells what is kept under it, whatever
versions and languages the document shows from one read to the next. -/
namespace ListingIndex

namespace Feed
variable {α : Type}

/-- The value that the read after `k` others gives. -/
def nth : Feed α → ℕ → α
  | f, 0 => f.now
  | f, k + 1 => f.advance.nth k

theorem nth_constant (a : α) (k : ℕ) : (constant a).nth k = a := by
  induction k with
  | zero => rfl
  | succ k ih => exact ih

end Feed

/-! Operations -/

inductive Question where
  | listings
  | definitions (p : Position)
  | references (p : Position) (declarations : Bool)
  | quotation (p : Position)
  | outline
  | offsets
deriving DecidableEq, Repr

inductive Reply where
  | indexed (r : Except Refusal (List Listing))
  | released
  | diagnostics (ds : List Diagnostic)
  | listings (ls : Option (List Listing))
  | definitions (ls : List Location)
  | references (rs : References)
  | quotation (q : Option Quotation)
  | outline (nodes : List OutlineNode)
  | offsets (nodes : List OutlineNode)

/-- What a client does with a session. An operation takes its document as it is at that time, so a
document may change between two operations as well as between two reads. -/
inductive Operation (δ : Type) where
  | index (d : δ)
  | release (uri : String)
  | ask (d : δ) (q : Question)
  | diagnostics (uri : String)
deriving DecidableEq, Repr

def Operation.uri : Operation LiveDocument → String
  | .index d => d.uri
  | .release uri => uri
  | .ask d _ => d.uri
  | .diagnostics uri => uri

namespace Session

def Answer.map {α β : Type} (f : α → β) (a : Answer α) : Answer β :=
  ⟨f a.value, a.session, a.document⟩

def answer (s : Session) (d : LiveDocument) : Question → Answer Reply
  | .listings => (s.listings? d).map .listings
  | .definitions p => (s.definitions d p).map .definitions
  | .references p declarations => (s.references d p declarations).map .references
  | .quotation p => (s.quotation? d p).map .quotation
  | .outline => (s.outline d).map .outline
  | .offsets => (s.offsets d).map .offsets

def perform (s : Session) : Operation LiveDocument → Session × Reply
  | .index d => ((s.index d).session, .indexed (s.index d).value)
  | .release uri => (s.release uri, .released)
  | .ask d q => ((s.answer d q).session, (s.answer d q).value)
  | .diagnostics uri => (s, .diagnostics (s.diagnostics uri))

def run (s : Session) (ops : List (Operation LiveDocument)) : Session :=
  ops.foldl (fun s op => (s.perform op).1) s

/-- Every question is answered from the listings of its document. -/
theorem session_answer (s : Session) (d : LiveDocument) (q : Question) :
    (s.answer d q).session = (s.listings? d).session := by
  cases q <;> rfl

end Session

/-! Events -/

inductive Event where
  | attempt (d : LiveDocument)
  | release (uri : String)
deriving DecidableEq, Repr

namespace Event

def uri : Event → String
  | attempt d => d.uri
  | release uri => uri

/-- The latest event on a uri. -/
def latest? (u : String) (es : List Event) : Option Event := (es.filter (·.uri = u)).getLast?

theorem latest?_concat (u : String) (es : List Event) (e : Event) :
    latest? u (es ++ [e]) = if e.uri = u then some e else latest? u es := by
  by_cases h : e.uri = u <;> simp [latest?, List.filter_append, h]

end Event

/-- What an attempt to index a document is to keep: nothing, unless the language is accepted in
front of the scan and behind it and the version is the same. -/
def LiveDocument.kept? (o : Options) (d : LiveDocument) : Option Indexed :=
  if o.accepts (d.languages.nth 0) ∧ d.versions.nth 0 = d.versions.nth 1 ∧
      o.accepts (d.languages.nth 1) then
    some ⟨d.versions.nth 0, d.listings⟩
  else none

def Event.kept? (o : Options) : Event → Option Indexed
  | attempt d => d.kept? o
  | release _ => none

namespace LiveDocument

theorem kept?_eq_some_iff {o : Options} {d : LiveDocument} {i : Indexed} : d.kept? o = some i ↔
    o.accepts (d.languages.nth 0) ∧ d.versions.nth 0 = i.version ∧ d.listings = i.listings ∧
      d.versions.nth 1 = i.version ∧ o.accepts (d.languages.nth 1) := by
  obtain ⟨version, listings⟩ := i
  simp only [kept?, Option.ite_none_right_eq_some, Option.some.injEq, Indexed.mk.injEq]
  constructor
  · rintro ⟨⟨h₁, h₂, h₃⟩, h₄, h₅⟩
    exact ⟨h₁, h₄, h₅, h₂ ▸ h₄, h₃⟩
  · rintro ⟨h₁, h₂, h₃, h₄, h₅⟩
    exact ⟨⟨h₁, h₂.trans h₄.symm, h₅⟩, h₂, h₃⟩

theorem checkLanguage_of_accepts {o : Options} {d : LiveDocument}
    (h : o.accepts (d.languages.nth 0)) :
    d.checkLanguage o = (.ok (), { d with languages := d.languages.advance }) :=
  if_pos h

theorem checkLanguage_of_refuses {o : Options} {d : LiveDocument}
    (h : ¬ o.accepts (d.languages.nth 0)) :
    d.checkLanguage o = (.error (.notAListing d.uri (d.languages.nth 1)),
      { d with languages := d.languages.advance.advance }) :=
  if_neg h

/-- Everything an attempt can end with, and the document behind all the reads that it makes. A
refused language is read once more for the refusal. -/
theorem index_eq (o : Options) (d : LiveDocument) : d.index o =
    if ¬ o.accepts (d.languages.nth 0) then
      (.error (.notAListing d.uri (d.languages.nth 1)),
        { d with languages := d.languages.advance.advance })
    else
      let e := { d with languages := d.languages.advance, versions := d.versions.advance.advance }
      if d.versions.nth 0 ≠ d.versions.nth 1 then
        (.error (.staleVersion d.uri (d.versions.nth 0) (d.versions.nth 1)), e)
      else if ¬ o.accepts (d.languages.nth 1) then
        (.error (.notAListing d.uri (d.languages.nth 2)),
          { e with languages := e.languages.advance.advance })
      else (.ok ⟨d.versions.nth 1, d.listings⟩, { e with languages := e.languages.advance }) := by
  let e : LiveDocument :=
    { d with languages := d.languages.advance, versions := d.versions.advance.advance }
  by_cases h₁ : o.accepts (d.languages.nth 0)
  · rw [if_neg (not_not.mpr h₁), index, checkLanguage_of_accepts h₁]
    dsimp only [readVersion]
    by_cases h₂ : d.versions.nth 0 = d.versions.nth 1
    · have hv : ¬ d.versions.now ≠ d.versions.advance.now := not_not.mpr h₂
      rw [if_neg (not_not.mpr h₂), if_neg hv]
      by_cases h₃ : o.accepts (d.languages.nth 1)
      · rw [if_neg (not_not.mpr h₃), checkLanguage_of_accepts (d := e) h₃]
        rfl
      · rw [if_pos h₃, checkLanguage_of_refuses (d := e) h₃]
        rfl
    · have hv : d.versions.now ≠ d.versions.advance.now := h₂
      rw [if_pos h₂, if_pos hv]
      rfl
  · rw [if_pos h₁, index, checkLanguage_of_refuses h₁]

theorem uri_index (o : Options) (d : LiveDocument) : (d.index o).2.uri = d.uri := by
  rw [index_eq]
  split_ifs <;> rfl

theorem toOption_index (o : Options) (d : LiveDocument) : (d.index o).1.toOption = d.kept? o := by
  by_cases h₁ : o.accepts (d.languages.nth 0)
  · by_cases h₂ : d.versions.nth 0 = d.versions.nth 1
    · by_cases h₃ : o.accepts (d.languages.nth 1) <;>
        simp [index_eq, kept?, h₁, h₂, h₃, Except.toOption]
    · simp [index_eq, kept?, h₁, h₂, Except.toOption]
  · simp [index_eq, kept?, h₁, Except.toOption]

end LiveDocument

namespace Session

/-- What an event makes of a session. -/
def apply (s : Session) : Event → Session
  | .attempt d => (s.index d).session
  | .release uri => s.release uri

/-- The event that an operation brings about. A question makes an attempt, unless listings of the
version that it reads are at hand. -/
def event? (s : Session) : Operation LiveDocument → Option Event
  | .index d => some (.attempt d)
  | .release uri => some (.release uri)
  | .ask d _ =>
    if (s.indexed.find? d.uri).map (·.version) = some (d.versions.nth 0) then none
    else some (.attempt { d with versions := d.versions.advance })
  | .diagnostics _ => none

/-- The events of a run, in order. -/
def events (s : Session) : List (Operation LiveDocument) → List Event
  | [] => []
  | op :: ops => (s.event? op).toList ++ (s.perform op).1.events ops

theorem uri_of_event? {s : Session} {op : Operation LiveDocument} {e : Event}
    (h : s.event? op = some e) : e.uri = op.uri := by
  cases op with
  | index d => exact Option.some.inj h ▸ rfl
  | release uri => exact Option.some.inj h ▸ rfl
  | ask d q =>
    simp only [event?, Option.ite_none_left_eq_some] at h
    exact Option.some.inj h.2 ▸ rfl
  | diagnostics uri => cases h

theorem index_of_kept? (s : Session) (d : LiveDocument) :
    (s.index d).value.toOption = (d.kept? s.options).map (·.listings) ∧
      (s.index d).session = (d.kept? s.options).elim (s.release d.uri) (s.store d.uri) := by
  have hu := LiveDocument.uri_index s.options d
  rw [← LiveDocument.toOption_index, index]
  split
  · rename_i i e he
    rw [he] at hu ⊢
    exact ⟨rfl, congrArg (s.store · i) hu⟩
  · rename_i r e he
    rw [he] at hu ⊢
    exact ⟨rfl, congrArg s.release hu⟩

theorem listings?_of_hit {s : Session} {d : LiveDocument} {i : Indexed}
    (hf : s.indexed.find? d.uri = some i) (hv : i.version = d.versions.nth 0) :
    s.listings? d = ⟨some i.listings, s, { d with versions := d.versions.advance }⟩ := by
  have hb : (i.version == d.versions.now) = true := beq_iff_eq.mpr hv
  have hk : (s.indexed.find? d.uri).filter (·.version == d.versions.now) = some i := by
    rw [hf, Option.filter_some, if_pos hb]
  simp only [listings?, LiveDocument.readVersion, hk]

theorem listings?_of_miss {s : Session} {d : LiveDocument}
    (h : ∀ i, s.indexed.find? d.uri = some i → i.version ≠ d.versions.nth 0) :
    s.listings? d =
      let a := s.index { d with versions := d.versions.advance }
      ⟨a.value.toOption, a.session, a.document⟩ := by
  have hk : (s.indexed.find? d.uri).filter (·.version == d.versions.now) = none := by
    rw [Option.filter_eq_none_iff]
    intro i hi
    have hne : i.version ≠ d.versions.now := h i hi
    simpa using hne
  simp only [listings?, LiveDocument.readVersion, hk]

theorem session_listings? (s : Session) (d : LiveDocument) (q : Question) :
    (s.listings? d).session = (s.event? (.ask d q)).elim s s.apply := by
  by_cases h : (s.indexed.find? d.uri).map (·.version) = some (d.versions.nth 0)
  · obtain ⟨i, hf, hv⟩ := Option.map_eq_some_iff.mp h
    rw [listings?_of_hit hf hv, event?, if_pos h, Option.elim_none]
  · have hm : ∀ i, s.indexed.find? d.uri = some i → i.version ≠ d.versions.nth 0 :=
      fun i hf hv => h (Option.map_eq_some_iff.mpr ⟨i, hf, hv⟩)
    rw [listings?_of_miss hm, event?, if_neg h, Option.elim_some, apply]

/-- A session changes by its events alone. -/
theorem perform_fst (s : Session) (op : Operation LiveDocument) :
    (s.perform op).1 = (s.event? op).elim s s.apply := by
  cases op with
  | index d => rfl
  | release uri => rfl
  | ask d q => exact (session_answer s d q).trans (session_listings? s d q)
  | diagnostics uri => rfl

theorem run_eq_foldl_events (s : Session) (ops : List (Operation LiveDocument)) :
    s.run ops = (s.events ops).foldl apply s := by
  induction ops generalizing s with
  | nil => rfl
  | cons op ops ih =>
    have hr : s.run (op :: ops) = (s.perform op).1.run ops := rfl
    rw [hr, ih, events, List.foldl_append]
    congr 1
    rw [perform_fst]
    cases s.event? op <;> rfl

theorem options_apply (s : Session) (e : Event) : (s.apply e).options = s.options := by
  cases e with
  | attempt d =>
    rw [apply, (index_of_kept? s d).2]
    cases d.kept? s.options <;> rfl
  | release uri => rfl

/-- An event decides what is kept under its uri, and touches nothing else. -/
theorem kept_apply (s : Session) (e : Event) (u : String) :
    (s.apply e).indexed.find? u =
        (if u = e.uri then e.kept? s.options else s.indexed.find? u) ∧
      (s.apply e).published.find? u =
        if u = e.uri then (e.kept? s.options).map Indexed.diagnostics else s.published.find? u := by
  cases e with
  | attempt d =>
    rw [apply, (index_of_kept? s d).2, Event.kept?, Event.uri]
    cases d.kept? s.options with
    | none => exact ⟨Dictionary.find?_erase .., Dictionary.find?_erase ..⟩
    | some i => exact ⟨Dictionary.find?_insert .., Dictionary.find?_insert ..⟩
  | release uri => exact ⟨Dictionary.find?_erase .., Dictionary.find?_erase ..⟩

theorem options_foldl_apply (s : Session) (es : List Event) :
    (es.foldl apply s).options = s.options := by
  induction es generalizing s with
  | nil => rfl
  | cons e es ih => exact (ih _).trans (options_apply s e)

/-- The latest event on a uri tells what is kept under it. -/
theorem indexed_foldl_apply (s : Session) (es : List Event) (u : String) :
    (es.foldl apply s).indexed.find? u =
      (Event.latest? u es).elim (s.indexed.find? u) (Event.kept? s.options) := by
  -- on the last event: it either decides on `u` or leaves the latest one before it in force
  induction es using List.reverseRecOn with
  | nil => rfl
  | append_singleton es e ih =>
    rw [List.foldl_concat, (kept_apply _ e u).1, ih, Event.latest?_concat, options_foldl_apply]
    by_cases h : e.uri = u
    · rw [if_pos h.symm, if_pos h, Option.elim_some]
    · rw [if_neg (Ne.symm h), if_neg h]

/-- Diagnostics are published for what is indexed, and for nothing else. -/
theorem published_foldl_apply (s : Session) (es : List Event)
    (h : ∀ u, s.published.find? u = (s.indexed.find? u).map Indexed.diagnostics) (u : String) :
    (es.foldl apply s).published.find? u =
      ((es.foldl apply s).indexed.find? u).map Indexed.diagnostics := by
  induction es using List.reverseRecOn with
  | nil => exact h u
  | append_singleton es e ih =>
    rw [List.foldl_concat, (kept_apply _ e u).1, (kept_apply _ e u).2, ih]
    split_ifs <;> rfl

theorem indexed_run (o : Options) (ops : List (Operation LiveDocument)) (u : String) :
    ((start o).run ops).indexed.find? u =
      (Event.latest? u ((start o).events ops)).bind (Event.kept? o) := by
  rw [run_eq_foldl_events, indexed_foldl_apply]
  cases Event.latest? u ((start o).events ops) <;> rfl

theorem published_run (o : Options) (ops : List (Operation LiveDocument)) (u : String) :
    ((start o).run ops).published.find? u =
      (((start o).run ops).indexed.find? u).map Indexed.diagnostics := by
  rw [run_eq_foldl_events]
  exact published_foldl_apply (start o) _ (fun _ => rfl) u

theorem options_run (o : Options) (ops : List (Operation LiveDocument)) :
    ((start o).run ops).options = o := by
  rw [run_eq_foldl_events, options_foldl_apply]
  rfl

theorem kept_perform_of_ne {s : Session} {op : Operation LiveDocument} {u : String}
    (h : op.uri ≠ u) :
    (s.perform op).1.indexed.find? u = s.indexed.find? u ∧
      (s.perform op).1.published.find? u = s.published.find? u := by
  rw [perform_fst]
  cases he : s.event? op with
  | none => exact ⟨rfl, rfl⟩
  | some e =>
    have hu : u ≠ e.uri := (uri_of_event? he).trans_ne h |>.symm
    have hk := kept_apply s e u
    rwa [if_neg hu, if_neg hu] at hk

theorem kept_perform_of_refused {s : Session} {op : Operation LiveDocument} {d : LiveDocument}
    {r : Refusal} (he : s.event? op = some (.attempt d)) (hr : (d.index s.options).1 = .error r) :
    (s.perform op).1.indexed.find? d.uri = none ∧
      (s.perform op).1.published.find? d.uri = none := by
  have hk : (Event.attempt d).kept? s.options = none := by
    rw [Event.kept?, ← LiveDocument.toOption_index, hr]
    rfl
  have ha := kept_apply s (.attempt d) (Event.attempt d).uri
  rw [if_pos rfl, if_pos rfl, hk] at ha
  rw [perform_fst, he]
  exact ha

end Session

/-- After every run of a session, listings and diagnostics are kept under the same uris, and the
diagnostics are those of the listings. What is kept under a uri is what the latest event on it left
there: the listings of an attempt between whose reads nothing changed, and nothing after a refusal
or a release. Operations on other uris do not touch it. -/
theorem caches_follow_latest_event (o : Options) (ops : List (Operation LiveDocument)) :
    let s := (Session.start o).run ops
    (∀ u, s.indexed.contains u = s.published.contains u) ∧
    (∀ u, s.diagnostics u =
      ((s.indexed.find? u).map fun i => i.listings.flatMap (·.diagnostics)).getD []) ∧
    (∀ u version listings, s.indexed.find? u = some ⟨version, listings⟩ ↔
      ∃ d : LiveDocument,
        Event.latest? u ((Session.start o).events ops) = some (.attempt d) ∧
        o.accepts (d.languages.nth 0) ∧ d.versions.nth 0 = version ∧ d.listings = listings ∧
        d.versions.nth 1 = version ∧ o.accepts (d.languages.nth 1)) ∧
    (∀ op d r, s.event? op = some (.attempt d) → (d.index o).1 = .error r →
      (s.perform op).1.indexed.find? d.uri = none ∧
        (s.perform op).1.published.find? d.uri = none) ∧
    ∀ op u, op.uri ≠ u →
      (s.perform op).1.indexed.find? u = s.indexed.find? u ∧
        (s.perform op).1.published.find? u = s.published.find? u := by
  intro s
  have hp : ∀ u, s.published.find? u = (s.indexed.find? u).map Indexed.diagnostics :=
    Session.published_run o ops
  refine ⟨?_, ?_, ?_, ?_, fun op u h => Session.kept_perform_of_ne h⟩
  · intro u
    rw [Dictionary.contains, Dictionary.contains, hp, Option.isSome_map]
  · intro u
    rw [Session.diagnostics, hp]
    rfl
  · intro u version listings
    rw [Session.indexed_run, Option.bind_eq_some_iff]
    constructor
    · rintro ⟨e, he, hk⟩
      cases e with
      | attempt d => exact ⟨d, he, LiveDocument.kept?_eq_some_iff.mp hk⟩
      | release uri => cases hk
    · rintro ⟨d, he, hk⟩
      exact ⟨.attempt d, he, LiveDocument.kept?_eq_some_iff.mpr hk⟩
  · intro op d r he hr
    have ho : s.options = o := Session.options_run o ops
    exact Session.kept_perform_of_refused he (ho.symm ▸ hr)

end ListingIndex
