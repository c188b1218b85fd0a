import Mathlib
import ListingIndex.Proofs.SessionCache
import ListingIndex.Proofs.TitleLines

/-! Answers without a cache. As long as a version stands for one text in one language, a session
answers every question about a document as the document alone would, whatever was indexed, refused
or released before. -/
namespace ListingIndex

namespace Snapshot
variable (o : Options) (d : Snapshot)

/-- The listings from which a document is to be answered. -/
def listings? : Option (List Listing) :=
  if o.accepts d.languageId then some d.listings else none

def listingAt? (p : Position) : Option Listing :=
  (d.listings? o).bind fun ls => ls.find? (·.containsLine p.line)

/-- The answer that a document gives by itself. -/
def answer : Question → Reply
  | .listings => .listings (d.listings? o)
  | .definitions p => .definitions <| match d.listingAt? o p with
    | some l => l.definitions d.toDocument o p
    | none => []
  | .references p declarations => .references <| match d.listingAt? o p with
    | some l => l.references d.toDocument o p declarations
    | none => .none
  | .quotation p => .quotation <| match d.listingAt? o p with
    | some l => l.quotation? d.toDocument o p
    | none => none
  | .outline => .outline <| match d.listings? o with
    | some ls => ListingIndex.outline ls o
    | none => []
  | .offsets => .offsets <| match d.listings? o with
    | some ls => ListingIndex.offsets ls
    | none => []

end Snapshot

namespace Operation
variable {δ ε : Type}

def map (f : δ → ε) : Operation δ → Operation ε
  | index d => index (f d)
  | release uri => release uri
  | ask d q => ask (f d) q
  | diagnostics uri => diagnostics uri

def document? : Operation δ → Option δ
  | index d => some d
  | ask d _ => some d
  | release _ => none
  | diagnostics _ => none

end Operation

def documents (ops : List (Operation Snapshot)) : List Snapshot := ops.filterMap (·.document?)

/-- Documents of one uri and one version have one text and one language. -/
def Coherent (ds : List Snapshot) : Prop :=
  ∀ d ∈ ds, ∀ e ∈ ds, d.uri = e.uri → d.version = e.version →
    d.lines = e.lines ∧ d.languageId = e.languageId

instance (ds : List Snapshot) : Decidable (Coherent ds) :=
  inferInstanceAs (Decidable (∀ d ∈ ds, ∀ e ∈ ds, d.uri = e.uri → d.version = e.version →
    d.lines = e.lines ∧ d.languageId = e.languageId))

theorem Snapshot.listings?_congr {o : Options} {d e : Snapshot} (hl : d.lines = e.lines)
    (hi : d.languageId = e.languageId) : d.listings? o = e.listings? o := by
  have h : d.listings = e.listings := congrArg (fun ls => (Scan.initial.run ls).listings) hl
  rw [listings?, listings?, h, hi]

theorem Snapshot.kept?_live (o : Options) (d : Snapshot) :
    d.live.kept? o = (d.listings? o).map (⟨d.version, ·⟩) := by
  have hv : ∀ k, d.live.versions.nth k = d.version := Feed.nth_constant d.version
  have hl : ∀ k, d.live.languages.nth k = d.languageId := Feed.nth_constant d.languageId
  by_cases h : o.accepts d.languageId <;> simp [LiveDocument.kept?, listings?, hv, hl, h]
  rfl

theorem Event.of_latest? {u : String} {es : List Event} {e : Event} (h : latest? u es = some e) :
    e ∈ es ∧ e.uri = u := by
  have hm := List.mem_of_getLast? h
  simpa using hm

namespace Session

theorem document?_of_event? {s : Session} {op : Operation Snapshot} {e : LiveDocument}
    (h : s.event? (op.map Snapshot.live) = some (.attempt e)) :
    ∃ d, op.document? = some d ∧ e = d.live := by
  cases op with
  | index d =>
    have he : d.live = e := Event.attempt.inj (Option.some.inj h)
    exact ⟨d, rfl, he.symm⟩
  | release uri => simp [Operation.map, event?] at h
  | ask d q =>
    -- the version that a question reads is there to be read again
    rw [Operation.map, event?, Option.ite_none_left_eq_some] at h
    have he : d.live = e := Event.attempt.inj (Option.some.inj h.2)
    exact ⟨d, rfl, he.symm⟩
  | diagnostics uri => cases h

/-- Attempts are made on the documents of a run, and on no others. -/
theorem attempt_mem_events {s : Session} {ops : List (Operation Snapshot)} {e : LiveDocument}
    (h : .attempt e ∈ s.events (ops.map (·.map Snapshot.live))) :
    ∃ d ∈ documents ops, e = d.live := by
  induction ops generalizing s with
  | nil => simp [events] at h
  | cons op ops ih =>
    rw [List.map_cons, events, List.mem_append, Option.mem_toList] at h
    rcases h with h | h
    · obtain ⟨d, hd, he⟩ := document?_of_event? h
      exact ⟨d, List.mem_filterMap.mpr ⟨op, by simp, hd⟩, he⟩
    · obtain ⟨d, hd, he⟩ := ih h
      obtain ⟨op', hop, hd⟩ := List.mem_filterMap.mp hd
      exact ⟨d, List.mem_filterMap.mpr ⟨op', by simp [hop], hd⟩, he⟩

/-- Everything that is kept stems from a document of the run. -/
theorem source_of_indexed {o : Options} {ops : List (Operation Snapshot)} {u : String} {i : Indexed}
    (h : ((start o).run (ops.map (·.map Snapshot.live))).indexed.find? u = some i) :
    ∃ d ∈ documents ops, d.uri = u ∧ d.version = i.version ∧ d.listings? o = some i.listings := by
  rw [indexed_run, Option.bind_eq_some_iff] at h
  obtain ⟨e, he, hk⟩ := h
  obtain ⟨hm, hu⟩ := Event.of_latest? he
  cases e with
  | release uri => cases hk
  | attempt e =>
    obtain ⟨d, hd, rfl⟩ := attempt_mem_events hm
    rw [Event.kept?, Snapshot.kept?_live, Option.map_eq_some_iff] at hk
    obtain ⟨ls, hls, rfl⟩ := hk
    exact ⟨d, hd, hu, rfl, hls⟩

/-- The listings that a session gives of a document are those of the document: a hit has the same
text behind it, and a miss is a new attempt. -/
theorem value_listings? {o : Options} {ops : List (Operation Snapshot)} {d : Snapshot}
    (h : Coherent (d :: documents ops)) :
    (((start o).run (ops.map (·.map Snapshot.live))).listings? d.live).value = d.listings? o := by
  let s := (start o).run (ops.map (·.map Snapshot.live))
  change (s.listings? d.live).value = d.listings? o
  have ho : s.options = o := options_run o _
  by_cases hc : ∃ i, s.indexed.find? d.uri = some i ∧ i.version = d.version
  · obtain ⟨i, hf, hv⟩ := hc
    obtain ⟨e, he, hu, hw, hls⟩ := source_of_indexed hf
    obtain ⟨hl, hi⟩ := h e (by simp [he]) d (by simp) hu (hw.trans hv)
    rw [listings?_of_hit (d := d.live) hf hv, ← hls]
    exact Snapshot.listings?_congr hl hi
  · have hm : ∀ i, s.indexed.find? d.uri = some i → i.version ≠ d.version :=
      fun i hf hv => hc ⟨i, hf, hv⟩
    rw [listings?_of_miss (d := d.live) hm]
    refine (index_of_kept? s d.live).1.trans ?_
    rw [ho, Snapshot.kept?_live, Option.map_map]
    exact Option.map_id'

theorem value_answer {s : Session} {d : Snapshot}
    (h : (s.listings? d.live).value = d.listings? s.options) (q : Question) :
    (s.answer d.live q).value = d.answer s.options q := by
  have hat : ∀ {α : Type} (p : Position) (default : α) (f : Listing → α),
      (s.askAt d.live p default f).value = ((d.listingAt? s.options p).map f).getD default := by
    intro α p default f
    rw [askAt, ask, h, Snapshot.listingAt?]
    cases d.listings? s.options <;> rfl
  have hall : ∀ {α : Type} (default : α) (f : List Listing → α),
      (s.ask d.live default f).value = ((d.listings? s.options).map f).getD default := by
    intro α default f
    rw [ask, h]
  cases q with
  | listings => exact congrArg Reply.listings h
  | definitions p =>
    refine congrArg Reply.definitions ((hat p _ _).trans ?_)
    cases d.listingAt? s.options p <;> rfl
  | references p declarations =>
    refine congrArg Reply.references ((hat p _ _).trans ?_)
    cases d.listingAt? s.options p <;> rfl
  | quotation p =>
    refine congrArg Reply.quotation ((hat p _ _).trans ?_)
    cases d.listingAt? s.options p <;> rfl
  | outline =>
    refine congrArg Reply.outline ((hall _ _).trans ?_)
    cases d.listings? s.options <;> rfl
  | offsets =>
    refine congrArg Reply.offsets ((hall _ _).trans ?_)
    cases d.listings? s.options <;> rfl

/-- What a session tells, operation by operation. -/
def replies (s : Session) : List (Operation LiveDocument) → List Reply
  | [] => []
  | op :: ops => (s.perform op).2 :: (s.perform op).1.replies ops

theorem replies_getElem? (s : Session) (ops : List (Operation LiveDocument)) (k : ℕ) :
    (s.replies ops)[k]? = ops[k]?.map fun op => ((s.run (ops.take k)).perform op).2 := by
  induction ops generalizing s k with
  | nil => simp [replies]
  | cons op ops ih =>
    cases k with
    | zero => rfl
    | succ k => exact ih (s.perform op).1 k

end Session

/-- In a run over documents of which one version has one text and one language, the answer to every
question is the one that its document gives without a session. -/
theorem replies_eq_answer (o : Options) (ops : List (Operation Snapshot))
    (h : Coherent (documents ops)) (k : ℕ) (d : Snapshot) (q : Question)
    (hk : ops[k]? = some (.ask d q)) :
    ((Session.start o).replies (ops.map (·.map Snapshot.live)))[k]? = some (d.answer o q) := by
  have hd : d ∈ documents ops := by
    exact List.mem_filterMap.mpr ⟨.ask d q, List.mem_of_getElem? hk, rfl⟩
  have hbefore : ∀ e ∈ d :: documents (ops.take k), e ∈ documents ops := by
    intro e he
    rcases List.mem_cons.mp he with rfl | he
    · exact hd
    · obtain ⟨op, hop, heq⟩ := List.mem_filterMap.mp he
      exact List.mem_filterMap.mpr ⟨op, List.mem_of_mem_take hop, heq⟩
  have hc : Coherent (d :: documents (ops.take k)) :=
    fun e he f hf => h e (hbefore e he) f (hbefore f hf)
  rw [Session.replies_getElem?, List.getElem?_map, hk, ← List.map_take, Option.map_some,
    Option.map_some]
  let s := (Session.start o).run ((ops.take k).map (·.map Snapshot.live))
  have ho : s.options = o := Session.options_run o _
  have hv : (s.listings? d.live).value = d.listings? s.options := by
    rw [ho]
    exact Session.value_listings? hc
  have ha := Session.value_answer hv q
  rw [ho] at ha
  exact congrArg some ha

/-- A document with a listing, in its first version. -/
def firstDraft : Snapshot where
  uri := "draft"
  lines := [Line.reportRow .optionSummary 1, "Return Code 004".toList]
  languageId := Options.standard.languageId
  version := 1

/-- The text goes, and then the language. -/
def draftHistory : List (Operation Snapshot) :=
  let emptied := { firstDraft with lines := [], version := 2 }
  [.index firstDraft, .ask emptied .outline, .ask firstDraft .listings, .release "draft",
    .index { emptied with languageId := "plaintext", version := 3 }, .diagnostics "draft"]

theorem replies_eq_answer_draftHistory :
    Coherent (documents draftHistory) ∧ draftHistory[2]? = some (.ask firstDraft .listings) ∧
      ((Session.start .standard).replies (draftHistory.map (·.map Snapshot.live)))[2]? =
        some (firstDraft.answer .standard .listings) ∧
      (firstDraft.listings? .standard).map (·.map fun l => (l.start, l.stop)) = some [(0, 2)] := by
  have hc : Coherent (documents draftHistory) := by decide +kernel
  have hk : draftHistory[2]? = some (.ask firstDraft .listings) := rfl
  exact ⟨hc, hk, replies_eq_answer .standard draftHistory hc 2 firstDraft .listings hk,
    by decide +kernel⟩

end ListingIndex
