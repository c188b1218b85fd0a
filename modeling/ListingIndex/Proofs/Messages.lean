import Mathlib
import ListingIndex.Proofs.Findings
import ListingIndex.Proofs.Simulation

/-! Messages of the assembler, which may stand anywhere in a listing. A line that is read as a message
becomes one diagnostic and leaves all else as it was, so that an empty line in its place would do. -/
namespace ListingIndex
open Line Column

/-- The severity for which a letter at the end of a message code stands. -/
def Severity.ofLetter : Char → Severity
  | 'N' => hint
  | 'I' => info
  | 'W' => warning
  | _ => error

namespace Line

def isMessage (indicator : Bool) (line : Text) : Bool :=
  match boundary? indicator line with
  | some (.message _ _) => true
  | _ => false

/-- The message on line `n`. -/
def diagnostic? (indicator : Bool) (n : ℕ) (line : Text) : Option Diagnostic :=
  match boundary? indicator line with
  | some (.message code text) => some (.onLine n line.length code text)
  | _ => none

section
variable {indicator : Bool} {line code text : Text}

theorem isMessage_iff : isMessage indicator line ↔
    ∃ code text, boundary? indicator line = some (.message code text) := by
  unfold isMessage
  cases boundary? indicator line with
  | none => simp
  | some b => cases b <;> simp

theorem diagnostic?_of_message (h : boundary? indicator line = some (.message code text)) (n : ℕ) :
    diagnostic? indicator n line = some (.onLine n line.length code text) := by
  simp [diagnostic?, h]

theorem diagnostic?_of_not_message (h : ¬ isMessage indicator line) (n : ℕ) :
    diagnostic? indicator n line = none := by
  cases hd : diagnostic? indicator n line with
  | none => rfl
  | some d =>
    unfold diagnostic? at hd
    split at hd
    · exact absurd (isMessage_iff.mpr ⟨_, _, by assumption⟩) h
    · cases hd

/-- Nothing is read from an empty line. -/
theorem readers_nil (indicator : Bool) :
    boundary? indicator [] = none ∧ external? indicator [] = none ∧
      crossReference? indicator [] = none ∧ dsect? indicator [] = none ∧
      using? indicator [] = none ∧ ∀ layout, code? layout indicator [] = none := by
  cases indicator <;> exact ⟨rfl, rfl, rfl, rfl, rfl, fun layout => by cases layout <;> rfl⟩

theorem Boundary.ofTitle_ne_message (field : Text) : ofTitle field ≠ .message code text := by
  unfold ofTitle
  split <;> simp

theorem message?_of_boundary? (h : boundary? indicator line = some (.message code text)) :
    ∃ s, behindIndicator indicator line = some s ∧
      Boundary.message? s = some (.message code text) := by
  obtain ⟨s, hs, h⟩ := Option.bind_eq_some_iff.mp h
  refine ⟨s, hs, ?_⟩
  obtain ⟨f, hf, h⟩ := List.exists_of_findSome?_eq_some h
  simp only [List.mem_cons, List.not_mem_nil, or_false] at hf
  -- the other readers find no messages
  rcases hf with rfl | rfl | rfl | rfl
  · obtain ⟨_, -, h⟩ := Option.map_eq_some_iff.mp h
    cases h
  · exact h
  · obtain ⟨_, -, h⟩ := Option.bind_eq_some_iff.mp h
    obtain ⟨_, -, h⟩ := Option.bind_eq_some_iff.mp h
    cases h
  · obtain ⟨⟨field, _⟩, -, h⟩ := Option.bind_eq_some_iff.mp h
    obtain ⟨_, -, h⟩ := Option.bind_eq_some_iff.mp h
    obtain ⟨_, -, h⟩ := Option.bind_eq_some_iff.mp h
    obtain ⟨_, -, h⟩ := Option.bind_eq_some_iff.mp h
    exact absurd (Option.some.inj h) (Boundary.ofTitle_ne_message field)

theorem Boundary.message?_eq_some {s : Text} (h : message? s = some (.message code text)) :
    "** ASMA".toList <+: s ∧ ∃ letter, isSeverityLetter letter ∧ code.getLast? = some letter := by
  obtain ⟨t, ht, h⟩ := Option.bind_eq_some_iff.mp h
  obtain ⟨⟨number, u⟩, -, h⟩ := Option.bind_eq_some_iff.mp h
  obtain ⟨⟨severity, v⟩, hv, h⟩ := Option.bind_eq_some_iff.mp h
  obtain ⟨w, -, h⟩ := Option.bind_eq_some_iff.mp h
  obtain ⟨⟨body, _⟩, -, h⟩ := Option.bind_eq_some_iff.mp h
  obtain ⟨-, hlen, hall⟩ := exactly_eq_some_iff.mp hv
  obtain ⟨letter, rfl⟩ := List.length_eq_one_iff.mp hlen
  obtain ⟨rfl, -⟩ := Boundary.message.inj (Option.some.inj h)
  refine ⟨⟨t, (word_eq_some_iff.mp ht).symm⟩, letter, by simpa using hall, ?_⟩
  exact List.getLast?_concat

/-- A message code ends in a letter. -/
theorem letter_of_message (h : boundary? indicator line = some (.message code text)) :
    ∃ letter, Boundary.isSeverityLetter letter ∧ code.getLast? = some letter := by
  obtain ⟨s, -, hs⟩ := message?_of_boundary? h
  exact (Boundary.message?_eq_some hs).2

/-- The first line of a listing is no message. -/
theorem not_isMessage_of_opening? (h : opening? line = some indicator) :
    ¬ isMessage indicator line := by
  intro hm
  obtain ⟨code, text, hb⟩ := isMessage_iff.mp hm
  obtain ⟨s, hs, hm⟩ := message?_of_boundary? hb
  obtain ⟨t, ht⟩ := (Boundary.message?_eq_some hm).1
  have ho := List.find?_some h
  rw [hs, Option.any_some, isTitle, Option.isSome_iff_exists] at ho
  obtain ⟨_, ho⟩ := ho
  obtain ⟨_, hw, -⟩ := Option.bind_eq_some_iff.mp ho
  have hw := word_eq_some_iff.mp hw
  rw [← ht] at hw
  simpa [List.replicate_succ] using congrArg List.head? hw

end
end Line

theorem Severity.ofCode_eq_ofLetter {code : Text} {letter : Char} (h : code.getLast? = some letter) :
    ofCode code = ofLetter letter := by
  unfold ofCode ofLetter
  rw [h]
  split <;> simp_all

/-! Drafts that differ in their messages alone -/

def Listing.withMessages (l : Listing) (w : List Diagnostic) : Listing := { l with diagnostics := w }

namespace Draft

def withMessages (d : Draft) (w : List Diagnostic) : Draft :=
  { d with listing := d.listing.withMessages w }

theorem aside_withMessages (w : List Diagnostic) : Aside (withMessages · w) :=
  ⟨fun _ => rfl, fun _ _ => rfl⟩

section
variable (d : Draft) (w : List Diagnostic)

theorem close_withMessages (n : ℕ) : (d.withMessages w).close n = (d.close n).withMessages w := by
  unfold close
  cases ho : d.opened with
  | none => simp [withMessages, ho]
  | some o => cases o <;> simp [withMessages, Listing.withMessages, ho]

theorem throughBoundaries_withMessages (n : ℕ) : ThroughBoundaries (withMessages · w) n n where
  toAside := aside_withMessages w
  close d := close_withMessages d w n
  closeSummary _ := rfl
  openBlock _ _ _ := rfl
  openReport _ _ := rfl
  turnPage _ _ := rfl

/-- A line does not look at the messages above it. It adds its own, if it is one. -/
theorem addLine_withMessages (n : ℕ) (line : Text) : (d.withMessages w).addLine n line =
    (d.addLine n line).withMessages (w ++ (diagnostic? d.listing.indicator n line).toList) := by
  have hi : (d.withMessages w).listing.indicator = d.listing.indicator := rfl
  cases hb : boundary? d.listing.indicator line with
  | none =>
    have hm : ¬ isMessage d.listing.indicator line := by simp [isMessage, hb]
    rw [addLine_record hb, addLine_record (by rw [hi, hb]), diagnostic?_of_not_message hm]
    simp only [Option.toList_none, List.append_nil]
    exact (aside_withMessages w).addRecord rfl rfl fun _ _ => rfl
  | some b =>
    rw [addLine_boundary hb, addLine_boundary (by rw [hi, hb])]
    by_cases hm : isMessage d.listing.indicator line
    · obtain ⟨code, text, hc⟩ := isMessage_iff.mp hm
      obtain rfl := Option.some.inj (hb.symm.trans hc)
      rw [diagnostic?_of_message hc]
      rfl
    · rw [diagnostic?_of_not_message hm, Option.toList_none, List.append_nil]
      refine (throughBoundaries_withMessages w n).addBoundary d ?_
      rintro code text rfl
      exact absurd (isMessage_iff.mpr ⟨code, text, hb⟩) hm

theorem finish_withMessages (stop : ℕ) :
    (d.withMessages w).finish stop = (d.finish stop).withMessages w := by
  have hf : (d.withMessages w).flush = d.flush.withMessages w :=
    (aside_withMessages w).comm local_flush d
  simp only [finish, hf, close_withMessages]
  rfl

end

theorem diagnostics_addLine (d : Draft) (n : ℕ) (line : Text) :
    (d.addLine n line).listing.diagnostics =
      d.listing.diagnostics ++ (diagnostic? d.listing.indicator n line).toList :=
  congrArg (·.listing.diagnostics) (d.addLine_withMessages d.listing.diagnostics n line)

theorem diagnostics_finish (d : Draft) (stop : ℕ) :
    (d.finish stop).diagnostics = d.listing.diagnostics :=
  congrArg (·.diagnostics) (d.finish_withMessages d.listing.diagnostics stop)

/-- An empty line says nothing, wherever it stands. -/
theorem addLine_nil (d : Draft) (n : ℕ) : d.addLine n [] = d := by
  obtain ⟨hb, he, hr, hd, hu, hc⟩ := readers_nil d.listing.indicator
  rw [addLine_record hb]
  simp only [addRecord, he, hr, hd, hu, hc, Option.elim_none]
  cases d.area with
  | code => cases d.listing.layout <;> rfl
  | _ => rfl

theorem simulation_withMessages :
    Scan.Simulation (fun d e => ∃ w, e = d.withMessages w) (fun l k => ∃ w, k = l.withMessages w) := by
  refine ⟨fun _ _ => ⟨[], rfl⟩, ?_, ?_⟩
  · rintro d _ ⟨w, rfl⟩
    rfl
  · rintro d _ ⟨w, rfl⟩ stop
    exact ⟨w, d.finish_withMessages w stop⟩

theorem alike_withMessages (line : Text) :
    Scan.Alike (fun d e => ∃ w, e = d.withMessages w) line line := by
  refine ⟨rfl, fun _ => rfl, fun _ => rfl, ?_⟩
  rintro d _ ⟨w, rfl⟩ n
  exact ⟨_, d.addLine_withMessages w n line⟩

end Draft

namespace Scan
variable {s t : Scan} {d : Draft}

theorem step_nil (hm : s.mode = .reading d) : s.step [] = ⟨s.next + 1, s.found, .reading d⟩ := by
  have hb := (readers_nil d.listing.indicator).1
  rw [step_record hm hb, ← Draft.addLine_record hb, Draft.addLine_nil]

theorem step_message {line code text : Text} (hm : s.mode = .reading d)
    (hb : boundary? d.listing.indicator line = some (.message code text)) :
    s.step line = ⟨s.next + 1, s.found, .reading (d.addMessage s.next line.length code text)⟩ := by
  simp only [step, reader?, hm, read, hb]
  rfl

/-- Two scans that differ in their messages alone. -/
def SameButMessages : Scan → Scan → Prop :=
  Related (fun d e => ∃ w, e = d.withMessages w) (fun l k => ∃ w, k = l.withMessages w)

theorem SameButMessages.step (h : s.SameButMessages t) (line : Text) :
    (s.step line).SameButMessages (t.step line) :=
  Related.step Draft.simulation_withMessages h (Draft.alike_withMessages line)

/-- An empty line in place of a message keeps two scans together. -/
theorem SameButMessages.step_silenced (h : s.SameButMessages t) {line : Text}
    (hm : s.mode = .reading d) (hl : isMessage d.listing.indicator line) :
    (s.step line).SameButMessages (t.step []) := by
  obtain ⟨code, text, hb⟩ := isMessage_iff.mp hl
  obtain ⟨hn, hf, hr⟩ := h
  rw [hm] at hr
  cases ht : t.mode with
  | idle => rw [ht] at hr; cases hr
  | skipping e => rw [ht] at hr; cases hr
  | reading e =>
    rw [ht] at hr
    obtain ⟨w, rfl⟩ : ∃ w, e = d.withMessages w := by
      cases hr with
      | reading he => exact he
    rw [step_message hm hb, step_nil ht, hn]
    exact ⟨rfl, hf, .reading ⟨w, rfl⟩⟩

end Scan

/-! The messages of a document -/

/-- The diagnostic of the message on line `n`: it covers the line, and the last letter of its code
gives its severity. -/
def Document.Announces (doc : Document) (indicator : Bool) (n : ℕ) (d : Diagnostic) : Prop :=
  ∃ code text letter, boundary? indicator (doc.line n) = some (.message code text) ∧
    code.getLast? = some letter ∧
    d = ⟨⟨⟨n, 0⟩, ⟨n, (doc.line n).length⟩⟩, .ofLetter letter, code, text⟩

/-- The lines of a listing that are read as messages. -/
def Listing.messageLines (l : Listing) (doc : Document) : List ℕ :=
  (l.readings doc).filter fun n => isMessage l.indicator (doc.line n)

/-- The document with an empty line in place of every message of its listings. -/
def Document.silenced (doc : Document) : Document :=
  { doc with lines := doc.lines.mapIdx fun n line =>
      if n ∈ doc.listings.flatMap (·.messageLines doc) then [] else line }

theorem Draft.diagnostics_foldl (doc : Document) (d : Draft) (ns : List ℕ) :
    (ns.foldl (fun d n => d.addLine n (doc.line n)) d).listing.diagnostics =
      d.listing.diagnostics ++
        ns.filterMap fun n => diagnostic? d.listing.indicator n (doc.line n) := by
  induction ns generalizing d with
  | nil => simp
  | cons n ns ih =>
    rw [List.foldl_cons, ih, diagnostics_addLine, indicator_addLine]
    cases hd : diagnostic? d.listing.indicator n (doc.line n) <;> simp [hd]

namespace Document
variable {doc : Document} {l : Listing} {n : ℕ}

theorem announces_of_diagnostic? {indicator : Bool} {d : Diagnostic}
    (h : diagnostic? indicator n (doc.line n) = some d) : doc.Announces indicator n d := by
  by_cases hm : isMessage indicator (doc.line n)
  · obtain ⟨code, text, hb⟩ := isMessage_iff.mp hm
    obtain ⟨letter, -, hl⟩ := letter_of_message hb
    rw [diagnostic?_of_message hb] at h
    refine ⟨code, text, letter, hb, hl, ?_⟩
    rw [← Severity.ofCode_eq_ofLetter hl]
    exact (Option.some.inj h).symm
  · rw [diagnostic?_of_not_message hm] at h
    cases h

theorem diagnostics_eq (hl : l ∈ doc.listings) : l.diagnostics =
    (l.readings doc).filterMap fun n => diagnostic? l.indicator n (doc.line n) := by
  have hf := (doc.settled_listings.indexed l hl).finished
  rw [congrArg Listing.diagnostics hf, Draft.diagnostics_finish, draft, Draft.diagnostics_foldl]
  rfl

/-- Each line that is read as a message has one diagnostic, in the order of the lines. -/
theorem announces_messageLines (hl : l ∈ doc.listings) :
    List.Forall₂ (doc.Announces l.indicator) (l.messageLines doc) l.diagnostics := by
  rw [diagnostics_eq hl, Listing.messageLines]
  induction l.readings doc with
  | nil => exact .nil
  | cons n ns ih =>
    by_cases hm : isMessage l.indicator (doc.line n)
    · obtain ⟨code, text, hb⟩ := isMessage_iff.mp hm
      have hd := diagnostic?_of_message hb n
      rw [List.filter_cons, if_pos hm]
      simp only [List.filterMap_cons, hd]
      exact .cons (announces_of_diagnostic? hd) ih
    · rw [List.filter_cons, if_neg hm]
      simp only [List.filterMap_cons, diagnostic?_of_not_message hm n]
      exact ih

theorem Announces.line_eq {indicator : Bool} {d : Diagnostic} (h : doc.Announces indicator n d) :
    d.span.start.line = n := by
  obtain ⟨code, text, letter, -, -, rfl⟩ := h
  rfl

theorem diagnostics_ascending (hl : l ∈ doc.listings) :
    l.diagnostics.Pairwise fun a b => a.span.start.line < b.span.start.line := by
  have hm : l.diagnostics.map (·.span.start.line) = l.messageLines doc := by
    have ha := (announces_messageLines hl).imp fun n d h => h.line_eq.symm
    rw [← List.forall₂_map_right_iff, List.forall₂_eq_eq_eq] at ha
    exact ha.symm
  rw [← List.pairwise_map, hm]
  exact (doc.readings_ascending ..).filter _

/-- Among the lines that a listing reads, the ones silenced are its own messages. -/
theorem mem_messageLines_iff (hl : l ∈ doc.listings) (hn : n ∈ l.readings doc) :
    n ∈ doc.listings.flatMap (·.messageLines doc) ↔ isMessage l.indicator (doc.line n) := by
  have hc : ∀ k : Listing, n ∈ k.readings doc → k.containsLine n := by
    intro k hk
    obtain ⟨h₁, h₂, -⟩ := mem_readings.mp hk
    simp [Listing.containsLine, h₁, h₂]
  rw [List.mem_flatMap]
  constructor
  · rintro ⟨k, hk, hnk⟩
    obtain ⟨hr, hm⟩ := List.mem_filter.mp hnk
    rw [eq_of_containsLine hl hk (hc l hn) (hc k hr)]
    exact hm
  · intro hm
    exact ⟨l, hl, List.mem_filter.mpr ⟨hn, hm⟩⟩

theorem line_silenced (doc : Document) (n : ℕ) : doc.silenced.line n =
    if n ∈ doc.listings.flatMap (·.messageLines doc) then [] else doc.line n := by
  unfold line silenced
  rw [List.getElem?_mapIdx]
  cases doc.lines[n]? <;> simp

theorem boundary?_silenced (hl : l ∈ doc.listings) (hn : n ∈ l.readings doc) :
    boundary? l.indicator (doc.silenced.line n) =
      if isMessage l.indicator (doc.line n) then none else boundary? l.indicator (doc.line n) := by
  rw [line_silenced]
  simp only [mem_messageLines_iff hl hn]
  split
  · exact (readers_nil l.indicator).1
  · rfl

/-- Silenced messages do not change what a listing reads. -/
theorem readings_silenced (hl : l ∈ doc.listings) : l.readings doc.silenced = l.readings doc := by
  have hr : ∀ k, l.start + k < l.stop → doc.silenced.readsBelow l.start l.indicator k =
      doc.readsBelow l.start l.indicator k := by
    intro k
    induction k with
    | zero => exact fun _ => rfl
    | succ k ih =>
      intro hk
      have hk' := ih (by omega)
      rw [readsBelow, readsBelow, hk']
      by_cases hrk : doc.readsBelow l.start l.indicator k
      · have hn : l.start + k ∈ l.readings doc :=
          mem_readings.mpr ⟨by omega, by omega, by simpa using hrk⟩
        have hh : hidesNext l.indicator (doc.silenced.line (l.start + k)) =
            hidesNext l.indicator (doc.line (l.start + k)) := by
          unfold hidesNext
          rw [boundary?_silenced hl hn]
          split
          · rename_i hm
            obtain ⟨code, text, hb⟩ := isMessage_iff.mp hm
            rw [hb]
            simp
          · rfl
        rw [hh]
      · simp [hrk]
  unfold Listing.readings readings
  apply List.filter_congr
  intro n hn
  obtain ⟨h₁, h₂⟩ := List.mem_range'_1.mp hn
  exact hr (n - l.start) (by omega)

theorem mode_of_message (hl : l ∈ doc.listings) (hn : n ∈ l.messageLines doc) :
    (Scan.initial.run (doc.lines.take n)).mode = .reading (doc.draft l.start l.indicator n) := by
  obtain ⟨hr, hm⟩ := List.mem_filter.mp hn
  refine mode_of_mem_readings hl hr (lt_of_le_of_ne (mem_readings.mp hr).1 ?_)
  rintro rfl
  exact not_isMessage_of_opening? (doc.settled_listings.indexed l hl).opening hm

/-- The scans of both documents stay together, line by line. -/
theorem sameButMessages_silenced (doc : Document) {n : ℕ} (hn : n ≤ doc.lineCount) :
    (Scan.initial.run (doc.lines.take n)).SameButMessages
      (Scan.initial.run (doc.silenced.lines.take n)) := by
  induction n with
  | zero => exact Scan.Related.initial
  | succ n ih =>
    have hlt : n < doc.lines.length := hn
    have hlt' : n < doc.silenced.lines.length := by simpa [silenced] using hlt
    have hline : doc.line n = doc.lines[n] := by simp [line, hlt]
    have hline' : doc.silenced.line n = doc.silenced.lines[n] := by simp [line, hlt']
    have hs := ih hlt.le
    rw [List.take_succ_eq_append_getElem hlt, List.take_succ_eq_append_getElem hlt',
      Scan.run_append, Scan.run_append, ← hline, ← hline', line_silenced]
    by_cases hm : n ∈ doc.listings.flatMap (·.messageLines doc)
    · obtain ⟨l, hl, hn⟩ := List.mem_flatMap.mp hm
      rw [if_pos hm]
      refine hs.step_silenced (mode_of_message hl hn) ?_
      rw [indicator_draft]
      exact (List.mem_filter.mp hn).2
    · rw [if_neg hm]
      exact hs.step (doc.line n)

theorem map_withMessages_silenced (doc : Document) :
    doc.silenced.listings.map (·.withMessages []) = doc.listings.map (·.withMessages []) := by
  have hs := sameButMessages_silenced doc le_rfl
  have hcount : doc.lineCount = doc.silenced.lines.length := by simp [silenced, lineCount]
  have hall : doc.lines.take doc.lineCount = doc.lines := List.take_length
  rw [hall, hcount, List.take_length] at hs
  have hf := Scan.Related.listings Draft.simulation_withMessages hs
  symm
  rw [← List.forall₂_eq_eq_eq, List.forall₂_map_left_iff, List.forall₂_map_right_iff]
  refine hf.imp ?_
  rintro l _ ⟨w, rfl⟩
  rfl

/-- No message is left in a silenced document. -/
theorem diagnostics_silenced {k : Listing} (hk : k ∈ doc.silenced.listings) :
    k.diagnostics = [] := by
  have hmem := List.mem_map_of_mem (f := (·.withMessages [])) hk
  rw [map_withMessages_silenced] at hmem
  obtain ⟨l, hl, he⟩ := List.mem_map.mp hmem
  have hstart : l.start = k.start := (congrArg Listing.start he :)
  have hstop : l.stop = k.stop := (congrArg Listing.stop he :)
  have hind : l.indicator = k.indicator := (congrArg Listing.indicator he :)
  have hr : k.readings doc.silenced = l.readings doc := by
    rw [← readings_silenced hl, Listing.readings, Listing.readings, hstart, hstop, hind]
  have hm : k.messageLines doc.silenced = [] := by
    rw [Listing.messageLines, hr, List.filter_eq_nil_iff, ← hind]
    intro n hn hmsg
    obtain ⟨code, text, hb⟩ := isMessage_iff.mp hmsg
    have hb' := boundary?_silenced hl hn
    rw [hb] at hb'
    split at hb'
    · cases hb'
    · rename_i hne
      exact hne (isMessage_iff.mpr ⟨code, text, hb'.symm⟩)
  have ha := announces_messageLines hk
  rw [hm] at ha
  exact List.forall₂_nil_left_iff.mp ha

/-- The listings of the silenced document are those of the document, without their messages. -/
theorem listings_silenced (doc : Document) :
    doc.silenced.listings = doc.listings.map (·.withMessages []) := by
  rw [← map_withMessages_silenced, List.map_congr_left (g := id), List.map_id]
  intro k hk
  rw [← diagnostics_silenced hk]
  rfl

end Document

/-- Every line that a listing reads as a message, and no other, becomes one diagnostic: in the order
of the lines, over the whole line and with the severity that the code tells. Empty lines in place of
the messages leave all else as it is in every listing. -/
theorem messages_complete_inert (doc : Document) :
    (∀ l ∈ doc.listings,
      l.diagnostics.Pairwise (fun a b => a.span.start.line < b.span.start.line) ∧
      List.Forall₂ (doc.Announces l.indicator) (l.messageLines doc) l.diagnostics) ∧
    doc.silenced.listings = doc.listings.map fun l => { l with diagnostics := [] } := by
  refine ⟨?_, doc.listings_silenced⟩
  intro l hl
  exact ⟨Document.diagnostics_ascending hl, Document.announces_messageLines hl⟩

end ListingIndex
