import Mathlib
import ListingIndex.Proofs.Step

/-! The lines of a document that are read as part of a listing, told without the scan, and the scan
told by them: it finds every opening in turn, and a listing is what its lines make of an empty
draft. -/
namespace ListingIndex
open Line

namespace Document

/-- Whether the line `k` lines below the first line of a listing is read as part of it. All are, but
the one directly below a title of the symbol cross reference that is read itself. -/
def readsBelow (doc : Document) (start : ℕ) (indicator : Bool) : ℕ → Bool
  | 0 => true
  | k + 1 => !(doc.readsBelow start indicator k && hidesNext indicator (doc.line (start + k)))

/-- The lines in front of `stop` that a listing reads. -/
def readings (doc : Document) (start : ℕ) (indicator : Bool) (stop : ℕ) : List ℕ :=
  (List.range' start (stop - start)).filter fun n => doc.readsBelow start indicator (n - start)

/-- The listing in front of line `stop`, as its lines make it. -/
def draft (doc : Document) (start : ℕ) (indicator : Bool) (stop : ℕ) : Draft :=
  (doc.readings start indicator stop).foldl (fun d n => d.addLine n (doc.line n))
    (.startingAt start indicator)

section
variable {doc : Document} {start : ℕ} {indicator : Bool} {n : ℕ}

theorem mem_readings {m : ℕ} : m ∈ doc.readings start indicator n ↔
    start ≤ m ∧ m < n ∧ doc.readsBelow start indicator (m - start) = true := by
  rw [readings, List.mem_filter, List.mem_range'_1]
  constructor
  · rintro ⟨⟨h₁, h₂⟩, h₃⟩
    exact ⟨h₁, by omega, h₃⟩
  · rintro ⟨h₁, h₂, h₃⟩
    exact ⟨⟨h₁, by omega⟩, h₃⟩

theorem readings_ascending (doc : Document) (start : ℕ) (indicator : Bool) (stop : ℕ) :
    (doc.readings start indicator stop).Pairwise (· < ·) :=
  (List.pairwise_lt_range' ..).filter _

/-- The lines in front of one that is read come first, then that line. -/
theorem readings_split {stop : ℕ} (h : n ∈ doc.readings start indicator stop) :
    ∃ rest, doc.readings start indicator stop = doc.readings start indicator n ++ n :: rest := by
  obtain ⟨h₁, h₂, h₃⟩ := mem_readings.mp h
  obtain ⟨k, rfl⟩ := Nat.exists_eq_add_of_lt h₂
  have hk : n + k + 1 - start = (n - start) + (k + 1) := by omega
  have hs : start + (n - start) = n := by omega
  have hr : List.range' start (n + k + 1 - start) =
      List.range' start (n - start) ++ n :: List.range' (n + 1) k := by
    rw [hk, ← List.range'_append_1, hs, List.range'_succ]
  refine ⟨(List.range' (n + 1) k).filter fun m => doc.readsBelow start indicator (m - start), ?_⟩
  simp [readings, hr, List.filter_append, h₃]

theorem readsBelow_succ (h : start ≤ n) : doc.readsBelow start indicator (n + 1 - start) =
    !(doc.readsBelow start indicator (n - start) && hidesNext indicator (doc.line n)) := by
  have hk : n + 1 - start = (n - start) + 1 := by omega
  have hn : start + (n - start) = n := by omega
  rw [hk, readsBelow, hn]

theorem readings_start : doc.readings start indicator start = [] := by
  simp [readings]

theorem readings_succ (h : start ≤ n) : doc.readings start indicator (n + 1) =
    doc.readings start indicator n ++
      if doc.readsBelow start indicator (n - start) then [n] else [] := by
  have hk : n + 1 - start = (n - start) + 1 := by omega
  have hn : start + (n - start) = n := by omega
  rw [readings, hk, List.range'_1_concat, List.filter_append, hn]
  by_cases hr : doc.readsBelow start indicator (n - start) <;> simp [readings, hr]

theorem draft_start : doc.draft start indicator start = .startingAt start indicator := by
  simp [draft, readings_start]

theorem draft_succ_of_reads (h : start ≤ n)
    (hr : doc.readsBelow start indicator (n - start) = true) :
    doc.draft start indicator (n + 1) =
      (doc.draft start indicator n).addLine n (doc.line n) := by
  simp [draft, readings_succ h, hr]

theorem draft_succ_of_hidden (h : start ≤ n)
    (hr : doc.readsBelow start indicator (n - start) = false) :
    doc.draft start indicator (n + 1) = doc.draft start indicator n := by
  simp [draft, readings_succ h, hr]

end

theorem origin_draft (doc : Document) (start : ℕ) (indicator : Bool) (n : ℕ) :
    (doc.draft start indicator n).origin = (start, indicator) := by
  unfold draft
  induction doc.readings start indicator n using List.reverseRecOn with
  | nil => rfl
  | append_singleton ns m ih =>
    rw [List.foldl_concat, Draft.origin_addLine]
    exact ih

theorem indicator_draft (doc : Document) (start : ℕ) (indicator : Bool) (n : ℕ) :
    (doc.draft start indicator n).listing.indicator = indicator :=
  congrArg Prod.snd (origin_draft doc start indicator n)

end Document

/-- The lines of a listing that are read. -/
def Listing.readings (l : Listing) (doc : Document) : List ℕ :=
  doc.readings l.start l.indicator l.stop

/-- The last line is a return code, the first one that is read. -/
def Listing.EndsAtReturnCode (l : Listing) (doc : Document) : Prop :=
  l.stop - 1 ∈ l.readings doc ∧ boundary? l.indicator (doc.line (l.stop - 1)) = some .returnCode ∧
    ∀ n ∈ l.readings doc, n < l.stop - 1 → boundary? l.indicator (doc.line n) ≠ some .returnCode

instance (l : Listing) (doc : Document) : Decidable (l.EndsAtReturnCode doc) :=
  inferInstanceAs (Decidable (l.stop - 1 ∈ l.readings doc ∧
    boundary? l.indicator (doc.line (l.stop - 1)) = some .returnCode ∧
    ∀ n ∈ l.readings doc, n < l.stop - 1 → boundary? l.indicator (doc.line n) ≠ some .returnCode))

/-- No return code is read up to the end of the document. -/
def Listing.EndsWithDocument (l : Listing) (doc : Document) : Prop :=
  l.stop = doc.lineCount ∧
    ∀ n ∈ l.readings doc, boundary? l.indicator (doc.line n) ≠ some .returnCode

/-- A listing is all that its lines say. -/
structure Document.Indexes (doc : Document) (l : Listing) : Prop where
  start_lt : l.start < l.stop
  stop_le : l.stop ≤ doc.lineCount
  opening : opening? (doc.line l.start) = some l.indicator
  finished : l = (doc.draft l.start l.indicator l.stop).finish l.stop
  ending : l.EndsAtReturnCode doc ∨ l.EndsWithDocument doc

/-- The listings found in front of line `n` leave out no opening. -/
structure Document.Settled (doc : Document) (found : List Listing) (n : ℕ) : Prop where
  indexed : ∀ l ∈ found, doc.Indexes l
  ordered : found.Pairwise fun a b => a.stop ≤ b.start
  bounded : ∀ l ∈ found, l.stop ≤ n
  covered : ∀ m < n, (∀ l ∈ found, ¬ l.containsLine m) → opening? (doc.line m) = none

/-- A listing that is open in front of line `n`. -/
structure Document.Opens (doc : Document) (start : ℕ) (indicator : Bool) (n : ℕ) (d : Draft) :
    Prop where
  start_le : start ≤ n
  opening : opening? (doc.line start) = some indicator
  draft : d = doc.draft start indicator n
  running : ∀ m ∈ doc.readings start indicator n, ¬ endsListing indicator (doc.line m)

namespace Document.Settled
variable {doc : Document} {found : List Listing} {n : ℕ}

theorem initial : doc.Settled [] 0 :=
  ⟨by simp, .nil, by simp, fun m hm => absurd hm (Nat.not_lt_zero m)⟩

theorem pass (h : doc.Settled found n) (hn : opening? (doc.line n) = none) :
    doc.Settled found (n + 1) := by
  refine ⟨h.indexed, h.ordered, fun l hl => (h.bounded l hl).trans (by omega), ?_⟩
  intro m hm ho
  rcases Nat.lt_succ_iff_lt_or_eq.mp hm with hm | rfl
  · exact h.covered m hm ho
  · exact hn

theorem snoc {l : Listing} (h : doc.Settled found l.start) (hl : doc.Indexes l) :
    doc.Settled (found ++ [l]) l.stop := by
  have hlt := hl.start_lt
  refine ⟨?_, ?_, ?_, ?_⟩
  · intro k hk
    rcases List.mem_append.mp hk with hk | hk
    · exact h.indexed k hk
    · exact List.mem_singleton.mp hk ▸ hl
  · refine List.pairwise_append.mpr ⟨h.ordered, List.pairwise_singleton _ _, ?_⟩
    intro a ha b hb
    exact List.mem_singleton.mp hb ▸ h.bounded a ha
  · intro k hk
    rcases List.mem_append.mp hk with hk | hk
    · exact (h.bounded k hk).trans hlt.le
    · exact (congrArg Listing.stop (List.mem_singleton.mp hk)).le
  · intro m hm ho
    have hs : ¬ l.containsLine m := ho l (by simp)
    simp only [Listing.containsLine, Bool.and_eq_true, decide_eq_true_eq, not_and] at hs
    have hm' : m < l.start := by
      by_contra hge
      exact hs (by omega) hm
    exact h.covered m hm' fun k hk => ho k (by simp [hk])

end Document.Settled

namespace Document.Opens
variable {doc : Document} {start : ℕ} {indicator : Bool} {n : ℕ} {d : Draft}

theorem start_self (h : opening? (doc.line n) = some indicator) :
    doc.Opens n indicator n (.startingAt n indicator) :=
  ⟨le_rfl, h, draft_start.symm, by simp [readings_start]⟩

theorem indicator_eq (h : doc.Opens start indicator n d) : d.listing.indicator = indicator := by
  rw [h.draft, indicator_draft]

/-- A line that is read and does not end the listing goes into the draft. -/
theorem read (h : doc.Opens start indicator n d)
    (hr : doc.readsBelow start indicator (n - start) = true)
    (he : ¬ endsListing indicator (doc.line n)) :
    doc.Opens start indicator (n + 1) (d.addLine n (doc.line n)) := by
  refine ⟨h.start_le.trans (by omega), h.opening, ?_, ?_⟩
  · rw [draft_succ_of_reads h.start_le hr, ← h.draft]
  · intro m hm
    rw [readings_succ h.start_le, if_pos hr] at hm
    rcases List.mem_append.mp hm with hm | hm
    · exact h.running m hm
    · exact List.mem_singleton.mp hm ▸ he

theorem hide (h : doc.Opens start indicator n d)
    (hr : doc.readsBelow start indicator (n - start) = false) :
    doc.Opens start indicator (n + 1) d := by
  refine ⟨h.start_le.trans (by omega), h.opening, ?_, ?_⟩
  · rw [draft_succ_of_hidden h.start_le hr, ← h.draft]
  · intro m hm
    rw [readings_succ h.start_le] at hm
    exact h.running m (by simpa [hr] using hm)

theorem origin_eq (h : doc.Opens start indicator n d) : d.origin = (start, indicator) := by
  rw [h.draft, origin_draft]

/-- A line that is read and ends the listing. -/
theorem close (h : doc.Opens start indicator n d) (hn : n < doc.lineCount)
    (hr : doc.readsBelow start indicator (n - start) = true)
    (he : endsListing indicator (doc.line n)) :
    doc.Indexes ((d.addLine n (doc.line n)).finish (n + 1)) := by
  have ho := (Draft.origin_addLine d n (doc.line n)).trans h.origin_eq
  have hs := (Draft.start_finish _ (n + 1)).trans (congrArg Prod.fst ho)
  have hi := (Draft.indicator_finish _ (n + 1)).trans (congrArg Prod.snd ho)
  have hle := h.start_le
  refine ⟨?_, ?_, ?_, ?_, Or.inl ⟨?_, ?_, ?_⟩⟩
  · rw [hs, Draft.stop_finish]
    omega
  · rw [Draft.stop_finish]
    omega
  · rw [hs, hi]
    exact h.opening
  · rw [hs, hi, Draft.stop_finish, draft_succ_of_reads hle hr, ← h.draft]
  · rw [Listing.readings, hs, hi]
    exact mem_readings.mpr ⟨hle, Nat.lt_succ_self n, hr⟩
  · rw [hi, Draft.stop_finish]
    simpa [endsListing] using he
  · intro m hm hlt
    rw [Listing.readings, hs, hi] at hm
    rw [hi]
    rw [Draft.stop_finish] at hlt
    obtain ⟨h₁, _, h₃⟩ := mem_readings.mp hm
    simpa [endsListing] using h.running m (mem_readings.mpr ⟨h₁, hlt, h₃⟩)

/-- The end of the document ends an open listing. -/
theorem finish {found : List Listing} (h : doc.Opens start indicator doc.lineCount d)
    (hlt : start < doc.lineCount) (hf : doc.Settled found start) :
    doc.Settled (found ++ [d.finish doc.lineCount]) doc.lineCount := by
  have hs := (Draft.start_finish d doc.lineCount).trans (congrArg Prod.fst h.origin_eq)
  have hi := (Draft.indicator_finish d doc.lineCount).trans (congrArg Prod.snd h.origin_eq)
  refine Settled.snoc (hs.symm ▸ hf) ⟨?_, le_rfl, ?_, ?_, Or.inr ⟨rfl, ?_⟩⟩
  · rw [hs]
    exact hlt
  · rw [hs, hi]
    exact h.opening
  · rw [hs, hi, Draft.stop_finish, ← h.draft]
  · intro m hm
    rw [Listing.readings, hs, hi] at hm
    rw [hi]
    simpa [endsListing] using h.running m hm

end Document.Opens

namespace Scan
variable {doc : Document} {s : Scan}

/-- What is true of a scan in front of each line. -/
def Follows (doc : Document) (s : Scan) : Prop :=
  match s.mode with
  | .idle => doc.Settled s.found s.next
  | .reading d => ∃ start indicator, start < s.next ∧ doc.Settled s.found start ∧
      doc.Opens start indicator s.next d ∧ doc.readsBelow start indicator (s.next - start) = true
  | .skipping d => ∃ start indicator, start < s.next ∧ doc.Settled s.found start ∧
      doc.Opens start indicator s.next d ∧ doc.readsBelow start indicator (s.next - start) = false

theorem follows_read {start : ℕ} {indicator : Bool} {d : Draft}
    (hs : doc.Settled s.found start) (ho : doc.Opens start indicator s.next d)
    (hr : doc.readsBelow start indicator (s.next - start) = true) (hn : s.next < doc.lineCount) :
    (s.read d (doc.line s.next)).Follows doc := by
  have hle := ho.start_le
  have hnext : doc.readsBelow start indicator (s.next + 1 - start) = _ :=
    Document.readsBelow_succ hle
  rw [read_eq, ho.indicator_eq]
  by_cases he : endsListing indicator (doc.line s.next)
  · rw [if_pos he]
    have hl := ho.close hn hr he
    have hstart : ((d.addLine s.next (doc.line s.next)).finish (s.next + 1)).start = start := by
      rw [Draft.start_finish, Draft.start_addLine]
      exact congrArg Prod.fst ho.origin_eq
    exact Document.Settled.snoc (hstart.symm ▸ hs) hl
  · rw [if_neg he]
    by_cases hh : hidesNext indicator (doc.line s.next)
    · rw [if_pos hh]
      exact ⟨start, indicator, Nat.lt_succ_of_le hle, hs, ho.read hr he,
        by simpa [hr, hh] using hnext⟩
    · rw [if_neg hh]
      exact ⟨start, indicator, Nat.lt_succ_of_le hle, hs, ho.read hr he,
        by simpa [hr, hh] using hnext⟩

theorem follows_step (h : s.Follows doc) (hn : s.next < doc.lineCount) :
    (s.step (doc.line s.next)).Follows doc := by
  cases hm : s.mode with
  | idle =>
    have hs : doc.Settled s.found s.next := by simpa only [Follows, hm] using h
    cases ho : opening? (doc.line s.next) with
    | none =>
      have hr : s.reader? (doc.line s.next) = none := by simp [reader?, hm, ho]
      simp only [step, hr, Follows, pass, hm]
      exact hs.pass ho
    | some indicator =>
      have hr : s.reader? (doc.line s.next) = some (.startingAt s.next indicator) := by
        simp [reader?, hm, ho]
      simp only [step, hr]
      exact follows_read hs (.start_self ho) (by simp [Document.readsBelow]) hn
  | reading d =>
    simp only [Follows, hm] at h
    obtain ⟨start, indicator, _, hs, ho, hr⟩ := h
    simp only [step, reader?, hm]
    exact follows_read hs ho hr hn
  | skipping d =>
    simp only [Follows, hm] at h
    obtain ⟨start, indicator, hlt, hs, ho, hr⟩ := h
    have hnext : doc.readsBelow start indicator (s.next + 1 - start) = _ :=
      Document.readsBelow_succ ho.start_le
    simp only [step, reader?, hm, Follows, pass]
    exact ⟨start, indicator, by omega, hs, ho.hide hr, by simpa [hr] using hnext⟩

theorem next_take (doc : Document) {n : ℕ} (hn : n ≤ doc.lineCount) :
    (initial.run (doc.lines.take n)).next = n := by
  have hle : n ≤ doc.lines.length := hn
  rw [next_run, List.length_take, Nat.min_eq_left hle]
  exact Nat.zero_add n

theorem follows_run (doc : Document) {n : ℕ} (hn : n ≤ doc.lineCount) :
    (initial.run (doc.lines.take n)).Follows doc := by
  induction n with
  | zero => exact Document.Settled.initial
  | succ n ih =>
    have hlt : n < doc.lines.length := hn
    have hnext := next_take doc hlt.le
    have hline : doc.line n = doc.lines[n] := by simp [Document.line, hlt]
    have hrun : initial.run (doc.lines.take (n + 1)) =
        (initial.run (doc.lines.take n)).step (doc.line n) := by
      rw [List.take_succ_eq_append_getElem hlt, run_append, hline]
      rfl
    have hs := follows_step (ih hlt.le) (by rw [hnext]; exact hn)
    rw [hnext] at hs
    exact hrun ▸ hs

def openStart? (s : Scan) : Option ℕ :=
  match s.mode with
  | .idle => none
  | .reading d | .skipping d => some d.listing.start

/-- A listing that is found already, is open, or starts below. The lines to come find no other. -/
def Foresees (s : Scan) (l : Listing) : Prop :=
  l ∈ s.found ∨ s.openStart? = some l.start ∨ s.next ≤ l.start

theorem foresees_of_read {d : Draft} {line : Text} {l : Listing}
    (h : (s.read d line).Foresees l) :
    l ∈ s.found ∨ l.start = d.listing.start ∨ s.next ≤ l.start := by
  have ha := Draft.start_addLine d s.next line
  rw [read_eq] at h
  split_ifs at h
  · rcases h with h | h | h
    · rcases List.mem_append.mp h with h | h
      · exact Or.inl h
      · rw [List.mem_singleton.mp h, Draft.start_finish]
        exact Or.inr (Or.inl ha)
    · cases h
    · exact Or.inr (Or.inr (by dsimp only at h; omega))
  all_goals
    rcases h with h | h | h
    · exact Or.inl h
    · exact Or.inr (Or.inl ((Option.some.inj h).symm.trans ha))
    · exact Or.inr (Or.inr (by dsimp only at h; omega))

theorem foresees_of_step {line : Text} {l : Listing} (h : (s.step line).Foresees l) :
    s.Foresees l := by
  obtain ⟨n, found, mode⟩ := s
  cases mode with
  | idle =>
    simp only [step, reader?] at h
    cases ho : opening? line with
    | none =>
      rw [ho] at h
      rcases h with h | h | h
      · exact Or.inl h
      · cases h
      · exact Or.inr (Or.inr (Nat.le_of_succ_le h))
    | some indicator =>
      rw [ho] at h
      rcases foresees_of_read h with h | h | h
      · exact Or.inl h
      · exact Or.inr (Or.inr h.symm.le)
      · exact Or.inr (Or.inr h)
  | reading d =>
    rcases foresees_of_read h with h | h | h
    · exact Or.inl h
    · exact Or.inr (Or.inl (congrArg some h.symm))
    · exact Or.inr (Or.inr h)
  | skipping d =>
    rcases h with h | h | h
    · exact Or.inl h
    · exact Or.inr (Or.inl h)
    · exact Or.inr (Or.inr (Nat.le_of_succ_le h))

theorem foresees_of_mem {l : Listing} (h : l ∈ s.listings) : s.Foresees l := by
  unfold listings at h
  unfold Foresees openStart?
  cases hm : s.mode <;> simp only [hm, List.mem_append, List.mem_singleton] at h
  · exact Or.inl h
  all_goals
    rcases h with h | h
    · exact Or.inl h
    · exact Or.inr (Or.inl (by rw [h, Draft.start_finish]))

theorem foresees_of_mem_run {lines : List Text} {l : Listing} (h : l ∈ (s.run lines).listings) :
    s.Foresees l := by
  induction lines generalizing s with
  | nil => exact foresees_of_mem h
  | cons line lines ih => exact foresees_of_step (ih h)

end Scan

/-- The scan misses no opening outside the listings it finds, and each of these is what its lines
make of it. -/
theorem Document.settled_listings (doc : Document) :
    doc.Settled doc.listings doc.lineCount := by
  have hf := Scan.follows_run doc le_rfl
  have hall : doc.lines.take doc.lineCount = doc.lines := List.take_length
  have hnext : (Scan.initial.run doc.lines).next = doc.lineCount := by
    rw [Scan.next_run]
    exact Nat.zero_add _
  rw [hall] at hf
  unfold Document.listings Scan.listings
  cases hm : (Scan.initial.run doc.lines).mode with
  | idle =>
    simp only [Scan.Follows, hm, hnext] at hf
    exact hf
  | reading d =>
    simp only [Scan.Follows, hm, hnext] at hf
    obtain ⟨start, indicator, hlt, hs, ho, _⟩ := hf
    simp only [hnext]
    exact ho.finish hlt hs
  | skipping d =>
    simp only [Scan.Follows, hm, hnext] at hf
    obtain ⟨start, indicator, hlt, hs, ho, _⟩ := hf
    simp only [hnext]
    exact ho.finish hlt hs

theorem Document.foresees_listing {doc : Document} {l : Listing} (hl : l ∈ doc.listings) (n : ℕ) :
    (Scan.initial.run (doc.lines.take n)).Foresees l := by
  apply Scan.foresees_of_mem_run
  rw [← Scan.run_append, List.take_append_drop]
  exact hl

/-- Below its first line a listing is open where it reads, and what is known of it is its draft. -/
theorem Document.mode_of_mem_readings {doc : Document} {l : Listing} {n : ℕ}
    (hl : l ∈ doc.listings) (hn : n ∈ l.readings doc) (hlt : l.start < n) :
    (Scan.initial.run (doc.lines.take n)).mode = .reading (doc.draft l.start l.indicator n) := by
  have hi := doc.settled_listings.indexed l hl
  obtain ⟨_, hstop, hreads⟩ := mem_readings.mp hn
  have hcount : n ≤ doc.lineCount := hstop.le.trans hi.stop_le
  have hnext := Scan.next_take doc hcount
  have hf := Scan.follows_run doc hcount
  have hk := doc.foresees_listing hl n
  -- the listing that is open is this one, for the others end or start too early or too late
  have hopen : ∀ {start indicator d}, start < n →
      doc.Settled (Scan.initial.run (doc.lines.take n)).found start →
      doc.Opens start indicator n d →
      (Scan.initial.run (doc.lines.take n)).openStart? = some d.listing.start →
      start = l.start ∧ indicator = l.indicator := by
    intro start indicator d hlt' hs ho hd
    have hstart : start = l.start := by
      rcases hk with hk | hk | hk
      · have := hs.bounded l hk
        omega
      · have : d.listing.start = start := congrArg Prod.fst ho.origin_eq
        exact this.symm.trans (Option.some.inj (hd.symm.trans hk))
      · omega
    have hind := ho.opening
    rw [hstart, hi.opening] at hind
    exact ⟨hstart, (Option.some.inj hind).symm⟩
  cases hm : (Scan.initial.run (doc.lines.take n)).mode with
  | idle =>
    simp only [Scan.Follows, hm, hnext] at hf
    rcases hk with hk | hk | hk
    · have := hf.bounded l hk
      omega
    · simp [Scan.openStart?, hm] at hk
    · omega
  | reading d =>
    simp only [Scan.Follows, hm, hnext] at hf
    obtain ⟨start, indicator, hlt', hs, ho, _⟩ := hf
    obtain ⟨rfl, rfl⟩ := hopen hlt' hs ho (by simp [Scan.openStart?, hm])
    rw [ho.draft]
  | skipping d =>
    simp only [Scan.Follows, hm, hnext] at hf
    obtain ⟨start, indicator, hlt', hs, ho, hr⟩ := hf
    obtain ⟨rfl, rfl⟩ := hopen hlt' hs ho (by simp [Scan.openStart?, hm])
    exact absurd (hreads.symm.trans hr) (by simp)

/-- A line that two listings share lies in front of the stop of one and past it. -/
theorem Document.Settled.filter_containsLine {doc : Document} {found : List Listing} {m : ℕ}
    (h : doc.Settled found m) (n : ℕ) : (found.filter (·.containsLine n)).length ≤ 1 := by
  have hp := h.ordered.filter (·.containsLine n)
  have hc : ∀ l ∈ found.filter (·.containsLine n), l.start ≤ n ∧ n < l.stop := by
    intro l hl
    simpa [Listing.containsLine] using List.of_mem_filter hl
  cases hf : found.filter (·.containsLine n) with
  | nil => simp
  | cons a rest =>
    cases rest with
    | nil => simp
    | cons b rest =>
      rw [hf] at hp hc
      have hab : a.stop ≤ b.start := List.rel_of_pairwise_cons hp (by simp)
      have ha := hc a (by simp)
      have hb := hc b (by simp)
      omega

theorem Document.eq_of_containsLine {doc : Document} {a b : Listing} {n : ℕ} (ha : a ∈ doc.listings)
    (hb : b ∈ doc.listings) (hna : a.containsLine n) (hnb : b.containsLine n) : a = b := by
  have hf := doc.settled_listings.filter_containsLine n
  have ha' : a ∈ doc.listings.filter (·.containsLine n) := List.mem_filter.mpr ⟨ha, hna⟩
  have hb' : b ∈ doc.listings.filter (·.containsLine n) := List.mem_filter.mpr ⟨hb, hnb⟩
  generalize doc.listings.filter (·.containsLine n) = found at hf ha' hb'
  cases found with
  | nil => cases ha'
  | cons c rest =>
    obtain rfl : rest = [] := List.length_eq_zero_iff.mp (by simpa using hf)
    rw [List.mem_singleton.mp ha', List.mem_singleton.mp hb']

theorem Document.eq_of_start_eq {doc : Document} {a b : Listing} (ha : a ∈ doc.listings)
    (hb : b ∈ doc.listings) (h : a.start = b.start) : a = b := by
  have hs := doc.settled_listings
  have hp : doc.listings.Pairwise fun a b => a.start < b.start := by
    refine hs.ordered.imp_of_mem ?_
    intro a b ha _ hab
    exact (hs.indexed a ha).start_lt.trans_le hab
  have hn : (doc.listings.map (·.start)).Nodup := (List.pairwise_map.mpr hp).imp Nat.ne_of_lt
  exact List.inj_on_of_nodup_map hn ha hb h

/-- The listings of a document, in order, take disjoint ranges of its lines. Each starts with its
opening and runs to the first return code that it reads, or else to the end of the document, and
there is no opening outside of them. -/
theorem listings_partition (doc : Document) :
    (∀ l ∈ doc.listings, l.start < l.stop ∧ l.stop ≤ doc.lineCount ∧
      opening? (doc.line l.start) = some l.indicator) ∧
    doc.listings.Pairwise (fun a b => a.stop ≤ b.start) ∧
    (∀ n < doc.lineCount, (∀ l ∈ doc.listings, ¬ l.containsLine n) →
      opening? (doc.line n) = none) ∧
    (∀ n, (doc.listings.filter (·.containsLine n)).length ≤ 1) ∧
    ∀ l ∈ doc.listings, l.EndsAtReturnCode doc ∨ l.EndsWithDocument doc := by
  have hs := doc.settled_listings
  refine ⟨?_, hs.ordered, hs.covered, hs.filter_containsLine, fun l hl => (hs.indexed l hl).ending⟩
  intro l hl
  exact ⟨(hs.indexed l hl).start_lt, (hs.indexed l hl).stop_le, (hs.indexed l hl).opening⟩

end ListingIndex
