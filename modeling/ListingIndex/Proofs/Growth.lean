import Mathlib
import ListingIndex.Proofs.Concatenation
import ListingIndex.Proofs.Gains
import ListingIndex.Proofs.Ranges

/-! Documents that grow at their end. Blocks and reports end in front of the line at which a listing is
looked at, so that they get longer as it goes on, while all else is added for good. A listing that is
still open where a document ends is thus found again, with all it had, once more lines follow. -/
namespace ListingIndex
open Line

structure LineRange.Grows (r s : LineRange) : Prop where
  start : s.start = r.start
  stop_le : r.stop ≤ s.stop

theorem LineRange.Grows.refl (r : LineRange) : r.Grows r := ⟨rfl, le_rfl⟩

theorem LineRange.Grows.trans {r s t : LineRange} (h : r.Grows s) (h' : s.Grows t) : r.Grows t :=
  ⟨h'.start.trans h.start, h.stop_le.trans h'.stop_le⟩

/-- The same block, with a later end, and with the statement on its first line if that was missing. -/
structure CodeBlock.Grows (b c : CodeBlock) : Prop where
  frame : c = { b with stop := c.stop, firstStatement := c.firstStatement }
  stop_le : b.stop ≤ c.stop
  first : b.firstStatement = none ∨ c.firstStatement = b.firstStatement

theorem CodeBlock.Grows.refl (b : CodeBlock) : b.Grows b := ⟨rfl, le_rfl, .inr rfl⟩

theorem CodeBlock.Grows.trans {a b c : CodeBlock} (h : a.Grows b) (h' : b.Grows c) : a.Grows c := by
  refine ⟨?_, h.stop_le.trans h'.stop_le, ?_⟩
  · rw [h'.frame, h.frame]
  · rcases h.first with ha | ha
    · exact .inl ha
    · rw [← ha]
      exact h'.first

/-- Every block is found again at its index. The last one may have grown. -/
def BlocksGrow (bs cs : List CodeBlock) : Prop :=
  ∀ (i : ℕ) (b : CodeBlock), bs[i]? = some b →
    ∃ c, cs[i]? = some c ∧ b.Grows c ∧ (i + 1 < bs.length → c = b)

theorem BlocksGrow.append (bs cs : List CodeBlock) : BlocksGrow bs (bs ++ cs) := by
  intro i b hb
  obtain ⟨hi, -⟩ := List.getElem?_eq_some_iff.mp hb
  exact ⟨b, by rw [List.getElem?_append_left hi, hb], .refl b, fun _ => rfl⟩

theorem BlocksGrow.refl (bs : List CodeBlock) : BlocksGrow bs bs := by
  simpa using BlocksGrow.append bs []

theorem BlocksGrow.last (bs : List CodeBlock) {b c : CodeBlock} (h : b.Grows c) :
    BlocksGrow (bs ++ [b]) (bs ++ [c]) := by
  intro i x hx
  rcases Nat.lt_or_ge i bs.length with hi | hi
  · rw [List.getElem?_append_left hi] at hx ⊢
    exact ⟨x, hx, .refl x, fun _ => rfl⟩
  · have hlen : i = bs.length := by
      obtain ⟨hlt, -⟩ := List.getElem?_eq_some_iff.mp hx
      rw [List.length_append, List.length_singleton] at hlt
      omega
    subst hlen
    rw [List.getElem?_concat_length] at hx ⊢
    obtain rfl := Option.some.inj hx
    refine ⟨c, rfl, h, ?_⟩
    intro hlt
    rw [List.length_append, List.length_singleton] at hlt
    omega

theorem BlocksGrow.trans {bs cs ds : List CodeBlock} (h : BlocksGrow bs cs) (h' : BlocksGrow cs ds) :
    BlocksGrow bs ds := by
  intro i b hb
  obtain ⟨c, hc, hbc, hlast⟩ := h i b hb
  obtain ⟨d, hd, hcd, hlast'⟩ := h' i c hc
  refine ⟨d, hd, hbc.trans hcd, ?_⟩
  intro hi
  -- a block with another one behind it has one behind it from there on
  obtain ⟨c', hc', -⟩ := h (i + 1) _ (List.getElem?_eq_getElem hi)
  obtain ⟨hlt, -⟩ := List.getElem?_eq_some_iff.mp hc'
  exact (hlast' hlt).trans (hlast hi)

namespace Draft

/-- The open block, ended in front of line `n`. -/
def openBlocks (d : Draft) (n : ℕ) : List CodeBlock :=
  match d.opened with
  | some (.block b) => [{ b with stop := n }]
  | _ => []

theorem blocks_close (d : Draft) (n : ℕ) :
    (d.close n).listing.blocks = d.listing.blocks ++ d.openBlocks n := by
  cases ho : d.opened with
  | none => simp [close, openBlocks, ho]
  | some o => cases o <;> simp [close, openBlocks, ho]

theorem find?_reportsAt (d : Draft) (n : ℕ) (r : Report) : (d.reportsAt n).find? r =
    (d.listing.reports.find? r).map fun range =>
      if d.opened = some (.report r) then { range with stop := n } else range := by
  cases ho : d.opened with
  | none => simp [reportsAt, close, ho]
  | some o =>
    cases o with
    | block b => simp [reportsAt, close, ho]
    | report q =>
      simp only [reportsAt, close, ho, Dictionary.find?_modify, Option.some.injEq,
        Opened.report.injEq]
      by_cases hq : r = q
      · simp [hq]
      · simp [hq, Ne.symm hq]

/-- Nothing has ended below line `n`, and a block whose first line is yet to come has no statement
there. -/
structure Steady (d : Draft) (n : ℕ) : Prop where
  ended : ∀ m, n ≤ m → ∀ r range, (d.reportsAt m).find? r = some range → range.stop ≤ m
  unstarted : ∀ b, d.opened = some (.block b) → n ≤ b.codeStart → b.firstStatement = none

theorem steady_startingAt (start : ℕ) (indicator : Bool) :
    (startingAt start indicator).Steady start := by
  refine ⟨?_, ?_⟩
  · intro m _ r range hr
    cases hr
  · intro b hb
    cases hb

/-- Blocks and reports of a draft in front of line `m` are found again in another one in front of line
`n`, no shorter. -/
structure Widens (d : Draft) (m : ℕ) (e : Draft) (n : ℕ) : Prop where
  le : m ≤ n
  reports : Carries LineRange.Grows (d.reportsAt m).find? (e.reportsAt n).find?
  blocks : BlocksGrow (d.close m).listing.blocks (e.close n).listing.blocks

theorem Widens.trans {d e f : Draft} {m n k : ℕ} (h : d.Widens m e n) (h' : e.Widens n f k) :
    d.Widens m f k :=
  ⟨h.le.trans h'.le, h.reports.trans LineRange.Grows.trans h'.reports, h.blocks.trans h'.blocks⟩

/-- A draft that is looked at further down. -/
theorem widens_self (d : Draft) {m n : ℕ} (hmn : m ≤ n) : d.Widens m d n := by
  refine ⟨hmn, ?_, ?_⟩
  · intro r range hr
    rw [find?_reportsAt] at hr ⊢
    obtain ⟨x, hx, rfl⟩ := Option.map_eq_some_iff.mp hr
    rw [hx, Option.map_some]
    refine ⟨_, rfl, ?_⟩
    split
    · exact ⟨rfl, hmn⟩
    · exact .refl x
  · rw [blocks_close, blocks_close]
    unfold openBlocks
    split
    · exact .last _ ⟨rfl, hmn, .inr rfl⟩
    · exact .refl _

/-- A record leaves open what is open. It may tell the first statement of a block on its line. -/
theorem opened_addRecord (d : Draft) (n : ℕ) (line : Text) :
    (d.addRecord n line).opened = d.opened ∨
      ∃ statement, (d.addRecord n line).opened = d.opened.map (Opened.startWith n statement) := by
  apply addRecord_cases (motive := fun e => e.opened = d.opened ∨
    ∃ statement, e.opened = d.opened.map (Opened.startWith n statement)) d n line (.inl rfl)
  · intro l _ _
    obtain ⟨names, sections, name, he⟩ := addExternal_shape d l
    exact .inl (by rw [he])
  · intro layout l _ _ _
    exact .inr ⟨l.statement, rfl⟩
  · intro l _ _
    obtain ⟨symbols, pending, he⟩ := addCrossReference_shape d l
    exact .inl (by rw [he])
  · intro l _ _
    obtain ⟨symbols, name, he⟩ := addDsect_shape d l
    exact .inl (by rw [he])
  · intro l _ _
    obtain ⟨statements, he⟩ := addUsing_shape d l
    exact .inl (by rw [he])

section
variable {d : Draft} {n : ℕ} (h : d.Steady n)
include h

theorem Steady.skip : d.Steady (n + 1) :=
  ⟨fun m hm => h.ended m (by omega), fun b hb hc => h.unstarted b hb (by omega)⟩

theorem Steady.addRecord (line : Text) : (d.addRecord n line).Steady (n + 1) := by
  have hx := extents_congr (d.recordFrame n line).extents
  refine ⟨?_, ?_⟩
  · intro m hm r range hr
    rw [(hx m).2.2] at hr
    exact h.skip.ended m hm r range hr
  · intro b hb hc
    rcases d.opened_addRecord n line with ho | ⟨statement, ho⟩
    · exact h.skip.unstarted b (ho ▸ hb) hc
    · rw [ho] at hb
      obtain ⟨o, hd, hs⟩ := Option.map_eq_some_iff.mp hb
      cases o with
      | report r => cases hs
      | block c =>
        simp only [Opened.startWith, Opened.block.injEq] at hs
        by_cases hcn : c.codeStart = n
        · -- the first line of the block is this one, and the next line is past it
          rw [if_pos hcn] at hs
          rw [← hs] at hc
          dsimp only at hc
          omega
        · rw [if_neg hcn] at hs
          exact h.skip.unstarted b (hs ▸ hd) hc

theorem Steady.addBoundary (width : ℕ) (b : Boundary) :
    (d.addBoundary n width b).Steady (n + 1) := by
  have hn := h.ended n le_rfl
  refine ⟨?_, ?_⟩
  · intro m hm r range hr
    cases b with
    | message code text =>
      rw [(extents_message d n width m code text).2.2] at hr
      exact h.skip.ended m hm r range hr
    | returnCode =>
      rw [(extents_returnCode d n width m).2.2, Dictionary.find?_modify] at hr
      split at hr
      · obtain ⟨x, -, rfl⟩ := Option.map_eq_some_iff.mp hr
        exact hm
      · exact (hn r range hr).trans (by omega)
    | columns layout c =>
      rw [(extents_columns d n width m layout c).2.2] at hr
      exact (hn r range hr).trans (by omega)
    | report q =>
      rw [(extents_report d n width m q).2.2, Dictionary.find?_modify] at hr
      split at hr
      · obtain ⟨x, -, rfl⟩ := Option.map_eq_some_iff.mp hr
        exact le_rfl
      · rename_i hq
        rw [Dictionary.find?_insertIfNew, if_neg hq] at hr
        exact (hn r range hr).trans (by omega)
    | page title =>
      rw [(extents_page d n width m title).2.2] at hr
      exact (hn r range hr).trans (by omega)
  · intro c hc hle
    rw [(d.boundaryEffect n width b).opened] at hc
    cases b with
    | message code text => exact h.skip.unstarted c hc hle
    | columns layout sectionClass =>
      obtain rfl := Opened.block.inj (Option.some.inj hc)
      rfl
    | report r => cases hc
    | returnCode => cases hc
    | page title => cases hc

theorem Steady.addLine (line : Text) : (d.addLine n line).Steady (n + 1) := by
  unfold Draft.addLine
  split
  · exact h.addBoundary _ _
  · exact h.addRecord line

theorem Steady.widens_addRecord (line : Text) : d.Widens n (d.addRecord n line) (n + 1) := by
  have hf := (d.recordFrame n line).extents
  have hw := d.widens_self n.le_succ
  have hblocks : (d.addRecord n line).listing.blocks = d.listing.blocks := congrArg (·.2.1) hf
  refine ⟨n.le_succ, ?_, ?_⟩
  · rw [(extents_congr hf (n + 1)).2.2]
    exact hw.reports
  · rw [blocks_close, blocks_close, hblocks]
    rcases d.opened_addRecord n line with ho | ⟨statement, ho⟩
    · have he : (d.addRecord n line).openBlocks (n + 1) = d.openBlocks (n + 1) := by
        rw [openBlocks, ho, openBlocks]
      rw [he, ← blocks_close, ← blocks_close]
      exact hw.blocks
    · cases hd : d.opened with
      | none =>
        rw [openBlocks, openBlocks, ho, hd]
        exact .refl _
      | some o =>
        cases o with
        | report r =>
          rw [openBlocks, openBlocks, ho, hd]
          exact .refl _
        | block b =>
          rw [openBlocks, openBlocks, ho, hd]
          apply BlocksGrow.last
          by_cases hb : b.codeStart = n
          · rw [if_pos hb]
            exact ⟨rfl, n.le_succ, .inl (h.unstarted b hd hb.ge)⟩
          · rw [if_neg hb]
            exact ⟨rfl, n.le_succ, .inr rfl⟩

theorem Steady.widens_addBoundary (width : ℕ) (b : Boundary) :
    d.Widens n (d.addBoundary n width b) (n + 1) := by
  have hn := h.ended n le_rfl
  refine ⟨n.le_succ, ?_, ?_⟩
  · intro r range hr
    have hle := hn r range hr
    cases b with
    | message code text =>
      rw [(extents_message d n width (n + 1) code text).2.2]
      exact (d.widens_self n.le_succ).reports r range hr
    | returnCode =>
      rw [(extents_returnCode d n width (n + 1)).2.2, Dictionary.find?_modify]
      split
      · rename_i hq
        rw [← hq, hr]
        exact ⟨_, rfl, rfl, hle.trans n.le_succ⟩
      · exact ⟨range, hr, .refl range⟩
    | columns layout c =>
      rw [(extents_columns d n width (n + 1) layout c).2.2]
      exact ⟨range, hr, .refl range⟩
    | report q =>
      rw [(extents_report d n width (n + 1) q).2.2, Dictionary.find?_modify]
      split
      · rename_i hq
        rw [Dictionary.find?_insertIfNew, if_pos rfl, ← hq, hr]
        exact ⟨_, rfl, rfl, hle.trans n.le_succ⟩
      · rename_i hq
        rw [Dictionary.find?_insertIfNew, if_neg hq]
        exact ⟨range, hr, .refl range⟩
    | page title =>
      rw [(extents_page d n width (n + 1) title).2.2]
      exact ⟨range, hr, .refl range⟩
  · rcases (d.boundaryEffect n width b).blocks with ⟨code, text, rfl⟩ | hb
    · have hw := (d.widens_self n.le_succ).blocks
      rw [blocks_close d (n + 1)] at hw
      rw [blocks_close (d.addBoundary n width _)]
      exact hw
    · rw [blocks_close (d.addBoundary n width b), hb]
      exact .append _ _

theorem Steady.widens_addLine (line : Text) : d.Widens n (d.addLine n line) (n + 1) := by
  unfold Draft.addLine
  split
  · exact h.widens_addBoundary _ _
  · exact h.widens_addRecord line

end

end Draft

namespace Scan

def Steady (s : Scan) : Prop :=
  match s.mode with
  | .idle => True
  | .reading d | .skipping d => d.Steady s.next

/-- Of listings that are found later, the first ones are those found already, and the next one goes on
from the one that is open. -/
def Grown (s : Scan) (later : List Listing) : Prop :=
  match s.mode with
  | .idle => s.found <+: later
  | .reading d | .skipping d => ∃ e n rest, later = s.found ++ e.finish n :: rest ∧
      d.Gains e ∧ d.Widens s.next e n

variable {s : Scan} {d : Draft} {later : List Listing}

theorem steady_read (h : d.Steady s.next) (line : Text) : (s.read d line).Steady := by
  have ha := h.addLine line
  rw [read_eq]
  split
  · trivial
  · split <;> exact ha

theorem Steady.step (h : s.Steady) (line : Text) : (s.step line).Steady := by
  obtain ⟨n, found, mode⟩ := s
  cases mode with
  | idle =>
    simp only [Scan.step, reader?]
    cases opening? line with
    | none => trivial
    | some indicator => exact steady_read (Draft.steady_startingAt n indicator) line
  | reading d => exact steady_read (s := ⟨n, found, .reading d⟩) h line
  | skipping d => exact Draft.Steady.skip h

/-- What grows from a scan that has read a line has grown from the draft in front of that line. -/
theorem grown_of_read (hd : d.Steady s.next) {line : Text} (h : (s.read d line).Grown later) :
    ∃ e n rest, later = s.found ++ e.finish n :: rest ∧ d.Gains e ∧ d.Widens s.next e n := by
  have hg := d.gains_addLine s.next line
  have hw := hd.widens_addLine line
  rw [read_eq] at h
  split at h
  · obtain ⟨rest, rfl⟩ := h
    exact ⟨_, _, rest, by simp, hg, hw⟩
  · split at h
    all_goals
      obtain ⟨e, n, rest, hl, hg', hw'⟩ := h
      exact ⟨e, n, rest, hl, hg.trans hg', hw.trans hw'⟩

theorem grown_of_step (hs : s.Steady) {line : Text} (h : (s.step line).Grown later) :
    s.Grown later := by
  obtain ⟨n, found, mode⟩ := s
  cases mode with
  | idle =>
    simp only [step, reader?] at h
    cases ho : opening? line with
    | none =>
      rw [ho] at h
      exact h
    | some indicator =>
      rw [ho] at h
      obtain ⟨e, m, rest, rfl, -⟩ := grown_of_read (Draft.steady_startingAt n indicator) h
      exact List.prefix_append _ _
  | reading d => exact grown_of_read (s := ⟨n, found, .reading d⟩) hs h
  | skipping d =>
    obtain ⟨e, m, rest, hl, hg, hw⟩ := h
    exact ⟨e, m, rest, hl, hg, (d.widens_self n.le_succ).trans hw⟩

theorem grown_listings (s : Scan) : s.Grown s.listings := by
  obtain ⟨n, found, mode⟩ := s
  cases mode with
  | idle => exact List.prefix_rfl
  | reading d => exact ⟨d, n, [], rfl, .refl d, d.widens_self le_rfl⟩
  | skipping d => exact ⟨d, n, [], rfl, .refl d, d.widens_self le_rfl⟩

theorem grown_run (hs : s.Steady) (lines : List Text) : s.Grown (s.run lines).listings := by
  induction lines generalizing s with
  | nil => exact s.grown_listings
  | cons line lines ih => exact grown_of_step hs (ih (hs.step line))

theorem steady_run (lines : List Text) : (initial.run lines).Steady := by
  induction lines using List.reverseRecOn with
  | nil => trivial
  | append_singleton lines line ih =>
    rw [run_append]
    exact ih.step line

end Scan

/-- Some line of the cross references tells of a name. -/
def Listing.Tells (l : Listing) (doc : Document) (name : Text) : Prop :=
  ∃ c ∈ tableChanges l.indicator none (stays (l.placed doc)), c.symbol.name = name

/-- All of a listing of `doc` is found again in another one. Symbols that only labels brought need not
keep their definitions, because a label yields to the cross references. -/
structure Listing.Grows (doc : Document) (l k : Listing) : Prop where
  start : k.start = l.start
  indicator : k.indicator = l.indicator
  stop_le : l.stop ≤ k.stop
  diagnostics : l.diagnostics <+: k.diagnostics
  controlSections : l.controlSections <+: k.controlSections
  statements : Carries StatementLine.Grows l.statements.find? k.statements.find?
  lastStatement : l.lastStatement ≤ k.lastStatement
  reports : Carries LineRange.Grows l.reports.find? k.reports.find?
  blocks : BlocksGrow l.blocks k.blocks
  symbols : ∀ name s, l.symbols.find? name = some s →
    ∃ t, k.symbols.find? name = some t ∧ (l.Tells doc name → s.Within t)

theorem Listing.Grows.refl (doc : Document) (l : Listing) : Listing.Grows doc l l :=
  ⟨rfl, rfl, le_rfl, List.prefix_rfl, List.prefix_rfl, .refl StatementLine.Grows.refl _, le_rfl,
    .refl LineRange.Grows.refl _, .refl _, fun _ s hs => ⟨s, hs, fun _ => .refl s⟩⟩

/-- The end of a listing changes nothing that its lines have added for good. -/
theorem Draft.finish_kept (d : Draft) (stop : ℕ) :
    (d.finish stop).diagnostics = d.listing.diagnostics ∧
    (d.finish stop).controlSections = d.listing.controlSections ∧
    (d.finish stop).statements = d.listing.statements ∧
    (d.finish stop).lastStatement = d.listing.lastStatement ∧
    (d.finish stop).blocks = (d.close stop).listing.blocks := by
  obtain ⟨symbols, classes, hf⟩ := d.finish_shape stop
  obtain ⟨reports, blocks, hc⟩ := d.close_shape stop
  rw [hf, hc]
  exact ⟨rfl, rfl, rfl, rfl, rfl⟩

section
variable {doc : Document} {start n m : ℕ} {indicator : Bool} {d e : Draft}
  (ho : doc.Opens start indicator n d)
include ho

/-- The symbols of an open listing are those that its cross references tell of. -/
theorem Document.Opens.find?_flush (name : Text) : d.flush.listing.symbols.find? name =
    Symbol.mergeAll? ((d.finish n).tellings doc name) := by
  have hs := (d.start_finish n).trans (congrArg Prod.fst ho.origin_eq)
  have hi := (d.indicator_finish n).trans (congrArg Prod.snd ho.origin_eq)
  rw [Listing.tellings, Listing.placed, Listing.readings, hs, hi, d.stop_finish n, ho.draft,
    doc.flush_symbols_draft, SymbolTable.find?_foldl_apply]

theorem Document.Opens.symbols_grow (hg : d.Gains e) {name : Text} {s : Symbol}
    (hs : (d.finish n).symbols.find? name = some s) : ∃ t, (e.finish m).symbols.find? name = some t ∧
      ((d.finish n).Tells doc name → s.Within t) := by
  rw [Draft.symbols_finish, SymbolTable.find?_foldl_label] at hs ⊢
  cases hf : d.flush.listing.symbols.find? name with
  | some x =>
    rw [hf, Option.some_or] at hs
    obtain rfl := Option.some.inj hs
    obtain ⟨y, hy, hxy⟩ := hg.symbols name x hf
    rw [hy, Option.some_or]
    exact ⟨y, rfl, fun _ => hxy⟩
  | none =>
    rw [hf, Option.none_or] at hs
    obtain ⟨l, hl, -⟩ := Option.map_eq_some_iff.mp hs
    have htold : ¬ (d.finish n).Tells doc name := by
      rw [ho.find?_flush, Symbol.mergeAll?_eq_none_iff] at hf
      exact fun ht => tellings_ne_nil_iff.mpr ht hf
    -- the label is still there, and yields only to a symbol of its name
    rw [hg.labels.find?_eq_some hl, Option.map_some]
    cases e.flush.listing.symbols.find? name with
    | none => exact ⟨_, rfl, fun ht => absurd ht htold⟩
    | some t => exact ⟨t, rfl, fun ht => absurd ht htold⟩

theorem Document.Opens.finish_grows (hg : d.Gains e) (hw : d.Widens n e m) :
    Listing.Grows doc (d.finish n) (e.finish m) := by
  obtain ⟨hd₁, hc₁, hs₁, hl₁, hb₁⟩ := d.finish_kept n
  obtain ⟨hd₂, hc₂, hs₂, hl₂, hb₂⟩ := e.finish_kept m
  refine ⟨?_, ?_, hw.le, ?_, ?_, ?_, ?_, ?_, ?_, fun name s hs => ho.symbols_grow hg hs⟩
  · rw [Draft.start_finish, Draft.start_finish]
    exact congrArg Prod.fst hg.origin
  · rw [Draft.indicator_finish, Draft.indicator_finish]
    exact congrArg Prod.snd hg.origin
  · rw [hd₁, hd₂]
    exact hg.diagnostics
  · rw [hc₁, hc₂]
    exact hg.controlSections
  · rw [hs₁, hs₂]
    exact hg.statements
  · rw [hl₁, hl₂]
    exact hg.lastStatement
  · rw [(d.finish_extents n).2, (e.finish_extents m).2]
    exact hw.reports
  · rw [hb₁, hb₂]
    exact hw.blocks

/-- An open listing stands behind those that were found before it, and so does what becomes of it. -/
theorem Document.Opens.found_again (hg : d.Gains e) (hw : d.Widens n e m)
    (found rest : List Listing) {i : ℕ} {l : Listing} (hl : (found ++ [d.finish n])[i]? = some l) :
    ∃ k, (found ++ e.finish m :: rest)[i]? = some k ∧
      (i + 1 < (found ++ [d.finish n]).length ∨ l.EndsAtReturnCode doc → k = l) ∧
      Listing.Grows doc l k := by
  rcases Nat.lt_or_ge i found.length with hi | hi
  · rw [List.getElem?_append_left hi] at hl ⊢
    exact ⟨l, hl, fun _ => rfl, .refl doc l⟩
  · have hlen : i = found.length := by
      obtain ⟨hlt, -⟩ := List.getElem?_eq_some_iff.mp hl
      rw [List.length_append, List.length_singleton] at hlt
      omega
    subst hlen
    rw [List.getElem?_concat_length] at hl
    obtain rfl := Option.some.inj hl
    refine ⟨e.finish m, by simp, ?_, ho.finish_grows hg hw⟩
    rintro (hlt | hend)
    · rw [List.length_append, List.length_singleton] at hlt
      omega
    · exact absurd hend ho.not_endsAtReturnCode

end

/-- Lines below a document add to its listings. Those that have ended stay as they are, and the one that
is still open goes on: it keeps what it has, at the same places. -/
theorem listings_grow (uri : String) (a b : List Text) :
    (Document.mk uri a).listings.length ≤ (Document.mk uri (a ++ b)).listings.length ∧
    ∀ (i : ℕ) (l : Listing), (Document.mk uri a).listings[i]? = some l →
      ∃ k, (Document.mk uri (a ++ b)).listings[i]? = some k ∧
        (i + 1 < (Document.mk uri a).listings.length ∨ l.EndsAtReturnCode (Document.mk uri a) →
          k = l) ∧
        Listing.Grows (Document.mk uri a) l k := by
  let doc := Document.mk uri a
  have hf : (Scan.initial.run a).Follows doc := by
    have := Scan.follows_run doc le_rfl
    rwa [show doc.lines.take doc.lineCount = a from List.take_length] at this
  have hg : (Scan.initial.run a).Grown ((Scan.initial.run a).run b).listings :=
    Scan.grown_run (Scan.steady_run a) b
  have hafter : (Document.mk uri (a ++ b)).listings = ((Scan.initial.run a).run b).listings :=
    congrArg Scan.listings (Scan.run_append _ a b)
  have hbefore : doc.listings = (Scan.initial.run a).listings := rfl
  have hall : ∀ (i : ℕ) (l : Listing), doc.listings[i]? = some l →
      ∃ k, (Document.mk uri (a ++ b)).listings[i]? = some k ∧
        (i + 1 < doc.listings.length ∨ l.EndsAtReturnCode doc → k = l) ∧ Listing.Grows doc l k := by
    rw [hafter, hbefore, Scan.listings]
    cases hm : (Scan.initial.run a).mode with
    | idle =>
      simp only [Scan.Grown, hm] at hg
      obtain ⟨rest, hr⟩ := hg
      intro i l hl
      obtain ⟨hi, -⟩ := List.getElem?_eq_some_iff.mp hl
      rw [← hr, List.getElem?_append_left hi]
      exact ⟨l, hl, fun _ => rfl, .refl doc l⟩
    | reading d =>
      simp only [Scan.Grown, Scan.Follows, hm] at hg hf
      obtain ⟨start, indicator, -, -, ho, -⟩ := hf
      obtain ⟨e, n, rest, hl, hgain, hwide⟩ := hg
      rw [hl]
      exact fun i l => ho.found_again hgain hwide _ rest
    | skipping d =>
      simp only [Scan.Grown, Scan.Follows, hm] at hg hf
      obtain ⟨start, indicator, -, -, ho, -⟩ := hf
      obtain ⟨e, n, rest, hl, hgain, hwide⟩ := hg
      rw [hl]
      exact fun i l => ho.found_again hgain hwide _ rest
  refine ⟨?_, hall⟩
  by_contra hlt
  have hi : (Document.mk uri (a ++ b)).listings.length < doc.listings.length :=
    Nat.lt_of_not_le hlt
  obtain ⟨k, hk, -⟩ := hall _ _ (List.getElem?_eq_getElem hi)
  rw [List.getElem?_eq_none le_rfl] at hk
  cases hk

/-- The listing of a document that ends below the column header of a block. -/
def openListing : Listing :=
  (Document.mk "" (longRun.take 3)).listings.headD (.startingAt 0 false)

theorem openListing_spec :
    (Document.mk "" (longRun.take 3)).listings[0]? = some openListing ∧
    ¬ openListing.EndsAtReturnCode (Document.mk "" (longRun.take 3)) ∧
    openListing.blocks.map (fun b => (b.stop, b.firstStatement)) = [(3, none)] ∧
    (Document.mk "" (longRun.take 3 ++ longRun.drop 3)).listings[0]?.map
      (fun l => l.blocks.map fun b => (b.stop, b.firstStatement)) = some [(5, some 1)] := by
  decide +kernel

theorem listings_grow_openListing :
    ((Document.mk "" (longRun.take 3)).listings[0]? = some openListing ∧
      ¬ openListing.EndsAtReturnCode (Document.mk "" (longRun.take 3)) ∧
      openListing.blocks.map (fun b => (b.stop, b.firstStatement)) = [(3, none)]) ∧
    ∃ k, (Document.mk "" (longRun.take 3 ++ longRun.drop 3)).listings[0]? = some k ∧
      Listing.Grows (Document.mk "" (longRun.take 3)) openListing k ∧
      k.blocks.map (fun b => (b.stop, b.firstStatement)) = [(5, some 1)] := by
  obtain ⟨hl, hopen, hblocks, hgrown⟩ := openListing_spec
  obtain ⟨k, hk, -, hg⟩ := (listings_grow "" (longRun.take 3) (longRun.drop 3)).2 0 openListing hl
  rw [hk] at hgrown
  exact ⟨⟨hl, hopen, hblocks⟩, k, hk, hg, Option.some.inj hgrown⟩

end ListingIndex
