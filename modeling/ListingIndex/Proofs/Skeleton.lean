import Mathlib
import ListingIndex.Proofs.Simulation
import ListingIndex.Proofs.TitleLines

/-! The boundaries of a document decide where its listings stand and what parts they have. Lines
between boundaries only fill these parts: a draft without all that they say goes through a scan like
the draft itself. -/
namespace ListingIndex
open Line

/-- Where a listing stands, its messages and its parts: nothing that lines between boundaries say. -/
structure Skeleton where
  start : ℕ
  stop : ℕ
  indicator : Bool
  layout : Option Layout
  diagnostics : List Diagnostic
  reports : Dictionary Report LineRange
  /-- Blocks without the statements on their first lines. -/
  blocks : List CodeBlock
deriving DecidableEq, Repr

def Listing.skeleton (l : Listing) : Skeleton :=
  ⟨l.start, l.stop, l.indicator, l.layout, l.diagnostics, l.reports, l.blocks.map (·.unstarted)⟩

/-- Two lines that show the same opening and the same boundary, with an indicator column and without
one. Messages have to be of one length as well, for they cover their lines. -/
structure SameBoundary (x y : Text) : Prop where
  opening : opening? y = opening? x
  boundary : ∀ indicator, boundary? indicator y = boundary? indicator x
  width : ∀ indicator code text, boundary? indicator x = some (.message code text) →
    y.length = x.length

namespace SameBoundary

protected theorem refl (x : Text) : SameBoundary x x := ⟨rfl, fun _ => rfl, fun _ _ _ _ => rfl⟩

theorem of_none {x y : Text} (ho : opening? y = opening? x)
    (hx : ∀ indicator, boundary? indicator x = none)
    (hy : ∀ indicator, boundary? indicator y = none) : SameBoundary x y := by
  refine ⟨ho, fun indicator => by rw [hx, hy], ?_⟩
  intro indicator code text h
  rw [hx] at h
  cases h

end SameBoundary

namespace Draft

/-- The draft without all that lines between boundaries say. -/
def bare (d : Draft) : Draft :=
  { startingAt d.listing.start d.listing.indicator with
    listing.layout := d.listing.layout
    listing.diagnostics := d.listing.diagnostics
    listing.reports := d.listing.reports
    listing.blocks := d.listing.blocks.map (·.unstarted)
    area := d.area
    opened := d.opened.map Opened.unstarted
    title := d.title
    titleLine := d.titleLine }

theorem bare_flush (d : Draft) : d.flush.bare = d.bare := by
  obtain ⟨symbols, h⟩ := flush_shape d
  rw [h]
  rfl

theorem bare_close (d : Draft) (n : ℕ) : (d.close n).bare = d.bare.close n := by
  cases ho : d.opened with
  | none => simp [close, bare, ho]
  | some o => cases o <;> simp [close, bare, ho, Opened.unstarted, CodeBlock.unstarted]

theorem bare_enter (d : Draft) (a : Area) : (d.enter a).bare = d.bare.enter a := by
  have hd : d.bare.area = d.area := rfl
  unfold enter
  rw [hd]
  split
  · rfl
  · -- a bare draft holds no symbol back, so that another area is all it enters
    calc
      { d.flush with area := a }.bare = { d.flush.bare with area := a } := rfl
      _ = { d.bare.flush with area := a } := by rw [bare_flush]; rfl

theorem bare_addBoundary (d : Draft) (n width : ℕ) (b : Boundary) :
    (d.addBoundary n width b).bare = d.bare.addBoundary n width b := by
  cases b with
  | message code text => rfl
  | returnCode =>
    rw [addBoundary, addBoundary, ← bare_close]
    rfl
  | columns layout c =>
    rw [addBoundary, addBoundary, ← bare_close]
    rfl
  | report r =>
    rw [addBoundary, addBoundary, bare_enter, ← bare_close]
    rfl
  | page title =>
    calc
      (d.addBoundary n width (.page title)).bare =
          { ((d.close n).enter d.area.afterPage).bare with title := title, titleLine := n } := rfl
      _ = d.bare.addBoundary n width (.page title) := by
        rw [bare_enter, bare_close]
        rfl

theorem bare_addRecord (d : Draft) (n : ℕ) (line : Text) : (d.addRecord n line).bare = d.bare := by
  apply addRecord_cases (motive := fun e => e.bare = d.bare) d n line
  · rfl
  · intro l _ _
    obtain ⟨names, sections, name, he⟩ := addExternal_shape d l
    rw [he]
    rfl
  · intro layout l _ _ _
    simp [bare, addCode, Option.map_map, Function.comp_def, Opened.unstarted_startWith]
  · intro l _ _
    obtain ⟨symbols, pending, he⟩ := addCrossReference_shape d l
    rw [he]
    rfl
  · intro l _ _
    obtain ⟨symbols, name, he⟩ := addDsect_shape d l
    rw [he]
    rfl
  · intro l _ _
    obtain ⟨statements, he⟩ := addUsing_shape d l
    rw [he]
    rfl

theorem indicator_eq_of_bare {d e : Draft} (h : e.bare = d.bare) :
    e.listing.indicator = d.listing.indicator :=
  show e.bare.listing.indicator = d.bare.listing.indicator by rw [h]

/-- A bare draft shows the skeleton of the listing, wherever that ends. -/
theorem skeleton_finish (d : Draft) (stop : ℕ) :
    (d.finish stop).skeleton = (d.bare.finish stop).skeleton := by
  obtain ⟨symbols, classes, hd⟩ := finish_shape d stop
  obtain ⟨symbols', classes', he⟩ := finish_shape d.bare stop
  rw [hd, he, ← bare_close]
  simp [Listing.skeleton, bare, startingAt, Listing.startingAt, Function.comp_def,
    CodeBlock.unstarted]

/-- Only a message takes note of the width of its line. -/
theorem addBoundary_width (d : Draft) (n width wide : ℕ) {b : Boundary}
    (h : ∀ code text, b = .message code text → wide = width) :
    d.addBoundary n wide b = d.addBoundary n width b := by
  cases b with
  | message code text => rw [h code text rfl]
  | _ => rfl

theorem bare_addLine {d e : Draft} (h : e.bare = d.bare) {x y : Text} (hl : SameBoundary x y)
    (n : ℕ) : (e.addLine n y).bare = (d.addLine n x).bare := by
  have hi := indicator_eq_of_bare h
  cases hb : boundary? d.listing.indicator x with
  | none =>
    rw [addLine_record hb, addLine_record (by rw [hi, hl.boundary, hb]), bare_addRecord,
      bare_addRecord, h]
  | some b =>
    have hw := addBoundary_width e n x.length y.length (b := b) fun code text he =>
      hl.width d.listing.indicator code text (he ▸ hb)
    rw [addLine_boundary hb, addLine_boundary (by rw [hi, hl.boundary, hb]), hw, bare_addBoundary,
      bare_addBoundary, h]

theorem simulation_bare :
    Scan.Simulation (fun d e => e.bare = d.bare) (fun l k => k.skeleton = l.skeleton) := by
  refine ⟨fun _ _ => rfl, fun h => indicator_eq_of_bare h, ?_⟩
  intro d e h stop
  rw [skeleton_finish e, h, ← skeleton_finish d]

theorem alike_bare {x y : Text} (h : SameBoundary x y) :
    Scan.Alike (fun d e => e.bare = d.bare) x y :=
  ⟨h.opening, fun indicator => by rw [endsListing, endsListing, h.boundary],
    fun indicator => by rw [hidesNext, hidesNext, h.boundary], fun hd n => bare_addLine hd h n⟩

end Draft

/-- Two documents whose lines show the same openings and boundaries hold the same listings with the
same parts, whatever else they say. -/
theorem listings_skeleton (a b : Document) (h : List.Forall₂ SameBoundary a.lines b.lines) :
    a.listings.map (·.skeleton) = b.listings.map (·.skeleton) := by
  have hs := Draft.simulation_bare
  have hr := Scan.Related.run hs Scan.Related.initial (h.imp fun x y => Draft.alike_bare)
  rw [← List.forall₂_eq_eq_eq, List.forall₂_map_left_iff, List.forall₂_map_right_iff]
  exact (hr.listings hs).imp fun l k hk => hk.symm

/-- A block of object code with one line in it, and a message below that line. -/
def blockRows (line : Text) : List Text :=
  [reportRow .optionSummary 1, titleRow "SAMPLE".toList 1,
    "  Loc  Object Code    Addr1 Addr2  Stmt   Source Statement".toList, line,
    "** ASMA017W X".toList, "Return Code 004".toList]

def codeRow : Text := "000000                00000 00018     1 SAMPLE   CSECT".toList

theorem listings_skeleton_blockRows :
    List.Forall₂ SameBoundary (blockRows codeRow) (blockRows []) ∧
    (Document.mk "" (blockRows codeRow)).listings.map (·.skeleton) =
      (Document.mk "" (blockRows [])).listings.map (·.skeleton) ∧
    (Document.mk "" (blockRows codeRow)).listings ≠ (Document.mk "" (blockRows [])).listings := by
  have hc : SameBoundary codeRow [] := SameBoundary.of_none (by decide) (by decide) (by decide)
  have h : List.Forall₂ SameBoundary (blockRows codeRow) (blockRows []) :=
    .cons (.refl _) (.cons (.refl _) (.cons (.refl _) (.cons hc (List.forall₂_same.mpr
      fun x _ => .refl x))))
  exact ⟨h, listings_skeleton ⟨"", blockRows codeRow⟩ ⟨"", blockRows []⟩ h, by decide +kernel⟩

end ListingIndex
