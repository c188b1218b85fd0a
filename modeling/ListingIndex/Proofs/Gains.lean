import Mathlib
import ListingIndex.Proofs.ContinuationLines
import ListingIndex.Proofs.TableChanges

/-! What the lines of a listing add for good: messages, control sections, labels, statements and symbols.
No line takes any of it back. A symbol that is held back counts as if it were in the table already. -/
namespace ListingIndex
open Line

/-- What one lookup finds the other finds too, in relation `R` to it. -/
def Carries {κ α : Type} (R : α → α → Prop) (f g : κ → Option α) : Prop :=
  ∀ k a, f k = some a → ∃ b, g k = some b ∧ R a b

namespace Carries
variable {κ α : Type} {R : α → α → Prop} {f g h : κ → Option α}

theorem refl (hr : ∀ a, R a a) (f : κ → Option α) : Carries R f f :=
  fun _ a ha => ⟨a, ha, hr a⟩

theorem trans (hr : ∀ {a b c}, R a b → R b c → R a c) (hf : Carries R f g) (hg : Carries R g h) :
    Carries R f h := by
  intro k a ha
  obtain ⟨b, hb, hab⟩ := hf k a ha
  obtain ⟨c, hc, hbc⟩ := hg k b hb
  exact ⟨c, hc, hr hab hbc⟩

end Carries

/-- The same line, and the same address once there is one. -/
structure StatementLine.Grows (s t : StatementLine) : Prop where
  line : t.line = s.line
  address : ∀ a, s.address = some a → t.address = some a

theorem StatementLine.Grows.refl (s : StatementLine) : s.Grows s := ⟨rfl, fun _ h => h⟩

theorem StatementLine.Grows.trans {s t u : StatementLine} (h : s.Grows t) (h' : t.Grows u) :
    s.Grows u :=
  ⟨h'.line.trans h.line, fun a ha => h'.address a (h.address a ha)⟩

/-- No definition and no reference is lost. -/
structure Symbol.Within (s t : Symbol) : Prop where
  defined : ∀ n ∈ s.defined, n ∈ t.defined
  references : ∀ n ∈ s.references, n ∈ t.references
  pureReferences : ∀ n ∈ s.pureReferences, n ∈ t.pureReferences

namespace Symbol
variable {s t u : Symbol}

theorem Within.refl (s : Symbol) : s.Within s := ⟨fun _ h => h, fun _ h => h, fun _ h => h⟩

theorem Within.trans (h : s.Within t) (h' : t.Within u) : s.Within u :=
  ⟨fun n hn => h'.defined n (h.defined n hn), fun n hn => h'.references n (h.references n hn),
    fun n hn => h'.pureReferences n (h.pureReferences n hn)⟩

theorem within_merge (s t : Symbol) : s.Within (s.merge t) :=
  ⟨fun _ h => NumberSet.mem_union.mpr (.inl h), fun _ h => NumberSet.mem_union.mpr (.inl h),
    fun _ h => NumberSet.mem_union.mpr (.inl h)⟩

theorem merge_within (s t : Symbol) : t.Within (s.merge t) :=
  ⟨fun _ h => NumberSet.mem_union.mpr (.inr h), fun _ h => NumberSet.mem_union.mpr (.inr h),
    fun _ h => NumberSet.mem_union.mpr (.inr h)⟩

theorem Within.merge {s' t' : Symbol} (h : s.Within s') (h' : t.Within t') :
    (s.merge t).Within (s'.merge t') := by
  have hu : ∀ {a b a' b' : NumberSet}, (∀ n ∈ a, n ∈ a') → (∀ n ∈ b, n ∈ b') →
      ∀ n ∈ a.union b, n ∈ a'.union b' := by
    intro a b a' b' ha hb n hn
    exact NumberSet.mem_union.mpr ((NumberSet.mem_union.mp hn).imp (ha n) (hb n))
  exact ⟨hu h.defined h'.defined, hu h.references h'.references,
    hu h.pureReferences h'.pureReferences⟩

theorem within_extend (s : Symbol) (r : CrossReference) : s.Within (s.extend r) := by
  cases r with
  | entry name fields =>
    rw [extend, addEntry_eq]
    exact ⟨fun n h => by simp [h], fun n h => by simp [h], fun n h => by simp [h]⟩
  | longName name => exact .refl s
  | deferred fields =>
    rw [extend, addEntry_eq]
    exact ⟨fun n h => by simp [h], fun n h => by simp [h], fun n h => by simp [h]⟩
  | more references =>
    rw [extend, addReferences, foldl_addReference]
    exact ⟨fun n h => h, fun n h => by simp [h], fun n h => by simp [h]⟩

end Symbol

namespace SymbolTable

/-- No symbol of a table is lost in the other table, nor anything of it. -/
abbrev Within (t u : SymbolTable) : Prop := Carries Symbol.Within t.find? u.find?

theorem Within.refl (t : SymbolTable) : t.Within t := Carries.refl Symbol.Within.refl _

theorem Within.trans {t u v : SymbolTable} (h : t.Within u) (h' : u.Within v) : t.Within v :=
  Carries.trans Symbol.Within.trans h h'

theorem within_merge (t : SymbolTable) (s : Symbol) : t.Within (t.merge s) := by
  intro name a ha
  rw [find?_merge]
  by_cases hn : name = s.name
  · subst hn
    rw [if_pos rfl, ha]
    exact ⟨_, rfl, a.within_merge s⟩
  · rw [if_neg hn]
    exact ⟨a, ha, .refl a⟩

theorem within_insertIfNew (t : SymbolTable) (s : Symbol) : t.Within (t.insertIfNew s) := by
  intro name a ha
  rw [SymbolTable.insertIfNew, Dictionary.find?_insertIfNew]
  by_cases hn : name = s.name
  · subst hn
    rw [if_pos rfl, ha]
    exact ⟨a, rfl, .refl a⟩
  · rw [if_neg hn]
    exact ⟨a, ha, .refl a⟩

/-- Merging keeps the order of tables and symbols. -/
theorem Within.merge {t u : SymbolTable} (h : t.Within u) {s s' : Symbol} (hs : s.Within s')
    (hname : s'.name = s.name) : (t.merge s).Within (u.merge s') := by
  intro name a ha
  rw [find?_merge] at ha ⊢
  rw [hname]
  by_cases hn : name = s.name
  · rw [if_pos hn] at ha ⊢
    obtain rfl := Option.some.inj ha
    refine ⟨_, rfl, ?_⟩
    cases ht : t.find? s.name with
    | none =>
      cases u.find? s.name with
      | none => exact hs
      | some x => exact hs.trans (x.merge_within s')
    | some x =>
      obtain ⟨y, hy, hxy⟩ := h _ x ht
      rw [hy]
      exact hxy.merge hs
  · rw [if_neg hn] at ha ⊢
    exact h name a ha

end SymbolTable

namespace Draft

/-- All that a draft holds for good is in the other one, the symbol that is held back included. -/
structure Gains (d e : Draft) : Prop where
  origin : e.origin = d.origin
  diagnostics : d.listing.diagnostics <+: e.listing.diagnostics
  controlSections : d.listing.controlSections <+: e.listing.controlSections
  labels : d.labels <+: e.labels
  statements : Carries StatementLine.Grows d.listing.statements.find? e.listing.statements.find?
  lastStatement : d.listing.lastStatement ≤ e.listing.lastStatement
  symbols : d.flush.listing.symbols.Within e.flush.listing.symbols

theorem Gains.refl (d : Draft) : d.Gains d :=
  ⟨rfl, List.prefix_rfl, List.prefix_rfl, List.prefix_rfl,
    .refl StatementLine.Grows.refl _, le_rfl, .refl _⟩

theorem Gains.trans {d e f : Draft} (h : d.Gains e) (h' : e.Gains f) : d.Gains f :=
  ⟨h'.origin.trans h.origin, h.diagnostics.trans h'.diagnostics,
    h.controlSections.trans h'.controlSections, h.labels.trans h'.labels,
    h.statements.trans StatementLine.Grows.trans h'.statements,
    h.lastStatement.trans h'.lastStatement, h.symbols.trans h'.symbols⟩

theorem within_of_symbolState {d e : Draft} (h : e.symbolState = d.symbolState) :
    d.flush.listing.symbols.Within e.flush.listing.symbols := by
  have hs : e.flush.listing.symbols = d.flush.listing.symbols :=
    congrArg Prod.fst (symbolState_flush_congr h)
  rw [hs]
  exact .refl _

/-- What a draft holds for good. -/
def kept (d : Draft) : (ℕ × Bool) × List Diagnostic × List ControlSection × List (Text × ℕ) ×
    FloorMap StatementLine × ℕ × SymbolTable × Option Symbol :=
  (d.origin, d.listing.diagnostics, d.listing.controlSections, d.labels, d.listing.statements,
    d.listing.lastStatement, d.symbolState)

theorem Gains.same {d e : Draft} (h : e.kept = d.kept) : d.Gains e := by
  simp only [kept, Prod.mk.injEq] at h
  obtain ⟨ho, hd, hc, hl, hs, hm, hst⟩ := h
  exact ⟨ho, by rw [hd], by rw [hc], by rw [hl], by rw [hs]; exact .refl StatementLine.Grows.refl _,
    hm.ge, within_of_symbolState hst⟩

/-- What is open below a boundary on line `n`. -/
def openedBy (d : Draft) (n : ℕ) : Boundary → Option Opened
  | .message _ _ => d.opened
  | .columns _ c => some (.block ⟨d.titleLine, n + 1, d.title, n + 1, c, none⟩)
  | .report r => some (.report r)
  | .returnCode | .page _ => none

/-- What a boundary changes outside the symbols and the reports: a message is added, and every other
boundary ends the open block. -/
structure BoundaryEffect (d : Draft) (n : ℕ) (b : Boundary) (e : Draft) : Prop where
  opened : e.opened = d.openedBy n b
  diagnostics : d.listing.diagnostics <+: e.listing.diagnostics
  controlSections : e.listing.controlSections = d.listing.controlSections
  blocks : (∃ code text, b = .message code text) ∨ e.listing.blocks = (d.close n).listing.blocks

theorem boundaryEffect (d : Draft) (n width : ℕ) (b : Boundary) :
    d.BoundaryEffect n b (d.addBoundary n width b) := by
  obtain ⟨reports, blocks, hc⟩ := close_shape d n
  cases b with
  | message code text => exact ⟨rfl, List.prefix_append _ _, rfl, .inl ⟨code, text, rfl⟩⟩
  | returnCode =>
    rw [addBoundary, hc]
    exact ⟨rfl, List.prefix_rfl, rfl, .inr (by rw [hc]; rfl)⟩
  | columns layout c =>
    rw [addBoundary, hc]
    exact ⟨rfl, List.prefix_rfl, rfl, .inr (by rw [hc]; rfl)⟩
  | report r =>
    obtain ⟨symbols, pending, he⟩ := enter_shape ((d.close n).openReport n r) (d.area.afterReport r)
    rw [addBoundary, he, hc]
    exact ⟨rfl, List.prefix_rfl, rfl, .inr (by rw [hc]; rfl)⟩
  | page title =>
    obtain ⟨symbols, pending, he⟩ := enter_shape (d.close n) d.area.afterPage
    rw [addBoundary, he, hc]
    exact ⟨rfl, List.prefix_rfl, rfl, .inr (by rw [hc])⟩

section
variable (d : Draft)

theorem gains_addCode (n : ℕ) (layout : Layout) (l : Code) : d.Gains (d.addCode n layout l) := by
  refine ⟨rfl, List.prefix_rfl, List.prefix_rfl, List.prefix_append _ _, ?_, le_max_left _ _, ?_⟩
  · intro s a ha
    simp only [addCode, FloorMap.find?_update]
    by_cases hs : s = l.statement
    · subst hs
      rw [if_pos rfl, ha]
      exact ⟨_, rfl, rfl, fun x hx => by simp [placeStatement, hx]⟩
    · rw [if_neg hs]
      exact ⟨a, ha, .refl a⟩
  · exact within_of_symbolState rfl

theorem gains_addCrossReference (l : CrossReference) : d.Gains (d.addCrossReference l) := by
  obtain ⟨symbols, pending, he⟩ := addCrossReference_shape d l
  have hs : d.flush.listing.symbols.Within (d.addCrossReference l).flush.listing.symbols := by
    cases hl : l.name? with
    | some name =>
      obtain ⟨hs, hp⟩ := Prod.mk.inj (addCrossReference_name hl d)
      rw [flush_symbols (d.addCrossReference l), hs, hp]
      exact SymbolTable.within_merge _ _
    | none =>
      obtain ⟨hs, hp⟩ := Prod.mk.inj (addCrossReference_continuation hl d)
      rw [flush_symbols (d.addCrossReference l), hs, hp, flush_symbols]
      cases d.pending with
      | none => exact .refl _
      | some s =>
        exact (SymbolTable.Within.refl _).merge (s.within_extend l) (s.name_extend l)
  rw [he] at hs ⊢
  exact ⟨rfl, List.prefix_rfl, List.prefix_rfl, List.prefix_rfl,
    .refl StatementLine.Grows.refl _, le_rfl, hs⟩

theorem gains_addDsect (l : Dsect) : d.Gains (d.addDsect l) := by
  have hentry : ∀ (e : Draft) name x, e.Gains (e.addDsectEntry name x) := by
    intro e name x
    refine ⟨rfl, List.prefix_rfl, List.prefix_rfl, List.prefix_rfl,
      .refl StatementLine.Grows.refl _, le_rfl, ?_⟩
    rw [flush_symbols, flush_symbols]
    cases hp : e.pending with
    | none =>
      have hp' : (e.addDsectEntry name x).pending = none := hp
      rw [hp']
      exact SymbolTable.within_insertIfNew _ _
    | some s =>
      have hp' : (e.addDsectEntry name x).pending = some s := hp
      rw [hp']
      exact (SymbolTable.within_insertIfNew _ _).merge (.refl s) rfl
  have hname : ∀ name, d.Gains { d with dsectName := name } := fun _ => .same rfl
  cases l with
  | named name x =>
    cases x with
    | none => exact hname (some name)
    | some x => exact (hname (some name)).trans (hentry _ name x)
  | continuation x =>
    simp only [addDsect]
    split
    · exact hentry d _ x
    · exact .refl d

theorem gains_addExternal (l : External) : d.Gains (d.addExternal l) := by
  have hsection : ∀ (e : Draft) name x, e.Gains (e.addSection name x) := by
    intro e name x
    unfold addSection
    split
    · exact ⟨rfl, List.prefix_rfl, List.prefix_append _ _, List.prefix_rfl,
        .refl StatementLine.Grows.refl _, le_rfl, within_of_symbolState rfl⟩
    · exact .refl e
  have hname : ∀ name, d.Gains { d with sectionName := name } := fun _ => .same rfl
  cases l with
  | named name x =>
    cases x with
    | none => exact hname (some name)
    | some x => exact (hname (some name)).trans (hsection _ name x)
  | continuation x =>
    simp only [addExternal]
    split
    · exact hsection d _ x
    · exact .refl d

theorem gains_addRecord (n : ℕ) (line : Text) : d.Gains (d.addRecord n line) := by
  apply addRecord_cases (motive := d.Gains) d n line (.refl d)
  · intro l _ _
    exact d.gains_addExternal l
  · intro layout l _ _ _
    exact d.gains_addCode n layout l
  · intro l _ _
    exact d.gains_addCrossReference l
  · intro l _ _
    exact d.gains_addDsect l
  · intro l _ _
    obtain ⟨statements, he⟩ := addUsing_shape d l
    rw [he]
    exact .same rfl

/-- A boundary may let the symbol go that is held back, which takes nothing from it. -/
theorem gains_addBoundary (n width : ℕ) (b : Boundary) : d.Gains (d.addBoundary n width b) := by
  have hf := d.boundaryFrame n width b
  have he := d.boundaryEffect n width b
  have hi := hf.codeIndex
  simp only [codeIndex, Prod.mk.injEq] at hi
  refine ⟨hf.origin, he.diagnostics, by rw [he.controlSections], by rw [hf.labels], ?_, hi.2.1.ge, ?_⟩
  · rw [hi.1]
    exact .refl StatementLine.Grows.refl _
  · have hs := d.symbolState_addBoundary n width b
    split at hs
    · exact within_of_symbolState hs
    · have hflush : (d.addBoundary n width b).flush.listing.symbols = d.flush.flush.listing.symbols :=
        congrArg Prod.fst (symbolState_flush_congr hs)
      rw [hflush, flush_of_none d.flush_pending]
      exact .refl _

theorem gains_addLine (n : ℕ) (line : Text) : d.Gains (d.addLine n line) := by
  unfold addLine
  split
  · exact d.gains_addBoundary n _ _
  · exact d.gains_addRecord n line

end

end Draft
end ListingIndex
