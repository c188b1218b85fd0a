import Mathlib
import ListingIndex.Line.CrossReference
import ListingIndex.Proofs.ReferenceLists

/-! Lines of the symbol cross reference, printed and read. The columns of an entry come back as they
were printed, and so does the list of references behind them, with one exception: a list that is a
single digit counts as none. -/
namespace ListingIndex.Line.CrossReference
open Text Column Reference

/-- The columns of an entry before they are printed. -/
structure EntryColumns where
  length : Text
  value : UInt32
  sectionId : Int32
  relocation : Char
  /-- The type has a column of its own between columns that are not read. -/
  typeLeft : Text
  typeFlag : Char
  typeRight : Char
  assembler : Text
  program : Text
  /-- Spaces in front of the number of the defining statement. -/
  gap : ℕ
  definedAt : Text
deriving DecidableEq, Repr

namespace EntryColumns

/-- The flags of an entry, in which any character may stand. -/
def flags (e : EntryColumns) : Text :=
  e.relocation :: e.typeFlag :: e.typeRight :: (e.typeLeft ++ e.assembler ++ e.program)

structure Valid (e : EntryColumns) : Prop where
  length : e.length ≠ [] ∧ ∀ c ∈ e.length, c.isDigit
  free : '\n' ∉ e.flags
  widths : (e.typeLeft.length, e.assembler.length, e.program.length) = (2, 3, 7)
  gap : 0 < e.gap
  definedAt : e.definedAt ≠ [] ∧ ∀ c ∈ e.definedAt, c.isDigit
  number : Nat.ofDigitChars 10 e.definedAt 0 < 2 ^ 32

/-- The columns as they are printed in front of `rest`. -/
def print (e : EntryColumns) (rest : Text) : Text :=
  e.length ++ ' ' :: (wordHex e.value ++ ' ' :: (wordHex e.sectionId.toUInt32 ++
    ' ' :: e.relocation :: ' ' :: (e.typeLeft ++ e.typeFlag :: e.typeRight ::
      ' ' :: (e.assembler ++ ' ' :: ' ' :: (e.program ++ (List.replicate e.gap ' ' ++
        (e.definedAt ++ rest)))))))

/-- What the columns say of a symbol, with the references behind them. -/
def fields (e : EntryColumns) (references : Text) : Entry :=
  ⟨e.value, e.sectionId, e.relocation = ' ', e.typeFlag, Nat.ofDigitChars 10 e.definedAt 0, references⟩

theorem exactly_wordHex (w : UInt32) (s : Text) :
    exactly isHex 8 (wordHex w ++ s) = some (wordHex w, s) := by
  obtain ⟨hl, hd, -⟩ := isHexOf_iff.mp (isHexOf_wordHex w)
  exact exactly_eq_some_iff.mpr ⟨rfl, hl, hd⟩

theorem run_digits {digits : Text} (h : digits ≠ [] ∧ ∀ c ∈ digits, c.isDigit) (s : Text) :
    run isDecimal (digits ++ ' ' :: s) = some (digits, ' ' :: s) := by
  refine run_eq_some_iff.mpr ⟨rfl, h.1, h.2, ?_⟩
  intro c hc
  simp only [List.head?_cons, Option.mem_some_iff] at hc
  exact not_isDecimal_of_isSpace (by simp [← hc, isSpace])

theorem head?_digits {digits : Text} (h : digits ≠ [] ∧ ∀ c ∈ digits, c.isDigit) (s : Text) :
    ∀ c ∈ (digits ++ s).head?, isDecimal c := by
  obtain ⟨x, digits, rfl⟩ := List.exists_cons_of_ne_nil h.1
  intro c hc
  simp only [List.cons_append, List.head?_cons, Option.mem_some_iff] at hc
  exact h.2 c (by simp [hc])

section
variable {e : EntryColumns} (h : e.Valid)
include h

theorem Valid.exactly_flags (field : Text) (hf : field ⊆ e.flags) {n : ℕ} (hn : field.length = n)
    (s : Text) : exactly isFree n (field ++ s) = some (field, s) :=
  exactly_eq_some_iff.mpr
    ⟨rfl, hn, List.all_eq_true.mpr fun _ hc => isFree_of_not_mem h.free (hf hc)⟩

theorem Valid.head?_print {s : Text} {c : Char} (hc : c ∈ (e.print s).head?) : isDecimal c :=
  head?_digits h.length _ c hc

theorem Valid.columns?_print {s : Text} (hs : ∀ c ∈ s.head?, ¬ isSpace c) :
    columns? (e.print (' ' :: s)) =
      some ⟨wordHex e.value, wordHex e.sectionId.toUInt32, [e.relocation], e.typeFlag, e.definedAt,
        (references? s).getD []⟩ := by
  obtain ⟨hleft, hassembler, hprogram⟩ :
      e.typeLeft.length = 2 ∧ e.assembler.length = 3 ∧ e.program.length = 7 := by
    simpa using h.widths
  have hspace : ∀ t : Text, space (' ' :: t) = some t := fun _ => rfl
  have htwo : ∀ t : Text, exactly isSpace 2 (' ' :: ' ' :: t) = some ([' ', ' '], t) := fun _ => rfl
  have htype : ∀ t : Text, free? (e.typeFlag :: t) = some (e.typeFlag, t) := by
    intro t
    simp [free?, isFree_of_not_mem h.free (by simp [flags] : e.typeFlag ∈ e.flags)]
  refine bind_eq_of_eq_some (run_digits h.length _) ?_
  refine bind_eq_of_eq_some (hspace _) ?_
  refine bind_eq_of_eq_some (exactly_wordHex _ _) ?_
  refine bind_eq_of_eq_some (hspace _) ?_
  refine bind_eq_of_eq_some (exactly_wordHex _ _) ?_
  refine bind_eq_of_eq_some (hspace _) ?_
  refine bind_eq_of_eq_some (h.exactly_flags [e.relocation] (by simp [flags]) rfl _) ?_
  refine bind_eq_of_eq_some (hspace _) ?_
  refine bind_eq_of_eq_some (h.exactly_flags _ (by intro c hc; simp [flags, hc]) hleft _) ?_
  refine bind_eq_of_eq_some (htype _) ?_
  refine bind_eq_of_eq_some (h.exactly_flags [e.typeRight] (by simp [flags]) rfl _) ?_
  refine bind_eq_of_eq_some (hspace _) ?_
  refine bind_eq_of_eq_some (h.exactly_flags _ (by intro c hc; simp [flags, hc]) hassembler _) ?_
  refine bind_eq_of_eq_some (htwo _) ?_
  refine bind_eq_of_eq_some (h.exactly_flags _ (by intro c hc; simp [flags, hc]) hprogram _) ?_
  refine bind_eq_of_eq_some (spaces_replicate h.gap fun c hc =>
    not_isSpace_of_isDecimal (head?_digits h.definedAt _ c hc)) ?_
  refine bind_eq_of_eq_some (run_digits h.definedAt _) ?_
  exact bind_eq_of_eq_some (spaces_replicate (k := 1) (by decide) hs) rfl

end
end EntryColumns

theorem free?_suffix {s rest : Text} {c : Char} (h : free? s = some (c, rest)) : rest <:+ s := by
  cases s with
  | nil => cases h
  | cons x s =>
    simp only [free?, Option.ite_none_right_eq_some, Option.some.injEq, Prod.mk.injEq] at h
    exact ⟨[x], by rw [h.2.2]; rfl⟩

section
variable {rs : List Reference} (h : ∀ r ∈ rs, r.Valid)
include h

/-- A list of more than one character is found as it was printed. -/
theorem references?_printAll (hne : rs ≠ []) :
    references? (printAll rs) = if isLoneDigit rs then none else some (printAll rs) := by
  have hfree : ∀ c ∈ printAll rs, isFree c := fun c => isFree_of_mem_printAll h
  have hlen := length_printAll_le_one_iff hne
  obtain ⟨c, s, hs, hc⟩ := printAll_eq_cons hne
  rw [hs] at hfree hlen ⊢
  rw [references?, if_pos hc]
  cases s with
  | nil =>
    rw [if_pos (hlen.mp (by simp))]
    rfl
  | cons d s =>
    have hrun : run isFree (d :: s) = some (d :: s, []) :=
      run_eq_some_iff.mpr ⟨by simp, by simp, fun x hx => hfree x (by simp [hx]), by simp⟩
    rw [if_neg (fun hl => by simpa using hlen.mpr hl), hrun]
    rfl

end

/-- Two spaces stand side by side in every entry. -/
theorem not_singlySpaced_of_columns? {s : Text} {columns : Columns} (h : columns? s = some columns) :
    ¬ SinglySpaced s := by
  obtain ⟨⟨_, s₁⟩, h₁, h⟩ := Option.bind_eq_some_iff.mp h
  obtain ⟨s₂, h₂, h⟩ := Option.bind_eq_some_iff.mp h
  obtain ⟨⟨_, s₃⟩, h₃, h⟩ := Option.bind_eq_some_iff.mp h
  obtain ⟨s₄, h₄, h⟩ := Option.bind_eq_some_iff.mp h
  obtain ⟨⟨_, s₅⟩, h₅, h⟩ := Option.bind_eq_some_iff.mp h
  obtain ⟨s₆, h₆, h⟩ := Option.bind_eq_some_iff.mp h
  obtain ⟨⟨_, s₇⟩, h₇, h⟩ := Option.bind_eq_some_iff.mp h
  obtain ⟨s₈, h₈, h⟩ := Option.bind_eq_some_iff.mp h
  obtain ⟨⟨_, s₉⟩, h₉, h⟩ := Option.bind_eq_some_iff.mp h
  obtain ⟨⟨_, t₁⟩, k₁, h⟩ := Option.bind_eq_some_iff.mp h
  obtain ⟨⟨_, t₂⟩, k₂, h⟩ := Option.bind_eq_some_iff.mp h
  obtain ⟨t₃, k₃, h⟩ := Option.bind_eq_some_iff.mp h
  obtain ⟨⟨_, t₄⟩, k₄, h⟩ := Option.bind_eq_some_iff.mp h
  obtain ⟨⟨two, t₅⟩, k₅, -⟩ := Option.bind_eq_some_iff.mp h
  have hsuffix : t₄ <:+ s :=
    (exactly_suffix k₄).trans <| (space_suffix k₃).trans <| (exactly_suffix k₂).trans <|
    (free?_suffix k₁).trans <| (exactly_suffix h₉).trans <| (space_suffix h₈).trans <|
    (exactly_suffix h₇).trans <| (space_suffix h₆).trans <| (exactly_suffix h₅).trans <|
    (space_suffix h₄).trans <| (exactly_suffix h₃).trans <| (space_suffix h₂).trans (run_suffix h₁)
  obtain ⟨rfl, hlen, hspace⟩ := exactly_eq_some_iff.mp k₅
  obtain ⟨a, b, rfl⟩ := List.length_eq_two.mp hlen
  intro hs
  have hchain : SinglySpaced (a :: b :: t₅) := List.IsChain.suffix hs hsuffix
  simp only [List.all_cons, List.all_nil, Bool.and_eq_true] at hspace
  exact (List.isChain_cons_cons.mp hchain).1 hspace.1 hspace.2.1

/-- The list that is read behind an entry: a lone digit is passed over. -/
def readList (rs : List Reference) : Text := if isLoneDigit rs then [] else printAll rs

/-- A line with an entry; an entry whose name stands on the line above has none. -/
def entryLine (name : Text) (indent : ℕ) (e : EntryColumns) (rs : List Reference) : Text :=
  name ++ (List.replicate indent ' ' ++ e.print (' ' :: printAll rs))

/-- A line with nothing but references. -/
def moreLine (indent : ℕ) (rs : List Reference) : Text := List.replicate indent ' ' ++ printAll rs

section
variable {rs : List Reference} (h : ∀ r ∈ rs, r.Valid) {e : EntryColumns} (he : e.Valid)
include h he

theorem entry?_print : ∃ columns, columns? (e.print (' ' :: printAll rs)) = some columns ∧
    columns.entry? = some (e.fields (readList rs)) := by
  have hs : ∀ c ∈ (printAll rs).head?, ¬ isSpace c := fun c hc =>
    not_isSpace_of_isDecimal (head?_printAll hc)
  have hlist : (references? (printAll rs)).getD [] = readList rs := by
    cases rs with
    | nil => rfl
    | cons r rs =>
      rw [references?_printAll h (by simp), readList]
      split <;> rfl
  refine ⟨_, he.columns?_print hs, ?_⟩
  rw [hlist]
  have hnumber := (decimal?_eq_some_iff he.definedAt.2).mpr ⟨rfl, he.number⟩
  refine bind_eq_of_eq_some hnumber ?_
  have hblank : ([e.relocation] == [' ']) = decide (e.relocation = ' ') := by
    rw [Bool.eq_iff_iff]
    simp
  simp only [EntryColumns.fields, hexWord_wordHex, signedWord, hblank, Int32.toInt32_toUInt32]

theorem read?_entryLine {name : Text} {k : ℕ} (hne : name ≠ []) (hlen : name.length ≤ shortName)
    (hall : ∀ c ∈ name, isSymbolChar c) (hd : ¬ name.head?.any Char.isDigit) (hk : 0 < k) :
    read? (entryLine name k e rs) = some (.entry name (e.fields (readList rs))) := by
  obtain ⟨columns, hcolumns, hentry⟩ := entry?_print h he
  have hname : Line.name (entryLine name k e rs) =
      some (name, List.replicate k ' ' ++ e.print (' ' :: printAll rs)) := by
    refine name_append hne hall hd ?_
    have hhead : (List.replicate k ' ' ++ e.print (' ' :: printAll rs)).head? = some ' ' := by
      simp [List.head?_replicate, hk.ne']
    rw [hhead]
    simp [show isSymbolChar ' ' = false by decide]
  have hspaces : spaces (List.replicate k ' ' ++ e.print (' ' :: printAll rs)) =
      some (e.print (' ' :: printAll rs)) :=
    spaces_replicate hk (fun c hc => not_isSpace_of_isDecimal (he.head?_print hc))
  simp only [read?, hname, if_neg (Nat.not_lt.mpr hlen)]
  refine bind_eq_of_eq_some hspaces (bind_eq_of_eq_some hcolumns ?_)
  rw [hentry]
  rfl

end

/-- No name starts with a digit, whatever stands in front of it. -/
theorem read?_of_digit {k : ℕ} {s : Text} (hs : ∀ c ∈ s.head?, isDecimal c) :
    read? (List.replicate k ' ' ++ s) = continuation? k s := by
  have hspace : ∀ c ∈ s.head?, ¬ isSpace c := fun c hc => not_isSpace_of_isDecimal (hs c hc)
  have hname : Line.name (List.replicate k ' ' ++ s) = none := by
    refine name_eq_none fun c hc hstart => (isSymbolStart_iff.mp hstart).2 ?_
    cases k with
    | zero => exact hs c hc
    | succ k =>
      have hc : ' ' = c := by simpa [List.replicate_succ] using hc
      exact absurd hstart (by rw [← hc]; decide)
  rw [read?, hname, takeWhile_isSpace hspace, dropWhile_isSpace hspace, List.length_replicate]

section
variable {rs : List Reference} (h : ∀ r ∈ rs, r.Valid)
include h

theorem read?_deferred {e : EntryColumns} (he : e.Valid) {k : ℕ} (hk : deferredIndent ≤ k) :
    read? (entryLine [] k e rs) = some (.deferred (e.fields (readList rs))) := by
  obtain ⟨columns, hcolumns, hentry⟩ := entry?_print h he
  have hread : read? (entryLine [] k e rs) = continuation? k (e.print (' ' :: printAll rs)) :=
    read?_of_digit fun c hc => he.head?_print hc
  rw [hread, continuation?, if_pos hk, hcolumns]
  simp only [hentry, Option.map_some]

theorem read?_moreLine (hne : rs ≠ []) {k : ℕ} (hk : moreIndent ≤ k) :
    read? (moreLine k rs) = if isLoneDigit rs then none else some (.more (printAll rs)) := by
  have hcolumns : columns? (printAll rs) = none := by
    cases hc : columns? (printAll rs) with
    | none => rfl
    | some columns => exact absurd (singlySpaced_printAll h) (not_singlySpaced_of_columns? hc)
  have hread : read? (moreLine k rs) = continuation? k (printAll rs) :=
    read?_of_digit fun c hc => head?_printAll hc
  rw [hread, continuation?, hcolumns, ite_self]
  simp only [if_pos hk, references?_printAll h hne]
  split <;> rfl

end

/-- The line of a name that starts with a digit is none. -/
theorem read?_digit_name {name : Text} (hd : name.head?.any Char.isDigit) (k : ℕ) (e : EntryColumns)
    (rs : List Reference) : read? (entryLine name k e rs) = none := by
  have hhead : ∀ d ∈ (entryLine name k e rs).head?, isDecimal d := by
    cases name with
    | nil => cases hd
    | cons c name =>
      intro d hmem
      have hcd : c = d := by simpa [entryLine] using hmem
      exact hcd ▸ hd
  exact read?_of_digit (k := 0) hhead

theorem crossReference?_lead {indicator : Bool} {lead : Option Char}
    (hlead : lead.isSome = indicator) (hfree : '\n' ∉ lead.toList) (s : Text) :
    crossReference? indicator (lead.toList ++ s) = read? s := by
  have hs : behindIndicator indicator (lead.toList ++ s) = some s := by
    refine behindIndicator_eq_some_iff.mpr ⟨lead, hlead, ?_, rfl⟩
    intro c hc
    exact isFree_of_not_mem hfree (Option.mem_toList.mpr hc)
  rw [crossReference?, hs]
  rfl

/-- A list of references is read as it was printed, and a line that carries one is told by its
indent, with the columns in front of it. A lone digit is the only list that is lost: behind columns
it counts as no list, and on a line of its own it is not seen. -/
theorem printed_references_read {indicator : Bool} {lead : Option Char}
    (hlead : lead.isSome = indicator) (hfree : '\n' ∉ lead.toList) {rs : List Reference}
    (hrs : ∀ r ∈ rs, r.Valid) :
    readAll (printAll rs) = rs ∧
    (∀ (e : EntryColumns), e.Valid → ∀ k : ℕ,
      (∀ name : Text, name ≠ [] → name.length ≤ 8 → (∀ c ∈ name, isSymbolChar c) → 0 < k →
        crossReference? indicator (lead.toList ++ entryLine name k e rs) =
          if name.head?.any Char.isDigit then none
          else some (.entry name (e.fields (if isLoneDigit rs then [] else printAll rs)))) ∧
      (9 ≤ k → crossReference? indicator (lead.toList ++ entryLine [] k e rs) =
        some (.deferred (e.fields (if isLoneDigit rs then [] else printAll rs))))) ∧
    (rs ≠ [] → ∀ k, 60 ≤ k → crossReference? indicator (lead.toList ++ moreLine k rs) =
      if isLoneDigit rs then none else some (.more (printAll rs))) := by
  simp only [crossReference?_lead hlead hfree]
  refine ⟨readAll_printAll hrs, ?_, fun hne k hk => read?_moreLine hrs hne hk⟩
  intro e he k
  refine ⟨?_, fun hk => read?_deferred hrs he hk⟩
  intro name hne hlen hall hk
  split
  case isTrue hd => exact read?_digit_name hd k e rs
  case isFalse hd => exact read?_entryLine hrs he hne hlen hall hd hk

/-- An entry at statement 1, with nothing in the columns that are not read. -/
def plainColumns : EntryColumns where
  length := ['1']
  value := 0
  sectionId := 1
  relocation := ' '
  typeLeft := [' ', ' ']
  typeFlag := 'A'
  typeRight := ' '
  assembler := ['A', ' ', ' ']
  program := List.replicate 7 ' '
  gap := 6
  definedAt := ['1']

theorem plainColumns_valid : plainColumns.Valid where
  length := ⟨by decide, List.all_eq_true.mp (by decide)⟩
  free := by decide
  widths := rfl
  gap := by decide
  definedAt := ⟨by decide, List.all_eq_true.mp (by decide)⟩
  number := by decide

theorem printed_references_read_plainColumns :
    (∀ r ∈ [⟨4, none⟩, ⟨12, some 'M'⟩], Reference.Valid r) ∧
    crossReference? true ('0' :: entryLine ['A'] 8 plainColumns [⟨4, none⟩, ⟨12, some 'M'⟩]) =
      some (.entry ['A'] (plainColumns.fields "4 12M".toList)) ∧
    crossReference? true ('0' :: entryLine [] 9 plainColumns [⟨4, none⟩, ⟨12, some 'M'⟩]) =
      some (.deferred (plainColumns.fields "4 12M".toList)) ∧
    crossReference? true ('0' :: moreLine 60 [⟨4, none⟩, ⟨12, some 'M'⟩]) =
      some (.more "4 12M".toList) ∧
    readAll "4 12M".toList = [⟨4, none⟩, ⟨12, some 'M'⟩] := by
  have hrs : ∀ r ∈ [⟨4, none⟩, ⟨12, some 'M'⟩], Reference.Valid r := by
    rintro r (_ | ⟨_, _ | ⟨_, hr⟩⟩)
    · exact ⟨by decide, by simp⟩
    · exact ⟨by decide, by simp; decide⟩
    · cases hr
  have hlead : '\n' ∉ (some '0').toList := by decide
  obtain ⟨hread, hlines, hmore⟩ := printed_references_read rfl hlead hrs
  exact ⟨hrs, (hlines plainColumns plainColumns_valid 8).1 ['A'] (by decide) (by decide)
    (List.all_eq_true.mp (by decide)) (by decide),
    (hlines plainColumns plainColumns_valid 9).2 (by decide), hmore (by decide) 60 (by decide), hread⟩

/-- A reference need not be found where it is printed: a lone digit is not. -/
theorem lone_reference_lost : ¬ ∀ (rs : List Reference) (e : EntryColumns) (name : Text) (k : ℕ),
    (∀ r ∈ rs, r.Valid) → e.Valid → name ≠ [] → name.length ≤ 8 → (∀ c ∈ name, isSymbolChar c) →
    ¬ name.head?.any Char.isDigit → 0 < k →
    ∃ fields, crossReference? false (entryLine name k e rs) = some (.entry name fields) ∧
      readAll fields.references = rs := by
  intro hall
  have hrs : ∀ r ∈ [⟨4, none⟩], Reference.Valid r := by
    rintro r (_ | ⟨_, hr⟩)
    · exact ⟨by decide, by simp⟩
    · cases hr
  have hname : ∀ c ∈ ['A'], isSymbolChar c := List.all_eq_true.mp (by decide)
  obtain ⟨fields, hf, hr⟩ := hall [⟨4, none⟩] plainColumns ['A'] 8 hrs plainColumns_valid
    (by decide) (by decide) hname (by decide) (by decide)
  have hread : crossReference? false (entryLine ['A'] 8 plainColumns [⟨4, none⟩]) =
      some (.entry ['A'] (plainColumns.fields [])) :=
    read?_entryLine (k := 8) hrs plainColumns_valid (by decide) (by decide) hname (by decide)
      (by decide)
  rw [hread] at hf
  cases hf
  cases hr

end ListingIndex.Line.CrossReference
