import Mathlib
import ListingIndex.Proofs.CutNames
import ListingIndex.Proofs.SymbolUnions

/-! Names outside the source columns. A cursor stands between two bytes of a line in UTF-8, and the name
it finds is the text of the longest stretch of symbol bytes on both sides of it. A byte of a longer
character is never a symbol byte, so that such a stretch starts and ends with whole characters. -/
namespace ListingIndex
open Text

namespace Text

/-- The bytes of a text in UTF-8. -/
def bytes (s : Text) : List UInt8 := s.flatMap String.utf8EncodeChar

def isSymbolByte (b : UInt8) : Bool := isSymbolChar (Char.ofUInt8 b)

def isSymbolByteAt (s : Text) (k : ℕ) : Bool := s.bytes[k]?.any isSymbolByte

/-- A token is the part of a line from byte `s` up to byte `e`, and no character is cut there. -/
def StandsIn (token line : Text) (s e : ℕ) : Prop :=
  ∃ before after, line = before ++ token ++ after ∧ before.bytes.length = s ∧
    (before ++ token).bytes.length = e

theorem StandsIn.ne_nil {token line : Text} {s e : ℕ} (h : token.StandsIn line s e) (hlt : s < e) :
    token ≠ [] := by
  rintro rfl
  obtain ⟨before, after, -, hs, he⟩ := h
  rw [List.append_nil] at he
  omega

theorem le_toNat_of_mem_utf8EncodeChar {c : Char} (hc : c.utf8Size ≠ 1) {b : UInt8}
    (hb : b ∈ String.utf8EncodeChar c) : 128 ≤ b.toNat := by
  have hor : ∀ x y : UInt8, 128 ≤ y.toNat → 128 ≤ (x ||| y).toNat := by
    intro x y hy
    rw [UInt8.toNat_or]
    exact hy.trans Nat.right_le_or
  rcases c.utf8Size_eq with h | h | h | h
  · exact absurd h hc
  · rw [String.utf8EncodeChar_eq_cons_cons h] at hb
    simp only [List.mem_cons, List.not_mem_nil, or_false] at hb
    rcases hb with rfl | rfl <;> exact hor _ _ (by decide)
  · rw [String.utf8EncodeChar_eq_cons_cons_cons h] at hb
    simp only [List.mem_cons, List.not_mem_nil, or_false] at hb
    rcases hb with rfl | rfl | rfl <;> exact hor _ _ (by decide)
  · rw [String.utf8EncodeChar_eq_cons_cons_cons_cons h] at hb
    simp only [List.mem_cons, List.not_mem_nil, or_false] at hb
    rcases hb with rfl | rfl | rfl | rfl <;> exact hor _ _ (by decide)

theorem lt_of_isSymbolByte {b : UInt8} (h : isSymbolByte b) : b.toNat < 128 := by
  have hlt := Token.toNat_lt_of_isSymbolChar h
  rwa [Char.toNat, Char.ofUInt8, UInt8.toNat_toUInt32] at hlt

theorem ofUInt8_toUInt8 {c : Char} (h : c.utf8Size = 1) : Char.ofUInt8 c.val.toUInt8 = c := by
  have hle : c.val.toNat ≤ 127 := UInt32.le_iff_toNat_le.mp (Char.utf8Size_eq_one_iff.mp h)
  apply Char.ext
  apply UInt32.toNat_inj.mp
  rw [Char.ofUInt8, UInt8.toNat_toUInt32, UInt32.toNat_toUInt8]
  omega

/-- The cells of a row show which bytes are symbol bytes. -/
theorem map_isSymbolByte_bytes (s : Text) :
    s.bytes.map isSymbolByte = (cells s).map isSymbolCell := by
  rw [bytes, cells, List.map_flatMap, List.map_flatMap]
  refine List.flatMap_congr fun c _ => ?_
  by_cases hc : c.utf8Size = 1
  · rw [String.utf8EncodeChar_eq_singleton hc, if_pos hc, List.map_singleton, List.map_singleton,
      isSymbolByte, ofUInt8_toUInt8 hc, isSymbolCell]
  · rw [if_neg hc, List.map_replicate, ← String.length_utf8EncodeChar]
    refine List.eq_replicate_iff.mpr ⟨List.length_map _, fun x hx => ?_⟩
    obtain ⟨b, hb, rfl⟩ := List.mem_map.mp hx
    have hge := le_toNat_of_mem_utf8EncodeChar hc hb
    have hlt : ¬ isSymbolByte b := fun h => absurd (lt_of_isSymbolByte h) (by omega)
    simpa [isSymbolCell] using hlt

theorem length_bytes (s : Text) : s.bytes.length = (cells s).length := by
  simpa using congrArg List.length (map_isSymbolByte_bytes s)

theorem isSymbolByteAt_eq (s : Text) (k : ℕ) : s.isSymbolByteAt k = Token.isSymbolAt (cells s) k := by
  have h := congrArg (fun l => l[k]?.any id) (map_isSymbolByte_bytes s)
  simp only [List.getElem?_map, Option.any_map, id] at h
  exact h

theorem cells_of_symbols {s : Text} (h : ∀ c ∈ s, isSymbolChar c) : cells s = s.map some := by
  induction s with
  | nil => rfl
  | cons c s ih =>
    rw [cells_cons (Token.toNat_lt_of_isSymbolChar (h c (by simp))), ih fun d hd => h d (by simp [hd])]
    rfl

/-- A symbol byte is the first byte of a character. -/
theorem exists_append_of_isSymbolAt {line : Text} {s : ℕ} (h : Token.isSymbolAt (cells line) s) :
    ∃ before after, line = before ++ after ∧ (cells before).length = s := by
  induction line generalizing s with
  | nil => cases h
  | cons c line ih =>
    have hcells : ∀ t, cells (c :: t) = cells [c] ++ cells t := cells_append [c]
    by_cases hs : (cells [c]).length ≤ s
    · rw [hcells, Token.isSymbolAt, List.getElem?_append_right hs] at h
      obtain ⟨before, after, rfl, hlen⟩ := ih h
      refine ⟨c :: before, after, rfl, ?_⟩
      rw [hcells, List.length_append, hlen]
      omega
    · rw [hcells, Token.isSymbolAt, List.getElem?_append_left (Nat.lt_of_not_le hs)] at h
      refine ⟨[], c :: line, rfl, ?_⟩
      by_cases hc : c.utf8Size = 1
      · simp only [cells, List.flatMap_singleton, if_pos hc, List.length_singleton] at hs
        simp only [cells, List.flatMap_nil, List.length_nil]
        omega
      · -- the bytes of a longer character show nothing
        simp only [cells, List.flatMap_singleton, if_neg hc, List.length_replicate] at h hs
        rw [List.getElem?_replicate_of_lt (Nat.lt_of_not_le hs)] at h
        cases h

end Text

namespace Token

/-- A stretch of symbol bytes of a line, from the first column of the interval up to the last, that a
cursor in column `c` stands in or at an end of. Columns in front of `first` do not count. -/
structure Around (line : Text) (first c : ℕ) (i : NonemptyInterval ℕ) : Prop where
  first_le : first ≤ i.fst
  mem : c ∈ i
  symbols : ∀ k, i.fst ≤ k → k < i.snd → line.isSymbolByteAt k

section
variable {line : Text} {first c : ℕ} {i j : NonemptyInterval ℕ}

theorem Around.isSymbolAt (h : Around line first c i) :
    ∀ k, i.fst ≤ k → k < i.snd → isSymbolAt (cells line) k := by
  intro k h₁ h₂
  rw [← isSymbolByteAt_eq]
  exact h.symbols k h₁ h₂

theorem Around.sup (hi : Around line first c i) (hj : Around line first c j) :
    Around line first c (i ⊔ j) := by
  have hci := NonemptyInterval.mem_def.mp hi.mem
  have hcj := NonemptyInterval.mem_def.mp hj.mem
  refine ⟨le_min hi.first_le hj.first_le, ?_, fun k h₁ h₂ => ?_⟩
  · rw [NonemptyInterval.mem_def, NonemptyInterval.fst_sup, NonemptyInterval.snd_sup]
    exact ⟨min_le_of_left_le hci.1, le_max_of_le_left hci.2⟩
  · rw [NonemptyInterval.fst_sup] at h₁
    rw [NonemptyInterval.snd_sup] at h₂
    -- both stretches reach the cursor, so one of them holds column `k`
    by_cases hk : i.fst ≤ k ∧ k < i.snd
    · exact hi.symbols k hk.1 hk.2
    · exact hj.symbols k (by omega) (by omega)

theorem eq_of_maximal (hi : Maximal (Around line first c) i) (hj : Maximal (Around line first c) j) :
    i = j := by
  have hsup := hi.prop.sup hj.prop
  exact (hi.eq_of_le hsup le_sup_left).trans (hj.eq_of_le hsup le_sup_right).symm

/-- The runs on both sides of a cursor are the longest stretch around it. -/
theorem maximal_of_runs {s e : ℕ} (hs : RunBefore (cells line) first s c)
    (he : RunFrom (cells line) c e (cells line).length) :
    Maximal (Around line first c) ⟨(s, e), hs.le.trans he.le⟩ := by
  refine ⟨⟨hs.first_le, NonemptyInterval.mem_def.mpr ⟨hs.le, he.le⟩, fun k h₁ h₂ => ?_⟩, ?_⟩
  · rw [isSymbolByteAt_eq]
    rcases Nat.lt_or_ge k c with hk | hk
    · exact hs.symbols k h₁ hk
    · exact (he.symbols k hk h₂).2
  · intro j hj _
    have hc := NonemptyInterval.mem_def.mp hj.mem
    have hfirst := hj.first_le
    have hle := hs.le
    have hge := he.le
    have hstart : s ≤ j.fst := by
      by_contra hlt
      exact hs.start.elim (by omega) (· (hj.isSymbolAt (s - 1) (by omega) (by omega)))
    have hstop : j.snd ≤ e := by
      by_contra hlt
      have hk : isSymbolAt (cells line) e := hj.isSymbolAt e (by omega) (by omega)
      exact he.ends.elim (Nat.not_le.mpr (isSymbolAt_lt hk)) (· hk)
    exact NonemptyInterval.le_def.mpr ⟨hstart, hstop⟩

theorem exists_maximal_around (line : Text) (hc : first ≤ c) :
    ∃ i, Maximal (Around line first c) i := by
  obtain ⟨s, hs⟩ := exists_runBefore (cells line) hc
  obtain ⟨e, he⟩ := exists_runFrom (cells line) c (cells line).length
  exact ⟨_, maximal_of_runs hs he⟩

/-- A cursor anywhere in a longest stretch, or at an end of it, has that stretch around it. -/
theorem maximal_around_of_mem (h : Maximal (Around line first c) i) {d : ℕ} (hd : d ∈ i) :
    Maximal (Around line first d) i := by
  refine ⟨⟨h.prop.first_le, hd, h.prop.symbols⟩, fun j hj hij => ?_⟩
  have hc := NonemptyInterval.mem_def.mp h.prop.mem
  have hle := NonemptyInterval.le_def.mp hij
  have hcj : c ∈ j := NonemptyInterval.mem_def.mpr ⟨hle.1.trans hc.1, hc.2.trans hle.2⟩
  exact h.le_of_ge ⟨hj.first_le, hcj, hj.symbols⟩ hij

section
variable (h : Maximal (Around line first c) i)
include h

theorem runs_of_maximal : RunBefore (cells line) first i.fst c ∧
    RunFrom (cells line) c i.snd (cells line).length := by
  have hc := NonemptyInterval.mem_def.mp h.prop.mem
  obtain ⟨s, hs⟩ := exists_runBefore (cells line) (h.prop.first_le.trans hc.1)
  obtain ⟨e, he⟩ := exists_runFrom (cells line) c (cells line).length
  obtain rfl := eq_of_maximal h (maximal_of_runs hs he)
  exact ⟨hs, he⟩

theorem inRow_of_maximal : inRow (cells line) first c = named (textIn (cells line) i.fst i.snd) := by
  obtain ⟨hs, he⟩ := runs_of_maximal h
  rw [inRow, hs.runBefore_eq, he.runFrom_eq, textIn_append hs.le he.le]

/-- The columns of a longest stretch hold whole characters. -/
theorem standsIn_of_maximal (hlt : i.fst < i.snd) :
    (textIn (cells line) i.fst i.snd).StandsIn line i.fst i.snd := by
  have hsymbols := h.prop.isSymbolAt
  have hrun : RunFrom (cells line) i.fst i.snd (cells line).length :=
    ⟨hlt.le, fun k h₁ h₂ => ⟨isSymbolAt_lt (hsymbols k h₁ h₂), hsymbols k h₁ h₂⟩,
      (runs_of_maximal h).2.ends⟩
  obtain ⟨before, after, hline, hbefore⟩ := exists_append_of_isSymbolAt (hsymbols _ le_rfl hlt)
  have hcells : cells line = cells before ++ cells after := by rw [hline, cells_append]
  have htoken : textIn (cells line) i.fst i.snd = after.takeWhile isSymbolChar := by
    rw [← hrun.runFrom_eq, runFrom, List.take_length, hcells, ← hbefore, List.drop_left,
      takeWhile_cells]
  have hwidth : (cells (after.takeWhile isSymbolChar)).length = i.snd - i.fst := by
    rw [cells_of_symbols fun c => List.mem_takeWhile_imp, List.length_map, ← htoken,
      length_textIn hsymbols]
  refine ⟨before, after.dropWhile isSymbolChar, ?_, ?_, ?_⟩
  · rw [htoken, List.append_assoc, List.takeWhile_append_dropWhile, hline]
  · rw [length_bytes, hbefore]
  · rw [length_bytes, htoken, cells_append, List.length_append, hbefore, hwidth]
    omega

end
end

/-! Which characters a name has -/

theorem isSymbolChar_of_mem_runFrom {row : List Cell} {start stop : ℕ} {c : Char}
    (h : c ∈ runFrom row start stop) : isSymbolChar c :=
  List.mem_takeWhile_imp (p := isSymbolCell) (List.reduceOption_mem_iff.mp h)

theorem isSymbolChar_of_mem_runBefore {row : List Cell} {first stop : ℕ} {c : Char}
    (h : c ∈ runBefore row first stop) : isSymbolChar c := by
  unfold runBefore at h
  split at h
  · exact List.mem_takeWhile_imp (p := isSymbolCell)
      (List.mem_reverse.mp (List.reduceOption_mem_iff.mp h))
  · cases h

theorem exists_run_inRow (row : List Cell) (first c : ℕ) :
    ∃ run, inRow row first c = named run ∧ ∀ d ∈ run, isSymbolChar d := by
  refine ⟨_, rfl, fun d hd => ?_⟩
  rcases List.mem_append.mp hd with hd | hd
  · exact isSymbolChar_of_mem_runBefore hd
  · exact isSymbolChar_of_mem_runFrom hd

theorem exists_run_inWindow (w : Window) (previous this next : List Cell) (c : ℕ) :
    ∃ run, inWindow w previous this next c = named run ∧ ∀ d ∈ run, isSymbolChar d := by
  refine ⟨_, rfl, fun d hd => ?_⟩
  simp only [List.mem_append, List.mem_ite_nil_right] at hd
  rcases hd with ((⟨-, hd⟩ | hd) | hd) | ⟨-, hd⟩
  · exact isSymbolChar_of_mem_runBefore hd
  · exact isSymbolChar_of_mem_runBefore hd
  · exact isSymbolChar_of_mem_runFrom hd
  · exact isSymbolChar_of_mem_runFrom hd

theorem named_spec {run name : Text} (h : named run = some name) (hs : ∀ c ∈ run, isSymbolChar c) :
    name ≠ [] ∧ (∀ c ∈ name, isSymbolChar c) ∧ canonical name = name := by
  rw [named, Option.ite_none_left_eq_some] at h
  obtain ⟨hne, hname⟩ := h
  obtain rfl := Option.some.inj hname
  refine ⟨by simpa [canonical] using hne, fun c hc => ?_, canonical_canonical run⟩
  obtain ⟨d, hd, rfl⟩ := List.mem_map.mp hc
  rw [isSymbolChar_toUpper]
  exact hs d hd

end Token

open Token

theorem Listing.nameAt?_of_maximal {l : Listing} {doc : Document} {o : Options} {p : Position}
    (hp : ¬ l.InWindow p) {i : NonemptyInterval ℕ}
    (hi : Maximal (Around (doc.line p.line) l.indicatorWidth p.character) i) :
    l.nameAt? doc o p = named (textIn (row doc p.line) i.fst i.snd) := by
  rw [nameAt?_eq_inRow hp]
  exact inRow_of_maximal hi

theorem Listing.exists_run_nameAt? (l : Listing) (doc : Document) (o : Options) (p : Position) :
    ∃ run, l.nameAt? doc o p = named run ∧ ∀ c ∈ run, isSymbolChar c := by
  by_cases hp : l.InWindow p
  · obtain ⟨left, right, hw, hb, hl, hr⟩ := hp
    rw [nameAt?_eq_inWindow hw hb hl hr]
    exact exists_run_inWindow _ _ _ _ _
  · rw [nameAt?_eq_inRow hp]
    exact exists_run_inRow _ _ _

/-- Outside the source columns a cursor that is not in the indicator column finds the text of the
longest stretch of symbol bytes around it, and every cursor in that stretch or at an end of it finds the
same. A name that is found anywhere has at least one character, all its characters are symbol
characters, and it is in upper case. -/
theorem nameAt?_whole (l : Listing) (doc : Document) (o : Options) :
    (∀ p : Position, ¬ l.InWindow p → l.indicatorWidth ≤ p.character →
      (∃! i, Maximal (Around (doc.line p.line) l.indicatorWidth p.character) i) ∧
      ∀ i, Maximal (Around (doc.line p.line) l.indicatorWidth p.character) i →
        (i.fst = i.snd → l.nameAt? doc o p = none) ∧
        (i.fst < i.snd → ∃ token, token.StandsIn (doc.line p.line) i.fst i.snd ∧
          l.nameAt? doc o p = some (canonical token)) ∧
        ∀ c ∈ i, ¬ l.InWindow ⟨p.line, c⟩ → l.nameAt? doc o ⟨p.line, c⟩ = l.nameAt? doc o p) ∧
    ∀ p name, l.nameAt? doc o p = some name →
      name ≠ [] ∧ (∀ c ∈ name, isSymbolChar c) ∧ canonical name = name := by
  refine ⟨fun p hp hc => ?_, fun p name hname => ?_⟩
  · obtain ⟨i, hi⟩ := exists_maximal_around (doc.line p.line) hc
    refine ⟨⟨i, hi, fun j hj => eq_of_maximal hj hi⟩, fun j hj => ⟨fun he => ?_, fun hlt => ?_, ?_⟩⟩
    · rw [Listing.nameAt?_of_maximal hp hj, textIn, slice_of_le he.ge]
      rfl
    · have htoken := standsIn_of_maximal hj hlt
      have hname := named_of_ne_nil (htoken.ne_nil hlt)
      exact ⟨_, htoken, (Listing.nameAt?_of_maximal hp hj).trans hname⟩
    · intro c hc hw
      have hj' : Maximal (Around (doc.line p.line) l.indicatorWidth c) j := maximal_around_of_mem hj hc
      rw [Listing.nameAt?_of_maximal hp hj]
      exact Listing.nameAt?_of_maximal hw hj'
  · obtain ⟨run, hrun, hsymbols⟩ := l.exists_run_nameAt? doc o p
    exact named_spec (hrun.symm.trans hname) hsymbols

/-- A name between two characters of two bytes, behind an indicator. -/
def accentedSample : Document := ⟨"sample", ["1é abc9ü".toList]⟩

theorem nameAt?_whole_accentedSample :
    let l := Listing.startingAt 0 true
    let line := accentedSample.line 0
    (¬ l.InWindow ⟨0, 6⟩ ∧ l.indicatorWidth ≤ 6) ∧
    Maximal (Around line l.indicatorWidth 6) ⟨(4, 8), by decide⟩ ∧
    (∃ token, token.StandsIn line 4 8 ∧
      l.nameAt? accentedSample .standard ⟨0, 6⟩ = some (canonical token)) ∧
    l.nameAt? accentedSample .standard ⟨0, 8⟩ = some "ABC9".toList ∧
    canonical "ABC9".toList = "ABC9".toList ∧
    l.nameAt? accentedSample .standard ⟨0, 2⟩ = none := by
  intro l line
  have hw : ∀ p, ¬ l.InWindow p := by
    rintro p ⟨left, right, h, -⟩
    cases h
  have hname : Maximal (Around line l.indicatorWidth 6) ⟨(4, 8), by decide⟩ :=
    maximal_of_runs ⟨by decide, by decide, by decide +kernel, by decide +kernel⟩
      ⟨by decide, by decide +kernel, by decide +kernel⟩
  have hnone : Maximal (Around line l.indicatorWidth 2) ⟨(2, 2), by decide⟩ :=
    maximal_of_runs ⟨by decide, by decide, by omega, by decide +kernel⟩
      ⟨by decide, by omega, by decide +kernel⟩
  obtain ⟨hplain, hall⟩ := nameAt?_whole l accentedSample .standard
  obtain ⟨-, htoken, hsame⟩ := (hplain ⟨0, 6⟩ (hw _) (by decide)).2 _ hname
  have hend : l.nameAt? accentedSample .standard ⟨0, 8⟩ = some "ABC9".toList := by
    rw [hsame 8 (NonemptyInterval.mem_def.mpr (by decide)) (hw _)]
    decide +kernel
  exact ⟨⟨hw _, by decide⟩, hname, htoken (by decide), hend, (hall _ _ hend).2.2,
    ((hplain ⟨0, 2⟩ (hw _) (by decide)).2 _ hnone).1 rfl⟩

end ListingIndex
