import Mathlib
import ListingIndex.Proofs.TableChanges

/-! Symbol tables as maps of unions. Whatever changes make a table, it holds one symbol for each name,
in the order in which the names first came, and the symbol unites what the changes tell of the name.
A merge always tells something; a symbol that is put in if new tells something only where it comes
first. -/
namespace ListingIndex
open Line Text

/-- Texts that differ at most in the case of the letters `a` to `z`. -/
def Text.SameButCase : Text → Text → Prop :=
  List.Forall₂ fun c d => c = d ∨ c.toUpper = d ∨ c = d.toUpper

theorem Text.canonical_canonical (name : Text) : canonical (canonical name) = canonical name := by
  simp [canonical, Function.comp_def, Char.toUpper_toUpper_eq_toUpper]

theorem Text.SameButCase.canonical_eq {a b : Text} (h : a.SameButCase b) : canonical a = canonical b := by
  unfold canonical
  induction h with
  | nil => rfl
  | cons hcd _ ih =>
    rw [List.map_cons, List.map_cons, ih]
    rcases hcd with rfl | rfl | rfl
    · rfl
    · rw [Char.toUpper_toUpper_eq_toUpper]
    · rw [Char.toUpper_toUpper_eq_toUpper]

namespace Symbol

/-- Symbols as they are built from a name, one definition, reference list or column entry after the
other. A label is a name with one definition. -/
inductive Built : Symbol → Prop
  | ofName (name : Text) : Built (.ofName name)
  | define {s : Symbol} (h : Built s) (statement : ℕ) : Built (s.define statement)
  | addReferences {s : Symbol} (h : Built s) (list : Text) : Built (s.addReferences list)
  | withDetails {s : Symbol} (h : Built s) (details : SymbolDetails) : Built (s.withDetails details)

theorem Built.label (name : Text) (statement : ℕ) : Built (.label name statement) :=
  (Built.ofName name).define statement

theorem addReferences_eq (s : Symbol) (list : Text) :
    s.addReferences list =
      { s with
        references := s.references.insertAll ((Reference.readAll list).map (·.statement))
        pureReferences := s.pureReferences.insertAll
          (((Reference.readAll list).filter (·.isPure)).map (·.statement)) } :=
  foldl_addReference _ _

theorem Built.canonical_name {s : Symbol} (h : s.Built) : canonical s.name = s.name := by
  induction h with
  | ofName name => exact canonical_canonical name
  | define _ _ ih => exact ih
  | addReferences _ list ih =>
    rw [addReferences_eq]
    exact ih
  | withDetails _ _ ih => exact ih

theorem Built.pure_subset {s : Symbol} (h : s.Built) : ∀ n ∈ s.pureReferences, n ∈ s.references := by
  induction h with
  | ofName name =>
    intro n hn
    exact absurd hn (NumberSet.not_mem_empty n)
  | define _ _ ih => exact ih
  | @addReferences s _ list ih =>
    intro n hn
    rw [addReferences_eq] at hn ⊢
    rcases NumberSet.mem_insertAll.mp hn with hn | hn
    · exact NumberSet.mem_insertAll.mpr (Or.inl (ih n hn))
    · obtain ⟨r, hr, rfl⟩ := List.mem_map.mp hn
      exact NumberSet.mem_insertAll.mpr (Or.inr (List.mem_map_of_mem (List.mem_of_mem_filter hr)))
  | withDetails _ _ ih => exact ih

/-- A symbol unites others: it has all their statements, and the first details among theirs. -/
structure Unites (s : Symbol) (ts : List Symbol) : Prop where
  defined : ∀ n, n ∈ s.defined ↔ ∃ t ∈ ts, n ∈ t.defined
  references : ∀ n, n ∈ s.references ↔ ∃ t ∈ ts, n ∈ t.references
  pureReferences : ∀ n, n ∈ s.pureReferences ↔ ∃ t ∈ ts, n ∈ t.pureReferences
  details : s.details = ts.findSome? (·.details)

theorem name_foldl_merge (ts : List Symbol) (s : Symbol) : (ts.foldl merge s).name = s.name := by
  induction ts using List.reverseRecOn with
  | nil => rfl
  | append_singleton ts t ih =>
    rw [List.foldl_concat]
    exact ih

section
variable {ts : List Symbol} {s : Symbol} (h : mergeAll? ts = some s)
include h

theorem details_mergeAll? : s.details = ts.findSome? (·.details) := by
  induction ts using List.reverseRecOn generalizing s with
  | nil => cases h
  | append_singleton ts t ih =>
    rw [mergeAll?_concat] at h
    have ht : [t].findSome? (·.details) = t.details := by
      cases hd : t.details <;> simp [hd]
    rw [List.findSome?_append, ht]
    cases hs : mergeAll? ts with
    | none =>
      rw [hs] at h
      obtain rfl := Option.some.inj h
      rw [mergeAll?_eq_none_iff.mp hs]
      rfl
    | some u =>
      rw [hs] at h
      obtain rfl := Option.some.inj h
      rw [← ih hs]
      rfl

theorem name_mergeAll? {name : Text} (hn : ∀ t ∈ ts, t.name = name) : s.name = name := by
  cases ts with
  | nil => cases h
  | cons t ts =>
    obtain rfl := Option.some.inj h
    rw [name_foldl_merge]
    exact hn t (by simp)

theorem unites_mergeAll? : s.Unites ts :=
  ⟨fun _ => mem_mergeAll? (fun _ _ => rfl) h, fun _ => mem_mergeAll? (fun _ _ => rfl) h,
    fun _ => mem_mergeAll? (fun _ _ => rfl) h, details_mergeAll? h⟩

end

/-- The statements of a symbol, each kind for itself. -/
def sets (s : Symbol) : NumberSet × NumberSet × NumberSet := (s.defined, s.references, s.pureReferences)

theorem Unites.sets_eq {s t : Symbol} {ss ts : List Symbol} (hs : s.Unites ss) (ht : t.Unites ts)
    (hm : ∀ u, u ∈ ss ↔ u ∈ ts) : s.sets = t.sets := by
  have hd : s.defined = t.defined := NumberSet.ext fun n => by
    rw [hs.defined, ht.defined]
    simp only [hm]
  have hr : s.references = t.references := NumberSet.ext fun n => by
    rw [hs.references, ht.references]
    simp only [hm]
  have hp : s.pureReferences = t.pureReferences := NumberSet.ext fun n => by
    rw [hs.pureReferences, ht.pureReferences]
    simp only [hm]
  rw [sets, sets, hd, hr, hp]

end Symbol

theorem name_of_mem_tellings {name : Text} {cs : List TableChange} {s : Symbol}
    (h : s ∈ tellings name cs) : s.name = name := by
  obtain ⟨c, hc, rfl⟩ := TableChange.mem_of_mem_counted h
  simpa using List.of_mem_filter hc

/-- Where all changes are merges, all of them count. -/
theorem TableChange.mem_counted_of_merges {cs : List TableChange} (hc : ∀ c ∈ cs, ∃ s, c = .merge s)
    {s : Symbol} : s ∈ counted cs ↔ .merge s ∈ cs := by
  constructor
  · intro h
    obtain ⟨c, hm, rfl⟩ := mem_of_mem_counted h
    obtain ⟨t, rfl⟩ := hc c hm
    exact hm
  · intro h
    cases cs with
    | nil => cases h
    | cons b rest =>
      rcases List.mem_cons.mp h with rfl | h
      · exact List.mem_cons_self
      · exact List.mem_cons_of_mem _ (List.mem_filterMap.mpr ⟨.merge s, h, rfl⟩)

theorem mem_tellings_of_merges {cs : List TableChange} (hc : ∀ c ∈ cs, ∃ s, c = .merge s)
    {name : Text} {s : Symbol} : s ∈ tellings name cs ↔ .merge s ∈ cs ∧ s.name = name := by
  rw [tellings, TableChange.mem_counted_of_merges fun b hb => hc b (List.mem_of_mem_filter hb),
    List.mem_filter, decide_eq_true_eq]
  rfl

namespace SymbolTable

/-- The table that changes make. -/
def ofChanges (cs : List TableChange) : SymbolTable := cs.foldl apply .empty

theorem ofChanges_concat (cs : List TableChange) (c : TableChange) :
    ofChanges (cs ++ [c]) = (ofChanges cs).apply c :=
  List.foldl_concat ..

theorem keys_apply (t : SymbolTable) (c : TableChange) :
    (t.apply c).keys = if c.symbol.name ∈ t.keys then t.keys else t.keys ++ [c.symbol.name] := by
  by_cases hk : c.symbol.name ∈ t.keys
  · rw [if_pos hk]
    cases c with
    | merge s => exact (Dictionary.keys_update t s.name _).trans (if_pos hk)
    | insertIfNew s => exact congrArg Dictionary.keys (Dictionary.insertIfNew_of_mem hk s)
  · rw [if_neg hk]
    cases c with
    | merge s => exact (Dictionary.keys_update t s.name _).trans (if_neg hk)
    | insertIfNew s =>
      have hi : t.insertIfNew s = t.insert s.name s := Dictionary.insertIfNew_of_not_mem hk s
      rw [apply, hi]
      exact (Dictionary.keys_insert t s.name s).trans (if_neg hk)

theorem keys_ofChanges (cs : List TableChange) :
    (ofChanges cs).keys = (cs.map (·.symbol.name)).eraseDups := by
  induction cs using List.reverseRecOn with
  | nil => rfl
  | append_singleton cs c ih =>
    rw [ofChanges_concat, keys_apply, ih, List.map_append, List.eraseDups_append]
    by_cases hm : c.symbol.name ∈ cs.map (·.symbol.name)
    · rw [if_pos (List.mem_eraseDups.mpr hm)]
      simp [List.removeAll, List.mem_map.mp hm]
    · rw [if_neg (mt List.mem_eraseDups.mp hm)]
      simp [List.removeAll, mt List.mem_map.mpr hm, List.eraseDups_cons]

theorem nodup_keys_ofChanges (cs : List TableChange) : (ofChanges cs).keys.Nodup := by
  induction cs using List.reverseRecOn with
  | nil => exact List.nodup_nil
  | append_singleton cs c ih =>
    rw [ofChanges_concat, keys_apply]
    split
    · exact ih
    · rename_i hn
      exact List.nodup_append.mpr ⟨ih, List.nodup_singleton _, fun a ha b hb he =>
        hn (List.mem_singleton.mp hb ▸ he ▸ ha)⟩

section
variable (cs : List TableChange)

theorem mem_keys_ofChanges {name : Text} :
    name ∈ (ofChanges cs).keys ↔ name ∈ cs.map (·.symbol.name) := by
  rw [keys_ofChanges, List.mem_eraseDups]

/-- The entry of a name is what the changes tell of it. -/
theorem mergeAll?_of_mem_entries {e : Text × Symbol} (he : e ∈ (ofChanges cs).entries) :
    Symbol.mergeAll? (tellings e.1 cs) = some e.2 := by
  rw [← find?_foldl_apply]
  exact Dictionary.find?_of_mem_entries (nodup_keys_ofChanges cs) he

theorem lookup_eq_none_iff (name : Text) :
    lookup (ofChanges cs) name = none ↔ canonical name ∉ cs.map (·.symbol.name) := by
  rw [lookup, Dictionary.find?_eq_none_iff, mem_keys_ofChanges]

/-- Merges tell the same in every order. -/
theorem sets_lookup_perm {cs ds : List TableChange} (hc : ∀ c ∈ cs, ∃ s, c = .merge s)
    (hp : cs.Perm ds) (name : Text) :
    (lookup (ofChanges cs) name).map Symbol.sets = (lookup (ofChanges ds) name).map Symbol.sets := by
  have hd : ∀ d ∈ ds, ∃ s, d = .merge s := fun d h => hc d (hp.mem_iff.mpr h)
  have hm : ∀ u, u ∈ tellings (canonical name) cs ↔ u ∈ tellings (canonical name) ds := by
    intro u
    rw [mem_tellings_of_merges hc, mem_tellings_of_merges hd, hp.mem_iff]
  have hnil : tellings (canonical name) cs = [] ↔ tellings (canonical name) ds = [] := by
    simp only [List.eq_nil_iff_forall_not_mem, hm]
  rw [lookup, lookup, ofChanges, ofChanges, find?_foldl_apply, find?_foldl_apply]
  cases hs : Symbol.mergeAll? (tellings (canonical name) cs) with
  | none =>
    rw [hnil.mp (Symbol.mergeAll?_eq_none_iff.mp hs)]
    rfl
  | some s =>
    cases ht : Symbol.mergeAll? (tellings (canonical name) ds) with
    | none =>
      rw [hnil.mpr (Symbol.mergeAll?_eq_none_iff.mp ht)] at hs
      cases hs
    | some t =>
      have he := (Symbol.unites_mergeAll? hs).sets_eq (Symbol.unites_mergeAll? ht) hm
      rw [Option.map_some, Option.map_some, he]

end

/-- A table that changes make holds one symbol for each name, under the name in upper case and in the
order in which the names first came. The symbol unites the first change of its name and all merges
behind it, and it is found under its name in any case. A symbol whose name is there is not put in
again. Merges give the same statements in every order. -/
theorem ofChanges_unites (cs : List TableChange) (hb : ∀ c ∈ cs, c.symbol.Built) :
    let t := ofChanges cs
    let names := cs.map (·.symbol.name)
    t.keys.Nodup ∧ t.keys = names.eraseDups ∧
    (∀ e ∈ t.entries, canonical e.1 = e.1 ∧ e.2.name = e.1 ∧ e.2.Unites (tellings e.1 cs) ∧
      ∀ n ∈ e.2.pureReferences, n ∈ e.2.references) ∧
    (∀ s : Symbol, s.Built → (t.isNew s.name = false ↔ s.name ∈ names) ∧
      (s.name ∈ names → t.insertIfNew s = t)) ∧
    (∀ e ∈ t.entries, t.lookup e.1 = some e.2) ∧
    (∀ name, t.lookup name = none ↔ canonical name ∉ names) ∧
    (∀ a b, a.SameButCase b → t.lookup a = t.lookup b) ∧
    ((∀ c ∈ cs, ∃ s, c = .merge s) → ∀ ds, cs.Perm ds → ∀ name,
      (t.lookup name).map Symbol.sets = (lookup (ofChanges ds) name).map Symbol.sets) := by
  intro t names
  have hnamed : ∀ e ∈ t.entries, canonical e.1 = e.1 := by
    intro e he
    obtain ⟨c, hc, hn⟩ := List.mem_map.mp ((mem_keys_ofChanges cs).mp (List.mem_map_of_mem he))
    rw [← hn]
    exact (hb c hc).canonical_name
  refine ⟨nodup_keys_ofChanges cs, keys_ofChanges cs, ?_, ?_, ?_, lookup_eq_none_iff cs, ?_, ?_⟩
  · intro e he
    have hm := mergeAll?_of_mem_entries cs he
    have hu := Symbol.unites_mergeAll? hm
    refine ⟨hnamed e he, Symbol.name_mergeAll? hm fun s hs => name_of_mem_tellings hs, hu, ?_⟩
    intro n hn
    obtain ⟨s, hs, hsn⟩ := (hu.pureReferences n).mp hn
    obtain ⟨c, hc, rfl⟩ := mem_of_mem_tellings hs
    exact (hu.references n).mpr ⟨c.symbol, hs, (hb c hc).pure_subset n hsn⟩
  · intro s hs
    refine ⟨?_, fun hn => Dictionary.insertIfNew_of_mem ((mem_keys_ofChanges cs).mpr hn) s⟩
    rw [isNew, Option.isNone_eq_false_iff, Option.isSome_iff_ne_none, ne_eq, lookup_eq_none_iff,
      hs.canonical_name, not_not]
  · intro e he
    rw [lookup, hnamed e he]
    exact Dictionary.find?_of_mem_entries (nodup_keys_ofChanges cs) he
  · intro a b hab
    rw [lookup, lookup, hab.canonical_eq]
  · intro hc ds hp name
    exact sets_lookup_perm hc hp name

end SymbolTable

/-- A symbol that comes in three spellings, the first time as a label that is new, with another one in
between. -/
def spelledChanges : List TableChange :=
  [.insertIfNew (.label "Work".toList 4),
    .merge ((Symbol.ofName "B".toList).addReferences "7".toList),
    .merge ((Symbol.label "WORK".toList 2).addReferences "9 11U".toList),
    .insertIfNew (.label "work".toList 5),
    .merge ((Symbol.label "wOrk".toList 2).withDetails (.ofDsect (-1)))]

theorem spelledChanges_built : ∀ c ∈ spelledChanges, c.symbol.Built := by
  simp only [spelledChanges, List.forall_mem_cons, List.not_mem_nil, false_imp_iff, implies_true, and_true]
  exact ⟨.label _ _, (Symbol.Built.ofName _).addReferences _, (Symbol.Built.label _ _).addReferences _,
    .label _ _, (Symbol.Built.label _ _).withDetails _⟩

theorem ofChanges_unites_spelledChanges :
    let t := SymbolTable.ofChanges spelledChanges
    (∀ c ∈ spelledChanges, c.symbol.Built) ∧ t.keys = ["WORK".toList, "B".toList] ∧
    t.lookup "work".toList = t.lookup "WORK".toList ∧
    ((t.lookup "WORK".toList).map fun s => (s.defined.toList, s.references.toList,
      s.pureReferences.toList, s.details)) = some ([2, 4], [9, 11], [9], some (.ofDsect (-1))) ∧
    t.insertIfNew (.label "work".toList 5) = t := by
  intro t
  have hb := spelledChanges_built
  obtain ⟨-, hk, -, hi, -, -, hc, -⟩ := SymbolTable.ofChanges_unites spelledChanges hb
  refine ⟨hb, hk.trans ?_, hc _ _ ?_, ?_, (hi _ (.label _ _)).2 ?_⟩
  · decide +kernel
  · simp [Text.SameButCase]
  · decide +kernel
  · decide +kernel

end ListingIndex
