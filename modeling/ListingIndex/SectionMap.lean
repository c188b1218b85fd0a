import ListingIndex.CodeBlock
import ListingIndex.Collection.FloorMap
import ListingIndex.Symbol

/-! Which statements belong to control sections and which to dummy sections. A listing never says it
outright: clues at single statements decide there, and every statement without a clue goes with the
one before it. -/
namespace ListingIndex

/-- What points to the section of a statement. -/
inductive Clue where
  /-- A location counter is named. -/
  | counter (c : SectionClass)
  /-- A relocatable symbol is defined. -/
  | definition (c : SectionClass)
  /-- The statement stands first in a block of code. -/
  | blockStart (c : SectionClass)
  /-- The using map places the statement in a control section. -/
  | baseRegister
  /-- A section starts or resumes. -/
  | transition
deriving DecidableEq, Repr

/-- The clues at one statement, taken together. -/
structure Evidence where
  /-- Class that the latest decisive clue gave. -/
  decided : Option SectionClass
  /-- Symbols that point to a control section, and to a dummy section. -/
  control : Nat
  dummy : Nat
  /-- The location counter of a control section is named. -/
  counter : Bool
deriving DecidableEq, Repr

namespace Evidence

def none : Evidence := ⟨.none, 0, 0, false⟩

def count (e : Evidence) : SectionClass → Evidence
  | .control => { e with control := e.control + 1 }
  | .dummy => { e with dummy := e.dummy + 1 }

/-- The class that the symbols point to, if there is just one symbol. -/
def sole? (e : Evidence) : Option SectionClass :=
  match e.control, e.dummy with
  | 1, 0 => some .control
  | 0, 1 => some .dummy
  | _, _ => .none

def add (e : Evidence) : Clue → Evidence
  | .counter c => { e.count c with counter := e.counter || !c.isDummy }
  | .definition c => { e.count c with decided := some c }
  | .blockStart c => { e with decided := some c }
  | .baseRegister => { e with decided := some .control }
  | .transition => { e with decided := e.sole?.or e.decided }

/-- The class of a statement that follows one of class `previous`. -/
def classAfter (e : Evidence) (previous : Option SectionClass) : Option SectionClass :=
  e.decided.or (previous.map fun c => if e.counter then .control else c)

end Evidence

/-- Clues that a symbol gives, its named location counter first. -/
def Symbol.clues (s : Symbol) : List (Nat × Clue) :=
  match s.details with
  | none => []
  | some d =>
    (if d.locationCounter then s.pureReferences.toList.map (·, .counter d.sectionClass) else []) ++
    (if d.relocatable && !d.undefined then s.defined.toList.map (·, .definition d.sectionClass) else [])

def CodeBlock.clue? (b : CodeBlock) : Option (Nat × Clue) :=
  b.firstStatement.map (·, .blockStart b.sectionClass)

structure SectionMap where
  classes : FloorMap SectionClass
  /-- Statements from this one on have no class. -/
  size : Nat
deriving DecidableEq, Repr

namespace SectionMap

def unknown : SectionMap := ⟨.empty, 0⟩

def isEmpty (m : SectionMap) : Bool := m.size == 0

def get? (m : SectionMap) (statement : Nat) : Option SectionClass :=
  if statement < m.size then (m.classes.floor? statement).map (·.2) else none

def isControl (m : SectionMap) (statement : Nat) : Bool := m.get? statement == some .control

/-- All clues, the ones that overrule others later. -/
def clues (symbols : SymbolTable) (blocks : List CodeBlock) (baseRegisters transitions : List Nat) :
    List (Nat × Clue) :=
  symbols.values.flatMap Symbol.clues ++ blocks.filterMap CodeBlock.clue? ++
    baseRegisters.map (·, .baseRegister) ++ transitions.map (·, .transition)

def gather (clues : List (Nat × Clue)) : FloorMap Evidence :=
  clues.foldl (fun m c => m.update c.1 fun e => (e.getD .none).add c.2) .empty

/-- Puts the class of a statement on top of those of the statements before it. -/
def extend (e : Nat × Evidence) (classes : List (Nat × SectionClass)) : List (Nat × SectionClass) :=
  match e.2.classAfter (classes.head?.map (·.2)) with
  | some c => (e.1, c) :: classes
  | none => classes

theorem mem_of_mem_foldr_extend {l : List (Nat × Evidence)} {b : Nat × SectionClass}
    (h : b ∈ l.foldr extend []) : ∃ e ∈ l, e.1 = b.1 := by
  induction l with
  | nil => simp at h
  | cons e l ih =>
    rw [List.foldr_cons, extend] at h
    split at h
    · rcases List.mem_cons.mp h with rfl | h
      · exact ⟨e, by simp, rfl⟩
      · exact (ih h).imp fun _ hd => ⟨List.mem_cons_of_mem _ hd.1, hd.2⟩
    · exact (ih h).imp fun _ hd => ⟨List.mem_cons_of_mem _ hd.1, hd.2⟩

theorem foldr_extend_descending {l : List (Nat × Evidence)} (h : l.Pairwise fun a b => b.1 < a.1) :
    (l.foldr extend []).Pairwise fun a b => b.1 < a.1 := by
  induction l with
  | nil => simp
  | cons e l ih =>
    rw [List.pairwise_cons] at h
    rw [List.foldr_cons, extend]
    split
    · refine List.pairwise_cons.mpr ⟨fun b hb => ?_, ih h.2⟩
      obtain ⟨d, hd, he⟩ := mem_of_mem_foldr_extend hb
      exact he ▸ h.1 d hd
    · exact ih h.2

/-- Classes from evidence, the lowest statement first to be classified. -/
def fill (m : FloorMap Evidence) : FloorMap SectionClass :=
  ⟨m.entries.foldr extend [], foldr_extend_descending m.descending⟩

/-- Classifies the statements up to `last`. -/
def classify (last : Nat) (symbols : SymbolTable) (blocks : List CodeBlock)
    (baseRegisters transitions : List Nat) : SectionMap :=
  let inRange := (clues symbols blocks baseRegisters transitions).filter (·.1 ≤ last)
  ⟨fill (gather inRange), last + 1⟩

end SectionMap
end ListingIndex
