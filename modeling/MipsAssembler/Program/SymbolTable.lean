import MipsAssembler.Text.LetterCase

/-!
# Symbol tables

A symbol table binds label names to addresses.  Names differing only in the
case of ASCII letters are the same name.  The bindings are kept in ascending
order of the folded names, each name once, so that two tables with the same
bindings are equal.
-/

namespace MipsAssembler

/-- A finite map from folded names to addresses, in ascending order. -/
structure SymbolTable where
  entries : List (String × UInt32)
  /-- Each name is bound once, and the names ascend. -/
  ascending : entries.Pairwise fun first second => first.1 < second.1
  /-- Names are kept in lower case. -/
  folded : ∀ entry ∈ entries, Text.foldCase entry.1 = entry.1

namespace SymbolTable

@[ext]
theorem ext {first second : SymbolTable}
    (entriesEq : first.entries = second.entries) : first = second := by
  cases first
  cases second
  cases entriesEq
  rfl

instance : DecidableEq SymbolTable := fun first second =>
  decidable_of_iff (first.entries = second.entries)
    ⟨ext, fun equal => by rw [equal]⟩

/-! ## Insertion into an ascending list -/

/-- Put a binding into an ascending list, in place of one with its name. -/
def insertEntry (name : String) (address : UInt32) :
    List (String × UInt32) → List (String × UInt32)
  | [] => [(name, address)]
  | entry :: rest =>
      if name < entry.1 then
        (name, address) :: entry :: rest
      else if name = entry.1 then
        (name, address) :: rest
      else
        entry :: insertEntry name address rest

theorem mem_insertEntry {name : String} {address : UInt32}
    {entries : List (String × UInt32)} {entry : String × UInt32}
    (member : entry ∈ insertEntry name address entries) :
    entry = (name, address) ∨ entry ∈ entries := by
  induction entries with
  | nil => simpa [insertEntry] using member
  | cons head rest ih =>
      unfold insertEntry at member
      split at member
      · simpa using member
      split at member
      · simp only [List.mem_cons] at member ⊢
        exact member.imp_right .inr
      · simp only [List.mem_cons] at member ⊢
        rcases member with rfl | member
        · exact .inr (.inl rfl)
        · exact (ih member).imp_right .inr

theorem ascending_insertEntry {name : String} {address : UInt32}
    {entries : List (String × UInt32)}
    (ascending : entries.Pairwise fun first second => first.1 < second.1) :
    (insertEntry name address entries).Pairwise
      fun first second => first.1 < second.1 := by
  induction entries with
  | nil => simp [insertEntry]
  | cons head rest ih =>
      have below := (List.pairwise_cons.mp ascending).1
      have restAscending := (List.pairwise_cons.mp ascending).2
      unfold insertEntry
      split
      · next before =>
        refine List.pairwise_cons.mpr ⟨fun entry member => ?_, ascending⟩
        rcases List.mem_cons.mp member with rfl | member
        · exact before
        · exact String.lt_trans before (below entry member)
      split
      · next same =>
        refine List.pairwise_cons.mpr ⟨fun entry member => ?_, restAscending⟩
        exact same ▸ below entry member
      · next notBefore notSame =>
        refine List.pairwise_cons.mpr
          ⟨fun entry member => ?_, ih restAscending⟩
        rcases mem_insertEntry member with rfl | member
        · apply String.not_le.mp
          intro notAfter
          exact notSame
            (String.le_antisymm notAfter (String.not_lt.mp notBefore))
        · exact below entry member

theorem lookup_cons_entry (entry : String × UInt32)
    (rest : List (String × UInt32)) (name : String) :
    (entry :: rest).lookup name =
      if name = entry.1 then some entry.2 else rest.lookup name := by
  obtain ⟨key, value⟩ := entry
  by_cases same : name = key
  · simp [same]
  · simp [List.lookup_cons, beq_false_of_ne same, same]

theorem lookup_insertEntry (name : String) (address : UInt32)
    (entries : List (String × UInt32)) (other : String) :
    (insertEntry name address entries).lookup other =
      if other = name then some address else entries.lookup other := by
  induction entries with
  | nil => exact lookup_cons_entry _ _ _
  | cons head rest ih =>
      unfold insertEntry
      split
      · exact lookup_cons_entry _ _ _
      split
      · next same =>
        rw [lookup_cons_entry, lookup_cons_entry, ← same]
        split <;> rfl
      · next notSame =>
        rw [lookup_cons_entry, lookup_cons_entry, ih]
        split
        · next atHead => rw [if_neg (fun same => notSame (same.symm.trans atHead))]
        · rfl

/-! ## Operations -/

def empty : SymbolTable where
  entries := []
  ascending := .nil
  folded := by simp

instance : Inhabited SymbolTable := ⟨empty⟩

/-- Bind a name; a later binding of the same name replaces an earlier one. -/
def define (table : SymbolTable) (name : String) (address : UInt32) :
    SymbolTable where
  entries := insertEntry (Text.foldCase name) address table.entries
  ascending := ascending_insertEntry table.ascending
  folded := by
    intro entry member
    rcases mem_insertEntry member with rfl | member
    · exact Text.foldCase_foldCase name
    · exact table.folded entry member

/-- The address bound to a name. -/
def find? (table : SymbolTable) (name : String) : Option UInt32 :=
  table.entries.lookup (Text.foldCase name)

/-- The number of bound names. -/
def size (table : SymbolTable) : Nat :=
  table.entries.length

def isEmpty (table : SymbolTable) : Bool :=
  table.entries.isEmpty

/-- The table of a list of definitions, made in their order. -/
def ofList (definitions : List (String × UInt32)) : SymbolTable :=
  definitions.foldl
    (fun table definition => table.define definition.1 definition.2) empty

@[simp]
theorem find?_empty (name : String) : empty.find? name = none :=
  rfl

theorem find?_define (table : SymbolTable) (name : String) (address : UInt32)
    (other : String) :
    (table.define name address).find? other =
      if Text.foldCase other = Text.foldCase name then
        some address
      else
        table.find? other :=
  lookup_insertEntry _ _ _ _

end SymbolTable

end MipsAssembler
