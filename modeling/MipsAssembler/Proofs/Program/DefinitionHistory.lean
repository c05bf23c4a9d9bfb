import Mathlib.Data.Finset.Card
import MipsAssembler.Proofs.Program.SymbolTable
import MipsAssembler.Proofs.Text.ByteOrder

/-!
# Symbol tables and their definitions

A symbol table keeps of its definitions the last one of each folded name, and
nothing else.  So two histories make the same table if they end alike for each
name, and neighbours that define different names may change places.
-/

namespace MipsAssembler.SymbolTable

variable {definitions : List (String × UInt32)} {name : String}
  {address : UInt32}

/-! ## Last definitions -/

/-- The folded names that the definitions bind, in the order of the
definitions. -/
def definedNames (definitions : List (String × UInt32)) : List String :=
  definitions.map fun definition => Text.foldCase definition.1

/-- The last definition of the name, however it is spelled there, binds it to
the address. -/
def LastBinds (definitions : List (String × UInt32)) (name : String)
    (address : UInt32) : Prop :=
  ∃ before spelling after,
    definitions = before ++ (spelling, address) :: after ∧
      Text.foldCase spelling = Text.foldCase name ∧
      Text.foldCase name ∉ definedNames after

theorem exists_lastBinds
    (defined : Text.foldCase name ∈ definedNames definitions) :
    ∃ address, LastBinds definitions name address := by
  obtain ⟨before, last, after, split, same, isLast⟩ :=
    exists_last_of_exists_mem (List.mem_map.mp defined)
  refine ⟨last.2, before, last.1, after, split, same, fun member => ?_⟩
  obtain ⟨later, inAfter, laterSame⟩ := List.mem_map.mp member
  exact isLast later inAfter laterSame

theorem find?_foldl_define_of_absent {table : SymbolTable}
    (absent : Text.foldCase name ∉ definedNames definitions) :
    (definitions.foldl
      (fun table definition => table.define definition.1 definition.2)
      table).find? name = table.find? name := by
  induction definitions generalizing table with
  | nil => rfl
  | cons definition definitions ih =>
      rw [definedNames, List.map_cons, List.mem_cons, not_or] at absent
      rw [List.foldl_cons, ih absent.2, find?_define, if_neg absent.1]

theorem LastBinds.find?_ofList (binds : LastBinds definitions name address) :
    (ofList definitions).find? name = some address := by
  obtain ⟨before, spelling, after, rfl, same, isLast⟩ := binds
  rw [ofList, List.foldl_append, List.foldl_cons,
    find?_foldl_define_of_absent isLast, find?_define, if_pos same.symm]

theorem find?_ofList_eq_none_iff :
    (ofList definitions).find? name = none ↔
      Text.foldCase name ∉ definedNames definitions := by
  refine ⟨fun missing defined => ?_, find?_foldl_define_of_absent⟩
  obtain ⟨address, binds⟩ := exists_lastBinds defined
  rw [binds.find?_ofList] at missing
  cases missing

theorem find?_ofList_eq_some_iff :
    (ofList definitions).find? name = some address ↔
      LastBinds definitions name address := by
  refine ⟨fun found => ?_, LastBinds.find?_ofList⟩
  have defined : Text.foldCase name ∈ definedNames definitions := by
    by_contra absent
    rw [find?_ofList_eq_none_iff.mpr absent] at found
    cases found
  obtain ⟨last, binds⟩ := exists_lastBinds defined
  rw [binds.find?_ofList] at found
  obtain rfl := Option.some.inj found
  exact binds

/-! ## The names of a table -/

theorem mem_names_ofList_iff :
    name ∈ (ofList definitions).entries.map Prod.fst ↔
      name ∈ definedNames definitions := by
  rw [mem_names_iff, Option.isSome_iff_ne_none, ne_eq, find?_ofList_eq_none_iff,
    not_not]
  constructor
  · rintro ⟨folded, defined⟩
    rwa [folded] at defined
  · intro defined
    obtain ⟨definition, member, rfl⟩ := List.mem_map.mp defined
    rw [Text.foldCase_foldCase]
    exact ⟨rfl, defined⟩

theorem size_ofList (definitions : List (String × UInt32)) :
    (ofList definitions).size = (definedNames definitions).toFinset.card := by
  have sameNames : ((ofList definitions).entries.map Prod.fst).toFinset =
      (definedNames definitions).toFinset := by
    ext name
    rw [List.mem_toFinset, List.mem_toFinset, mem_names_ofList_iff]
  rw [← sameNames, List.toFinset_card_of_nodup (nodup_names _), List.length_map,
    size]

theorem isEmpty_ofList_iff :
    (ofList definitions).isEmpty = true ↔ definitions = [] := by
  rw [isEmpty, List.isEmpty_iff]
  constructor
  · intro noEntries
    cases definitions with
    | nil => rfl
    | cons definition later =>
        have defined : Text.foldCase definition.1 ∈
            definedNames (definition :: later) := List.mem_cons_self
        have listed := mem_names_ofList_iff.mpr defined
        rw [noEntries] at listed
        cases listed
  · rintro rfl
    rfl

/-! ## The table as a map -/

/-- The table is the finite map in which the definitions end: what is found in
it, what it lists and in which order, and how large it is. -/
structure Records (table : SymbolTable) (definitions : List (String × UInt32)) :
    Prop where
  find?_eq_some_iff : ∀ name address,
    table.find? name = some address ↔ LastBinds definitions name address
  find?_eq_none_iff : ∀ name,
    table.find? name = none ↔ Text.foldCase name ∉ definedNames definitions
  /-- Names are listed in the order of their bytes. -/
  ascending : table.entries.Pairwise fun first second =>
    Text.bytes first.1 < Text.bytes second.1
  /-- Each folded name that is defined is listed once, and no other name is. -/
  count_names : ∀ name, (table.entries.map Prod.fst).count name =
    if name ∈ definedNames definitions then 1 else 0
  /-- A name is listed with the address of its last definition. -/
  lastBinds : ∀ entry ∈ table.entries, LastBinds definitions entry.1 entry.2
  size_eq : table.size = (definedNames definitions).toFinset.card
  isEmpty_iff : table.isEmpty = true ↔ definitions = []

theorem records_ofList (definitions : List (String × UInt32)) :
    (ofList definitions).Records definitions where
  find?_eq_some_iff name address := find?_ofList_eq_some_iff
  find?_eq_none_iff name := find?_ofList_eq_none_iff
  ascending := (ofList definitions).ascending.imp Text.bytes_lt_bytes
  count_names name := by
    simp only [(nodup_names _).count, mem_names_ofList_iff]
  lastBinds entry member :=
    find?_ofList_eq_some_iff.mp (mem_entries_iff.mp member).2
  size_eq := size_ofList definitions
  isEmpty_iff := isEmpty_ofList_iff

/-- A table made by definitions is the finite map in which they end.  It is the
table of other definitions just if those end in the same addresses for the same
names, so neighbours that define different names may change places. -/
theorem ofList_records_lastDefinitions (definitions : List (String × UInt32)) :
    (ofList definitions).Records definitions ∧
      (∀ others, ofList definitions = ofList others ↔
        ∀ name address, LastBinds definitions name address ↔
          LastBinds others name address) ∧
      ∀ before first second after,
        definitions = before ++ first :: second :: after →
        Text.foldCase first.1 ≠ Text.foldCase second.1 →
        ofList definitions = ofList (before ++ second :: first :: after) := by
  refine ⟨records_ofList definitions, fun others => ⟨?_, fun same => ?_⟩, ?_⟩
  · intro equal name address
    rw [← find?_ofList_eq_some_iff, ← find?_ofList_eq_some_iff, equal]
  · apply ext_find?
    intro name
    apply Option.ext
    intro address
    rw [find?_ofList_eq_some_iff, find?_ofList_eq_some_iff, same]
  · rintro before first second after rfl different
    simp only [ofList, List.foldl_append, List.foldl_cons]
    rw [define_comm _ different]

/-! ### Names outside ASCII -/

namespace AccentedNames

def later : List (String × UInt32) :=
  [("Loop", 0x8), ("～", 0x40), ("LOOP", 0x10)]

def history : List (String × UInt32) :=
  [("😀", 0x44)] ++ ("État", 0x4) :: ("état", 0xC) :: later

/-- Accented letters keep their case, so the names with accents are different.
The last two names would change places in the order of UTF-16. -/
theorem entries_exchanged :
    Text.foldCase "État" ≠ Text.foldCase "état" ∧
      ofList history =
        ofList ([("😀", 0x44)] ++ ("état", 0xC) :: ("État", 0x4) :: later) ∧
      (ofList history).entries =
        [("loop", 0x10), ("État", 0x4), ("état", 0xC), ("～", 0x40),
          ("😀", 0x44)] := by
  obtain ⟨-, -, exchange⟩ := ofList_records_lastDefinitions history
  have different : Text.foldCase "État" ≠ Text.foldCase "état" := by
    decide +kernel
  exact ⟨different, exchange _ _ _ _ rfl different, by decide +kernel⟩

end AccentedNames

end MipsAssembler.SymbolTable
