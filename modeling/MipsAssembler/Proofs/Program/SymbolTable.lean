import Mathlib.Data.List.Induction
import Mathlib.Data.List.Sort
import MipsAssembler.Program.SymbolTable

/-!
# Symbol tables as finite maps

The entries of a symbol table and its lookup function determine each other.  So
tables in which the same is found are equal, and the order in which different
names are defined does not matter.
-/

namespace MipsAssembler

/-- Among the members of a list that have a property there is a last one. -/
theorem exists_last_of_exists_mem {α : Type} {members : List α}
    {Property : α → Prop} (found : ∃ member ∈ members, Property member) :
    ∃ before last after, members = before ++ last :: after ∧ Property last ∧
      ∀ later ∈ after, ¬ Property later := by
  induction members using List.reverseRecOn with
  | nil => simp at found
  | append_singleton members final ih =>
      by_cases holds : Property final
      · exact ⟨members, final, [], rfl, holds, by simp⟩
      · have earlier : ∃ member ∈ members, Property member := by
          simpa [or_and_right, exists_or, holds] using found
        obtain ⟨before, last, after, rfl, lastHolds, isLast⟩ := ih earlier
        refine ⟨before, last, after ++ [final], by simp, lastHolds, ?_⟩
        simpa [or_imp, forall_and, holds] using isLast

namespace SymbolTable

/-- The entries are the folded names with the addresses that are found for
them. -/
theorem mem_entries_iff {table : SymbolTable} {name : String}
    {address : UInt32} :
    (name, address) ∈ table.entries ↔
      Text.foldCase name = name ∧ table.find? name = some address := by
  constructor
  · intro member
    have folded := table.folded _ member
    obtain ⟨before, after, split⟩ := List.append_of_mem member
    refine ⟨folded, ?_⟩
    rw [find?, folded, List.lookup_eq_some_iff]
    refine ⟨before, after, split, fun entry earlier => ?_⟩
    have ascending := table.ascending
    rw [split, List.pairwise_append] at ascending
    have below := ascending.2.2 entry earlier _ List.mem_cons_self
    exact bne_iff_ne.mpr fun same => String.lt_irrefl _ (same ▸ below)
  · rintro ⟨folded, found⟩
    rw [find?, folded, List.lookup_eq_some_iff] at found
    obtain ⟨before, after, split, -⟩ := found
    rw [split]
    exact List.mem_append_right _ List.mem_cons_self

/-- The names in a table are the folded ones that are found. -/
theorem mem_names_iff {table : SymbolTable} {name : String} :
    name ∈ table.entries.map Prod.fst ↔
      Text.foldCase name = name ∧ (table.find? name).isSome := by
  simp [Option.isSome_iff_exists, mem_entries_iff]

/-- A table is non-empty just if some name is found in it. -/
theorem isEmpty_eq_false_iff {table : SymbolTable} :
    table.isEmpty = false ↔ ∃ name, (table.find? name).isSome := by
  rw [isEmpty, List.isEmpty_eq_false_iff]
  constructor
  · intro nonempty
    obtain ⟨⟨name, address⟩, member⟩ := List.exists_mem_of_ne_nil _ nonempty
    have found := (mem_entries_iff.mp member).2
    exact ⟨name, found ▸ rfl⟩
  · rintro ⟨name, found⟩ noEntries
    rw [find?, noEntries] at found
    cases found

theorem nodup_names (table : SymbolTable) :
    (table.entries.map Prod.fst).Nodup := by
  rw [List.Nodup, List.pairwise_map]
  apply table.ascending.imp
  intro first second before same
  exact String.lt_irrefl _ (same ▸ before)

theorem ext_find? {first second : SymbolTable}
    (same : ∀ name, first.find? name = second.find? name) : first = second := by
  have ascending : Std.Antisymm
      fun first second : String × UInt32 => first.1 < second.1 :=
    ⟨fun _ _ before after => absurd before (String.lt_asymm after)⟩
  have irreflexive : Std.Irrefl
      fun first second : String × UInt32 => first.1 < second.1 :=
    ⟨fun entry => String.lt_irrefl entry.1⟩
  apply SymbolTable.ext
  apply List.Pairwise.eq_of_mem_iff first.ascending second.ascending
  rintro ⟨name, address⟩
  rw [mem_entries_iff, mem_entries_iff, same]

/-- Definitions of different names may change places. -/
theorem define_comm (table : SymbolTable) {first second : String}
    (different : Text.foldCase first ≠ Text.foldCase second)
    (address other : UInt32) :
    (table.define first address).define second other =
      (table.define second other).define first address := by
  apply ext_find?
  intro name
  rw [find?_define, find?_define, find?_define, find?_define]
  by_cases isFirst : Text.foldCase name = Text.foldCase first
  · rw [if_neg (isFirst ▸ different), if_pos isFirst, if_pos isFirst]
  · rw [if_neg isFirst, if_neg isFirst]

/-! ## Definitions in ascending order -/

theorem insertEntry_of_forall_lt {name : String} {address : UInt32}
    {entries : List (String × UInt32)}
    (above : ∀ entry ∈ entries, entry.1 < name) :
    insertEntry name address entries = entries ++ [(name, address)] := by
  induction entries with
  | nil => rfl
  | cons entry rest ih =>
      rw [List.forall_mem_cons] at above
      have notBelow : ¬ name < entry.1 :=
        fun below => String.lt_irrefl _ (String.lt_trans below above.1)
      have notSame : name ≠ entry.1 :=
        fun same => String.lt_irrefl _ (same ▸ above.1)
      rw [insertEntry, if_neg notBelow, if_neg notSame, ih above.2,
        List.cons_append]

theorem entries_foldl_define {table : SymbolTable}
    {later : List (String × UInt32)}
    (ascending : (table.entries ++ later).Pairwise
      fun first second => first.1 < second.1)
    (folded : ∀ entry ∈ later, Text.foldCase entry.1 = entry.1) :
    (later.foldl (fun table entry => table.define entry.1 entry.2)
      table).entries = table.entries ++ later := by
  induction later generalizing table with
  | nil => rw [List.append_nil, List.foldl_nil]
  | cons entry later ih =>
      rw [List.forall_mem_cons] at folded
      have above : ∀ earlier ∈ table.entries, earlier.1 < entry.1 :=
        fun earlier member => (List.pairwise_append.mp ascending).2.2
          earlier member entry List.mem_cons_self
      have defined : (table.define entry.1 entry.2).entries =
          table.entries ++ [entry] := by
        change insertEntry (Text.foldCase entry.1) entry.2 table.entries = _
        rw [folded.1]
        exact insertEntry_of_forall_lt above
      rw [List.append_cons] at ascending
      rw [List.foldl_cons, ih (by rwa [defined]) folded.2, defined,
        ← List.append_cons]

/-- Defining the entries of a table in their order makes the table. -/
theorem ofList_entries (table : SymbolTable) : ofList table.entries = table := by
  apply SymbolTable.ext
  exact entries_foldl_define table.ascending table.folded

end SymbolTable

end MipsAssembler
