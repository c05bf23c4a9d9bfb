import MipsAssembler.Proofs.Json.Lexeme

/-!
# Written JSON values are read back

A value is written as a sequence of lexemes with white space between them, and
the reader takes the sequence of a value to that value.
-/

namespace MipsAssembler.Json

/-- Every number in the value is spelled as JSON spells numbers. -/
inductive IsWellFormed : Json → Prop
  | null : IsWellFormed .null
  | bool (value : Bool) : IsWellFormed (.bool value)
  | number {spelling : String} (isNumber : isNumber spelling.toList = true) :
      IsWellFormed (.number spelling)
  | string (text? : Option String) : IsWellFormed (.string text?)
  | array {elements : List Json}
      (elementsToo : ∀ element ∈ elements, IsWellFormed element) :
      IsWellFormed (.array elements)
  | object {members : List (Option String × Json)}
      (valuesToo : ∀ member ∈ members, IsWellFormed member.2) :
      IsWellFormed (.object members)

theorem isWellFormed_ofInt (value : Int) : (ofInt value).IsWellFormed :=
  .number (by
    rw [Decimal.write, String.toList_ofList]
    exact isNumber_characters value)

theorem isWellFormed_ofWord (value : UInt32) : (ofWord value).IsWellFormed :=
  .number (by
    rw [Radix.write, String.toList_ofList]
    exact isNumber_digits value.toNat)

theorem isWellFormed_record {members : List (String × Json)}
    (valuesToo : ∀ member ∈ members, member.2.IsWellFormed) :
    (record members).IsWellFormed :=
  .object (List.forall_mem_map.mpr valuesToo)

/-! ## The lexemes of a value -/

mutual

/-- The lexemes that a value is written as. -/
def lexemes : Json → List Lexeme
  | null => [.null]
  | bool value => [.bool value]
  | number spelling => [.number spelling]
  | string text? => [.string text?]
  | array elements =>
      .openBracket :: [.comma].intercalate (elementLexemes elements) ++
        [.closeBracket]
  | object members =>
      .openBrace :: [.comma].intercalate (memberLexemes members) ++
        [.closeBrace]

def elementLexemes : List Json → List (List Lexeme)
  | [] => []
  | element :: rest => element.lexemes :: elementLexemes rest

def memberLexemes : List (Option String × Json) → List (List Lexeme)
  | [] => []
  | (name?, value) :: rest =>
      (.string name? :: .colon :: value.lexemes) :: memberLexemes rest

end

theorem elementLexemes_eq_map (elements : List Json) :
    elementLexemes elements = elements.map lexemes := by
  induction elements with
  | nil => rfl
  | cons element rest ih => rw [elementLexemes, ih, List.map_cons]

/-- The lexemes of a member: its name, a colon and its value. -/
def lexemesOfMember (member : Option String × Json) : List Lexeme :=
  .string member.1 :: .colon :: member.2.lexemes

theorem memberLexemes_eq_map (members : List (Option String × Json)) :
    memberLexemes members = members.map lexemesOfMember := by
  induction members with
  | nil => rfl
  | cons member rest ih =>
      rw [memberLexemes, ih, List.map_cons]
      rfl

/-! ## Reading lexemes -/

namespace ReadState

theorem run?_cons {state next : ReadState} {lexeme : Lexeme}
    (taken : state.step? lexeme = some next) (rest : List Lexeme) :
    run? state (lexeme :: rest) = run? next rest := by
  cases state with
  | after result frames => cases frames <;> simp [run?, taken]
  | _ => simp [run?, taken]

/-- Reading the lexemes of the value completes it. -/
def Completes (value : Json) : Prop :=
  ∀ frames rest,
    run? (.value frames) (value.lexemes ++ rest) =
      run? (.after value frames) rest

theorem run?_elements {element : Json} {later : List Json}
    (complete : ∀ value ∈ element :: later, Completes value)
    (done : List Json) (frames : List Frame) (rest : List Lexeme) :
    run? (.value (.array done :: frames))
        ([.comma].intercalate ((element :: later).map lexemes) ++
          .closeBracket :: rest) =
      run? (.after (.array (done.reverse ++ element :: later)) frames)
        rest := by
  induction later generalizing element done with
  | nil =>
      rw [List.map_singleton, List.intercalate_singleton,
        complete element List.mem_cons_self, run?_cons rfl]
      simp
  | cons next later ih =>
      rw [List.forall_mem_cons] at complete
      rw [List.map_cons, List.map_cons, List.intercalate_cons_cons,
        ← List.map_cons, List.append_assoc, List.append_assoc, complete.1,
        List.singleton_append, run?_cons rfl, ih complete.2]
      simp

theorem exists_intercalate_eq {α β : Type} (separator : List β)
    (write : α → List β) (first : α) (later : List α) :
    ∃ tail, separator.intercalate ((first :: later).map write) =
      write first ++ tail := by
  cases later with
  | nil => exact ⟨[], by simp⟩
  | cons next later =>
      refine ⟨separator ++ separator.intercalate ((next :: later).map write), ?_⟩
      simp

/-- An array may end at once; a value does not begin with its end. -/
theorem run?_firstElement (value : Json) (frames : List Frame)
    (rest : List Lexeme) :
    run? (.firstElement frames) (value.lexemes ++ rest) =
      run? (.value (.array [] :: frames)) (value.lexemes ++ rest) := by
  cases value <;> simp only [lexemes, List.cons_append, List.nil_append] <;> rfl

theorem run?_members {member : Option String × Json}
    {later : List (Option String × Json)}
    (complete : ∀ entry ∈ member :: later, Completes entry.2)
    (done : List (Option String × Json)) (frames : List Frame)
    (rest : List Lexeme) :
    run? (.name done frames)
        ([.comma].intercalate ((member :: later).map lexemesOfMember) ++
          .closeBrace :: rest) =
      run? (.after (.object (done.reverse ++ member :: later)) frames)
        rest := by
  induction later generalizing member done with
  | nil =>
      rw [List.map_singleton, List.intercalate_singleton, lexemesOfMember,
        List.cons_append, List.cons_append, run?_cons rfl, run?_cons rfl,
        complete member List.mem_cons_self, run?_cons rfl]
      simp
  | cons next later ih =>
      rw [List.forall_mem_cons] at complete
      rw [List.map_cons, List.map_cons, List.intercalate_cons_cons,
        ← List.map_cons, lexemesOfMember, List.append_assoc, List.append_assoc,
        List.cons_append, List.cons_append, run?_cons rfl, run?_cons rfl,
        complete.1, List.singleton_append, run?_cons rfl, ih complete.2]
      simp

theorem completes {value : Json} (wellFormed : value.IsWellFormed) :
    Completes value := by
  induction wellFormed with
  | null | bool | number | string =>
      intro frames rest
      rw [lexemes, List.singleton_append, run?_cons rfl]
  | @array elements _ ih =>
      intro frames rest
      rw [lexemes, elementLexemes_eq_map, List.cons_append, List.cons_append,
        List.append_assoc, run?_cons rfl]
      cases elements with
      | nil => rfl
      | cons element later =>
          have ran := run?_elements ih [] frames rest
          obtain ⟨tail, split⟩ := exists_intercalate_eq [.comma] lexemes element
            later
          rw [split, List.append_assoc] at ran ⊢
          rw [run?_firstElement, List.singleton_append, ran]
          rfl
  | @object members _ ih =>
      intro frames rest
      rw [lexemes, memberLexemes_eq_map, List.cons_append, List.cons_append,
        List.append_assoc, run?_cons rfl]
      cases members with
      | nil => rfl
      | cons member later =>
          have ran := run?_members ih [] frames rest
          obtain ⟨tail, split⟩ := exists_intercalate_eq [.comma]
            lexemesOfMember member later
          -- A name is taken alike in first place and later.
          rw [split, List.append_assoc] at ran ⊢
          exact ran

end ReadState

/-! ## Items on lines of their own -/

theorem lexemes?_newLine (level : Nat) (rest : List Char)
    (found : List Lexeme) :
    lexemes? ((newLine level).toList ++ rest) found = lexemes? rest found := by
  apply lexemes?_spaces
  rw [newLine, String.toList_ofList, List.forall_mem_cons]
  refine ⟨rfl, fun space member => ?_⟩
  rw [List.eq_of_mem_replicate member]
  rfl

theorem stops_newLine (level : Nat) (rest : List Char) :
    Stops ((newLine level).toList ++ rest) := by
  rw [newLine, String.toList_ofList, List.cons_append]
  exact stops_cons (by decide) _

section Items

variable {α : Type} {write : α → String} {lexemesOf : α → List Lexeme}

theorem readsAs_intercalate (level : Nat) {items : List α}
    (reads : ∀ item ∈ items, ReadsAs (write item).toList (lexemesOf item)) :
    ReadsAs (("," ++ newLine level).intercalate (items.map write)).toList
      ([.comma].intercalate (items.map lexemesOf)) := by
  induction items with
  | nil => exact fun rest found _ => rfl
  | cons item later ih =>
      rw [List.forall_mem_cons] at reads
      intro rest found stops
      cases later with
      | nil => simpa using reads.1 rest found stops
      | cons next later =>
          have comma : ",".toList = [','] := rfl
          have stopsAtComma : ∀ text, Stops (',' :: text) :=
            stops_cons (by decide)
          rw [List.map_cons, List.map_cons, String.intercalate_cons_cons,
            List.map_cons, List.map_cons, List.intercalate_cons_cons,
            ← List.map_cons, ← List.map_cons, String.toList_append,
            String.toList_append, String.toList_append, List.append_assoc,
            List.append_assoc, List.append_assoc, comma, List.singleton_append,
            reads.1 _ _ (stopsAtComma _), lexemes?_mark rfl, lexemes?_newLine,
            ih reads.2 _ _ stops]
          simp

theorem readsAs_layOut (level : Nat) {opening closing : String}
    {first last : Char} {openingMark closingMark : Lexeme} {items : List α}
    (openingEq : opening.toList = [first])
    (opens : mark? first = some openingMark)
    (closingEq : closing.toList = [last])
    (closes : mark? last = some closingMark)
    (reads : ∀ item ∈ items, ReadsAs (write item).toList (lexemesOf item)) :
    ReadsAs (layOut level opening closing (items.map write)).toList
      (openingMark :: [.comma].intercalate (items.map lexemesOf) ++
        [closingMark]) := by
  intro rest found stops
  cases items with
  | nil =>
      rw [List.map_nil, layOut, String.toList_append, openingEq, closingEq,
        List.singleton_append, List.cons_append, lexemes?_mark opens,
        List.singleton_append, lexemes?_mark closes]
      rfl
  | cons item later =>
      have written : (layOut level opening closing
          ((item :: later).map write)).toList ++ rest =
            first :: ((newLine (level + 1)).toList ++
              ((("," ++ newLine (level + 1)).intercalate
                ((item :: later).map write)).toList ++
                ((newLine level).toList ++ last :: rest))) := by
        simp only [List.map_cons, layOut, String.toList_append, openingEq,
          closingEq, List.append_assoc, List.cons_append, List.nil_append]
      rw [written, lexemes?_mark opens, lexemes?_newLine,
        readsAs_intercalate (level + 1) reads _ _ (stops_newLine level _),
        lexemes?_newLine, lexemes?_mark closes]
      simp

end Items

/-! ## Values -/

theorem indentedElements_eq_map (level : Nat) (elements : List Json) :
    indentedElements level elements = elements.map (indented level) := by
  induction elements with
  | nil => rfl
  | cons element rest ih => rw [indentedElements, ih, List.map_cons]

def indentedMember (level : Nat) (member : Option String × Json) : String :=
  writeString member.1 ++ ": " ++ member.2.indented level

theorem indentedMembers_eq_map (level : Nat)
    (members : List (Option String × Json)) :
    indentedMembers level members = members.map (indentedMember level) := by
  induction members with
  | nil => rfl
  | cons member rest ih =>
      rw [indentedMembers, ih, List.map_cons]
      rfl

theorem readsAs_indentedMember {level : Nat} {member : Option String × Json}
    (reads : ReadsAs (member.2.indented level).toList member.2.lexemes) :
    ReadsAs (indentedMember level member).toList (lexemesOfMember member) := by
  intro rest found stops
  have colon : ": ".toList = [':', ' '] := rfl
  rw [indentedMember, String.toList_append, String.toList_append,
    List.append_assoc, List.append_assoc, colon, lexemes?_writeString,
    List.cons_append, lexemes?_mark rfl, List.singleton_append,
    lexemes?_space rfl, reads rest _ stops]
  simp [lexemesOfMember]

/-- At every level of indentation a value is read as its lexemes. -/
theorem readsAs_indented {value : Json} (wellFormed : value.IsWellFormed)
    (level : Nat) : ReadsAs (value.indented level).toList value.lexemes := by
  induction wellFormed generalizing level with
  | null =>
      rw [indented]
      exact readsAs_word rfl
  | bool value =>
      cases value <;> rw [indented] <;> exact readsAs_word rfl
  | number isNumber =>
      rw [indented]
      exact readsAs_number isNumber
  | string text? =>
      intro rest found _
      rw [indented, lexemes?_writeString]
      rfl
  | @array elements _ ih =>
      rw [indented, lexemes, elementLexemes_eq_map, indentedElements_eq_map]
      exact readsAs_layOut level rfl rfl rfl rfl
        fun element member => ih element member (level + 1)
  | @object members _ ih =>
      rw [indented, lexemes, memberLexemes_eq_map, indentedMembers_eq_map]
      exact readsAs_layOut level rfl rfl rfl rfl
        fun member isMember => readsAs_indentedMember (ih member isMember (level + 1))

/-- The indented form of a value is read back as the value. -/
theorem read?_pretty {value : Json} (wellFormed : value.IsWellFormed) :
    read? value.pretty = some value := by
  have lexed := readsAs_indented wellFormed 0 [] [] nofun
  have parsed := ReadState.completes wellFormed [] []
  simp only [List.append_nil] at lexed parsed
  rw [read?, pretty, lexed, lexemes?, List.reverse_reverse]
  exact parsed

end MipsAssembler.Json
