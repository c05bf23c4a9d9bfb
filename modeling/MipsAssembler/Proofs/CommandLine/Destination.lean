import MipsAssembler.Proofs.CommandLine.FileSystem

/-!
# What a write changes

Writing changes one file, or adds to standard output, or neither, also when it
fails half-way.  Afterwards every path leads where it did before: a file in a
vacant place makes no new directory, since all that is above it was a directory
already.
-/

namespace MipsAssembler.CommandLine

/-- The place after a file was put under the names. -/
def Place.filled (names : List String) : Place → Place
  | .vacant other => if other = names then .file other else .vacant other
  | .file other => .file other
  | .device known => .device known
  | .directory other => .directory other

/-- The names of a file that is, or could be, at the place. -/
def Place.file? : Place → Option (List String)
  | .file names | .vacant names => some names
  | .device _ | .directory _ => none

theorem Place.file?_filled (names : List String) (place : Place) :
    (place.filled names).file? = place.file? := by
  cases place with
  | vacant other =>
      simp only [filled]
      split <;> rfl
  | _ => rfl

theorem Place.filled_eq_directory_iff {names directory : List String}
    {place : Place} :
    place.filled names = .directory directory ↔
      place = .directory directory := by
  cases place with
  | vacant other =>
      simp only [filled]
      split <;> simp
  | _ => simp [filled]

theorem Place.filled_eq_device_iff {names : List String} {known : Device}
    {place : Place} :
    place.filled names = .device known ↔ place = .device known := by
  cases place with
  | vacant other =>
      simp only [filled]
      split <;> simp
  | _ => simp [filled]

theorem Place.holds_iff_file? {place : Place} {names : List String} :
    place.Holds names ↔ place.file? = some names := by
  constructor
  · rintro ⟨⟩ <;> rfl
  · intro isFile
    cases place <;> cases isFile
    · exact .file
    · exact .vacant

namespace FileSystem

variable {system : FileSystem} {names other : List String} {content : ByteArray}

/-! ## Directories above a file -/

theorem isDirectory_of_prefix (directory : system.isDirectory names = true)
    (above : other <+: names) : system.isDirectory other = true := by
  have extends? {longer : List String} (begins : names.isPrefixOf longer = true) :
      other.isPrefixOf longer = true :=
    List.isPrefixOf_iff_prefix.mpr
      (above.trans (List.isPrefixOf_iff_prefix.mp begins))
  simp only [isDirectory, Bool.or_eq_true, List.any_eq_true] at directory ⊢
  rcases directory with (working | ⟨root, member, begins⟩) |
      ⟨file, member, begins⟩
  · exact .inl (.inl (extends? working))
  · exact .inl (.inr ⟨root, member, extends? begins⟩)
  · exact .inr ⟨file, member, extends? begins⟩

theorem isDirectory_start (system : FileSystem) (isAbsolute : Bool) :
    system.isDirectory
      (if isAbsolute then [] else system.workingDirectory) = true := by
  have working : system.isDirectory system.workingDirectory = true := by
    simp [isDirectory]
  cases isAbsolute with
  | false => exact working
  | true => exact isDirectory_of_prefix working List.nil_prefix

theorem isDirectory_of_placeAt {directory : List String}
    (leads : system.placeAt other = .directory directory) :
    system.isDirectory directory = true := by
  unfold placeAt at leads
  split at leads
  · cases leads
  · split at leads
    · cases leads
    · split at leads <;> cases leads
      assumption

theorem isDirectory_of_follow {directory reached : List String} {name : String}
    (isDirectory : system.isDirectory directory = true)
    (followed : system.follow (.directory directory) name =
      .ok (.directory reached)) : system.isDirectory reached = true := by
  rw [follow_directory] at followed
  split_ifs at followed
  · cases followed
    exact isDirectory
  · cases followed
    exact isDirectory_of_prefix isDirectory (List.dropLast_prefix _)
  · exact isDirectory_of_placeAt (Except.ok.inj followed)

/-- A file can be put under the names: they lead to its place, in an existing
directory. -/
structure Admits (system : FileSystem) (names : List String) : Prop where
  holds : (system.placeAt names).Holds names
  parent : system.isDirectory names.dropLast = true

theorem admits_of_foldlM {directory path : List String} {place : Place}
    (isDirectory : system.isDirectory directory = true)
    (holds : place.Holds names)
    (followed : path.foldlM system.follow (.directory directory) = .ok place) :
    system.Admits names := by
  induction path generalizing directory with
  | nil =>
      cases followed
      cases holds
  | cons name path ih =>
      rcases foldlM_follow_cons followed with
        ⟨reached, first, rest⟩ | ⟨rfl, last⟩
      · exact ih (isDirectory_of_follow isDirectory first) rest
      · obtain ⟨namesEq, leads⟩ := placeAt_of_follow holds last
        refine ⟨leads ▸ holds, ?_⟩
        rwa [← namesEq, List.dropLast_concat]

/-! ## Following a path after a file was put -/

theorem exists_mem_files_of_put {file : List String × ByteArray}
    (member : file ∈ (system.put names content).files) :
    file.1 = names ∨ file ∈ system.files := by
  unfold put at member
  split at member
  · obtain ⟨earlier, earlierMember, rfl⟩ := List.mem_map.mp member
    split
    · exact .inl rfl
    · exact .inr earlierMember
  · rcases List.mem_append.mp member with earlier | new
    · exact .inr earlier
    · exact .inl (List.mem_singleton.mp new ▸ rfl)

/-- Only what was a directory before is one after a file was put. -/
theorem isDirectory_of_put (admits : system.Admits names)
    (different : other ≠ names)
    (directory : (system.put names content).isDirectory other = true) :
    system.isDirectory other = true := by
  unfold isDirectory at directory
  rw [workingDirectory_put, Bool.or_eq_true] at directory
  rcases directory with known | holdsFile
  · simp [isDirectory, known]
  · obtain ⟨file, member, below⟩ := List.any_eq_true.mp holdsFile
    rcases exists_mem_files_of_put member with same | earlier
    · have above : other <+: names := by
        rw [← same]
        exact List.isPrefixOf_iff_prefix.mp below
      refine isDirectory_of_prefix admits.parent ?_
      -- A proper beginning of the names leaves at least the last one out.
      obtain ⟨more, split⟩ := above
      have nonempty : more ≠ [] := by
        rintro rfl
        exact different (by simpa using split)
      rw [← split, List.dropLast_append_of_ne_nil nonempty]
      exact List.prefix_append _ _
    · simp only [isDirectory, Bool.or_eq_true, List.any_eq_true]
      exact .inr ⟨file, earlier, below⟩

theorem placeAt_put (admits : system.Admits names) (other : List String) :
    (system.put names content).placeAt other =
      (system.placeAt other).filled names := by
  by_cases same : other = names
  · subst same
    rw [placeAt_put_self admits.holds]
    cases place : system.placeAt other <;> have holds := admits.holds <;>
      rw [place] at holds <;> cases holds
    · rfl
    · simp [Place.filled]
  · have sameDirectory : (system.put names content).isDirectory other =
        system.isDirectory other :=
      Bool.eq_iff_iff.mpr ⟨isDirectory_of_put admits same, isDirectory_put⟩
    unfold placeAt
    rw [content?_put, if_neg same, sameDirectory]
    split
    · rfl
    · split
      · rfl
      · split
        · rfl
        · simp [Place.filled, same]

theorem follow_put (admits : system.Admits names) (directory : List String)
    (name : String) :
    (system.put names content).follow (.directory directory) name =
      (system.follow (.directory directory) name).map (Place.filled names) := by
  rw [follow_directory, follow_directory, placeAt_put admits]
  split_ifs <;> rfl

/-- No name leads on from a place that is no directory. -/
theorem foldlM_follow_eq_ok_iff {place reached : Place} {path : List String}
    (noDirectory : ∀ directory, place ≠ .directory directory) :
    path.foldlM system.follow place = .ok reached ↔
      path = [] ∧ place = reached := by
  cases path with
  | nil => simp [pure, Except.pure]
  | cons name path =>
      cases place with
      | directory directory => exact absurd rfl (noDirectory directory)
      | _ => simp [List.foldlM_cons, follow, bind, Except.bind]

theorem foldlM_follow_put_iff {directory path : List String} {reached : Place}
    (admits : system.Admits names) :
    path.foldlM (system.put names content).follow (.directory directory) =
        .ok reached ↔
      ∃ place, path.foldlM system.follow (.directory directory) = .ok place ∧
        place.filled names = reached := by
  induction path generalizing directory with
  | nil => simp [pure, Except.pure, Place.filled]
  | cons name path ih =>
      rw [List.foldlM_cons, List.foldlM_cons, follow_put admits]
      cases system.follow (.directory directory) name with
      | error fault => simp [Except.map, bind, Except.bind]
      | ok next =>
          change path.foldlM (system.put names content).follow
              (next.filled names) = .ok reached ↔
            ∃ place, path.foldlM system.follow next = .ok place ∧ _
          by_cases noDirectory : ∀ other, next ≠ .directory other
          · have noDirectoryToo : ∀ other,
                next.filled names ≠ .directory other :=
              fun other => mt Place.filled_eq_directory_iff.mp
                (noDirectory other)
            simp only [foldlM_follow_eq_ok_iff noDirectory,
              foldlM_follow_eq_ok_iff noDirectoryToo]
            constructor
            · rintro ⟨rfl, rfl⟩
              exact ⟨next, ⟨rfl, rfl⟩, rfl⟩
            · rintro ⟨place, ⟨rfl, rfl⟩, rfl⟩
              exact ⟨rfl, rfl⟩
          · obtain ⟨other, isDirectory⟩ :
                ∃ other, next = .directory other := by
              simpa using noDirectory
            subst isDirectory
            exact ih

/-! ## Destinations -/

theorem destination_eq_ok_iff {text : String} {place : Place} :
    system.destination text = .ok place ↔
      ∃ path, Path.ofText text = .ok path ∧ path.endsWithSlash = false ∧
        path.names.foldlM system.follow (.directory
          (if path.isAbsolute then [] else system.workingDirectory)) =
            .ok place := by
  unfold destination
  cases Path.ofText text with
  | error fault => simp [bind, Except.bind]
  | ok path =>
      simp only [bind, Except.bind, target, Except.ok.injEq, exists_eq_left']
      cases path.endsWithSlash with
      | true =>
          simp only [if_true, Bool.true_eq_false, false_and, iff_false]
          split <;> nofun
      | false => simp [followAll]

theorem admits_of_destination {text : String} {place : Place}
    (holds : place.Holds names)
    (leads : system.destination text = .ok place) : system.Admits names := by
  obtain ⟨path, -, -, followed⟩ := destination_eq_ok_iff.mp leads
  exact admits_of_foldlM (isDirectory_start system path.isAbsolute) holds
    followed

theorem destination_put_iff (admits : system.Admits names) {text : String}
    {reached : Place} :
    (system.put names content).destination text = .ok reached ↔
      ∃ place, system.destination text = .ok place ∧
        place.filled names = reached := by
  simp only [destination_eq_ok_iff, workingDirectory_put,
    foldlM_follow_put_iff admits]
  constructor
  · rintro ⟨path, parsed, noSlash, place, followed, placeEq⟩
    exact ⟨place, ⟨path, parsed, noSlash, followed⟩, placeEq⟩
  · rintro ⟨place, ⟨path, parsed, noSlash, followed⟩, placeEq⟩
    exact ⟨path, parsed, noSlash, place, followed, placeEq⟩

/-! ## What a write changes -/

/-- The place that a path leads to for writing, if it leads to one. -/
def destination? (system : FileSystem) (text : String) : Option Place :=
  (system.destination text).toOption

/-- The names of the file that a write to the path creates or changes. -/
def writtenFile? (system : FileSystem) (text : String) :
    Option (List String) :=
  (system.destination? text).bind Place.file?

/-- What a write to the path adds to standard output. -/
def echoed (system : FileSystem) (text : String) (content : ByteArray) :
    ByteArray :=
  if system.destination? text = some (.device .standardOutput) then content
  else .empty

theorem writtenFile?_of_holds {text : String} {place : Place}
    (holds : place.Holds names) (leads : system.destination text = .ok place) :
    system.writtenFile? text = some names := by
  rw [writtenFile?, destination?, leads]
  exact Place.holds_iff_file?.mp holds

theorem printed_put (system : FileSystem) (names : List String)
    (content : ByteArray) :
    (system.put names content).printed = system.printed := by
  unfold put
  split <;> rfl

variable {after : FileSystem} {text : String}

/-- A device that takes what is written keeps all of it or nothing. -/
theorem eq_print_of_send {device : Device}
    (leads : system.destination text = .ok (.device device))
    (taken : system.send device content = (.ok (), after)) :
    after = system.print (system.echoed text content) := by
  have reached : system.destination? text = some (.device device) := by
    rw [destination?, leads]
    rfl
  rw [echoed, reached]
  cases device with
  | full =>
      rw [send] at taken
      split at taken <;> cases taken
      exact system.print_empty.symm
  | standardOutput =>
      cases taken
      rfl
  | _ =>
      cases taken
      exact system.print_empty.symm

/-- A write changes the file that its path leads to and no other. -/
theorem content?_of_write
    (written : system.write text content = (.ok (), after))
    (other : List String) :
    after.content? other =
      if system.writtenFile? text = some other then some content
      else system.content? other := by
  cases writeEnds_of_write written with
  | whole holds leads =>
      simp only [content?_put, writtenFile?_of_holds holds leads,
        Option.some.injEq, @eq_comm _ other]
  | sent leads taken =>
      have noFile : system.writtenFile? text = none := by
        rw [writtenFile?, destination?, leads]
        rfl
      rw [eq_print_of_send leads taken, noFile, if_neg nofun]
      rfl

theorem printed_of_write
    (written : system.write text content = (.ok (), after)) :
    after.printed = system.printed ++ system.echoed text content := by
  cases writeEnds_of_write written with
  | whole holds leads =>
      have silent : system.echoed text content = .empty := by
        rw [echoed, destination?, leads, if_neg]
        rintro ⟨⟩
        cases holds
      rw [silent, ByteArray.append_empty, printed_put]
  | sent leads taken => rw [eq_print_of_send leads taken, print]

theorem destination?_put (admits : system.Admits names) (text : String) :
    (system.put names content).destination? text =
      (system.destination? text).map (Place.filled names) := by
  have toOption_eq_some_iff {result : Except FileFault Place} {place : Place} :
      result.toOption = some place ↔ result = .ok place := by
    cases result <;> simp [Except.toOption]
  ext place
  simp only [destination?, toOption_eq_some_iff, destination_put_iff admits,
    Option.map_eq_some_iff]

/-- After a write, every path leads to the file that it led to before. -/
theorem writtenFile?_of_write
    (written : system.write text content = (.ok (), after)) (path : String) :
    after.writtenFile? path = system.writtenFile? path := by
  cases writeEnds_of_write written with
  | whole holds leads =>
      have admits := admits_of_destination holds leads
      simp only [writtenFile?, destination?_put admits, Option.bind_map,
        Function.comp_def, Place.file?_filled]
  | sent leads taken =>
      rw [eq_print_of_send leads taken]
      rfl

theorem echoed_of_write
    (written : system.write text content = (.ok (), after)) (path : String)
    (other : ByteArray) : after.echoed path other = system.echoed path other := by
  cases writeEnds_of_write written with
  | whole holds leads =>
      have admits := admits_of_destination holds leads
      simp only [echoed, destination?_put admits, Option.map_eq_some_iff,
        Place.filled_eq_device_iff, exists_eq_right]
  | sent leads taken =>
      rw [eq_print_of_send leads taken]
      rfl

/-! ## What a write that fails leaves behind -/

/-- A write to a path breaks off.  The file that the path leads to is as it was,
or it was created or emptied and holds a part from the front of the content;
nothing else has changed. -/
structure BreaksOff (system : FileSystem) (text : String) (content : ByteArray)
    (fault : FileFault) (after : FileSystem) : Prop where
  write_eq : system.write text content = (.error fault, after)
  content?_eq : ∀ other, after.content? other = system.content? other ∨
    system.writtenFile? text = some other ∧
      ∃ size < content.size, after.content? other = some (content.extract 0 size)
  printed_eq : after.printed = system.printed

end FileSystem

end MipsAssembler.CommandLine
