import Mathlib.Tactic.SplitIfs
import MipsAssembler.CommandLine.FileSystem

/-!
# Reading what was written

Putting a file moves no directory, so that the path a file was written to still
leads to it.  What is read there is what was written, if all of it was.
-/

namespace MipsAssembler.CommandLine

/-- A file is, or could be, at the place under the given names. -/
inductive Place.Holds (names : List String) : Place → Prop
  | file : Holds names (.file names)
  | vacant : Holds names (.vacant names)

namespace FileSystem

variable {system : FileSystem} {names other : List String} {content : ByteArray}

/-! ## Putting a file -/

theorem workingDirectory_put (system : FileSystem) (names : List String)
    (content : ByteArray) :
    (system.put names content).workingDirectory = system.workingDirectory := by
  unfold put
  split <;> rfl

theorem lookup_map_replace (files : List (List String × ByteArray))
    (other : List String) :
    (files.map fun file =>
      if file.1 = names then (names, content) else file).lookup other =
        if other = names then (files.lookup other).map fun _ => content
        else files.lookup other := by
  induction files with
  | nil => simp
  | cons file files ih =>
      rw [List.map_cons, List.lookup_cons, List.lookup_cons, ih]
      by_cases replaced : file.1 = names
      · by_cases found : other = names
        · simp [replaced, found]
        · have passed : (other == names) = false := beq_false_of_ne found
          simp [replaced, found, passed]
      · by_cases found : other = names
        · have passed : (other == file.1) = false :=
            beq_false_of_ne fun same => replaced (same.symm.trans found)
          simp [replaced, passed]
        · simp [replaced, found]

/-- After a file was put somewhere, it is there and nothing else has changed. -/
theorem content?_put (system : FileSystem) (names : List String)
    (content : ByteArray) (other : List String) :
    (system.put names content).content? other =
      if other = names then some content else system.content? other := by
  unfold put
  split
  · next present =>
    rw [content?] at present ⊢
    rw [lookup_map_replace]
    split
    · next same =>
      obtain ⟨earlier, found⟩ := Option.isSome_iff_exists.mp present
      rw [same, found, Option.map_some]
    · rfl
  · next absent =>
    have notFound : system.files.lookup names = none :=
      Option.not_isSome_iff_eq_none.mp absent
    rw [content?, List.lookup_append, content?]
    by_cases same : other = names
    · rw [if_pos same, same, notFound, Option.none_or]
      simp
    · rw [if_neg same, List.lookup_cons, beq_false_of_ne same]
      simp

/-- Of two files put in one place, the second is left. -/
theorem put_put (system : FileSystem) (names : List String)
    (first second : ByteArray) :
    (system.put names first).put names second = system.put names second := by
  have present : ((system.put names first).content? names).isSome := by
    rw [content?_put, if_pos rfl]
    rfl
  rw [put, if_pos present, put, put]
  split
  · simp only [List.map_map]
    congr 2
    funext file
    by_cases same : file.1 = names <;> simp [same]
  · next absent =>
    have others : ∀ file ∈ system.files, file.1 ≠ names := by
      have notFound : system.files.lookup names = none :=
        Option.not_isSome_iff_eq_none.mp absent
      intro file member same
      exact absurd (List.lookup_eq_none_iff.mp notFound file member)
        (by simp [same])
    have kept : system.files.map (fun file =>
        if file.1 = names then (names, second) else file) = system.files :=
      (List.map_congr_left fun file member => if_neg (others file member)).trans
        (List.map_id _)
    simp [kept]

theorem exists_mem_files_put {file : List String × ByteArray}
    (member : file ∈ system.files) :
    ∃ kept ∈ (system.put names content).files, kept.1 = file.1 := by
  unfold put
  split
  · refine ⟨_, List.mem_map_of_mem member, ?_⟩
    split
    · next same => exact same.symm
    · rfl
  · exact ⟨file, List.mem_append_left _ member, rfl⟩

/-- No directory goes away when a file is put somewhere. -/
theorem isDirectory_put (directory : system.isDirectory other = true) :
    (system.put names content).isDirectory other = true := by
  unfold isDirectory at directory ⊢
  simp only [Bool.or_eq_true, workingDirectory_put] at directory ⊢
  rcases directory with known | holdsFile
  · exact .inl known
  · right
    obtain ⟨file, member, below⟩ := List.any_eq_true.mp holdsFile
    obtain ⟨kept, keptMember, same⟩ :=
      @exists_mem_files_put _ names content _ member
    exact List.any_eq_true.mpr ⟨kept, keptMember, same ▸ below⟩

/-! ## Following a path -/

theorem placeAt_of_holds {place : Place} (holds : place.Holds names)
    (leads : system.placeAt other = place) : other = names := by
  unfold placeAt at leads
  split at leads
  · cases leads
    cases holds
  · split at leads
    · cases leads
      cases holds
      rfl
    · split at leads <;> cases leads <;> cases holds
      rfl

theorem placeAt_put_self (holds : (system.placeAt names).Holds names) :
    (system.put names content).placeAt names = .file names := by
  have noDevice : Device.ofNames? names = none := by
    unfold placeAt at holds
    split at holds
    · cases holds
    · assumption
  simp only [placeAt, noDevice, content?_put, if_pos, Option.isSome_some]

theorem placeAt_put_of_directory {directory : List String}
    (holds : (system.placeAt names).Holds names)
    (leads : system.placeAt other = .directory directory) :
    (system.put names content).placeAt other = .directory directory := by
  have different : other ≠ names := by
    rintro rfl
    rw [leads] at holds
    cases holds
  unfold placeAt at leads ⊢
  split at leads
  · cases leads
  · next noDevice =>
    split at leads
    · cases leads
    · next absent =>
      split at leads
      · next isDirectory =>
        rw [content?_put, if_neg different]
        simpa only [noDevice, if_neg absent, isDirectory_put isDirectory,
          if_true] using leads
      · cases leads

variable {directory path : List String} {name : String} {place : Place}

theorem follow_directory :
    system.follow (.directory directory) name =
      if name = "." then
        .ok (.directory directory)
      else if name = ".." then
        .ok (.directory directory.dropLast)
      else if Path.maximumNameSize < name.utf8ByteSize then
        .error .nameTooLong
      else
        .ok (system.placeAt (directory ++ [name])) :=
  rfl

theorem placeAt_of_follow (holds : place.Holds names)
    (followed : system.follow (.directory directory) name = .ok place) :
    directory ++ [name] = names ∧ system.placeAt names = place := by
  rw [follow_directory] at followed
  split_ifs at followed
  · cases followed
    cases holds
  · cases followed
    cases holds
  · have leads := Except.ok.inj followed
    have same := placeAt_of_holds holds leads
    exact ⟨same, same ▸ leads⟩

/-- A name that leads to a directory still does so. -/
theorem follow_put_of_directory {reached : List String}
    (holds : (system.placeAt names).Holds names)
    (followed : system.follow (.directory directory) name =
      .ok (.directory reached)) :
    (system.put names content).follow (.directory directory) name =
      .ok (.directory reached) := by
  rw [follow_directory] at followed ⊢
  split_ifs at followed ⊢
  · exact followed
  · exact followed
  · have leads := Except.ok.inj followed
    exact congrArg Except.ok (placeAt_put_of_directory holds leads)

/-- A name that leads to the place of the file now leads to the file. -/
theorem follow_put_of_holds (holds : place.Holds names)
    (followed : system.follow (.directory directory) name = .ok place) :
    (system.put names content).follow (.directory directory) name =
      .ok (.file names) := by
  obtain ⟨rfl, leads⟩ := placeAt_of_follow holds followed
  rw [follow_directory] at followed ⊢
  split_ifs at followed ⊢
  · cases followed
    cases holds
  · cases followed
    cases holds
  · rw [placeAt_put_self (leads ▸ holds)]

/-- Names can only be followed through directories. -/
theorem foldlM_follow_cons
    (followed : (name :: path).foldlM system.follow (.directory directory) =
      .ok place) :
    (∃ reached,
      system.follow (.directory directory) name = .ok (.directory reached) ∧
      path.foldlM system.follow (.directory reached) = .ok place) ∨
    (path = [] ∧
      system.follow (.directory directory) name = .ok place) := by
  rw [List.foldlM_cons] at followed
  cases first : system.follow (.directory directory) name with
  | error fault =>
      rw [first] at followed
      cases followed
  | ok next =>
      rw [first] at followed
      cases next with
      | directory reached => exact .inl ⟨reached, rfl, followed⟩
      | file _ | device _ | vacant _ =>
          right
          cases path with
          | nil => exact ⟨rfl, followed⟩
          | cons second path => cases followed

theorem placeAt_of_foldlM (holds : place.Holds names)
    (followed : path.foldlM system.follow (.directory directory) = .ok place) :
    system.placeAt names = place := by
  induction path generalizing directory with
  | nil =>
      cases followed
      cases holds
  | cons name path ih =>
      rcases foldlM_follow_cons followed with
        ⟨reached, -, rest⟩ | ⟨rfl, last⟩
      · exact ih rest
      · exact (placeAt_of_follow holds last).2

/-- The path to a file that was put leads to it. -/
theorem foldlM_follow_put (holds : place.Holds names)
    (followed : path.foldlM system.follow (.directory directory) = .ok place) :
    path.foldlM (system.put names content).follow (.directory directory) =
      .ok (.file names) := by
  have holdsAt : (system.placeAt names).Holds names :=
    (placeAt_of_foldlM holds followed).symm ▸ holds
  induction path generalizing directory with
  | nil =>
      cases followed
      cases holds
  | cons name path ih =>
      rw [List.foldlM_cons]
      rcases foldlM_follow_cons followed with
        ⟨reached, first, rest⟩ | ⟨rfl, last⟩
      · rw [follow_put_of_directory holdsAt first]
        exact ih rest
      · rw [follow_put_of_holds holds last]
        rfl

/-! ## Reading and writing -/

/-- What was written to a file is read there. -/
theorem read_put {text : String} (holds : place.Holds names)
    (leads : system.destination text = .ok place) :
    (system.put names content).read text = .ok content := by
  unfold destination at leads
  unfold read
  cases parsed : Path.ofText text with
  | error fault =>
      rw [parsed] at leads
      cases leads
  | ok path =>
      rw [parsed] at leads
      have followed : system.target path = .ok place := leads
      unfold target at followed
      split at followed
      · split at followed <;> cases followed
      · next noSlash =>
        have reached : (system.put names content).source path =
            .ok (.file names) := by
          rw [source, if_neg noSlash, followAll, workingDirectory_put]
          exact foldlM_follow_put holds followed
        simp only [bind, Except.bind, reached, content?_put, if_true]

/-- How a write to a path ends, and the file system after it.  A file that was
opened has taken all of the content, or the front part that the storage takes;
in all other cases only a device may have changed. -/
inductive WriteEnds (system : FileSystem) (text : String)
    (content : ByteArray) : Except FileFault Unit → FileSystem → Prop
  | whole {place : Place} {names : List String} (holds : place.Holds names)
      (leads : system.destination text = .ok place) :
      WriteEnds system text content (.ok ()) (system.put names content)
  | part {place : Place} {names : List String} {size : Nat} {fault : FileFault}
      (holds : place.Holds names)
      (leads : system.destination text = .ok place)
      (short : size < content.size) :
      WriteEnds system text content (.error fault)
        (system.put names (content.extract 0 size))
  | sent {device : Device} {after : FileSystem}
      (leads : system.destination text = .ok (.device device))
      (taken : system.send device content = (.ok (), after)) :
      WriteEnds system text content (.ok ()) after
  | refused {fault : FileFault} :
      WriteEnds system text content (.error fault) system

variable {after : FileSystem} {text : String} {result : Except FileFault Unit}

theorem writeEnds_of_replace (holds : place.Holds names)
    (leads : system.destination text = .ok place)
    (replaced : system.replace names content = (result, after)) :
    WriteEnds system text content result after := by
  rw [replace, openFile] at replaced
  cases opens : system.storage.refusal? system.files names with
  | some fault =>
      rw [opens] at replaced
      cases replaced
      exact .refused
  | none =>
      simp only [opens, fill, put_put] at replaced
      split at replaced
      · cases replaced
        exact .whole holds leads
      · split at replaced
        · cases replaced
          exact .whole holds leads
        · next tooLong =>
          cases replaced
          exact .part holds leads (Nat.lt_of_not_le tooLong)

theorem writeEnds_of_write
    (written : system.write text content = (result, after)) :
    WriteEnds system text content result after := by
  unfold write at written
  split at written
  · next names leads => exact writeEnds_of_replace .file leads written
  · next names leads => exact writeEnds_of_replace .vacant leads written
  · next device leads =>
    cases result with
    | ok _ => exact .sent leads written
    | error fault =>
        -- Only the device without space refuses, and it keeps nothing.
        cases device with
        | full =>
            rw [send] at written
            split at written <;> cases written
            exact .refused
        | _ => cases written
  · cases written
    exact .refused
  · cases written
    exact .refused

/-- A file holds what was written to it; only a device may not. -/
theorem read_of_write (written : system.write text content = (.ok (), after)) :
    after.read text = .ok content ∨
      ∃ device, system.destination text = .ok (.device device) := by
  cases writeEnds_of_write written with
  | whole holds leads => exact .inl (read_put holds leads)
  | sent leads taken => exact .inr ⟨_, leads⟩

end FileSystem

end MipsAssembler.CommandLine
