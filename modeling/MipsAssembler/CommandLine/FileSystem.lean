import MipsAssembler.CommandLine.Path

/-!
# A file system in memory

A file system is a list of files, each under the names that lead to it from
the root.  A directory exists if a file lies below it, if the working directory
is it or lies below it, or if it stands at the root by convention.  Devices are
known by their conventional names, and take the place of files.

A file is written in two steps, as on a disk: opening it creates it or leaves
nothing in it, and then it takes as much of what is written as the storage
allows.  So a write can fail with a part of its text in the file.
-/

namespace MipsAssembler.CommandLine

/-! ## Devices -/

/-- A device that is read and written like a file. -/
inductive Device
  /-- It holds nothing, and keeps nothing that is written to it. -/
  | null
  /-- It has no end, and no space for anything. -/
  | full
  /-- The input of the program, which is empty. -/
  | standardInput
  | standardOutput
  | standardError
  deriving DecidableEq

namespace Device

/-- The device under the given names. -/
def ofNames? : List String → Option Device
  | ["dev", "null"] => some null
  | ["dev", "full"] => some full
  | ["dev", "stdin"] => some standardInput
  | ["dev", "stdout"] => some standardOutput
  | ["dev", "stderr"] => some standardError
  | _ => none

/-- All that can be read from the device. -/
def read : Device → Except FileFault ByteArray
  | full => .error (.other "out of memory")
  | null | standardInput | standardOutput | standardError => .ok .empty

end Device

/-! ## Storage -/

/-- What keeps the files of a file system.  It may refuse to open a file, and it
may take only a part of what is written.  Both can depend on the files that it
keeps already. -/
structure Storage where
  /-- Why no file is created or emptied under the given names, if none is. -/
  refusal? : List (List String × ByteArray) → List String → Option FileFault
  /-- How many bytes a new or emptied file takes under the given names, and what
  keeps it from taking more.  Without a limit it takes all that is written. -/
  limit? : List (List String × ByteArray) → List String →
    Option (Nat × FileFault)

namespace Storage

/-- A storage that takes all that is written. -/
def unlimited : Storage where
  refusal? _ _ := none
  limit? _ _ := none

/-- A storage with room for a number of bytes in all files together. -/
def ofCapacity (capacity : Nat) : Storage where
  refusal? _ _ := none
  limit? files _ :=
    let used := files.foldl (fun used file => used + file.2.size) 0
    some (capacity - used, .noSpace)

end Storage

/-! ## File systems -/

/-- Files, and what has been written to standard output. -/
structure FileSystem where
  /-- Where relative paths begin. -/
  workingDirectory : List String
  files : List (List String × ByteArray)
  storage : Storage
  /-- Standard output is a pipe or a terminal, which takes all that is written to
  it, one text after the other. -/
  printed : ByteArray

/-- What a path leads to. -/
inductive Place
  | file (names : List String)
  | device (device : Device)
  | directory (names : List String)
  /-- A name in an existing directory that nothing has. -/
  | vacant (names : List String)
  deriving DecidableEq

namespace FileSystem

/-- The file system in which a working directory holds the given files, and
nothing else holds any. -/
def ofDirectory (files : List (String × ByteArray)) : FileSystem where
  workingDirectory := ["tmp", "work"]
  files := files.map fun file =>
    (["tmp", "work"] ++ (Path.ofCharacters file.1.toList).names, file.2)
  storage := .unlimited
  printed := .empty

/-- The directories that stand at the root by convention. -/
def rootDirectories : List String :=
  ["bin", "boot", "dev", "etc", "home", "lib", "media", "mnt", "opt", "proc",
    "root", "run", "sbin", "srv", "sys", "tmp", "usr", "var"]

/-- The content of the file under the given names. -/
def content? (system : FileSystem) (names : List String) : Option ByteArray :=
  system.files.lookup names

/-- The names lead to a directory, unless they lead to a file. -/
def isDirectory (system : FileSystem) (names : List String) : Bool :=
  names.isPrefixOf system.workingDirectory ||
    rootDirectories.any (fun name => names.isPrefixOf [name]) ||
    system.files.any (fun file => names.isPrefixOf file.1)

/-! ## Following paths -/

/-- What the given names lead to from the root. -/
def placeAt (system : FileSystem) (names : List String) : Place :=
  match Device.ofNames? names with
  | some device => .device device
  | none =>
      if (system.content? names).isSome then
        .file names
      else if system.isDirectory names then
        .directory names
      else
        .vacant names

/-- Follow one name of a path.  The root is its own parent. -/
def follow (system : FileSystem) (place : Place) (name : String) :
    Except FileFault Place :=
  match place with
  | .file _ | .device _ => .error .notDirectory
  | .vacant _ => .error .missing
  | .directory names =>
      if name = "." then
        .ok (.directory names)
      else if name = ".." then
        .ok (.directory names.dropLast)
      else if Path.maximumNameSize < name.utf8ByteSize then
        .error .nameTooLong
      else
        .ok (system.placeAt (names ++ [name]))

/-- Follow names from the root or from the working directory. -/
def followAll (system : FileSystem) (isAbsolute : Bool) (names : List String) :
    Except FileFault Place :=
  names.foldlM system.follow
    (.directory (if isAbsolute then [] else system.workingDirectory))

/-- What a path leads to for reading. -/
def source (system : FileSystem) (path : Path) : Except FileFault Place :=
  system.followAll path.isAbsolute
    (if path.endsWithSlash then path.names ++ ["."] else path.names)

/-- What a path leads to for writing.  A path with a slash at its end is
refused before its last name is looked at. -/
def target (system : FileSystem) (path : Path) : Except FileFault Place :=
  if path.endsWithSlash then
    match system.followAll path.isAbsolute (path.names.dropLast ++ ["."]) with
    | .error fault => .error fault
    | .ok _ => .error .isDirectory
  else
    system.followAll path.isAbsolute path.names

/-- What the path that a text denotes leads to for writing. -/
def destination (system : FileSystem) (text : String) :
    Except FileFault Place :=
  Path.ofText text >>= system.target

/-! ## Reading and writing -/

/-- Read what a path leads to. -/
def read (system : FileSystem) (text : String) : Except FileFault ByteArray := do
  match ← system.source (← Path.ofText text) with
  | .file names =>
      match system.content? names with
      | some content => .ok content
      | none => .error .missing
  | .device device => device.read
  | .directory _ => .error .isDirectory
  | .vacant _ => .error .missing

/-- Put a file under the given names, in place of one with the same names. -/
def put (system : FileSystem) (names : List String) (content : ByteArray) :
    FileSystem :=
  if (system.content? names).isSome then
    { system with
      files := system.files.map fun file =>
        if file.1 = names then (names, content) else file }
  else
    { system with files := system.files ++ [(names, content)] }

/-- Open a file for writing, which creates it or leaves nothing in it. -/
def openFile (system : FileSystem) (names : List String) :
    Except FileFault FileSystem :=
  match system.storage.refusal? system.files names with
  | some fault => .error fault
  | none => .ok (system.put names .empty)

/-- Write to a file that was opened and holds nothing yet.  What the storage
does not take is lost. -/
def fill (system : FileSystem) (names : List String) (content : ByteArray) :
    Except FileFault Unit × FileSystem :=
  match system.storage.limit? system.files names with
  | none => (.ok (), system.put names content)
  | some (size, fault) =>
      if content.size ≤ size then
        (.ok (), system.put names content)
      else
        (.error fault, system.put names (content.extract 0 size))

/-- Write a file, in place of what is there. -/
def replace (system : FileSystem) (names : List String) (content : ByteArray) :
    Except FileFault Unit × FileSystem :=
  match system.openFile names with
  | .error fault => (.error fault, system)
  | .ok opened => opened.fill names content

/-- Write to standard output, after what was written there before. -/
def print (system : FileSystem) (content : ByteArray) : FileSystem :=
  { system with printed := system.printed ++ content }

theorem print_empty (system : FileSystem) : system.print .empty = system := by
  rw [print, ByteArray.append_empty]

/-- Write to a device.  As standard output is a pipe or a terminal, what was
written there before stays. -/
def send (system : FileSystem) (device : Device) (content : ByteArray) :
    Except FileFault Unit × FileSystem :=
  match device with
  | .full =>
      if content.size = 0 then (.ok (), system) else (.error .noSpace, system)
  | .standardOutput => (.ok (), system.print content)
  | .null | .standardInput | .standardError => (.ok (), system)

/-- Write to what a path leads to; how the write ends, and the file system after
it. -/
def write (system : FileSystem) (text : String) (content : ByteArray) :
    Except FileFault Unit × FileSystem :=
  match system.destination text with
  | .ok (.file names) | .ok (.vacant names) => system.replace names content
  | .ok (.device device) => system.send device content
  | .ok (.directory _) => (.error .isDirectory, system)
  | .error fault => (.error fault, system)

/-- Files are read and written in the current state of the file system. -/
instance : FileAccess (StateM FileSystem) where
  read path := do
    return (← get).read path
  write path content :=
    modifyGet fun system => system.write path content

/-! ## Comparing states -/

/-- The files below the working directory, under the names that lead to them
from there. -/
def workingFiles (system : FileSystem) : List (List String × ByteArray) :=
  system.files.filterMap fun file =>
    (system.workingDirectory.isPrefixOf? file.1).map fun names =>
      (names, file.2)

/-- The files below the working directory that are new or hold other bytes than
in an earlier state. -/
def changedSince (system earlier : FileSystem) :
    List (List String × ByteArray) :=
  system.workingFiles.filter fun file =>
    (earlier.workingFiles.lookup file.1).map ByteArray.toList ≠
      some file.2.toList

end FileSystem

end MipsAssembler.CommandLine
