import SortedTables.ByteStore
import SortedTables.Path

/-!
# The directory of table files

Tables are files in one directory. A file has an identity apart from its name: whoever opened it goes
on reading it after its name was removed, and sees the new bytes after it was written again under
its name. Reading asks for an exact range of bytes and fails if the file ends before it.

New files are made in the directory itself only. A file that was put in some other place is found
there by the names on its path.
-/

namespace SortedTables

/-- The identity of a file. -/
abbrev FileId := Nat

/-- The files of a directory. -/
structure Disk where
  /-- The places in use, by the names that lead there, each with its file. -/
  places : List (List String × FileId)
  /-- The contents of every file there ever was, by identity. -/
  contents : List ByteStore

namespace Disk

/-- The directory without files. -/
def empty : Disk := ⟨[], []⟩

/-- Whether names lead through a file on their way. -/
def hasFileOn (disk : Disk) (names : List String) : Bool :=
  (List.range names.length).any fun count => (disk.places.lookup (names.take count)).isSome

/-- Why no file is found where names lead to: they lead to a directory, or the first one that is
looked up is too long, or they lead through a file, or there is nothing. -/
def absence (disk : Disk) (names : List String) : IoFault :=
  match Path.entered names with
  | [] => .isADirectory
  | name :: _ =>
    if Path.maxNameSize < name.utf8ByteSize then .invalidName
    else if disk.hasFileOn names then .notADirectory
    else .notFound

/-- The file that a path leads to. -/
def find (disk : Disk) (path : String) : Except IoFault FileId :=
  match Path.parse path with
  | .error fault => .error fault
  | .ok path =>
    match disk.places.lookup path.names with
    | none => .error (disk.absence path.names)
    | some file => if path.endsWithSlash then .error .notADirectory else .ok file

/-- Whether a path leads to a file. -/
def hasFile (disk : Disk) (path : String) : Bool :=
  (disk.find path).toBool

/-- The content of a file. -/
def store (disk : Disk) (file : FileId) : ByteStore :=
  disk.contents.getD file (.ofBytes [])

/-- The bytes of a file. -/
def content (disk : Disk) (file : FileId) : Bytes :=
  (disk.store file).bytes

/-- The bytes of the file that a path leads to. -/
def read (disk : Disk) (path : String) : Except IoFault Bytes :=
  (disk.find path).map disk.content

/-- Reads a range of a file. -/
def readRange (disk : Disk) (file : FileId) (start length : Nat) : Except IoFault Bytes :=
  match Bytes.cut? length ((disk.store file).startingAt start) with
  | some (range, _) => .ok range
  | none => .error .unexpectedEnd

/-- A range is read exactly if the file has all of it. -/
theorem readRange_eq_ok_iff {disk : Disk} {file : FileId} {start length : Nat} {range : Bytes} :
    disk.readRange file start length = .ok range ↔
      range = ((disk.content file).drop start).take length ∧ range.length = length := by
  simp only [readRange, ByteStore.startingAt_eq_drop, content]
  split
  · next found =>
    obtain ⟨whole, size⟩ := Bytes.cut?_eq_some_iff.mp found
    rw [whole, ← size, List.take_left]
    constructor
    · intro same
      cases same
      exact ⟨rfl, rfl⟩
    · rintro ⟨same, _⟩
      rw [same]
  · next missing =>
    have short := Bytes.cut?_eq_none_iff.mp missing
    constructor
    · intro same
      cases same
    · rintro ⟨rfl, size⟩
      rw [List.length_take] at size
      omega

/-- A directory with one file, at the end of a path. -/
def ofFile (path : String) (bytes : Bytes) : Disk :=
  match Path.parse path with
  | .error _ => empty
  | .ok path => ⟨[(path.names, 0)], [.ofBytes bytes]⟩

/-- Writes a file in the directory, under a name that no file has. -/
def create (disk : Disk) (name : String) (bytes : Bytes) : Disk × FileId :=
  (⟨([name], disk.contents.length) :: disk.places, disk.contents ++ [.ofBytes bytes]⟩,
    disk.contents.length)

/-- Writes a file under a path: the file that is there already gets the new bytes. A slash behind the
name of a file to be made is refused before the name is looked up. -/
def write (disk : Disk) (path : String) (bytes : Bytes) : Except IoFault (Disk × FileId) :=
  match Path.parse path with
  | .error fault => .error fault
  | .ok path =>
    if path.endsWithSlash ∧ (Path.entered path.names).length = 1 then
      .error .isADirectory
    else
      match disk.places.lookup path.names with
      | some file => .ok (⟨disk.places, disk.contents.set file (.ofBytes bytes)⟩, file)
      | none =>
        match path.names, disk.absence path.names with
        | [name], .notFound => .ok (disk.create name bytes)
        | _, fault => .error fault

/-- Removes the name that a path leads to. -/
def remove (disk : Disk) (path : String) : Except IoFault Disk :=
  match disk.find path with
  | .error fault => .error fault
  | .ok file => .ok { disk with places := disk.places.filter (·.2 != file) }

end Disk

end SortedTables
