import SortedTables.Cursor.Bounded
import SortedTables.Cursor.Merge
import SortedTables.KeyStream
import SortedTables.TableSource

/-!
# Reading a set of files

A set of table files is read as one sequence of keys, each once. The order in which the files are
listed matters only where the policy for duplicates says so. Nothing is opened before a stream is
asked for; then all files are, and if one cannot be, there is no stream.

`FileSet.liveKeys` gives the keys with a live entry in some file, `FileSet.allKeys` every key, with
whether the entry that counts is a tombstone.
-/

namespace SortedTables

/-- A set of table files. -/
structure FileSet where
  /-- The paths of the files in listing order. -/
  paths : List String
  /-- Which entry counts when several files have the same key. -/
  policy : DuplicatePolicy
  /-- How dumps can be had; that of the process if none. -/
  rawScan : Option Capability
deriving DecidableEq

/-- The cursor under a stream over files. -/
abbrev FileSetCursor : Type := Merge (Bounded TableSource)

namespace FileSet

/-- A set of files with the usual options. -/
def ofPaths (paths : List String) : FileSet := ⟨paths, .newestSequence, none⟩

/-- The number of entries in all files, tombstones and duplicates included. It is added up in eight
bytes. -/
def estimatedKeys (disk : Disk) (files : FileSet) : Except ReaderFault UInt64 :=
  files.paths.foldlM (fun total path =>
    match Table.openPath disk path with
    | .error fault => .error (.fileOpen path (.table fault))
    | .ok table => .ok (total + .ofNat table.properties.entries)) 0

/-- How dumps can be had. -/
def capability (host : Host) (files : FileSet) : Capability :=
  files.rawScan.getD host.detected

/-- Opens a file for the entries that a stream needs. -/
def openFile (host : Host) (capability? : Option Capability) (lower upper : Option Key)
    (path : String) : Except ReaderFault TableSource :=
  match capability? with
  | some capability => TableSource.openRaw host capability path (.between lower upper)
  | none => TableSource.openLive host.disk path lower

/-- The lower end of a stream. -/
def lowerBound : Option Key → Bound
  | none => .unbounded
  | some key => .included key

/-- The upper end of a stream. -/
def upperBound : Option Key → Bound
  | none => .unbounded
  | some key => .excluded key

/-- Opens a file and restricts it to the ends of a stream. -/
def openSource (host : Host) (capability? : Option Capability) (lower upper : Option Key)
    (path : String) : Except ReaderFault (Bounded TableSource) :=
  match openFile host capability? lower upper path with
  | .error fault => .error fault
  | .ok source =>
    let step := Bounded.create host.disk source (lowerBound lower) (upperBound upper)
    match step.fault with
    | none => .ok step.state
    | some fault => .error (.ofFault (some path) fault)

/-- Opens all files and merges them. -/
def openAll (host : Host) (files : FileSet) (mode : ReadMode) (capability? : Option Capability)
    (lower upper : Option Key) : Except ReaderFault (KeyStream FileSetCursor) :=
  match files.paths.mapM (openSource host capability? lower upper) with
  | .error fault => .error fault
  | .ok sources =>
    .ok (.ofCursor mode (.create files.policy sources) (upperBound upper))

/-- The live keys from a lower key on and below an upper one. -/
def liveKeys (host : Host) (files : FileSet) (lower upper : Option Key) :
    Except ReaderFault (KeyStream FileSetCursor) :=
  if files.paths = [] then .ok (.empty .live)
  else files.openAll host .live none lower upper

/-- All keys from a lower key on and below an upper one, with whether they are deleted. No file is
opened if dumps cannot be had. -/
def allKeys (host : Host) (files : FileSet) (lower upper : Option Key) :
    Except ReaderFault (KeyStream FileSetCursor) :=
  if files.paths = [] then
    .ok (.empty .withTombstones)
  else if (files.capability host).isAvailable then
    files.openAll host .withTombstones (some (files.capability host)) lower upper
  else
    .error .capabilityUnavailable

/-- The keys that a mode asks for. -/
def keys (host : Host) (files : FileSet) (mode : ReadMode) (lower upper : Option Key) :
    Except ReaderFault (KeyStream FileSetCursor) :=
  match mode with
  | .live => files.liveKeys host lower upper
  | .withTombstones => files.allKeys host lower upper

end FileSet

end SortedTables
