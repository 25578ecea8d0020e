import SortedTables.CommandLine
import SortedTables.Proofs.Dump.Text

/-!
# The dump command run as a tool

A scan asks a tool for a dump by arguments: the bounds as options with hexadecimal values attached, and
the path behind them. The dump command reads them as they were meant (`parse?_toolArguments`), unless
the path begins with a dash. So it writes the lines that the library gives for the same range, and its
status tells whether a block could not be read (`dumpTool_toolArguments`).
-/

namespace SortedTables

namespace DumpOptions

/-- The arguments that are options as they stand. -/
def words : List String := ["--", "--help", "--version", "--from", "--to", "--show-properties"]

/-- Of another argument it counts which option it attaches a value to, and whether it starts with a
dash. -/
theorem classify_of_not_mem {argument : String} (absent : argument ∉ words) :
    Argument.classify argument =
      match attached? "--from" argument, attached? "--to" argument with
      | some value, _ => .bound .lower (some value)
      | none, some value => .bound .upper (some value)
      | none, none =>
        match argument.toList with
        | '-' :: letter :: letters => Argument.classifyLetters (letter :: letters)
        | _ => .plain argument := by
  simp only [words, List.mem_cons, List.not_mem_nil, or_false, not_or] at absent
  obtain ⟨noDashes, noHelp, noVersion, noLower, noUpper, noProperties⟩ := absent
  rw [Argument.classify, if_neg noDashes, if_neg noHelp, if_neg noVersion, if_neg noLower,
    if_neg noUpper]
  exact if_neg noProperties

/-- What starts with a name is none of the arguments that do not. -/
theorem append_not_mem_words {name : String}
    (differs : ∀ word ∈ words, DumpLine.after? name.toList word.toList = none) (text : String) :
    name ++ text ∉ words := by
  intro member
  have none := differs _ member
  rw [String.toList_append, DumpLine.after?_append] at none
  cases none

/-- The value that is attached to a name is found. -/
theorem attached?_append (name text : String) :
    attached? name (name ++ "=" ++ text) = some text := by
  have whole : (name ++ "=" ++ text).toList = (name ++ "=").toList ++ text.toList :=
    String.toList_append
  rw [attached?, whole, DumpLine.after?_append, Option.map_some, String.ofList_toList]

/-- The option for a lower bound with its value. -/
theorem classify_lower (text : String) :
    Argument.classify ("--from=" ++ text) = .bound .lower (some text) := by
  have attached : attached? "--from" ("--from=" ++ text) = some text :=
    attached?_append "--from" text
  rw [classify_of_not_mem (append_not_mem_words (by decide) text), attached]

/-- The option for an upper bound with its value. -/
theorem classify_upper (text : String) :
    Argument.classify ("--to=" ++ text) = .bound .upper (some text) := by
  have attached : attached? "--to" ("--to=" ++ text) = some text := attached?_append "--to" text
  have other : attached? "--from" ("--to=" ++ text) = none := by
    have whole : ("--to=" ++ text).toList = "--to=".toList ++ text.toList := String.toList_append
    rw [attached?, whole]
    rfl
  rw [classify_of_not_mem (append_not_mem_words (by decide) text), attached, other]

/-- An argument that does not begin with a dash is plain. -/
theorem classify_plain {text : String} (plain : text.toList.head? ≠ some '-') :
    Argument.classify text = .plain text := by
  have absent : text ∉ words := by
    intro member
    have dashes : ∀ word ∈ words, word.toList.head? = some '-' := by decide
    exact plain (dashes text member)
  have noName (name : List Char) : DumpLine.after? ('-' :: name) text.toList = none := by
    cases whole : text.toList with
    | nil => rfl
    | cons c rest =>
      rw [whole] at plain
      exact DumpLine.after?_of_ne _ _ fun same => plain (congrArg some same.symm)
  have noLower : attached? "--from" text = none :=
    congrArg (Option.map String.ofList) (noName "-from=".toList)
  have noUpper : attached? "--to" text = none :=
    congrArg (Option.map String.ofList) (noName "-to=".toList)
  rw [classify_of_not_mem absent, noLower, noUpper]
  dsimp only
  split
  · next whole =>
    rw [whole] at plain
    exact absurd rfl plain
  · rfl

variable {options : DumpOptions} {path : String}

/-- A lower bound is read behind options without one. -/
theorem parseAfter_lower (unset : options.lower = none) (key : Key) (later : List String) :
    parseAfter options (("--from=" ++ String.ofList (Hex.encode key.bytes)) :: later) =
      parseAfter { options with lower := some key } later := by
  have taken : options.setBound .lower (String.ofList (Hex.encode key.bytes)) =
      some { options with lower := some key } := by
    simp [setBound, Hex.decode?_encode, unset]
  rw [parseAfter, classify_lower]
  dsimp only
  rw [taken, Option.bind_some]

/-- An upper bound is read behind options without one. -/
theorem parseAfter_upper (unset : options.upper = none) (key : Key) (later : List String) :
    parseAfter options (("--to=" ++ String.ofList (Hex.encode key.bytes)) :: later) =
      parseAfter { options with upper := some key } later := by
  have taken : options.setBound .upper (String.ofList (Hex.encode key.bytes)) =
      some { options with upper := some key } := by
    simp [setBound, Hex.decode?_encode, unset]
  rw [parseAfter, classify_upper]
  dsimp only
  rw [taken, Option.bind_some]

/-- A path behind options without one asks for a dump. -/
theorem parseAfter_path (unset : options.path = none) (plain : path.toList.head? ≠ some '-')
    (named : path ≠ "") :
    parseAfter options [path] = some (.dump path { options with path := some path }) := by
  have taken : options.setPath path = some { options with path := some path } := by
    simp [setPath, unset, named]
  rw [parseAfter, classify_plain plain]
  dsimp only
  rw [taken, Option.bind_some, parseAfter]
  rfl

end DumpOptions

open DumpOptions

/-- The arguments of a scan ask the command for the dump of the path within the range. -/
theorem parse?_toolArguments {path : String} (plain : path.toList.head? ≠ some '-')
    (named : path ≠ "") (range : KeyRange) :
    CommandRequest.parse? (RawScan.toolArguments path range) =
      some (.dump path ⟨some path, range.lower, range.upper, false⟩) := by
  have last (lower upper : Option Key) : parseAfter ⟨none, lower, upper, false⟩ [path] =
      some (.dump path ⟨some path, lower, upper, false⟩) := parseAfter_path rfl plain named
  unfold CommandRequest.parse? RawScan.toolArguments
  cases range.lower with
  | none =>
    cases range.upper with
    | none => exact last none none
    | some upper => exact (parseAfter_upper rfl upper [path]).trans (last none (some upper))
  | some lower =>
    refine (parseAfter_lower rfl lower _).trans ?_
    cases range.upper with
    | none => exact last (some lower) none
    | some upper => exact (parseAfter_upper rfl upper [path]).trans (last (some lower) (some upper))

/-- Run with the arguments of a scan, the command writes the lines of the dump of the table. It reports
success unless a block cannot be read. -/
theorem dumpTool_toolArguments {disk : Disk} {path : String} {table : Table} {range : KeyRange}
    {entries : List Entry} {ending : Option BlockReadFault}
    (opened : Table.openPath disk path = .ok table) (plain : path.toList.head? ≠ some '-')
    (renders : table.Renders disk range (DumpStream.firstBlock table range) entries ending) :
    dumpTool disk (RawScan.toolArguments path range) =
      ⟨(DumpLine.header range :: DumpStream.linesBehind 0 entries ending).flatMap DumpLine.bytes,
        if ending.isNone then 0 else 1⟩ := by
  have named : path ≠ "" := by
    rintro rfl
    cases opened
  have isRange : DumpOptions.range ⟨some path, range.lower, range.upper, false⟩ = range := by
    rw [DumpOptions.range, KeyRange.between, dif_neg range.lower_ne_empty]
  simp only [dumpTool, CommandRun.ofArguments, parse?_toolArguments plain named, DumpOptions.run,
    isRange, Disk.dump, opened, DumpStream.drain_ofTable renders]
  cases ending <;> rfl

end SortedTables
