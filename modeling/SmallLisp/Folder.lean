import SmallLisp.Source

/-!
# Files

The files a program can load, as an association from paths to what stands there. A path that is not
known as it is written is followed component by component: from the working directory, or from the
root if it is absolute.
-/

namespace SmallLisp

/-- What stands at a path. -/
inductive FileEntry where
  | file (bytes : ByteArray)
  | directory
  /-- It cannot be opened, for the reason given. -/
  | refused (message : String)

/-- The files of a working directory by their paths. -/
structure Folder where
  entries : List (String × FileEntry) := []

namespace Folder

/-- The wording of a path that leads nowhere. -/
def missing : String := "No such file or directory (os error 2)"

/-- The wording of a path that goes on behind a file. -/
def notDirectory : String := "Not a directory (os error 20)"

/-- The wording of reading a directory. -/
def isDirectory : String := "Is a directory (os error 21)"

/-- The wording of a path or a component of it that is too long. -/
def tooLong : String := "File name too long (os error 36)"

/-- The wording of a path that no system accepts. -/
def nulByte : String := "file name contained an unexpected NUL byte"

/-- Where a path starts, as components. -/
def origin (path : String) : List String := if path.startsWith "/" then ["/"] else []

/-- The components of a path, without those that stay where they are. -/
def components (path : String) : List String :=
  origin path ++ (path.splitOn "/").filter fun c => c ≠ "" ∧ c ≠ "."

/-- The components that lead to the directory around. -/
def parent (here : List String) : List String :=
  match here.getLast? with
  | none => [".."]
  | some "/" => here
  | some ".." => here ++ [".."]
  | some _ => here.dropLast

/-- The entry at the path made of these components. -/
def entry? (d : Folder) (parts : List String) : Option FileEntry :=
  (d.entries.find? fun e => components e.1 = parts).map (·.2)

/-- Whether some entry lies below the path made of these components. -/
def isAbove (d : Folder) (parts : List String) : Bool :=
  d.entries.any fun e =>
    let below := components e.1
    parts.length < below.length && parts.isPrefixOf below

/-- What is found by following components from a directory. Only the last one can be a file. -/
def walk (d : Folder) : List String → List String → FileEntry
  | _, [] => .directory
  | here, c :: ahead =>
      let there := here ++ [c]
      if c = "" ∨ c = "." then d.walk here ahead
      else if c = ".." then d.walk (parent here) ahead
      else if 255 < c.utf8ByteSize then .refused tooLong
      else
        match d.entry? there with
        | some (.file bytes) => if ahead.isEmpty then .file bytes else .refused notDirectory
        | some (.refused message) => .refused message
        | some .directory => d.walk there ahead
        | none => if d.isAbove there then d.walk there ahead else .refused missing

/-- What stands at a path. -/
def find (d : Folder) (path : String) : FileEntry :=
  if path.isEmpty then .refused missing
  else if path.toList.contains (Char.ofNat 0) then .refused nulByte
  else
    match d.entries.lookup path with
    | some e => e
    | none =>
        if 4095 < path.utf8ByteSize then .refused tooLong
        else d.walk (origin path) (path.splitOn "/")

/-- The lines of the file at a path, or why it cannot be opened. A directory can be opened, but not
read. -/
def source (d : Folder) (path : String) : Except String LineSource :=
  match d.find path with
  | .file bytes => .ok (.ofBytes bytes)
  | .directory => .ok (.failing isDirectory)
  | .refused message => .error ("cannot open '" ++ path ++ "': " ++ message)

end Folder

end SmallLisp
