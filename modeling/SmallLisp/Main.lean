import SmallLisp.CommandLine

/-!
# The program

Standard input, arguments, environment variables and files are handed to `CommandLine.run`, and
what it leaves behind is written out. Files are found by running again: a run tells which paths it
opened, those that exist are read, and the next run knows them. Nothing is written before a run that
asked for no new file.
-/

namespace SmallLisp.Program

/-- Fuel that no run uses up. -/
def fuel : Nat := Nat.pow 2 62

/-- What stands at a path. -/
def entryAt (path : String) : IO (Option FileEntry) := do
  try
    let bytes ← IO.FS.readBinFile path
    return some (.file bytes)
  catch
    | .noFileOrDirectory .. => return none
    | .permissionDenied .. => return some (.refused "Permission denied (os error 13)")
    | .inappropriateType .. => return some .directory
    | _ => return none

/-- Run until no new file is asked for. -/
partial def settle (inv : CommandLine.Invocation) : IO CommandLine.Response := do
  let response := CommandLine.run (.ofFuel fuel) inv
  let unknown := response.opened.filter fun path => !inv.folder.entries.any (·.1 == path)
  let mut found := []
  for path in unknown.eraseDups do
    match ← entryAt path with
    | some entry => found := (path, entry) :: found
    | none => pure ()
  if found.isEmpty then return response
  else settle { inv with folder := ⟨found ++ inv.folder.entries⟩ }

/-- The value of each environment variable that matters. -/
def settings : IO (List (String × String)) := do
  let names := ["L2LISP_HEAP_CELLS", "L2LISP_MAX_MACRO_EXPANSIONS", "L2LISP_MAX_TRACES",
    "L2LISP_NO_PRELUDE"]
  names.filterMapM fun name => do
    let value? ← IO.getEnv name
    return value?.map fun value => (name, value)

/-- Everything on standard input. -/
partial def readAll (stream : IO.FS.Stream) (bytes : ByteArray) : IO ByteArray := do
  let chunk ← stream.read 65536
  if chunk.isEmpty then return bytes else readAll stream (bytes ++ chunk)

end SmallLisp.Program

open SmallLisp SmallLisp.Program in
def main (args : List String) : IO UInt32 := do
  let env ← settings
  let inv : CommandLine.Invocation :=
    { arguments := args, input := ByteArray.empty, environment? := fun name => env.lookup name }
  let input ←
    match CommandLine.plan inv with
    | .run .. => readAll (← IO.getStdin) ByteArray.empty
    | _ => pure ByteArray.empty
  let response ← settle { inv with input }
  IO.print response.output
  IO.eprint response.errors
  return UInt32.ofNat response.code
