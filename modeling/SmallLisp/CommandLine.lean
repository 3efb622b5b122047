import SmallLisp.Interpreter

/-!
# The command line

Arguments name the files to run in order, or the standard input, and options. The whole run is a
function from what a process is given to what it leaves behind.
-/

namespace SmallLisp

namespace CommandLine

/-- What is to be run. -/
inductive Script where
  | file (path : String)
  | console
deriving DecidableEq, Repr

/-- What the arguments ask for. -/
inductive Plan where
  | run (config : Config) (scripts : List Script)
  | help
  | unknown (argument : String)

/-- What a process is given. -/
structure Invocation where
  arguments : List String
  input : ByteArray
  folder : Folder := {}
  environment? : String → Option String := fun _ => none

/-- What a process leaves behind. -/
structure Response where
  output : String := ""
  errors : String := ""
  code : Nat
  /-- The paths that were opened, last first. -/
  opened : List String := []

/-- The text of `--help`. -/
def helpText : String :=
  "\n".intercalate
    ["Usage: l2lisp [OPTIONS] [FILE|-]...",
      "",
      "Runs each FILE in order. With no FILE, or for '-', reads standard input:",
      "interactively on a terminal, otherwise as a script.",
      "",
      "Options:",
      "  --no-prelude   Start without the bundled definitions (defun, let, if, ...)",
      "  --help, -h     Show this help message",
      "",
      "Environment variables:",
      "  L2LISP_HEAP_CELLS            Cons cells available (default 67108864)",
      "  L2LISP_MAX_MACRO_EXPANSIONS  Nested macro expansion limit (default 30)",
      "  L2LISP_MAX_TRACES            Forms kept in an error trace (default 20)",
      "  L2LISP_NO_PRELUDE            Same as --no-prelude",
      "  RUST_LOG                     Log filter, e.g. RUST_LOG=l2lisp=debug",
      ""]

/-- What is said about an argument that is not known. -/
def unknownText (argument : String) : String :=
  "Unknown argument: " ++ argument ++ "\nTry 'l2lisp --help' for usage information.\n"

/-- Read the arguments in order, the first that decides the matter winning; scripts so far come last
first. Without any script the standard input is run. -/
def planFrom (config : Config) : List String → List Script → Plan
  | [], [] => .run config [.console]
  | [], scripts => .run config scripts.reverse
  | a :: rest, scripts =>
      if a = "--no-prelude" then planFrom { config with loadPrelude := false } rest scripts
      else if a = "--help" ∨ a = "-h" then .help
      else if a = "-" then planFrom config rest (.console :: scripts)
      else if a.startsWith "-" then .unknown a
      else planFrom config rest (.file a :: scripts)

/-- What a process is asked for. -/
def plan (inv : Invocation) : Plan := planFrom (.ofEnvironment inv.environment?) inv.arguments []

/-- Run scripts in order; the first that fails ends the run. -/
def runScripts (E : Engine) : List Script → Eval Unit
  | [] => pure ()
  | .file path :: rest => do
      let _ ← SmallLisp.Script.load E path
      runScripts E rest
  | .console :: rest => do
      let _ ← Interpreter.runConsole E
      runScripts E rest

/-- What is left behind when a computation ends. -/
def respond {α : Type} : Outcome α → Response
  | .ok _ s => { output := s.sink.text, code := 0, opened := s.opened }
  | .halt (.failed f) s =>
      { output := s.sink.text, errors := f.display ++ "\n", code := 1, opened := s.opened }
  | .halt (.exited code) s => { output := s.sink.text, code, opened := s.opened }
  | .halt .exhausted s => { output := s.sink.text, code := 101, opened := s.opened }

/-- Run a process. -/
def run (E : Engine) (inv : Invocation) : Response :=
  match plan inv with
  | .help => { output := helpText, code := 0 }
  | .unknown argument => { errors := unknownText argument, code := 1 }
  | .run config scripts =>
      let whole : Eval Unit := do
        Interpreter.boot E
        runScripts E scripts
      respond (whole (Interpreter.blank config (.ofBytes inv.input) {} inv.folder))

end CommandLine

end SmallLisp
