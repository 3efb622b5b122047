import SmallLisp.Text
import SmallLisp.Folder
import SmallLisp.Printer
import SmallLisp.Reader

/-!
# Configuration and state

The limits that an interpreter works under, and all that it works on.
-/

/-!
## Configuration

The limits an interpreter works under, and how environment variables override them.
-/

namespace SmallLisp

/-- The limits of an interpreter. -/
structure Config where
  /-- Cells that can be allocated before allocation fails. -/
  heapCapacity : Nat := 64 * 1024 * 1024
  /-- Expansions of expansions allowed while one body is compiled. -/
  maxMacroExpansions : Nat := 30
  /-- Forms recorded in a failure's trace. -/
  maxTraces : Nat := 20
  /-- Times the printer may enter a node again that it has printed. -/
  maxPrintRepeats : Nat := 10
  /-- Whether the bundled definitions are evaluated at the start. -/
  loadPrelude : Bool := true
deriving Repr, DecidableEq

namespace Config

/-- The default limits without the bundled definitions. -/
def bare : Config := { loadPrelude := false }

/-- A count as written in an environment variable: digits with an optional plus sign, of at most 64
bits, blanks around it ignored. -/
def count? (raw : String) : Option Nat :=
  let body :=
    match Text.trim raw.toList with
    | '+' :: cs => cs
    | cs => cs
  (Text.natural? 10 body).filter (· < Nat.pow 2 64)

/-- The defaults with the overrides found in the environment. A variable that is no count is
ignored. -/
def ofEnvironment (environment? : String → Option String) : Config :=
  let count (name : String) (default : Nat) := ((environment? name).bind count?).getD default
  let base : Config := {}
  { base with
    heapCapacity := count "L2LISP_HEAP_CELLS" base.heapCapacity
    maxMacroExpansions := count "L2LISP_MAX_MACRO_EXPANSIONS" base.maxMacroExpansions
    maxTraces := count "L2LISP_MAX_TRACES" base.maxTraces
    loadPrelude := (environment? "L2LISP_NO_PRELUDE").isNone }

end Config

/-!
## The state of the machine

Everything a program can reach: the store, the symbols and their global values, the frames of
lexical variables, where text comes from and where it goes.
-/

/-- Where printed text goes. -/
structure Sink where
  text : String := ""
  /-- How many bytes are still accepted; none for no limit. -/
  room : Option Nat := none

namespace Sink

/-- Whether there is room for all of a text. -/
def accepts (s : Sink) (text : String) : Bool :=
  match s.room with
  | none => true
  | some room => decide (text.utf8ByteSize ≤ room)

/-- Add text that there is room for. -/
def add (s : Sink) (text : String) : Sink :=
  { text := s.text ++ text, room := s.room.map (· - text.utf8ByteSize) }

end Sink

/-- Everything a program can reach. -/
structure State where
  store : Store
  symbols : SymbolTable := .new
  /-- The global binding of each symbol, at the symbol's index. -/
  globals : Array (Option Value) := #[]
  frames : Frames := {}
  /-- Where the forms that a program reads come from, and how far they are read. -/
  console : LineSource
  reader : Reader := {}
  sink : Sink := {}
  folder : Folder := {}
  config : Config := {}
  /-- The requests made of sources whose requests are of interest. -/
  requests : Array Request := #[]
  /-- The paths that were opened, last first. -/
  opened : List String := []

namespace State

/-- The global value of a symbol. -/
def global? (s : State) (name : Symbol) : Option Value := (s.globals[name.index]?).join

/-- Bind a symbol globally. -/
def setGlobal (s : State) (name : Symbol) (v : Value) : State :=
  let globals := s.globals
  let s := { s with globals := #[] }
  let globals :=
    if name.index < globals.size then globals
    else globals ++ Array.replicate (name.index + 1 - globals.size) none
  { s with globals := globals.setIfInBounds name.index (some v) }

/-- Look a global up by its name. -/
def globalNamed? (s : State) (name : String) : Option Value :=
  (s.symbols.lookup? name).bind s.global?

/-- Every global binding, ordered by name. -/
def bindings (s : State) : List (Symbol × Value) :=
  let bound := (List.range s.globals.size).filterMap fun i =>
    (s.global? ⟨i⟩).map fun v => ((⟨i⟩ : Symbol), v)
  bound.mergeSort fun a b => decide (s.symbols.name a.1 ≤ s.symbols.name b.1)

/-- Keep the requests made of a source whose requests are of interest. -/
def note (s : State) (src : LineSource) : State × LineSource :=
  if src.recorded then
    ({ s with requests := s.requests ++ src.requests.reverse.toArray },
      { src with requests := [] })
  else (s, { src with requests := [] })

/-- Take out what was printed so far. -/
def takeText (s : State) : String × State :=
  (s.sink.text, { s with sink := { s.sink with text := "" } })

/-- Take out the requests noted so far. -/
def takeRequests (s : State) : List Request × State :=
  (s.requests.toList, { s with requests := #[] })

end State

end SmallLisp
