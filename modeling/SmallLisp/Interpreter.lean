import SmallLisp.Evaluator

/-!
# The bundled definitions and the interpreter

The text that an interpreter evaluates when it starts, and what else there is to starting one.
-/

/-!
## The bundled definitions

The text that an interpreter evaluates when it starts, written in the language itself: definition
forms, conditionals, binding forms and structural equality.
-/

namespace SmallLisp

/-- The lines of the bundled definitions. -/
def preludeLines : List String :=
  [";; Definitions every interpreter starts with, built from the core forms.",
    "",
    "(setq defmacro",
    "      (macro (name args &rest body)",
    "             `(progn (setq ,name (macro ,args ,@body))",
    "                     ',name)))",
    "",
    "(defmacro defun (name args &rest body)",
    "  `(progn (setq ,name (lambda ,args ,@body))",
    "          ',name))",
    "",
    "(defun caar (x) (car (car x)))",
    "(defun cadr (x) (car (cdr x)))",
    "(defun cdar (x) (cdr (car x)))",
    "(defun cddr (x) (cdr (cdr x)))",
    "",
    "(defun not (x) (eq x nil))",
    "(setq null not)",
    "",
    "(defmacro if (test then &rest else)",
    "  `(cond (,test ,then)",
    "         (t nil ,@else)))",
    "",
    "(defmacro when (test &rest body)",
    "  `(cond (,test nil ,@body)))",
    "",
    "(defmacro unless (test &rest body)",
    "  `(cond (,test nil)",
    "         (t nil ,@body)))",
    "",
    "(defmacro let (bindings &rest body)",
    "  `((lambda ,(mapcar (lambda (b) (if (atom b) b (car b))) bindings)",
    "      ,@body)",
    "    ,@(mapcar (lambda (b) (if (atom b) nil (cadr b))) bindings)))",
    "",
    "(defmacro and (x &rest y)",
    "  (if (null y)",
    "      x",
    "    `(cond (,x (and ,@y)))))",
    "",
    "(defmacro or (x &rest y)",
    "  (if (null y)",
    "      x",
    "    `(cond (,x)",
    "           ((or ,@y)))))",
    "",
    ";; $result is private to each expansion.",
    "(defmacro prog1 (x &rest body)",
    "  `((lambda ($result) ,@body $result) ,x))",
    "",
    "(defun nth (n x)",
    "  (if (= n 0)",
    "      (car x)",
    "    (nth (- n 1) (cdr x))))",
    "",
    ";; Structural equality: pairs and vectors by contents, strings by text.",
    "(defun equal (x y)",
    "  (cond ((atom x)",
    "         (cond ((vectorp x)",
    "                (and (vectorp y)",
    "                     (equal (_sequence-to-list x) (_sequence-to-list y))))",
    "               ((stringp x) (and (stringp y) (string= x y)))",
    "               (t (eql x y))))",
    "        ((atom y) nil)",
    "        ((equal (car x) (car y))",
    "         (equal (cdr x) (cdr y)))))"]

/-- The bundled definitions as one text. -/
def preludeText : String := "\n".intercalate preludeLines ++ "\n"

/-!
## Interpreters

A new interpreter has its first global bindings, the natives, and the bundled definitions unless the
configuration leaves them out. After that it runs scripts, loads files, applies callables and forces
promises; each of these leaves a state to go on with, also when it fails.
-/

open Eval

namespace Interpreter

/-- The release and the implementation that programs can ask for. -/
def release : Float := Double.nearest false 94 10

def implementation : String := "Rust"

/-- The bindings that come before all others. -/
def seed : Eval Unit := do
  modify (·.setGlobal Symbol.error (.sym Symbol.error))
  modify (·.setGlobal Symbol.t (.sym Symbol.t))
  let name ← alloc (·.newText implementation)
  let version ← list [.double release, name]
  modify (·.setGlobal Symbol.version version)
  modify (·.setGlobal Symbol.eof .eof)

/-- Bind a native to its name. -/
def install (n : Native) : Eval Unit := do
  let s ← intern n.name
  let v ← alloc (·.newCallable (.native n))
  modify (·.setGlobal s v)

/-- Bind natives in order. -/
def installAll : List Native → Eval Unit
  | [] => pure ()
  | n :: ns => do
      install n
      installAll ns

/-- Run the text as a script, stopping at the first failure. -/
def runText (E : Engine) (text : String) : Eval Value := Script.run E (.ofText text)

/-- What a new interpreter does before anything else. -/
def boot (E : Engine) : Eval Unit := do
  seed
  installAll Native.all
  if ← gets (·.config.loadPrelude) then
    let _ ← runText E preludeText

/-- A machine before it is booted. -/
def blank (config : Config) (console : LineSource) (sink : Sink) (folder : Folder) : State :=
  { store := { capacity := config.heapCapacity }, console, sink, folder, config }

/-- A new interpreter. -/
def start (E : Engine) (config : Config) (console : LineSource) (sink : Sink) (folder : Folder) :
    Outcome Unit :=
  boot E (blank config console sink folder)

/-! ## Listening to a script -/

/-- A receiver that keeps the text of every value and every failure, in order. -/
def collector : Receiver (Array (Except Failure String)) where
  receive record
    | .ok v => do
        let text ← textOf v
        pure (record.push (.ok text))
    | .error f => pure (record.push (.error f))

/-- A receiver that prints every value after an arrow, and every failure in full. -/
def echo : Receiver Unit where
  receive _
    | .ok v => do
        let text ← textOf v
        write ("=> " ++ text ++ "\n")
    | .error f => write (f.display ++ "\n")

/-- Run a source with every outcome kept. -/
def runCollecting (E : Engine) (source : LineSource) :
    Eval (Except Failure Value × Array (Except Failure String)) :=
  Script.runWith E (some collector) (.own {} source) #[]

/-- Run what the console holds, printing every outcome. -/
def runConsole (E : Engine) : Eval Value := do
  let (result, _) ← Script.runWith E (some echo) (.console {}) ()
  ofExcept result

end Interpreter

end SmallLisp
