import SmallLisp.Value

/-!
# Failures

A failure is a cause and the forms that were being evaluated when it arose, innermost first. The
wording of every cause is `Cause.message`; the finer reasons for a malformed form, an unreadable
text or a failed native each have their own type and wording, which end up in the text the cause
carries.
-/

namespace SmallLisp

/-- Why evaluation stopped. -/
inductive Cause where
  /-- The reader met text that is no form; the line it stood on is kept. -/
  | unreadable (message : String) (lineNumber : Nat) (line : String)
  | unbound (name : String)
  | notApplicable (text : String)
  /-- A special form that is malformed or misplaced. -/
  | malformed (message : String)
  | arity (signature : String)
  | notVariable (text : String)
  | notProper (text : String)
  /-- A thrown value on its way to its catch. -/
  | thrown (tag value : Value) (text : String)
  /-- A native failed; the native's boundary turns this into `call`. -/
  | native (message : String)
  | call (message site : String)
  | storeFull (capacity : Nat)
  | io (message : String)

namespace Cause

/-- The wording of a cause. -/
def message : Cause → String
  | .unreadable message lineNumber line =>
      "SyntaxError: " ++ message ++ " -- " ++ Nat.repr lineNumber ++ ": " ++ line
  | .unbound name => "void variable: " ++ name
  | .notApplicable text => "not applicable: " ++ text
  | .malformed message => message
  | .arity signature => "arity not matched: " ++ signature
  | .notVariable text => "variable expected: " ++ text
  | .notProper text => "proper list expected: " ++ text
  | .thrown _ _ text => "no catcher for " ++ text
  | .native message => message
  | .call message site => message ++ " -- " ++ site
  | .storeFull capacity => "heap capacity of " ++ Nat.repr capacity ++ " cells exceeded"
  | .io message => "I/O error: " ++ message

/-- Failures of input and output end a script run, whoever listens. -/
def stopsScript : Cause → Bool
  | .io _ => true
  | _ => false

def isThrown : Cause → Bool
  | .thrown .. => true
  | _ => false

end Cause

/-- A cause with the forms that were being evaluated, innermost first. -/
structure Failure where
  cause : Cause
  trace : Array String := #[]

namespace Failure

/-- The wording without the trace. -/
def message (f : Failure) : String := f.cause.message

/-- Record one more enclosing form, unless `cap` forms are recorded already. -/
def pushTrace (f : Failure) (form : String) (cap : Nat) : Failure :=
  if f.trace.size < cap then { f with trace := f.trace.push form } else f

/-- A number right-aligned in three columns. -/
def column (n : Nat) : String :=
  let digits := Nat.repr n
  String.ofList (List.replicate (3 - digits.length) ' ') ++ digits

/-- The trace as numbered lines, each led by a line break. -/
def traceLines : Nat → List String → String
  | _, [] => ""
  | i, form :: forms => "\n" ++ column i ++ ": " ++ form ++ traceLines (i + 1) forms

/-- The full text: the message, then the trace line by line. -/
def display (f : Failure) : String :=
  "*** " ++ f.message ++ traceLines 0 f.trace.toList

end Failure

/-- Why text is no form. -/
inductive ReadFault where
  | unterminated
  | badEscape
  | badToken (text : String)
  | unexpected (token : String)
  | unexpectedEnd
  | closeExpected
  | strayUnquote
  | straySplice
  | storeFull (capacity : Nat)

/-- The wording of an unreadable text. -/
def ReadFault.message : ReadFault → String
  | .unterminated => "string not terminated"
  | .badEscape => "bad escape"
  | .badToken text => "bad token: " ++ text
  | .unexpected token => "unexpected \"" ++ token ++ "\""
  | .unexpectedEnd => "unexpected EOF"
  | .closeExpected => "\")\" expected"
  | .strayUnquote => "unquote outside quasiquote"
  | .straySplice => "unquote-splicing outside quasiquote"
  | .storeFull capacity => (Cause.storeFull capacity).message

/-- What is wrong with a special form or a parameter list. Texts are those of the values at
fault. -/
inductive FormFault where
  | badQuote
  | badDelay
  | badKeyword (name : String)
  | nestedMacro (text : String)
  | condTest (text : String)
  | rightValue
  | keyword (name : String)
  | tagAndBody
  | bodyAndCleanup
  | parametersAndBody
  | parameters (text : String)
  | secondRest (text : String)
  | expansionTooDeep (text : String)

/-- The wording of a malformed form. -/
def FormFault.message : FormFault → String
  | .badQuote => "bad quote"
  | .badDelay => "bad delay"
  | .badKeyword name => "bad keyword: " ++ name
  | .nestedMacro text => "nested macro: " ++ text
  | .condTest text => "cond test expected: " ++ text
  | .rightValue => "right value expected"
  | .keyword name => "keyword not expected: " ++ name
  | .tagAndBody => "tag and body expected"
  | .bodyAndCleanup => "body and cleanup expected"
  | .parametersAndBody => "arglist and body expected"
  | .parameters text => "arglist expected: " ++ text
  | .secondRest text => "2nd rest: " ++ text
  | .expansionTooDeep text => "macro expansion too deep: " ++ text

/-- Why a native refused its arguments. Texts are those of the values at fault. -/
inductive NativeFault where
  | number (text : String)
  | index (text : String)
  | string (text : String)
  | pair (text : String)
  | sequence (text : String)
  | stringOrSymbol (text : String)
  | vectorOrString (text : String)
  | vector (text : String)
  | vectors
  | outOfRange (index : Nat)
  | characterCode (text : String)
  | exitCode (text : String)
  | arithmetic (fault : NumFault)
  | file (message : String)

/-- The wording of a native's refusal. -/
def NativeFault.message : NativeFault → String
  | .number text => "number expected: " ++ text
  | .index text => "index expected: " ++ text
  | .string text => "string expected: " ++ text
  | .pair text => "pair expected: " ++ text
  | .sequence text => "sequence expected: " ++ text
  | .stringOrSymbol text => "string or symbol expected: " ++ text
  | .vectorOrString text => "vector or string expected: " ++ text
  | .vector text => "vector expected: " ++ text
  | .vectors => "vectors expected"
  | .outOfRange i => "index out of range: " ++ Nat.repr i
  | .characterCode text => "character code expected: " ++ text
  | .exitCode text => "exit code expected: " ++ text
  | .arithmetic fault => fault.message
  | .file message => message

end SmallLisp
