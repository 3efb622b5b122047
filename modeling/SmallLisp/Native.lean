import SmallLisp.Text

/-!
# Natives by name

The arguments that a callable takes, and the functions that every interpreter is born with.
-/

/-!
## Shapes

The arguments a callable takes: a number of required ones, and possibly a list of the rest. The
frame of a call has one slot for each required argument and one for the rest list.
-/

namespace SmallLisp

/-- How many arguments a callable requires, and whether it takes further ones as a list. -/
structure Shape where
  required : Nat
  hasRest : Bool
deriving DecidableEq, Repr

namespace Shape

/-- Exactly `n` arguments. -/
def fixed (n : Nat) : Shape := ⟨n, false⟩

/-- At least `n` arguments. -/
def rest (n : Nat) : Shape := ⟨n, true⟩

/-- The number of slots in a frame. -/
def arity (s : Shape) : Nat := if s.hasRest then s.required + 1 else s.required

/-- The number of slots, negative if the last one is for the rest. -/
def signedArity (s : Shape) : Int := Text.signed s.hasRest s.arity

/-- How a shape is written. -/
def format (s : Shape) : String := Text.formatInt s.signedArity

end Shape

/-!
## The natives

The functions every interpreter is born with: their names, the arguments they take, whether they
see promises unforced, and the line `help` prints. What they do is in the modules below `Native`.
-/

/-- What is known of a native without running it. -/
structure NativeSpec where
  name : String
  shape : Shape
  /-- A lazy native sees its arguments evaluated but not forced. -/
  isLazy : Bool
  doc : String

/-- Natives on lists. -/
inductive ListNative where
  | car
  | cdr
  | cons
  | list
  | append
  | length
  | rplaca
  | rplacd
  | mapcar
  | mapc
deriving DecidableEq, Repr

/-- Natives that answer yes or no. -/
inductive TestNative where
  | atom
  | eq
  | eql
  | stringp
  | integerp
  | floatp
  | symbolp
  | keywordp
  | vectorp
  | stringEq
deriving DecidableEq, Repr

/-- Natives on vectors. -/
inductive VectorNative where
  | vector
  | makeVector
  | aref
  | aset
deriving DecidableEq, Repr

/-- Natives that read and write. -/
inductive StreamNative where
  | prin1
  | princ
  | terpri
  | read
  | load
deriving DecidableEq, Repr

/-- Natives on numbers. -/
inductive NumberNative where
  | add
  | mul
  | sub
  | div
  | rem
  | equal
  | less
  | float
  | truncate
deriving DecidableEq, Repr

/-- Natives that evaluate, apply and throw. -/
inductive ControlNative where
  | eval
  | apply
  | force
  | throwing
deriving DecidableEq, Repr

/-- Natives on strings, and between strings, vectors and lists. -/
inductive SequenceNative where
  | stringToChar
  | numberToString
  | stringToNumber
  | stringAppend
  | sequenceToString
  | vectorAppend
  | sequenceToVector
  | listAppend
  | sequenceToList
deriving DecidableEq, Repr

/-- Natives on the interpreter itself. -/
inductive SystemNative where
  | dump
  | help
  | exit
deriving DecidableEq, Repr

/-- A native function. -/
inductive Native where
  | lists (n : ListNative)
  | tests (n : TestNative)
  | vectors (n : VectorNative)
  | streams (n : StreamNative)
  | numbers (n : NumberNative)
  | control (n : ControlNative)
  | sequences (n : SequenceNative)
  | system (n : SystemNative)
deriving DecidableEq, Repr

/-- What is known of each of these natives. -/
def ListNative.spec : ListNative → NativeSpec
  | .car => ⟨"car", .fixed 1, false, "(car '(a b c)) => a; (car nil) => nil"⟩
  | .cdr => ⟨"cdr", .fixed 1, false, "(cdr '(a b c)) => (b c); (cdr nil) => nil"⟩
  | .cons => ⟨"cons", .fixed 2, true, "(cons 'a '(b c)) => (a b c)"⟩
  | .list => ⟨"list", .rest 0, true, "(list 1 2 3) => (1 2 3)"⟩
  | .append => ⟨"append", .rest 0, false, "(append '(a) '(b) '(c)) => (a b c)"⟩
  | .length => ⟨"length", .fixed 1, false, "(length x): elements in a list, vector or string"⟩
  | .rplaca => ⟨"rplaca", .fixed 2, true, "(rplaca x y): replace the car of x with y"⟩
  | .rplacd => ⟨"rplacd", .fixed 2, true, "(rplacd x y): replace the cdr of x with y"⟩
  | .mapcar => ⟨"mapcar", .fixed 2, false, "(mapcar f xs) => list of (f x) for each x"⟩
  | .mapc => ⟨"mapc", .fixed 2, false, "(mapc f xs): call f on each x; returns xs"⟩

/-- What is known of each of these natives. -/
def TestNative.spec : TestNative → NativeSpec
  | .atom => ⟨"atom", .fixed 1, false, "(atom x) => t unless x is a cons cell"⟩
  | .eq => ⟨"eq", .fixed 2, false, "(eq x y) => t if x and y are the same object"⟩
  | .eql => ⟨"eql", .fixed 2, false, "(eql x y) => t if eq, or numbers of one kind and value"⟩
  | .stringp => ⟨"stringp", .fixed 1, false, "(stringp x) => t if x is a string"⟩
  | .integerp => ⟨"integerp", .fixed 1, false, "(integerp x) => t if x is an integer"⟩
  | .floatp => ⟨"floatp", .fixed 1, false, "(floatp x) => t if x is a float"⟩
  | .symbolp => ⟨"symbolp", .fixed 1, false, "(symbolp x) => t if x is a symbol or nil"⟩
  | .keywordp => ⟨"keywordp", .fixed 1, false, "(keywordp x) => t if x is a keyword"⟩
  | .vectorp => ⟨"vectorp", .fixed 1, false, "(vectorp x) => t if x is a vector"⟩
  | .stringEq => ⟨"string=", .fixed 2, false, "(string= s1 s2) => t if the texts are equal"⟩

/-- What is known of each of these natives. -/
def VectorNative.spec : VectorNative → NativeSpec
  | .vector => ⟨"vector", .rest 0, true, "(vector 1 2 3) => [1 2 3]"⟩
  | .makeVector => ⟨"make-vector", .fixed 2, true, "(make-vector n e) => vector of n copies of e"⟩
  | .aref => ⟨"aref", .fixed 2, false, "(aref v i) => element i of a vector or string"⟩
  | .aset => ⟨"aset", .fixed 3, true, "(aset v i x): store x at index i of v"⟩

/-- What is known of each of these natives. -/
def StreamNative.spec : StreamNative → NativeSpec
  | .prin1 => ⟨"prin1", .fixed 1, false, "(prin1 x): print x, strings quoted"⟩
  | .princ => ⟨"princ", .fixed 1, false, "(princ x): print x, strings raw"⟩
  | .terpri => ⟨"terpri", .fixed 0, false, "(terpri): print a newline"⟩
  | .read => ⟨"read", .fixed 0, false, "(read) => next form from input, or *eof*"⟩
  | .load => ⟨"load", .fixed 1, false, "(load file): run a script file"⟩

/-- What is known of each of these natives. -/
def NumberNative.spec : NumberNative → NativeSpec
  | .add => ⟨"+", .rest 0, false, "(+ 2 3) => 5; (+) => 0"⟩
  | .mul => ⟨"*", .rest 0, false, "(* 2 3) => 6; (*) => 1"⟩
  | .sub => ⟨"-", .rest 1, false, "(- 10) => -10; (- 10 2) => 8"⟩
  | .div => ⟨"/", .rest 2, false, "(/ 6 5) => 1; (/ 6 5.0) => 1.2"⟩
  | .rem => ⟨"%", .fixed 2, false, "(% 7 3) => 1; (% -7 3) => -1"⟩
  | .equal => ⟨"=", .fixed 2, false, "(= a b) => t if numerically equal"⟩
  | .less => ⟨"<", .fixed 2, false, "(< a b) => t if a is less than b"⟩
  | .float => ⟨"float", .fixed 1, false, "(float 3) => 3.0"⟩
  | .truncate => ⟨"truncate", .fixed 1, false, "(truncate -2.7) => -2"⟩

/-- What is known of each of these natives. -/
def ControlNative.spec : ControlNative → NativeSpec
  | .eval => ⟨"eval", .fixed 1, false, "(eval x) => x evaluated at top level"⟩
  | .apply => ⟨"apply", .fixed 2, false, "(apply f '(a b)) => (f a b)"⟩
  | .force => ⟨"force", .fixed 1, false, "(force x) => x, with a promise delivered"⟩
  | .throwing => ⟨"throw", .fixed 2, true, "(throw tag x): unwind to the catch for tag with x"⟩

/-- What is known of each of these natives. -/
def SequenceNative.spec : SequenceNative → NativeSpec
  | .stringToChar => ⟨"string-to-char", .fixed 1, false, "(string-to-char \"ABC\") => 65"⟩
  | .numberToString => ⟨"number-to-string", .fixed 1, false, "(number-to-string -23) => \"-23\""⟩
  | .stringToNumber =>
      ⟨"string-to-number", .fixed 1, false,
        "(string-to-number \" 44.5 \") => 44.5"⟩
  | .stringAppend => ⟨"_string+", .fixed 2, false, "(_string+ \"ab\" \"c\") => \"abc\""⟩
  | .sequenceToString =>
      ⟨"_sequence-to-string", .fixed 1, false,
        "(_sequence-to-string '(65 66)) => \"AB\""⟩
  | .vectorAppend => ⟨"_vector+", .fixed 2, false, "(_vector+ [1 2] [3]) => [1 2 3]"⟩
  | .sequenceToVector =>
      ⟨"_sequence-to-vector", .fixed 1, false,
        "(_sequence-to-vector \"ab\") => [97 98]"⟩
  | .listAppend => ⟨"_list+", .fixed 2, false, "(_list+ '(a b) '(c)) => (a b c)"⟩
  | .sequenceToList => ⟨"_sequence-to-list", .fixed 1, false, "(_sequence-to-list [1 2]) => (1 2)"⟩

/-- What is known of each of these natives. -/
def SystemNative.spec : SystemNative → NativeSpec
  | .dump => ⟨"dump", .fixed 0, false, "(dump) => ([global symbols...] (frames...))"⟩
  | .help => ⟨"help", .fixed 1, false, "(help f): print the documentation of a native"⟩
  | .exit => ⟨"exit", .rest 0, false, "(exit) or (exit code): leave the interpreter"⟩

namespace Native

/-- What is known of a native. -/
def spec : Native → NativeSpec
  | .lists n => n.spec
  | .tests n => n.spec
  | .vectors n => n.spec
  | .streams n => n.spec
  | .numbers n => n.spec
  | .control n => n.spec
  | .sequences n => n.spec
  | .system n => n.spec

/-- The name a native is bound to. -/
def name (n : Native) : String := n.spec.name

/-- The arguments a native takes. -/
def shape (n : Native) : Shape := n.spec.shape

/-- Whether a native sees its arguments unforced. -/
def isLazy (n : Native) : Bool := n.spec.isLazy

/-- How a native is printed, and named in failures. -/
def signature (n : Native) : String :=
  "#<" ++ n.name ++ ":" ++ n.shape.format ++ (if n.isLazy then ":l" else "") ++ ">"

/-- Every native, in the order in which they are bound. -/
def all : List Native :=
  [.lists .car, .lists .cdr, .lists .cons, .lists .list, .lists .append, .lists .length,
    .lists .rplaca, .lists .rplacd, .lists .mapcar, .lists .mapc, .tests .atom, .tests .eq,
    .tests .eql, .tests .stringp, .tests .integerp, .tests .floatp, .tests .symbolp,
    .tests .keywordp, .tests .vectorp, .tests .stringEq, .vectors .vector,
    .vectors .makeVector, .vectors .aref, .vectors .aset, .streams .prin1, .streams .princ,
    .streams .terpri, .streams .read, .streams .load, .numbers .add, .numbers .mul, .numbers .sub,
    .numbers .div, .numbers .rem, .numbers .equal, .numbers .less, .numbers .float,
    .numbers .truncate, .control .eval, .control .apply, .control .force, .control .throwing,
    .sequences .stringToChar, .sequences .numberToString, .sequences .stringToNumber,
    .sequences .stringAppend, .sequences .sequenceToString, .sequences .vectorAppend,
    .sequences .sequenceToVector, .sequences .listAppend, .sequences .sequenceToList,
    .system .dump, .system .help, .system .exit]

end Native

end SmallLisp
