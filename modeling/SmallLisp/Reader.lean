import SmallLisp.Form
import SmallLisp.Store
import SmallLisp.Token.Scanner

/-!
# From tokens to values

Tokens are parsed into forms, forms are put into the store, and a reader does both for one form
after the other.
-/

/-!
## Parsing

The grammar of forms is

    form ::= atom | ( form* ) | ( form+ . form ) | [ form* ] | mark form

with the marks `'`, `` ` ``, `,`, `,@` and `~`. The parser takes one token at a time and keeps what
is unfinished on a stack, so it never looks past the last token of a form.
-/

namespace SmallLisp

/-- The marks that stand in front of a form. -/
inductive Mark where
  | quote
  | delay
  | template
  | unquote
  | splice
deriving DecidableEq, Repr

/-- The form that a mark makes of the form after it. -/
def Mark.apply : Mark → Form → Form
  | .quote, f => .call "quote" [f]
  | .delay, f => .call "delay" [f]
  | .template, f => f.expand
  | .unquote, f => .unquote f
  | .splice, f => .splice f

/-- An unfinished form. Items come last first. -/
inductive Pending where
  /-- After `(` and the items. -/
  | list (items : List Form)
  /-- After the items and a dot, before the tail. -/
  | tail (items : List Form)
  /-- After the tail, before `)`. -/
  | close (items : List Form) (tail : Form)
  /-- After `[` and the items. -/
  | vector (items : List Form)
  /-- After a mark. -/
  | mark (m : Mark)

/-- What the parser has after a token. -/
inductive Progress where
  | more (stack : List Pending)
  | done (f : Form)
  | fault (f : ReadFault)

namespace Parser

/-- Hand a finished form to what waits for it. -/
def complete (f : Form) : List Pending → Progress
  | [] => .done f
  | .list items :: stack => .more (.list (f :: items) :: stack)
  | .tail items :: stack => .more (.close items f :: stack)
  | .close _ _ :: _ => .fault .closeExpected
  | .vector items :: stack => .more (.vector (f :: items) :: stack)
  | .mark m :: stack => complete (m.apply f) stack

/-- A token where a form must start. -/
def start (stack : List Pending) : Token → Progress
  | .atom a => complete (.atom a) stack
  | .openParen => .more (.list [] :: stack)
  | .openBracket => .more (.vector [] :: stack)
  | .quote => .more (.mark .quote :: stack)
  | .tilde => .more (.mark .delay :: stack)
  | .backquote => .more (.mark .template :: stack)
  | .comma => .more (.mark .unquote :: stack)
  | .commaAt => .more (.mark .splice :: stack)
  | .closeParen => .fault (.unexpected ")")
  | .closeBracket => .fault (.unexpected "]")
  | .dot => .fault (.unexpected ".")

/-- Take one token. -/
def feed (stack : List Pending) (t : Token) : Progress :=
  match stack, t with
  | .list items :: below, .closeParen => complete (.list items.reverse) below
  | .list (item :: items) :: below, .dot => .more (.tail (item :: items) :: below)
  | .close items tail :: below, .closeParen =>
      complete (.listWithTail items.reverse tail) below
  | .close _ _ :: _, _ => .fault .closeExpected
  | .vector items :: below, .closeBracket => complete (.vector items.reverse) below
  | _, t => start stack t

end Parser

/-!
## Putting forms into the store

A pair's tail is built before its head, so the last item of a list is built first; the items of a
vector are built in order. What was allocated before a failure stays. Numbers are kept as they were
read: an integer that the scanner made wide is put with the wide ones without another look.
-/

namespace Form

mutual

/-- Build a form in the store, interning its symbols. -/
def lower (store : Store) (symbols : SymbolTable) :
    Form → Except ReadFault Value × Store × SymbolTable
  | .atom .nil => (.ok .nil, store, symbols)
  | .atom (.number (.small n)) => (.ok (.int n), store, symbols)
  | .atom (.number (.double x)) => (.ok (.double x), store, symbols)
  | .atom (.number (.big n)) =>
      let (v, store) := store.newBignum n
      (.ok v, store, symbols)
  | .atom (.text s) =>
      let (v, store) := store.newText s
      (.ok v, store, symbols)
  | .atom (.sym name) =>
      let (s, symbols) := symbols.intern name
      (.ok (.sym s), store, symbols)
  | .pair a b =>
      match lower store symbols b with
      | (.ok cdr, store, symbols) =>
          match lower store symbols a with
          | (.ok car, store, symbols) =>
              match store.cons car cdr with
              | (some v, store) => (.ok v, store, symbols)
              | (none, store) => (.error (.storeFull store.capacity), store, symbols)
          | (.error f, store, symbols) => (.error f, store, symbols)
      | (.error f, store, symbols) => (.error f, store, symbols)
  | .vector items =>
      match lowerAll store symbols items #[] with
      | (.ok values, store, symbols) =>
          let (v, store) := store.newVector values
          (.ok v, store, symbols)
      | (.error f, store, symbols) => (.error f, store, symbols)
  | .unquote _ => (.error .strayUnquote, store, symbols)
  | .splice _ => (.error .straySplice, store, symbols)

/-- Build forms in order, after the values built already. -/
def lowerAll (store : Store) (symbols : SymbolTable) :
    List Form → Array Value → Except ReadFault (Array Value) × Store × SymbolTable
  | [], values => (.ok values, store, symbols)
  | f :: fs, values =>
      match lower store symbols f with
      | (.ok v, store, symbols) => lowerAll store symbols fs (values.push v)
      | (.error f, store, symbols) => (.error f, store, symbols)

end

end Form

/-!
## Reading

A reader takes one form after the other from a line source and builds it in the store. A fault in
the text costs the rest of the line the reader stands on, which the next reading leaves out; a line
that fails to arrive costs nothing.
-/

/-- Where a line source is being read. -/
structure Reader where
  scanner : Scanner := {}
  /-- Whether the last reading met a fault, so that the rest of its line is to be left out. -/
  erred : Bool := false

/-- What a reading leaves behind. The result is the end-of-input value at the end of the source. -/
structure Reading where
  result : Except Cause Value
  reader : Reader
  source : LineSource
  store : Store
  symbols : SymbolTable

namespace Reader

/-- The next form after what is on the stack; none at the end of the input. -/
def readForm (stack : List Pending) (sc : Scanner) (src : LineSource) :
    Except Cause (Option Form) × Scanner × LineSource :=
  match _h : sc.next src with
  | (.error cause, sc', src') => (.error cause, sc', src')
  | (.ok none, sc', src') =>
      if stack.isEmpty then (.ok none, sc', src')
      else (.error (sc'.fault .unexpectedEnd), sc', src')
  | (.ok (some t), sc', src') =>
      match Parser.feed stack t with
      | .done f => (.ok (some f), sc', src')
      | .fault f => (.error (sc'.fault f), sc', src')
      | .more stack => readForm stack sc' src'
termination_by sc.remaining src
decreasing_by exact Scanner.remaining_next_lt sc src _h

/-- Where reading starts: at a new form, past the line of an earlier fault. -/
def prepared (r : Reader) : Scanner :=
  if r.erred then r.scanner.beginForm.skipLine else r.scanner.beginForm

/-- Read one form into the store. -/
def read (r : Reader) (src : LineSource) (store : Store) (symbols : SymbolTable) : Reading :=
  match readForm [] r.prepared src with
  | (.ok none, scanner, source) =>
      { result := .ok .eof, reader := ⟨scanner, false⟩, source, store, symbols }
  | (.ok (some f), scanner, source) =>
      match f.lower store symbols with
      | (.ok v, store, symbols) =>
          { result := .ok v, reader := ⟨scanner, false⟩, source, store, symbols }
      | (.error f, store, symbols) =>
          { result := .error (scanner.fault f), reader := ⟨scanner, true⟩, source, store, symbols }
  | (.error cause, scanner, source) =>
      { result := .error cause, reader := ⟨scanner, !cause.stopsScript⟩, source, store, symbols }

end Reader

end SmallLisp
