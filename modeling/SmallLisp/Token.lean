import SmallLisp.Failure
import SmallLisp.Number
import SmallLisp.Text

/-!
# Tokens

A token starts at a character that is not blank and ends within its line. Brackets and marks are
one or two characters; a string runs to its closing quote; everything else is a word, which runs up
to the next delimiter and is `nil`, a number or a symbol.
-/

namespace SmallLisp

/-- A literal as written. -/
inductive Atom where
  | nil
  | number (n : Num)
  | text (s : String)
  /-- A symbol or a colon name, as written. -/
  | sym (name : String)

/-- A token. -/
inductive Token where
  | openParen
  | closeParen
  | openBracket
  | closeBracket
  | dot
  | quote
  | backquote
  | comma
  | commaAt
  | tilde
  | atom (a : Atom)

namespace Token

/-- The characters of symbols. -/
def isSymbolChar (c : Char) : Bool := c.isAlphanum || "_&$*/%+-<>=!?".toList.contains c

/-- The characters that end a word. -/
def isDelimiter (c : Char) : Bool := Text.isBlank c || "()[]'\"`,~;".toList.contains c

/-- What a run of characters between delimiters denotes. -/
def classify? (word : List Char) : Option Atom :=
  if word = "nil".toList then some .nil
  else
    match Literal.number? word with
    | some n => some (.number n)
    | none =>
        let name :=
          match word with
          | ':' :: cs => cs
          | cs => cs
        if !name.isEmpty && name.all isSymbolChar then some (.sym (String.ofList word)) else none

/-! ## Strings -/

/-- Where the scan of a string stands. -/
inductive StringMode where
  | plain
  /-- After a backslash. -/
  | escape
  /-- After a backslash and an `x`. -/
  | hex
  /-- In a character code that may have `left` more digits. -/
  | code (radix value left : Nat)

/-- What one character does to the scan of a string. The characters so far come last first; `done`
takes the character at hand and `stop` leaves it. -/
inductive StringStep where
  | more (mode : StringMode) (reversed : List Char)
  | done (reversed : List Char)
  | stop (f : ReadFault)

/-- The character a letter after a backslash stands for. -/
def escaped? (c : Char) : Option Char :=
  if c = '"' ∨ c = '\\' then some c
  else if c = 'a' then some (Char.ofNat 7)
  else if c = 'b' then some (Char.ofNat 8)
  else if c = 'f' then some (Char.ofNat 12)
  else if c = 'n' then some '\n'
  else if c = 'r' then some '\r'
  else if c = 't' then some '\t'
  else if c = 'v' then some (Char.ofNat 11)
  else none

/-- A character outside any escape. A string ends at its quote and never goes past its line. -/
def plainStep (reversed : List Char) (c : Char) : StringStep :=
  if c = '\n' then .stop .unterminated
  else if c = '"' then .done reversed
  else if c = '\\' then .more .escape reversed
  else .more .plain (c :: reversed)

/-- What one character does to the scan of a string. Octal codes have up to three digits,
hexadecimal ones up to two, and both have at least one. -/
def stringStep (mode : StringMode) (reversed : List Char) (c : Char) : StringStep :=
  match mode with
  | .plain => plainStep reversed c
  | .escape =>
      match escaped? c with
      | some d => .more .plain (d :: reversed)
      | none =>
          match Text.digit? 8 c with
          | some d => .more (.code 8 d 2) reversed
          | none => if c = 'x' then .more .hex reversed else .stop .badEscape
  | .hex =>
      match Text.digit? 16 c with
      | some d => .more (.code 16 d 1) reversed
      | none => .stop .badEscape
  | .code radix value left =>
      match left, Text.digit? radix c with
      | left + 1, some d => .more (.code radix (radix * value + d) left) reversed
      | _, _ => plainStep (Char.ofNat value :: reversed) c

/-- The characters of a string up to its closing quote, last first, and what follows them. -/
def scanString : StringMode → List Char → List Char → Except ReadFault (List Char) × List Char
  | _, _, [] => (.error .unterminated, [])
  | mode, reversed, c :: cs =>
      match stringStep mode reversed c with
      | .more mode reversed => scanString mode reversed cs
      | .done reversed => (.ok reversed, cs)
      | .stop f => (.error f, c :: cs)

/-! ## One token -/

/-- The tokens of a single character that nothing else starts with. -/
def single? (c : Char) : Option Token :=
  if c = '(' then some .openParen
  else if c = ')' then some .closeParen
  else if c = '[' then some .openBracket
  else if c = ']' then some .closeBracket
  else if c = '\'' then some .quote
  else if c = '`' then some .backquote
  else if c = '~' then some .tilde
  else if c = '.' then some .dot
  else none

/-- The word that starts with `c`, and what is left. -/
def scanWord (c : Char) (cs : List Char) : Except ReadFault Token × List Char :=
  let word := c :: cs.takeWhile (!isDelimiter ·)
  let rest := cs.dropWhile (!isDelimiter ·)
  match classify? word with
  | some a => (.ok (.atom a), rest)
  | none => (.error (.badToken (String.ofList word)), rest)

/-- Scan the token that starts with `c`, a character that is not blank, with `cs` after it; also
what is left. -/
def scan (c : Char) (cs : List Char) : Except ReadFault Token × List Char :=
  match single? c with
  | some t => (.ok t, cs)
  | none =>
      if c = ',' then
        match cs with
        | '@' :: cs => (.ok .commaAt, cs)
        | cs => (.ok .comma, cs)
      else if c = '"' then
        match scanString .plain [] cs with
        | (.ok reversed, cs) => (.ok (.atom (.text (String.ofList reversed.reverse))), cs)
        | (.error f, cs) => (.error f, cs)
      else scanWord c cs

end Token

end SmallLisp
