import Std.Data.TreeSet
import SmallLisp.Store

/-!
# Printing

Values print as the text that reads back to them, where there is such a text. Whatever cycles a
store has, the text is finite: a value nested deeper than `maxDepth` prints as `...`, and a pair or
vector that was printed before may be entered again only as often as an allowance says, which is
given back on leaving. Along a list, a cell that was printed before ends the run of items and is
printed after a dot.
-/

namespace SmallLisp

/-- What printing goes by. -/
structure PrintContext where
  store : Store
  symbols : SymbolTable
  /-- Whether strings are written with quotes and escapes. -/
  escape : Bool

/-- What was printed so far, and how often a node of it may be entered again. -/
structure PrintMemo where
  pairs : Std.TreeSet Nat := {}
  vectors : Std.TreeSet Nat := {}
  repeats : Nat

namespace Printer

/-- Values nested deeper than this print as `...`. -/
def maxDepth : Nat := 1000

/-- A hexadecimal digit. -/
def hexDigit (n : Nat) : Char := "0123456789abcdef".toList.getD n '0'

/-- A character inside a written string. -/
def escapeChar (c : Char) : List Char :=
  if c = '"' then ['\\', '"']
  else if c = '\\' then ['\\', '\\']
  else if c = '\n' then ['\\', 'n']
  else if c = '\r' then ['\\', 'r']
  else if c = '\t' then ['\\', 't']
  else
    let n := c.toNat
    if n = 7 then ['\\', 'a']
    else if n = 8 then ['\\', 'b']
    else if n = 11 then ['\\', 'v']
    else if n = 12 then ['\\', 'f']
    else if n < 32 ∨ n = 127 then ['\\', 'x', hexDigit (n / 16), hexDigit (n % 16)]
    else [c]

/-- A string with its quotes and escapes. -/
def escapeString (s : String) : String :=
  "\"" ++ String.ofList (s.toList.flatMap escapeChar) ++ "\""

/-- What prints a nested value. -/
abbrev Item := Value → PrintMemo → String × PrintMemo

/-- Whether a node may be entered, `seen` telling if it was before; entering it again takes one
repeat away. -/
def enter? (seen : Bool) (memo : PrintMemo) : Option PrintMemo :=
  if !seen then some memo
  else
    match memo.repeats with
    | 0 => none
    | repeats + 1 => some { memo with repeats }

/-- Give back the repeat that entering a node took. -/
def leave (seen : Bool) (memo : PrintMemo) : PrintMemo :=
  if seen then { memo with repeats := memo.repeats + 1 } else memo

/-- The items of a list after the first, each led by a blank, through at most `fuel` cells. Every
cell on the way is new to the memo, so there are no more of them than cells. -/
def tail (ctx : PrintContext) (item : Item) : Nat → Value → String → PrintMemo → String × PrintMemo
  | _, .nil, text, memo => (text, memo)
  | 0, _, text, memo => (text, memo)
  | fuel + 1, .pair r, text, memo =>
      if memo.pairs.contains r.index then
        let (last, memo) := item (.pair r) memo
        (text ++ " . " ++ last, memo)
      else
        let (next, memo) := item (ctx.store.car r) { memo with pairs := memo.pairs.insert r.index }
        tail ctx item fuel (ctx.store.cdr r) (text ++ " " ++ next) memo
  | _, v, text, memo =>
      let (last, memo) := item v memo
      (text ++ " . " ++ last, memo)

/-- Fuel that is enough for any run of cells. -/
def cellFuel (ctx : PrintContext) : Nat := ctx.store.cells.size + 1

/-- The quoted value, if the cell is a form `(quote x)`. -/
def quotedValue? (store : Store) (r : Ref .cell) : Option Value :=
  if (store.car r).isSym Symbol.quote then
    match store.cdr r with
    | .pair next => if (store.cdr next).isNil then some (store.car next) else none
    | _ => none
  else none

/-- A pair: a quote form, or a list in parentheses. -/
def pair (ctx : PrintContext) (item : Item) (r : Ref .cell) (memo : PrintMemo) :
    String × PrintMemo :=
  let seen := memo.pairs.contains r.index
  match enter? seen memo with
  | none => ("...", memo)
  | some memo =>
      let memo := { memo with pairs := memo.pairs.insert r.index }
      match quotedValue? ctx.store r with
      | some v =>
          let (text, memo) := item v memo
          ("'" ++ text, leave seen memo)
      | none =>
          let (first, memo) := item (ctx.store.car r) memo
          let (text, memo) := tail ctx item (cellFuel ctx) (ctx.store.cdr r) ("(" ++ first) memo
          (text ++ ")", leave seen memo)

/-- Items separated by blanks, after the text so far. -/
def items (item : Item) : List Value → String → PrintMemo → String × PrintMemo
  | [], text, memo => (text, memo)
  | [v], text, memo =>
      let (last, memo) := item v memo
      (text ++ last, memo)
  | v :: vs, text, memo =>
      let (next, memo) := item v memo
      items item vs (text ++ next ++ " ") memo

/-- A vector in brackets. -/
def vector (ctx : PrintContext) (item : Item) (r : Ref .vector) (memo : PrintMemo) :
    String × PrintMemo :=
  let seen := memo.vectors.contains r.index
  match enter? seen memo with
  | none => ("...", memo)
  | some memo =>
      let memo := { memo with vectors := memo.vectors.insert r.index }
      let (text, memo) := items item (ctx.store.vector r).toList "[" memo
      (text ++ "]", leave seen memo)

/-- A callable that is not native: its kind, its arity and its body. -/
def body (ctx : PrintContext) (item : Item) (label : String) (shape : Shape) (b : Value)
    (memo : PrintMemo) : String × PrintMemo :=
  let (text, memo) :=
    tail ctx item (cellFuel ctx) b ("(" ++ label ++ " " ++ shape.format) memo
  (text ++ ")", memo)

/-- A callable. -/
def callable (ctx : PrintContext) (item : Item) (f : Callable) (memo : PrintMemo) :
    String × PrintMemo :=
  match f with
  | .native n => (n.signature, memo)
  | .template shape b => body ctx item "#<lambda>" shape b memo
  | .closure shape b _ => body ctx item "#<closure>" shape b memo
  | .expander shape b => body ctx item "#<macro>" shape b memo

/-- A value, where `item` prints what is nested in it. -/
def value (ctx : PrintContext) (item : Item) (v : Value) (memo : PrintMemo) :
    String × PrintMemo :=
  match v with
  | .nil => ("nil", memo)
  | .int n => (Text.formatInt n.toInt, memo)
  | .double x => (Double.format x, memo)
  | .big r => (Text.formatInt (ctx.store.bignum r), memo)
  | .text r => (if ctx.escape then escapeString (ctx.store.text r) else ctx.store.text r, memo)
  | .sym s => (ctx.symbols.name s, memo)
  | .pair r => pair ctx item r memo
  | .vector r => vector ctx item r memo
  | .promise r =>
      match ctx.store.promise r with
      | .delivered v => item v memo
      | .pending .. => ("#<promise:" ++ Nat.repr r.index ++ ">", memo)
  | .callable r => callable ctx item (ctx.store.callable r) memo
  | .address a =>
      ("#" ++ Nat.repr a.level ++ ":" ++ Nat.repr a.offset ++ ":" ++ ctx.symbols.name a.symbol,
        memo)
  | .dummy r =>
      (":" ++ ctx.symbols.name (ctx.store.dummySymbol r) ++ ":" ++ Nat.repr r.index, memo)
  | .failure r => ("*** " ++ (ctx.store.failure r).message, memo)
  | .eof => ("#<eof>", memo)

/-- Print with at most `depth` levels left. -/
def render (ctx : PrintContext) : Nat → Item
  | 0, _, memo => ("...", memo)
  | depth + 1, v, memo => value ctx (render ctx depth) v memo

end Printer

/-- The text of a value; `repeats` is how often printed nodes may be entered again. -/
def print (store : Store) (symbols : SymbolTable) (escape : Bool) (repeats : Nat) (v : Value) :
    String :=
  (Printer.render ⟨store, symbols, escape⟩ (Printer.maxDepth + 1) v { repeats }).1

/-- Values in brackets, each printed on its own. -/
def printAll (store : Store) (symbols : SymbolTable) (repeats : Nat) (vs : List Value) : String :=
  "[" ++ " ".intercalate (vs.map (print store symbols true repeats)) ++ "]"

end SmallLisp
