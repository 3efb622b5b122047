import SmallLisp.Text

/-!
# Line sources

Text arrives line by line, and a line may fail to arrive. A source is what it will still answer,
request by request, and how closing it will go; the requests made so far are kept beside it. Text
in memory, bytes of a file and scripted lines all become such a source.
-/

namespace SmallLisp

/-- Why a line could not be had. -/
inductive SourceFault where
  /-- The bytes of the line are not UTF-8. -/
  | invalidText
  /-- A failure reported from outside, with its wording. -/
  | reported (message : String)
deriving DecidableEq, Repr

/-- The wording of a failed request. -/
def SourceFault.message : SourceFault → String
  | .invalidText => "stream did not contain valid UTF-8"
  | .reported message => message

/-- What a source answers to one request for a line. -/
inductive Answer where
  | line (text : String)
  | fault (f : SourceFault)
deriving DecidableEq, Repr

/-- A request made to a source. -/
inductive Request where
  /-- The next line was asked for; `prompt` tells that no form has been begun. -/
  | line (prompt : Bool)
  | close
deriving DecidableEq, Repr

/-- A source of lines. -/
structure LineSource where
  /-- What the next requests for a line are answered with; then the input is at its end. -/
  answers : List Answer
  /-- How the next closing fails, if it does. -/
  closing : Option SourceFault := none
  /-- Whether the requests made of this source are of interest to its owner. -/
  recorded : Bool := false
  /-- The requests made so far, last first. -/
  requests : List Request := []

namespace LineSource

/-- The source after a request for a line that leaves `answers`. -/
def asked (s : LineSource) (prompt : Bool) (answers : List Answer) : LineSource :=
  { s with answers, requests := .line prompt :: s.requests }

/-- Ask for the next line; `none` is the end of the input. -/
def next (s : LineSource) (prompt : Bool) : Option Answer × LineSource :=
  match s.answers with
  | [] => (none, s.asked prompt [])
  | a :: answers => (some a, s.asked prompt answers)

/-- Close the source. It fails at most once. -/
def close (s : LineSource) : Option SourceFault × LineSource :=
  (s.closing, { s with closing := none, requests := .close :: s.requests })

/-- Split at every line feed; there is one more piece than line feeds. -/
def splitLines (cs : List Char) : List (List Char) :=
  cs.foldr
    (fun c lines =>
      if c = '\n' then [] :: lines
      else
        match lines with
        | [] => [[c]]
        | l :: ls => (c :: l) :: ls)
    [[]]

/-- Drop one carriage return at the end. -/
def dropReturn (cs : List Char) : List Char :=
  match cs.reverse with
  | '\r' :: r => r.reverse
  | _ => cs

/-- The lines of a text in memory. What follows the last line feed is a line too, be it empty. -/
def ofText (text : String) : LineSource :=
  { answers := (splitLines text.toList).map fun l => .line (String.ofList (dropReturn l)) }

/-- Split bytes after every line feed; the last piece may lack one and is not empty. -/
def splitBytes (bytes : List UInt8) : List (List UInt8) :=
  bytes.foldr
    (fun b lines =>
      if b = 10 then [b] :: lines
      else
        match lines with
        | [] => [[b]]
        | l :: ls => (b :: l) :: ls)
    []

/-- Drop a line feed at the end, and then one carriage return before it. -/
def dropEnd (cs : List Char) : List Char :=
  match cs.reverse with
  | '\n' :: '\r' :: r => r.reverse
  | '\n' :: r => r.reverse
  | _ => cs

/-- What one line of bytes reads as. -/
def decodeLine (bytes : List UInt8) : Answer :=
  match String.fromUTF8? ⟨bytes.toArray⟩ with
  | some text => .line (String.ofList (dropEnd text.toList))
  | none => .fault .invalidText

/-- The lines of a stream of bytes. A line that is not UTF-8 fails, and the next one follows. -/
def ofBytes (bytes : ByteArray) : LineSource :=
  { answers := (splitBytes bytes.toList).map decodeLine }

/-- A source that gives the lines as they are, then fails once if it is told to, and whose requests
are of interest. -/
def scripted (lines : List String) (fault closing : Option String) : LineSource :=
  { answers := lines.map .line ++ (fault.map fun m => .fault (.reported m)).toList
    closing := closing.map .reported
    recorded := true }

/-- A source that can be opened but whose first line cannot be had. -/
def failing (message : String) : LineSource := { answers := [.fault (.reported message)] }

end LineSource

end SmallLisp
