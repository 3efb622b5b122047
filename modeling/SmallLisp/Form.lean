import SmallLisp.Token

/-!
# Forms

What the reader makes of tokens before it is put into the store: trees of pairs and vectors over
atoms. The marks `,` and `,@` are forms of their own until a backquote around them is expanded; none
may be left when a form goes to the store.
-/

namespace SmallLisp

/-- A form as read. -/
inductive Form where
  | atom (a : Atom)
  | pair (car cdr : Form)
  | vector (items : List Form)
  | unquote (f : Form)
  | splice (f : Form)

namespace Form

def nil : Form := .atom .nil

def sym (name : String) : Form := .atom (.sym name)

/-- The items in front of a tail. As lists are made of pairs, the items of a tail that is a list
follow on the others, and a tail of nil ends a proper list. -/
def listWithTail (items : List Form) (tail : Form) : Form := items.foldr .pair tail

/-- A proper list. -/
def list (items : List Form) : Form := listWithTail items nil

/-- A call of a name with the arguments. -/
def call (name : String) (args : List Form) : Form := list (sym name :: args)

/-- The items of a proper list. -/
def toList? : Form → Option (List Form)
  | .atom .nil => some []
  | .pair a b => (toList? b).map (a :: ·)
  | _ => none

/-- The arguments, if the form is a proper call of the name. -/
def args? (name : String) (f : Form) : Option (List Form) :=
  match toList? f with
  | some (.atom (.sym s) :: args) => if s = name then some args else none
  | _ => none

end Form

end SmallLisp

/-!
## Quasiquote

A backquoted template becomes a form that builds the data the template describes, out of calls of
`list`, `cons` and `append`. The arguments of `append` are built from the tail on, so that each item
is joined to what is already there: neighbouring `list` calls are merged, and a `list` call in front
of something else becomes a chain of `cons`.
-/

namespace SmallLisp.Form

/-- Quote what would not evaluate to itself. -/
def quoted : Form → Form
  | .atom (.sym name) => call "quote" [.atom (.sym name)]
  | .pair a b => call "quote" [.pair a b]
  | f => f

/-- A call of `cons` for each item, the last on `tail`. -/
def consChain (items : List Form) (tail : Form) : Form :=
  items.foldr (fun item acc => call "cons" [item, acc]) tail

/-- What an item of a template contributes to `append`: a one-item list, or the form that is
spliced. `expanded` is the expansion of the item itself. -/
def contribution (item expanded : Form) : Form :=
  match item with
  | .unquote f => call "list" [f]
  | .splice f => f
  | _ => call "list" [expanded]

/-- Whether the form is the atom nil. -/
def isNil : Form → Bool
  | .atom .nil => true
  | _ => false

theorem isNil_iff {f : Form} : f.isNil = true ↔ f = nil := by
  unfold isNil
  split
  · simp [nil]
  · rename_i h
    simpa [nil] using h

/-- Put a contribution in front of the arguments of `append`. -/
def combine (head : Form) (rest : List Form) : List Form :=
  match rest with
  | [] => [head]
  | first :: more =>
      if first.isNil && more.isEmpty then [head]
      else
        match head.args? "list" with
        | none => head :: rest
        | some args =>
            match first.args? "list" with
            | some others => call "list" (args ++ others) :: more
            | none => if args.isEmpty then head :: rest else consChain args first :: more

/-- The form that appends the arguments: a single call of `list` or `cons` needs no `append`. -/
def appended (args : List Form) : Form :=
  match args with
  | [single] =>
      if (single.args? "list").isSome || (single.args? "cons").isSome then single
      else call "append" args
  | _ => call "append" args

mutual

/-- The form that builds what the template describes. -/
def expand : Form → Form
  | .pair a b => appended (combine (contribution a (expand a)) (expandItems b))
  | .unquote f => f
  | f => quoted f

/-- The arguments of `append` for the items of a template and its tail. -/
def expandItems : Form → List Form
  | .pair a b => combine (contribution a (expand a)) (expandItems b)
  | .unquote f => [f]
  | f => [quoted f]

end

end SmallLisp.Form
