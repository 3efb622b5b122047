import SmallLisp.Reader
import SmallLisp.Proofs.Twins.Defining

/-!
# The order of definitions

A macro that is defined before its user is expanded while the user is compiled. The arguments are
inserted as they are written, and each lambda that the macro puts around them scans them too. A
macro that is defined afterwards is expanded when the user runs. By then the lambdas of the
arguments are templates, and a scan does not enter a template.

As long as the lambdas around an argument leave alone the variables that are free in the lambdas of
the argument, whatever is evaluated after both definitions comes to the same in either order. Where
a lambda around would move the address of such a variable one level out, the template is left with
an address that is one level short.
-/

namespace SmallLisp

open Eval Code Scope Filter

/-- Evaluate forms one after the other; those that fail do not keep from those that follow. -/
def session (n : Nat) : List Value → Eval (List (Except Failure Value))
  | [] => pure []
  | v :: vs => do
      let result ← attempt (evaluate n v none)
      let results ← session n vs
      pure (result :: results)

namespace Setting

open Scene Pairing.Meets

variable {T : Setting} {data : Kind → Nat → Prop} {hidden : Nat → Prop} {s t u : State}
  {n : Nat} {p : T.Scene} {v w : Value}

/-! ## Forms after the definitions -/

mutual

/-- Text without calls of the macro has nothing in the wrong place. -/
theorem tidy_of_program : ∀ {early : Bool} {c : Code}, T.Program early c → early = false →
    c.Tidy T.symbols T.names
  | _, _, .global hx, _ => fitting_of_names hx
  | _, _, .slot a, _ => ⟨⟨rfl, rfl⟩, nofun, nofun⟩
  | _, _, .literal hv, _ => fitting_of_literal hv
  | _, _, .constant _, _ => trivial
  | _, _, .quoted _, _ => trivial
  | _, _, .lambda hformals hbody _, hearly =>
      ⟨hformals, TidyAll.mono (by simp [words, hearly]) _ hbody⟩
  | _, _, .special _ hk _ hs, hearly =>
      ⟨List.cons_ne_nil _ _, fitting_of_names hk, tidyAll_of_programs hs hearly⟩
  | _, _, .cond hk hs, hearly =>
      ⟨List.cons_ne_nil _ _, fitting_of_names hk, tidyAll_of_clauses hs hearly⟩
  | _, _, .call _ h hs, hearly =>
      ⟨List.cons_ne_nil _ _, tidy_of_program h hearly, tidyAll_of_programs hs hearly⟩

theorem tidyAll_of_programs : ∀ {early : Bool} {cs : List Code}, T.Programs early cs →
    early = false → TidyAll T.symbols T.names cs
  | _, _, .nil, _ => trivial
  | _, _, .cons h hs, hearly => ⟨tidy_of_program h hearly, tidyAll_of_programs hs hearly⟩

theorem tidyAll_of_clauses : ∀ {early : Bool} {cs : List Code}, T.Clauses early cs →
    early = false → TidyAll T.symbols T.names cs
  | _, _, .nil, _ => trivial
  | _, _, .skip hs, hearly => ⟨Fitting.nil _, tidyAll_of_clauses hs hearly⟩
  | _, _, .cons h hs hs', hearly =>
      ⟨⟨List.cons_ne_nil _ _, tidy_of_program h hearly, tidyAll_of_programs hs hearly⟩,
        tidyAll_of_clauses hs' hearly⟩

end

/-- The two forms are evaluated one after the other, and the first state leads to the second. -/
def Leads (v w : Value) (s t : State) : Prop :=
  ∃ a b u, Comes (fun n => evaluate n v none) s (.ok a u) ∧
    Comes (fun n => evaluate n w none) u (.ok b t)

variable {x : Symbol} {formals : List Value} {body : List Code}

end Setting

/-! ## Where the order matters -/

namespace Definitions

/-- A machine with no functions but `list`. -/
def machine : State where
  store := { capacity := 256, callables := #[.native (.lists .list)] }
  symbols := .new
  globals := Array.replicate 14 none ++ #[some (.callable ⟨0⟩)]
  console := .ofText ""

/-- Read and evaluate the forms in their order; the text of the last value, unless one fails. -/
def answer (s : State) : List Form → Option String
  | [] => none
  | f :: fs =>
      match f.lower s.store s.symbols with
      | (.ok v, store, symbols) =>
          match evaluate 20 v none { s with store, symbols } with
          | .ok w t => if fs.isEmpty then some (textIn t w) else answer t fs
          | .halt _ _ => none
      | (.error _, _, _) => none

/-- The form `(setq m (macro (e) t))` with a template `t` that puts its argument into a lambda
of `y`, and calls the lambda with 1. -/
def expander : Form :=
  .call "setq" [.sym "m", .call "macro" [.list [.sym "e"],
    (Form.list [.call "lambda" [.list [.sym "y"], .unquote (.sym "e")],
      .atom (.number (.small 1))]).expand]]

/-- The form `(f 5)`. -/
def call : Form := .call "f" [.atom (.number (.small 5))]

end Definitions

end SmallLisp
