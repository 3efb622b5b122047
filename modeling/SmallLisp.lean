import SmallLisp.Main
import SmallLisp.Proofs.Compiler.Scope
import SmallLisp.Proofs.Compiler.Passes
import SmallLisp.Proofs.Compiler.Addressing
import SmallLisp.Proofs.Computation
import SmallLisp.Proofs.Handlers
import SmallLisp.Proofs.Guard
import SmallLisp.Proofs.Simulation
import SmallLisp.Proofs.Simulation.Primitives
import SmallLisp.Proofs.Simulation.Engine
import SmallLisp.Proofs.Simulation.Compiler
import SmallLisp.Proofs.Simulation.Special
import SmallLisp.Proofs.Simulation.Script
import SmallLisp.Proofs.Simulation.Natives
import SmallLisp.Proofs.Rounds
import SmallLisp.Proofs.Simulation.Evaluator
import SmallLisp.Proofs.Fuel
import SmallLisp.Proofs.Recursive
import SmallLisp.Proofs.Trampoline
import SmallLisp.Proofs.Reading.Layout
import SmallLisp.Proofs.Reading.Writing
import SmallLisp.Proofs.Reading.Tokens
import SmallLisp.Proofs.Reading.Parsing
import SmallLisp.Proofs.Reading.RoundTrip
import SmallLisp.Proofs.Reading.Grammar
import SmallLisp.Proofs.Reading.Recovery
import SmallLisp.Proofs.Reading.Progress
import SmallLisp.Proofs.Reading.Lines
import SmallLisp.Proofs.Reading.Sources
import SmallLisp.Proofs.Sealed
import SmallLisp.Proofs.Template.Meaning
import SmallLisp.Proofs.Template.Following
import SmallLisp.Proofs.Template.Calls
import SmallLisp.Proofs.Template.Expansion
import SmallLisp.Proofs.Template.Code
import SmallLisp.Proofs.Promises
import SmallLisp.Proofs.Compiler.Scanning
import SmallLisp.Proofs.Compiler.Hygiene
import SmallLisp.Proofs.Compiler.Termination
import SmallLisp.Proofs.Compiler.Alike
import SmallLisp.Proofs.Compiler.Twice
import SmallLisp.Proofs.Compiler.Forms
import SmallLisp.Proofs.Unwinding.Dialogue
import SmallLisp.Proofs.Unwinding.Turn
import SmallLisp.Proofs.Unwinding.Reaching
import SmallLisp.Proofs.Unwinding.Nest
import SmallLisp.Proofs.Unwinding.Ascent
import SmallLisp.Proofs.Soundness.State
import SmallLisp.Proofs.Soundness.Regime
import SmallLisp.Proofs.Soundness.Asking
import SmallLisp.Proofs.Soundness.Frames
import SmallLisp.Proofs.Soundness.Natives
import SmallLisp.Proofs.Soundness.Interpreter
import SmallLisp.Proofs.Arithmetic.Numbers
import SmallLisp.Proofs.Arithmetic.Natives
import SmallLisp.Proofs.Conservation.State
import SmallLisp.Proofs.Conservation.Interpreter
import SmallLisp.Proofs.Conservation.Integers
import SmallLisp.Proofs.Conservation.Keywords
import SmallLisp.Proofs.Printing.Course
import SmallLisp.Proofs.Printing.Sharing
import SmallLisp.Proofs.Compiler.Renaming
import SmallLisp.Proofs.Compiler.Sparing
import SmallLisp.Proofs.Compiler.Expanded
import SmallLisp.Proofs.Compiler.ExpandedOnce
import SmallLisp.Proofs.Reading.Numerals
import SmallLisp.Proofs.Prelude.Running
import SmallLisp.Proofs.Prelude.Definitions
import SmallLisp.Proofs.Prelude.Equality
import SmallLisp.Proofs.Ending
import SmallLisp.Proofs.Prelude.ShortCircuit
import SmallLisp.Proofs.Reading.Scanning
import SmallLisp.Proofs.Reading.Interruptions
import SmallLisp.Proofs.Reading.Exhaustion
import SmallLisp.Proofs.Reading.Announcing
import SmallLisp.Proofs.Environments
import SmallLisp.Proofs.Arguments
import SmallLisp.Proofs.ProperLists
import SmallLisp.Proofs.FrameLayout
import SmallLisp.Proofs.Interning
import SmallLisp.Proofs.Sequences
import SmallLisp.Proofs.Prelude.Keys
import SmallLisp.Proofs.Prelude.Trees
import SmallLisp.Proofs.Prelude.Tracing
import SmallLisp.Proofs.Prelude.Describing
import SmallLisp.Proofs.Prelude.Compiling
import SmallLisp.Proofs.Prelude.Defining
import SmallLisp.Proofs.Prelude.Scripts
import SmallLisp.Proofs.Prelude.Start
import SmallLisp.Proofs.Plenty
import SmallLisp.Proofs.Compiler.Inserting
import SmallLisp.Proofs.Compiler.Succeeding
import SmallLisp.Proofs.Compiler.Tidy
import SmallLisp.Proofs.Compiler.Compiles
import SmallLisp.Proofs.Compiler.Filling
import SmallLisp.Proofs.Compiler.Templates
import SmallLisp.Proofs.Twins.Meeting
import SmallLisp.Proofs.Twins.Links
import SmallLisp.Proofs.Twins.Printing
import SmallLisp.Proofs.Twins.Programs
import SmallLisp.Proofs.Twins.Scene
import SmallLisp.Proofs.Twins.Primitives
import SmallLisp.Proofs.Twins.Walks
import SmallLisp.Proofs.Twins.Natives
import SmallLisp.Proofs.Twins.Special
import SmallLisp.Proofs.Twins.Evaluation
import SmallLisp.Proofs.Twins.Defining
import SmallLisp.Proofs.Twins.Order
