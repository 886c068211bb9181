import Lox.Proofs.Machine.Recast
import Lox.Proofs.Machine.Written

/-!
# Traced runs

Tracing a run only adds lines to what it writes: one before each line that the program prints, and one
whenever a method of the subclass is asked for. A run is observed without either, but with a mark where
a method of the subclass is asked for; from that, both the traced run and the one that is not traced can
be told.

## Design notes

Looking a method of the superclass up is traced as well, and tracing it may even fail; but no text can
ask for it. `spoken` leaves it out, and the policy for written nodes shows that nothing is missed.
-/

namespace Lox

open Outcome

/-- What an observed line looks like with tracing on or off: if it is on, a line that the program prints
is announced, and marks are there. -/
def Line.seen (on : Bool) : Line → Array Line
  | .shown text => if on then #[.trace ("打印值: " ++ text), .shown text] else #[.shown text]
  | .trace text => if on then #[.trace text] else #[]
  | line => #[line]

/-- What an observed machine looks like with tracing on or off, with the output before. -/
def Machine.seen (on : Bool) (before : Array Line) (m : Machine) : Machine :=
  { m with traced := on, out := before ++ m.out.flatMap (Line.seen on) }

namespace Eval

/-- One step of running a node that a text can have. -/
def speak (rec : Recur) (rounds : Nat) : Node → Run Value
  | .expr (.super ..) => Run.breakDown .absentNode
  | node => step rec rounds node

/-- One step of observing a run: what is printed is written alone, and it is marked where a method of
the subclass is asked for. -/
def observe (rec : Recur) (rounds : Nat) : Node → Run Value
  | .stmt (.print value) => do
    let value ← rec (.expr value)
    Run.write (.shown (← Run.ofExcept value.print))
    return .nil
  | .expr (.inner keyword method _) => do
    Run.write (.trace ("处理inner表达式: " ++ method.lexeme))
    Run.fail keyword .noSubclass
  | node => speak rec rounds node

def observed : Nat → Node → Run Value
  | 0, _ => throw .exhausted
  | depth + 1, node => observe (observed depth) depth node

end Eval

/-! ### What is seen of a run -/

namespace Run

variable {on : Bool} {before : Array Line} {m : Machine}

theorem trace_eq (text : String) (m : Machine) :
    trace (.ok text) m =
      .ok () (if m.traced then { m with out := m.out.push (.trace text) } else m) := by
  change (if m.traced then ofExcept (.ok text) >>= fun t => write (.trace t) else pure ()) m = _
  split <;> rfl

end Run

namespace Eval

open Run

variable {on : Bool} {before : Array Line} {m : Machine}

variable {node : Node} {depth : Nat}

end Eval

end Lox
