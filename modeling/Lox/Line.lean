/-!
# Output

What a run writes to the standard output, piece by piece.

## Main definitions

* `Line`: what a program prints, traces, notices about the run and prompts.
* `Line.render`: the text of a piece.
-/

namespace Lox

/-- A piece of output. -/
inductive Line where
  /-- A line that the program prints. -/
  | shown (text : String)
  /-- The value of an expression that was typed at the prompt. -/
  | echo (text : String)
  /-- A line that traces the run of the program. -/
  | trace (text : String)
  /-- A line about the run. -/
  | notice (text : String)
  /-- The mark in front of a line that is asked for. -/
  | prompt
deriving DecidableEq, Repr

namespace Line

def render : Line → String
  | shown text => text ++ "\n"
  | echo text => text ++ "\n"
  | trace text => "[调试] " ++ text ++ "\n"
  | notice text => text ++ "\n"
  | prompt => "> "

def renderAll (lines : Array Line) : String :=
  lines.foldl (fun text line => text ++ line.render) ""

end Line

end Lox
