import Lox.Text.Quoted

/-!
# Defects

Failures that are no error of the language: an operation was asked of something that does not offer it.
They end a run at once, and their wording is part of what a run shows.

## Main definitions

* `Defect`: the causes.
* `Defect.message`, `Defect.category`: the wording of a cause and the category it is filed under.
-/

namespace Lox

/-- The kinds of frames, for frames that are asked for an operation of the other kind. -/
inductive FrameKind where
  | named
  | indexed
  | absent
deriving DecidableEq, Repr

def FrameKind.word : FrameKind → String
  | named => "Environment"
  | indexed => "OptimizedEnvironment"
  | absent => "NoneType"

/-- The causes of failures that are no error of the language. -/
inductive Defect where
  /-- A form of syntax that has no outline. -/
  | noOutline (form : String)
  /-- A form of syntax that the resolver by position does not know. -/
  | noIndexedRule (form : String)
  /-- An operation that the resolver by position does not offer. -/
  | noIndexedStep (step : String)
  /-- An expression or a statement that is missing from its tree. -/
  | absentNode
  /-- A frame is asked for an operation it does not offer. -/
  | frameLacks (kind : FrameKind) (operation : String)
  /-- A value of the given kind is used as the class in which to find a method. -/
  | noMethods (kind : String)
  /-- A reference to the superclass that was never resolved. -/
  | unresolvedSuper
  /-- An expression is evaluated before there is a machine. -/
  | absentMachine
  /-- The name of an anonymous function is asked for. -/
  | unnamedFunction
  /-- An expression of the given form is taken for an anonymous function. -/
  | noParameters (form : String)
  /-- A value of the given kind is used as a number. -/
  | notReal (kind : String)
  /-- An integer beyond the range of doubles is used as a number. -/
  | tooLarge
  /-- A parameter without an argument at its position. -/
  | missingArgument
  /-- A position before the first slot of a frame. -/
  | slotOutOfRange
  /-- A position at which a frame has no slot. -/
  | noSuchSlot (index : Int)
  /-- A scope is closed when none is open. -/
  | noOpenScope
  /-- A name is completed in a scope that does not hold it. -/
  | undeclared (name : String)
deriving DecidableEq, Repr

namespace Defect

def lacks (holder operation : String) : String :=
  "'" ++ holder ++ "' object has no attribute '" ++ operation ++ "'"

def message : Defect → String
  | noOutline form => lacks "AstPrinter" ("visit_" ++ form)
  | noIndexedRule form => lacks "OptimizedResolver" ("visit_" ++ form)
  | noIndexedStep step => lacks "OptimizedResolver" step
  | absentNode => lacks "NoneType" "accept"
  | frameLacks kind operation => lacks kind.word operation
  | noMethods kind => lacks kind "find_method"
  | unresolvedSuper => "'NoneType' object cannot be interpreted as an integer"
  | absentMachine => lacks "NoneType" "evaluate"
  | unnamedFunction => lacks "Lambda" "name"
  | noParameters form => lacks form "params"
  | notReal kind => "float() argument must be a string or a real number, not '" ++ kind ++ "'"
  | tooLarge => "int too large to convert to float"
  | missingArgument => "list index out of range"
  | slotOutOfRange => "list assignment index out of range"
  | noSuchSlot index => "无效的变量索引: " ++ toString index
  | noOpenScope => "pop from empty list"
  | undeclared name => Text.quote name

def category : Defect → String
  | unresolvedSuper | notReal _ => "TypeError"
  | tooLarge => "OverflowError"
  | missingArgument | slotOutOfRange | noSuchSlot _ | noOpenScope => "IndexError"
  | undeclared _ => "KeyError"
  | _ => "AttributeError"

end Defect

end Lox
