import Lox.Session

/-!
# Calling an anonymous function from outside

## Main definitions

* `Session.callLambda`: reads an anonymous function and calls it with given values.
-/

namespace Lox

def Expr.word : Expr → String
  | .gap => "NoneType"
  | .literal .. => "Literal"
  | .grouping .. => "Grouping"
  | .unary .. => "Unary"
  | .binary .. => "Binary"
  | .logical .. => "Logical"
  | .variable .. => "Variable"
  | .assign .. => "Assign"
  | .call .. => "Call"
  | .lambda .. => "Lambda"
  | .get .. => "Get"
  | .set .. => "Set"
  | .this .. => "This"
  | .super .. => "Super"
  | .inner .. => "Inner"

/-- The text of an anonymous function that is held outside the machine. -/
def Lambda.display : String := "<lambda fn>"

/-- What came of calling an anonymous function: its arity and how the call ended. -/
structure Lambda.Called where
  arity : Nat
  outcome : Except Exit Value

namespace Session

/-- Calls an anonymous function in the global environment. Its frame holds the parameters alone. -/
def callPlain (params : List Token) (body : List Stmt) (args : List Value) :
    Step Lambda.Called := fun s =>
  let call := Eval.applyPlain (Eval.run Eval.bound) Machine.globals params body args
  match onMachine call s with
  | .ok value s' => .ok ⟨params.length, .ok value⟩ s'
  | .error e s' => .ok ⟨params.length, .error e⟩ s'

/-- Reads an anonymous function from a text and calls it; nothing is called if there was an error. An
expression of another form has no parameters, which is a defect. -/
def callLambda (source : String) (args : List Value) : Step (Option Lambda.Called) := do
  start
  let scanned ← scan source
  let parsed ← readExpression scanned.lastLine scanned.tokens
  if ← stopped then return none
  match ← resolve true (parsed.expression?.toList.map .bare) with
  | [.bare (.lambda params body)] => some <$> callPlain params body args
  | [.bare e] => throw (.defect (.noParameters e.word))
  | _ => return none

end Session

end Lox
