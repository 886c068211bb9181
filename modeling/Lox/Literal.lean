import Lox.Decimal.Numeral

/-!
# Literals

The constant values that a token or a literal expression can carry.

## Main definitions

* `Literal`: nothing, a truth value, a number, an exact integer or a text.
* `Literal.display`: the plain text of a literal, as trees and tokens are shown.
-/

namespace Lox

/-- A constant. Source text yields doubles only; exact integers enter through trees built by hand. -/
inductive Literal where
  | nil
  | bool (b : Bool)
  | num (x : Float)
  | int (i : Int)
  | text (s : String)
deriving DecidableEq, Repr

namespace Literal

def display : Literal → String
  | nil => "None"
  | bool true => "True"
  | bool false => "False"
  | num x => Decimal.render x
  | int i => toString i
  | text s => s

end Literal

end Lox
