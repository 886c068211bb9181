import Lox.Table
import Lox.Token

/-!
# Scopes

A scope holds the names declared in one block, parameter list or class body. Names outside all scopes
are global and not tracked.

## Main definitions

* `Scope.Flaw`, `Scope.Notice`: what resolving can complain about, and what it reports.
* `Scope.Form`: the forms that refer to a variable.
-/

namespace Lox.Scope

/-- What can be wrong with the use of names in a program. -/
inductive Flaw where
  | alreadyDeclared (name : String)
  | ownInitializer
  | returnOutsideFunction
  | inheritsItself
  | thisOutsideClass
  | superOutsideClass
  | superWithoutParent
  | innerOutsideClass
deriving DecidableEq, Repr

def Flaw.message : Flaw → String
  | alreadyDeclared name => "已经在此作用域中声明了变量'" ++ name ++ "'。"
  | ownInitializer => "不能在变量自己的初始化器中引用该变量。"
  | returnOutsideFunction => "不能在函数外部使用return语句。"
  | inheritsItself => "类不能继承自身。"
  | thisOutsideClass => "无法在类外部使用'this'。"
  | superOutsideClass => "不能在类外部使用'super'。"
  | superWithoutParent => "不能在没有超类的类中使用'super'。"
  | innerOutsideClass => "不能在类外部使用'inner'。"

/-- What resolving reports: a flaw at a token, or a local variable that is never used. -/
inductive Notice where
  | flawed (token : Token) (flaw : Flaw)
  | unused (name : String)
deriving DecidableEq, Repr

/-- The forms of syntax that refer to a variable. -/
inductive Form where
  | variable
  | assign
  | this
  | super
  | inner
deriving DecidableEq, Repr

end Lox.Scope
