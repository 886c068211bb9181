/-!
# Faults

The errors of the language that a running program can make.

## Main definitions

* `Fault`: the causes.
* `Fault.message`: their wording.
-/

namespace Lox

/-- The cause of an error of a running program. -/
inductive Fault where
  | undefinedVariable (name : String)
  | uninitializedVariable (name : String)
  /-- A global variable by position that is not defined. -/
  | undefinedGlobal (name : String)
  | operandNotNumber
  | divisionByZero
  | superclassNotClass
  | notCallable
  | wrongArity (expected given : Nat)
  | undefinedStatic (name : String)
  | undefinedProperty (name : String)
  /-- A method that the superclass does not have. -/
  | undefinedInherited (name : String)
  | noProperties
  | noFields
  | noSubclass
deriving DecidableEq, Repr

def Fault.message : Fault → String
  | undefinedVariable name => "未定义的变量 '" ++ name ++ "'。"
  | uninitializedVariable name => "未初始化的变量 '" ++ name ++ "'。"
  | undefinedGlobal name => "未定义的变量'" ++ name ++ "'。"
  | operandNotNumber => "操作数必须是数字。"
  | divisionByZero => "除数不能为零。"
  | superclassNotClass => "超类必须是一个类。"
  | notCallable => "只能调用函数和类。"
  | wrongArity expected given =>
    "需要" ++ toString expected ++ "个参数但得到" ++ toString given ++ "个。"
  | undefinedStatic name => "未定义的静态方法 '" ++ name ++ "'。"
  | undefinedProperty name => "未定义的属性 '" ++ name ++ "'。"
  | undefinedInherited name => "未定义的属性'" ++ name ++ "'。"
  | noProperties => "只能从实例或类上获取属性。"
  | noFields => "只能在实例上设置属性。"
  | noSubclass => "不能在最底层类中使用'inner'关键字，没有子类可以调用。"

end Lox
