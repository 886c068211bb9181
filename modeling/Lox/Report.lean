import Lox.Fault
import Lox.Scope
import Lox.Token.Scan
import Lox.Tree.Parse

/-!
# Reports

What is written to the error output, and the flags that reports raise.

## Main definitions

* `Report`: complaints about a text, warnings, errors of a run and records of failures.
* `Report.render`: the line of a report.
* `Flags`, `Flags.raise`: whether there was an error, an error of a run or a warning.

## Design notes

A complaint about the use of a name is filed under the token itself and not under its line.
-/

namespace Lox

/-- A report. -/
inductive Report where
  | scanning (complaint : Token.Complaint)
  /-- A complaint about a token list that ends on the given line. -/
  | reading (lastLine : Nat) (complaint : Tree.Complaint)
  | scoping (notice : Scope.Notice)
  | running (token : Token) (fault : Fault)
  /-- The category of a failure that ended a run. -/
  | failure (category : String)
  | noSuchFile (path : String)
  /-- A command line was refused. -/
  | misuse (message : String)
deriving DecidableEq, Repr

namespace Report

def errorLine (line place message : String) : String :=
  "[行 " ++ line ++ "] 错误" ++ place ++ ": " ++ message ++ "\n"

/-- The place of a complaint about a token list. -/
def place : Option Token → String
  | none => " at end"
  | some t => if t.kind = .eof then " at end" else " at '" ++ t.lexeme ++ "'"

def render : Report → String
  | scanning c => errorLine (toString c.line) "" c.flaw.message
  | reading lastLine c =>
    errorLine (toString ((c.token?.map (·.line)).getD lastLine)) (place c.token?) c.flaw.message
  | scoping (.flawed token flaw) => errorLine token.describe "" flaw.message
  | scoping (.unused name) => "[警告] 局部变量 '" ++ name ++ "' 已声明但从未使用。\n"
  | running token fault => "[行 " ++ toString token.line ++ "] 运行时错误: " ++ fault.message ++ "\n"
  | failure category => "[traceback] " ++ category ++ "\n"
  | noSuchFile path => "错误: 找不到文件 '" ++ path ++ "'\n"
  | misuse message => message ++ "\n"

def renderAll (reports : Array Report) : String :=
  reports.foldl (fun text report => text ++ report.render) ""

end Report

/-- What has been reported so far. -/
structure Flags where
  error : Bool
  runtimeError : Bool
  warning : Bool
deriving DecidableEq, Repr

namespace Flags

def clear : Flags := ⟨false, false, false⟩

def raise (flags : Flags) : Report → Flags
  | .scanning _ | .reading .. | .scoping (.flawed ..) => { flags with error := true }
  | .scoping (.unused _) => { flags with warning := true }
  | .running .. => { flags with runtimeError := true }
  | .failure _ | .noSuchFile _ | .misuse _ => flags

end Flags

end Lox
