import Lox.Session
import Lox.Text.Quoted
import Lox.Text.Utf8

/-!
# Scripts

Running a file, with the exit code that tells how it went.

## Main definitions

* `Script.Contents`: what stands under the name of a script.
* `Script.Unreadable`: why a script cannot be read.
* `Session.runScript`: runs a script and yields its exit code.
-/

namespace Lox

namespace Script

/-- Why what stands under a name cannot be opened. -/
inductive Obstacle where
  | denied
  | notDirectory
  | directory
  | nameTooLong
deriving DecidableEq, Repr

namespace Obstacle

def category : Obstacle → String
  | denied => "PermissionError"
  | notDirectory => "NotADirectoryError"
  | directory => "IsADirectoryError"
  | nameTooLong => "OSError"

def number : Obstacle → Nat
  | denied => 13
  | notDirectory => 20
  | directory => 21
  | nameTooLong => 36

def wording : Obstacle → String
  | denied => "Permission denied"
  | notDirectory => "Not a directory"
  | directory => "Is a directory"
  | nameTooLong => "File name too long"

end Obstacle

/-- What stands under the name of a script. -/
inductive Contents where
  | missing
  | blocked (obstacle : Obstacle)
  | bytes (data : List UInt8)

/-- Why a script cannot be read. -/
inductive Unreadable where
  /-- The name holds the character that ends names. -/
  | nulInName
  | blocked (path : String) (obstacle : Obstacle)
  | undecodable (error : Utf8.Error)

def Unreadable.category : Unreadable → String
  | nulInName => "ValueError"
  | blocked _ obstacle => obstacle.category
  | undecodable _ => "UnicodeDecodeError"

def Unreadable.message : Unreadable → String
  | nulInName => "embedded null byte"
  | blocked path obstacle =>
    "[Errno " ++ toString obstacle.number ++ "] " ++ obstacle.wording ++ ": " ++ Text.quote path
  | undecodable error => error.message

/-- Whether a name holds the character that ends names; it then names nothing. -/
def hasNul (path : String) : Bool := path.toList.contains '\x00'

def text (data : List UInt8) : Except Unreadable String :=
  match Utf8.decode data with
  | .ok cs => .ok (String.ofList (Text.unifyLineEnds cs))
  | .error e => .error (.undecodable e)

/-- The exit code of a text that has errors. -/
def dataError : Nat := 65

/-- The exit code of a run that failed. -/
def softwareError : Nat := 70

/-- The exit code of a command line that makes no sense. -/
def usageError : Nat := 64

end Script

namespace Session

def runText (path text : String) : Step Unit := do
  write (.notice ("[执行文件] " ++ path))
  let debug := (← get).debug
  if debug then write (.trace "开始执行文件...")
  let _ ← run text false
  if debug then write (.trace "文件执行完成")

def exitCode : Step (Option Nat) := do
  let s ← get
  if s.attached && s.flags.error then return some Script.dataError
  else if s.attached && s.flags.runtimeError then return some Script.softwareError
  else return none

/-- Records that a script failed and yields the exit code for it. -/
def scriptFailed (path category message : String) : Step (Option Nat) := do
  recordFailure ("[异常] 执行 " ++ path ++ " 时发生异常: ") category message
  return some Script.softwareError

/-- Records that a script cannot be read and yields the exit code for it. -/
def scriptUnreadable (path : String) (error : Script.Unreadable) : Step (Option Nat) :=
  scriptFailed path error.category error.message

def runReadable (path text : String) : Step (Option Nat) := fun s =>
  match runText path text s with
  | .ok _ s' => exitCode s'
  | .error e s' => scriptFailed path e.category e.message s'

/-- Runs a script and yields the exit code, if there is one. -/
def runScript (path : String) (debug : Bool) (contents : Script.Contents) :
    Step (Option Nat) := do
  setDebug debug
  forgiveErrors
  start
  if Script.hasNul path then scriptUnreadable path .nulInName
  else
    match contents with
    | .missing =>
      file (.noSuchFile path)
      return some Script.dataError
    | .blocked obstacle => scriptUnreadable path (.blocked path obstacle)
    | .bytes data =>
      match Script.text data with
      | .ok text => runReadable path text
      | .error error => scriptUnreadable path error

end Session

end Lox
