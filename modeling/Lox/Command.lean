import Lox.Session.Prompt
import Lox.Session.Script
import Lox.Text.Digit

/-!
# Command lines

## Main definitions

* `Command`: what a command line asks for.
* `Command.ofPath`, `Command.ofOptions`: the two ways to write a command line.
* `Command.Argument.ofText`: what an argument of a command line with options stands for.
* `Session.perform`: does what a command asks for and yields the exit code.
* `Session.performOptions`: the same for a command line with options, after a banner.

## Design notes

A command line with options holds at most one script. Arguments that start with a dash are options, if
they are not a dash alone, a negative number or a text with a blank in it; what follows two dashes alone
is no option. Long options may be cut short, and short ones may be written together. An argument that
may mean either option is refused before anything else is looked at; then the arguments are taken in
turn, where the option for help and a value for an option end the reading; what is left over is refused
last.
-/

namespace Lox

/-- An option of a command line. -/
inductive Switch where
  | help
  | debug
deriving DecidableEq, Repr

namespace Switch

def ofLetter? : Char → Option Switch
  | 'h' => some help
  | 'd' => some debug
  | _ => none

def word : Switch → List Char
  | help => "help".toList
  | debug => "debug".toList

/-- An option as it is written in complaints. -/
def spelling : Switch → String
  | help => "-h/--help"
  | debug => "-d/--debug"

/-- The options whose words start with some letters. -/
def startingWith (cs : List Char) : List Switch := [help, debug].filter (cs.isPrefixOf ·.word)

end Switch

namespace Command

/-- Why a command line with options is refused. -/
inductive Refusal where
  | ambiguous (argument : String)
  | valueGiven (switch : Switch) (value : String)
  | unrecognized (arguments : List String)
deriving DecidableEq, Repr

def Refusal.message : Refusal → String
  | ambiguous argument => "ambiguous option: " ++ argument ++ " could match --help, --debug"
  | valueGiven switch value =>
    "argument " ++ switch.spelling ++ ": ignored explicit argument " ++ Text.quote value
  | unrecognized arguments => "unrecognized arguments: " ++ " ".intercalate arguments

end Command

/-- What a command line asks for. -/
inductive Command where
  | usage
  | help
  | refused (refusal : Command.Refusal)
  | script (path : String) (debug : Bool)
  | prompt
deriving DecidableEq, Repr

namespace Command

/-- A command line that is empty or names a script. -/
def ofPath : List String → Command
  | [] => prompt
  | [path] => script path false
  | _ => usage

/-- What an argument of a command line with options stands for. -/
inductive Argument where
  /-- No option. -/
  | plain
  /-- Options, and what is left over of the argument. -/
  | switches (given : List Switch) (rest? : Option String)
  /-- An option with a value, which none takes. -/
  | valued (switch : Switch) (value : String)
  | ambiguous
deriving DecidableEq, Repr

namespace Argument

/-- Whether what follows a dash makes it a negative number. A line end after it does not count. -/
def isNumeral (cs : List Char) : Bool :=
  let cs := if cs.getLast? = some '\n' then cs.dropLast else cs
  match cs.dropWhile Text.isDecimalDigit with
  | [] => !cs.isEmpty
  | '.' :: ds => !ds.isEmpty && ds.all Text.isDecimalDigit
  | _ => false

/-- An argument with a dash that starts like no option. -/
def unknown (argument : String) : Argument :=
  if isNumeral (argument.toList.drop 1) || argument.toList.contains ' ' then plain
  else switches [] (some argument)

/-- Options that are written together, after the letter of the last one so far. -/
def ofLetters (given : List Switch) (last : Switch) : List Char → Argument
  | [] => switches (given ++ [last]) none
  | '=' :: value => valued last (String.ofList value)
  | '-' :: value => valued last (String.ofList ('-' :: value))
  | c :: cs =>
    match Switch.ofLetter? c with
    | some next => ofLetters (given ++ [last]) next cs
    | none => switches (given ++ [last]) (some (String.ofList ('-' :: c :: cs)))

/-- What an argument stands for, other than two dashes alone. -/
def ofText (argument : String) : Argument :=
  match argument.toList with
  | '-' :: '-' :: cs =>
    let (word, value) := cs.span (· ≠ '=')
    match Switch.startingWith word, value with
    | [switch], [] => switches [switch] none
    | [switch], _ :: value => valued switch (String.ofList value)
    | [], _ => unknown argument
    | _, _ => ambiguous
  | '-' :: c :: cs =>
    match Switch.ofLetter? c with
    | some switch => ofLetters [] switch cs
    | none => unknown argument
  | _ => plain

end Argument

/-- What has been found among the arguments of a command line with options. -/
structure Found where
  script? : Option String
  /-- Whether the script was the last argument so far. -/
  scriptLast : Bool
  debug : Bool
  extras : List String

namespace Found

def nothing : Found := ⟨none, false, false, []⟩

def addPlain (found : Found) (argument : String) : Found :=
  match found.script? with
  | none => { found with script? := some argument, scriptLast := true }
  | some _ => { found with scriptLast := false, extras := found.extras ++ [argument] }

def addSwitches (found : Found) (given : List Switch) (rest? : Option String) : Found :=
  { found with
    scriptLast := false
    debug := found.debug || !given.isEmpty
    extras := found.extras ++ rest?.toList }

/-- Adds two dashes and what follows them. The script may stand on either side. -/
def addRest (found : Found) : List String → Found
  | [] => found
  | dashes :: rest =>
    match found.script? with
    | none => { found with script? := rest.head?, extras := found.extras ++ rest.tail }
    | some _ =>
      { found with extras := found.extras ++ if found.scriptLast then rest else dashes :: rest }

def command (found : Found) : Command :=
  if found.extras.isEmpty then
    match found.script? with
    | some path => if path.isEmpty then prompt else script path found.debug
    | none => prompt
  else refused (.unrecognized found.extras)

/-- What is asked for, after the arguments before two dashes alone and the others. -/
def take (found : Found) (rest : List String) : List String → Command
  | [] => (found.addRest rest).command
  | argument :: arguments =>
    match Argument.ofText argument with
    | .plain => (found.addPlain argument).take rest arguments
    | .switches given rest? =>
      if given.contains .help then help else (found.addSwitches given rest?).take rest arguments
    | .valued switch value => refused (.valueGiven switch value)
    | .ambiguous => refused (.ambiguous argument)

end Found

/-- A command line that may hold options beside the script. -/
def ofOptions (arguments : List String) : Command :=
  let (arguments, rest) := arguments.span (· ≠ "--")
  match arguments.find? fun argument => Argument.ofText argument = .ambiguous with
  | some argument => refused (.ambiguous argument)
  | none => Found.nothing.take rest arguments

/-- What is written about command lines that make no sense. -/
def usageText : String := "Usage: pylox [script]"

/-- What is written first if command lines have options. -/
def banner : String := "Lox Python解释器"

/-- How command lines with options are written. -/
def synopsis : String := "usage: lox.py [-h] [-d] [script]"

def helpText : String :=
  synopsis ++ "\n\nLox解释器\n\npositional arguments:\n  script       要执行的Lox脚本文件\n\n" ++
    "options:\n  -h, --help   show this help message and exit\n  -d, --debug  启用调试模式"

/-- The exit code of a command line with options that is refused. -/
def refusedCode : Nat := 2

end Command

/-- What surrounds a command: the files and the lines that are typed. -/
structure Surroundings where
  file : String → Script.Contents
  lines : List String
  ending : Prompt.Ending

/-- Does what a command asks for; yields the exit code, if there is one. -/
def Session.perform (around : Surroundings) : Command → Step (Option Nat)
  | .usage => do
    write (.notice Command.usageText)
    return some Script.usageError
  | .help => do
    write (.notice Command.helpText)
    return some 0
  | .refused refusal => do
    file (.misuse (Command.synopsis ++ "\nlox.py: error: " ++ refusal.message))
    return some Command.refusedCode
  | .script path debug => runScript path debug (around.file path)
  | .prompt => do
    prompt around.ending around.lines
    return none

def Session.performOptions (around : Surroundings) (arguments : List String) :
    Step (Option Nat) := do
  write (.notice Command.banner)
  perform around (.ofOptions arguments)

end Lox
