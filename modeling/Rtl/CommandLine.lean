import Rtl.Catalogue.Designs
import Rtl.Config
import Rtl.Fragment.Printer
import Rtl.Text.Lower

/-!
The command line: `list` shows the sample designs, `prepare` prints a prepared one and `lint` checks one. Arguments are
read into an invocation, which is then run on the contents of its configuration file. A run is a pure value: what it
prints, what it writes and why it failed.
-/
namespace Rtl.CommandLine

def programName : String := "hdlc"

inductive Task where
  | list
  | prepare
  | lint
  deriving DecidableEq, Repr

namespace Task

def name : Task → String
  | .list => "list"
  | .prepare => "prepare"
  | .lint => "lint"

def all : List Task := [.list, .prepare, .lint]

def ofName? (s : String) : Option Task := all.find? (·.name = s)

end Task

inductive Flag where
  | config
  | conflicts
  | noSync
  | diagFormat
  | output
  | noDescriptions
  | help
  deriving DecidableEq, Repr

namespace Flag

def name : Flag → String
  | .config => "config"
  | .conflicts => "conflicts"
  | .noSync => "no-sync"
  | .diagFormat => "diag-format"
  | .output => "output"
  | .noDescriptions => "no-descriptions"
  | .help => "help"

def shorthand? : Flag → Option Char
  | .output => some 'o'
  | .help => some 'h'
  | _ => none

/-- Flags that need no value. -/
def isSwitch : Flag → Bool
  | .noSync | .noDescriptions | .help => true
  | _ => false

/-- How a flag is named where its value is refused. -/
def label (f : Flag) : String :=
  match f.shorthand? with
  | some c => String.ofList ['-', c] ++ ", --" ++ f.name
  | none => "--" ++ f.name

end Flag

/-- The flags of a task; without a task only help can be asked for. -/
def flagsOf : Option Task → List Flag
  | none | some .list => [.help]
  | some .prepare => [.config, .conflicts, .noSync, .diagFormat, .output, .help]
  | some .lint => [.config, .conflicts, .noSync, .diagFormat, .help]

inductive UsageError where
  /-- A word that names no task, with the names it may have been meant for. -/
  | unknownCommand (word owner : String) (near : List String)
  | argumentCount (expected received : Nat)
  | tooFewArguments (expected received : Nat)
  | unknownFlag (name : String)
  | unknownShorthand (letter : Char) (word : String)
  | missingValue (name : String)
  | missingShorthandValue (letter : Char) (word : String)
  | badFlagSyntax (word : String)
  | badTruthValue (value : String) (flag : Flag)
  deriving DecidableEq, Repr

def UsageError.message : UsageError → String
  | .unknownCommand word owner near =>
    "unknown command " ++ Text.quote word ++ " for " ++ Text.quote owner
      ++ (if near.isEmpty then "" else "\n\nDid you mean this?\n" ++ String.join (near.map fun n => "\t" ++ n ++ "\n"))
  | .argumentCount expected received => s!"accepts {expected} arg(s), received {received}"
  | .tooFewArguments expected received => s!"requires at least {expected} arg(s), only received {received}"
  | .unknownFlag name => "unknown flag: --" ++ name
  | .unknownShorthand letter word => "unknown shorthand flag: " ++ Text.quoteLetter letter ++ " in -" ++ word
  | .missingValue name => "flag needs an argument: --" ++ name
  | .missingShorthandValue letter word => "flag needs an argument: " ++ Text.quoteLetter letter ++ " in -" ++ word
  | .badFlagSyntax word => "bad flag syntax: " ++ word
  | .badTruthValue value flag =>
    "invalid argument " ++ Text.quote value ++ " for " ++ Text.quote flag.label
      ++ " flag: strconv.ParseBool: parsing " ++ Text.quote value ++ ": invalid syntax"

structure Options where
  /-- The path of the configuration file; empty for none. -/
  config : String := ""
  conflicts : Option String := none
  noSync : Bool := false
  diagFormat : Option String := none
  /-- Where the result is written; empty or a dash for standard output. -/
  output : String := ""
  help : Bool := false
  deriving DecidableEq, Repr

/-- The words that stand for true and false as the value of a flag. -/
def truthValue? (s : String) : Option Bool :=
  if ["1", "t", "T", "true", "TRUE", "True"].contains s then some true
  else if ["0", "f", "F", "false", "FALSE", "False"].contains s then some false
  else none

def Options.set (o : Options) (f : Flag) (value : String) : Except UsageError Options :=
  let truth : Except UsageError Bool :=
    match truthValue? value with
    | some b => .ok b
    | none => .error (.badTruthValue value f)
  match f with
  | .config => .ok { o with config := value }
  | .conflicts => .ok { o with conflicts := some value }
  | .noSync => do return { o with noSync := ← truth }
  | .diagFormat => .ok { o with diagFormat := some value }
  | .output => .ok { o with output := value }
  | .noDescriptions => do
    let _ ← truth
    return o
  | .help => do return { o with help := ← truth }

/-- The words of a command line: the values of its flags, and the arguments among them. -/
structure Words where
  options : Options
  arguments : List String

def splitValue (cs : List Char) : String × Option String :=
  let name := String.ofList (cs.takeWhile (· != '='))
  match cs.dropWhile (· != '=') with
  | [] => (name, none)
  | _ :: value => (name, some (String.ofList value))

/-- A flag by its name. Its value is joined to it or is the next word; a switch takes no next word. -/
def longFlag (flags : List Flag) (o : Options) (word : List Char) (rest : List String) :
    Except UsageError (Options × List String) :=
  if word.isEmpty || word.head? = some '-' || word.head? = some '='
  then .error (.badFlagSyntax ("--" ++ String.ofList word))
  else
    let (name, value) := splitValue word
    match flags.find? (·.name = name) with
    | none => .error (.unknownFlag name)
    | some f =>
      match value, rest with
      | some v, _ => do return (← o.set f v, rest)
      | none, _ => if f.isSwitch then do return (← o.set f "true", rest)
        else match rest with
          | v :: rest => do return (← o.set f v, rest)
          | [] => .error (.missingValue name)

/-- How a letter that is no flag is shown; letters beyond ASCII are not told apart. -/
def shownLetter (c : Char) : Char := if c.toNat < 0x80 then c else 'Ã'

/-- How the words start that ask for a test run; they are passed over. -/
def testWord : List Char := "test.".toList

/-- Flags by their letters. The rest of the word is the value of the first that takes one. -/
def shortFlags (flags : List Flag) (rest : List String) :
    Options → List Char → Except UsageError (Options × List String)
  | o, [] => .ok (o, rest)
  | o, c :: word =>
    if testWord.isPrefixOf (c :: word) then .ok (o, rest)
    else match flags.find? (·.shorthand? = some c) with
    | none => .error (.unknownShorthand (shownLetter c) (String.ofList (c :: word)))
    | some f =>
      match word with
      | '=' :: v :: vs => do return (← o.set f (String.ofList (v :: vs)), rest)
      | _ =>
        if f.isSwitch then do shortFlags flags rest (← o.set f "true") word
        else if !word.isEmpty then do return (← o.set f (String.ofList word), rest)
        else match rest with
          | v :: rest => do return (← o.set f v, rest)
          | [] => .error (.missingShorthandValue c (String.ofList (c :: word)))

/-- Reads the words of a task. Flags and arguments may be mixed; after two dashes all are arguments. -/
def readWordsWith (flags : List Flag) : Nat → Words → List String → Except UsageError Words
  | 0, w, _ => .ok w
  | _ + 1, w, [] => .ok w
  | fuel + 1, w, s :: rest =>
    match s.toList with
    | ['-', '-'] => .ok { w with arguments := w.arguments ++ rest }
    | '-' :: '-' :: word => do
      let (o, rest) ← longFlag flags w.options word rest
      readWordsWith flags fuel { w with options := o } rest
    | '-' :: c :: word => do
      let (o, rest) ← shortFlags flags rest w.options (c :: word)
      readWordsWith flags fuel { w with options := o } rest
    | _ => readWordsWith flags fuel { w with arguments := w.arguments ++ [s] } rest

def readWords (flags : List Flag) (words : List String) : Except UsageError Words :=
  readWordsWith flags (words.length + 1) ⟨{}, []⟩ words

/-- Whether a word is taken for a flag whose value is the next word. Before the task is known, every flag is. -/
def takesNext (s : String) : Bool :=
  match s.toList with
  | '-' :: '-' :: word => !word.contains '='
  | ['-', c] => c != '=' && c.toNat < 0x80
  | _ => false

/-- The first word that is neither a flag nor the value of one, with the words around it. A flag before the last word
is not followed by a value. -/
def firstArgument : Nat → List String → List String → Option (String × List String)
  | 0, _, _ => none
  | _ + 1, _, [] => none
  | fuel + 1, before, s :: rest =>
    if s = "--" then none
    else if takesNext s then
      match rest with
      | v :: w :: more => firstArgument fuel (before ++ [s, v]) (w :: more)
      | _ => none
    else if s != "" && s.toList.head? != some '-' then some (s, before ++ rest)
    else firstArgument fuel (before ++ [s]) rest

def distanceRow (c : UInt8) : List UInt8 → List Nat → Nat → List Nat
  | d :: ds, diagonal :: above :: rest, left =>
    let here := if c = d then diagonal else min (min diagonal above) left + 1
    here :: distanceRow c ds (above :: rest) here
  | _, _, _ => []

def distanceWith (target : List UInt8) : List UInt8 → List Nat → Nat → Nat
  | [], row, _ => row.getLast?.getD 0
  | c :: cs, row, n => distanceWith target cs ((n + 1) :: distanceRow c target row (n + 1)) (n + 1)

/-- The edit distance of two words, in bytes. -/
def distance (a b : String) : Nat :=
  distanceWith b.toUTF8.toList a.toUTF8.toList (List.range (b.toUTF8.size + 1)) 0

/-- The names that a word may have been meant for: those close to it, and those that it starts. -/
def nearNames (word : String) : List String :=
  let word := Text.lower word
  (Task.all.map Task.name ++ ["completion"]).filter fun n => distance word n ≤ 2 || word.toList.isPrefixOf n.toList

inductive Invocation where
  | help
  | list
  | prepare (options : Options) (design : String)
  | lint (options : Options) (design : String)
  deriving DecidableEq, Repr

namespace Invocation

def oneArgument (make : String → Invocation) : List String → Except UsageError Invocation
  | [design] => .ok (make design)
  | args => .error (.argumentCount 1 args.length)

def shells : List String := ["bash", "zsh", "fish", "powershell"]

/-- Reads the words after `completion`. -/
def completion (words : List String) : Except UsageError Invocation :=
  match firstArgument (words.length + 1) [] words with
  | some (shell, rest) =>
    if shells.contains shell then do
      let w ← readWords [.noDescriptions, .help] rest
      match w.arguments with
      | [] => return .help
      | extra :: _ =>
        if w.options.help then return .help
        else throw (.unknownCommand extra (programName ++ " completion " ++ shell) [])
    else helpUnless words
  | none => helpUnless words
where
  helpUnless (words : List String) : Except UsageError Invocation := do
    let _ ← readWords [.help] words
    return .help

/-- The words that ask for the completions of what follows them. -/
def completionRequests : List String := ["__complete", "__completeNoDesc"]

/-- Reads a command line. The task comes first, then the flags are read, and the arguments are counted last. -/
def parse (words : List String) : Except UsageError Invocation :=
  match firstArgument (words.length + 1) [] words with
  | none => do
    let _ ← readWords (flagsOf none) words
    return .help
  | some ("help", rest) => do
    let _ ← readWords (flagsOf none) rest
    return .help
  | some ("completion", rest) => completion rest
  | some (word, rest) =>
    if completionRequests.contains word then
      if rest.isEmpty then .error (.tooFewArguments 1 0) else .ok .help
    else match Task.ofName? word with
    | none => .error (.unknownCommand word programName (nearNames word))
    | some task => do
      let w ← readWords (flagsOf (some task)) rest
      if w.options.help then return .help
      match task with
      | .list =>
        match w.arguments with
        | [] => return .list
        | extra :: _ => throw (.unknownCommand extra (programName ++ " " ++ task.name) [])
      | .prepare => oneArgument (.prepare w.options) w.arguments
      | .lint => oneArgument (.lint w.options) w.arguments

def configPath? : Invocation → Option String
  | .prepare o _ | .lint o _ => if o.config = "" then none else some o.config
  | _ => none

end Invocation

structure Outcome where
  stdout : List String := []
  stderr : List String := []
  /-- A file to be written, with its lines. -/
  written : Option (String × List String) := none
  failed : Option String := none
  /-- Whether the failure is one that no run should end with. -/
  isFault : Bool := false
  deriving DecidableEq, Repr

namespace Outcome

def failure (message : String) : Outcome := { failed := some message }

def notWritten (o : Outcome) (reason : String) : Outcome :=
  { o with written := none, failed := some ("create output: " ++ reason) }

end Outcome

/-- The configuration of a run: that of its file, or why the file cannot be read, with what the flags override. -/
def loadConfig (o : Options) (file : Except String String) : Except Outcome Config := do
  let c ← if o.config = "" then pure Config.standard
    else match file with
      | .error reason => throw (.failure ("config: read: " ++ reason))
      | .ok text => (Config.parse text).mapError fun e =>
          { Outcome.failure ("config: " ++ o.config ++ ": " ++ e.message) with isFault := e = .collectionKey }
  let c := { c with
    conflicts := o.conflicts.getD c.conflicts
    diagFormat := o.diagFormat.getD c.diagFormat
    ensureSync := if o.noSync then some false else c.ensureSync }
  c.validate.mapError fun e => .failure e.message
  return c

def prepareDesign (c : Config) (name : String) : Work Nat := do
  let d ← MonadExcept.ofExcept (SampleDesign.ofName name)
  let mode ← MonadExcept.ofExcept (ConflictMode.ofName c.conflicts)
  let a ← Work.update Workspace.addArena
  let top ← tryCatch (d.build a) fun e => throw (e.within ("build " ++ name))
  let ports ← MonadExcept.ofExcept ((top.select (← Work.arenas) c.ports).mapError (·.within name))
  let (number, _) ← Work.prepare a ⟨ports.map .signal, c.syncEnabled, mode⟩ true (some top.block)
  return number

/-- Runs a job on an empty workspace. What is reported goes to standard error, whether the job fails or not. -/
def perform {α : Type} (c : Config) (job : Work α) (done : Workspace → α → Outcome) : Outcome :=
  let (result, w) := job.run.run Workspace.empty
  let stderr := w.reporter.lines (.ofName c.diagFormat)
  match result with
  | .error e => { stderr := stderr, failed := some e.message }
  | .ok a => { done w a with stderr := stderr }

def runPrepare (o : Options) (design : String) (file : Except String String) : Outcome :=
  match loadConfig o file with
  | .error outcome => outcome
  | .ok c =>
    perform c (do
      let number ← prepareDesign c design
      if c.checkEnabled then Work.check (some number) true
      return number) fun w number =>
        let lines := (w.tree number).dump w.arenas
        if o.output = "" || o.output = "-" then { stdout := lines } else { written := some (o.output, lines) }

def runLint (o : Options) (design : String) (file : Except String String) : Outcome :=
  match loadConfig o file with
  | .error outcome => outcome
  | .ok c =>
    perform c (do Work.check (some (← prepareDesign c design)) true) fun w _ =>
      { stdout := [design ++ ": ok (" ++ toString (w.reporter.count .warning) ++ " warning(s))"] }

def listing : List String :=
  SampleDesign.all.map fun d => Text.padRight 12 d.name ++ " " ++ d.description

def usage : List String :=
  ["Elaborate and prepare hardware designs", "", "Usage:", "  " ++ programName ++ " list",
    "  " ++ programName ++ " prepare [flags] <design>", "  " ++ programName ++ " lint [flags] <design>", "", "Flags:"]
    ++ (flagsOf (some .prepare)).map fun f => "  " ++ f.label

/-- Runs an invocation, given the contents of its configuration file or why it cannot be read. -/
def Invocation.run (file : Except String String) : Invocation → Outcome
  | .help => { stdout := usage }
  | .list => { stdout := listing }
  | .prepare o design => runPrepare o design file
  | .lint o design => runLint o design file

/-- Files by their paths. Besides them there are a few directories, in which files can be made, and a file that is
always empty. -/
structure Files where
  contents : List (String × String)

namespace Files

def all (fs : Files) : List (String × String) := fs.contents ++ [("/dev/null", "")]

/-- Whether a path leads to the root, to where the program runs, or to a directory for any use. -/
def isDirectory (path : String) : Bool :=
  match (path.splitOn "/").filter fun part => part != "" && part != "." && part != ".." with
  | [] => true
  | [name] => path.startsWith "/" && ["tmp", "dev"].contains name
  | _ => false

def parent (path : String) : String :=
  let cs := (path.toList.reverse.dropWhile (· = '/')).dropWhile (· != '/')
  if cs.isEmpty then "." else String.ofList cs.reverse

/-- Why a path cannot be opened, unless it is a directory or in one. -/
def problem? (fs : Files) (path : String) : Option String :=
  if path.toList.contains (Char.ofNat 0) then some "invalid argument"
  else if fs.all.any fun f => path.startsWith (f.1 ++ "/") then some "not a directory"
  else if isDirectory path then none
  else if !isDirectory (parent path) then some "no such file or directory"
  else if (path.splitOn "/").any (255 < ·.utf8ByteSize) then some "file name too long"
  else none

def read (fs : Files) (path : String) : Except String String :=
  match fs.all.find? (·.1 = path), fs.problem? path with
  | some (_, text), _ => .ok text
  | none, some reason => .error ("open " ++ path ++ ": " ++ reason)
  | none, none =>
    if isDirectory path then .error ("read " ++ path ++ ": is a directory")
    else .error ("open " ++ path ++ ": no such file or directory")

def refusal? (fs : Files) (path : String) : Option String :=
  match fs.problem? path with
  | some reason => some ("open " ++ path ++ ": " ++ reason)
  | none => if isDirectory path || path.endsWith "/" then some ("open " ++ path ++ ": is a directory") else none

end Files

/-- Runs a command line among known files. -/
def runAmong (fs : Files) (words : List String) : Outcome :=
  match Invocation.parse words with
  | .error e => .failure e.message
  | .ok invocation =>
    let o := invocation.run (fs.read (invocation.configPath?.getD ""))
    match o.written.bind fun w => fs.refusal? w.1 with
    | some reason => o.notWritten reason
    | none => o

end Rtl.CommandLine
