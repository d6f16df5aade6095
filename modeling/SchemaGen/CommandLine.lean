import SchemaGen.Command

/-!
# The command line

Switches and parameters are written long (`--out x`, `--out=x`) or short (`-o x`, `-ox`, `-o=x`),
and short switches may share one dash. Two dashes alone end them: what follows are operands. A value
of its own never starts with a dash, except a lone dash. Switches may stand before and behind the
name of the command, and each of the two places is checked by itself.

A command line is read from left to right. What is wrong with a word is found there, and so is the
wish for help; what is missing, or does not go together, is found at the end.
-/

namespace SchemaGen.CommandLine

/-- Options without a value. -/
inductive Switch where
  | verbose
  | quiet
  | help
deriving DecidableEq, Repr

namespace Switch

/-- All switches. -/
def all : List Switch := [verbose, quiet, help]

/-- How a switch is written behind two dashes. -/
def long : Switch → String
  | verbose => "verbose"
  | quiet => "quiet"
  | help => "help"

/-- How a switch is written behind one dash. -/
def short : Switch → Char
  | verbose => 'v'
  | quiet => 'q'
  | help => 'h'

end Switch

/-- Options with a value. -/
inductive Parameter where
  | lang
  | protoDir
  | out
  | skip
  | config
  | ext
deriving DecidableEq, Repr

namespace Parameter

/-- The parameters of the command that generates code. -/
def all : List Parameter := [lang, protoDir, out, skip, config, ext]

/-- How a parameter is written behind two dashes. -/
def long : Parameter → String
  | lang => "lang"
  | protoDir => "proto-dir"
  | out => "out"
  | skip => "skip"
  | config => "config"
  | ext => "ext"

/-- How a parameter is written behind one dash. -/
def short : Parameter → Char
  | lang => 'l'
  | protoDir => 'p'
  | out => 'o'
  | skip => 's'
  | config => 'c'
  | ext => 'e'

end Parameter

/-- Why a command line is refused. -/
inductive UsageError where
  /-- Help is asked for. -/
  | help
  | noCommand
  | unknown (word : String)
  | needlessValue (s : Switch)
  | missingValue (p : Parameter)
  | repeatedSwitch (s : Switch)
  | repeatedParameter (p : Parameter)
  | conflict
  | missing (p : Parameter)
  | noOperand
  | extraOperand (word : String)
  | emptyPath
  | unknownLanguage (word : String)
deriving DecidableEq, Repr

/-- The text of the error. -/
def UsageError.message : UsageError → String
  | help => "usage: gen --lang LANG --proto-dir DIR [OPTIONS] ROOT... | dump --proto-dir DIR FILE"
  | noCommand => "a command is needed: gen or dump"
  | unknown word => s!"unexpected argument {word}"
  | needlessValue s => s!"--{s.long} takes no value"
  | missingValue p => s!"--{p.long} needs a value"
  | repeatedSwitch s => s!"--{s.long} is given twice"
  | repeatedParameter p => s!"--{p.long} is given twice"
  | conflict => "--quiet cannot be used with --verbose"
  | missing p => s!"--{p.long} is missing"
  | noOperand => "a schema file is missing"
  | extraOperand word => s!"unexpected argument {word}"
  | emptyPath => "a path cannot be empty"
  | unknownLanguage word => s!"unknown language {word}"

/-! ## Values -/

/-- A path, which cannot be empty. -/
def path (text : String) : Except UsageError Path :=
  if text.isEmpty then .error .emptyPath else .ok ⟨text⟩

/-- A language by its name. -/
def language (name : String) : Except UsageError Language :=
  match Language.ofName? name with
  | some l => .ok l
  | none => .error (.unknownLanguage name)

/-- Checks a value of a parameter. -/
def checkValue (value : String) : Parameter → Except UsageError Unit
  | .lang => (language value).map fun _ => ()
  | .protoDir | .out | .config => (path value).map fun _ => ()
  | .skip | .ext => .ok ()

/-! ## Items -/

/-- A part of the command line. -/
inductive Item where
  | switch (s : Switch)
  | parameter (p : Parameter) (value : String)
  | operand (word : String)
deriving DecidableEq, Repr

/-- The switches among `items`. -/
def switches (items : List Item) : List Switch :=
  items.filterMap fun item =>
    match item with
    | .switch s => some s
    | _ => none

/-- The values of a parameter, in order. -/
def values (p : Parameter) (items : List Item) : List String :=
  items.filterMap fun item =>
    match item with
    | .parameter q value => if q = p then some value else none
    | _ => none

/-- The operands, in order. -/
def operands (items : List Item) : List String :=
  items.filterMap fun item =>
    match item with
    | .operand word => some word
    | _ => none

/-- What may stand at a place of the command line beside switches. -/
structure Form where
  parameters : List Parameter
  /-- Whether there may be so many operands. -/
  allows : Nat → Bool

/-- Adds an item to those read before it. A switch is given once, and so is a parameter other than
a skip pattern. -/
def addItem (form : Form) (items : List Item) (item : Item) : Except UsageError (List Item) := do
  match item with
  | .switch .help => throw .help
  | .switch s => if (switches items).contains s then throw (.repeatedSwitch s)
  | .parameter p value =>
    if p ≠ .skip ∧ values p items ≠ [] then throw (.repeatedParameter p)
    checkValue value p
  | .operand word =>
    if !form.allows ((operands items).length + 1) then throw (.extraOperand word)
    let _ ← path word
  return items ++ [item]

/-! ## Words -/

/-- Whether a word is an option; a lone dash is none. -/
def isOption (word : String) : Bool :=
  match word.toList with
  | '-' :: _ :: _ => true
  | _ => false

/-- Reads what follows a single dash: switches, and then perhaps a parameter, whose value may follow
in the same word. Gives the items so far, and the parameter that still needs a value. -/
def readShort (form : Form) (items : List Item) :
    List Char → Except UsageError (List Item × Option Parameter)
  | [] => .ok (items, none)
  | c :: cs =>
    match Switch.all.find? (·.short = c) with
    | some s => do readShort form (← addItem form items (.switch s)) cs
    | none =>
      match form.parameters.find? (·.short = c) with
      | none => .error (.unknown (String.ofList ['-', c]))
      | some p =>
        if cs.isEmpty then .ok (items, some p)
        else do
          let value := if cs.head? = some '=' then cs.tail else cs
          return (← addItem form items (.parameter p (String.ofList value)), none)

/-- Reads what follows two dashes: a name, and perhaps a value behind an equals sign. -/
def readLong (form : Form) (items : List Item) (cs : List Char) :
    Except UsageError (List Item × Option Parameter) := do
  let name := String.ofList (cs.takeWhile (· ≠ '='))
  let value := (cs.dropWhile (· ≠ '=')).tail?.map String.ofList
  match Switch.all.find? (·.long = name), form.parameters.find? (·.long = name), value with
  | some s, _, none => return (← addItem form items (.switch s), none)
  | some s, _, some _ => throw (.needlessValue s)
  | none, some p, some value => return (← addItem form items (.parameter p value), none)
  | none, some p, none => return (items, some p)
  | none, none, _ => throw (.unknown (String.ofList ('-' :: '-' :: cs)))

/-- Reads an option. -/
def readOption (form : Form) (items : List Item) (word : String) :
    Except UsageError (List Item × Option Parameter) :=
  match word.toList with
  | '-' :: '-' :: cs => readLong form items cs
  | cs => readShort form items cs.tail

/-- Reads the words behind the name of a command, where `items` have been read before. -/
def readItems (form : Form) (items : List Item) : List String → Except UsageError (List Item)
  | [] => .ok items
  | word :: words => do
    if word = "--" then words.foldlM (fun items word => addItem form items (.operand word)) items
    else if isOption word then
      match ← readOption form items word with
      | (items, none) => readItems form items words
      | (items, some p) =>
        match words with
        | [] => throw (.missingValue p)
        | value :: words =>
          if isOption value then throw (.missingValue p)
          else readItems form (← addItem form items (.parameter p value)) words
    else readItems form (← addItem form items (.operand word)) words

/-! ## Commands -/

/-- Checks that the switches of one place go together. -/
def checkSwitches (items : List Item) : Except UsageError Unit :=
  let given := switches items
  if given.contains .verbose && given.contains .quiet then .error .conflict else .ok ()

/-- The value of a parameter that must be given. -/
def required (p : Parameter) (items : List Item) : Except UsageError String :=
  match (values p items).head? with
  | some value => .ok value
  | none => .error (.missing p)

/-- What may stand behind the command that generates code. -/
def generateForm : Form := ⟨Parameter.all, fun _ => true⟩

/-- Reads the command that generates code. -/
def readGenerate (words : List String) : Except UsageError Command := do
  let items ← readItems generateForm [] words
  checkSwitches items
  let roots ← (operands items).mapM path
  if roots.isEmpty then throw .noOperand
  return .generate {
    language := ← language (← required .lang items)
    schemaRoot := ← path (← required .protoDir items)
    out := ← (values .out items).head?.mapM path
    skip := values .skip items
    config := ← (values .config items).head?.mapM path
    extension := (values .ext items).head?
    roots }

/-- What may stand behind the command that shows a file. -/
def dumpForm : Form := ⟨[.protoDir], (· ≤ 1)⟩

/-- Reads the command that shows a file. -/
def readDump (words : List String) : Except UsageError Command := do
  let items ← readItems dumpForm [] words
  checkSwitches items
  let root ← path (← required .protoDir items)
  match operands items with
  | [] => throw .noOperand
  | file :: _ => return .dump root (← path file)

/-- Reads the words behind the command that asks for help: at most the name of a command. -/
def readHelp : List String → UsageError
  | [] => .help
  | name :: more =>
    if ["gen", "dump", "help"].contains name then
      match more with
      | [] => .help
      | word :: _ => .unknown word
    else .unknown name

/-- What may stand before the name of a command. -/
def leadingForm : Form := ⟨[], fun _ => false⟩

/-- Reads the words up to the name of a command, where `items` have been read before, and the
command. -/
def readCommand (items : List Item) : List String → Except UsageError Command
  | [] => .error .noCommand
  | word :: words => do
    if word = "help" then throw (readHelp words)
    else if word = "gen" then
      let command ← readGenerate words
      checkSwitches items
      return command
    else if word = "dump" then
      let command ← readDump words
      checkSwitches items
      return command
    else if word ≠ "--" && isOption word then
      let (items, _) ← readOption leadingForm items word
      readCommand items words
    else throw (.unknown word)

/-- Reads a command line. -/
def read (words : List String) : Except UsageError Command :=
  readCommand [] words

/-! ## Running -/

/-- How a command line ends. -/
inductive Outcome where
  | printed (text : String)
  | failed (error : RunError)
  | refused (error : UsageError)
deriving DecidableEq, Repr

/-- The exit code of an outcome. -/
def Outcome.exitCode : Outcome → Nat
  | printed _ => 0
  | failed _ => 1
  | refused .help => 0
  | refused _ => 2

/-- Runs a command line on a file system. -/
def run (words : List String) (fs : FileSystem) : Outcome × FileSystem :=
  match read words with
  | .error e => (.refused e, fs)
  | .ok command =>
    match command.run.run fs with
    | (.ok text, fs) => (.printed text, fs)
    | (.error e, fs) => (.failed e, fs)

end SchemaGen.CommandLine
