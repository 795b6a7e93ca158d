/-
The arguments of a command line.

Options stand in front of a command, and behind it only what the command takes.
An option is given once, its value in the same argument or in the next one. Two
dashes on their own end the options, so that values may begin with a dash; a
single dash is a value.
-/
import MerkleBuffer.Config.File

namespace MerkleBuffer.CommandLine

/-- How results are written. -/
inductive Format where
  | json
  | text
deriving DecidableEq, Repr

/-- What can be done with a store file. -/
inductive Command where
  | init
  | insert (values : List String)
  | get (hash : String)
  | verify (root : String)
  | stats
deriving DecidableEq, Repr

/-- The options that take a value. -/
inductive ValueOption where
  | database
  | format
deriving DecidableEq, Repr

/-- The options that were given. -/
structure Options where
  database : Option String
  format : Option Format
  verbose : Bool
deriving DecidableEq, Repr

/-- A command with its options. Being verbose may add to what a person reads
while a command runs; results and failures are the same either way. -/
structure Invocation where
  database : String
  format : Format
  verbose : Bool
  command : Command
deriving DecidableEq, Repr

/-- What a command line asks for. -/
inductive Request where
  | run (invocation : Invocation)
  | version
  | help
deriving DecidableEq, Repr

namespace Options

def none : Options := ⟨.none, .none, false⟩

/-- A command with these options; those that were not given have their default. -/
def invoke (o : Options) (command : Command) : Request :=
  .run ⟨o.database.getD Config.defaultFileName, o.format.getD .json, o.verbose, command⟩

end Options

def Format.ofName? : String → Option Format
  | "json" => some .json
  | "text" => some .text
  | _ => none

/-- Give an option its value, which it must not have yet. -/
def ValueOption.give (option : ValueOption) (value : String) (o : Options) : Option Options :=
  match option with
  | database =>
    if o.database.isSome || value.isEmpty then none else some { o with database := some value }
  | format =>
    if o.format.isSome then none else (Format.ofName? value).map fun f => { o with format := some f }

/-- What one argument in front of the command comes to. -/
inductive Step where
  | options (given : Options)
  /-- The next argument is the value of an option -/
  | value (option : ValueOption) (given : Options)
  | request (request : Request)
  | refused

/-- The step that the options after some option make. -/
def Step.ofOptions : Option Options → Step
  | some o => .options o
  | none => .refused

/-- The verbose flag, given for the first time. -/
def Options.giveVerbose (o : Options) : Option Options :=
  if o.verbose then Option.none else some { o with verbose := true }

/-- An option with a short name, whose value may follow its letter. -/
def shortValue (option : ValueOption) (o : Options) : List Char → Step
  | [] => .value option o
  | '=' :: value => .ofOptions (option.give (String.ofList value) o)
  | value => .ofOptions (option.give (String.ofList value) o)

/-- Options with short names in one argument, behind its dash. -/
def shortOptions (o : Options) : List Char → Step
  | [] => .options o
  | 'd' :: rest => shortValue .database o rest
  | 'f' :: rest => shortValue .format o rest
  | 'v' :: rest =>
    match o.giveVerbose with
    | some o => shortOptions o rest
    | none => .refused
  | 'V' :: _ => .request .version
  | 'h' :: _ => .request .help
  | _ => .refused

/-- An option with a long name, behind its two dashes: the name, and the value
behind an equals sign, if there is one. -/
def longOption (o : Options) (name : List Char) (value : Option (List Char)) : Step :=
  let withValue (option : ValueOption) : Step :=
    match value with
    | some value => .ofOptions (option.give (String.ofList value) o)
    | none => .value option o
  match String.ofList name, value with
  | "database", _ => withValue .database
  | "format", _ => withValue .format
  | "verbose", none => .ofOptions o.giveVerbose
  | "version", none => .request .version
  | "help", none => .request .help
  | _, _ => .refused

/-- Whether an argument has the form of an option. -/
def isOption (arg : String) : Bool :=
  match arg.toList with
  | '-' :: _ :: _ => true
  | _ => false

/-- The step of an argument that has the form of an option. -/
def optionStep (o : Options) (arg : String) : Step :=
  match arg.toList with
  | '-' :: '-' :: long =>
    let name := long.takeWhile (· ≠ '=')
    longOption o name ((long.dropWhile (· ≠ '=')).tail?)
  | '-' :: short => shortOptions o short
  | _ => .refused

/-- Arguments of a command: values up to two dashes, which only values follow. -/
inductive Values where
  | of (values : List String)
  | help
  | refused

/-- The values in the arguments of a command, at most `room` of them. -/
def valuesOf (room : Nat) : List String → Values
  | [] => .of []
  | arg :: rest =>
    if arg = "--" then if rest.length ≤ room then .of rest else .refused
    else if arg = "--help" ∨ arg.toList.take 2 = ['-', 'h'] then .help
    else if isOption arg ∨ room = 0 then .refused
    else
      match valuesOf (room - 1) rest with
      | .of values => .of (arg :: values)
      | other => other

/-- A command by its name, with its values. -/
def command? (name : String) (values : List String) : Option Command :=
  match name, values with
  | "init", [] => some .init
  | "insert", v :: vs => some (.insert (v :: vs))
  | "get", [hash] => some (.get hash)
  | "verify", [root] => some (.verify root)
  | "stats", [] => some .stats
  | _, _ => none

/-- The most values that a command takes among its arguments. -/
def roomOf? (name : String) (args : List String) : Option Nat :=
  match name with
  | "init" | "stats" => some 0
  | "get" | "verify" => some 1
  | "insert" => some args.length
  | _ => none

/-- The request for help: on all commands, or on the one that is named. -/
def helpRequest? : List String → Option Request
  | [] => some .help
  | [topic] => if topic = "help" ∨ (roomOf? topic []).isSome then some .help else none
  | _ => none

/-- The request of a command with its arguments. -/
def commandRequest (o : Options) (name : String) (args : List String) : Option Request :=
  match roomOf? name args with
  | some room =>
    match valuesOf room args with
    | .of values => (command? name values).map o.invoke
    | .help => some .help
    | .refused => none
  | none => if name = "help" then helpRequest? args else none

/-- What the arguments ask for, behind those that gave some options; nothing, if
they are not in order. -/
def requestFrom (o : Options) : List String → Option Request
  | [] => none
  | arg :: rest =>
    if isOption arg then
      match optionStep o arg with
      | .options o => requestFrom o rest
      | .request r => some r
      | .refused => none
      | .value option o =>
        match rest with
        | [] => none
        | value :: rest =>
          if isOption value then none
          else
            match option.give value o with
            | some o => requestFrom o rest
            | none => none
    else commandRequest o arg rest

/-- What a command line asks for; nothing, if its arguments are not in order. -/
def Request.ofArguments (args : List String) : Option Request := requestFrom .none args

end MerkleBuffer.CommandLine
