import Transducer.CodePoint

/-!
The command line: a command, a source, and options. Options may come before or after the source. An option that
takes a value has it attached or as the next argument, which then must not look like an option itself; after `--`
every argument is a source. Nothing may be given twice. A command line that breaks a rule has no invocation.
-/

namespace Transducer

inductive Command where
  | compile
  | check
  | dump
  deriving DecidableEq, Repr

def Command.ofName? : String → Option Command
  | "compile" => some .compile
  | "check" => some .check
  | "dump" => some .dump
  | _ => none

/-- When diagnostics are colored. -/
inductive ColorChoice where
  | auto
  | always
  | never
  deriving DecidableEq, Repr

def ColorChoice.ofName? : String → Option ColorChoice
  | "auto" => some .auto
  | "always" => some .always
  | "never" => some .never
  | _ => none

/-- Flags that some commands know. -/
inductive Flag where
  | strict
  | cst
  | json
  | raw
  | spans
  deriving DecidableEq, Repr

/-- Flags that a command knows by the given name. -/
def Flag.ofName? : Command → String → Option Flag
  | .check, "strict" => some .strict
  | .dump, "cst" => some .cst
  | .dump, "json" => some .json
  | .dump, "raw" => some .raw
  | .dump, "spans" => some .spans
  | _, _ => none

/-- Options that take a value. -/
inductive Setting where
  | expr
  | fuel
  | color
  deriving DecidableEq, Repr

def Setting.ofName? : String → Option Setting
  | "expr" => some .expr
  | "fuel" => some .fuel
  | "color" => some .color
  | _ => none

structure Invocation where
  command : Command
  file : Option String
  expr : Option String
  fuel : Option Nat
  color : Option ColorChoice
  flags : List Flag
  deriving DecidableEq, Repr

namespace Invocation

def ofCommand (command : Command) : Invocation := ⟨command, none, none, none, none, []⟩

/-- A number of tokens with an optional sign; only zero may be negative. -/
def readFuel? (value : String) : Option Nat :=
  match value.toList with
  | '+' :: digits => readNumeral? (String.ofList digits)
  | '-' :: digits => (readNumeral? (String.ofList digits)).filter (· == 0)
  | digits => readNumeral? (String.ofList digits)

def set (i : Invocation) (s : Setting) (value : String) : Option Invocation :=
  match s with
  | .expr => if i.expr.isSome then none else some { i with expr := some value }
  | .fuel =>
      if i.fuel.isSome then none else (readFuel? value).map fun n => { i with fuel := some n }
  | .color =>
      if i.color.isSome then none else (ColorChoice.ofName? value).map fun c => { i with color := some c }

def raise (i : Invocation) (f : Flag) : Option Invocation :=
  if i.flags.contains f then none else some { i with flags := f :: i.flags }

/-- Takes a source; there is only one, and its name is not empty. -/
def takeFile (i : Invocation) (name : String) : Option Invocation :=
  if i.file.isSome || name.isEmpty then none else some { i with file := some name }

/-- Splits an attached value off the name of an option. -/
def splitValue (cs : List Char) : String × Option String :=
  match cs.dropWhile (· != '=') with
  | [] => (String.ofList cs, none)
  | _ :: value => (String.ofList (cs.takeWhile (· != '=')), some (String.ofList value))

/-- A value attached to a short option; an equals sign in front of it is no part of it. -/
def attachedValue : List Char → String
  | '=' :: value => String.ofList value
  | value => String.ofList value

/-- How an argument reads before `--`. -/
inductive Argument where
  /-- `--` itself. -/
  | separator
  | long (name : String) (value : Option String)
  /-- A short option and what is attached to it. -/
  | short (name : Char) (attached : List Char)
  | plain (text : String)

def Argument.ofText (text : String) : Argument :=
  match text.toList with
  | ['-', '-'] => .separator
  | '-' :: '-' :: cs => let (name, value) := splitValue cs; .long name value
  | '-' :: c :: cs => .short c cs
  | _ => .plain text

/-- Reads arguments. A pending setting takes the next one as its value. -/
def readFrom : Invocation → Option Setting → List String → Option Invocation
  | i, none, [] => some i
  | _, some _, [] => none
  | i, some s, text :: rest =>
      match Argument.ofText text with
      | .plain value => do readFrom (← i.set s value) none rest
      | _ => none
  | i, none, text :: rest =>
      match Argument.ofText text with
      | .separator => rest.foldlM takeFile i
      | .plain name => do readFrom (← i.takeFile name) none rest
      | .short c attached =>
          if c = 'e' then
            if attached.isEmpty then readFrom i (some .expr) rest
            else do readFrom (← i.set .expr (attachedValue attached)) none rest
          else none
      | .long name value =>
          match Setting.ofName? name, value with
          | some s, some value => do readFrom (← i.set s value) none rest
          | some s, none => readFrom i (some s) rest
          | none, some _ => none
          | none, none => do readFrom (← i.raise (← Flag.ofName? i.command name)) none rest

/-- A source is given once, and a tree is not shown together with a table. -/
def isConsistent (i : Invocation) : Bool :=
  !(i.file.isSome && i.expr.isSome) && !(i.flags.contains .cst && i.flags.contains .json)

def ofArguments? : List String → Option Invocation
  | [] => none
  | name :: rest => do
      let command ← Command.ofName? name
      let i ← readFrom (.ofCommand command) none rest
      if i.isConsistent then return i else none

/-- Where the source comes from. -/
inductive Input where
  | text (source : String)
  | stdin
  | file (path : String)
  | nothing
  deriving DecidableEq, Repr

def input (i : Invocation) : Input :=
  match i.expr, i.file with
  | some text, _ => .text text
  | none, some path => if path = "-" then .stdin else .file path
  | none, none => .nothing

def has (i : Invocation) (f : Flag) : Bool := i.flags.contains f

/-- The number of tokens that may be consumed. -/
def tokenLimit (i : Invocation) : Nat := i.fuel.getD 1000000

/-- Whether diagnostics are colored, given whether they go to a terminal. -/
def isColored (i : Invocation) (terminal : Bool) : Bool :=
  match i.color.getD .auto with
  | .auto => terminal
  | .always => true
  | .never => false

end Invocation

end Transducer
