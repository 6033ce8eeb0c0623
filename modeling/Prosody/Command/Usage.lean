import Prosody.Classification
import Prosody.Text.Numeral

/-!
# Commands and their arguments

A command is asked for by name, followed by its operands and flags in any order. A flag is used at
most once. After `--` every argument is an operand.
-/

namespace Prosody

inductive Command where
  /-- Scans one line under one pattern. -/
  | scan (pattern : List Char) (line : Line) (border : Nat) (trace : Bool)
  /-- Classifies the poem of a file, or of standard input if no file is named. -/
  | classify (file : Option String) (improve : Bool) (longest : Nat)
  | catalogue
  | version
  deriving DecidableEq

/-- Why arguments ask for no command. -/
inductive UsageError where
  | missingCommand
  | unknownCommand (text : List Char)
  | unknownFlag (text : List Char)
  | repeatedFlag (name : List Char)
  | missingNumber (name : List Char)
  | badNumber (name text : List Char)
  | unexpectedValue (name : List Char)
  | missingOperand
  | extraOperand (text : List Char)
  deriving DecidableEq

def UsageError.message : UsageError → String
  | missingCommand => "a command is required"
  | unknownCommand text => s!"unknown command '{String.ofList text}'"
  | unknownFlag text => s!"unexpected argument '{String.ofList text}'"
  | repeatedFlag name => s!"'--{String.ofList name}' is used more than once"
  | missingNumber name => s!"'--{String.ofList name}' needs a number"
  | badNumber name text => s!"'{String.ofList text}' is no number for '--{String.ofList name}'"
  | unexpectedValue name => s!"'--{String.ofList name}' takes no value"
  | missingOperand => "a required operand is missing"
  | extraOperand text => s!"unexpected operand '{String.ofList text}'"

inductive Flag where
  | errorBorder
  | trace
  | improve
  | maxSyllables
  deriving DecidableEq

namespace Flag

def long : Flag → List Char
  | errorBorder => "error-border".toList
  | trace => "trace".toList
  | improve => "improve".toList
  | maxSyllables => "max-syllables".toList

def short? : Flag → Option Char
  | errorBorder => some 'e'
  | _ => none

def takesNumber : Flag → Bool
  | errorBorder | maxSyllables => true
  | trace | improve => false

/-- Counts are kept in 64 bits. -/
def greatest : Nat := 18446744073709551615

end Flag

/-- What one argument of a command is. -/
inductive Argument where
  | operand (text : List Char)
  | flag (flag : Flag) (value : Option (List Char))
  | unknown (text : List Char)
  deriving DecidableEq

namespace Argument

/-- A long flag: its name, and a value after an equals sign. -/
def ofLong (known : List Flag) (text : List Char) : Argument :=
  let name := text.takeWhile (· ≠ '=')
  match known.find? fun f => f.long = name with
  | none => unknown ('-' :: '-' :: text)
  | some f => flag f (text.dropWhile (· ≠ '=')).tail?

/-- A short flag: one letter, and a value right after it or after an equals sign. -/
def ofShort (known : List Flag) (letter : Char) (text : List Char) : Argument :=
  match known.find? fun f => f.short? = some letter with
  | none => unknown ('-' :: letter :: text)
  | some f =>
    match text with
    | [] => flag f none
    | '=' :: value => flag f (some value)
    | value => flag f (some value)

def ofText (known : List Flag) : List Char → Argument
  | '-' :: '-' :: text => ofLong known text
  | '-' :: letter :: text => ofShort known letter text
  | text => operand text

end Argument

/-- The arguments of a command, sorted out. -/
structure Arguments where
  operands : List (List Char)
  numbers : List (Flag × Nat)
  switches : List Flag
  deriving DecidableEq

namespace Arguments

def empty : Arguments := ⟨[], [], []⟩

def number? (a : Arguments) (f : Flag) : Option Nat := a.numbers.lookup f

def has (a : Arguments) (f : Flag) : Bool := a.switches.contains f

def addNumber (a : Arguments) (f : Flag) (text : List Char) : Except UsageError Arguments :=
  match Text.numeral? Flag.greatest text with
  | none => .error (.badNumber f.long text)
  | some n =>
    if (a.number? f).isSome then .error (.repeatedFlag f.long)
    else .ok { a with numbers := a.numbers ++ [(f, n)] }

def addSwitch (a : Arguments) (f : Flag) : Except UsageError Arguments :=
  if a.has f then .error (.repeatedFlag f.long)
  else .ok { a with switches := a.switches ++ [f] }

/-- Takes in the arguments in order. A flag that is `pending` needs the next one as its number. -/
def gather (known : List Flag) (a : Arguments) (pending : Option Flag) :
    List (List Char) → Except UsageError Arguments
  | [] =>
    match pending with
    | some f => .error (.missingNumber f.long)
    | none => .ok a
  | text :: rest =>
    match pending with
    | some f =>
      match a.addNumber f text with
      | .error e => .error e
      | .ok a => a.gather known none rest
    | none =>
      if text = ['-', '-'] then .ok { a with operands := a.operands ++ rest }
      else match Argument.ofText known text with
        | .operand text => gather known { a with operands := a.operands ++ [text] } none rest
        | .unknown text => .error (.unknownFlag text)
        | .flag f none =>
          if f.takesNumber then a.gather known (some f) rest
          else match a.addSwitch f with
            | .error e => .error e
            | .ok a => a.gather known none rest
        | .flag f (some value) =>
          if f.takesNumber then
            match a.addNumber f value with
            | .error e => .error e
            | .ok a => a.gather known none rest
          else .error (.unexpectedValue f.long)

end Arguments

namespace Command

def ofScan (a : Arguments) : Except UsageError Command :=
  match a.operands with
  | [pattern, line] =>
    .ok (scan pattern line ((a.number? .errorBorder).getD Gauge.defaultBorder) (a.has .trace))
  | _ :: _ :: text :: _ => .error (.extraOperand text)
  | _ => .error .missingOperand

def ofClassify (a : Arguments) : Except UsageError Command :=
  let longest := (a.number? .maxSyllables).getD Classifier.defaultLongest
  match a.operands with
  | [] => .ok (classify none (a.has .improve) longest)
  | [file] => .ok (classify (some (String.ofList file)) (a.has .improve) longest)
  | _ :: text :: _ => .error (.extraOperand text)

def ofCatalogue (a : Arguments) : Except UsageError Command :=
  match a.operands with
  | [] => .ok catalogue
  | text :: _ => .error (.extraOperand text)

/-- A request for the version wins over everything after it. -/
def asksVersion : List Char → Bool
  | '-' :: 'V' :: _ => true
  | text => text = "--version".toList

def ofArguments : List (List Char) → Except UsageError Command
  | [] => .error .missingCommand
  | name :: rest =>
    if asksVersion name then .ok version
    else if name = "match".toList then
      (Arguments.empty.gather [.errorBorder, .trace] none rest).bind ofScan
    else if name = "classify".toList then
      (Arguments.empty.gather [.improve, .maxSyllables] none rest).bind ofClassify
    else if name = "metres".toList then
      (Arguments.empty.gather [] none rest).bind ofCatalogue
    else .error (.unknownCommand name)

end Command

end Prosody
