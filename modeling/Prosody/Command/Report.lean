import Prosody.Command.Usage
import Prosody.PoemText

/-!
# Running a command

A command answers with an exit code and two texts. Only classifying needs input, which is either
the bytes of a source or the reason why they could not be read.
-/

namespace Prosody

/-- Where a poem comes from. -/
inductive Source where
  | standardInput
  | file (path : String)
  deriving DecidableEq

def Source.name : Source → String
  | standardInput => "stdin"
  | file path => path

/-- Why a source gave no text. -/
inductive ReadFailure where
  | missing
  | denied
  | notDirectory
  | directory
  | nameTooLong
  | tooManyLinks
  | noDevice
  | faulty
  | invalid
  | notUtf8
  | other (text : String)
  deriving DecidableEq

def ReadFailure.message : ReadFailure → String
  | missing => "No such file or directory (os error 2)"
  | denied => "Permission denied (os error 13)"
  | notDirectory => "Not a directory (os error 20)"
  | directory => "Is a directory (os error 21)"
  | nameTooLong => "File name too long (os error 36)"
  | tooManyLinks => "Too many levels of symbolic links (os error 40)"
  | noDevice => "No such device or address (os error 6)"
  | faulty => "Input/output error (os error 5)"
  | invalid => "Invalid argument (os error 22)"
  | notUtf8 => "stream did not contain valid UTF-8"
  | other text => text

structure Report where
  code : Nat
  output : String
  errors : String
  deriving DecidableEq

namespace Report

def success (output errors : String) : Report := ⟨0, output, errors⟩

/-- What was attempted and why it failed, on one line. -/
def failure (context cause : String) : Report := ⟨1, "", s!"{context}: {cause}\n"⟩

def misuse (e : UsageError) : Report := ⟨2, "", s!"error: {e.message}\n"⟩

end Report

/-- The marks, or a dash if there are none, with the errors of both kinds. -/
def Scansion.summary (s : Scansion) : String :=
  let marks := if s.marks.isEmpty then "-" else String.ofList (s.marks.map Mark.symbol)
  let overrun := if s.overrun then " truncated" else ""
  s!"{marks} strong={s.tally.strong} weak={s.tally.weak}{overrun}"

def Stride.summary (s : Stride) : String :=
  s!"[TRACE] symbol {s.index} {Text.quotedChar s.symbol}: {s.readings} -> {s.successors} states"

/-- A name that fills its column. -/
def Text.column (name : String) : String :=
  name ++ String.ofList (List.replicate (14 - name.length) ' ')

def Score.summary (s : Score) : String :=
  let t := s.tally
  s!"{Text.column s.metre} strong={t.strong} weak={t.weak} corrections={s.corrections.length}"

def Metre.summary (m : Metre) : String :=
  s!"{Text.column m.name} {String.ofList m.pattern} (error border {m.border})"

namespace Command

def lines (texts : List String) : String := String.join (texts.map (· ++ "\n"))

def runScan (pattern : List Char) (line : Line) (border : Nat) (trace : Bool) : Report :=
  match Gauge.ofPattern pattern border with
  | .error fault =>
    .failure ("Invalid grammar " ++ Text.quotedText (String.ofList pattern)) fault.message
  | .ok g =>
    let strides := if trace then g.strides line else []
    .success (lines [(g.scan line).summary]) (lines (strides.map Stride.summary))

def runClassify (poem : Poem) (improve : Bool) (longest : Nat) : Report :=
  match Classifier.ofMetres Metre.catalogue longest with
  | .error fault => .failure "Invalid metre catalogue" fault.message
  | .ok c =>
    let result := c.classify poem
    let improved := Correction.applyAll result.corrections poem
    let scores := lines (result.metre :: result.scores.map Score.summary)
    .success (scores ++ if improve then String.ofList improved.toText else "") ""

/-- The source that a command reads. -/
def source? : Command → Option Source
  | classify (some path) _ _ => some (.file path)
  | classify none _ _ => some .standardInput
  | _ => none

/-- The text of a source, if its bytes are valid UTF-8. -/
def decode (input : Except ReadFailure ByteArray) : Except ReadFailure String :=
  match input with
  | .error failure => .error failure
  | .ok bytes =>
    match String.fromUTF8? bytes with
    | none => .error .notUtf8
    | some text => .ok text

/-- Runs a command on what its source holds. -/
def run (input : Except ReadFailure ByteArray) : Command → Report
  | scan pattern line border trace => runScan pattern line border trace
  | classify file improve longest =>
    match decode input with
    | .error failure =>
      let source := (classify file improve longest).source?.elim "" Source.name
      .failure s!"Failed to read {source}" failure.message
    | .ok text => runClassify (Poem.ofText text.toList) improve longest
  | catalogue => .success (lines (Metre.catalogue.map Metre.summary)) ""
  | version => .success "scansion 0.1.0\n" ""

end Command

end Prosody
