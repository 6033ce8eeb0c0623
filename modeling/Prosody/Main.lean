import Prosody.Command.Report

/-!
# The command line

Reads the source of a command, runs it and prints its report.
-/

namespace Prosody

/-- The failure that an error number of the operating system stands for. -/
def ReadFailure.ofNumber? : Nat → Option ReadFailure
  | 2 => some .missing
  | 5 => some .faulty
  | 6 => some .noDevice
  | 13 => some .denied
  | 20 => some .notDirectory
  | 21 => some .directory
  | 22 => some .invalid
  | 36 => some .nameTooLong
  | 40 => some .tooManyLinks
  | _ => none

/-- The number of an error of the operating system, which is held as it is or negated. -/
def errorNumber? : IO.Error → Option Nat
  | .noFileOrDirectory _ code _
  | .hardwareFault code _
  | .noSuchThing _ code _
  | .permissionDenied _ code _
  | .inappropriateType _ code _
  | .invalidArgument _ code _ => some (min code.toNat (0 - code).toNat)
  | _ => none

def ReadFailure.ofError (e : IO.Error) : ReadFailure :=
  ((errorNumber? e).bind ofNumber?).getD (.other (toString e))

/-- The bytes of a source; no source is empty. -/
def Source.read : Option Source → IO (Except ReadFailure ByteArray)
  | none => return .ok ByteArray.empty
  | some source => do
    try
      match source with
      | .standardInput => return .ok (← (← IO.getStdin).readBinToEnd)
      | .file path => return .ok (← IO.FS.readBinFile path)
    catch e => return .error (ReadFailure.ofError e)

def Report.print (r : Report) : IO UInt32 := do
  (← IO.getStdout).putStr r.output
  (← IO.getStderr).putStr r.errors
  return r.code.toUInt32

end Prosody

def main (args : List String) : IO UInt32 := do
  match Prosody.Command.ofArguments (args.map String.toList) with
  | .error e => (Prosody.Report.misuse e).print
  | .ok command => (command.run (← Prosody.Source.read command.source?)).print
