import Prosody.Draft
import Prosody.Scansion

/-!
# Gauges

A gauge is a pattern ready to scan lines with. It remembers how the pattern was written and how
many errors a reading may have.
-/

namespace Prosody

/-- A compiled pattern and the greatest number of errors a reading may have. -/
structure Gauge where
  pattern : List Char
  scheme : Scheme
  border : Nat

namespace Gauge

def defaultBorder : Nat := 8

def ofPattern (pattern : List Char) (border : Nat) : Except Fault Gauge :=
  match Scheme.read pattern with
  | .error fault => .error fault
  | .ok scheme => .ok ⟨pattern, scheme, border⟩

def scan (g : Gauge) (line : List Char) : Scansion := g.scheme.course.scan g.border line

def strides (g : Gauge) (line : List Char) : List Stride :=
  g.scheme.course.strides g.border 0 [.start] line

end Gauge

end Prosody
