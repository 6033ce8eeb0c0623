import Prosody.Text.Extender
import Prosody.Text.Graphic
import Prosody.Text.Ignorable

/-!
# Quoted text

Text in a message stands in quotes. Inside them the null character, tab, carriage return, line
feed, backslash and the quote itself have short escapes. A character that would not be seen, or not
on its own, is written as its scalar value in lower-case hexadecimal.
-/

namespace Prosody.Text

def scalarEscape (c : Char) : List Char :=
  ['\\', 'u', '\x7b'] ++ Nat.toDigits 16 c.toNat ++ ['\x7d']

/-- Whether a character shows by itself. -/
def isVisible (c : Char) : Bool := isGraphic c && !isIgnorable c && !isExtender c

def escape (quote c : Char) : List Char :=
  if c = '\x00' then ['\\', '0']
  else if c = '\t' then ['\\', 't']
  else if c = '\r' then ['\\', 'r']
  else if c = '\n' then ['\\', 'n']
  else if c = '\\' ∨ c = quote then ['\\', c]
  else if isVisible c then [c]
  else scalarEscape c

def quoted (quote : Char) (text : List Char) : String :=
  String.ofList (quote :: (text.flatMap (escape quote) ++ [quote]))

/-- One character in single quotes. -/
def quotedChar (c : Char) : String := quoted '\'' [c]

/-- A text in double quotes. -/
def quotedText (s : String) : String := quoted '"' s.toList

end Prosody.Text
