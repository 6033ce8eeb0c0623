import Prosody.Correction
import Prosody.Text.Blank

/-!
# Poems as text

A poem is given as text with one verse in each row. Blanks around a verse do not count, and neither
do rows that hold nothing else.
-/

namespace Prosody

namespace Text

def pushCharacter (c : Char) (rows : List (List Char)) : List (List Char) :=
  if c = '\n' then [] :: rows
  else match rows with
    | [] => [[c]]
    | row :: rest => (c :: row) :: rest

/-- The parts of a text between its line feeds. -/
def rows (text : List Char) : List (List Char) := text.foldr pushCharacter [[]]

/-- Rows joined by line feeds. -/
def joinRows : List (List Char) → List Char
  | [] => []
  | [row] => row
  | row :: rest => row ++ '\n' :: joinRows rest

end Text

namespace Poem

def ofText (text : List Char) : Poem :=
  ((Text.rows text).map Text.trim).filter fun line => !line.isEmpty

/-- Each line on a row of its own; an empty poem is one empty row. -/
def toText (poem : Poem) : List Char := Text.joinRows poem ++ ['\n']

end Poem

end Prosody
