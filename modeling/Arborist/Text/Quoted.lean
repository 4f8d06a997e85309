import Arborist.Text
import Arborist.Text.Extending
import Arborist.Text.Unprintable

/-!
# Text in quotes

The form in which a message shows a text: in double quotes, with everything that would not be seen
as it is written out.
-/

namespace Arborist.Text

/-- A character inside of quotes.  Marks (`extending`) are shown by their number, because they would
be drawn over what is before them, and so are characters without a picture (`unprintable`). -/
def quotedChar (c : Char) : List Char :=
  if c = '"' then ['\\', '"']
  else if c = '\\' then ['\\', '\\']
  else if c = '\n' then ['\\', 'n']
  else if c = '\r' then ['\\', 'r']
  else if c = '\t' then ['\\', 't']
  else if c = '\x00' then ['\\', '0']
  else if extending.contains c || unprintable.contains c then byNumber c
  else [c]

def quoted (s : String) : String :=
  String.ofList ('"' :: s.toList.flatMap quotedChar ++ ['"'])

end Arborist.Text
