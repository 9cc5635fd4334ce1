import PropTables.Text.Hex
import PropTables.Text.Printable

/-!
Quotation of a text inside a message. The quote is `'`, or `"` when the text has a `'` and no `"`.
Backslash, the quote, line feed, carriage return and tab are escaped by a letter; every other code
point that is not printable is written in hexadecimal.
-/

namespace PropTables.Text

def quoteFor (t : Text) : Char :=
  if t.contains (CodePoint.ofChar '\'') && !t.contains (CodePoint.ofChar '"') then '"' else '\''

def hexEscape (c : CodePoint) : List Char :=
  if c.val < 0x100 then '\\' :: 'x' :: hexDigits 2 c.val
  else if c.val < 0x10000 then '\\' :: 'u' :: hexDigits 4 c.val
  else '\\' :: 'U' :: hexDigits 8 c.val

def quoteOne (quote : Char) (c : CodePoint) : List Char :=
  match c.toChar? with
  | none => hexEscape c
  | some ch =>
    if ch = quote ∨ ch = '\\' then ['\\', ch]
    else if ch = '\n' then ['\\', 'n']
    else if ch = '\r' then ['\\', 'r']
    else if ch = '\t' then ['\\', 't']
    else if c.isPrintable then [ch]
    else hexEscape c

def quoted (t : Text) : String :=
  String.ofList (quoteFor t :: t.flatMap (quoteOne (quoteFor t)) ++ [quoteFor t])

end PropTables.Text

namespace PropTables

def quoted (s : String) : String :=
  (Text.ofString s).quoted

end PropTables
