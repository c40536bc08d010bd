import TypeGraph.Text.Hidden

/-!
# Quoting a text for a reader

A message shows a text between quotes so that every character of it can be seen: the ones that
print stand for themselves, the others are escaped.

* `showText` is the quoted text, `showChar` how one character stands in it.
-/

namespace TypeGraph

/-- How a character is shown inside quotes. -/
def showChar (c : Char) : List Char :=
  if c = '"' then ['\\', '"']
  else if c = '\\' then ['\\', '\\']
  else if c = '\n' then ['\\', 'n']
  else if c = '\r' then ['\\', 'r']
  else if c = '\t' then ['\\', 't']
  else if c = '\x00' then ['\\', '0']
  else if isHidden c then '\\' :: 'u' :: '{' :: (Nat.toDigits 16 c.toNat ++ ['}'])
  else [c]

/-- A text between quotes, with all of it visible. -/
def showText (s : String) : String := String.ofList ('"' :: s.toList.flatMap showChar ++ ['"'])

end TypeGraph
