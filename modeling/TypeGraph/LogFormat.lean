import TypeGraph.Text.Blank

/-!
# Formats of a log

`LogFormat.parse` reads the format that a setting asks for. White space around it and the case of
its letters do not matter, and what is not known stands for plain text.
-/

namespace TypeGraph

/-- How a log is written. -/
inductive LogFormat where
  | text | tree | json
  deriving DecidableEq, Repr

/-- The format that a setting asks for. The names of the formats consist of ASCII letters, to which
no other character is the lower case of, so that ASCII case is all that matters. -/
def LogFormat.parse (setting : String) : LogFormat :=
  let word := (trimWhiteSpace setting.toList).map Char.toLower
  if word = ['t', 'r', 'e', 'e'] then tree
  else if word = ['j', 's', 'o', 'n'] then json
  else text

end TypeGraph
