/-!
# Descriptions of values

The notation in which steps, phases and effects are described for a reader: a name with its fields
in braces, a list in brackets, a choice that may be absent.
-/

namespace Dialogue.Text

def commas (items : List String) : String :=
  ", ".intercalate items

def describeRecord (name : String) (fields : List (String × String)) (isOpen : Bool) : String :=
  let shown := fields.map fun f => f.1 ++ ": " ++ f.2
  name ++ " \x7b " ++ commas (shown ++ if isOpen then [".."] else []) ++ " \x7d"

def describeWrapped (name item : String) : String :=
  name ++ "(" ++ item ++ ")"

def describeList (items : List String) : String :=
  "[" ++ commas items ++ "]"

def describeOption : Option String → String
  | none => "None"
  | some item => describeWrapped "Some" item

def describeBool (b : Bool) : String :=
  if b then "true" else "false"

end Dialogue.Text
