/-!
# Record texts

One-line texts of structured values: records with named fields in braces, tagged values in
parentheses, and lists in brackets.  All parts are joined by a comma and a blank.
-/

namespace CanNode

namespace RecordText

def commas (parts : List String) : String :=
  ", ".intercalate parts

/-- A record: its name, then every field with its text in braces. -/
def record (name : String) (fields : List (String × String)) : String :=
  name ++ " \x7b " ++ commas (fields.map fun field => field.1 ++ ": " ++ field.2) ++ " \x7d"

/-- A tag with the text of its one value in parentheses. -/
def tagged (tag text : String) : String :=
  tag ++ "(" ++ text ++ ")"

def bracketed (parts : List String) : String :=
  "[" ++ commas parts ++ "]"

def optional : Option String → String
  | none => "None"
  | some text => tagged "Some" text

def bytes (values : List UInt8) : String :=
  bracketed (values.map fun value => toString value.toNat)

end RecordText

end CanNode
