set_option autoImplicit false

namespace Wiring.Outline

def commas (parts : List String) : String := ", ".intercalate parts

def braces (parts : List String) : String := "\x7b" ++ commas parts ++ "\x7d"

def brackets (parts : List String) : String := "[" ++ commas parts ++ "]"

def field (name value : String) : String := name ++ ": " ++ value

def record (name : String) (fields : List (String × String)) : String :=
  name ++ " \x7b " ++ commas (fields.map fun (n, v) => field n v) ++ " \x7d"

def openRecord (name : String) (fields : List (String × String)) : String :=
  name ++ " \x7b " ++ commas (fields.map (fun (n, v) => field n v) ++ [".."]) ++ " \x7d"

def tagged (name value : String) : String := name ++ "(" ++ value ++ ")"

def option : Option String → String
  | none => "None"
  | some s => tagged "Some" s

def bool (b : Bool) : String := if b then "true" else "false"

end Wiring.Outline
