/-!
# Inspection text

How values are shown on one line to someone who looks into a running engine: numbers in decimal,
records as their name and their fields in braces.
-/

namespace Mc68000.Inspection

def nat (n : Nat) : String := Nat.repr n

def flag (b : Bool) : String := if b then "true" else "false"

def joined (sep : String) (words : List String) : String := sep.intercalate words

def field (f : String × String) : String := f.1 ++ ": " ++ f.2

def record (name : String) (fields : List (String × String)) : String :=
  name ++ " \x7b " ++ joined ", " (fields.map field) ++ " \x7d"

/-- A record that has further fields, which are not shown. -/
def openRecord (name : String) (fields : List (String × String)) : String :=
  name ++ " \x7b " ++ joined ", " (fields.map field ++ [".."]) ++ " \x7d"

def applied (name argument : String) : String := name ++ "(" ++ argument ++ ")"

def list (words : List String) : String := "[" ++ joined ", " words ++ "]"

def option : Option String → String
  | none => "None"
  | some text => applied "Some" text

end Mc68000.Inspection
