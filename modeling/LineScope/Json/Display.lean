import LineScope.Json.Printer

/-!
JSON values as messages show them: texts in quotes of their own, and the words `None`, `True` and
`False`.
-/

namespace LineScope.Json

mutual

def display : Json → String
  | .null => "None"
  | .bool b => if b then "True" else "False"
  | .int n => String.ofList (intText n)
  | .float x => Decimal.render ⟨"nan", "inf"⟩ x
  | .str s => Text.quoted s
  | .arr items => "[" ++ ", ".intercalate (displayItems items) ++ "]"
  | .obj members => "\x7b" ++ ", ".intercalate (displayMembers members) ++ "\x7d"

def displayItems : List Json → List String
  | [] => []
  | v :: rest => display v :: displayItems rest

def displayMembers : List (String × Json) → List String
  | [] => []
  | (name, v) :: rest => (Text.quoted name ++ ": " ++ display v) :: displayMembers rest

end

end LineScope.Json
