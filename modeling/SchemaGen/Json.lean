import SchemaGen.Text.Quoted

/-!
# JSON values

Values with their fields in order, and their text over several lines: two spaces per level, one item
or field per line, and nothing between the brackets of an empty container.
-/

namespace SchemaGen

/-- A JSON value without fractions. -/
inductive Json where
  | null
  | bool (value : Bool)
  | int (value : Int)
  | string (value : String)
  | array (items : List Json)
  | object (fields : List (String × Json))

namespace Json

/-- The text, or null if there is none. -/
def ofText? : Option String → Json
  | none => null
  | some s => string s

/-- The start of a line at nesting level `depth`. -/
def indent (depth : Nat) : String :=
  String.ofList (List.replicate (2 * depth) ' ')

/-- A container at nesting level `depth`, given its brackets and the text of its entries. -/
def enclose (depth : Nat) (left right : String) (entries : List String) : String :=
  if entries.isEmpty then left ++ right
  else
    left ++ "\n" ++ ",\n".intercalate (entries.map (indent (depth + 1) ++ ·)) ++ "\n" ++
      indent depth ++ right

mutual

/-- The text of a value whose first line stands at nesting level `depth`. -/
def pretty (depth : Nat) : Json → String
  | null => "null"
  | bool value => if value then "true" else "false"
  | int value => toString value
  | string value => Text.quote value
  | array items => enclose depth "[" "]" (prettyItems (depth + 1) items)
  | object fields => enclose depth "\x7b" "\x7d" (prettyFields (depth + 1) fields)

/-- The texts of the items of an array. -/
def prettyItems (depth : Nat) : List Json → List String
  | [] => []
  | item :: items => pretty depth item :: prettyItems depth items

/-- The texts of the fields of an object. -/
def prettyFields (depth : Nat) : List (String × Json) → List String
  | [] => []
  | (name, value) :: fields =>
    (Text.quote name ++ ": " ++ pretty depth value) :: prettyFields depth fields

end

/-- The text of a value. -/
def render (j : Json) : String :=
  j.pretty 0

end Json

end SchemaGen
