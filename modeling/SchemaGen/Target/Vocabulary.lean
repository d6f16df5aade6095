import SchemaGen.Schema.Graph

/-!
# Field types in a target language

A target language has a word for each base type, for lists, for maps and for references to messages,
and a literal for the absent value. How these combine is the same in every language: a field whose
type is an enumeration holds its number, lists and maps hold boxed elements and start out absent,
and a map holds no other map.
-/

namespace SchemaGen

/-- A type in a target language and the literal that a field of this type starts with. -/
structure Rendered where
  type : String
  default : String
deriving DecidableEq, Repr

/-- Why a field has no type in any target language. -/
inductive TypeError where
  /-- A map is the element of a list or of another map. -/
  | nestedMap (field : String)
  /-- A reference leads nowhere. -/
  | dangling (target : DefinitionId)
deriving DecidableEq, Repr

/-- The text of the error. -/
def TypeError.message : TypeError → String
  | nestedMap field => s!"map field {field} cannot nest another map"
  | dangling target => s!"file {target.file} has no such definition at {target.index}"

/-- The words of a target language. -/
structure Vocabulary where
  /-- A base type and the literal for its zero. -/
  base : BaseType → Rendered
  /-- The literal for the absent value. -/
  null : String
  /-- The full name of a message of a file. -/
  messageName : SchemaFile → Message → String
  /-- The type of lists of elements of a type. -/
  list : String → String
  /-- The type of maps from one type to another. -/
  map : String → String → String
  /-- The form of a type in which it can be an element of a list or a map. -/
  boxed : String → String
  /-- The type of a field that refers to the message of this name. -/
  reference : String → String

namespace Vocabulary

/-- What a reference leads to: the full name of a message, or nothing more for an enumeration. -/
def target (v : Vocabulary) (g : Graph) (id : DefinitionId) : Except TypeError (Option String) :=
  match g.definition? id with
  | none => .error (.dangling id)
  | some (.enumeration _) => .ok none
  | some (.message m) =>
    match g.file? m.owner with
    | none => .error (.dangling id)
    | some f => .ok (some (v.messageName f m))

/-- The boxed type of an element of a list or a map in the field `field`. -/
def element (v : Vocabulary) (g : Graph) (field : String) : FieldType → Except TypeError String
  | .base b => .ok (v.boxed (v.base b).type)
  | .reference _ _ id => do
    match ← v.target g id with
    | none => return v.boxed (v.base .int32).type
    | some name => return v.boxed name
  | .map _ _ => .error (.nestedMap field)

/-- The type of a field that holds one value. -/
def single (v : Vocabulary) (g : Graph) (field : String) : FieldType → Except TypeError Rendered
  | .base b => .ok (v.base b)
  | .reference _ _ id => do
    match ← v.target g id with
    | none => return v.base .int32
    | some name => return ⟨v.reference name, v.null⟩
  | .map key value => do
    let key ← v.element g field key
    let value ← v.element g field value
    return ⟨v.map key value, v.null⟩

/-- The type of a field. -/
def fieldType (v : Vocabulary) (g : Graph) (f : Field) : Except TypeError Rendered :=
  match f.cardinality with
  | .singular => v.single g f.name f.type
  | .repeated => do
    let item ← v.element g f.name f.type
    return ⟨v.list item, v.null⟩

end Vocabulary

end SchemaGen
