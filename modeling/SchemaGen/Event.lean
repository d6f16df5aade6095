import SchemaGen.Schema.File

/-!
# Events

A run tells its target about each file as a sequence of events: the file begins, then its messages,
then its enumerations, and it ends. Only the kept definitions and members have events of their own;
the events around all messages and all enumerations also show the others.
-/

namespace SchemaGen

/-- What a run tells its target about a file. -/
inductive Event where
  | beginFile
  | beginMessages (all : List Message)
  | beginDefinition (d : Definition)
  | beginMessage (m : Message)
  | field (f : Field)
  | endMessage (m : Message)
  | endDefinition (d : Definition)
  | endMessages (all : List Message)
  | beginEnums (all : List Enumeration)
  | beginEnum (e : Enumeration)
  | constant (c : Constant) (isLast : Bool)
  | endEnum (e : Enumeration) (kept : List Constant)
  | endEnums (all : List Enumeration)
  | endFile
deriving DecidableEq, Repr

namespace Event

/-- The items of a list, each with whether it is the last one. -/
def withLast {α : Type} : List α → List (α × Bool)
  | [] => []
  | a :: as => (a, as.isEmpty) :: withLast as

/-- The events of a message. -/
def ofMessage (m : Message) : List Event :=
  .beginDefinition (.message m) :: .beginMessage m :: m.kept.map .field ++
    [.endMessage m, .endDefinition (.message m)]

/-- The events of an enumeration. -/
def ofEnumeration (e : Enumeration) : List Event :=
  .beginDefinition (.enumeration e) :: .beginEnum e ::
    (withLast e.kept).map (fun (c, isLast) => .constant c isLast) ++
    [.endEnum e e.kept, .endDefinition (.enumeration e)]

/-- The events of a file. -/
def ofFile (f : SchemaFile) : List Event :=
  .beginFile :: .beginMessages f.messages ::
    (f.messages.filter (!·.isSkipped)).flatMap ofMessage ++
  .endMessages f.messages :: .beginEnums f.enums ::
    (f.enums.filter (!·.isSkipped)).flatMap ofEnumeration ++
  [.endEnums f.enums, .endFile]

end Event

end SchemaGen
