import SchemaGen.Event
import SchemaGen.Output

/-!
# Targets

A target turns the events of a run into generated files. It may refuse files, it may fail at any
event, and it is told when the run is over.
-/

namespace SchemaGen

/-- A way to generate code, with notes of type `σ`. -/
structure Target (σ : Type) where
  /-- The files that nothing is generated for. -/
  refuses : SchemaFile → Bool
  /-- Takes in an event of a file of the graph. -/
  handle : Graph → SchemaFile → Event → Emit σ Unit
  /-- Takes in that the run is over, whether it failed or not. -/
  finish : Emit σ Unit

namespace Emit

/-- The type of a field in a target language. -/
def fieldType {σ : Type} (words : Vocabulary) (g : Graph) (f : Field) : Emit σ Rendered :=
  match words.fieldType g f with
  | .ok r => return r
  | .error e => throw (.type e)

/-- Opens the file for a definition of the file `f`, in the directory of `package`. -/
def openDefinition {σ : Type} (f : SchemaFile) (package : String) (d : Definition) :
    Emit σ Unit := do
  prepare ((← get).output.definitionPath package d.name) (some f)

end Emit

end SchemaGen
