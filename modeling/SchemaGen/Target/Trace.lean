import SchemaGen.Target

/-!
# Traces

A target that writes down the events themselves. Each definition becomes a file with its events. The
target keeps a log of all events, and it can be told to fail at some of them.
-/

namespace SchemaGen.Trace

/-- The extension of trace files. -/
def extension : String := ".txt"

/-- What a trace keeps. -/
structure Log where
  /-- All events so far. -/
  events : List String
  /-- The events to fail at, each entry once. -/
  failures : List String
deriving DecidableEq, Repr

/-- How an event is written, and whether it is also written to the definition's file. -/
def describe (f : SchemaFile) : Event → Option (String × Bool)
  | .beginFile => some (s!"proto {f.file.slashed}", false)
  | .beginMessages all => some (s!"messages {all.length}", false)
  | .beginMessage m => some (s!"message {m.name}", true)
  | .field field =>
    let mark := match field.cardinality with
      | .singular => ""
      | .repeated => "repeated "
    some (s!"field {field.index} {mark}{field.name} = {field.number}", true)
  | .endMessage m => some (s!"end message {m.name}", true)
  | .endMessages _ => some ("end messages", false)
  | .beginEnums all => some (s!"enums {all.length}", false)
  | .beginEnum e => some (s!"enum {e.name}", true)
  | .constant c isLast =>
    let mark := if isLast then " last" else ""
    some (s!"constant {c.index} {c.name} = {c.number}{mark}", true)
  | .endEnum e kept => some (s!"end enum {e.name} {kept.length}", true)
  | .endEnums _ => some ("end enums", false)
  | .endFile => some (s!"end proto {f.file.slashed}", false)
  | .beginDefinition _ | .endDefinition _ => none

/-- Puts an event into the log. -/
def note (event : String) : Emit Log Unit := do
  let w ← get
  let events := w.notes.events ++ [event]
  if w.notes.failures.contains event then
    set { w with notes := { events, failures := w.notes.failures.erase event : Log } }
    throw .noOutput
  else set { w with notes := { w.notes with events } }

/-- Takes in an event. -/
def handle (_ : Graph) (f : SchemaFile) (event : Event) : Emit Log Unit :=
  match event with
  | .beginDefinition d => Emit.openDefinition f (f.package?.getD "") d
  | .endDefinition _ => Emit.close
  | event =>
    match describe f event with
    | some (text, isLine) => do
      note text
      if isLine then Emit.line text
    | none => return

/-- The target that traces all files except `refused`. -/
def target (refused : List String) : Target Log where
  refuses f := refused.contains f.file.slashed
  handle
  finish := Emit.close

end SchemaGen.Trace
