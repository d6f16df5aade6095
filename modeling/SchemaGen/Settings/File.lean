import SchemaGen.FileSystem.Change
import SchemaGen.Output
import SchemaGen.Settings.Reader
import SchemaGen.Text.Utf8

/-!
# Settings in use

Settings come from a file, and give the skip list and the output of a run.
-/

namespace SchemaGen.Settings

/-- The settings in the file that a path leads to. -/
def load (fs : FileSystem) (path : Path) : Except SettingsError Settings :=
  match fs.read path with
  | .error cause => .error (.unreadable path cause)
  | .ok bytes =>
    match Text.ofBytes bytes with
    | .error _ => .error (.notText path)
    | .ok text => (ofText text).mapError (.invalid path)

/-- The skip list of the settings. -/
def skipList (s : Settings) : Except SettingsError SkipList :=
  (SkipList.ofTexts .usual s.skip).mapError .skipPattern

/-- Makes the output root and gives the handle for it. A target's own extension is used unless the
settings have one. -/
def output (s : Settings) (extension : String) :
    ExceptT SettingsError (StateM FileSystem) Output := do
  ExceptT.adapt (.outputRoot s.outDir) (Disk.makeDirectories s.outDir)
  match (← get).find s.outDir with
  | .error cause => throw (.outputRoot s.outDir cause)
  | .ok (.directory .full _) => return .new s.outDir (s.fileExt.getD extension) s.tool
  | .ok _ => throw (.protectedRoot s.outDir)

end SchemaGen.Settings
