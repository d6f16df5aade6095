import SchemaGen.Proofs.ModuleTree
import SchemaGen.Proofs.OutputRoot

/-!
# Java names of messages

A source puts its class into a package by a line `package P;`, and then the full name of the class is
`P.Name`; without such a line it is `Name`. Fields in other sources name the class by a text that is
put together apart from that, always with a dot. The two agree unless the package is empty. A file
with definitions has a schema package, so this takes an option `java_package` that is empty.

Results:
1. `Java.declares_iff`: the full name that a source declares.
2. `Java.parts_of_fieldType`: the type of a field is made of the names at its places.
3. `Java.references_agree`: names in fields and declared names, in every run.
-/

namespace SchemaGen

open EventOrderLemmas FillingLemmas

/-! ## Definitions -/

namespace Java

/-- The line that puts a source into a package. -/
def packageLine (package : String) : String :=
  s!"package {package};"

/-- The lines declare the class `name`, and `full` is its name with the package. Lines count as they
were written, also if the name of a package breaks one in two. -/
def Declares (lines : List String) (name full : String) : Prop :=
  s!"public class {name} \x7b" ∈ lines ∧
    ((∃ package, packageLine package ∈ lines ∧ full = package ++ "." ++ name) ∨
      (∀ package, packageLine package ∉ lines) ∧ full = name)

/-- The places in the type of a field where a message can be named. -/
inductive Place where
  | whole
  | item
  | key
  | value
deriving DecidableEq

/-- What a field refers to at its places. -/
def places (x : Field) : List (Place × DefinitionId) :=
  match x.cardinality, x.type with
  | .singular, .reference _ _ id => [(.whole, id)]
  | .repeated, .reference _ _ id => [(.item, id)]
  | .singular, .map key value =>
    key.references.map (fun r => (.key, r.2)) ++ value.references.map fun r => (.value, r.2)
  | _, _ => []

/-- The type of a field with the texts `part` at its places. -/
def typeText (x : Field) (part : Place → String) : String :=
  match x.cardinality, x.type with
  | .repeated, _ => s!"java.util.List<{part .item}>"
  | .singular, .map _ _ => s!"java.util.Map<{part .key}, {part .value}>"
  | .singular, _ => part .whole

/-- The source of a message. -/
def classSource (o : Output) (g : Graph) (f : SchemaFile) (m : Message) : GeneratedFile :=
  sourceOf o f m.name (classLines g f m)

/-- The text by which a message of `f` is named is the full name that its source declares. Only if
the option `java_package` is empty it is not: a dot stands before the name then. -/
structure Agrees (o : Output) (g : Graph) (f : SchemaFile) (m : Message) (text : String) : Prop where
  named : f.option? "java_package" ≠ some "" →
    ∀ full, Declares (classSource o g f m).lines m.name full ↔ full = text
  dotted : f.option? "java_package" = some "" →
    (∀ full, Declares (classSource o g f m).lines m.name full ↔ full = m.name) ∧
      text = "." ++ m.name

/-- The field `x` is declared in the source of the message `m` of `f`. Wherever its type refers to a
message that something is generated for, it names it as that one's source does, and that source is
one of `files` or comes from before. -/
def FieldAgrees (o : Output) (g : Graph) (handled : List Path) (files : List SchemaFile)
    (f : SchemaFile) (m : Message) (x : Field) : Prop :=
  ∃ r part, vocabulary.fieldType g x = .ok r ∧ fieldLine x r ∈ (classSource o g f m).lines ∧
    r.type = typeText x part ∧ (places x).map (·.2) = x.type.references.map (·.2) ∧
    ∀ p ∈ places x, ∀ m', g.definition? p.2 = some (.message m') → m'.isSkipped = false →
      ∃ f', m' ∈ f'.messages ∧ (f'.path ∈ handled ∨ f' ∈ files) ∧
        classSource o g f' m' ∈ filesFor o g f' ∧ Agrees o g f' m' (part p.1)

/-! ## 1. Declared names -/

theorem packageLine_injective {package package' : String}
    (h : packageLine package = packageLine package') : package = package' := by
  have hchars := congrArg String.toList h
  simp only [packageLine, toString, String.toList_append, List.append_cancel_left_eq,
    List.append_cancel_right_eq] at hchars
  exact String.toList_inj.1 hchars

theorem take_packageLine (package : String) : (packageLine package).toList.take 2 = ['p', 'a'] := by
  simp [packageLine, toString]

theorem take_marker (tool path : String) :
    (s!"// generated from {path} by {tool}, NEVER CHANGE!!").toList.take 2 ≠ ['p', 'a'] := by
  simp [toString]

theorem take_doc {indent : String} (hindent : indent = "" ∨ indent = "  ") {comment : Option String}
    {line : String} (h : line ∈ doc indent comment) : line.toList.take 2 ≠ ['p', 'a'] := by
  cases comment with
  | none => cases h
  | some text =>
    simp only [doc, List.mem_cons, List.not_mem_nil, or_false] at h
    rcases hindent with rfl | rfl <;> rcases h with rfl | rfl | rfl <;>
      simp [String.toList_append]

section Source

variable (o : Output) (g : Graph) (f : SchemaFile) (m : Message)

/-- All lines that could be taken for one that names a package are for the package of the file. -/
theorem eq_packageLine_of_mem {line : String} (h : line ∈ (classSource o g f m).lines)
    (hline : line.toList.take 2 = ['p', 'a']) :
    packageOf f ≠ "" ∧ line = packageLine (packageOf f) := by
  rcases List.mem_append.1 h with hhead | hclass
  · rcases List.mem_pair.1 hhead with hmarker | hnothing
    · rw [hmarker] at hline
      exact absurd hline (take_marker o.tool f.file.slashed)
    · rw [hnothing] at hline
      cases hline
  rcases List.mem_append.1 hclass with hinner | hend
  · rcases List.mem_append.1 hinner with hstart | hfields
    · rcases List.mem_append.1 hstart with hpackaged | hopening
      · rcases List.mem_append.1 hpackaged with hpackage | hdoc
        · split at hpackage
          · cases hpackage
          · next hempty =>
            rw [String.isEmpty_iff] at hempty
            rcases List.mem_pair.1 hpackage with hpackage | hnothing
            · exact ⟨hempty, hpackage⟩
            · rw [hnothing] at hline
              cases hline
        · exact absurd hline (take_doc (.inl rfl) hdoc)
      · rw [List.mem_singleton.1 hopening] at hline
        simp [toString] at hline
    · obtain ⟨x, -, hx⟩ := List.mem_flatMap.1 hfields
      rcases List.mem_append.1 hx with hdoc | hfield
      · exact absurd hline (take_doc (.inr rfl) hdoc)
      · rw [List.mem_singleton.1 hfield, fieldLine] at hline
        simp [toString] at hline
  · rcases List.mem_pair.1 hend with rfl | rfl <;> simp at hline

theorem packageLine_mem_iff {package : String} :
    packageLine package ∈ (classSource o g f m).lines ↔ package = packageOf f ∧ package ≠ "" := by
  constructor
  · intro h
    obtain ⟨hne, heq⟩ := eq_packageLine_of_mem o g f m h (take_packageLine package)
    obtain rfl := packageLine_injective heq
    exact ⟨rfl, hne⟩
  · rintro ⟨rfl, hne⟩
    refine List.mem_append_right _ (List.mem_append_left _ (List.mem_append_left _ ?_))
    have hempty : ¬ (packageOf f).isEmpty := by
      rw [String.isEmpty_iff]
      exact hne
    refine List.mem_append_left _ (List.mem_append_left _ ?_)
    rw [if_neg hempty]
    exact List.mem_cons_self

theorem classLine_mem : s!"public class {m.name} \x7b" ∈ (classSource o g f m).lines := by
  refine List.mem_append_right _ (List.mem_append_left _ (List.mem_append_left _ ?_))
  exact List.mem_append_right _ (List.mem_singleton.2 rfl)

/-- A source declares one full name. -/
theorem declares_iff {full : String} : Declares (classSource o g f m).lines m.name full ↔
    full = if packageOf f = "" then m.name else packageOf f ++ "." ++ m.name := by
  simp only [Declares, classLine_mem, true_and, packageLine_mem_iff]
  by_cases hempty : packageOf f = ""
  · simp [hempty]
  · rw [if_neg hempty]
    constructor
    · rintro (⟨package, ⟨rfl, -⟩, rfl⟩ | ⟨hnone, -⟩)
      · rfl
      · exact absurd ⟨rfl, hempty⟩ (hnone (packageOf f))
    · rintro rfl
      exact .inl ⟨packageOf f, ⟨rfl, hempty⟩, rfl⟩

end Source

/-! ## 2. Names in fields -/

/-- Full names have a dot, which no primitive type has. -/
theorem boxed_of_dot {type : String} (h : '.' ∈ type.toList) : boxed type = type := by
  have hne {word : String} (hword : '.' ∉ word.toList) : type ≠ word := by
    rintro rfl
    exact hword h
  rw [boxed, if_neg (hne (by decide)), if_neg (hne (by decide)), if_neg (hne (by decide)),
    if_neg (hne (by decide)), if_neg (hne (by decide))]

section Parts

variable {g : Graph}

theorem element_eq {field item : String} {t : FieldType}
    (h : vocabulary.element g field t = .ok item) :
    ∀ r ∈ t.references, ∀ name, vocabulary.target g r.2 = .ok (some name) → '.' ∈ name.toList →
      item = name := by
  cases t with
  | base b => exact nofun
  | map key value => cases h
  | reference package short id =>
    intro r hr name htarget hdot
    obtain rfl := List.mem_singleton.1 hr
    obtain ⟨target, hfound, hitem⟩ := bind_eq_ok.1 h
    obtain rfl := Except.ok.inj (htarget.symm.trans hfound)
    cases hitem
    exact boxed_of_dot hdot

/-- The type of a field is made of the texts at its places, and these are the names of the messages
that it refers to. -/
theorem parts_of_fieldType {x : Field} {r : Rendered} (h : vocabulary.fieldType g x = .ok r) :
    ∃ part, r.type = typeText x part ∧ (places x).map (·.2) = x.type.references.map (·.2) ∧
      ∀ p ∈ places x, ∀ name, vocabulary.target g p.2 = .ok (some name) → '.' ∈ name.toList →
        part p.1 = name := by
  obtain ⟨described, number, index, type, cardinality⟩ := x
  cases cardinality with
  | singular =>
    cases type with
    | base b => exact ⟨fun _ => r.type, rfl, rfl, nofun⟩
    | reference package short id =>
      refine ⟨fun _ => r.type, rfl, rfl, fun p hp name htarget _ => ?_⟩
      obtain rfl := List.mem_singleton.1 hp
      obtain ⟨target, hfound, hr⟩ := bind_eq_ok.1 h
      obtain rfl := Except.ok.inj (htarget.symm.trans hfound)
      cases hr
      rfl
    | map key value =>
      obtain ⟨k, hkey, hrest⟩ := bind_eq_ok.1 h
      obtain ⟨v, hvalue, hr⟩ := bind_eq_ok.1 hrest
      cases hr
      let part : Place → String
        | .key => k
        | .value => v
        | _ => ""
      refine ⟨part, rfl, ?_, fun p hp name htarget hdot => ?_⟩
      · show (key.references.map _ ++ value.references.map _).map _ =
          (key.references ++ value.references).map _
        rw [List.map_append, List.map_append, List.map_map, List.map_map]
        rfl
      rcases List.mem_append.1 hp with hp | hp
      · obtain ⟨reference, href, rfl⟩ := List.mem_map.1 hp
        exact element_eq hkey reference href name htarget hdot
      · obtain ⟨reference, href, rfl⟩ := List.mem_map.1 hp
        exact element_eq hvalue reference href name htarget hdot
  | repeated =>
    obtain ⟨item, hitem, hr⟩ := bind_eq_ok.1 h
    cases hr
    refine ⟨fun _ => item, rfl, ?_, fun p hp name htarget hdot => ?_⟩
    · cases type with
      | base b => rfl
      | reference package short id => rfl
      | map key value => cases hitem
    · cases type with
      | base b => cases hp
      | map key value => cases hp
      | reference package short id =>
        obtain rfl := List.mem_singleton.1 hp
        exact element_eq hitem (short, id) (List.mem_singleton.2 rfl) name htarget hdot

end Parts

end Java

/-! ## 3. Packages -/

/-- A file with messages has a package. -/
theorem Grown.package_of_message {seen : List FileSystem} {root : Path} {g : Graph}
    (hg : Grown seen root g) {i : FileId} {f : SchemaFile} (hf : g.file? i = some f) {m : Message}
    (hm : m ∈ f.messages) : ∃ package, f.package? = some package := by
  obtain ⟨g', l, d, ⟨-, ⟨imported, hbuild⟩, -⟩, -, -⟩ := hg.origin hf
  obtain ⟨-, hpackage, hnames⟩ := SchemaFile.fill_effect hbuild
  have hname : m.name ∈ f.names := List.mem_append_left _ (List.mem_map_of_mem hm)
  have hdeclared : d.names ≠ [] := by
    rcases (hnames m.name).1 hname with hold | hdeclared
    · cases hold
    · exact List.ne_nil_of_mem hdeclared
  obtain ⟨-, hsome, -⟩ := (SchemaFile.fill_isOk_iff ⟨rfl, rfl, rfl⟩).1 ⟨f, hbuild⟩
  rw [hpackage]
  exact Option.isSome_iff_exists.1 (hsome hdeclared)

namespace Java

variable {f : SchemaFile} {m : Message}

theorem packageOf_eq_empty_iff (hnamed : f.Named)
    (hpackage : ∃ package, f.package? = some package) :
    packageOf f = "" ↔ f.option? "java_package" = some "" := by
  obtain ⟨package, hsome⟩ := hpackage
  have hne : package ≠ "" := by
    rintro rfl
    exact (isStem_of_isName (hnamed.package "" hsome)).toList_ne_nil rfl
  unfold packageOf
  cases hoption : f.option? "java_package" with
  | none => simp [hsome, hne]
  | some text => simp

theorem agrees_messageName (hnamed : f.Named) (hpackage : ∃ package, f.package? = some package)
    (o : Output) (g : Graph) (m : Message) : Agrees o g f m (vocabulary.messageName f m) := by
  have hempty := packageOf_eq_empty_iff hnamed hpackage
  have hname : vocabulary.messageName f m = packageOf f ++ "." ++ m.name := rfl
  refine ⟨fun hoption full => ?_, fun hoption => ⟨fun full => ?_, ?_⟩⟩
  · rw [declares_iff, if_neg (fun h => hoption (hempty.1 h)), hname]
  · rw [declares_iff, if_pos (hempty.2 hoption)]
  · rw [hname, hempty.2 hoption, String.empty_append]

theorem classSource_mem_filesFor (hm : m ∈ f.messages) (hkept : m.isSkipped = false) (o : Output)
    (g : Graph) : classSource o g f m ∈ filesFor o g f := by
  refine List.mem_append_left _ (List.mem_map.2 ⟨m, List.mem_filter.2 ⟨hm, ?_⟩, rfl⟩)
  rw [hkept]
  rfl

theorem fieldLine_mem {g : Graph} {x : Field} (hx : x ∈ m.kept) {r : Rendered}
    (hr : vocabulary.fieldType g x = .ok r) (o : Output) :
    fieldLine x r ∈ (classSource o g f m).lines := by
  refine List.mem_append_right _ (List.mem_append_left _ (List.mem_append_right _ ?_))
  refine List.mem_flatMap.2 ⟨x, hx, List.mem_append_right _ (List.mem_singleton.2 ?_)⟩
  rw [Vocabulary.rendered, hr]
  rfl

/-- Fields name messages as these are declared, if the files that their file depends on are there. -/
theorem fieldAgrees_of_grown {seen : List FileSystem} {root : Path} {g : Graph}
    (hg : Grown seen root g) (o : Output) {handled : List Path} {files : List SchemaFile}
    {i : FileId} (hi : g.file? i = some f) (hf : f ∈ files)
    (hdependencies : ∀ j ∈ f.dependencies, ∀ e, g.file? j = some e → e.path ∈ handled ∨ e ∈ files)
    (hm : m ∈ f.messages) {x : Field} (hx : x ∈ m.kept) : FieldAgrees o g handled files f m x := by
  obtain ⟨hleads, htypes⟩ := hg.fieldTypes hi hm (List.mem_filter.1 hx).1
  obtain ⟨r, hr⟩ := htypes vocabulary
  obtain ⟨part, htype, hplaces, hparts⟩ := parts_of_fieldType hr
  refine ⟨r, part, hr, fieldLine_mem hx hr o, htype, hplaces, fun p hp m' hm' hkept' => ?_⟩
  obtain ⟨f', hfile, howner, hmem⟩ := hg.owner_of_message hm'
  have hwhere : f'.path ∈ handled ∨ f' ∈ files := by
    have hid : p.2 ∈ x.type.references.map (·.2) := hplaces ▸ List.mem_map_of_mem hp
    obtain ⟨reference, href, heq⟩ := List.mem_map.1 hid
    rcases (hleads reference href).1 with hown | hdep
    · rw [← heq, hown, hi] at hfile
      exact .inr (Option.some.inj hfile ▸ hf)
    · rw [heq] at hdep
      exact hdependencies _ hdep f' hfile
  have htarget : vocabulary.target g p.2 = .ok (some (vocabulary.messageName f' m')) := by
    simp only [Vocabulary.target, hm', howner]
  have hdot : '.' ∈ (vocabulary.messageName f' m').toList := by
    show '.' ∈ (packageOf f' ++ "." ++ m'.name).toList
    simp [String.toList_append]
  have hpackage := hg.package_of_message hfile hmem
  refine ⟨f', hmem, hwhere, classSource_mem_filesFor hmem hkept' o g, ?_⟩
  rw [hparts p hp _ htarget hdot]
  exact agrees_messageName (hg.named hfile) hpackage o g m'

end Java

/-- In every successful run of a session for Java, also after others, the fields in the sources that it
writes name messages by the full names that the sources of these declare. The exception is a message
in a file whose option `java_package` is empty: it is declared in no package, and the fields put a dot
before its name. -/
theorem Java.references_agree {settings : Settings} {dir : Path} {fs fs' : FileSystem}
    {plan : Plan Unit} {s : Session Unit}
    (hstart : (Session.start settings dir target extension ()).run fs = (.ok (plan, s), fs'))
    (earlier : List (List Path)) {roots : List Path} {stats : Stats}
    (hrun : (Session.run plan roots (s.afterRuns plan earlier)).1 = .ok stats) :
    let before := s.afterRuns plan earlier
    let after := (Session.run plan roots before).2
    let o := before.workspace.output.blank
    let g := after.catalog.graph
    before.workspace.Writes ((before.emitted plan roots).flatMap (filesFor o g)) after.workspace ∧
      ∀ f ∈ before.emitted plan roots, ∀ m ∈ f.messages, m.isSkipped = false →
        classSource o g f m ∈ filesFor o g f ∧
          ∀ x ∈ m.kept, FieldAgrees o g before.handled (before.emitted plan roots) f m x := by
  intro before after o g
  have hplan : plan.target = target := (Session.of_start hstart).1
  have hgenerates : plan.target.Generates filesFor := hplan ▸ generates
  have horderly : before.catalog.IsOrderly := Session.orderly_afterRuns
    (Catalog.isOrderly_of_ofRoot (Session.catalog_of_start hstart)) earlier
  obtain ⟨walked, hroots, -, hcatalog, -⟩ := Session.run_ok hrun
  have hg : g = walked.catalog.graph := congrArg Catalog.graph hcatalog
  have hwalked : ((roots.forM (Run.root plan)).run before).2.catalog.IsOrderly :=
    (Session.orderly_run horderly).1
  rw [hroots] at hwalked
  obtain ⟨seen, hgrown⟩ := hwalked.grown
  have hclosed : before.workspace.output.current = none :=
    Session.closed_afterRuns (fun w => by rw [hplan]; rfl) (Session.closed_of_start hstart) earlier
  refine ⟨writes_emitted hplan hclosed hrun, fun f hf m hm hkept => ?_⟩
  obtain ⟨i, hi⟩ := List.getElem?_of_mem (Session.mem_graph_of_visited hgenerates horderly hroots
    (CollisionsLemmas.mem_of_mem_todo hf))
  rw [hg]
  exact ⟨classSource_mem_filesFor hm hkept o _, fun x hx =>
    fieldAgrees_of_grown hgrown.graph o hi hf
      (fun j hj e he => Session.todo_of_dependency hgenerates horderly hroots hf hj he) hm hx⟩

/-! ### An empty package -/

namespace Lone

/-- A file with an empty Java package, in which one message refers to another. -/
def unpackagedText : String :=
  "package p; option java_package = \"\"; message M \x7b N n = 1; \x7d message N \x7b \x7d"

/-- The message that is referred to. -/
def unpackagedMessage : Message :=
  ⟨⟨"N", none, false⟩, 0, []⟩

/-- The file with the messages. -/
def unpackagedFile : SchemaFile :=
  { SchemaFile.empty 0 ⟨"/s"⟩ ⟨"a"⟩ ⟨"/s/a"⟩ with
    headers := [⟨.package, "package", "p"⟩]
    options := [⟨.option, "java_package", ""⟩]
    messages := [⟨⟨"M", none, false⟩, 0, [⟨⟨"n", none, false⟩, 1, 0,
      .reference (some "p") "N" ⟨0, .message, 1⟩, .singular⟩]⟩, unpackagedMessage]
    definitions := ⟨[("M", ⟨0, .message, 0⟩), ("N", ⟨0, .message, 1⟩)], by decide⟩ }

/-- The lines of the source for the message. -/
def unpackagedLines : List String :=
  (Java.classSource (.new ⟨"/o"⟩ Java.extension "pbgen") ⟨[unpackagedFile]⟩ unpackagedFile
    unpackagedMessage).lines

/-- The run writes a field whose type starts with a dot. -/
theorem run_unpackaged :
    (Session.run (twinPlan Java.target) [⟨"/s/a"⟩] (session unpackagedText)).1 = .ok ⟨1, 2, 0, 0⟩ ∧
      (let files := (Session.run (twinPlan Java.target) [⟨"/s/a"⟩]
        (session unpackagedText)).2.workspace.files
      files.read ⟨"/o/M.java"⟩ = .ok (Output.bytes
        ["// generated from a by pbgen, NEVER CHANGE!!", "", "public class M \x7b",
          "  public .N n = null;", "\x7d", ""]) ∧
      files.read ⟨"/o/N.java"⟩ = .ok (Output.bytes unpackagedLines)) ∧
      unpackagedFile ∈ (session unpackagedText).emitted (twinPlan Java.target) [⟨"/s/a"⟩] := by
  have hruns : ∃ r ∈ within unpackagedText, r.2.2.1 = .ok ⟨1, 2, 0, 0⟩ ∧
      (r.2.2.2.workspace.files.read ⟨"/o/M.java"⟩ = .ok (Output.bytes
        ["// generated from a by pbgen, NEVER CHANGE!!", "", "public class M \x7b",
          "  public .N n = null;", "\x7d", ""]) ∧
        r.2.2.2.workspace.files.read ⟨"/o/N.java"⟩ = .ok (Output.bytes unpackagedLines)) ∧
      unpackagedFile ∈ EventOrderLemmas.todo Java.target.refuses [] (r.1.flatMap Visit.files) := by
    decide +kernel
  obtain ⟨_, hwithin, h⟩ := hruns
  obtain ⟨hrun, hvisited⟩ := run_lone hwithin
  rwa [hrun, Session.emitted, hvisited]

end Lone

open Lone in
/-- A run can succeed with a field that names a message of the same file otherwise than the source of
the message declares it. -/
theorem Java.reference_disagrees :
    ∃ plan s fs' stats source declared,
      (Session.start twinSettings ⟨"/s"⟩ target extension ()).run (system unpackagedText) =
        (.ok (plan, s), fs') ∧
      (Session.run plan [⟨"/s/a"⟩] s).1 = .ok stats ∧
      (Session.run plan [⟨"/s/a"⟩] s).2.workspace.files.read ⟨"/o/M.java"⟩ =
        .ok (Output.bytes source) ∧ "  public .N n = null;" ∈ source ∧
      (Session.run plan [⟨"/s/a"⟩] s).2.workspace.files.read ⟨"/o/N.java"⟩ =
        .ok (Output.bytes declared) ∧ ∀ full, Declares declared "N" full ↔ full = "N" := by
  refine ⟨_, _, _, _, _, unpackagedLines, start_lone unpackagedText, run_unpackaged.1,
    run_unpackaged.2.1.1, by decide, run_unpackaged.2.1.2, fun full => ?_⟩
  exact declares_iff _ _ unpackagedFile unpackagedMessage

open Lone in
/-- The file with the empty package. -/
theorem Java.references_agree_unpackaged :
    (Session.start twinSettings ⟨"/s"⟩ target extension ()).run (system unpackagedText) =
        (.ok (twinPlan target, session unpackagedText), systemWithOutput unpackagedText) ∧
      let before := session unpackagedText
      let after := (Session.run (twinPlan target) [⟨"/s/a"⟩] before).2
      let o := before.workspace.output.blank
      let g := after.catalog.graph
      (Session.run (twinPlan target) [⟨"/s/a"⟩] before).1 = .ok ⟨1, 2, 0, 0⟩ ∧
      unpackagedFile ∈ before.emitted (twinPlan target) [⟨"/s/a"⟩] ∧
      before.workspace.Writes ((before.emitted (twinPlan target) [⟨"/s/a"⟩]).flatMap
        (filesFor o g)) after.workspace ∧
      ∀ f ∈ before.emitted (twinPlan target) [⟨"/s/a"⟩], ∀ m ∈ f.messages, m.isSkipped = false →
        classSource o g f m ∈ filesFor o g f ∧
          ∀ x ∈ m.kept, FieldAgrees o g before.handled
            (before.emitted (twinPlan target) [⟨"/s/a"⟩]) f m x :=
  ⟨start_lone unpackagedText, run_unpackaged.1, run_unpackaged.2.2,
    Java.references_agree (start_lone unpackagedText) [] run_unpackaged.1⟩

end SchemaGen
