import SchemaGen.Proofs.GeneratedFiles
import SchemaGen.Proofs.LoadHistory

/-!
# Generated files do not depend on numbers

The numbers of files depend on the order of loading. Generated files do not show them: a reference
is followed to a message, and the message is named by the file that owns it. So in graphs that look
alike, files that look alike get the same generated files.

Results:
1. `Vocabulary.rendered_view`: fields that look alike have the same type.
2. `Java.filesFor_view`, `Rust.sourceOf_view`: the generated files of schema files that look alike.
3. `Built.alike`: graphs that are loaded from one file system look alike.
-/

namespace SchemaGen

/-! ## Definitions -/

/-- Numbers that stand for the same path are those of files that look alike, or of no files. -/
def Graph.Alike (ν ν' : FileId → Path) (g g' : Graph) : Prop :=
  ∀ i j, ν i = ν' j → (g.file? i).map (·.view ν) = (g'.file? j).map (·.view ν')

/-- The vocabulary names messages without a look at numbers. -/
def Vocabulary.IsBlind (v : Vocabulary) : Prop :=
  ∀ (ν ν' : FileId → Path) (f f' : SchemaFile) (m m' : Message), f.view ν = f'.view ν' →
    m.name = m'.name → v.messageName f m = v.messageName f' m'

/-! ## 1. Types of fields -/

namespace OutputViewsLemmas

theorem toOption_bind {ε α β : Type} (x : Except ε α) (f : α → Except ε β) :
    (x >>= f).toOption = x.toOption.bind fun a => (f a).toOption := by
  cases x <;> rfl

/-- What is taken from parts that look alike, as far as they are kept. -/
theorem filter_flatMap_congr {α α' β γ : Type} {v : α → γ} {v' : α' → γ} {xs : List α}
    {ys : List α'} (h : xs.map v = ys.map v') {p : α → Bool} {p' : α' → Bool}
    (hp : ∀ x y, v x = v' y → p x = p' y) {f : α → List β} {f' : α' → List β}
    (hf : ∀ x y, v x = v' y → f x = f' y) :
    (xs.filter p).flatMap f = (ys.filter p').flatMap f' := by
  induction xs generalizing ys with
  | nil =>
    obtain rfl := List.map_eq_nil_iff.1 h.symm
    rfl
  | cons x xs ih =>
    obtain ⟨y, ys, rfl, hxy, hrest⟩ := List.map_eq_cons_iff.1 h.symm
    rw [List.filter_cons, List.filter_cons, hp x y hxy.symm]
    split
    · rw [List.flatMap_cons, List.flatMap_cons, hf x y hxy.symm, ih hrest.symm]
    · exact ih hrest.symm

/-- Options that look alike are both empty or hold what looks alike. -/
theorem alike_options {α α' γ : Type} {v : α → γ} {v' : α' → γ} {x : Option α} {y : Option α'}
    (h : x.map v = y.map v') :
    x = none ∧ y = none ∨ ∃ a b, x = some a ∧ y = some b ∧ v a = v' b := by
  cases x with
  | none => exact .inl ⟨rfl, Option.map_eq_none_iff.1 h.symm⟩
  | some a =>
    obtain ⟨b, hb, hview⟩ := Option.map_eq_some_iff.1 h.symm
    exact .inr ⟨a, b, rfl, hb, hview.symm⟩

theorem alike_getElem? {α α' γ : Type} {v : α → γ} {v' : α' → γ} {xs : List α} {ys : List α'}
    (h : xs.map v = ys.map v') (i : Nat) : xs[i]?.map v = ys[i]?.map v' := by
  rw [← List.getElem?_map, ← List.getElem?_map, h]

section Parts

variable {ν ν' : FileId → Path}

theorem described_of_message {m m' : Message} (h : m.view ν = m'.view ν') :
    m.toDescribed = m'.toDescribed :=
  congrArg MessageView.toDescribed h

theorem described_of_field {x x' : Field} (h : x.view ν = x'.view ν') :
    x.toDescribed = x'.toDescribed :=
  congrArg FieldView.toDescribed h

/-- An enumeration shows numbers of files only as the one that owns it. -/
theorem parts_of_enumeration {e e' : Enumeration} (h : e.view ν = e'.view ν') :
    e.toDescribed = e'.toDescribed ∧ e.constants = e'.constants :=
  ⟨congrArg EnumerationView.toDescribed h, congrArg EnumerationView.constants h⟩

theorem file_of_view {f f' : SchemaFile} (h : f.view ν = f'.view ν') : f.file = f'.file :=
  congrArg FileView.file h

variable {β : Type}

/-- What the kept fields of messages that look alike give. -/
theorem kept_congr {m m' : Message} (h : m.view ν = m'.view ν') {F F' : Field → List β}
    (hF : ∀ x y, x.view ν = y.view ν' → F x = F' y) : m.kept.flatMap F = m'.kept.flatMap F' :=
  filter_flatMap_congr (congrArg MessageView.fields h)
    (fun x y hxy => by rw [described_of_field hxy]) hF

/-- What the kept messages of files that look alike give. -/
theorem messages_congr {f f' : SchemaFile} (h : f.view ν = f'.view ν') {F F' : Message → List β}
    (hF : ∀ m m', m.view ν = m'.view ν' → F m = F' m') :
    (f.messages.filter (!·.isSkipped)).flatMap F = (f'.messages.filter (!·.isSkipped)).flatMap F' :=
  filter_flatMap_congr (congrArg FileView.messages h)
    (fun m m' hm => by rw [described_of_message hm]) hF

/-- What the kept enumerations of files that look alike give. -/
theorem enums_congr {f f' : SchemaFile} (h : f.view ν = f'.view ν') {F F' : Enumeration → List β}
    (hF : ∀ e e', e.view ν = e'.view ν' → F e = F' e') :
    (f.enums.filter (!·.isSkipped)).flatMap F = (f'.enums.filter (!·.isSkipped)).flatMap F' :=
  filter_flatMap_congr (congrArg FileView.enums h)
    (fun e e' he => by rw [(parts_of_enumeration he).1]) hF

end Parts

end OutputViewsLemmas

open OutputViewsLemmas ViewLemmas

namespace Vocabulary

variable {v : Vocabulary} (hv : v.IsBlind) {ν ν' : FileId → Path} {g g' : Graph}
  (hg : g.Alike ν ν' g')

include hv hg

/-- A reference is followed to its message, and from there to the file that owns it. -/
theorem target_view {id id' : DefinitionId} (h : id.view ν = id'.view ν') :
    (v.target g id).toOption = (v.target g' id').toOption := by
  obtain ⟨hfile, hplace⟩ := Prod.mk.inj h
  obtain ⟨hkind, hindex⟩ := Prod.mk.inj hplace
  unfold target Graph.definition? SchemaFile.definitionAt?
  rw [hkind, hindex]
  rcases alike_options (hg id.file id'.file hfile) with ⟨hf, hf'⟩ | ⟨f, f', hf, hf', hview⟩
  · rw [hf, hf']
    rfl
  rw [hf, hf', Option.bind_some, Option.bind_some]
  cases id'.kind with
  | enumeration =>
    have henums : f.enums.map (·.view ν) = f'.enums.map (·.view ν') :=
      congrArg FileView.enums hview
    rcases alike_options (alike_getElem? henums id'.index) with ⟨he, he'⟩ | ⟨e, e', he, he', -⟩
    · rw [he, he']
      rfl
    · rw [he, he']
      rfl
  | message =>
    have hmessages : f.messages.map (·.view ν) = f'.messages.map (·.view ν') :=
      congrArg FileView.messages hview
    rcases alike_options (alike_getElem? hmessages id'.index) with
      ⟨hm, hm'⟩ | ⟨m, m', hm, hm', hsame⟩
    · rw [hm, hm']
      rfl
    have hname : m.name = m'.name := congrArg Described.name (described_of_message hsame)
    rw [hm, hm']
    dsimp only [Option.map_some]
    rcases alike_options (hg m.owner m'.owner (congrArg MessageView.owner hsame)) with
      ⟨hown, hown'⟩ | ⟨owner, owner', hown, hown', hlook⟩
    · rw [hown, hown']
      rfl
    · rw [hown, hown']
      dsimp only
      rw [hv ν ν' owner owner' m m' hlook hname]

theorem element_view (field : String) {t t' : FieldType} (h : t.view ν = t'.view ν') :
    (v.element g field t).toOption = (v.element g' field t').toOption := by
  refine alike_of_view (fun _ => rfl) (fun _ _ _ _ hid => ?_) (fun _ _ _ _ => rfl) h
  unfold element
  rw [toOption_bind, toOption_bind, target_view hv hg hid]

theorem single_view (field : String) {t t' : FieldType} (h : t.view ν = t'.view ν') :
    (v.single g field t).toOption = (v.single g' field t').toOption := by
  refine alike_of_view (fun _ => rfl) (fun _ _ _ _ hid => ?_) (fun hkey hvalue _ _ => ?_) h
  · unfold single
    rw [toOption_bind, toOption_bind, target_view hv hg hid]
  · unfold single
    simp only [toOption_bind, element_view hv hg field hkey, element_view hv hg field hvalue]

/-- Fields that look alike have the same type. -/
theorem rendered_view {x x' : Field} (h : x.view ν = x'.view ν') :
    v.rendered g x = v.rendered g' x' := by
  have hcardinality : x.cardinality = x'.cardinality := congrArg FieldView.cardinality h
  have htype : x.type.view ν = x'.type.view ν' := congrArg FieldView.type h
  have hname : x.name = x'.name := congrArg Described.name (described_of_field h)
  unfold rendered fieldType
  rw [hcardinality, hname]
  cases x'.cardinality with
  | singular => rw [single_view hv hg x'.name htype]
  | repeated =>
    dsimp only
    rw [toOption_bind, toOption_bind, element_view hv hg x'.name htype]

end Vocabulary

/-! ## 2. Sources -/

theorem SchemaFile.option?_of_view {ν ν' : FileId → Path} {f f' : SchemaFile}
    (h : f.view ν = f'.view ν') (name : String) : f.option? name = f'.option? name := by
  have hoptions : f.options = f'.options := congrArg FileView.options h
  rw [option?, option?, hoptions]

theorem Output.head_of_view (o : Output) {ν ν' : FileId → Path} {f f' : SchemaFile}
    (h : f.view ν = f'.view ν') : o.head (some f) = o.head (some f') := by
  have hmarker : o.marker f = o.marker f' := by
    unfold marker
    rw [file_of_view h]
  show [o.marker f, ""] = [o.marker f', ""]
  rw [hmarker]

namespace Java

variable {ν ν' : FileId → Path} {g g' : Graph} {f f' : SchemaFile}

theorem packageOf_of_view (h : f.view ν = f'.view ν') : packageOf f = packageOf f' := by
  rw [packageOf, packageOf, SchemaFile.option?_of_view h, package?_of_view h]

theorem isBlind_vocabulary : vocabulary.IsBlind := by
  intro ν ν' f f' m m' h hname
  show packageOf f ++ "." ++ m.name = packageOf f' ++ "." ++ m'.name
  rw [packageOf_of_view h, hname]

theorem fieldLine_congr {x x' : Field} (h : x.toDescribed = x'.toDescribed) (r : Rendered) :
    fieldLine x r = fieldLine x' r := by
  unfold fieldLine
  rw [h]

theorem classLines_view (hg : g.Alike ν ν' g') (h : f.view ν = f'.view ν') {m m' : Message}
    (hm : m.view ν = m'.view ν') : classLines g f m = classLines g' f' m' := by
  have hdescribed := described_of_message hm
  have hfields : m.kept.flatMap
        (fun x => doc "  " x.comment ++ [fieldLine x (vocabulary.rendered g x)]) =
      m'.kept.flatMap
        (fun x => doc "  " x.comment ++ [fieldLine x (vocabulary.rendered g' x)]) := by
    refine kept_congr hm fun x y hxy => ?_
    rw [fieldLine_congr (described_of_field hxy), described_of_field hxy,
      Vocabulary.rendered_view isBlind_vocabulary hg hxy]
  rw [classLines, classLines, hfields, typeStart, typeStart, packageOf_of_view h, hdescribed]

theorem enumLines_view (h : f.view ν = f'.view ν') {e e' : Enumeration}
    (he : e.view ν = e'.view ν') : enumLines f e = enumLines f' e' := by
  obtain ⟨hdescribed, hconstants⟩ := parts_of_enumeration he
  have hkept : e.kept = e'.kept := by rw [Enumeration.kept, Enumeration.kept, hconstants]
  rw [enumLines, enumLines, typeStart, typeStart, enumEnd, enumEnd, packageOf_of_view h, hkept,
    hdescribed]

/-- The classes and enums of files that look alike. -/
theorem filesFor_view (hg : g.Alike ν ν' g') (h : f.view ν = f'.view ν') (o : Output) :
    filesFor o g f = filesFor o g' f' := by
  have hsource (name : String) (lines : List String) :
      sourceOf o f name lines = sourceOf o f' name lines := by
    rw [sourceOf, sourceOf, sourcePath, sourcePath, directory, directory, packageOf_of_view h,
      o.head_of_view h]
  have hclasses : (f.messages.filter (!·.isSkipped)).map
        (fun m => sourceOf o f m.name (classLines g f m)) =
      (f'.messages.filter (!·.isSkipped)).map
        (fun m => sourceOf o f' m.name (classLines g' f' m)) := by
    rw [List.map_eq_flatMap, List.map_eq_flatMap]
    refine messages_congr h fun m m' hm => ?_
    rw [classLines_view hg h hm, described_of_message hm, hsource]
  have henums : (f.enums.filter (!·.isSkipped)).map (fun e => sourceOf o f e.name (enumLines f e)) =
      (f'.enums.filter (!·.isSkipped)).map
        fun e => sourceOf o f' e.name (enumLines f' e) := by
    rw [List.map_eq_flatMap, List.map_eq_flatMap]
    refine enums_congr h fun e e' he => ?_
    rw [enumLines_view h he, (parts_of_enumeration he).1, hsource]
  rw [filesFor, filesFor, hclasses, henums]

end Java

namespace Rust

variable {ν ν' : FileId → Path} {g g' : Graph} {f f' : SchemaFile}

theorem modules_of_view (h : f.view ν = f'.view ν') :
    packageModules f = packageModules f' ∧ fileModule f = fileModule f' := by
  rw [packageModules, packageModules, fileModule, fileModule, package?_of_view h, file_of_view h]
  exact ⟨rfl, rfl⟩

theorem childrenOf_view (h : f.view ν = f'.view ν') : childrenOf f = childrenOf f' := by
  obtain ⟨hpackage, hmodule⟩ := modules_of_view h
  rw [childrenOf, childrenOf, hpackage, hmodule]

theorem isBlind_vocabulary : vocabulary.IsBlind := by
  intro ν ν' f f' m m' h hname
  obtain ⟨hpackage, hmodule⟩ := modules_of_view h
  show modulePath f ++ "::" ++ typeName m.name = modulePath f' ++ "::" ++ typeName m'.name
  rw [modulePath, modulePath, hpackage, hmodule, hname]

theorem defaultLine_congr {x x' : Field} (h : x.toDescribed = x'.toDescribed) (r : Rendered) :
    defaultLine x r = defaultLine x' r := by
  unfold defaultLine
  rw [h]

theorem structLines_view (hg : g.Alike ν ν' g') {m m' : Message} (hm : m.view ν = m'.view ν') :
    structLines g m = structLines g' m' := by
  have hdescribed := described_of_message hm
  have hfields : m.kept.flatMap (fun x => fieldLines x (vocabulary.rendered g x)) =
      m'.kept.flatMap fun x => fieldLines x (vocabulary.rendered g' x) := by
    refine kept_congr hm fun x y hxy => ?_
    rw [fieldLines, fieldLines, described_of_field hxy,
      Vocabulary.rendered_view isBlind_vocabulary hg hxy]
  have hdefaults : m.kept.map (fun x => defaultLine x (vocabulary.rendered g x)) =
      m'.kept.map fun x => defaultLine x (vocabulary.rendered g' x) := by
    rw [List.map_eq_flatMap, List.map_eq_flatMap]
    refine kept_congr hm fun x y hxy => ?_
    rw [defaultLine_congr (described_of_field hxy),
      Vocabulary.rendered_view isBlind_vocabulary hg hxy]
  rw [structLines, structLines, hfields, hdefaults, structStart, structStart, structEnd, structEnd,
    hdescribed]

theorem enumLines_view {e e' : Enumeration} (he : e.view ν = e'.view ν') :
    enumLines e = enumLines e' := by
  obtain ⟨hdescribed, hconstants⟩ := parts_of_enumeration he
  have hkept : e.kept = e'.kept := by rw [Enumeration.kept, Enumeration.kept, hconstants]
  rw [enumLines, enumLines, enumStart, enumStart, enumEnd, enumEnd, hkept, hdescribed]

/-- The sources of files that look alike. -/
theorem sourceOf_view (hg : g.Alike ν ν' g') (h : f.view ν = f'.view ν') (o : Output) :
    sourceOf o g f = sourceOf o g' f' := by
  obtain ⟨hpackage, hmodule⟩ := modules_of_view h
  have hmessages := messages_congr h fun m m' hm => structLines_view hg hm
  have henums := enums_congr h fun e e' he => enumLines_view he
  rw [sourceOf, sourceOf, sourcePath, sourcePath, directory, directory, hpackage, hmodule,
    o.head_of_view h, hmessages, henums]

end Rust

/-! ## 3. Graphs of one file system -/

/-- Graphs that are loaded from one file system look alike. The empty path stands for numbers of no
files, since the files have absolute paths. -/
theorem Built.alike {fs : FileSystem} {root : Path} {g g' : Graph} (hg : Built fs root g)
    (hg' : Built fs root g') : g.Alike (g.pathOf ⟨""⟩) (g'.pathOf ⟨""⟩) g' := by
  have hnotEmpty {g : Graph} (hg : Built fs root g) {i : FileId} {f : SchemaFile}
      (hf : g.file? i = some f) : f.path ≠ ⟨""⟩ := by
    rw [(hg.plain hf).2]
    intro heq
    have habsolute := Location.isAbsolute_path f.location
    rw [heq] at habsolute
    cases habsolute
  intro i j hij
  unfold Graph.pathOf at hij
  cases hf : g.file? i with
  | none =>
    cases hf' : g'.file? j with
    | none => rfl
    | some f' =>
      rw [hf, hf'] at hij
      exact absurd hij.symm (hnotEmpty hg' hf')
  | some f =>
    cases hf' : g'.file? j with
    | none =>
      rw [hf, hf'] at hij
      exact absurd hij (hnotEmpty hg hf)
    | some f' =>
      rw [hf, hf'] at hij
      have hlocation : f.location = f'.location := congrArg Path.pieces hij
      exact congrArg some (hg.view_eq hg' (g.named_pathOf _) (g'.named_pathOf _) hf hf' hlocation)

end SchemaGen
