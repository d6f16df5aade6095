import SchemaGen.Proofs.EnumSources
import SchemaGen.Proofs.GeneratedRuns
import SchemaGen.Proofs.Identifiers
import Mathlib.Data.Prod.Basic

/-!
# Names that Rust sources declare

A source declares structs and enums, and in them fields and variants. This module reads the
declarations off the lines of a source, one line at a time, and says which identifiers the sources
of a run declare and which of them are no identifiers of the language or stand for two members of
one type.

Results:
1. `Rust.declarations_sourceOf`: a source declares what is kept of its schema file, in order.
2. `Rust.declared_names`: for every run that succeeds, the names whose identifiers cannot be used.
-/

namespace SchemaGen

namespace Rust

open Token (IsName)

/-! ## Definitions -/

/-- What an identifier stands for. -/
inductive Role where
  | struct
  | enumeration
  | field
  | variant
deriving DecidableEq, Repr

/-- The member that a line declares one level inside a type. Comments declare nothing, nor do lines
further inside. -/
def member? (cs : List Char) : Option (Role × String) :=
  if "/".toList <+: cs ∨ "    ".toList <+: cs then none
  else
    match cs.dropPrefix? "pub ".toList with
    | some rest =>
      (rest.dropSuffix? ",".toList).map fun body =>
        (.field, String.ofList (body.takeWhile (· ≠ ':')))
    | none => (Text.nameFirst? "" " = " "," (String.ofList cs)).map fun p => (.variant, p.1)

/-- What a line declares. -/
def declared? (line : String) : Option (Role × String) :=
  ((Text.inside? "pub struct " " \x7b" line).map (.struct, ·)).or
    (((Text.inside? "pub enum " " \x7b" line).map (.enumeration, ·)).or
      ((line.toList.dropPrefix? "    ".toList).bind member?))

/-- The identifier of a name in a role. -/
def identOf : Role → String → String
  | .field => fieldName
  | _ => typeName

/-- The definitions of a file that are kept, each with its kept members: their names, and what the
identifiers from them stand for. -/
def keptTypes (f : SchemaFile) : List ((Role × String) × List (Role × String)) :=
  (f.messages.filter (!·.isSkipped)).map (fun m =>
      ((.struct, m.name), m.kept.map fun x => (.field, x.name))) ++
    (f.enums.filter (!·.isSkipped)).map fun e =>
      ((.enumeration, e.name), e.kept.map fun c => (.variant, c.name))

/-- The name gives an identifier of the language. -/
def Names : Role → String → Prop
  | .field => NamesField
  | _ => NamesType

/-- The names have the same form in the case of the role, or one of them is a word that the language
uses and the other has an underscore behind it. -/
def Clash : Role → String → String → Prop
  | .field, a, b =>
    Text.snakeCase a = Text.snakeCase b ∨
      Text.snakeCase a ∈ strictWords ∧ Text.snakeCase b = Text.snakeCase a ++ "_" ∨
      Text.snakeCase b ∈ strictWords ∧ Text.snakeCase a = Text.snakeCase b ++ "_"
  | _, a, b => Text.pascalCase a = Text.pascalCase b

/-- What the source of a file declares, and when it is of use. -/
structure DeclaresNames (o : Output) (g : Graph) (f : SchemaFile) : Prop where
  /-- The source declares the kept definitions and members under their identifiers, in order. -/
  declared : (sourceOf o g f).lines.filterMap declared? =
    (keptTypes f).flatMap fun t => (t.1 :: t.2).map fun p => (p.1, identOf p.1 p.2)
  /-- Which of the identifiers are identifiers of the language. -/
  usable : ∀ t ∈ keptTypes f, ∀ p ∈ t.1 :: t.2, IsIdentifier (identOf p.1 p.2) ↔ Names p.1 p.2
  /-- Which members of one type have the same identifier. -/
  same : ∀ t ∈ keptTypes f, ∀ p ∈ t.2, ∀ q ∈ t.2,
    identOf p.1 p.2 = identOf q.1 q.2 ↔ Clash p.1 p.2 q.2
  /-- Members with the same identifier differ in case and underscores at most. -/
  alike : ∀ t ∈ keptTypes f, ∀ p ∈ t.2, ∀ q ∈ t.2, identOf p.1 p.2 = identOf q.1 q.2 →
    Text.letters p.2.toList = Text.letters q.2.toList

/-! ## 1. Declarations of a source -/

namespace DeclaredNamesLemmas

variable {c : Char} {cs : List Char}

theorem inside?_of_head {front back s : String} {d : Char} {ds : List Char}
    (hfront : front.toList = d :: ds) (hs : s.toList = c :: cs) (hne : c ≠ d) :
    Text.inside? front back s = none := by
  simp [Text.inside?, hfront, hs, List.dropPrefix?, hne]

theorem declared?_of_head {line : String} (hline : line.toList = c :: cs) (hne : c ≠ 'p') :
    declared? line = (line.toList.dropPrefix? "    ".toList).bind member? := by
  rw [declared?, inside?_of_head (show "pub struct ".toList = 'p' :: _ from rfl) hline hne,
    inside?_of_head (show "pub enum ".toList = 'p' :: _ from rfl) hline hne]
  rfl

/-- Lines that start with neither a blank nor a visibility declare nothing. -/
theorem declared?_outside {front : String} (hfront : front.toList = c :: cs) (hp : c ≠ 'p')
    (hblank : c ≠ ' ') (rest : String) : declared? (front ++ rest) = none := by
  have hlist : (front ++ rest).toList = c :: (cs ++ rest.toList) := by
    rw [String.toList_append, hfront]
    rfl
  rw [declared?_of_head hlist hp, hlist]
  simp [List.dropPrefix?, hblank]

theorem declared?_inside (rest : String) : declared? ("    " ++ rest) = member? rest.toList := by
  have hlist : ("    " ++ rest).toList = "    ".toList ++ rest.toList := String.toList_append
  rw [declared?_of_head (hlist.trans rfl) (show ' ' ≠ 'p' by decide), hlist,
    Text.dropPrefix?_append, Option.bind_some]

theorem member?_deep (cs : List Char) : member? ("    ".toList ++ cs) = none :=
  if_pos (.inr ⟨cs, rfl⟩)

theorem member?_comment (cs : List Char) : member? ("/".toList ++ cs) = none :=
  if_pos (.inl ⟨cs, rfl⟩)

theorem declared?_struct (name : String) :
    declared? ("pub struct " ++ name ++ " \x7b") = some (.struct, name) := by
  rw [declared?, Text.inside?_append]
  rfl

theorem declared?_enum (name : String) :
    declared? ("pub enum " ++ name ++ " \x7b") = some (.enumeration, name) := by
  have hstruct : Text.inside? "pub struct " " \x7b" ("pub enum " ++ name ++ " \x7b") = none := by
    simp only [Text.inside?, String.toList_append]
    rfl
  rw [declared?, hstruct, Text.inside?_append]
  rfl

theorem not_mem_of_all {s : String} (hs : s.toList.all isDottedChar = true)
    (hc : isDottedChar c = false) : c ∉ s.toList := by
  intro hmem
  rw [List.all_eq_true.1 hs c hmem] at hc
  cases hc

theorem declared?_field {name : String} (h : IsName name.toList) (type : String) :
    declared? ("    " ++ ("pub " ++ fieldName name ++ ": " ++ type ++ ",")) =
      some (.field, fieldName name) := by
  have hlist : ("pub " ++ fieldName name ++ ": " ++ type ++ ",").toList =
      "pub ".toList ++ ((fieldName name).toList ++ ':' :: ' ' :: type.toList ++ ",".toList) := by
    simp
  have hname : ((fieldName name).toList ++ ':' :: ' ' :: type.toList).takeWhile (· ≠ ':') =
      (fieldName name).toList := by
    have hcolon : ∀ c ∈ (fieldName name).toList, decide (c ≠ ':') = true := by
      intro c hc
      have hne : c ≠ ':' := by
        rintro rfl
        exact not_mem_of_all (all_isDottedChar_fieldName h) rfl hc
      exact decide_eq_true hne
    rw [List.takeWhile_append_of_pos hcolon, List.takeWhile_cons_of_neg (by simp), List.append_nil]
  rw [declared?_inside, hlist, member?, if_neg (by simp), Text.dropPrefix?_append]
  simp only [Text.dropSuffix?_append, Option.map_some, hname, String.ofList_toList]

/-- No identifier is a word of the language, so a variant does not look like a visibility. -/
theorem typeName_ne_pub (name : String) : typeName name ≠ "pub" := by
  have hpub : "pub" ∈ strictWords := by decide
  intro heq
  rw [← heq] at hpub
  exact escapeKeyword_not_mem _ hpub

theorem declared?_variant {name : String} (h : IsName name.toList) (n : Int) :
    declared? ("    " ++ (typeName name ++ " = " ++ toString n ++ ",")) =
      some (.variant, typeName name) := by
  have hdotted := all_isDottedChar_typeName h
  have hslash := not_mem_of_all hdotted (show isDottedChar '/' = false from rfl)
  have hblank := not_mem_of_all hdotted (show isDottedChar ' ' = false from rfl)
  have hlist : (typeName name ++ " = " ++ toString n ++ ",").toList =
      (typeName name).toList ++ ' ' :: '=' :: ' ' :: ((toString n).toList ++ [',']) := by
    simp
  have hmember : ¬ ("/".toList <+: (typeName name ++ " = " ++ toString n ++ ",").toList ∨
      "    ".toList <+: (typeName name ++ " = " ++ toString n ++ ",").toList) := by
    rw [hlist]
    cases hname : (typeName name).toList with
    | nil => simp [List.cons_prefix_cons]
    | cons c cs =>
      rw [hname, List.mem_cons, not_or] at hslash hblank
      simp [List.cons_prefix_cons, hslash.1, hblank.1]
  have hpub : (typeName name ++ " = " ++ toString n ++ ",").toList.dropPrefix? "pub ".toList =
      none := by
    rw [hlist, Option.eq_none_iff_forall_ne_some]
    intro rest hrest
    obtain ⟨front, heq, hfront⟩ := List.dropPrefix?_eq_some_iff.1 hrest
    rw [eq_of_beq hfront] at heq
    -- Up to the first blank the one text is the identifier, the other the visibility.
    have hkeep : ∀ c ∈ (typeName name).toList, decide (c ≠ ' ') = true := by
      intro c hc
      refine decide_eq_true ?_
      rintro rfl
      exact hblank hc
    have hword := congrArg (List.takeWhile (· ≠ ' ')) heq
    rw [List.takeWhile_append_of_pos hkeep, List.takeWhile_cons_of_neg (by simp),
      List.append_nil] at hword
    exact typeName_ne_pub name (String.toList_inj.1 hword)
  have hread : Text.nameFirst? "" " = " "," (typeName name ++ " = " ++ toString n ++ ",") =
      some (typeName name, n) := by
    have happend := Text.nameFirst?_append (show " = ".toList = [' ', '='] ++ [' '] from rfl) rfl
      "" "," (typeName name) n
    rwa [String.empty_append] at happend
  rw [declared?_inside, member?, if_neg hmember, hpub]
  simp only [String.ofList_toList, hread, Option.map_some]

end DeclaredNamesLemmas

open DeclaredNamesLemmas

theorem declared?_doc (comment : Option String) : (doc "" comment).filterMap declared? = [] := by
  cases comment with
  | none => rfl
  | some comment =>
    have hline : declared? ("" ++ "/// " ++ comment) = none :=
      declared?_outside (show ("" ++ "/// ").toList = '/' :: _ from rfl) (by decide) (by decide) _
    rw [doc, List.filterMap_cons_none hline, List.filterMap_nil]

theorem declared?_innerDoc (comment : Option String) :
    (doc "    " comment).filterMap declared? = [] := by
  cases comment with
  | none => rfl
  | some comment =>
    have hline : declared? ("    " ++ "/// " ++ comment) = none := by
      rw [String.append_assoc, declared?_inside, String.toList_append]
      exact member?_comment ("// ".toList ++ comment.toList)
    rw [doc, List.filterMap_cons_none hline, List.filterMap_nil]

theorem declared?_deep (rest : String) : declared? ("            " ++ rest) = none := by
  rw [show "            " = "    " ++ ("    " ++ "    ") from rfl, String.append_assoc,
    declared?_inside, String.append_assoc, String.toList_append]
  exact member?_deep _

theorem declarations_structStart (m : Message) :
    (structStart m).filterMap declared? = [(.struct, typeName m.name)] := by
  have hderive : declared? "#[derive(Debug, Clone, PartialEq)]" = none := rfl
  rw [structStart, List.filterMap_append, declared?_doc, List.nil_append,
    List.filterMap_cons_none hderive]
  exact List.filterMap_cons_some (declared?_struct (typeName m.name))

theorem declarations_fieldLines {x : Field} (h : IsName x.name.toList) (r : Rendered) :
    (fieldLines x r).filterMap declared? = [(.field, fieldName x.name)] := by
  have hline : s!"    pub {fieldName x.name}: {r.type}," =
      "    " ++ ("pub " ++ fieldName x.name ++ ": " ++ r.type ++ ",") := by
    show "    pub " ++ fieldName x.name ++ ": " ++ r.type ++ "," = _
    rw [show "    pub " = "    " ++ "pub " from rfl]
    simp only [String.append_assoc]
  rw [fieldLines, List.filterMap_append, declared?_innerDoc, List.nil_append, hline]
  exact List.filterMap_cons_some (declared?_field h r.type)

theorem declarations_structEnd (m : Message) {defaults : List String}
    (hdefaults : ∀ line ∈ defaults, declared? line = none) :
    (structEnd m defaults).filterMap declared? = [] := by
  have himpl : declared? s!"impl Default for {typeName m.name} \x7b" = none := by
    show declared? ("impl Default for " ++ typeName m.name ++ " \x7b") = none
    rw [String.append_assoc]
    exact declared?_outside (show "impl Default for ".toList = 'i' :: _ from rfl) (by decide)
      (by decide) _
  rw [List.filterMap_eq_nil_iff]
  intro line hline
  simp only [structEnd, List.mem_append, List.mem_cons, List.not_mem_nil, or_false] at hline
  rcases hline with ((rfl | rfl | rfl | rfl | rfl) | hdefault) | rfl | rfl | rfl | rfl
  case inl.inl.inr.inr.inl => exact himpl
  case inl.inr => exact hdefaults line hdefault
  all_goals rfl

/-- A struct declares its name and the kept fields. -/
theorem declarations_structLines (g : Graph) {m : Message}
    (hfields : ∀ x ∈ m.kept, IsName x.name.toList) :
    (structLines g m).filterMap declared? =
      (.struct, typeName m.name) :: m.kept.map fun x => (.field, fieldName x.name) := by
  have hdefaults : ∀ line ∈ m.kept.map fun x => defaultLine x (vocabulary.rendered g x),
      declared? line = none := by
    intro line hline
    obtain ⟨x, -, rfl⟩ := List.mem_map.1 hline
    show declared? ("            " ++ fieldName x.name ++ ": " ++ _ ++ ",") = none
    simp only [String.append_assoc]
    exact declared?_deep _
  rw [structLines, List.filterMap_append, List.filterMap_append, declarations_structStart,
    declarations_structEnd m hdefaults, List.append_nil, List.filterMap_flatMap,
    List.map_eq_flatMap]
  exact congrArg _ (List.flatMap_congr fun x hx => declarations_fieldLines (hfields x hx) _)

theorem declarations_enumStart (e : Enumeration) :
    (enumStart e).filterMap declared? = [(.enumeration, typeName e.name)] := by
  have hderive :
      ["#[derive(Debug, Clone, Copy, PartialEq, Eq, Hash)]"].filterMap declared? = [] := rfl
  have hrepr : (if e.kept.isEmpty then [] else ["#[repr(i32)]"]).filterMap declared? = [] := by
    split <;> rfl
  rw [enumStart, List.filterMap_append, List.filterMap_append, List.filterMap_append, declared?_doc,
    hderive, hrepr, List.append_nil, List.append_nil, List.nil_append]
  exact List.filterMap_cons_some (declared?_enum (typeName e.name))

theorem declarations_variantLines {c : Constant} (h : IsName c.name.toList) :
    (variantLines c).filterMap declared? = [(.variant, typeName c.name)] := by
  have hline : s!"    {typeName c.name} = {c.number}," =
      "    " ++ (typeName c.name ++ " = " ++ toString c.number ++ ",") := by
    show "    " ++ typeName c.name ++ " = " ++ toString c.number ++ "," = _
    simp only [String.append_assoc]
  rw [variantLines, List.filterMap_append, declared?_innerDoc, List.nil_append, hline]
  exact List.filterMap_cons_some (declared?_variant h c.number)

theorem declarations_enumEnd (e : Enumeration) (kept : List Constant) :
    (enumEnd e kept).filterMap declared? = [] := by
  have himpl : declared? s!"impl {typeName e.name} \x7b" = none := by
    show declared? ("impl " ++ typeName e.name ++ " \x7b") = none
    rw [String.append_assoc]
    exact declared?_outside (show "impl ".toList = 'i' :: _ from rfl) (by decide) (by decide) _
  have hbranch (c : Constant) : declared? (branch c) = none := by
    show declared? ("            " ++ toString c.number ++ " => Some(Self::" ++ _ ++ "),") = none
    simp only [String.append_assoc]
    exact declared?_deep _
  rw [List.filterMap_eq_nil_iff]
  intro line hline
  simp only [enumEnd, List.mem_append, List.mem_cons, List.mem_map, List.not_mem_nil, or_false]
    at hline
  rcases hline with ((rfl | rfl | rfl | rfl | rfl) | ⟨c, -, rfl⟩) | rfl | rfl | rfl | rfl | rfl
  case inl.inl.inr.inr.inl => exact himpl
  case inl.inr => exact hbranch c
  all_goals rfl

/-- An enum declares its name and the kept constants. -/
theorem declarations_enumLines {e : Enumeration}
    (hconstants : ∀ c ∈ e.kept, IsName c.name.toList) :
    (enumLines e).filterMap declared? =
      (.enumeration, typeName e.name) :: e.kept.map fun c => (.variant, typeName c.name) := by
  rw [enumLines, List.filterMap_append, List.filterMap_append, declarations_enumStart,
    declarations_enumEnd, List.append_nil, List.filterMap_flatMap, List.map_eq_flatMap]
  exact congrArg _ (List.flatMap_congr fun c hc => declarations_variantLines (hconstants c hc))

/-- All names of what is kept are names. -/
def HasNames (f : SchemaFile) : Prop :=
  ∀ t ∈ keptTypes f, ∀ p ∈ t.1 :: t.2, IsName p.2.toList

variable {f : SchemaFile}

theorem declarations_sourceOf (o : Output) (g : Graph) (h : HasNames f) :
    (sourceOf o g f).lines.filterMap declared? =
      (keptTypes f).flatMap fun t => (t.1 :: t.2).map fun p => (p.1, identOf p.1 p.2) := by
  have hhead : (o.head (some f)).filterMap declared? = [] := by
    have hmarker : declared? (o.marker f) = none := by
      show declared? ("// generated from " ++ _ ++ " by " ++ _ ++ ", NEVER CHANGE!!") = none
      simp only [String.append_assoc]
      exact declared?_outside (show "// generated from ".toList = '/' :: _ from rfl) (by decide)
        (by decide) _
    have hblank : declared? "" = none := rfl
    rw [Output.head, List.filterMap_cons_none hmarker, List.filterMap_cons_none hblank,
      List.filterMap_nil]
  have hstructs : ∀ m ∈ f.messages.filter (!·.isSkipped), (structLines g m).filterMap declared? =
      ((.struct, m.name) :: m.kept.map fun x => (.field, x.name)).map
        fun p => (p.1, identOf p.1 p.2) := by
    intro m hm
    have hnames := h _ (List.mem_append_left _ (List.mem_map.2 ⟨m, hm, rfl⟩))
    rw [declarations_structLines g fun x hx => hnames (.field, x.name)
      (List.mem_cons_of_mem _ (List.mem_map.2 ⟨x, hx, rfl⟩)), List.map_cons, List.map_map]
    rfl
  have henums : ∀ e ∈ f.enums.filter (!·.isSkipped), (enumLines e).filterMap declared? =
      ((.enumeration, e.name) :: e.kept.map fun c => (.variant, c.name)).map
        fun p => (p.1, identOf p.1 p.2) := by
    intro e he
    have hnames := h _ (List.mem_append_right _ (List.mem_map.2 ⟨e, he, rfl⟩))
    rw [declarations_enumLines fun c hc => hnames (.variant, c.name)
      (List.mem_cons_of_mem _ (List.mem_map.2 ⟨c, hc, rfl⟩)), List.map_cons, List.map_map]
    rfl
  rw [sourceOf, List.filterMap_append, hhead, List.nil_append, List.filterMap_append,
    List.filterMap_flatMap, List.filterMap_flatMap, List.flatMap_congr hstructs,
    List.flatMap_congr henums, keptTypes, List.flatMap_append, List.flatMap_map, List.flatMap_map]

/-! ## 2. Identifiers of use -/

/-- The members of a type stand for the same. -/
theorem role_of_keptTypes {t : (Role × String) × List (Role × String)} (ht : t ∈ keptTypes f) :
    (∀ p ∈ t.2, p.1 = .field) ∨ ∀ p ∈ t.2, p.1 = .variant := by
  rcases List.mem_append.1 ht with hstruct | henum
  · obtain ⟨m, -, rfl⟩ := List.mem_map.1 hstruct
    exact .inl (List.forall_mem_map.2 fun _ _ => rfl)
  · obtain ⟨e, -, rfl⟩ := List.mem_map.1 henum
    exact .inr (List.forall_mem_map.2 fun _ _ => rfl)

theorem declaresNames_of_hasNames (o : Output) (g : Graph) (h : HasNames f) :
    DeclaresNames o g f where
  declared := declarations_sourceOf o g h
  usable := by
    rintro t ht ⟨role, name⟩ hp
    have hname := h t ht _ hp
    cases role with
    | field => exact isIdentifier_fieldName_iff hname
    | _ => exact isIdentifier_typeName_iff hname
  same := by
    rintro t ht ⟨_, a⟩ ha ⟨_, b⟩ hb
    have hnameA := h t ht _ (List.mem_cons_of_mem _ ha)
    have hnameB := h t ht _ (List.mem_cons_of_mem _ hb)
    rcases role_of_keptTypes ht with hrole | hrole
    · cases hrole _ ha
      cases hrole _ hb
      exact fieldName_eq_iff a b
    · cases hrole _ ha
      cases hrole _ hb
      exact typeName_eq_iff hnameA hnameB
  alike := by
    rintro t ht ⟨_, a⟩ ha ⟨_, b⟩ hb
    have hnameA := h t ht _ (List.mem_cons_of_mem _ ha)
    have hnameB := h t ht _ (List.mem_cons_of_mem _ hb)
    rcases role_of_keptTypes ht with hrole | hrole
    · cases hrole _ ha
      cases hrole _ hb
      exact letters_of_fieldName_eq hnameA hnameB
    · cases hrole _ ha
      cases hrole _ hb
      exact letters_of_typeName_eq hnameA hnameB

end Rust

open ReferencesLemmas in
/-- The files of a graph that has grown hold names only. -/
theorem Grown.hasNames {seen : List FileSystem} {root : Path} {g : Graph} (hg : Grown seen root g)
    {i : FileId} {f : SchemaFile} (hf : g.file? i = some f) : Rust.HasNames f := by
  obtain ⟨_, d, -, ⟨fs, -, hholds⟩, hreflects⟩ := hg.contents hf
  have hprintable := printable_of_holds hholds
  intro t ht p hp
  rcases List.mem_append.1 ht with hstruct | henum
  · obtain ⟨m, hm, rfl⟩ := List.mem_map.1 hstruct
    obtain ⟨decl, hdecl, hmessage⟩ :=
      exists_right_of_forall₂ hreflects.messages (List.mem_filter.1 hm).1
    rcases List.mem_cons.1 hp with rfl | hmember
    · have hname : m.name = decl.name := congrArg Described.name hmessage.described
      exact hname ▸ (hprintable.messages decl hdecl).described.name
    · obtain ⟨x, hx, rfl⟩ := List.mem_map.1 hmember
      obtain ⟨field, hfield, hbuilt⟩ :=
        exists_right_of_forall₂ hmessage.fields (List.mem_filter.1 hx).1
      have hname : x.name = field.name := congrArg Described.name hbuilt.described
      exact hname ▸ ((hprintable.messages decl hdecl).members field hfield).described.name
  · obtain ⟨e, he, rfl⟩ := List.mem_map.1 henum
    have hmem := (List.mem_filter.1 he).1
    rw [hreflects.enums] at hmem
    obtain ⟨decl, hdecl, rfl⟩ := List.mem_map.1 hmem
    rcases List.mem_cons.1 hp with rfl | hmember
    · exact (hprintable.enums decl hdecl).described.name
    · obtain ⟨c, hc, rfl⟩ := List.mem_map.1 hmember
      obtain ⟨⟨constant, index⟩, hindexed, rfl⟩ := List.mem_map.1 (List.mem_filter.1 hc).1
      have hconstant : constant ∈ decl.members := (List.mem_zipIdx' hindexed).2 ▸ List.getElem_mem _
      exact ((hprintable.enums decl hdecl).members constant hconstant).described.name

theorem Rust.declarations_indexOf (o : Output) (i : List String × List String) :
    (indexOf o i).lines.filterMap declared? = [] := by
  have hmarker : declared? s!"// generated by {o.tool}, NEVER CHANGE!!" = none := by
    show declared? ("// generated by " ++ o.tool ++ ", NEVER CHANGE!!") = none
    rw [String.append_assoc]
    exact DeclaredNamesLemmas.declared?_outside (show "// generated by ".toList = '/' :: _ from rfl)
      (by decide) (by decide) _
  have hmodule (name : String) : declared? s!"pub mod {name};" = none := by
    show declared? ("pub mod " ++ name ++ ";") = none
    simp only [declared?, Text.inside?, String.toList_append]
    rfl
  rw [List.filterMap_eq_nil_iff]
  intro line hline
  rcases List.mem_append.1 hline with hhead | hmodules
  · rcases List.mem_pair.1 hhead with rfl | rfl
    · exact hmarker
    · rfl
  · obtain ⟨name, -, rfl⟩ := List.mem_map.1 hmodules
    exact hmodule name

/-- For every run of a session for Rust that succeeds: what its sources declare, which identifiers
in them are none of the language, and which members of one type share their identifier. The indexes
declare no types. -/
theorem Rust.declared_names {settings : Settings} {dir : Path} {fs fs' : FileSystem}
    {plan : Plan (List Child)} {s : Session (List Child)} {roots : List Path} {stats : Stats}
    (hstart : (Session.start settings dir target extension []).run fs = (.ok (plan, s), fs'))
    (hrun : (Session.run plan roots s).1 = .ok stats) :
    s.workspace.Writes
        ((s.told plan roots).map (sourceOf s.workspace.output.blank
            (Session.run plan roots s).2.catalog.graph) ++
          (indexes (neededBy (s.told plan roots))).map (indexOf s.workspace.output.blank))
        (Session.run plan roots s).2.workspace ∧
      (∀ f ∈ s.told plan roots, DeclaresNames s.workspace.output.blank
        (Session.run plan roots s).2.catalog.graph f) ∧
      ∀ i ∈ indexes (neededBy (s.told plan roots)),
        (indexOf s.workspace.output.blank i).lines.filterMap declared? = [] := by
  obtain ⟨hplan, hfresh, hnotes, hgrown, -⟩ := Session.of_start hstart
  refine ⟨writes_run hplan hfresh (Session.closed_of_start hstart) hnotes hrun, fun f hf => ?_,
    fun i _ => declarations_indexOf _ i⟩
  obtain ⟨_, _, _, _, hgraph, hfile⟩ := CollisionsLemmas.grown_of_told hgrown hf
  exact declaresNames_of_hasNames _ _ (hgraph.hasNames hfile)

/-! ### A file whose names do not all give identifiers -/

/-- A message with a field that is called like a word kept for later and with two fields that differ
in case only, and a constant whose name is a number behind an underscore. -/
def oddNames : String :=
  "package p; message M \x7bint32 try=1; int32 fooBar=2; int32 foo_bar=3;\x7d enum E \x7b_1=1;\x7d"

/-- The file before a session. -/
def oddSystem : FileSystem := schemaSystem [("a", .text oddNames)]

/-- The file as it is loaded. -/
def oddFile : SchemaFile :=
  { SchemaFile.empty 0 ⟨"/s"⟩ ⟨"a"⟩ ⟨"/s/a"⟩ with
    headers := [⟨.package, "package", "p"⟩]
    messages := [⟨⟨"M", none, false⟩, 0,
      [⟨⟨"try", none, false⟩, 1, 0, .base .int32, .singular⟩,
        ⟨⟨"fooBar", none, false⟩, 2, 1, .base .int32, .singular⟩,
        ⟨⟨"foo_bar", none, false⟩, 3, 2, .base .int32, .singular⟩]⟩]
    enums := [⟨⟨"E", none, false⟩, 0, [⟨⟨"_1", none, false⟩, 1, 0⟩]⟩]
    definitions := ⟨[("E", ⟨0, .enumeration, 0⟩), ("M", ⟨0, .message, 0⟩)], by decide⟩ }

/-- The session at its start. -/
def oddSession : Session (List Rust.Child) := schemaSession Rust.extension [] [("a", .text oddNames)]

theorem start_odd :
    (Session.start twinSettings ⟨"/s"⟩ Rust.target Rust.extension []).run oddSystem =
      (.ok (twinPlan Rust.target, oddSession), schemaSystemWithOutput [("a", .text oddNames)]) :=
  start_schemas _ _ _ _

theorem run_odd :
    (Session.run (twinPlan Rust.target) [⟨"/s/a"⟩] oddSession).1 = .ok ⟨1, 1, 1, 0⟩ ∧
      (Session.run (twinPlan Rust.target) [⟨"/s/a"⟩] oddSession).2.catalog.graph = ⟨[oddFile]⟩ ∧
      oddSession.told (twinPlan Rust.target) [⟨"/s/a"⟩] = [oddFile] := by
  have hindexes : Rust.indexes [⟨[], "p"⟩, ⟨["p"], "a"⟩] = [([], ["p"]), (["p"], ["a"])] := by
    cbv
  have hruns : ∃ r ∈ oddSession.runWithin (twinPlan Rust.target) 1
      (Rust.finishWith [([], ["p"]), (["p"], ["a"])]) [⟨"/s/a"⟩],
        r.2.1 = [⟨[], "p"⟩, ⟨["p"], "a"⟩] ∧ r.2.2.1 = .ok ⟨1, 1, 1, 0⟩ ∧
        r.2.2.2.catalog.graph = ⟨[oddFile]⟩ ∧
        SchemaFile.told Rust.target.refuses (r.1.flatMap Visit.files) = [oddFile] := by
    decide +kernel
  obtain ⟨⟨_, _, _⟩, hwithin, rfl, h⟩ := hruns
  obtain ⟨hrun, hvisited⟩ :=
    Session.run_of_within hwithin (Rust.finish_eq_finishWith hindexes)
  rwa [hrun, Session.told, hvisited]

/-- The source declares a field that is a word of the language, two fields of one identifier and a
variant that is a number. -/
theorem Rust.odd_names_declared :
    ∃ plan s fs' stats source indexFiles,
      (Session.start twinSettings ⟨"/s"⟩ target extension []).run oddSystem =
        (.ok (plan, s), fs') ∧
      (Session.run plan [⟨"/s/a"⟩] s).1 = .ok stats ∧
      s.workspace.Writes (source :: indexFiles) (Session.run plan [⟨"/s/a"⟩] s).2.workspace ∧
      source.path = ⟨"/o/p/a.rs"⟩ ∧
      source.lines.filterMap declared? = [(.struct, "M"), (.field, "try"), (.field, "foo_bar"),
        (.field, "foo_bar"), (.enumeration, "E"), (.variant, "1")] ∧
      ¬ IsIdentifier "try" ∧ ¬ IsIdentifier "1" := by
  have hwrites := writes_run rfl rfl rfl rfl run_odd.1
  rw [run_odd.2.2, run_odd.2.1] at hwrites
  have hnames : HasNames oddFile := by
    unfold HasNames Token.IsName
    decide
  have hdeclared := declarations_sourceOf oddSession.workspace.output.blank ⟨[oddFile]⟩ hnames
  exact ⟨_, _, _, _, _, _, start_odd, run_odd.1, hwrites, by decide, hdeclared.trans (by decide),
    by decide, by decide⟩

theorem Rust.declared_names_odd :
    ∃ plan s fs' stats,
      (Session.start twinSettings ⟨"/s"⟩ target extension []).run oddSystem =
        (.ok (plan, s), fs') ∧
      (Session.run plan [⟨"/s/a"⟩] s).1 = .ok stats ∧
      oddFile ∈ s.told plan [⟨"/s/a"⟩] ∧
      DeclaresNames s.workspace.output.blank (Session.run plan [⟨"/s/a"⟩] s).2.catalog.graph
        oddFile := by
  have htold : oddFile ∈ oddSession.told (twinPlan target) [⟨"/s/a"⟩] := by
    rw [run_odd.2.2]
    exact List.mem_singleton_self oddFile
  obtain ⟨-, hnames, -⟩ := Rust.declared_names start_odd run_odd.1
  exact ⟨_, _, _, _, start_odd, run_odd.1, htold, hnames oddFile htold⟩

end SchemaGen
