import SchemaGen.Proofs.Identifiers
import SchemaGen.Proofs.RecordedPackages
import SchemaGen.Proofs.RoundTrip

/-!
# Declared names and references to them

One kind of word serves for package names, type names and declared names, so a declared name can
have dots. A lookup cuts a type name at its last dot and takes what stands in front for a package.
What it looks for has no dot, and so a definition with a dotted name can be referred to by nothing.

Results:
1. `accepted_iff`: the names that the texts of schema files can declare.
2. `Scope.lookup?_package`: the package and a name without dots lead to the file's own definition.
3. `Scope.Sees.not_mem_of_lookup?`: no lookup leads to a dotted name.
4. `declared_names_found`: the exact extent of both for all texts and all loaded files.
-/

namespace SchemaGen

open Rust (IsWordlike)
open ReferencesLemmas

/-! ## Definitions -/

/-- What a document gives names to. -/
inductive NamedPart
  | message
  | field
  | enumeration
  | constant
  deriving DecidableEq, Repr

/-- The names that a document gives to its parts of one kind. -/
def Document.namesOf (d : Document) : NamedPart → List String
  | .message => d.messages.map (·.name)
  | .field => d.messages.flatMap fun m => m.members.map (·.name)
  | .enumeration => d.enums.map (·.name)
  | .constant => d.enums.flatMap fun e => e.members.map (·.name)

/-- The name can stand where a part of this kind is declared. -/
def NamedPart.Accepts (part : NamedPart) (name : String) : Prop :=
  Token.IsName name.toList ∧ (part = .constant → name ∉ reservedWords)

/-- The file `f` of the catalog was filled in the scope `s`. -/
def Catalog.FilledIn (c : Catalog) (seen : List FileSystem) (f : SchemaFile) (s : Scope) : Prop :=
  ∃ g l d, BuiltFrom seen c.root g l d f ∧ g.files <+: c.graph.files ∧ s = f.scope g d

namespace DottedNamesLemmas

/-! ## 1. Texts -/

theorem accepts_of_printable {d : Document} (hd : d.Printable) {part : NamedPart} {name : String}
    (h : name ∈ d.namesOf part) : part.Accepts name := by
  cases part with
  | message =>
    obtain ⟨m, hm, rfl⟩ := List.mem_map.1 h
    exact ⟨(hd.messages m hm).described.name, nofun⟩
  | field =>
    obtain ⟨m, hm, hname⟩ := List.mem_flatMap.1 h
    obtain ⟨x, hx, rfl⟩ := List.mem_map.1 hname
    exact ⟨((hd.messages m hm).members x hx).described.name, nofun⟩
  | enumeration =>
    obtain ⟨e, he, rfl⟩ := List.mem_map.1 h
    exact ⟨(hd.enums e he).described.name, nofun⟩
  | constant =>
    obtain ⟨e, he, hname⟩ := List.mem_flatMap.1 h
    obtain ⟨c, hc, rfl⟩ := List.mem_map.1 hname
    have hc := (hd.enums e he).members c hc
    exact ⟨hc.described.name, fun _ => hc.name⟩

theorem namesOf_unplaced (d : Document) (part : NamedPart) :
    d.unplaced.namesOf part = d.namesOf part := by
  cases part <;>
    simp [Document.namesOf, Document.unplaced, Declaration.unplaced, List.flatMap_map,
      Function.comp_def, FieldDecl.unplaced, ConstantDecl.unplaced]

/-- A document with this name for a part of each kind, or of each but constants. -/
def documentOf (part : NamedPart) (name : String) : Document :=
  let field : FieldDecl := ⟨⟨name, none, false⟩, 1, .named "int32", .singular, .start⟩
  let constant : ConstantDecl := ⟨⟨name, none, false⟩, 1, .start⟩
  ⟨[], [⟨⟨name, none, false⟩, [field], .start⟩],
    [⟨⟨name, none, false⟩, if part = .constant then [constant] else [], .start⟩]⟩

theorem mem_namesOf_documentOf (part : NamedPart) (name : String) :
    name ∈ (documentOf part name).namesOf part := by
  cases part <;> simp [documentOf, Document.namesOf]

theorem printable_documentOf {part : NamedPart} {name : String} (h : part.Accepts name) :
    (documentOf part name).Printable := by
  have hdescribed : Described.Printable ⟨name, none, false⟩ := ⟨h.1, nofun⟩
  have hone : FitsInt32 1 := ⟨by decide, by decide⟩
  refine ⟨nofun, ?_, ?_⟩
  · rintro m (_ | ⟨_, ⟨⟩⟩)
    refine ⟨hdescribed, ?_⟩
    rintro x (_ | ⟨_, ⟨⟩⟩)
    exact ⟨hdescribed, hone, rfl, by decide⟩
  · rintro e (_ | ⟨_, ⟨⟩⟩)
    refine ⟨hdescribed, fun c hc => ?_⟩
    split at hc
    · next hpart =>
      obtain rfl := List.mem_singleton.1 hc
      exact ⟨hdescribed, hone, h.2 hpart⟩
    · cases hc

/-- The names that texts can declare. Where a constant is declared, the words that start something
else are refused. -/
theorem accepted_iff (part : NamedPart) (name : String) :
    (∃ text d, Document.ofText text = .ok d ∧ name ∈ d.namesOf part) ↔ part.Accepts name := by
  constructor
  · rintro ⟨text, d, hread, hname⟩
    exact accepts_of_printable (Document.printable_of_ofText hread) hname
  · intro h
    obtain ⟨d, hread, hsame⟩ :=
      RoundTripLemmas.ofText_render_of_printable (printable_documentOf h)
    refine ⟨_, d, hread, ?_⟩
    rw [← namesOf_unplaced, hsame, namesOf_unplaced]
    exact mem_namesOf_documentOf part name

theorem isWordlike_iff {name : String} (h : Token.IsName name.toList) :
    IsWordlike name ↔ '.' ∉ name.toList := by
  rw [IsWordlike, Rust.all_isNameChar_iff h, and_iff_right_iff_imp]
  intro hdot
  obtain ⟨c, cs, hname, rfl | hstart⟩ := Token.exists_start_of_isName h
  · exact absurd (by simp [hname]) hdot
  · simp [hname, hstart]

end DottedNamesLemmas

open DottedNamesLemmas

/-! ## 2. Lookups -/

/-- With the file's package in front, a name without dots means the file's own definition. -/
theorem Scope.lookup?_package {s : Scope} {package name : String} {id : DefinitionId}
    (hpackage : s.package = some package) (hisName : Token.IsName package.toList)
    (hfront : package.toList.head? ≠ some '.') (hdot : '.' ∉ name.toList)
    (hown : s.own? name = some id) :
    s.lookup? (package ++ "." ++ name) = some (some package, id) := by
  obtain ⟨c, cs, hchars, -⟩ := Token.exists_start_of_isName hisName
  have hc : c ≠ '.' := by simpa [hchars] using hfront
  have hbare : bareName (package ++ "." ++ name) = package ++ "." ++ name := by
    simp [bareName, ← String.toList_inj, hchars, hc]
  have hsplit : Text.splitLast? '.' (package ++ "." ++ name) = some (package, name) :=
    Text.splitLast?_append (by simp) hdot
  rw [lookup?, hbare, hsplit]
  simp [hpackage, hown]

section Loaded

variable {seen : List FileSystem} {root : Path} {g : Graph} {i : FileId} {f : SchemaFile}
  {s : Scope} {name : String} {id : DefinitionId} (hsees : s.Sees g f) (hg : Grown seen root g)
  (hf : g.file? i = some f) (howns : f.Owns name id)

include hsees hg hf howns

/-- However a definition is spelled that is found, its name has no dots. -/
theorem Scope.Sees.not_mem_of_lookup? {spelling : String} {qualifier : Option String}
    (hlookup : s.lookup? spelling = some (qualifier, id)) : '.' ∉ name.toList := by
  obtain ⟨short, ⟨hshort, -⟩, hchosen⟩ := hsees.chosen hlookup
  obtain ⟨-, d, hd, rfl⟩ := hchosen.leads hg hf
  obtain ⟨-, d', hd', rfl⟩ := definition?_of_owns hf (hg.id_eq hf) howns
  rw [hd] at hd'
  rwa [← Option.some.inj hd']

theorem Scope.Sees.own?_eq_some : s.own? name = some id := by
  cases hown : s.own? name with
  | none => exact absurd howns.mem_names (hsees.lacks name hown)
  | some found =>
    rw [(hg.indexed i f hf).eq_of_owns (hsees.owns name found hown) howns]

end Loaded

/-! ## 3. Texts and catalogs -/

/-- A text of a schema file can declare exactly the dotted names, with some words left out for
constants, and those of them that are made of letters, digits and underscores alone are the ones
without dots. A loaded definition can be referred to from its own file exactly if its name is one of
these: the package in front of it then leads to this very definition, and otherwise no type name
does. -/
theorem declared_names_found (part : NamedPart) (name : String) :
    ((∃ text d, Document.ofText text = .ok d ∧ name ∈ d.namesOf part) ↔ part.Accepts name) ∧
    (part.Accepts name → (IsWordlike name ↔ '.' ∉ name.toList)) ∧
    ∀ fs dir start seen c, Catalog.ofRoot fs dir = .ok start → ReachedOver start seen c →
      ∀ i f package id, c.graph.file? i = some f → f.package? = some package → f.Owns name id →
        (∃ s, c.FilledIn seen f s) ∧ ∀ s, c.FilledIn seen f s →
          (s.lookup? (package ++ "." ++ name) = some (some package, id) ↔ IsWordlike name) ∧
          ((∃ written qualifier, s.lookup? written = some (qualifier, id)) ↔ IsWordlike name) := by
  refine ⟨accepted_iff part name, fun h => isWordlike_iff h.1, ?_⟩
  intro fs dir start seen c hstart hreached i f package id hf hpackage howns
  obtain ⟨hc, -⟩ := Catalog.grown_of_ofRoot hstart hreached
  constructor
  · obtain ⟨g, l, d, hfrom, hgrows, -⟩ := hc.graph.origin hf
    exact ⟨_, g, l, d, hfrom, hgrows, rfl⟩
  rintro _ ⟨g, l, d, hfrom, hgrows, rfl⟩
  obtain ⟨imported, hbuild⟩ := hfrom.build
  obtain ⟨hsees, -⟩ := sees_of_build hbuild hfrom.lt hgrows hc.graph.indexed
  obtain ⟨hisName, hfront⟩ := hfrom.package hpackage
  rw [isWordlike_iff ((hc.graph.named hf).names name howns.mem_names)]
  have hfound (hdot : '.' ∉ name.toList) :
      (f.scope g d).lookup? (package ++ "." ++ name) = some (some package, id) :=
    Scope.lookup?_package hpackage hisName hfront hdot (hsees.own?_eq_some hc.graph hf howns)
  exact ⟨⟨hsees.not_mem_of_lookup? hc.graph hf howns, hfound⟩,
    fun ⟨_, _, hlookup⟩ => hsees.not_mem_of_lookup? hc.graph hf howns hlookup,
    fun hdot => ⟨_, _, hfound hdot⟩⟩

/-- A schema file with two messages, of which one has a dotted name. -/
def dottedText : String :=
  "package p; message a.b \x7b \x7d message M \x7b \x7d"

/-- A directory with this file. -/
def dottedSystem : FileSystem :=
  ⟨.directory .full [("s", .directory .full [("a", .text dottedText)])], []⟩

/-- What the file holds. -/
def dottedFile : SchemaFile :=
  { SchemaFile.empty 0 ⟨"/s"⟩ ⟨"a"⟩ ⟨"/s/a"⟩ with
    headers := [⟨.package, "package", "p"⟩]
    messages := [⟨⟨"a.b", none, false⟩, 0, []⟩, ⟨⟨"M", none, false⟩, 0, []⟩]
    definitions := ⟨[("M", ⟨0, .message, 1⟩), ("a.b", ⟨0, .message, 0⟩)], by decide⟩ }

/-- The catalog with the file loaded. -/
def dottedCatalog : Catalog :=
  ⟨⟨"/s"⟩, ⟨[dottedFile]⟩, [(⟨"/s/a"⟩, 0)], []⟩

theorem dotted_reached :
    Catalog.ofRoot dottedSystem ⟨"/s"⟩ = .ok (nothingLoaded []) ∧
      ReachedOver (nothingLoaded []) [dottedSystem] dottedCatalog := by
  have hsteps : Catalog.ofRoot dottedSystem ⟨"/s"⟩ = .ok (nothingLoaded []) ∧
      Catalog.loadWithin dottedSystem 1 ⟨"a"⟩ (nothingLoaded []) = some (.ok 0, dottedCatalog) := by
    decide +kernel
  have hreached : ReachedOver (nothingLoaded []) [dottedSystem] _ := .load _ ⟨"a"⟩ .start
  rw [Catalog.load_of_within hsteps.2] at hreached
  exact ⟨hsteps.1, hreached⟩

/-- The text is accepted and loaded, and the dotted name is neither made of letters, digits and
underscores alone nor found behind its package. -/
theorem dotted_name_lost :
    (∃ d ∈ (Document.ofText dottedText).toOption, "a.b" ∈ d.namesOf .message ∧
      ¬ IsWordlike "a.b" ∧ (dottedFile.scope .empty d).lookup? "p.a.b" = none) ∧
    ReachedOver (nothingLoaded []) [dottedSystem] dottedCatalog :=
  ⟨by decide +kernel, dotted_reached.2⟩

/-- The message `M` is found behind its package, and `a.b` by no name at all. -/
theorem declared_names_found_dotted :
    Catalog.ofRoot dottedSystem ⟨"/s"⟩ = .ok (nothingLoaded []) ∧
    ReachedOver (nothingLoaded []) [dottedSystem] dottedCatalog ∧
    dottedCatalog.graph.file? 0 = some dottedFile ∧ dottedFile.package? = some "p" ∧
    dottedFile.Owns "M" ⟨0, .message, 1⟩ ∧ dottedFile.Owns "a.b" ⟨0, .message, 0⟩ ∧
    ∃ s, dottedCatalog.FilledIn [dottedSystem] dottedFile s ∧
      s.lookup? "p.M" = some (some "p", ⟨0, .message, 1⟩) ∧
      ∀ spelling qualifier, s.lookup? spelling ≠ some (qualifier, ⟨0, .message, 0⟩) := by
  obtain ⟨hroot, hreached⟩ := dotted_reached
  have hfile : dottedCatalog.graph.file? 0 = some dottedFile := rfl
  have hpackage : dottedFile.package? = some "p" := by decide
  have hplain : dottedFile.Owns "M" ⟨0, .message, 1⟩ := ⟨rfl, _, rfl, rfl⟩
  have hdotted : dottedFile.Owns "a.b" ⟨0, .message, 0⟩ := ⟨rfl, _, rfl, rfl⟩
  obtain ⟨⟨s, hs⟩, hfound⟩ := (declared_names_found .message "M").2.2 _ _ _ _ _ hroot hreached 0
    dottedFile "p" _ hfile hpackage hplain
  obtain ⟨-, hlost⟩ := (declared_names_found .message "a.b").2.2 _ _ _ _ _ hroot hreached 0
    dottedFile "p" _ hfile hpackage hdotted
  refine ⟨hroot, hreached, hfile, hpackage, hplain, hdotted, s, hs, ?_, ?_⟩
  · exact (hfound s hs).1.2 (by decide)
  · intro spelling qualifier hlookup
    exact absurd ((hlost s hs).2.1 ⟨spelling, qualifier, hlookup⟩) (by decide)

end SchemaGen
