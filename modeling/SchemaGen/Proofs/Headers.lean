import SchemaGen.Document.Parser
import SchemaGen.Proofs.Filling
import Mathlib.Data.List.Induction

/-!
# The headers of a document

A file keeps headers by name, so its package is the header named `package`. For a document that was
read from a text this is the value of its last package statement: no other statement is kept among
the headers under this name.

Results:
1. `Document.named_of_ofText`: level and package statements are named by their keywords.
2. `Document.package?_addHeaders`: the package of a file is that of the document.
-/

namespace SchemaGen

/-! ## Definitions -/

/-- The package that a document states, which is that of its last package statement. -/
def Document.package? (d : Document) : Option String :=
  (d.headers.filter (·.kind = .package)).getLast?.map (·.value)

/-- Whether a header has the name that its kind demands. -/
def Header.IsNamed (h : Header) : Prop :=
  h.kind = .level ∨ h.kind = .package → h.name = h.kind.keyword

/-! ## 1. Reading headers -/

namespace Document

/-- All that `x` can read satisfies `P`. -/
def Reads {α : Type} (x : Parser α) (P : α → Prop) : Prop :=
  ∀ c a c', x c = .ok (a, c') → P a

variable {α : Type} {P : α → Prop}

theorem reads_pure {a : α} (h : P a) : Reads (pure a) P := by
  rintro c _ _ ⟨⟩
  exact h

theorem reads_bind {β : Type} {P : β → Prop} {x : Parser α} {f : α → Parser β}
    (h : ∀ a, Reads (f a) P) : Reads (x >>= f) P := by
  intro c b c' hb
  obtain ⟨⟨a, c₁⟩, -, hf⟩ := FillingLemmas.bind_eq_ok.1 hb
  exact h a c₁ b c' hf

theorem reads_ite {p : Prop} [Decidable p] {x y : Parser α} (hx : Reads x P) (hy : Reads y P) :
    Reads (if p then x else y) P := by
  split
  · exact hx
  · exact hy

theorem reads_failAt (t : Token) (cause : SyntaxCause) : Reads (failAt t cause) P := by
  rintro c _ _ ⟨⟩

theorem reads_collect {item : Parser (Option α)}
    (h : Reads item fun read => ∀ a, read = some a → P a) :
    Reads (collect item) fun items => ∀ a ∈ items, P a := by
  intro c items c' hc
  induction c using collect.induct item generalizing items c' with
  | case1 c e hitem =>
    rw [collect, hitem] at hc
    cases hc
  | case2 c next hitem =>
    rw [collect, hitem] at hc
    cases hc
    exact fun _ => nofun
  | case3 c a next hitem hless e hrest ih =>
    rw [collect, hitem] at hc
    simp only [if_pos hless, hrest] at hc
    cases hc
  | case4 c a next hitem hless rest fin hrest ih =>
    rw [collect, hitem] at hc
    simp only [if_pos hless, hrest] at hc
    cases hc
    intro a' ha'
    rcases List.mem_cons.1 ha' with rfl | ha'
    · exact h c (some a') next hitem a' rfl
    · exact ih rest fin hrest a' ha'
  | case5 c a next hitem hless =>
    rw [collect, hitem] at hc
    simp only [if_neg hless] at hc
    cases hc

/-- A statement that is a header is named as it should be. -/
def Statement.IsNamed (s : Statement) : Prop :=
  ∀ h, s.header? = some h → h.IsNamed

theorem reads_statement : Reads statement fun read => ∀ s, read = some s → s.IsNamed := by
  have hheader {h : Header} (hnamed : h.IsNamed) :
      ∀ s, some (Statement.header h) = some s → s.IsNamed := by
    rintro _ ⟨⟩ _ ⟨⟩
    exact hnamed
  unfold statement
  refine reads_bind fun before => reads_bind fun t => reads_ite ?_ ?_
  · exact reads_pure fun _ => nofun
  refine reads_bind fun isLevel => reads_ite ?_ ?_
  · refine reads_bind fun _ => reads_bind fun value => reads_bind fun _ => reads_pure ?_
    exact hheader fun _ => rfl
  refine reads_bind fun isPackage => reads_ite ?_ ?_
  · refine reads_bind fun name => reads_bind fun _ => reads_pure ?_
    exact hheader fun _ => rfl
  refine reads_bind fun isImport => reads_ite ?_ ?_
  · have hpath (path : String) : Reads (do
        expect ";"
        pure (some (Statement.header ⟨.importing, path, path⟩))) fun read =>
          ∀ s, read = some s → s.IsNamed :=
      reads_bind fun _ => reads_pure (hheader nofun)
    refine reads_bind fun isPublic => reads_ite ?_ ?_
    · exact reads_bind fun _ => reads_bind fun path => hpath path
    · exact reads_bind fun path => hpath path
  refine reads_bind fun isOption => reads_ite ?_ ?_
  · exact reads_bind fun setting => reads_bind fun _ => reads_pure (hheader nofun)
  refine reads_bind fun isMessage => reads_ite ?_ ?_
  · refine reads_bind fun d => reads_pure ?_
    rintro _ ⟨⟩ _ ⟨⟩
  refine reads_bind fun isEnum => reads_ite ?_ (reads_failAt t _)
  refine reads_bind fun d => reads_pure ?_
  rintro _ ⟨⟩ _ ⟨⟩

/-- In a document that was read, level and package statements are named by their keywords. -/
theorem named_of_ofText {text : String} {d : Document} (h : ofText text = .ok d) :
    ∀ header ∈ d.headers, header.IsNamed := by
  unfold ofText at h
  split at h
  · cases h
  next tokens _ =>
  split at h
  · next document hdocument =>
    cases h
    unfold ofTokens at hdocument
    split at hdocument
    · cases hdocument
    next last _ =>
    split at hdocument
    · cases hdocument
    next statements c' hcollect =>
    cases hdocument
    intro header hheader
    obtain ⟨s, hs, hsome⟩ := List.mem_filterMap.1 hheader
    exact reads_collect reads_statement _ _ _ hcollect s hs header hsome
  · cases h
  · cases h

end Document

/-! ## 2. The package of a file -/

theorem Header.valueIn?_cons (name : String) (h : Header) (headers : List Header) :
    Header.valueIn? name (h :: headers) =
      if h.name = name then some h.value else Header.valueIn? name headers := by
  rw [valueIn?, List.find?_cons, valueIn?]
  by_cases hname : h.name = name <;> simp [hname]

theorem Header.valueIn?_putInto (name : String) (h : Header) (headers : List Header) :
    Header.valueIn? name (h.putInto headers) =
      if h.name = name then some h.value else Header.valueIn? name headers := by
  induction headers with
  | nil => exact valueIn?_cons name h []
  | cons other rest ih =>
    rw [putInto]
    split
    · next hsame =>
      rw [valueIn?_cons, valueIn?_cons, hsame]
      split <;> rfl
    · next hother =>
      rw [valueIn?_cons, valueIn?_cons, ih]
      by_cases hname : h.name = name
      · rw [if_pos hname, if_neg (hname ▸ hother), if_pos hname]
      · rw [if_neg hname, if_neg hname]

theorem SchemaFile.package?_addHeader {f : SchemaFile} {h : Header} (hnamed : h.IsNamed) :
    (f.addHeader h).package? = if h.kind = .package then some h.value else f.package? := by
  obtain ⟨kind, name, value⟩ := h
  cases kind with
  | level =>
    have hname : name = "syntax" := hnamed (.inl rfl)
    rw [if_neg nofun, package?, addHeader, Header.valueIn?_putInto, if_neg (by simp [hname])]
    rfl
  | package =>
    have hname : name = "package" := hnamed (.inr rfl)
    rw [if_pos rfl, package?, addHeader, Header.valueIn?_putInto, if_pos hname]
  | importing => rfl
  | option => rfl

/-- A file with the headers of a document has the package that the document states. -/
theorem Document.package?_addHeaders {d : Document} (hnamed : ∀ h ∈ d.headers, h.IsNamed)
    (f : SchemaFile) :
    (d.headers.foldl SchemaFile.addHeader f).package? = d.package?.or f.package? := by
  unfold Document.package?
  generalize d.headers = headers at hnamed ⊢
  induction headers using List.reverseRecOn with
  | nil => rfl
  | append_singleton headers h ih =>
    have hold := ih fun h' hh' => hnamed h' (List.mem_append_left _ hh')
    rw [List.foldl_concat,
      SchemaFile.package?_addHeader (hnamed h (List.mem_append_right _ List.mem_cons_self)), hold,
      List.filter_append, List.filter_singleton]
    by_cases hkind : h.kind = .package
    · simp [hkind]
    · simp [hkind]

end SchemaGen
