import SchemaGen.Json
import SchemaGen.Proofs.Literals

/-!
# The text of a JSON value

A JSON value can be told from its text, also when more text follows: the first character says what
kind of value it is, a literal ends with its closing quote, a number with its last digit, and inside
brackets a comma says that another entry comes. `Unambiguous` states this for anything that is
written, so that what is written one after another can be taken apart again.

Results:
1. `unambiguous_quote`, `unambiguous_int`: literals and numbers.
2. `eq_of_enclose`: the entries between brackets.
3. `unambiguous_pretty`, `render_injective`: values.
-/

namespace SchemaGen

open Text (quote quoteChars escapeChar readBody decimal)

namespace Json

/-! ## Definitions -/

/-- The kinds of values. -/
inductive Kind where
  | null
  | bool
  | int
  | string
  | array
  | object
deriving DecidableEq, Repr

/-- The kind of a value. -/
def kind : Json → Kind
  | null => .null
  | bool _ => .bool
  | int _ => .int
  | string _ => .string
  | array _ => .array
  | object _ => .object

/-- The kind of a value whose text starts with `c`. -/
def kindOfFirst (c : Char) : Kind :=
  if c = 'n' then .null
  else if c = 't' ∨ c = 'f' then .bool
  else if c = '"' then .string
  else if c = '[' then .array
  else if c = '\x7b' then .object
  else .int

/-- A number does not go on in `rest`. -/
def Ends (rest : List Char) : Prop :=
  ∀ c, rest.head? = some c → c.isDigit = false

/-- Where `write` writes `a`, this is seen: no other value, with whatever behind it, gives the same
text. -/
def Unambiguous {α : Type} (write : α → String) (a : α) : Prop :=
  ∀ a' rest rest', Ends rest → Ends rest' →
    (write a).toList ++ rest = (write a').toList ++ rest' → a = a' ∧ rest = rest'

/-- The lines of entries at nesting level `depth`, each with the comma before it. -/
def follow (depth : Nat) (entries : List String) : List Char :=
  entries.flatMap fun entry => ',' :: '\n' :: (indent depth).toList ++ entry.toList

/-! ## 1. Literals and numbers -/

theorem unambiguous_quote (s : String) : Unambiguous quote s := by
  intro s' rest rest' _ _ h
  have hread (s : String) (rest : List Char) :
      readBody (((quote s).toList ++ rest).drop 1) = .ok (s.toList, rest) := by
    have htext : ((quote s).toList ++ rest).drop 1 = s.toList.flatMap escapeChar ++ '"' :: rest := by
      simp [quote, quoteChars]
    rw [htext, Text.readBody_escapes]
  have hsame := hread s rest
  rw [h, hread s' rest'] at hsame
  simp only [Except.ok.injEq, Prod.mk.injEq, String.toList_inj] at hsame
  exact ⟨hsame.1.symm, hsame.2.symm⟩

variable {rest rest' : List Char} {depth : Nat} {left right : String} {c : Char}

theorem eq_of_decimal {n m : Nat} (hrest : Ends rest) (hrest' : Ends rest')
    (h : decimal n ++ rest = decimal m ++ rest') : n = m ∧ rest = rest' := by
  have htake {n : Nat} {rest : List Char} (hrest : Ends rest) :
      (decimal n ++ rest).takeWhile Char.isDigit = decimal n := by
    have hstop : rest.takeWhile Char.isDigit = [] := by
      cases rest with
      | nil => rfl
      | cons c rest => simp [hrest c rfl]
    rw [List.takeWhile_append_of_pos fun c => Text.isDigit_of_mem_decimal, hstop, List.append_nil]
  have hdigits : decimal n = decimal m := by
    rw [← htake hrest, h, htake hrest']
  have hvalue := Text.natural?_decimal n
  rw [hdigits, Text.natural?_decimal] at hvalue
  exact ⟨(Option.some.inj hvalue).symm, List.append_cancel_left (hdigits ▸ h)⟩

theorem decimal_ne_minus {n : Nat} : decimal n ++ rest ≠ '-' :: rest' := by
  obtain ⟨c, cs, hcs, hdigit, -⟩ := Text.exists_cons_decimal n
  rintro h
  rw [hcs, List.cons_append] at h
  obtain rfl := (List.cons.inj h).1
  exact absurd hdigit (by decide)

theorem unambiguous_int (n : Int) : Unambiguous (fun n : Int => toString n) n := by
  intro m rest rest' hrest hrest' h
  cases n with
  | ofNat n =>
    cases m with
    | ofNat m =>
      simp only [Int.ofNat_eq_natCast, Text.toList_toString_nat] at h
      obtain ⟨rfl, hsame⟩ := eq_of_decimal hrest hrest' h
      exact ⟨rfl, hsame⟩
    | negSucc m =>
      simp only [Int.ofNat_eq_natCast, Text.toList_toString_nat, Text.toList_toString_neg] at h
      exact absurd h decimal_ne_minus
  | negSucc n =>
    cases m with
    | ofNat m =>
      simp only [Int.ofNat_eq_natCast, Text.toList_toString_nat, Text.toList_toString_neg] at h
      exact absurd h.symm decimal_ne_minus
    | negSucc m =>
      simp only [Text.toList_toString_neg, List.cons_append] at h
      obtain ⟨hn, hsame⟩ := eq_of_decimal hrest hrest' (List.cons.inj h).2
      exact ⟨congrArg Int.negSucc (Nat.succ.inj hn), hsame⟩

/-! ## 2. Entries between brackets -/

theorem follow_cons (depth : Nat) (entry : String) (entries : List String) :
    follow depth (entry :: entries) =
      ',' :: '\n' :: (indent depth).toList ++ entry.toList ++ follow depth entries := by
  simp [follow]

theorem intercalate_cons (depth : Nat) (entry : String) (entries : List String) :
    [',', '\n'].intercalate (((entry :: entries).map (indent depth ++ ·)).map String.toList) =
      (indent depth).toList ++ entry.toList ++ follow depth entries := by
  induction entries generalizing entry with
  | nil => simp [follow]
  | cons next entries ih =>
    rw [List.map_cons, List.map_cons, List.map_cons, List.map_cons, List.intercalate_cons_cons,
      ← List.map_cons, ← List.map_cons, ih, follow_cons]
    simp

theorem toList_enclose_cons (depth : Nat) (left right entry : String) (entries : List String) :
    (enclose depth left right (entry :: entries)).toList =
      left.toList ++ (follow (depth + 1) (entry :: entries)).tail ++
        '\n' :: ((indent depth).toList ++ right.toList) := by
  rw [enclose, if_neg (by simp), follow_cons]
  simp only [String.toList_append, String.toList_intercalate]
  rw [show ",\n".toList = [',', '\n'] from rfl, intercalate_cons]
  simp

theorem toList_enclose_nil (depth : Nat) (left right : String) :
    (enclose depth left right []).toList = left.toList ++ right.toList :=
  String.toList_append

/-- Texts in brackets that are the same hold the same lines, and the same follows them if the same
follows the lines. -/
theorem follow_of_enclose (hright : right.toList = [c]) (hc : c ≠ '\n')
    {entries entries' : List String}
    (h : (enclose depth left right entries).toList ++ rest =
      (enclose depth left right entries').toList ++ rest') :
    ∃ after after', follow (depth + 1) entries ++ '\n' :: after =
        follow (depth + 1) entries' ++ '\n' :: after' ∧ (after = after' → rest = rest') := by
  have hcons (entry : String) (entries : List String) (rest : List Char) :
      (enclose depth left right (entry :: entries)).toList ++ rest = left.toList ++
        ('\n' :: ((indent (depth + 1)).toList ++ entry.toList ++ follow (depth + 1) entries ++
          '\n' :: ((indent depth).toList ++ c :: rest))) := by
    rw [toList_enclose_cons, follow_cons, hright]
    simp
  have hnil (rest : List Char) :
      (enclose depth left right []).toList ++ rest = left.toList ++ (c :: rest) := by
    rw [toList_enclose_nil, hright, List.append_assoc, List.singleton_append]
  cases entries with
  | nil =>
    rw [hnil] at h
    cases entries' with
    | nil =>
      rw [hnil] at h
      obtain ⟨-, hrest⟩ := List.cons.inj (List.append_cancel_left h)
      exact ⟨rest, rest', by rw [hrest], id⟩
    | cons entry' entries' =>
      rw [hcons] at h
      exact absurd (List.cons.inj (List.append_cancel_left h)).1 hc
  | cons entry entries =>
    rw [hcons] at h
    cases entries' with
    | nil =>
      rw [hnil] at h
      exact absurd (List.cons.inj (List.append_cancel_left h)).1.symm hc
    | cons entry' entries' =>
      rw [hcons] at h
      refine ⟨(indent depth).toList ++ c :: rest, (indent depth).toList ++ c :: rest', ?_, ?_⟩
      · rw [follow_cons, follow_cons]
        simpa using List.append_cancel_left h
      · intro hsame
        exact (List.cons.inj (List.append_cancel_left hsame)).2

theorem ends_follow (depth : Nat) (entries : List String) (after : List Char) :
    Ends (follow depth entries ++ '\n' :: after) := by
  intro c hc
  cases entries with
  | nil =>
    cases hc
    decide
  | cons entry entries =>
    rw [follow_cons] at hc
    cases hc
    decide

/-- Lines can be taken apart into entries that are unambiguous. -/
theorem eq_of_follow {α : Type} {write : α → String} {items items' : List α}
    (hitems : ∀ a ∈ items, Unambiguous write a) {after after' : List Char}
    (h : follow depth (items.map write) ++ '\n' :: after =
      follow depth (items'.map write) ++ '\n' :: after') : items = items' ∧ after = after' := by
  induction items generalizing items' with
  | nil =>
    cases items' with
    | nil => exact ⟨rfl, (List.cons.inj h).2⟩
    | cons a' items' =>
      rw [List.map_cons, follow_cons] at h
      cases h
  | cons a items ih =>
    cases items' with
    | nil =>
      rw [List.map_cons, follow_cons] at h
      cases h
    | cons a' items' =>
      obtain ⟨ha, hrest⟩ := List.forall_mem_cons.1 hitems
      rw [List.map_cons, List.map_cons, follow_cons, follow_cons] at h
      simp only [List.cons_append, List.append_assoc, List.cons.injEq, true_and,
        List.append_cancel_left_eq] at h
      obtain ⟨rfl, hmore⟩ := ha a' _ _ (ends_follow _ _ _) (ends_follow _ _ _) h
      obtain ⟨rfl, hafter⟩ := ih hrest hmore
      exact ⟨rfl, hafter⟩

/-- Brackets can be taken apart into entries that are unambiguous. -/
theorem eq_of_enclose {α : Type} {write : α → String} (hright : right.toList = [c]) (hc : c ≠ '\n')
    {items items' : List α} (hitems : ∀ a ∈ items, Unambiguous write a)
    (h : (enclose depth left right (items.map write)).toList ++ rest =
      (enclose depth left right (items'.map write)).toList ++ rest') :
    items = items' ∧ rest = rest' := by
  obtain ⟨after, after', hfollow, hrest⟩ := follow_of_enclose hright hc h
  obtain ⟨hsame, hafter⟩ := eq_of_follow hitems hfollow
  exact ⟨hsame, hrest hafter⟩

/-! ## 3. Values -/

/-- How the field of an object is written. -/
def prettyField (depth : Nat) (field : String × Json) : String :=
  quote field.1 ++ ": " ++ pretty depth field.2

theorem prettyItems_eq_map (depth : Nat) (items : List Json) :
    prettyItems depth items = items.map (pretty depth) := by
  induction items with
  | nil => rfl
  | cons item items ih => rw [prettyItems, ih, List.map_cons]

theorem prettyFields_eq_map (depth : Nat) (fields : List (String × Json)) :
    prettyFields depth fields = fields.map (prettyField depth) := by
  induction fields with
  | nil => rfl
  | cons field fields ih => rw [prettyFields, ih, List.map_cons, prettyField]

theorem kindOfFirst_toString (n : Int) :
    (toString n).toList.head?.map kindOfFirst = some .int := by
  have hdigit {c : Char} (hc : c.isDigit = true) : kindOfFirst c = .int := by
    have hne {d : Char} (hd : d.isDigit = false) : c ≠ d := by
      rintro rfl
      rw [hc] at hd
      cases hd
    simp [kindOfFirst, hne (d := 'n') (by decide), hne (d := 't') (by decide),
      hne (d := 'f') (by decide), hne (d := '"') (by decide), hne (d := '[') (by decide),
      hne (d := '\x7b') (by decide)]
  cases n with
  | ofNat n =>
    obtain ⟨c, cs, hcs, hc, -⟩ := Text.exists_cons_decimal n
    rw [Int.ofNat_eq_natCast, Text.toList_toString_nat, hcs]
    exact congrArg some (hdigit hc)
  | negSucc n =>
    rw [Text.toList_toString_neg]
    rfl

theorem head?_enclose {entries : List String} (hleft : left.toList = [c]) :
    (enclose depth left right entries).toList.head? = some c := by
  cases entries with
  | nil => rw [toList_enclose_nil, hleft]; rfl
  | cons entry entries => rw [toList_enclose_cons, hleft]; rfl

/-- The first character of a text says what kind of value it is. -/
theorem kindOfFirst_pretty (depth : Nat) (j : Json) :
    (pretty depth j).toList.head?.map kindOfFirst = some j.kind := by
  cases j with
  | null =>
    rw [pretty]
    rfl
  | bool value =>
    rw [pretty]
    cases value <;> rfl
  | int value => exact kindOfFirst_toString value
  | string value =>
    rw [pretty, quote, String.toList_ofList]
    rfl
  | array items =>
    rw [pretty, head?_enclose (c := '[') rfl]
    rfl
  | object fields =>
    rw [pretty, head?_enclose (c := '\x7b') rfl]
    rfl

theorem kind_of_pretty {j j' : Json}
    (h : (pretty depth j).toList ++ rest = (pretty depth j').toList ++ rest') :
    j.kind = j'.kind := by
  have hfirst (j : Json) (rest : List Char) :
      ((pretty depth j).toList ++ rest).head?.map kindOfFirst = some j.kind := by
    have hkind := kindOfFirst_pretty depth j
    rw [List.head?_append]
    cases hhead : (pretty depth j).toList.head? with
    | none =>
      rw [hhead] at hkind
      cases hkind
    | some c => rwa [hhead] at hkind
  have hsame := hfirst j rest
  rw [h, hfirst] at hsame
  exact (Option.some.inj hsame).symm

mutual

/-- The text of a value says which value it is. -/
theorem unambiguous_pretty (depth : Nat) : ∀ j : Json, Unambiguous (pretty depth) j
  | null => by
    intro j' rest rest' _ _ h
    cases j' with
    | null => exact ⟨rfl, List.append_cancel_left h⟩
    | _ => cases kind_of_pretty h
  | bool value => by
    intro j' rest rest' _ _ h
    cases j' with
    | bool value' =>
      rw [pretty, pretty] at h
      cases value <;> cases value'
      · exact ⟨rfl, List.append_cancel_left h⟩
      · cases h
      · cases h
      · exact ⟨rfl, List.append_cancel_left h⟩
    | _ => cases kind_of_pretty h
  | int value => by
    intro j' rest rest' hrest hrest' h
    cases j' with
    | int value' =>
      obtain ⟨rfl, hsame⟩ := unambiguous_int value value' rest rest' hrest hrest' h
      exact ⟨rfl, hsame⟩
    | _ => cases kind_of_pretty h
  | string value => by
    intro j' rest rest' hrest hrest' h
    cases j' with
    | string value' =>
      obtain ⟨rfl, hsame⟩ := unambiguous_quote value value' rest rest' hrest hrest' h
      exact ⟨rfl, hsame⟩
    | _ => cases kind_of_pretty h
  | array items => by
    intro j' rest rest' _ _ h
    cases j' with
    | array items' =>
      rw [pretty, pretty, prettyItems_eq_map, prettyItems_eq_map] at h
      obtain ⟨rfl, hsame⟩ :=
        eq_of_enclose (c := ']') rfl (by decide) (unambiguous_items (depth + 1) items) h
      exact ⟨rfl, hsame⟩
    | _ => cases kind_of_pretty h
  | object fields => by
    intro j' rest rest' _ _ h
    cases j' with
    | object fields' =>
      rw [pretty, pretty, prettyFields_eq_map, prettyFields_eq_map] at h
      obtain ⟨rfl, hsame⟩ :=
        eq_of_enclose (c := '\x7d') rfl (by decide) (unambiguous_fields (depth + 1) fields) h
      exact ⟨rfl, hsame⟩
    | _ => cases kind_of_pretty h

theorem unambiguous_items (depth : Nat) :
    ∀ items : List Json, ∀ item ∈ items, Unambiguous (pretty depth) item
  | [] => nofun
  | item :: items =>
    List.forall_mem_cons.2 ⟨unambiguous_pretty depth item, unambiguous_items depth items⟩

theorem unambiguous_fields (depth : Nat) :
    ∀ fields : List (String × Json), ∀ field ∈ fields, Unambiguous (prettyField depth) field
  | [] => nofun
  | (name, value) :: fields => by
    refine List.forall_mem_cons.2 ⟨?_, unambiguous_fields depth fields⟩
    rintro ⟨name', value'⟩ rest rest' hrest hrest' h
    have hcolon (rest : List Char) : Ends (": ".toList ++ rest) := by
      rintro c ⟨⟩
      decide
    simp only [prettyField, String.toList_append, List.append_assoc] at h
    obtain ⟨rfl, hmore⟩ := unambiguous_quote name name' _ _ (hcolon _) (hcolon _) h
    obtain ⟨rfl, hsame⟩ := unambiguous_pretty depth value value' rest rest' hrest hrest'
      (List.append_cancel_left hmore)
    exact ⟨rfl, hsame⟩

end

theorem render_injective {j j' : Json} (h : j.render = j'.render) : j = j' := by
  have hends : Ends [] := nofun
  refine (unambiguous_pretty 0 j j' [] [] hends hends ?_).1
  rw [render, render] at h
  rw [h]

end Json

end SchemaGen
