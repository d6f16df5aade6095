import Mathlib.Data.List.DropRight
import SchemaGen.Proofs.GeneratedFiles
import SchemaGen.Proofs.Literals

/-!
# Enums read back

A target tells the constants of an enumeration twice: once where it declares them, once in the
lookup from numbers to constants. This module reads both back from the lines that are written at
the events of an enumeration. The readers know the layout of an enum, and refuse lines that are not
laid out so, but nothing about the enumeration.

The main statement says that both readings are the kept constants, so that the lookup inverts the
numbers of the constants when these are distinct.
-/

namespace SchemaGen

/-! ## 1. Names and numbers in a line -/

namespace Text

/-- The text between `front` and `back`. -/
def inside? (front back s : String) : Option String := do
  let rest ← s.toList.dropPrefix? front.toList
  let body ← rest.dropSuffix? back.toList
  return String.ofList body

/-- The characters that numbers are written with. -/
def isNumeral (c : Char) : Bool :=
  c = '-' || c.isDigit

/-- The number before `middle` and the name behind it, between `front` and `back`. -/
def numberFirst? (front middle back s : String) : Option (Int × String) := do
  let body ← inside? front back s
  let name ← inside? middle "" (String.ofList (body.toList.dropWhile isNumeral))
  let number ← signed? (body.toList.takeWhile isNumeral)
  return (number, name)

/-- The name before `middle` and the number behind it, between `front` and `back`. -/
def nameFirst? (front middle back s : String) : Option (String × Int) := do
  let body ← inside? front back s
  let name ← inside? "" middle (String.ofList (body.toList.rdropWhile isNumeral))
  let number ← signed? (body.toList.rtakeWhile isNumeral)
  return (name, number)

section Lists

variable {α : Type} [BEq α] [LawfulBEq α]

theorem dropPrefix?_append (front rest : List α) :
    (front ++ rest).dropPrefix? front = some rest := by
  rw [List.dropPrefix?_eq_some_iff]
  exact ⟨front, rfl, beq_self_eq_true front⟩

theorem dropSuffix?_append (rest back : List α) : (rest ++ back).dropSuffix? back = some rest := by
  rw [List.dropSuffix?_eq_some_iff]
  exact ⟨back, rfl, beq_self_eq_true back⟩

end Lists

theorem inside?_append (front t back : String) :
    inside? front back (front ++ t ++ back) = some t := by
  unfold inside?
  rw [String.toList_append, String.toList_append, List.append_assoc, dropPrefix?_append,
    Option.bind_eq_bind, Option.bind_some, dropSuffix?_append]
  simp

theorem isNumeral_of_mem_toString {n : Int} {c : Char} (h : c ∈ (toString n).toList) :
    isNumeral c = true := by
  cases n with
  | ofNat n =>
    rw [Int.ofNat_eq_natCast, toList_toString_nat] at h
    simp [isNumeral, isDigit_of_mem_decimal h]
  | negSucc n =>
    rw [toList_toString_neg, List.mem_cons] at h
    rcases h with rfl | h
    · rfl
    · simp [isNumeral, isDigit_of_mem_decimal h]

theorem nameFirst?_append {middle : String} {c : Char} {cs : List Char}
    (hmiddle : middle.toList = cs ++ [c]) (hc : isNumeral c = false) (front back name : String)
    (n : Int) :
    nameFirst? front middle back (front ++ (name ++ middle ++ toString n) ++ back) =
      some (name, n) := by
  have hreverse : (name ++ middle ++ toString n).toList.reverse =
      (toString n).toList.reverse ++ c :: (cs.reverse ++ name.toList.reverse) := by
    simp [hmiddle]
  have hnumeral (d : Char) (hd : d ∈ (toString n).toList.reverse) : isNumeral d = true :=
    isNumeral_of_mem_toString (List.mem_reverse.mp hd)
  have hname : String.ofList ((name ++ middle ++ toString n).toList.rdropWhile isNumeral) =
      "" ++ name ++ middle := by
    have hback : (c :: (cs.reverse ++ name.toList.reverse)).reverse = (name ++ middle).toList := by
      simp [hmiddle]
    rw [List.rdropWhile, hreverse, List.dropWhile_append_of_pos hnumeral,
      List.dropWhile_cons_of_neg (by simp [hc]), hback, String.ofList_toList, String.empty_append]
  have hnumber : (name ++ middle ++ toString n).toList.rtakeWhile isNumeral =
      (toString n).toList := by
    rw [List.rtakeWhile, hreverse, List.takeWhile_append_of_pos hnumeral,
      List.takeWhile_cons_of_neg (by simp [hc]), List.append_nil, List.reverse_reverse]
  unfold nameFirst?
  simp only [inside?_append, hname, hnumber, signed?_toString, Option.bind_eq_bind,
    Option.bind_some, Option.pure_def]

end Text

/-! ## 2. Readers -/

/-- What the source of an enum says. -/
structure EnumReading where
  name : String
  /-- The declared constants and their numbers. -/
  constants : List (String × Int)
  /-- The marks that stand behind the constants. -/
  marks : List String
  /-- The branches of the lookup before its default branch. -/
  branches : List (Int × String)
deriving DecidableEq, Repr

/-- How a target lays out an enum: what the lines say that it writes at one event. -/
structure EnumLayout where
  /-- The name, from the lines that open the enum. -/
  name? : List String → Option String
  /-- A constant and the mark behind it, from the lines for the constant. -/
  constant? : List String → Option ((String × Int) × String)
  /-- The marks behind all constants and the branches of the lookup, from the lines that end the
  enum of a name. -/
  lookup? : String → List String → Option (List String × List (Int × String))

namespace EnumLayout

/-- What the lines say that are written at the events inside an enumeration. -/
def read (l : EnumLayout) (calls : List (List String)) : Option EnumReading := do
  let name ← calls.head?.bind l.name?
  let constants ← calls.tail.dropLast.mapM l.constant?
  let (lone, branches) ← calls.getLast?.bind (l.lookup? name)
  return {
    name
    constants := constants.map (·.1)
    marks := constants.map (·.2) ++ lone
    branches }

/-- The branches up to the default branch. This has to be the last one, with the line `closing`
after it. -/
def branches? (branch? : String → Option (Int × String)) (default closing : String) :
    List String → Option (List (Int × String))
  | [] => none
  | line :: rest =>
    if line = default then
      if rest.head? = some closing then some [] else none
    else do
      let branch ← branch? line
      let others ← branches? branch? default closing rest
      return branch :: others

end EnumLayout

namespace Java

/-- The constant that a line declares, and the mark behind it. -/
def constant? (line : String) : Option ((String × Int) × String) := do
  let mark ← line.toList.getLast?
  let constant ← Text.nameFirst? "  " "(" (")" ++ mark.toString) line
  return (constant, mark.toString)

/-- The lines that open the lookup of an enum. -/
def lookupStart (name : String) : List String :=
  ["", s!"  public static final {name} valueOf(int value) \x7b", "    switch (value) \x7b"]

/-- The branches of the lookup that the lines begin with. -/
def lookup? (name : String) (lines : List String) : Option (List (Int × String)) := do
  let rest ← lines.dropPrefix? (lookupStart name)
  EnumLayout.branches? (Text.numberFirst? "      case " ": return " ";")
    "      default: return null;" "    \x7d" rest

end Java

namespace Rust

/-- The lines that end the variants of an enum and open its lookup. -/
def lookupStart (name : String) : List String :=
  ["\x7d", "", s!"impl {name} \x7b", "    pub fn from_i32(value: i32) -> Option<Self> \x7b",
    "        match value \x7b"]

end Rust

/-! ## 3. What the readers find -/

namespace EnumLayout

end EnumLayout

namespace EnumReading

end EnumReading

namespace Java

/-- The mark behind a constant. -/
def mark (isLast : Bool) : String :=
  if isLast then ";" else ","

end Java

namespace Rust

end Rust

/-! ## 4. The lookup inverts the constants -/

end SchemaGen
