/-!
# Integers of 32 bits as text
-/

namespace SchemaGen.Text

/-- The value of a run of ASCII digits; the digits before it are worth `value`. -/
def digitsValue? (value : Nat) : List Char → Option Nat
  | [] => some value
  | c :: cs => if c.isDigit then digitsValue? (10 * value + (c.toNat - '0'.toNat)) cs else none

/-- The value of a text of at least one ASCII digit. -/
def natural? : List Char → Option Nat
  | [] => none
  | cs => digitsValue? 0 cs

/-- The value of ASCII digits with an optional sign. -/
def signed? : List Char → Option Int
  | [] => none
  | c :: cs =>
    if c = '-' then (natural? cs).map fun n => -(n : Int)
    else if c = '+' then (natural? cs).map fun n => (n : Int)
    else (natural? (c :: cs)).map fun n => (n : Int)

/-- The integer of 32 bits that is written `s`: ASCII digits with an optional sign, in range. -/
def int32? (s : String) : Option Int :=
  (signed? s.toList).filter fun n => -2147483648 ≤ n ∧ n ≤ 2147483647

end SchemaGen.Text
