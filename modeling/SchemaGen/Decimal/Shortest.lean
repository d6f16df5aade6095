/-!
# Shortest decimals

A binary floating point number stands for all reals that are rounded to it. Its shortest decimal is
the one with the fewest digits among them, and the nearest of those, where a tie goes to the even
one. It is searched on coarser to finer decimal grids: the first grid with a point in the interval
wins.
-/

namespace SchemaGen

/-- The number `digits * 10 ^ exponent`. -/
structure Decimal where
  digits : Nat
  exponent : Int
deriving DecidableEq, Repr

namespace Decimal

/-- A positive real `middle / scale` and the interval around it that rounds to the same floating
point number, all in units of `1 / scale`. -/
structure Interval where
  middle : Nat
  below : Nat
  above : Nat
  scale : Nat
  /-- Whether the ends belong to the interval. -/
  closed : Bool
deriving DecidableEq, Repr

/-- Whether `num / den` lies in the interval. -/
def Interval.contains (i : Interval) (num den : Nat) : Bool :=
  let point := num * i.scale
  let low := (i.middle - i.below) * den
  let high := (i.middle + i.above) * den
  if i.closed then low ≤ point && point ≤ high else low < point && point < high

/-- The multiple of `10 ^ e` in the interval that is nearest to the middle; of two that are equally
near, the even one. -/
def Interval.onGrid? (i : Interval) (e : Int) : Option Nat :=
  let up := Nat.pow 10 e.toNat
  let down := Nat.pow 10 (-e).toNat
  let k := i.middle * down / (i.scale * up)
  let isLow := i.contains (k * up) down
  let isHigh := i.contains ((k + 1) * up) down
  let rest := 2 * (i.middle * down - k * up * i.scale)
  let unit := i.scale * up
  let isLowNearer := rest < unit || rest = unit && k % 2 = 0
  if isLow && (!isHigh || isLowNearer) then some k
  else if isHigh then some (k + 1)
  else none

/-- Searches the grids from `10 ^ e` down to `10 ^ (e - n)`. -/
def Interval.search (i : Interval) : (n : Nat) → (e : Int) → Decimal
  | 0, e => ⟨(i.onGrid? e).getD 0, e⟩
  | n + 1, e =>
    match i.onGrid? e with
    | some digits => ⟨digits, e⟩
    | none => i.search n (e - 1)

/-- The interval of the positive finite number with these bits. -/
def intervalOfBits (bits : Nat) : Interval :=
  let fraction := bits % Nat.pow 2 52
  let biased := bits / Nat.pow 2 52 % Nat.pow 2 11
  let m := if biased = 0 then fraction else fraction + Nat.pow 2 52
  let q : Int := (if biased = 0 then 1 else biased : Nat) - 1075
  let up := Nat.pow 2 q.toNat
  let isPower := fraction = 0 ∧ 1 < biased
  { middle := 4 * m * up
    below := if isPower then up else 2 * up
    above := 2 * up
    scale := 4 * Nat.pow 2 (-q).toNat
    closed := m % 2 = 0 }

/-- The shortest decimal of a positive finite number. No finite number reaches `10 ^ 309`, and none
needs digits below `10 ^ -350`. -/
def shortest (f : Float) : Decimal :=
  (intervalOfBits f.toBits.toNat).search 659 309

/-- Zeros. -/
def zeros (n : Nat) : List Char :=
  List.replicate n '0'

/-- The decimal in the notation with an exponent, which has a sign. -/
def scientific (digits : List Char) (exponent : Int) : List Char :=
  let mantissa := match digits with
    | first :: second :: others => first :: '.' :: second :: others
    | short => short
  let sign := if exponent < 0 then '-' else '+'
  mantissa ++ 'e' :: sign :: Nat.toDigits 10 exponent.natAbs

/-- The decimal with a point in it: written out if the point is at most sixteen places from the
first digit, or five zeros before it; with an exponent otherwise. -/
def toText (d : Decimal) : String :=
  let digits := Nat.toDigits 10 d.digits
  let point : Int := digits.length + d.exponent
  String.ofList <|
    if 0 ≤ d.exponent ∧ point ≤ 16 then digits ++ zeros d.exponent.toNat ++ ['.', '0']
    else if 0 < point ∧ point ≤ 16 then
      digits.take point.toNat ++ '.' :: digits.drop point.toNat
    else if -5 < point ∧ point ≤ 0 then '0' :: '.' :: zeros (-point).toNat ++ digits
    else scientific digits (point - 1)

end Decimal

/-- The shortest text of a finite number. -/
def floatText (f : Float) : String :=
  let isNegative := f.toBits.toNat / Nat.pow 2 63 = 1
  let size := f.abs
  (if isNegative then "-" else "") ++
    (if size == 0 then "0.0" else (Decimal.shortest size).toText)

end SchemaGen
