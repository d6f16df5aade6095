/-!
# Sets of characters given by code point ranges

The character classes of the Unicode standard come as tables of ranges. A class is the union of its
ranges, and membership is decided range by range. A table is written down by what lies between its
ranges and how long they are, in turn.
-/

namespace SchemaGen.Text

/-- The ranges from `start` on: in turn, the numbers tell how many code points are passed over and
how many belong to the next range. -/
def rangesFrom (start : Nat) : List Nat → List (Nat × Nat)
  | gap :: size :: rest =>
    (start + gap, start + gap + size - 1) :: rangesFrom (start + gap + size) rest
  | _ => []

/-- The ranges given by `sizes`, with only every `step`-th code point of each. -/
def stepRuns (step : Nat) (sizes : List Nat) : List (Nat × Nat × Nat) :=
  (rangesFrom 0 sizes).map fun (first, last) => (first, last, step)

/-- Whether the code point of `c` lies in one of the ranges `(first, last)`, ends included. -/
def inRanges (table : List (Nat × Nat)) (c : Char) : Bool :=
  table.any fun (first, last) => first ≤ c.toNat && c.toNat ≤ last

/-- Whether `c` is one of every `step`-th code points from `first` to `last`: alphabets that
alternate between capital and small letters have `step = 2`. -/
def onRun (first last step : Nat) (c : Char) : Bool :=
  first ≤ c.toNat && c.toNat ≤ last && (c.toNat - first) % step == 0

/-- Whether the code point of `c` lies on one of the runs `(first, last, step)`. -/
def inRuns (table : List (Nat × Nat × Nat)) (c : Char) : Bool :=
  table.any fun (first, last, step) => onRun first last step c

/-- Whether `c` is an ASCII character. -/
def isAscii (c : Char) : Bool :=
  c.toNat < 0x80

end SchemaGen.Text
