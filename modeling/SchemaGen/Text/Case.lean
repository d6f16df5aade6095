import SchemaGen.Text.CaseTable

/-!
# Letter case

Full case mapping: a character may map to several (the sharp s becomes a double S), and the capital
sigma becomes a final sigma at the end of a word when a whole text is lowered. ASCII letters are
mapped directly; the tables hold everything beyond ASCII.
-/

namespace SchemaGen.Text

/-- Whether `c` is a capital letter. -/
def isCapital (c : Char) : Bool :=
  if isAscii c then c.isUpper else inRuns capitalRuns c

/-- Whether `c` is a small letter. -/
def isSmall (c : Char) : Bool :=
  if isAscii c then c.isLower else inRuns smallRuns c

/-- Whether `c` is a letter that has a case. -/
def isCased (c : Char) : Bool :=
  isCapital c || isSmall c || inRanges titleRanges c

/-- The forms of `c` under a case mapping that is given by its single characters and its
expansions; a character in neither table stays. -/
def mapCase (mapping : List (Nat × Nat × Nat × Nat)) (expansions : List (Nat × List Nat))
    (c : Char) : List Char :=
  match expansions.lookup c.toNat with
  | some codes => codes.map Char.ofNat
  | none =>
    match mapping.find? fun (first, last, step, _) => onRun first last step c with
    | some (first, _, _, image) => [Char.ofNat (image + (c.toNat - first))]
    | none => [c]

/-- The capital form of `c`. -/
def capital (c : Char) : List Char :=
  if isAscii c then [c.toUpper] else mapCase capitalMapping capitalExpansions c

/-- The small form of `c` taken alone. -/
def small (c : Char) : List Char :=
  if isAscii c then [c.toLower] else mapCase smallMapping smallExpansions c

/-- `cs` in capital letters. -/
def capitals (cs : List Char) : List Char :=
  cs.flatMap capital

/-- Whether the first character that is not passed over is a cased letter. -/
def meetsCased (cs : List Char) : Bool :=
  match cs.dropWhile (inRanges caseIgnorableRanges) with
  | [] => false
  | c :: _ => isCased c

/-- The small form of a capital sigma between `before`, read backwards, and `after`. -/
def smallSigma (before after : List Char) : Char :=
  if meetsCased before && !meetsCased after then 'ς' else 'σ'

/-- `cs` in small letters, where `before` is what precedes it, read backwards. -/
def smallsAfter (before : List Char) : List Char → List Char
  | [] => []
  | c :: cs =>
    (if c = 'Σ' then [smallSigma before cs] else small c) ++ smallsAfter (c :: before) cs

/-- `cs` in small letters. -/
def smalls (cs : List Char) : List Char :=
  smallsAfter [] cs

end SchemaGen.Text
