import SchemaGen.Text.CodePoints

/-!
# Letter case data

The tables behind letter case: which characters are capital or small letters, which are passed over
when the case of a neighbour is asked for, and which character or characters each one maps to. Most
letters come in pairs of a capital and a small one that map to each other. A run of pairs
`(first, last, step, image)` has every `step`-th code point from `first` to `last`, sends `first` to
`image` and keeps the distances. The tables are those of Unicode 17.
-/

namespace SchemaGen.Text

/-- The runs of the property Uppercase beyond ASCII. -/
def capitalRuns : List (Nat × Nat × Nat) :=
  stepRuns 1 [192, 23, 1, 7, 162, 2, 1, 1, 1, 2, 1, 3, 2, 4, 1, 2, 1, 3, 3, 2, 1, 2, 6, 1, 1, 1, 2,
    1, 1, 2, 1, 3, 1, 1, 1, 2, 3, 1, 7, 1, 2, 1, 2, 1, 38, 1, 2, 1, 1, 3, 65, 2, 1, 2, 2, 1, 1, 4,
    297, 1, 1, 1, 3, 1, 8, 1, 6, 1, 1, 3, 1, 1, 1, 2, 1, 17, 1, 9, 35, 1, 2, 3, 31, 1, 2, 1, 1, 2,
    2, 51, 257, 38, 2889, 38, 1, 1, 5, 1, 722, 86, 2195, 1, 6, 43, 2, 3, 584, 8, 8, 6, 10, 8, 8, 8,
    8, 6, 26, 8, 72, 4, 12, 4, 12, 4, 12, 5, 11, 4, 262, 1, 4, 1, 3, 3, 2, 3, 2, 1, 3, 5, 13, 3, 2,
    4, 10, 2, 5, 1, 26, 16, 19, 1, 818, 26, 1840, 48, 48, 1, 1, 3, 9, 3, 1, 1, 2, 1, 8, 3, 106, 1,
    1, 1, 4, 1, 31384, 1, 1, 1, 2, 1, 1, 1, 24, 4, 1, 5, 16, 3, 1, 1, 1, 2, 40, 1, 22315, 26, 1221,
    40, 136, 36, 156, 11, 1, 15, 1, 7, 1, 2, 1770, 51, 157, 22, 2874, 32, 21888, 32, 64, 25, 25927,
    26, 26, 26, 26, 26, 26, 1, 1, 2, 2, 1, 2, 2, 2, 4, 1, 8, 26, 26, 26, 2, 1, 4, 2, 8, 1, 7, 27, 2,
    1, 4, 1, 5, 1, 1, 3, 7, 27, 26, 26, 26, 26, 26, 26, 26, 26, 26, 26, 26, 30, 25, 33, 25, 33, 25,
    33, 25, 33, 25, 33, 1, 4405, 34, 2062, 26, 6, 26, 6, 26] ++
    stepRuns 2 [256, 55, 2, 15, 2, 47, 0, 5, 36, 5, 38, 15, 2, 17, 11, 57, 21, 7, 393, 23, 113, 33,
      9, 55, 0, 13, 2, 95, 6353, 149, 9, 97, 90, 7, 452, 7, 2876, 7, 20, 97, 31069, 45, 19, 27, 135,
      13, 3, 61, 10, 5, 0, 9, 15, 21, 11, 15, 9, 15]

/-- The runs of the property Lowercase beyond ASCII. -/
def smallRuns : List (Nat × Nat × Nat) :=
  stepRuns 1 [170, 1, 10, 1, 4, 1, 36, 24, 1, 8, 127, 2, 2, 1, 1, 1, 2, 1, 3, 2, 4, 1, 2, 1, 3, 3,
    2, 1, 9, 1, 1, 2, 1, 1, 2, 1, 3, 1, 1, 1, 2, 2, 2, 3, 6, 1, 2, 1, 38, 1, 2, 1, 1, 1, 62, 6, 2,
    1, 2, 2, 1, 1, 13, 68, 2, 35, 7, 2, 30, 5, 96, 1, 43, 1, 1, 1, 3, 1, 2, 4, 18, 1, 27, 35, 1, 2,
    3, 3, 24, 4, 1, 1, 2, 1, 2, 2, 51, 48, 256, 41, 2887, 43, 1, 4, 760, 6, 2178, 9, 1, 1, 117, 192,
    214, 8, 98, 8, 8, 6, 10, 8, 8, 8, 8, 6, 10, 8, 8, 8, 8, 14, 2, 8, 8, 8, 8, 8, 8, 5, 1, 2, 6, 1,
    3, 3, 1, 2, 8, 4, 2, 2, 8, 8, 10, 3, 1, 2, 121, 1, 13, 1, 16, 13, 109, 1, 3, 2, 3, 1, 27, 1, 4,
    1, 4, 1, 2, 2, 8, 4, 4, 1, 33, 16, 4, 1, 843, 26, 1862, 48, 1, 1, 3, 2, 10, 1, 1, 2, 1, 8, 102,
    1, 7, 1, 1, 1, 4, 1, 12, 38, 1, 1, 5, 1, 31086, 2, 146, 2, 62, 9, 1, 1, 1, 1, 15, 1, 1, 1, 2, 1,
    1, 3, 25, 1, 24, 1, 1, 1, 38, 4, 1, 1, 1, 3, 821, 43, 1, 14, 6, 80, 20288, 7, 12, 5, 1065, 26,
    1229, 40, 136, 36, 155, 11, 1, 15, 1, 7, 1, 2, 451, 1, 2, 3, 1, 42, 1, 9, 1285, 51, 125, 22,
    2874, 32, 21888, 32, 59, 25, 25926, 26, 26, 7, 1, 18, 26, 26, 26, 4, 1, 1, 1, 7, 1, 11, 26, 26,
    26, 26, 26, 26, 26, 26, 26, 26, 26, 26, 26, 26, 26, 26, 26, 28, 28, 25, 1, 6, 26, 25, 1, 6, 26,
    25, 1, 6, 26, 25, 1, 6, 26, 25, 1, 6, 1, 1, 1844, 10, 1, 20, 6, 6, 261, 62, 2228, 34] ++
    stepRuns 2 [257, 55, 0, 17, 0, 47, 2, 5, 34, 5, 38, 17, 0, 19, 9, 59, 19, 9, 393, 23, 113, 33,
      9, 53, 2, 13, 0, 97, 6353, 149, 9, 97, 3432, 5, 20, 99, 31069, 45, 19, 27, 135, 13, 3, 61, 15,
      9, 15, 19, 11, 15, 9, 15]

/-- The ranges of title case letters, such as the digraph Dž. -/
def titleRanges : List (Nat × Nat) :=
  rangesFrom 0 [453, 1, 2, 1, 2, 1, 38, 1, 7573, 8, 8, 8, 8, 8, 12, 1, 15, 1, 47, 1]

/-- The ranges of the property Case_Ignorable. -/
def caseIgnorableRanges : List (Nat × Nat) :=
  rangesFrom 0 [39, 1, 6, 1, 11, 1, 35, 1, 1, 1, 71, 1, 4, 1, 1, 1, 4, 1, 2, 2, 503, 192, 4, 2, 4,
    1, 9, 2, 1, 1, 251, 7, 207, 1, 5, 1, 49, 45, 1, 1, 1, 2, 1, 2, 1, 1, 44, 1, 11, 6, 10, 11, 1, 1,
    35, 1, 10, 21, 16, 1, 101, 8, 1, 10, 1, 4, 33, 1, 1, 1, 30, 27, 91, 11, 58, 11, 4, 1, 2, 1, 24,
    24, 43, 3, 44, 1, 7, 2, 5, 9, 41, 58, 55, 1, 1, 1, 4, 8, 4, 1, 3, 7, 10, 2, 13, 1, 15, 1, 58, 1,
    4, 4, 8, 1, 20, 2, 26, 1, 2, 2, 57, 1, 4, 2, 4, 2, 2, 3, 3, 1, 30, 2, 3, 1, 11, 2, 57, 1, 4, 5,
    1, 2, 4, 1, 20, 2, 22, 6, 1, 1, 58, 1, 2, 1, 1, 4, 8, 1, 7, 2, 11, 2, 30, 1, 61, 1, 12, 1, 50,
    1, 3, 1, 55, 1, 1, 3, 5, 3, 1, 4, 7, 2, 11, 2, 29, 1, 58, 1, 2, 1, 6, 1, 5, 2, 20, 2, 28, 2, 57,
    2, 4, 4, 8, 1, 20, 2, 29, 1, 72, 1, 7, 3, 1, 1, 90, 1, 2, 7, 11, 9, 98, 1, 2, 9, 9, 1, 1, 7, 73,
    2, 27, 1, 1, 1, 1, 1, 55, 14, 1, 5, 1, 2, 5, 11, 1, 36, 9, 1, 102, 4, 1, 6, 1, 2, 2, 2, 25, 2,
    4, 3, 16, 4, 13, 1, 2, 2, 6, 1, 15, 1, 94, 1, 608, 3, 946, 3, 29, 2, 30, 2, 30, 2, 64, 2, 1, 7,
    8, 1, 2, 11, 3, 1, 5, 1, 45, 5, 51, 1, 65, 2, 34, 1, 118, 3, 4, 2, 9, 1, 6, 3, 219, 2, 2, 1, 58,
    1, 1, 7, 1, 1, 1, 1, 2, 8, 6, 10, 2, 1, 39, 1, 8, 46, 2, 12, 20, 4, 48, 1, 1, 5, 1, 1, 5, 1, 40,
    9, 12, 2, 32, 4, 2, 2, 1, 3, 56, 1, 1, 2, 3, 1, 1, 3, 58, 8, 2, 2, 64, 6, 82, 3, 1, 13, 1, 7, 4,
    1, 6, 1, 3, 2, 50, 63, 13, 1, 34, 101, 445, 1, 1, 3, 11, 3, 13, 3, 13, 3, 13, 2, 12, 5, 8, 2,
    10, 1, 2, 1, 2, 5, 49, 5, 1, 10, 1, 1, 13, 1, 16, 13, 51, 33, 2955, 2, 113, 3, 125, 1, 15, 1,
    96, 32, 47, 1, 469, 1, 36, 4, 3, 5, 5, 1, 93, 6, 93, 3, 28438, 1, 1250, 6, 270, 1, 98, 4, 1, 10,
    1, 1, 28, 4, 80, 2, 14, 34, 78, 1, 23, 3, 102, 4, 3, 2, 8, 1, 3, 1, 4, 1, 25, 2, 5, 1, 151, 2,
    26, 18, 13, 1, 38, 8, 25, 11, 46, 3, 48, 1, 2, 4, 2, 2, 17, 1, 21, 2, 66, 6, 2, 2, 2, 2, 12, 1,
    8, 1, 35, 1, 11, 1, 51, 1, 1, 3, 2, 2, 5, 2, 1, 1, 27, 1, 14, 2, 5, 2, 1, 1, 100, 5, 9, 3, 121,
    1, 2, 1, 4, 1, 20272, 1, 147, 17, 573, 16, 3, 1, 12, 16, 34, 1, 2, 1, 169, 1, 7, 1, 6, 1, 11, 1,
    35, 1, 1, 1, 47, 1, 45, 2, 67, 1, 21, 3, 513, 1, 226, 1, 149, 5, 1029, 6, 1, 42, 1, 9, 582, 3,
    1, 2, 5, 4, 40, 3, 4, 1, 165, 2, 573, 4, 38, 1, 26, 5, 1, 1, 315, 2, 24, 1, 52, 6, 70, 11, 49,
    4, 123, 1, 54, 15, 41, 1, 2, 2, 10, 3, 49, 4, 2, 2, 2, 1, 4, 1, 10, 1, 50, 3, 36, 5, 1, 8, 62,
    1, 12, 2, 52, 9, 10, 4, 2, 1, 95, 3, 2, 1, 1, 2, 6, 1, 2, 1, 157, 1, 3, 8, 21, 2, 57, 2, 3, 1,
    37, 7, 3, 5, 70, 6, 13, 1, 1, 1, 1, 1, 14, 2, 85, 8, 2, 3, 1, 1, 23, 1, 84, 6, 1, 1, 4, 2, 1, 2,
    238, 4, 6, 2, 1, 2, 27, 2, 85, 8, 2, 1, 1, 2, 106, 1, 1, 1, 2, 6, 1, 1, 101, 1, 1, 1, 2, 4, 1,
    5, 259, 9, 1, 2, 256, 2, 1, 1, 4, 1, 144, 4, 2, 2, 4, 1, 32, 10, 40, 6, 2, 4, 8, 1, 9, 6, 2, 3,
    46, 13, 1, 2, 198, 1, 1, 3, 1, 1, 201, 7, 1, 6, 1, 1, 82, 22, 2, 7, 1, 2, 1, 2, 122, 6, 3, 1, 1,
    2, 1, 7, 1, 1, 72, 2, 3, 1, 1, 1, 65, 1, 281, 2, 11, 2, 52, 5, 5, 1, 1, 1, 23, 1, 5333, 17, 6,
    15, 11464, 12, 3, 3, 2496, 5, 59, 7, 9, 4, 508, 3, 40, 2, 482, 1, 63, 17, 64, 2, 1, 2, 13, 2,
    16380, 4, 1, 7, 1, 2, 3230, 2, 1, 4, 4700, 46, 2, 23, 544, 3, 9, 16, 2, 7, 30, 4, 148, 3, 1979,
    55, 4, 50, 8, 1, 14, 1, 22, 5, 1, 15, 1360, 7, 1, 17, 2, 7, 1, 2, 1, 5, 5, 62, 33, 1, 160, 14,
    368, 1, 61, 4, 507, 5, 254, 2, 243, 1, 2, 1, 7, 2, 5, 1, 9, 1, 464, 7, 109, 8, 2735, 5, 789505,
    1, 30, 96, 128, 240]

/-- Runs of capital letters beyond ASCII with the small letters that map back to them. -/
def pairRuns : List (Nat × Nat × Nat × Nat) :=
  [(0xC0, 0xD6, 1, 0xE0), (0xD8, 0xDE, 1, 0xF8), (0x100, 0x12E, 2, 0x101), (0x132, 0x136, 2, 0x133),
   (0x139, 0x147, 2, 0x13A), (0x14A, 0x176, 2, 0x14B), (0x179, 0x17D, 2, 0x17A),
   (0x182, 0x184, 2, 0x183), (0x189, 0x18A, 1, 0x256), (0x1A0, 0x1A4, 2, 0x1A1),
   (0x1B1, 0x1B2, 1, 0x28A), (0x1B3, 0x1B5, 2, 0x1B4), (0x1CD, 0x1DB, 2, 0x1CE),
   (0x1DE, 0x1EE, 2, 0x1DF), (0x1F8, 0x21E, 2, 0x1F9), (0x222, 0x232, 2, 0x223),
   (0x246, 0x24E, 2, 0x247), (0x370, 0x372, 2, 0x371), (0x388, 0x38A, 1, 0x3AD),
   (0x38E, 0x38F, 1, 0x3CD), (0x391, 0x3A1, 1, 0x3B1), (0x3A3, 0x3AB, 1, 0x3C3),
   (0x3D8, 0x3EE, 2, 0x3D9), (0x3FD, 0x3FF, 1, 0x37B), (0x400, 0x40F, 1, 0x450),
   (0x410, 0x42F, 1, 0x430), (0x460, 0x480, 2, 0x461), (0x48A, 0x4BE, 2, 0x48B),
   (0x4C1, 0x4CD, 2, 0x4C2), (0x4D0, 0x52E, 2, 0x4D1), (0x531, 0x556, 1, 0x561),
   (0x10A0, 0x10C5, 1, 0x2D00), (0x13A0, 0x13EF, 1, 0xAB70), (0x13F0, 0x13F5, 1, 0x13F8),
   (0x1C90, 0x1CBA, 1, 0x10D0), (0x1CBD, 0x1CBF, 1, 0x10FD), (0x1E00, 0x1E94, 2, 0x1E01),
   (0x1EA0, 0x1EFE, 2, 0x1EA1), (0x1F08, 0x1F0F, 1, 0x1F00), (0x1F18, 0x1F1D, 1, 0x1F10),
   (0x1F28, 0x1F2F, 1, 0x1F20), (0x1F38, 0x1F3F, 1, 0x1F30), (0x1F48, 0x1F4D, 1, 0x1F40),
   (0x1F59, 0x1F5F, 2, 0x1F51), (0x1F68, 0x1F6F, 1, 0x1F60), (0x1FB8, 0x1FB9, 1, 0x1FB0),
   (0x1FBA, 0x1FBB, 1, 0x1F70), (0x1FC8, 0x1FCB, 1, 0x1F72), (0x1FD8, 0x1FD9, 1, 0x1FD0),
   (0x1FDA, 0x1FDB, 1, 0x1F76), (0x1FE8, 0x1FE9, 1, 0x1FE0), (0x1FEA, 0x1FEB, 1, 0x1F7A),
   (0x1FF8, 0x1FF9, 1, 0x1F78), (0x1FFA, 0x1FFB, 1, 0x1F7C), (0x2160, 0x216F, 1, 0x2170),
   (0x24B6, 0x24CF, 1, 0x24D0), (0x2C00, 0x2C2F, 1, 0x2C30), (0x2C67, 0x2C6B, 2, 0x2C68),
   (0x2C7E, 0x2C7F, 1, 0x23F), (0x2C80, 0x2CE2, 2, 0x2C81), (0x2CEB, 0x2CED, 2, 0x2CEC),
   (0xA640, 0xA66C, 2, 0xA641), (0xA680, 0xA69A, 2, 0xA681), (0xA722, 0xA72E, 2, 0xA723),
   (0xA732, 0xA76E, 2, 0xA733), (0xA779, 0xA77B, 2, 0xA77A), (0xA77E, 0xA786, 2, 0xA77F),
   (0xA790, 0xA792, 2, 0xA791), (0xA796, 0xA7A8, 2, 0xA797), (0xA7B4, 0xA7C2, 2, 0xA7B5),
   (0xA7C7, 0xA7C9, 2, 0xA7C8), (0xA7CC, 0xA7DA, 2, 0xA7CD), (0xFF21, 0xFF3A, 1, 0xFF41),
   (0x10400, 0x10427, 1, 0x10428), (0x104B0, 0x104D3, 1, 0x104D8), (0x10570, 0x10594, 2, 0x10597),
   (0x10571, 0x10579, 2, 0x10598), (0x1057D, 0x10589, 2, 0x105A4), (0x1058D, 0x10591, 2, 0x105B4),
   (0x10C80, 0x10CB2, 1, 0x10CC0), (0x10D50, 0x10D65, 1, 0x10D70), (0x118A0, 0x118BF, 1, 0x118C0),
   (0x16E40, 0x16E5F, 1, 0x16E60), (0x16EA0, 0x16EB8, 1, 0x16EBB), (0x1E900, 0x1E921, 1, 0x1E922)]

/-- Single capital letters beyond ASCII with the small letters that map back to them. -/
def lonePairs : List (Nat × Nat) :=
  [(0x178, 0xFF), (0x181, 0x253), (0x186, 0x254), (0x187, 0x188), (0x18B, 0x18C), (0x18E, 0x1DD),
   (0x18F, 0x259), (0x190, 0x25B), (0x191, 0x192), (0x193, 0x260), (0x194, 0x263), (0x196, 0x269),
   (0x197, 0x268), (0x198, 0x199), (0x19C, 0x26F), (0x19D, 0x272), (0x19F, 0x275), (0x1A6, 0x280),
   (0x1A7, 0x1A8), (0x1A9, 0x283), (0x1AC, 0x1AD), (0x1AE, 0x288), (0x1AF, 0x1B0), (0x1B7, 0x292),
   (0x1B8, 0x1B9), (0x1BC, 0x1BD), (0x1C4, 0x1C6), (0x1C7, 0x1C9), (0x1CA, 0x1CC), (0x1F1, 0x1F3),
   (0x1F4, 0x1F5), (0x1F6, 0x195), (0x1F7, 0x1BF), (0x220, 0x19E), (0x23A, 0x2C65), (0x23B, 0x23C),
   (0x23D, 0x19A), (0x23E, 0x2C66), (0x241, 0x242), (0x243, 0x180), (0x244, 0x289), (0x245, 0x28C),
   (0x376, 0x377), (0x37F, 0x3F3), (0x386, 0x3AC), (0x38C, 0x3CC), (0x3CF, 0x3D7), (0x3F7, 0x3F8),
   (0x3F9, 0x3F2), (0x3FA, 0x3FB), (0x4C0, 0x4CF), (0x10C7, 0x2D27), (0x10CD, 0x2D2D),
   (0x1C89, 0x1C8A), (0x1FEC, 0x1FE5), (0x2132, 0x214E), (0x2183, 0x2184), (0x2C60, 0x2C61),
   (0x2C62, 0x26B), (0x2C63, 0x1D7D), (0x2C64, 0x27D), (0x2C6D, 0x251), (0x2C6E, 0x271),
   (0x2C6F, 0x250), (0x2C70, 0x252), (0x2C72, 0x2C73), (0x2C75, 0x2C76), (0x2CF2, 0x2CF3),
   (0xA77D, 0x1D79), (0xA78B, 0xA78C), (0xA78D, 0x265), (0xA7AA, 0x266), (0xA7AB, 0x25C),
   (0xA7AC, 0x261), (0xA7AD, 0x26C), (0xA7AE, 0x26A), (0xA7B0, 0x29E), (0xA7B1, 0x287),
   (0xA7B2, 0x29D), (0xA7B3, 0xAB53), (0xA7C4, 0xA794), (0xA7C5, 0x282), (0xA7C6, 0x1D8E),
   (0xA7CB, 0x264), (0xA7DC, 0x19B), (0xA7F5, 0xA7F6), (0x10595, 0x105BC)]

/-- Characters beyond ASCII whose capital form is one character. -/
def capitalMapping : List (Nat × Nat × Nat × Nat) :=
  let lone :=
    [(0xB5, 0x39C), (0x131, 0x49), (0x17F, 0x53), (0x1C5, 0x1C4), (0x1C8, 0x1C7), (0x1CB, 0x1CA),
     (0x1F2, 0x1F1), (0x345, 0x399), (0x3C2, 0x3A3), (0x3D0, 0x392), (0x3D1, 0x398), (0x3D5, 0x3A6),
     (0x3D6, 0x3A0), (0x3F0, 0x39A), (0x3F1, 0x3A1), (0x3F5, 0x395), (0x1C80, 0x412),
     (0x1C81, 0x414), (0x1C82, 0x41E), (0x1C83, 0x421), (0x1C84, 0x422), (0x1C85, 0x422),
     (0x1C86, 0x42A), (0x1C87, 0x462), (0x1C88, 0xA64A), (0x1E9B, 0x1E60), (0x1FBE, 0x399)]
  pairRuns.map (fun (first, last, step, image) => (image, image + (last - first), step, first)) ++
    (lonePairs.map Prod.swap ++ lone).map fun (c, image) => (c, c, 1, image)

/-- Characters whose capital form is several characters. -/
def capitalExpansions : List (Nat × List Nat) :=
  [(0xDF, [0x53, 0x53]), (0x149, [0x2BC, 0x4E]), (0x1F0, [0x4A, 0x30C]),
   (0x390, [0x399, 0x308, 0x301]), (0x3B0, [0x3A5, 0x308, 0x301]), (0x587, [0x535, 0x552]),
   (0x1E96, [0x48, 0x331]), (0x1E97, [0x54, 0x308]), (0x1E98, [0x57, 0x30A]),
   (0x1E99, [0x59, 0x30A]), (0x1E9A, [0x41, 0x2BE]), (0x1F50, [0x3A5, 0x313]),
   (0x1F52, [0x3A5, 0x313, 0x300]), (0x1F54, [0x3A5, 0x313, 0x301]),
   (0x1F56, [0x3A5, 0x313, 0x342]), (0x1F80, [0x1F08, 0x399]), (0x1F81, [0x1F09, 0x399]),
   (0x1F82, [0x1F0A, 0x399]), (0x1F83, [0x1F0B, 0x399]), (0x1F84, [0x1F0C, 0x399]),
   (0x1F85, [0x1F0D, 0x399]), (0x1F86, [0x1F0E, 0x399]), (0x1F87, [0x1F0F, 0x399]),
   (0x1F88, [0x1F08, 0x399]), (0x1F89, [0x1F09, 0x399]), (0x1F8A, [0x1F0A, 0x399]),
   (0x1F8B, [0x1F0B, 0x399]), (0x1F8C, [0x1F0C, 0x399]), (0x1F8D, [0x1F0D, 0x399]),
   (0x1F8E, [0x1F0E, 0x399]), (0x1F8F, [0x1F0F, 0x399]), (0x1F90, [0x1F28, 0x399]),
   (0x1F91, [0x1F29, 0x399]), (0x1F92, [0x1F2A, 0x399]), (0x1F93, [0x1F2B, 0x399]),
   (0x1F94, [0x1F2C, 0x399]), (0x1F95, [0x1F2D, 0x399]), (0x1F96, [0x1F2E, 0x399]),
   (0x1F97, [0x1F2F, 0x399]), (0x1F98, [0x1F28, 0x399]), (0x1F99, [0x1F29, 0x399]),
   (0x1F9A, [0x1F2A, 0x399]), (0x1F9B, [0x1F2B, 0x399]), (0x1F9C, [0x1F2C, 0x399]),
   (0x1F9D, [0x1F2D, 0x399]), (0x1F9E, [0x1F2E, 0x399]), (0x1F9F, [0x1F2F, 0x399]),
   (0x1FA0, [0x1F68, 0x399]), (0x1FA1, [0x1F69, 0x399]), (0x1FA2, [0x1F6A, 0x399]),
   (0x1FA3, [0x1F6B, 0x399]), (0x1FA4, [0x1F6C, 0x399]), (0x1FA5, [0x1F6D, 0x399]),
   (0x1FA6, [0x1F6E, 0x399]), (0x1FA7, [0x1F6F, 0x399]), (0x1FA8, [0x1F68, 0x399]),
   (0x1FA9, [0x1F69, 0x399]), (0x1FAA, [0x1F6A, 0x399]), (0x1FAB, [0x1F6B, 0x399]),
   (0x1FAC, [0x1F6C, 0x399]), (0x1FAD, [0x1F6D, 0x399]), (0x1FAE, [0x1F6E, 0x399]),
   (0x1FAF, [0x1F6F, 0x399]), (0x1FB2, [0x1FBA, 0x399]), (0x1FB3, [0x391, 0x399]),
   (0x1FB4, [0x386, 0x399]), (0x1FB6, [0x391, 0x342]), (0x1FB7, [0x391, 0x342, 0x399]),
   (0x1FBC, [0x391, 0x399]), (0x1FC2, [0x1FCA, 0x399]), (0x1FC3, [0x397, 0x399]),
   (0x1FC4, [0x389, 0x399]), (0x1FC6, [0x397, 0x342]), (0x1FC7, [0x397, 0x342, 0x399]),
   (0x1FCC, [0x397, 0x399]), (0x1FD2, [0x399, 0x308, 0x300]), (0x1FD3, [0x399, 0x308, 0x301]),
   (0x1FD6, [0x399, 0x342]), (0x1FD7, [0x399, 0x308, 0x342]), (0x1FE2, [0x3A5, 0x308, 0x300]),
   (0x1FE3, [0x3A5, 0x308, 0x301]), (0x1FE4, [0x3A1, 0x313]), (0x1FE6, [0x3A5, 0x342]),
   (0x1FE7, [0x3A5, 0x308, 0x342]), (0x1FF2, [0x1FFA, 0x399]), (0x1FF3, [0x3A9, 0x399]),
   (0x1FF4, [0x38F, 0x399]), (0x1FF6, [0x3A9, 0x342]), (0x1FF7, [0x3A9, 0x342, 0x399]),
   (0x1FFC, [0x3A9, 0x399]), (0xFB00, [0x46, 0x46]), (0xFB01, [0x46, 0x49]), (0xFB02, [0x46, 0x4C]),
   (0xFB03, [0x46, 0x46, 0x49]), (0xFB04, [0x46, 0x46, 0x4C]), (0xFB05, [0x53, 0x54]),
   (0xFB06, [0x53, 0x54]), (0xFB13, [0x544, 0x546]), (0xFB14, [0x544, 0x535]),
   (0xFB15, [0x544, 0x53B]), (0xFB16, [0x54E, 0x546]), (0xFB17, [0x544, 0x53D])]

/-- Characters beyond ASCII whose small form is one character. -/
def smallMapping : List (Nat × Nat × Nat × Nat) :=
  let runs := [(0x1F88, 0x1F8F, 1, 0x1F80), (0x1F98, 0x1F9F, 1, 0x1F90), (0x1FA8, 0x1FAF, 1, 0x1FA0)]
  let lone :=
    [(0x1C5, 0x1C6), (0x1C8, 0x1C9), (0x1CB, 0x1CC), (0x1F2, 0x1F3), (0x3F4, 0x3B8), (0x1E9E, 0xDF),
     (0x1FBC, 0x1FB3), (0x1FCC, 0x1FC3), (0x1FFC, 0x1FF3), (0x2126, 0x3C9), (0x212A, 0x6B),
     (0x212B, 0xE5)]
  pairRuns ++ runs ++ (lonePairs ++ lone).map fun (c, image) => (c, c, 1, image)

/-- Characters whose small form is several characters. -/
def smallExpansions : List (Nat × List Nat) :=
  [(0x130, [0x69, 0x307])]

end SchemaGen.Text
