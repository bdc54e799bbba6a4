/-!
# Data of the case mappings

The full Unicode case mappings: the pairs of a capital and its small letter, and the characters that map otherwise,
some of them to several. The final form of sigma also asks which characters have case and which are ignored when
looking for a neighbour that has case.
-/

namespace Scriptlet.Text

/-- The capitals that have a small letter, as `(skipped, reach, stride, distance)`: behind `skipped` code points, those
`stride` apart up to `reach` further on, whose small letters are `distance` away. -/
def casePairs : List (Nat × Nat × Nat × Int) :=
  [(65, 25, 1, 32), (101, 22, 1, 32), (1, 6, 1, 32), (33, 46, 2, 1), (3, 4, 2, 1), (2, 14, 2, 1),
    (2, 44, 2, 1), (1, 0, 1, -121), (0, 4, 2, 1), (3, 0, 1, 210), (0, 2, 2, 1), (1, 0, 1, 206),
    (0, 0, 1, 1), (1, 1, 1, 205), (0, 0, 1, 1), (2, 0, 1, 79), (0, 0, 1, 202), (0, 0, 1, 203), (0, 0, 1, 1),
    (1, 0, 1, 205), (0, 0, 1, 207), (1, 0, 1, 211), (0, 0, 1, 209), (0, 0, 1, 1), (3, 0, 1, 211),
    (0, 0, 1, 213), (1, 0, 1, 214), (0, 4, 2, 1), (1, 0, 1, 218), (0, 0, 1, 1), (1, 0, 1, 218),
    (2, 0, 1, 1), (1, 0, 1, 218), (0, 0, 1, 1), (1, 1, 1, 217), (0, 2, 2, 1), (1, 0, 1, 219), (0, 0, 1, 1),
    (3, 0, 1, 1), (7, 0, 1, 2), (2, 0, 1, 2), (2, 0, 1, 2), (2, 14, 2, 1), (2, 16, 2, 1), (2, 0, 1, 2),
    (2, 0, 1, 1), (1, 0, 1, -97), (0, 0, 1, -56), (0, 38, 2, 1), (1, 0, 1, -130), (1, 16, 2, 1),
    (7, 0, 1, 10795), (0, 0, 1, 1), (1, 0, 1, -163), (0, 0, 1, 10792), (2, 0, 1, 1), (1, 0, 1, -195),
    (0, 0, 1, 69), (0, 0, 1, 71), (0, 8, 2, 1), (289, 2, 2, 1), (3, 0, 1, 1), (8, 0, 1, 116), (6, 0, 1, 38),
    (1, 2, 1, 37), (1, 0, 1, 64), (1, 1, 1, 63), (1, 16, 1, 32), (1, 8, 1, 32), (35, 0, 1, 8),
    (8, 22, 2, 1), (8, 0, 1, 1), (1, 0, 1, -7), (0, 0, 1, 1), (2, 2, 1, -130), (0, 15, 1, 80),
    (0, 31, 1, 32), (48, 32, 2, 1), (9, 52, 2, 1), (1, 0, 1, 15), (0, 12, 2, 1), (2, 94, 2, 1),
    (2, 37, 1, 48), (2889, 37, 1, 7264), (1, 0, 1, 7264), (5, 0, 1, 7264), (722, 79, 1, 38864),
    (0, 5, 1, 8), (2195, 0, 1, 1), (6, 42, 1, -3008), (2, 2, 1, -3008), (320, 148, 2, 1), (11, 94, 2, 1),
    (9, 7, 1, -8), (8, 5, 1, -8), (10, 7, 1, -8), (8, 7, 1, -8), (8, 5, 1, -8), (11, 6, 2, -8),
    (8, 7, 1, -8), (72, 1, 1, -8), (0, 1, 1, -74), (12, 3, 1, -86), (12, 1, 1, -8), (0, 1, 1, -100),
    (12, 1, 1, -8), (0, 1, 1, -112), (0, 0, 1, -7), (11, 1, 1, -128), (0, 1, 1, -126), (310, 0, 1, 28),
    (45, 15, 1, 16), (19, 0, 1, 1), (818, 25, 1, 26), (1840, 47, 1, 48), (48, 0, 1, 1), (1, 0, 1, -10743),
    (0, 0, 1, -3814), (0, 0, 1, -10727), (2, 4, 2, 1), (1, 0, 1, -10780), (0, 0, 1, -10749),
    (0, 0, 1, -10783), (0, 0, 1, -10782), (1, 0, 1, 1), (2, 0, 1, 1), (8, 1, 1, -10815), (0, 98, 2, 1),
    (8, 2, 2, 1), (4, 0, 1, 1), (31053, 44, 2, 1), (19, 26, 2, 1), (135, 12, 2, 1), (3, 60, 2, 1),
    (10, 2, 2, 1), (1, 0, 1, -35332), (0, 8, 2, 1), (4, 0, 1, 1), (1, 0, 1, -42280), (2, 2, 2, 1),
    (3, 18, 2, 1), (1, 0, 1, -42308), (0, 0, 1, -42319), (0, 0, 1, -42315), (0, 0, 1, -42305),
    (0, 0, 1, -42308), (1, 0, 1, -42258), (0, 0, 1, -42282), (0, 0, 1, -42261), (0, 0, 1, 928),
    (0, 14, 2, 1), (1, 0, 1, -48), (0, 0, 1, -42307), (0, 0, 1, -35384), (0, 2, 2, 1), (1, 0, 1, -42343),
    (0, 14, 2, 1), (1, 0, 1, -42561), (24, 0, 1, 1), (22315, 25, 1, 32), (1221, 39, 1, 40),
    (136, 35, 1, 40), (156, 10, 1, 39), (1, 14, 1, 39), (1, 6, 1, 39), (1, 1, 1, 39), (1770, 50, 1, 64),
    (157, 21, 1, 32), (2874, 31, 1, 32), (21888, 31, 1, 32), (64, 24, 1, 27), (31303, 33, 1, 34)]

/-- The Greek letters with an iota below, eight small ones and eight capitals by turns. -/
def iotaLetters : List Nat :=
  (List.range 48).map (0x1F80 + ·)

/-- Upper case where it is not the capital of a pair. The iota below becomes a capital of its own. -/
def upperSpecials : List (Nat × List Nat) :=
  iotaLetters.map (fun code => (code, [code % 8 + [0x1F08, 0x1F28, 0x1F68].getD (code / 16 % 4) 0, 0x399])) ++
  [(0xB5, [0x39C]), (0xDF, [0x53, 0x53]), (0x131, [0x49]), (0x149, [0x2BC, 0x4E]), (0x17F, [0x53]),
    (0x1C5, [0x1C4]), (0x1C8, [0x1C7]), (0x1CB, [0x1CA]), (0x1F0, [0x4A, 0x30C]), (0x1F2, [0x1F1]),
    (0x345, [0x399]), (0x390, [0x399, 0x308, 0x301]), (0x3B0, [0x3A5, 0x308, 0x301]), (0x3C2, [0x3A3]),
    (0x3D0, [0x392]), (0x3D1, [0x398]), (0x3D5, [0x3A6]), (0x3D6, [0x3A0]), (0x3F0, [0x39A]),
    (0x3F1, [0x3A1]), (0x3F5, [0x395]), (0x587, [0x535, 0x552]), (0x1C80, [0x412]), (0x1C81, [0x414]),
    (0x1C82, [0x41E]), (0x1C83, [0x421]), (0x1C84, [0x422]), (0x1C85, [0x422]), (0x1C86, [0x42A]),
    (0x1C87, [0x462]), (0x1C88, [0xA64A]), (0x1E96, [0x48, 0x331]), (0x1E97, [0x54, 0x308]),
    (0x1E98, [0x57, 0x30A]), (0x1E99, [0x59, 0x30A]), (0x1E9A, [0x41, 0x2BE]), (0x1E9B, [0x1E60]),
    (0x1F50, [0x3A5, 0x313]), (0x1F52, [0x3A5, 0x313, 0x300]), (0x1F54, [0x3A5, 0x313, 0x301]),
    (0x1F56, [0x3A5, 0x313, 0x342]), (0x1FB2, [0x1FBA, 0x399]), (0x1FB3, [0x391, 0x399]),
    (0x1FB4, [0x386, 0x399]), (0x1FB6, [0x391, 0x342]), (0x1FB7, [0x391, 0x342, 0x399]),
    (0x1FBC, [0x391, 0x399]), (0x1FBE, [0x399]), (0x1FC2, [0x1FCA, 0x399]), (0x1FC3, [0x397, 0x399]),
    (0x1FC4, [0x389, 0x399]), (0x1FC6, [0x397, 0x342]), (0x1FC7, [0x397, 0x342, 0x399]),
    (0x1FCC, [0x397, 0x399]), (0x1FD2, [0x399, 0x308, 0x300]), (0x1FD3, [0x399, 0x308, 0x301]),
    (0x1FD6, [0x399, 0x342]), (0x1FD7, [0x399, 0x308, 0x342]), (0x1FE2, [0x3A5, 0x308, 0x300]),
    (0x1FE3, [0x3A5, 0x308, 0x301]), (0x1FE4, [0x3A1, 0x313]), (0x1FE6, [0x3A5, 0x342]),
    (0x1FE7, [0x3A5, 0x308, 0x342]), (0x1FF2, [0x1FFA, 0x399]), (0x1FF3, [0x3A9, 0x399]),
    (0x1FF4, [0x38F, 0x399]), (0x1FF6, [0x3A9, 0x342]), (0x1FF7, [0x3A9, 0x342, 0x399]),
    (0x1FFC, [0x3A9, 0x399]), (0xFB00, [0x46, 0x46]), (0xFB01, [0x46, 0x49]), (0xFB02, [0x46, 0x4C]),
    (0xFB03, [0x46, 0x46, 0x49]), (0xFB04, [0x46, 0x46, 0x4C]), (0xFB05, [0x53, 0x54]),
    (0xFB06, [0x53, 0x54]), (0xFB13, [0x544, 0x546]), (0xFB14, [0x544, 0x535]), (0xFB15, [0x544, 0x53B]),
    (0xFB16, [0x54E, 0x546]), (0xFB17, [0x544, 0x53D])]

/-- Lower case where it is not the small letter of a pair. -/
def lowerSpecials : List (Nat × List Nat) :=
  (iotaLetters.filter (8 ≤ · % 16)).map (fun code => (code, [code - 8])) ++
  [(0x130, [0x69, 0x307]), (0x1C5, [0x1C6]), (0x1C8, [0x1C9]), (0x1CB, [0x1CC]), (0x1F2, [0x1F3]),
    (0x3F4, [0x3B8]), (0x1E9E, [0xDF]), (0x1FBC, [0x1FB3]), (0x1FCC, [0x1FC3]), (0x1FFC, [0x1FF3]),
    (0x2126, [0x3C9]), (0x212A, [0x6B]), (0x212B, [0xE5])]

/-- How many code points in a row have no case, and how many then have it, by turns. -/
def casedTurns : List Nat :=
  [65, 26, 6, 26, 47, 1, 10, 1, 4, 1, 5, 23, 1, 31, 1, 195, 1, 4, 4, 208, 2, 35, 7, 2, 30, 5, 96, 1, 42, 4,
    2, 2, 2, 4, 1, 1, 6, 1, 1, 3, 1, 1, 1, 20, 1, 83, 1, 139, 8, 166, 1, 38, 9, 41, 2839, 38, 1, 1, 5, 1, 2,
    43, 1, 4, 672, 86, 2, 6, 2178, 11, 5, 43, 2, 3, 64, 192, 64, 278, 2, 6, 2, 38, 2, 6, 2, 8, 1, 1, 1, 1, 1,
    1, 1, 31, 2, 53, 1, 7, 1, 1, 3, 3, 1, 7, 3, 4, 2, 6, 4, 13, 5, 3, 1, 7, 116, 1, 13, 1, 16, 13, 101, 1, 4,
    1, 2, 10, 1, 1, 3, 5, 6, 1, 1, 1, 1, 1, 1, 4, 1, 6, 4, 1, 2, 4, 5, 5, 4, 1, 17, 32, 3, 2, 817, 52, 1814,
    229, 6, 4, 3, 2, 12, 38, 1, 1, 5, 1, 30994, 46, 18, 30, 132, 102, 3, 4, 1, 77, 20, 6, 1, 3, 821, 43, 1,
    14, 6, 80, 20288, 7, 12, 5, 1033, 26, 6, 26, 1189, 80, 96, 36, 4, 36, 116, 11, 1, 15, 1, 7, 1, 2, 1, 11,
    1, 15, 1, 7, 1, 2, 451, 1, 2, 3, 1, 42, 1, 9, 1221, 51, 13, 51, 93, 22, 10, 22, 2842, 64, 21856, 64, 32,
    25, 2, 25, 25900, 85, 1, 71, 1, 2, 2, 1, 2, 2, 2, 4, 1, 12, 1, 1, 1, 7, 1, 65, 1, 4, 2, 8, 1, 7, 1, 28, 1,
    4, 1, 5, 1, 1, 3, 7, 1, 340, 2, 25, 1, 25, 1, 31, 1, 25, 1, 31, 1, 25, 1, 31, 1, 25, 1, 31, 1, 25, 1, 8,
    1844, 10, 1, 20, 6, 6, 261, 62, 2194, 68, 2028, 26, 6, 26, 6, 26]

/-- How many code points in a row stop a search for a cased neighbour, and how many then it passes over, by turns. It
passes over marks as well. -/
def caseIgnorableTurns : List Nat :=
  [39, 1, 6, 1, 11, 1, 35, 1, 1, 1, 71, 1, 6, 1, 4, 1, 2, 2, 503, 80, 116, 2, 4, 1, 9, 2, 1, 1, 465, 1, 5, 1,
    148, 1, 75, 1, 164, 2, 269, 2, 4, 1, 31, 15, 95, 1, 64, 1, 167, 1, 1236, 1, 127, 1, 565, 1, 1754, 1, 107,
    1, 611, 1, 464, 6, 174, 63, 13, 1, 34, 37, 509, 1, 1, 3, 11, 3, 13, 3, 13, 3, 13, 2, 25, 2, 10, 1, 2, 1,
    73, 1, 13, 1, 16, 13, 3039, 2, 241, 1, 191, 1, 469, 1, 43, 5, 5, 1, 95, 4, 93, 3, 28438, 1, 1250, 6, 270,
    1, 114, 1, 28, 2, 98, 34, 78, 1, 23, 3, 102, 4, 3, 2, 469, 1, 22, 1, 137, 1, 108, 1, 21, 2, 102, 5, 9, 3,
    20550, 17, 592, 1, 62, 1, 2, 1, 177, 1, 6, 1, 11, 1, 35, 1, 1, 1, 47, 1, 45, 2, 67, 1, 1948, 6, 1, 42, 1,
    9, 1427, 1, 32, 1, 341, 1, 3859, 1, 19814, 4, 508, 3, 40, 2, 550, 13, 64, 2, 1, 1, 14, 2, 16380, 4, 1, 7,
    1, 2, 12337, 62, 201, 7, 941, 1, 531, 1, 587, 1, 2735, 5]

end Scriptlet.Text
