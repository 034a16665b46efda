import ApexPaths.Text.Classes

/-!
Quoted text, and which characters are shown as themselves inside it: those that are visible and do not attach to the
character before them.
-/

namespace ApexPaths.Text

set_option maxRecDepth 4000

/-- The visible characters above ASCII: neither controls, formats, separators, private nor unassigned. -/
def visibleRanges : List (Nat × Nat) := rangesAfter 0 [
  161,11,2,713,3,5,5,6,2,0,2,19,2,396,2,37,3,49,3,2,2,54,9,26,5,5,18,21,2,191,2,47,3,58,3,100,15,58,3,48,3,14,2,27,3,
  0,2,10,6,31,8,74,2,160,2,7,3,1,3,21,2,6,2,0,4,3,3,8,3,1,3,3,9,0,5,1,2,4,3,24,3,2,2,5,5,1,3,21,2,6,2,1,2,1,2,1,3,0,2,
  4,5,1,3,2,4,0,8,3,2,0,8,16,11,2,2,8,2,2,2,21,2,6,2,1,2,4,3,9,2,2,2,2,3,0,16,3,3,11,8,6,2,2,2,7,3,1,3,21,2,6,2,1,2,4,
  3,8,3,1,3,2,8,2,5,1,2,4,3,17,11,1,2,5,4,2,2,3,4,1,2,0,2,1,4,1,4,2,4,11,5,4,4,2,2,3,3,0,7,0,15,20,6,12,2,2,2,22,2,15,
  3,8,2,2,2,3,8,1,2,2,2,1,3,3,3,9,8,21,2,2,2,22,2,9,2,4,3,8,2,2,2,3,8,1,6,2,2,3,3,9,2,2,13,12,2,2,2,50,2,2,2,5,5,15,3,
  25,2,2,2,17,4,23,2,8,2,0,3,6,4,0,5,5,2,0,2,7,7,9,3,2,13,57,5,28,38,1,2,0,2,4,2,23,2,0,2,22,3,4,2,0,2,6,2,9,3,3,33,
  71,2,35,5,38,2,35,2,14,2,12,38,197,2,0,6,0,3,376,2,3,3,6,2,0,2,3,3,40,2,3,3,32,2,3,3,6,2,0,2,3,3,14,2,56,2,3,3,66,3,
  31,4,25,7,85,3,5,3,639,2,27,4,88,8,21,10,23,10,19,13,12,2,2,2,1,13,93,3,9,7,9,7,13,2,10,7,88,8,42,6,69,11,30,2,11,5,
  11,5,0,4,41,3,4,12,43,5,25,7,10,4,61,3,64,2,28,3,10,7,9,7,13,3,45,3,11,21,76,2,165,9,59,4,14,4,61,6,42,3,10,9,42,6,
  533,3,5,3,37,3,5,3,7,2,0,2,0,2,0,2,30,3,52,2,14,2,13,3,5,2,18,3,2,2,8,18,23,9,46,18,1,3,26,2,12,4,33,15,32,16,139,5,
  665,23,10,22,1811,3,381,6,44,2,0,6,0,3,55,8,1,15,23,10,6,2,6,2,6,2,6,2,6,2,6,2,6,2,6,2,125,35,25,2,88,13,213,27,15,
  2,62,2,85,3,102,6,42,2,93,2,85,10,47,2,29292,4,54,10,347,21,183,9,220,21,59,4,9,7,55,9,69,9,11,7,115,12,29,4,77,2,
  10,5,32,2,54,10,13,3,9,3,102,25,27,11,5,3,5,3,5,10,6,2,6,2,59,5,125,3,9,7,11171,13,22,5,48,8453,365,3,105,39,6,13,4,
  6,25,2,4,2,0,2,1,2,1,2,649,33,41,7,50,2,18,2,3,5,4,2,134,5,189,4,5,3,5,3,5,3,2,4,6,2,6,14,1,3,11,2,25,2,18,2,1,2,14,
  3,13,35,122,6,2,5,44,4,87,2,12,4,0,48,45,131,28,4,48,16,27,5,35,10,29,6,42,6,29,2,36,5,13,43,157,3,9,7,35,5,35,5,39,
  9,51,12,11,2,14,2,6,2,1,2,10,2,14,2,6,2,1,4,51,13,310,10,21,11,7,25,5,2,41,2,8,70,5,3,0,2,43,2,1,4,0,3,22,2,71,9,8,
  49,18,2,1,6,32,4,26,6,26,39,55,5,19,3,49,2,1,6,7,2,2,2,28,3,2,5,9,8,8,8,63,33,38,5,11,10,53,4,28,3,26,6,25,8,3,13,6,
  81,72,56,50,14,50,8,45,9,9,7,37,4,28,9,1,209,30,2,41,2,2,3,1,17,5,9,8,34,45,9,41,23,25,39,27,21,22,10,77,5,35,10,61,
  2,4,14,24,8,9,7,52,2,17,9,38,10,95,2,19,12,17,2,46,63,6,2,0,2,3,2,14,2,10,7,58,6,9,7,3,2,7,3,1,3,21,2,6,2,1,2,4,2,9,
  3,1,3,2,3,0,7,0,6,6,3,6,4,4,12,9,2,0,3,0,2,37,2,9,2,0,3,0,2,3,2,9,2,1,9,1,30,91,2,4,31,71,9,9,167,53,3,37,35,68,12,
  9,7,12,20,57,7,9,7,19,29,26,3,14,5,22,186,59,101,82,13,7,3,0,3,7,2,1,2,29,2,1,3,11,10,9,71,7,3,45,3,10,28,71,9,82,
  14,72,8,9,87,7,89,33,15,9,7,8,2,44,2,13,11,28,4,31,3,21,2,13,74,6,2,1,2,43,4,0,2,1,2,8,9,9,7,5,2,1,2,36,2,1,2,5,8,9,
  7,43,5,9,247,24,8,16,2,40,4,28,86,0,16,49,14,922,103,110,2,4,12,195,2637,98,14,1071,17,21,11,3994,6,582,6842,57,
  1735,568,8,30,2,9,5,80,2,9,7,29,3,5,11,69,11,9,2,6,2,20,6,18,433,57,199,90,6,24,3,24,45,74,5,56,8,16,65,4,12,6,10,
  7381,42,31,98,114,8702,3,2,6,2,1,2,290,16,0,30,2,3,0,15,3,9,395,2309,106,6,12,4,8,8,9,3,3,3937,252,4,435,7,22,16,16,
  16,45,3,22,10,115,61,245,11,38,3,73,9,111,22,69,123,19,13,19,13,86,10,24,136,84,2,70,2,1,3,0,3,1,3,3,2,11,2,0,2,6,2,
  64,2,3,3,7,2,6,2,27,2,3,2,4,2,0,4,6,2,339,3,291,3,701,16,4,2,14,1105,30,7,5,214,6,2,16,3,6,2,1,2,4,6,61,34,0,113,44,
  4,13,3,9,5,1,321,30,18,57,6,0,465,41,215,42,5,0,193,30,2,21,9,1,225,6,2,3,2,1,2,14,2,196,3,15,42,75,5,9,5,1,786,67,
  77,60,195,3,2,26,2,1,2,0,3,0,2,9,2,3,2,0,2,0,7,0,5,0,2,0,2,0,2,2,2,1,2,0,3,0,2,0,2,0,2,0,2,0,2,1,2,0,3,3,2,6,2,3,2,
  3,2,0,2,9,2,16,6,2,2,4,2,16,53,1,271,43,5,99,13,14,3,14,2,14,2,36,11,173,57,28,14,43,5,8,8,1,15,5,155,984,4,16,4,12,
  4,217,7,11,5,0,16,11,5,55,9,9,7,39,9,29,3,11,5,1,15,8,40,343,9,13,3,12,4,10,4,56,2,0,5,15,3,11,5,9,8,146,2,102,1030,
  42719,33,4381,3,5773,3,7472,16,621,2467,541,1507,4938,6,8489,707719,239]

/-- The characters above ASCII that attach to the one before them, or that leave no trace where they are
ignored. The half-width sound marks stand on their own. -/
def extenderRanges : List (Nat × Nat) := rangesAfter 0 [
  768,111,276,6,264,44,2,0,2,1,2,1,2,0,73,10,49,20,17,0,102,6,3,5,3,1,2,3,36,0,31,26,92,10,59,8,10,0,25,3,2,8,2,2,2,4,
  44,2,60,8,43,23,2,31,56,0,2,0,5,7,5,0,4,6,11,1,30,0,59,0,2,0,3,3,9,0,10,0,11,1,27,0,3,1,58,0,5,1,5,1,3,2,4,0,31,1,4,
  0,12,1,58,0,5,4,2,1,5,0,21,1,23,5,2,0,59,0,2,1,2,3,9,0,8,2,11,1,31,0,60,0,2,0,13,0,10,0,41,0,4,0,56,0,2,2,6,2,2,3,8,
  1,12,1,30,0,59,0,3,1,2,0,4,2,2,3,8,1,12,1,29,1,58,1,2,0,3,3,9,0,10,0,11,1,30,0,73,0,5,0,3,2,2,0,9,0,82,0,3,6,13,7,
  99,0,3,8,12,6,74,1,28,0,2,0,2,0,56,13,2,4,2,1,6,10,2,35,10,0,103,3,2,5,2,1,3,1,26,1,5,2,17,3,14,0,3,1,7,0,16,0,194,
  1,509,2,947,3,29,2,30,1,31,1,65,1,2,6,9,0,3,10,10,0,46,2,2,0,118,1,35,0,119,2,5,1,10,0,7,2,220,1,3,0,59,0,2,6,2,0,2,
  0,3,7,7,9,3,0,49,45,3,11,21,3,49,9,5,2,39,8,13,1,33,3,3,5,57,0,2,1,4,0,2,4,57,7,3,1,153,2,2,12,2,6,5,0,7,0,4,1,199,
  63,525,0,196,32,3071,2,142,0,97,31,555,5,106,1,202,0,29963,3,2,9,33,1,81,1,273,0,4,0,5,0,26,1,6,0,152,1,27,17,14,0,
  39,7,26,10,2,0,45,2,49,0,3,3,3,1,3,0,37,0,68,5,3,1,3,1,13,0,9,0,48,0,52,0,2,2,3,1,6,1,2,0,43,1,9,0,239,0,3,0,5,0,
  20273,0,738,15,17,15,369,0,605,0,227,0,150,4,1671,2,2,1,6,3,41,2,5,0,166,1,574,3,66,4,318,1,78,5,71,10,50,3,124,0,
  55,14,42,0,3,1,11,2,50,3,3,1,8,0,62,2,37,4,2,7,63,0,13,1,53,8,2,0,9,3,3,0,96,2,3,3,7,0,3,0,158,0,4,7,22,1,58,1,2,0,
  2,0,13,0,10,0,15,6,4,4,68,0,3,5,2,0,3,0,2,2,5,2,2,0,15,1,86,7,3,2,2,0,24,0,82,0,3,5,2,0,3,0,2,1,2,1,236,0,3,3,7,1,2,
  1,28,1,86,7,3,0,2,1,107,0,2,0,3,7,102,0,2,0,3,3,2,4,260,8,2,1,246,0,11,3,5,0,145,3,3,1,5,0,33,9,41,5,3,3,9,0,10,5,3,
  2,47,12,2,1,199,0,2,2,2,0,202,6,2,5,2,0,83,21,3,6,2,1,2,1,123,5,4,0,2,1,2,6,2,0,73,1,4,0,2,0,348,1,12,1,53,4,6,2,24,
  0,5350,0,7,14,11465,11,4,2,2497,4,60,6,1049,0,64,3,82,0,12,1,19628,1,4706,45,3,22,543,4,4,5,9,7,3,6,31,3,149,2,1980,
  54,5,49,9,0,15,0,23,4,2,14,1361,6,2,16,3,6,2,1,2,4,101,0,161,6,376,0,62,3,509,3,255,1,244,0,3,0,8,1,6,0,475,6,110,6,
  792278,95,129,239]

def isVisible (c : Char) : Bool :=
  if c.toNat < 0x80 then 0x20 ≤ c.toNat && c.toNat < 0x7F else inRanges visibleRanges c

/-- A character that attaches to the one before it or leaves no trace. -/
def isExtender (c : Char) : Bool :=
  0x80 ≤ c.toNat && inRanges extenderRanges c

/-!
## Quotes

Double quotes around, the usual short escapes, and a code
point in braces for every character that would not show.
-/

/-- A code point in lower-case hexadecimal, between braces after the escape mark. -/
def codeEscape (c : Char) : List Char :=
  ['\\', 'u', Char.ofNat 0x7B] ++ Nat.toDigits 16 c.toNat ++ [Char.ofNat 0x7D]

def quotedChar (c : Char) : List Char :=
  if c = '"' then ['\\', '"']
  else if c = '\\' then ['\\', '\\']
  else if c = '\n' then ['\\', 'n']
  else if c = '\r' then ['\\', 'r']
  else if c = '\t' then ['\\', 't']
  else if c.toNat = 0 then ['\\', '0']
  else if isExtender c || !isVisible c then codeEscape c
  else [c]

def quoted (s : String) : String :=
  String.ofList ('"' :: s.toList.flatMap quotedChar ++ ['"'])

end ApexPaths.Text
