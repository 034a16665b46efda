import ApexPaths.Pattern.CharSet
import ApexPaths.Text.Integer

/-!
The classes of characters of version 16 of the character database. A class lists the names of other classes and
code points. An entry for code points tells in hexadecimal digits how far it begins after the last code point
before it; after a dash, how far it reaches; and after a slash, the step between its members.
-/

namespace ApexPaths.Pattern
set_option autoImplicit false

/-- A class of characters: those of some entries less those of others, each the name of a class or code points. Names
are in lower case without separators. -/
structure PropertyRule where
  names : List String
  members : List String
  less : List String := []

/-- A script with its characters and with the further characters that it shares with others. -/
structure Script where
  names : List String
  table : List String
  shared : List String := []

namespace Property

/-! ## Tables -/

/-- The words of a text between blanks and line breaks. -/
def words (text : String) : List String :=
  let pieces := Text.splitOn ' ' (text.toList.map fun c => if c = '\n' then ' ' else c)
  (pieces.filter (!·.isEmpty)).map String.ofList

def rule (names members : String) (less : String := "") : PropertyRule := ⟨words names, words members, words less⟩

def script (names table : String) (shared : String := "") : Script := ⟨words names, words table, words shared⟩

/-- The entry names a class. -/
def isName (entry : String) : Bool := entry.toList.head?.any Char.isLower

def hex (digits : List Char) : Nat := (Text.digitsInBase? 16 digits).getD 0

/-- The single code points from one to another with a step between them. -/
def stepped (first last step : Nat) : List (Nat × Nat) :=
  (List.range ((last - first) / step + 1)).map fun i => (first + step * i, first + step * i)

/-- The ranges of the entries after a code point. -/
def entryRanges (code : Nat) : List String → List (Nat × Nat)
  | [] => []
  | entry :: rest =>
    match Text.splitOn '-' entry.toList with
    | [gap, more] =>
      let first := code + hex gap
      match Text.splitOn '/' more with
      | [more, step] => stepped first (first + hex more) (hex step) ++ entryRanges (first + hex more) rest
      | _ => (first, first + hex more) :: entryRanges (first + hex more) rest
    | _ =>
      let only := code + hex entry.toList
      (only, only) :: entryRanges only rest

/-- The characters of the entries that are code points. -/
def ofEntries (entries : List String) : CharSet := .ofRanges (entryRanges 0 (entries.filter (!isName ·)))

/-!
## General categories

Every character has one category of two letters; the letters alone and a few more names stand for several.
-/

def letterCategories : List PropertyRule := [
  rule "lu uppercaseletter"
    "41-19 66-16 2-6 22-36/2 3-E/2 3-2C/2 2-1 2 2 4-1 2 2-1 2-2 3-3 2-1 2-2 4-1 2-1 2 2 2-1 2 3 2-1 2-2 2
    2-1 4 8 3 3 3-E/2 3-10/2 3 3 2-2 2-38/2 8-1 2-1 3 2-3 2-6/2 122 2 4 9 7 2-2 2 2-1 2-10 2-8 24 3-2 4-16/2
    6 3 2-1 3-32 31-20/2 A-34/2 2-1 2-A/2 3-5E/2 3-25 B4A-25 2 6 2D3-55 894 7-2A 3-2 141-94/2 A-60/2 A-7 9-5
    B-7 9-7 9-5 C-6/2 9-7 49-3 D-3 D-3 D-4 C-3 107 5 4-2 3-2 3 4-4 7-4/2 2-3 3-3 B-1 6 3E A7D-2F 31 2-2
    3-4/2 2-3 2 3 9-2 2-60/2 9 2 5 794E-2C/2 14-1A/2 88-C/2 4-3C/2 B 2 2-1 2-6/2 5 2 3 2 4-12/2 2-4 2-4
    2-C/2 2-3 2 2-1 4 6-6/2 19 572C-19 4C6-27 89-23 9D-A 2-E 2-6 2-1 6EB-32 9E-15 B3B-1F 5581-1F 65A1-19
    1B-19 1B-19 1B 2-1 3 3-1 3-3 2-7 1B-19 1B-1 2-3 3-7 2-6 1C-1 2-3 2-4 2 4-6 1C-19 1B-19 1B-19 1B-19 1B-19
    1B-19 1F-18 22-18 22-18 22-18 22-18 22 1136-21",
  rule "ll lowercaseletter"
    "61-19 3B 2A-17 2-7 2-34/2 2-1 2-C/2 2-1 2-2C/2 3 2 2-2 3 2 3 4-1 5 3 4-2 3 3-4/2 3 2-1 2 3 4 2 3-1 3-2
    7 3 3-E/2 2-1 2-E/2 2-1 3 2 4-38/2 2-6 3 3-1 2 5-6/2 2-44 2-1A C2 2 4 4-2 13 1C-22 2-1 4-2 2-14/2 2-4 2
    3 3-1 34-2F 2-20/2 A-34/2 3-A/2 2-1 2-5E/2 31-28 B48-2A 3-2 2F9-5 883-8 2 76-2B 40-C 2-21 67-92/2 2-8
    2-5E/2 2-8 9-5 B-7 9-7 9-5 B-7 9-7 9-D 3-7 9-7 9-7 9-4 2-1 7 4-2 2-1 9-3 3-1 9-7 B-2 2-1 113 4-1 4 1C 5
    5 3-1 9-3 5 36 AAC-2F 2 4-1 2-4/2 5 2-1 2-5 6-60/2 2-1 8 2 5 D-25 2 6 7914-2C/2 14-1A/2 88-A/2 2-2
    2-3C/2 2-7 2 2 3-8/2 5 2 3 2-2 2-12/2 6 6-E/2 5 2 3 4-A/2 1B 4 336-2A 6-8 8-4F 4F41-6 D-4 42A-19 4CE-27
    89-23 9C-A 2-E 2-6 2-1 704-32 7E-15 B3B-1F 5581-1F 659B-19 1B-6 2-11 1B-19 1B-3 2 2-6 2-A 1B-19 1B-19
    1B-19 1B-19 1B-19 1B-19 1B-19 1B-19 1B-1B 1D-18 2-5 1B-18 2-5 1B-18 2-5 1B-18 2-5 1B-18 2-5 2 735-9 2-13
    7-5 9F8-21",
  rule "lt titlecaseletter" "1C5 3 3 27 1D96-7 9-7 9-7 D 10 30",
  rule "lm modifierletter"
    "2B0-11 5-B F-4 8 2 86 6 1DF E7 A5-1 10E-1 5 20 A 4 A1 A8 4D5 80 236 6DB 6C 264 1D1-5 AF-3E E 23-24 2B2
    E 11-C BE0-1 F2 C0 1D6 2C-4 6 62-1 5E-2 6F17 4E3-5 10F 73 1D-1 7A-8 51 18 6A-2 4-1 1D6 17 8A 6D 16-1
    68-3 A 5407 2E-1 7E1-5 2-29 2-8 594 21 5DD1-3 1FD-2 29-1 227-C 41-1 2 400D-3 2-6 2-1 3032-3D CA-6 3AE
    460",
  rule "lo otherletter"
    "AA 10 101 5-3 D1 33C-1A 5-3 2E-1F 2-9 24-1 2-62 2 19-1 B-2 3 11 2-1D 1E-58 C 19-20 16-15 2B-18 8-A 6-17
    2-5 12-28 3C-35 4 13 8-9 11-E 5-7 3-1 3-15 2-6 2 4-3 4 11 E-1 2-2 F-1 B 9-5 5-1 3-15 2-6 2-1 2-1 2-1
    20-3 2 14-2 11-8 2-2 2-15 2-6 2-1 2-4 4 13 10-1 18 C-7 3-1 3-15 2-6 2-1 2-4 4 1F-1 2-2 10 12 2-5 4-2 2-3
    4-1 2 2-1 4-1 4-2 4-B 17 35-7 2-2 2-16 2-F 4 1B-2 3 3-1 1F 5-7 2-2 2-16 2-9 2-4 4 20-1 2-1 10-1 12-8 2-2
    2-28 3 11 6-2 9-2 19-5 6-11 4-17 2-8 2 3-6 3B-2F 2-1 D-5 3C-1 2 2-4 2-17 2 2-9 2-1 A 3-4 18-3 21 40-7
    2-23 1C-4 74-2A 15 11-5 5-3 4 4-1 8-2 5-C D 72-148 2-3 3-6 2 2-3 3-28 2-3 3-20 2-3 3-6 2 2-3 3-E 2-38
    2-3 3-42 26-F 72-26B 3-10 2-19 6-4A 7-7 8-11 E-12 F-11 F-C 2-2 10-33 29 44-22 2-34 8-4 3-21 2 6-45 B-1E
    32-1D 3-4 C-2B 5-19 37-16 A-34 B1-2E 12-7 37-1D E-1 B-2B 1B-23 2A-2 B-1D 72-3 2-5 2-1 4 43B-3 BF8-37
    19-16 A-6 2-6 2-6 2-6 2-6 2-6 2-6 2-6 228 36 5-55 9 2-59 5 6-2A 2-5D 12-1F 31-F 201-19BF 41-5214 2-476
    44-27 9-10B 5-F B-1 43 32-45 AA 68 4-6 2-2 2-3 2-16 1E-33 F-31 3F-5 4 2-1 C-1B B-16 1A-1C 8-2E 2E-4 3-8
    B-4 2-28 18-2 2-7 15-F 2-5 4 4-31 2 4-1 3-4 3 2 19-1 4-A 8 F-5 3-5 3-5 A-6 2-6 92-22 1E-2BA3 D-16 5-30
    2105-16D 3-69 44 2-9 2-C 2-4 2 2-1 2-1 2-6B 22-16A 13-3F 3-35 29-B 75-4 2-86 6A-9 2-2C 3-1E 4-5 3-5 3-5
    3-2 24-B 2-19 2-12 2-1 2-E 3-D 23-7A 186-1C 4-30 30-1F E-13 2-7 7-25 B-1D 3-23 5-7 81-4D 63-27 9-33
    5D-33 D-136 A-15 B-7 99-5 3 2-2B 2-1 4 3-16 B-16 A-1E 42-12 2-1 B-15 B-19 47-37 7-1 41 10-3 2-2 2-1C
    2B-1C 4-1C 24-7 2-1B 1C-35 B-15 B-12 E-11 6F-48 B8-23 27-3 2 131-29 7-1 11-2 3C-1C B 9-15 2B-11 2F-14
    1C-16 D-34 3A-1 3 E-2C 21-18 1B-23 1E 3 9-22 4 D-2F F-3 16 2 24-11 2-18 14-1 40-6 2 2-3 2-E 2-9 8-2E
    27-7 3-1 3-15 2-6 2-1 2-4 4 13 D-4 1F-9 2 3 2-25 2 1A 2 2D-34 13-3 15-2 1F-2F 15-1 2 B9-2E 2A-3 25-2F 15
    3C-2A E 48-1A 26-6 BA-2B D4-7 3 3-7 2-1 2-17 10 2 5F-7 3-26 11 2 1D B-27 8 16 C-2D 14 13-48 C8-20 20-8
    2-24 12 32-1D 71-6 2-1 2-25 16 1A-5 2-1 2-1F F 148-12 10 2-C 2-21 7D 50-399 E7-C3 A4D-60 10-42F 12-5
    1A-F9A 6-246 1ABA-1D 6E3-238 8-1E 12-4E 12-1D 13-2F 34-14 6-12 1B4-27 196-4A 6 B0-17F7 9-4D5 2A-9
    22F8-122 10 1E-2 3 F-3 9-18B 905-6A 6-C 4-8 8-9 2271 1F6-2C 22 142-1D 13-2B 1E5-1A E6-1D 3 1F0-6 2-3 2-1
    2-E 2-C4 53C-3 2-1A 2-1 2 3 2-9 2-3 2 2 7 5-4/2 2-2 2-1 2 3-8/2 2-1 2 3-3 2-6 2-3 2-3 2 2-9 2-10 6-2 2-4
    2-10 1145-A6DF 21-1039 7-DD 3-1681 F-1D30 10-26D 9A3-21D 5E3-134A 6-105F",
  rule "lc casedletter" "lu ll lt",
  rule "l letter" "lc lm lo"]

/-- The categories of marks, numbers, punctuation, symbols, separators and others. -/
def otherCategories : List PropertyRule := [
  rule "any" "0-D7FF 801-101FFF",
  rule "ascii" "0-7F",
  rule "assigned" "l m n p s z cc cf co",
  rule "mn nonspacingmark"
    "300-6F 114-4 10A-2C 2 2-1 2-1 2 49-A 31-14 11 66-6 3-5 3-1 2-3 24 1F-1A 5C-A 3B-8 A 19-3 2-8 2-2 2-4
    2C-2 3C-8 2B-17 2-1F 38 2 5-7 5 4-6 B-1 1E 3B 5-3 9 15-1 1B 3-1 3A 5-1 5-1 3-2 4 1F-1 4 C-1 3A 5-4 2-1 5
    15-1 17-5 2 3B 3 2-3 9 8-1 C-1 1F 3E D 33 4 38 2-2 6-2 2-3 8-1 C-1 1E 3B 3 7 6-1 15-1 1D-1 3A-1 5-3 9
    15-1 1E 49 8-2 2 5B 3-6 D-7 63 3-8 C-6 4A-1 1C-4/2 38-D 2-4 2-1 6-A 2-23 A 67-3 2-5 2-1 3-1 1A-1 5-2
    11-3 E 3-1 7 10 2C0-2 3B3-2 1E-1 1F-1 1F-1 41-1 2-6 9 3-A A 2E-2 2 76-1 23 77-2 5-1 A 7-2 DC-1 3 3B 2-6
    2 2 3-7 7-9 3 31-D 2-F 32-3 31 2-4 2 6 29-8 D-1 21-3 3-1 2-2 39 2-1 4 2-2 3B-7 3-1 99-2 2-C 2-6 5 7 4-1
    C7-3F 2D1-C 5 4-B BFF-2 8E 61-1F 22B-3 6C-1 75D5 5-9 21-1 51-1 111 4 5 1A-1 6 98-1 1B-11 E 27-7 1A-A
    2F-2 31 3-3 3-1 28 44-5 3-1 3-1 D 9 30 34 2-2 3-1 6-1 2 2B-1 9 EF 3 5 4F31 2E2-F 11-F 3CE E3 96-4 687-2
    2-1 6-3 29-2 5 A6-1 23E-3 42-4 13E-1 50-3 47-A 32-3 7C 37-E 2A 3-1 B-2 32-3 3-1 8 3E-2 25-4 2-7 3F D-1
    35-8 B-3 3 60-2 3 2-1 7 3 9E 4-7 16-1 3A-1 4 26-6 4-4 47-5 E-4/2 F-1 56-7 3-2 2 18 55-5 2 5-1 2-1 EF-3
    7-1 2-1 1C-1 56-7 3 2-1 6B 2 3-5 2 66 2 3-3 2-4 104-8 2-1 101-1 2 5 91-3 3-1 5 21-9 29-5 3-3 9 A-5 3-2
    2F-C 2-1 197-6 2-5 2 53-15 3-6 2-1 2-1 7B-5 4 2-1 2-6 2 49-1 4 2 15C-1 C-1 35-4 6 2 18 14E6 7-E 2CC9-B
    4-2 9C1-4 3C-6 419 40-3 52 4CB9-1 1262-2D 3-16 221-2 12-7 3-6 1F-3 95-2 7BC-36 5-31 9 F 17-4 2-E 551-6
    2-10 3-6 2-1 2-4 65 A1-6 178 3E-3 1FD-3 FF-1 2E1-6 6E-6 C17B6-EF",
  rule "mc spacingmark"
    "903 38 3-2 9-3 2-1 33-1 3B-2 7-1 3-1 B 2C 3B-2 43 3B-2 9 2-1 36-1 3B 2 7-1 3-1 B 67-1 2-1 4-2 2-2 B
    2A-2 3E-3 3E-1 3B 2-4 3-1 2-1 A-1 1D F-1 3B-2 6-2 2-2 B 2B-1 4C-2 7-7 13-1 14B-1 40 AC-1 5 7 3-1 1A-1
    B-2 3-6 16-1 3-5 3 B-2 679 1F 82 8-7 2-1 15B-3 3-2 5-1 2-5 E1-1 3B 2 A 2-1 9-5 92 31 6 2-4 2-1 3E 1F 5-1
    3 3D 3-2 2 4-1 31-7 9-1 AC 16 1337-1 77F4-1 3 59-1 33-F 8F-1 30 31-1 5-1 3-2 6F-1 3-1 19 2E 2 6E 3-1 6
    EE-1 2-1 2-1 2 6414 2 80 2E-2 5-1 74 19-1 3C 31-2 A-1 E 5E-2 4-1 2 AB-2 20-1 3B-1 2-3 3-1 3-2 A B-1 55-2
    8 3 2-3 2-1 2 66-2 9-1 4 6B-2 7 2-3 3 EE-2 7-3 3 72-2 9-1 2 6E 2-1 7 68 2-1 5 106-2 A F8-5 2-1 5 3 2
    8F-2 9-3 5 55 1E-1 3F 198 F 6B 8 3 D6-4 5-1 2 15F-1 D 31-1 9-1 2 41E9-2 E25-36 69-1 6174-1 7-5",
  rule "me enclosingmark" "488-1 1635 61F-3 2-2 858C-2",
  rule "nd decimalnumber digit"
    "30-9 627-9 87-9 C7-9 19D-9 77-9 77-9 77-9 77-9 77-9 77-9 77-9 77-9 77-9 61-9 77-9 47-9 117-9 47-9 747-9
    27-9 12D-9 81-9 A7-9 7-9 B7-9 57-9 87-9 7-9 89C7-9 2A7-9 27-9 C7-9 17-9 57-9 197-9 5317-9 587-9 887-9
    7-9 31D-9 81-9 3D-9 91-9 117-9 157-9 77-9 177-9 67-9 7-13 4D-9 1A7-9 67-9 297-9 57-9 F7-9 47-9 1A7-9
    41D7-9 927-9 57-9 87-9 217-9 5F77-9 AD5-31 941-9 1A7-9 1F7-9 F8-9 356-9 1297-9",
  rule "nl letternumber" "16EE-2 A70-22 3-3 E7F 1A-8 F-2 76AC-9 5A51-34 1CD 9 87-4 202B-6E",
  rule "no othernumber"
    "B2-1 6 3-2 936-5 179-5 79-2 86-6 DA-6 12-8 1B2-9 436-13 474-9 1E1 696 4-5 7-9 C7-F 2A 2D7-3B 4F-15
    277-1D 56A 495-3 8B-9 1F-7 2-E 21-9 28-E 7571-5 58D2-2C 42-3 12-1 156-1A 25-3 535-7 1A-6 28-8 4C-4 17-5
    A1-1 3-F 3-2D 41-8 35-1 1F-2 4C-4 69-7 19-7 2A-6 14B-5 161-1E 9F-9 2B-3 71-6 87-13 17C-13 546-1 1AF-8
    368-12 354-14 4B87-6 31F-16 642A-13 D-13 6D-18 154F-8 3A2-3A 2-2 2-3 4D-2C 2-E 3C3-C",
  rule "pc connectorpunctuation" "5F 1FE0-1 14 DDDF-1 19-2 F0",
  rule "pd dashpunctuation" "2D 55D 34 E42 406 80A-5 E02 3 20-1 5 1D 1BF 14 70 CD91-1 26 B AA E61 13F",
  rule "ps openpunctuation"
    "28 33 20 EBF 2 75F 97F 4 27 38 10 27B 2 1F 43F-C/2 51 21-8/2 195-14/2 41 2 22 426-6/2 1A 13-6/2 1AD-8/2
    4-6/2 3 CD22 D8 1E-E/2 4 12-4/2 AB 33 20 4 3",
  rule "pe closepunctuation"
    "29 34 20 EBE 2 75F 9AA 38 10 27B 2 1F 43F-C/2 51 21-8/2 195-14/2 41 2 22 426-6/2 2D-6/2 1AD-8/2 4-6/2
    3-1 CD1F DA 1E-E/2 4 12-4/2 AB 34 20 3 3",
  rule "pi initialpunctuation" "AB 1F6D 3-1 3 1A DC9 2 5 3 10 4",
  rule "pf finalpunctuation" "BB 1F5E 4 1D DC9 2 5 3 10 4",
  rule "po otherpunctuation"
    "21-2 2-2 3 2 2-1 B-1 4-1 1C 45 6 F-1 8 2BF 9 1D3-5 2A 37 3 3 2D-1 15-1 2-1 E 2-2 4B-3 67 2C-D EA-2 37-E
    20 106-1 B 8D 79 7A 187 D 170 5B B-1 A9-E 2 71 4B-4 5-1 70-5 AC 265-8 306 7D-2 48-1 9E-2 2-2 26-5 2-3
    13A-1 D9-1 81-6 2-5 A1-1 B-6 1D-2 7D-3 3C-4 3F-1 41-7 C 343-1 9-7 9-8 3-3 3-2 4-A 2 2-9 C9B-3 2-1 71
    90-1 5-2 3 3-8 2-1 2 3-1 B-4 2-9 3-3 2 2-C 3-2 1AD-2 3A BE 7403-1 10E-2 64 B 74-5 17D-3 57-1 29-2 2 32-1
    30 62-C 11-1 7D-3 7F-1 11-1 FA 5225-6 3 17 15-1 3-3 4-2 2-3 8-2 7 2-1 96-2 2-2 3 2 2-1 B-1 4-1 1C 25 3-1
    19B-2 29D 31 19F 2E8 C8 20 111-8 27 71-6 43-6 5A-3 3B9-4 2D-3 BE-6 6E-1 2-3 7F-3 31-1 50-3 5 E 2-2 59-5
    6C 12B-1 2-1 73-4 B-1 2 69 FB-16 6A-2 1D-C 4D 83-2 FD 109-2 9C 5D-7 54-2 2-4 5E-9 D8 60-4 2B-1 286-1
    4B-C B0 471-4 B7D-1 3A7C-1 86 42-4 9 229-2 128-3 148 4CBD 1DE8-4 B74 35F-1",
  rule "sm mathsymbol"
    "2B 11-2 3E 2 2E 5 26 20 2FF 210-2 1A3C E 28-2 E-2 8C 28-4 7 45-4 6-1 5 3 3 8 20-1 3 2 20-10B 21-1 5B
    1F-18 29-5 1D6 A 37-7 70 151-4 3-1E B-F 101-82 17-3E 5-1F 3-101 31-14 3-5 CFDD 339 2-2 A5 11-2 3E 2 84
    7-3 DA2-1 C932 1A 20 1A 20 1A 20 1A 20 1A 172D-1",
  rule "sc currencysymbol"
    "24 7E-3 4EA 7C 1F3-1 1F3-1 8 F6 108 246 99C 8C5-20 8778 55C4 6D 9B DC-1 4-1 1FF7-3 C31F 9B1",
  rule "sk modifiersymbol"
    "5E 2 48 7 5 4 20A-3 D-D 6-6 2 2-10 76 F-1 503 1735 2-2 C-2 E-2 E-2 E-1 109D-1 7664-16 A-1 68-1 3D1 F-1
    5047-10 37C 2 A3 F418-4",
  rule "so othersymbol"
    "A6 3 5 2 3D2 10B-1 80-1 CF B 14-1 F8 204 176 83-5 2 85 D0 2A 188-2 10 2-2 3-5 15-4/2 86-7 2-5 2-1 6-3
    C6-1 2F1-9 2D4 2D3 9E-21 162-9 A-8 584-1 2-3 2-1 B 2-1 7-5 2-4/2 5 C-1 F 2-1 2 3B-1 A-4 3-3 2-1 2-1 2-6
    2-1E 3-1 2 2-1E 10D-7 5-13 3-6 3-50 2-1D 1A-27 7-47 17-A 52-4D 17-B6 2-8 2-35 9-6E 2-F7 2D-2B 41-FF
    201-2F 16-1 7-26 3-1F 2-68 E6-5 166-1 2F-19 2-58 D-D5 1B-F 5 E-1 D 16-1 7-1 151-1 5-9 21-25 A 11-1E C-1D
    9 10-1F B-26 10-13F 19C1-3F 5691-36 362-3 B-1 2 23E-2 52C7-F 80 2E-2 1E5 4 5-1 E-1 13A-8 3A-10 3-2 2-C 4
    30-2C 67B-1 250 C77 896-7 5-10 4B4B-3 6 5157 F64-EF 11-1B3 9D-73 3D-F5 B-26 3-3B 6-2 17-1 8-1D 5-3C
    16-41 4 BB-56 4AA-1FF 38-3 33-7 2-D 2-1 6C9 B5D 82 2D2-2B 5-63 D-E 3-E 2-E 2-24 18-A0 39-1C E-2B 5-8 8-1
    F-5 9B-FA 6-2D7 5-10 4-C 4-76 5-5E 7-B 5 10-B 5-37 9-9 7-27 9-1D 3-B 5-1 3F-153 D-D 3-C 4-9 6-37 8-E 3-A
    7-8 8-92 2-5B",
  rule "zs spaceseparator" "20 80 15E0 980-A 25 30 FA1",
  rule "zl lineseparator" "2028",
  rule "zp paragraphseparator" "2029",
  rule "cc cntrl control" "0-1F 60-20",
  rule "cf format"
    "AD 553-5 17 C1 32 181-1 51 F2C 7FD-4 1B-4 32-4 2-9 DE90 FA-2 10C2 10 2363-F 8861-3 14D0-7 C2E87 1F-5F",
  rule "co privateuse" "E000-18FF E0701-FFFD 3-FFFD",
  rule "m combiningmark mark" "mn mc me",
  rule "n number" "nd nl no",
  rule "p punct punctuation" "pc pd ps pe pi pf po",
  rule "s symbol" "sm sc sk so",
  rule "z separator" "zs zl zp",
  rule "cn unassigned" "any" "assigned",
  rule "c other" "cc cf co cn"]

def categories : List PropertyRule := letterCategories ++ otherCategories

/-!
## Properties that hold or do not hold

Most of these properties follow from categories and a few listed characters.
-/

/-- The properties that follow from others. -/
def derivedFlags : List PropertyRule := [
  rule "lowercase lower" "ll otherlowercase",
  rule "uppercase upper" "lu otheruppercase",
  rule "alphabetic alpha" "lowercase uppercase lt lm lo nl otheralphabetic",
  rule "cased" "lowercase uppercase lt",
  rule "caseignorable ci" "mn me cf lm sk 27 7 C 7D 2D0 1D8 95 1A24-1 B 3 DDEC 3F 3 B2 7 C",
  rule "graphemeextend grext" "mn me othergraphemeextend",
  rule "graphemebase grbase" "l n p s zs mc" "graphemeextend",
  rule "defaultignorablecodepoint di" "otherdefaultignorablecodepoint variationselector cf"
    "whitespace prependedconcatenationmark FFF9-2 3435-F",
  rule "idstart ids" "l nl otheridstart" "patternsyntax patternwhitespace",
  rule "idcontinue idc" "idstart mn mc nd pc otheridcontinue" "patternsyntax patternwhitespace",
  rule "xidstart xids" "idstart" "37A AB9 80 21E8-1 CBC2-5 197-1 75-E/2 120-1",
  rule "xidcontinue xidc" "idcontinue" "37A 2D21-1 CBC2-5 197-1 75-E/2",
  rule "math" "sm othermath",
  rule "changeswhenlowercased cwl" "uppercase lt"
    "3D2-2 1D2E 5 4-2 3-2 3 4-4 7 4 4-1 3-1 2 B-1 6 1B2BB-19 1B-19 1B-19 1B 2-1 3 3-1 3-3 2-7 1B-19 1B-1 2-3
    3-7 2-6 1C-1 2-3 2-4 2 4-6 1C-19 1B-19 1B-19 1B-19 1B-19 1B-19 1F-18 22-18 22-18 22-18 22-18 22 1966-19
    7-19 7-19",
  rule "changeswhenuppercased cwu" "lowercase 1C5 3 3 27 1D96-7 9-7 9-7 D 10 30"
    "AA 10 7E 55 1D-1 F 4 63 13-5 1C 3 2 3-2 3 5 6-1 2 3-1 2-6 2-1 2 3-2 7-4 2 2-7 3-19 8-1 1F-4 96 82 164
    28 B74 C04-78 2-2 2-F 2-30 DD-1 2 1D2 E 11-C 6E 4-1 4 1C 5 5 3-1 9-3 B28 3 3-6 67 79B8-1 93-1 3F-8 16 7
    1A 24 2 1D-2 4-2 336-22 2-6 2-D 5C17 3-2 2-29 2-8 CC60-19 1B-6 2-11 1B-19 1B-3 2 2-6 2-A 1B-19 1B-19
    1B-19 1B-19 1B-19 1B-19 1B-19 1B-19 1B-1B 1D-18 2-5 1B-18 2-5 1B-18 2-5 1B-18 2-5 1B-18 2-5 2 735-9 2-13
    7-5 106-3D",
  rule "changeswhentitlecased cwt" "changeswhenuppercased 1C4 3 3 27"
    "1C5 3 3 27 EDE-2A 3-2 E89-7 9-7 9-7 D 10 30",
  rule "changeswhencasemapped cwcm" "changeswhenlowercased changeswhenuppercased changeswhentitlecased",
  rule "changeswhencasefolded cwcf"
    "changeswhenlowercased B5 2A 6A 36 1C6 7D E-1 4-1 1A-1 4 192 E71-5 883-8 212-1 E5-7 9-7 9-7 B-2 3 B-2 3
    2B-2 3 8B79-4F 4F41-6 D-4" "13A0-55",
  rule "hexdigit hex" "asciihexdigit FF10-9 8-5 1B-5",
  rule "dash" "pd 2053 28 10 187",
  rule "ideographic ideo"
    "unifiedideograph 3006-1 1A-8 F-2 C8C6-10D 3 2 3-9 2 2 3-1 4-43 3-69 750B 1C-17F7 9-4D5 2A-9 2468-18B
    14505-21D",
  rule "terminalpunctuation term"
    "sentenceterminal 2C E-1 343 9 23C 49 F E8-7 2 EC 38-5 3 2-2 22 5FC-1 AD 5-5 44F 2-3 385-2 E9 4 28 2-1 3
    355 E0-2 1202 B 2-1 1B2 74FD 10F E7-2 2D1 118 5371-1 3-1 B7 E-1 49 43B 31 487 C8 1D1-5 45-5 5A-3 4AD-4
    1ED 213 D-1 169-1 4DC-1 1A1 2E 7FF-4 46C5 35E 6BF0 2-1"]

def listedFlags : List PropertyRule := [
  rule "otheralphabetic oalpha"
    "345 1E-C 241-D 2 2-1 2-1 2 49-A 31-C 2-6 11 66-6 5-3 3-1 5 24 1F-F 67-A 66-1 4-8 2-2 2-3 6B 3D-B 4-6
    7-13 37-1 3-E 2-1 6-2 B-1 1E-2 3B-6 3-1 3-1 B B-1 1E-2 3B-4 5-1 3-1 5 1F-1 4 C-2 3B-7 2-2 2-1 16-1 17-2
    5-2 3B-6 3-1 3-1 A-1 B-1 1F 3C-4 4-2 2-2 B 29-4 3A-6 2-2 2-2 9-1 C-1 1E-2 3B-6 2-2 2-2 9-1 C-1 10 D-3
    3B-6 2-2 2-2 B B-1 1E-2 4C-5 2 2-7 13-1 3E 3-6 13 64 3-5 2-1 11 A4-12 A-A 2-23 6F-B 2 3-3 18-3 5-2 2-2
    3-6 4-3 E-B 2 B-3 675-1 1F-1 1F-1 1F-1 43-12 BD-1 23 77-B 5-8 DF-4 3A-9 3-13 4B-1 C-2 32-4 31-E 3D-2
    1F-8 3-1 3A-A 33-12 19D-21 6C2-33 8F7-1F 7875-7 23-1 163 9 18-4 59-1 33-F 2 3A 27-4 1D-B 2E-3 31-B 26
    44-D D 9-1 2E-2 33 2-2 3-1 6 2D-4 6 EE-7 4F34 858-4 687-2 2-1 6-3 315-3 42 142-1 50 104-2 36-D 2E-1 C-2
    2E-8 A 3E-2 25-B 13-1 3A-2 31-C F-1 5D-8 3 7 3 9E-9 18-3 3B-6 3-1 3-1 B B-1 55-8 2 3 2-3 2-1 68-C 2-2
    6B-11 EE-6 3-6 1E-1 53-E 2 6B-A 68-D 102-C F8-5 2-1 3-1 4 2 8F-6 3-5 5 1D-9 2B-4 2-3 13-A 2F-D 198-7 2-6
    54-15 2-D 7B-5 4 2-1 2-2 2 4 43-4 2-1 2-3 15D-3 A-1 2 31-6 4-2 41DE-10 E21 2-36 8-3 5E-1 4CAD 2362-6
    2-10 3-6 2-1 2-4 65 8B8 7E9-19 7-19 7-19",
  rule "otherlowercase olower"
    "AA 10 1F6-8 8-1 1F-4 61 35 D82 C30-3E E 23-24 2B2 E 11-C D4-F 351-19 793-1 7A1F-1 D3 82-2 4-1 363-3 A
    5C17 3-2 2-29 2-8 D876-3D",
  rule "otheruppercase oupper" "2160-F 347-19 1CC61-19 7-19 7-19",
  rule "othermath omath"
    "5E 372-2 3 1B-1 3-1 1C21 1C-2 C 21-3 19-1 F-1 42-C 5 4-1 5-4 13 5 3-9 2 4-4 7 4-1 3-1 2-2 2-5 4-3 6-4
    4C-4 3-3 2-1 2-1 2 2-4 3-1 5-1 5-11 3-1 2 2-6 2 7-1 123-3 A9-1 2 19 12 1BE-1 D-8 6-4 6-1 3-1 4-4 F 2 3-5
    19-1 3A 2 1E-3 A-1 157-1 20-9 194-15 40-3 21-1 D464 2 5 D4 2 D4C2-54 2-46 2-1 3 3-1 3-3 2-B 2 2-6 2-40
    2-3 3-7 2-6 2-1B 2-3 2-4 2 4-6 2-153 3-18 2-18 2-1E 2-18 2-1E 2-18 2-1E 2-18 2-1E 2-18 2-7 3-31 1601-3
    2-1A 2-1 2 3 2-9 2-3 2 2 7 5-4/2 2-2 2-1 2 3-8/2 2-1 2 3-3 2-6 2-3 2-3 2 2-9 2-10 6-2 2-4 2-10",
  rule "otherdefaultignorablecodepoint odi" "34F E10-1 654-1 8B0 10FF CE3C 50-8 D0008 2-1D 61-7F F1-E0F",
  rule "othergraphemeextend ogrext"
    "9BE 19 167 19 67 19 E9 2 5-1 2-1 A-1 68 19 78 10 936 1F 401 6 2 6-1 66 48-1 419 1022-1 7924 6D 55DE-1
    1221 75 109 F A 61 A 3 2-2 6 E1 D F2 107 27A D 604 50AF-1 6174-1 7-5 C2EAE-5F",
  rule "otheridstart oids" "1885-1 892 16 F6D-1",
  rule "otheridcontinue oidc" "B7 2D0 FE2-8 669 632-1 10EE CE6A",
  rule "whitespace space wspace" "9-4 13 65 1B 15E0 980-A 1E-1 6 30 FA1",
  rule "patternsyntax patsyn"
    "21-E B-6 1B-3 2 1B-3 23-6 2 2-1 2 2-1 5 5 4 18 20 1F19-17 9-E 3-12 2-9 132-2CF A1-275 1F-46B 201-7F
    182-2 5-18 10 CD0E-1 106-1",
  rule "patternwhitespace patws" "9-4 13 65 1F89-1 19-1",
  rule "prependedconcatenationmark pcm" "600-5 D8 32 181-1 51 107DB 10",
  rule "variationselector vs" "180B-2 2 E5F1-F D02F1-EF",
  rule "asciihexdigit ahex" "30-9 8-5 1B-5",
  rule "sentenceterminal sterm"
    "21 D 11 54A 94-2 B5 2C-2 F7 3E 2 4-1 126-1 6E5-1 317 5-1 306 C7-1 9E-1 2E 6 13B-1 163-3 A3-1 B-1 3-1
    1E-2 BC-1 42-1 3A5 18-1 A-2 CB0-2 133 E 17-1 1AE 74FD 10F-1 E4 4 17F-1 57-1 60 99-1 94-2 91-1 FA 5227
    3-1 3C 4-1 AA D 11 42 AF5-1 4FE-4 2D-3 BE-1 76-3 80-2 82-1 7 11-1 59-1 2-1 6D 12B-1 76-1 176-1 6-E 6A-1
    FA-2 206 2 FC-1 58-1 1A5-1 2B5-1 4B-1 4B2A-1 86 42-1 C 22A-1 129 4E07 1DE9",
  rule "unifiedideograph uideo"
    "3400-19BF 41-51FF 5A0F-1 2 2-1 B 2 2-1 3-2 105D7-A6DF 21-1039 7-DD 3-1681 F-1D30 10-26D 11A3-134A
    6-105F",
  rule "emojimodifier emod" "1F3FB-4",
  rule "quotationmark qmark" "22 5 84 10 1F5D-7 1A-1 E08 1CA-3 E-2 CE22-3 BE 5 5B-1",
  rule "bidicontrol bidic" "61C 19F2-1 1B-4 38-3",
  rule "bidimirrored bidim"
    "28-1 13 2 1D 2 1E 2 2E 10 E7F-3 75E-1 99D-1 B-1 37-1 F-1 B2 C1-3 4-5 4 4-1 4-3 2-3 2 2 5-8 6 2-11 6-3
    A-1 2 2-7 2-1F 3-3 6 A-1 3-12 6-1 A-4 3-1 5-17 3-F 9-3 15-1 8-1 43E-D 4B 3-3 2-1 2-2 6-3 6-2 4-D 194-15
    3-5 2-D 9 8-5 4 5-4 2-1 3-4 5 2-2 3-1 B-5 3-1 D-12 2-3 3 2 3 2-3 6-1 7-2 19-1 C-1 5-3 2-1 3-1 5-2A 3-7
    2-27 6 2 4-4 6-2 5 4-4 2 101 204-3 4-1 2-1 F-1 3-9 2C-7 1AC-9 3-7 CE3E-5 6-1 A3-1 13 2 1D 2 1E 2 2-1 2-1
    D778 3A 3A 3A 3A",
  rule "deprecated dep" "149 52A 904 2 82A-1 8C6-5 2BA-1 DDCD7",
  rule "diacritic dia"
    "5E 2 48 7 5 3-1 1F8-9E 2-7 6-5 12-1 5 A-1 FE-4 D2 38-10 2-1A 2 2-1 2 87-7 5-1 87-1 5-1 4-2 44-1A 5C-A
    3B-A 23-1 7F-7 2A-9 11-1B 3E 11 4-3 1D 4B 11 6F 11 6F 11 30-2 3D 11 8 78 6F 11 6F 11 6E-1 11 7D 70 D-5 2
    6C E-4 4C-1 1C-4/2 5-1 43-2 2-1 3F 71 2-1 29-1 5-4 1A-6 2 B-1 2C2-2 3B5-1 1F 95-A A 15C-2 125 15-7 3
    31-E 3-A 69 10 27-8 37-1 3B C-1 43-1 41-5 53-18 5 7 3-2 33-3E 5A-B 26-A 1BE 2-2 C-2 E-2 E-2 E-1 CF1-2
    13E 1FB-5 6A-3 60 7573 D-1 2 1D-1 53-1 F-21 67-2 6E-1 D 26 98 1C-11 3A-3 25 60 D 25 96-2 42-3 34 65-4
    A-2 81-1 4F31 302-F 10F 2 30 2E-1 44 2FD 4A0-5 2-29 2-8 27E-2 5 A6-1 23C-5 27 1B-4 190-2 47-A 32-3 C1 2A
    49-1 79-1 3F 4D A-2 69-1 B3-1 51-1 11 19-6 4-4 5A-2 2-1 E-1 60 4 7C-1 FC-1 7F 77-1 74 10E-1 103-1 5 9D
    54 13 52 1A6 103 2-1 52 1AA-1 18 14ED-E 2CDA 9C1-4 3C-6 235-1 223-10 51-1 3FFF-3 2-6 2-1 1F02-2D 3-16
    221-2 4-5 9-7 3-6 1F-3 E83-3D C3-6 178 3E-3 2FF-1 2E1-6 6E-2 2-2",
  rule "emoji"
    "23 7 6-9 70 5 1F8E D D9 17 5B-5 10-1 170-1 D A7 1A-A 5-2 C8 E8-1 B A 3B-3 2-4 A 3 3-1 3 5 3 2-1 3 4 4-1
    9-2 6 2 6-B C-1 3 2-1 2 13 3-1 13-5 2 2-1 4-1 6 3-1 5-1 C-1 6-1 3 6-1 2 2-1 15-1 6-5 2-3 3 5 3 3-5 2
    3-4/2 7 4 7 B-1 10 3 5 2 5-2 2 C-1 31-2 A F F 175-1 1D0-2 14-1 34 5 4DB D 25A 2 1BD6B CB A1-1 D-1 F 3-9
    4C-19 2-1 18 15 3-8 16-1 AF-21 3-6F 3-1 2-2 3-52 3-2 2-106 2-3E C-5 2-17 8-1 3-7 D 3-3 3 5-1 E-1 3 9-1 A
    6-2 D-2 9-2 3 2 5 7 4 7-55 31-45 6-7 3-2 5-9 4 2-1 4 3-9 E4-B 5 11C-2E 2-9 2-B8 71-C 4-9 6-37 8-E 3-A
    7-8",
  rule "emojicomponent ecomp" "23 7 6-9 1FD4 D6 DD2C F3D7-19 1FC-4 5B1-3 C066D-5F",
  rule "emojimodifierbase ebase"
    "261D DC 11-3 1CC78 3D-2 3 3-2 76-1 3-A 16-12 4 5-2 2-2 8 2 19 CA-1 5 16 5-1 AF-2 4-4 54 11-2 A C 240 3
    9-7 7 A-9 3-2 39 3E-1 2-1 2 12-2 2-C E6-2 2B-8",
  rule "emojipresentation epres"
    "231A-1 CE-3 4 3 20A-1 16-1 33-B 2C 14 E 9-1 12-1 6-1 9 6 16 8-1 2 5 3 8 5-1 1D 24 2 5-2 2 3E-2 19 F
    35C-1 34 5 1C4AF CB BF 3-9 4C-19 2 19 15 3-4 2-2 16-1 AF-20 D-8 2-45 2-15 D-2A 5-4 D-10 4 4-46 2 2-BA
    3-3E E-3 2-17 13 1B-1 E 57-54 31-45 7 4-2 3-2 5-3 C-1 8-8 E4-B 5 11C-2E 2-9 2-B8 71-C 4-9 6-37 8-E 3-A
    7-8",
  rule "extendedpictographic extpict"
    "A9 5 1F8E D D9 17 5B-5 10-1 170-1 D 60 47 1A-A 5-2 C8 E8-1 B A 3B-3 2-5 2-B 2-71 B-75 3-A 2 2 7 4 7 B-1
    10 3 5 2 5-2 2 C-4 2E-2 A F F 175-1 1D0-2 14-1 34 5 4DB D 25A 2 1BD67-FF E-2 20 3D-5 D-1 F 3-9 13-38
    1C-E B 15 3-8 2-3 A-1B1 6-13D 9-109 31-7F 75-B 56-2A D-3 39-7 B-5 29-7 1F-51 D-2E 2-9 2-1B8 101-3FD",
  rule "extender ext"
    "B7 219-1 36F 1BA 277 8A 5A 2F1 80 944 39 264 18F 45 138A 2C-4 68-1 5E-2 6F17 5F7 3C3 17 8A 6D 16-1 547C
    811-1 5CC 1C 5 4C8 126 75-1 1F3-2 4D0 50AA-1 49D-1 2 7159-1 4B2 355-2",
  rule "graphemelink grlink"
    "94D 80 80 80 80 80 80 80 6E-1 11 7D 70 80 CA B5-1 6DA-1 1F 9E 28E E4 66-1 47-1 118C 7A87 26 98 8F 6D
    136 F7 5E52 607 2A F 3A 7A-1 8C 75 B5 63 81-2 72 80 FD 80 77 75 10E 104-1 A2 54 13 52 1A6 105-1 52 1AA-1
    41ED",
  rule "hyphen" "2D 80 4DD 127C 80A-1 E06 2E4 CD68 AA 58",
  rule "idsbinaryoperator idsb" "2FF0-1 3-9 1F2",
  rule "idstrinaryoperator idst" "2FF2-1",
  rule "idsunaryoperator idsu" "2FFE-1",
  rule "idcompatmathcontinue" "B2-1 6 1FB7 4-A 2-E 174 5 17 1B4A3 1A 20 1A 20 1A 20 1A 20 1A",
  rule "idcompatmathstart" "2202 5 17 1B4A3 1A 20 1A 20 1A 20 1A 20 1A",
  rule "joincontrol joinc" "200C-1",
  rule "logicalorderexception loe" "E40-4 7C-4 AF1-2 3 90FB-1 3 2-1",
  rule "modifiercombiningmark mcm" "654-1 3 84 7 4-1 1E2-1 2-2 4 20",
  rule "noncharactercodepoint nchar"
    "FDD0-1F 20F-1 FFFF-1 FFFF-1 FFFF-1 FFFF-1 FFFF-1 FFFF-1 FFFF-1 FFFF-1 FFFF-1 FFFF-1 FFFF-1 FFFF-1
    FFFF-1 FFFF-1 FFFF-1 FFFF-1",
  rule "radical" "2E80-19 2-58 D-D5",
  rule "regionalindicator ri" "1F1E6-19",
  rule "softdotted sd"
    "69-1 C5 11A 1F 35 15 141 63 2 190A 34 E 4 85 9E 1A6 D7-1 B33 1A7A6-1 33-1 33-1 33-1 33-1 33-1 33-1 33-1
    33-1 33-1 33-1 33-1 33-1 887 132-1 1B"]

/-- All properties that hold or do not hold. -/
def flags : List PropertyRule := derivedFlags ++ listedFlags

/-!
## Scripts
-/

def scriptsFirst : List Script := [
  script "adlam adlm" "1E900-4B 5-9 5-1" "61F 21 1A0F DF2",
  script "caucasianalbanian aghb" "10530-33 C" "304 2D 2D",
  script "ahom" "11700-1A 3-E 5-16",
  script "anatolianhieroglyphs hluw" "14400-246",
  script "arabic arab"
    "600-4 2-5 2-D 2-2 2-1F 2-9 C-19 2-6B 2-21 51-2F F1-1E 2-1 6-4A 2-1C F251-72 11-16A 3-4F 3-35 8 21-F
    71-4 2-86 F64-1E 44-2 38-3 DF01-3 2-1A 2-1 2 3 2-9 2-3 2 2 7 5-4/2 2-2 2-1 2 3-8/2 2-1 2 3-3 2-6 2-3 2-3
    2 2-9 2-10 6-2 2-4 2-10 35-1" "60C F 4 21 B-A 1B 19DF DF2 CEFD-1 5A1-1B",
  script "armenian armn" "531-25 3-31 3-2 F584-4" "308",
  script "imperialaramaic armi" "10840-15 2-8",
  script "avestan avst" "10B00-35 4-6" "B7 2D79-1",
  script "balinese bali" "1B00-4C 2-31",
  script "bamum bamu" "A6A0-57 C109-238",
  script "bassavah bass" "16AD0-1D 3-5",
  script "batak batk" "1BC0-33 9-3",
  script "bengali beng" "980-3 2-7 3-1 3-15 2-6 2 4-3 3-8 3-1 3-3 9 5-1 2-4 3-18"
    "2BC 695-1 12-1 136B 2 3-1 2 9 9 3 5 3-2 8BFA",
  script "bhaiksuki bhks" "11C00-8 2-2C 2-D B-1C",
  script "bopomofo bopo" "2EA-1 2E1A-2A 71-1F" "2C7 2-2 E 2D28-2 5-9 2-C B-3 3 7 C4 CD4A-1 11B-4",
  script "brahmi brah" "11000-4D 5-23 A",
  script "braille brai" "2800-FF",
  script "buginese bugi" "1A00-1B 3-1" "A9CF",
  script "buhid buhd" "1740-13" "1735-1",
  script "chakma cakm" "11100-34 2-11" "9E6-9 651-9",
  script "canadianaboriginal cans" "1400-27F 231-45 101BB-F",
  script "carian cari" "102A0-30" "B7 1FA3 3 DD4",
  script "cham" "AA00-36 A-D 3-9 3-3",
  script "cherokee cher" "13A0-55 3-5 9773-4F" "300-2 2 7-1 17-1 C-1",
  script "chorasmian chrs" "10FB0-1B",
  script "common zyyy"
    "0-40 1B-5 1B-2E 2-E 2-4 18 20 1C2-26 6-4 3-13 75 A 7 2 27E 7 F 4 21 9D 205 82-1 4DA 196-3 123 5F0-2
    48-1 CC-1 2 4CE E 8-3 2-5 2-2 3 306-B 3-56 2-A 4-A 2-E 12-20 40-25 2-2 3-5 2-1A 2-10 2A-2 5-299 17-A
    16-39F 101-273 3-1F 2-68 201-5D 193-14 2 2-18 10-7 5-3 5C-1 4 5B-1 94-F 21-25 A 31-3F 20-50 30 59-A7
    19C1-3F 5901-21 67-2 A6-9 F5 A1 18C F-1 51D3-1 D1-9 17-22 2-12 2-3 94 2-1F 1B-5 1B-A B 2E-1 41-6 2-6 B-4
    103-2 5-2C 4-8 51-C 34-2C E5-1A B9A5-3 F5D-F9 7-1B3 9D-73 3D-F5 B-26 3-3D 4-10 9-1 8-1D 5-3C D6-13 D-13
    D-56 A-18 88-54 2-46 2-1 3 3-1 3-3 2-B 2 2-6 2-40 2-3 3-7 2-6 2-1B 2-3 2-4 2 4-6 2-153 3-123 3-31
    1472-43 4D-3C 2C3-2B 5-63 D-E 3-E 2-E 2-24 B-AD 39-19 2-1 E-2B 5-8 8-1 F-5 9B-3D7 5-10 4-C 4-76 5-5E 7-B
    5 10-B 5-37 9-9 7-27 9-1D 3-B 5-1 3F-153 D-D 3-C 4-9 6-37 8-E 3-A 7-8 8-92 2-65 C0408 1F-5F",
  script "coptic copt qaac" "3E2-D 2891-73 6-6" "B7 249 4-1 2 6D-1 2AA2 D4C9-1B",
  script "cyprominoan cpmn" "12F90-62" "10100-1",
  script "cypriot cprt" "10800-5 3 2-2B 2-1 4 3" "10100-2 5-2C 4-8",
  script "cuneiform xsux" "12000-399 67-6E 2-4 C-C3",
  script "cyrillic cyrl" "400-84 3-A8 1751-A A1 4D 1068-1F 7841-5F 578F-1 E201-3D 22"
    "2BC 44-2 2-4/2 3 6 174-1 1972 104B",
  script "deseret dsrt" "10400-4F",
  script "devanagari deva" "900-50 5-E 3-19 9F61-1F 7201-9" "2BC 695-1 12-1 136B-26 2-1 3F7 8740-9",
  script "divesakuru diak" "11900-6 3 3-7 2-1 2-1D 2-1 3-B A-9",
  script "dogra dogr" "11800-3B" "964-B 9EC1-9",
  script "duployan dupl" "1BC00-6A 6-C 4-8 8-9 3-3" "B7 250-1 2 19-1 2B18 18E64-3",
  script "egyptianhieroglyphs egyp" "13000-455 B-F9A",
  script "elbasan elba" "10500-27" "B7 24E",
  script "elymaic elym" "10FE0-16",
  script "ethiopic ethi"
    "1200-48 2-3 3-6 2 2-3 3-28 2-3 3-20 2-3 3-6 2 2-3 3-E 2-38 2-3 3-42 3-1F 4-19 19E7-16 A-6 2-6 2-6 2-6
    2-6 2-6 2-6 2-6 7D23-5 3-5 3-5 A-6 2-6 13CB2-6 2-3 2-1 2-E" "30E",
  script "garay gara" "10D40-25 4-1C 9-1" "60C F 4",
  script "georgian geor" "10A0-25 2 6 3-2A 2-3 B91-2A 3-2 1041-25 2 6" "B7 4D2 B72 F5F DD7",
  script "glagolitic glag" "2C00-5F 1B3A1-6 2-10 3-6 2-1 2-4" "B7 24C 2 17F 3 102 B72 F5F DE9 782C",
  script "gunjalagondi gong" "11D60-5 2-1 2-24 2-1 2-5 8-9" "B7 8AD-1",
  script "masaramgondi gonm" "11D00-6 2-1 2-2B 4 2-1 2-8 9-9" "964-1",
  script "gothic goth" "10330-1A" "B7 24D-1 3 29",
  script "grantha gran" "11300-3 2-7 3-1 3-15 2-6 2-1 2-4 3-8 3-1 3-2 3 7 6-6 3-6 4-4"
    "951-1 12-1 281-D 10DD 2-1 1F-2 4-1 3F7 F24B C95-1 2",
  script "greek grek"
    "370-3 2-2 3-3 2 5 2 2-2 2 2-13 2-3E F-F 1927-4 33-4 5-4 55 141-15 3-5 3-25 3-5 3-7 2-4/2 2-1E 3-34 2-E
    2-D 3-5 2-12 3-2 2-8 128 8A3F 55DB-4E 12 D060-45" "B7 249-1 3-4/2 B 2F 3 2F 1A4C-1 29C",
  script "gujarati gujr" "A81-2 2-8 2-2 2-15 2-6 2-1 2-4 3-9 2-2 2-2 3 10-3 3-B 8-6" "951-1 12-1 9ECB-9",
  script "gurungkhema gukh" "16100-39" "965",
  script "gurmukhi guru" "A01-2 2-5 5-1 3-15 2-6 2-1 2-1 2-1 3 2-4 5-1 3-2 4 8-3 2 8-10" "951-1 12-1 9ECB-9",
  script "han hani"
    "2E80-19 2-58 D-D5 30 2 1A-8 F-3 3C5-19BF 41-51FF 5901-16D 3-69 7509-1 D-1 900F-A6DF 21-1039 7-DD 3-1681
    F-1D30 10-26D 9A3-21D 5E3-134A 6-105F"
    "B7 2F39-F 2-2 3 2-9 2-C B-3 3 7 5-3 BC 95-F 21-25 A 31-27 39-30 10-B 34 59-18 B-4 61-1E 7302-7 573E-1
    11B-4 D3FB-11 1EDF-1",
  script "hangul hang" "1100-FF 1E2F-1 102-5D 72-1E 42-1E 76E2-1C 284-2BA3 D-16 5-30 27A5-1E 4-5 3-5 3-5 3-2"
    "3001-2 5-9 2-C 11 7 C4 CD4A-1 11B-4",
  script "hanifirohingya rohg" "10D00-27 9-9" "60C F 4 21 94",
  script "hanunoo hano" "1720-14" "1735-1",
  script "hatran hatr" "108E0-12 2-1 6-4"]

def scriptsMiddle : List Script := [
  script "hebrew hebr" "591-36 9-1A 5-5 F529-19 2-4 2 2-1 2-1 2-9" "307-1",
  script "hiragana hira" "3041-55 7-2 17F62-11E 13 1E-2 40AE"
    "3001-2 5-9 2-C 11-5 2 5-1 5C-3 4 5B-1 CD49-1 11B-4 B 2E-1",
  script "pahawhhmong hmng" "16B00-45 B-9 2-6 2-14 6-12",
  script "nyiakengpuachuehmong hmnp" "1E100-2C 4-D 3-9 5-1",
  script "oldhungarian hung" "10C80-32 E-32 8-5" "205A 3 DD4 10",
  script "inherited qaai zinh"
    "300-6F 116-1 1C5-A 1B 2E1-3 115C-1E 202-2 2-C 2-6 5 7 4-1 C7-3F 20D-1 C3-20 F3A-3 6C-1 CD66-F 11-D 3D0
    E3 105B BBC5-2D 3-16 221-2 12-7 3-6 1F-3 C2F53-EF",
  script "inscriptionalpahlavi phli" "10B60-12 6-7",
  script "inscriptionalparthian prti" "10B40-15 3-7",
  script "olditalic ital" "10300-23 A-2",
  script "javanese java" "A980-4D 3-9 5-1" "A9CF",
  script "kaithi kthi" "11080-42 B" "966-9 24C2 79FF-9",
  script "kayahli kali" "A900-2D 2" "A92E",
  script "katakana kana" "30A1-59 3-2 F1-F D1-2E 2-57 CC0F-9 2-2C B053-3 2-6 2-1 2 120-2 33 F-3"
    "305 1E 2CDE-2 5-9 2-C 11-5 2 5-1 5C-3 4 5B-1 CD49-1 11B-4 B 2E-1",
  script "kannada knda" "C80-C 2-2 2-16 2-9 2-4 3-8 2-2 2-3 8-1 7-1 2-3 3-9 2-2"
    "951-1 12-1 136B 2-1 7 18 2 8B3C-5",
  script "kawi" "11F00-10 2-28 4-1C",
  script "kharoshthi khar" "10A00-3 2-1 6-7 2-2 2-1C 3-2 5-9 8-8",
  script "khitansmallscript kits" "16FE4 1B1C-1D5 2A",
  script "khmer khmr" "1780-5D 3-9 7-9 1E7-1F",
  script "khojki khoj" "11200-11 2-2E" "AE6-9 9D41-9",
  script "khudawadi sind" "112B0-3A 6-9" "964-1 9ECB-9",
  script "kiratrai krai" "16D40-39",
  script "taitham lana" "1A20-3E 2-1C 3-A 7-9 7-D",
  script "lao laoo" "E81-1 2 2-4 2-17 2 2-16 3-4 2 2-6 2-9 3-3",
  script "latin latn"
    "41-19 7-19 30 10 6-16 2-1E 2-1C0 28-4 1A1C-25 7-30 6-3 6-C 2-45 42-FF 172 E 11-C 8E-1 7 1C 12-28 AD8-1F
    7AA3-65 4-42 3-1 2 2-7 16-D 331-2A 2-8 2-3 4F97-6 41B-19 7-19 826-5 2-29 2-8 D746-1E 7-5"
    "B7 205 B 2-2 2 A 2 27-E 2-1 2 D 3-2 8-1 2-1 27 6 5-C 116-1 4CB-1 7A9 CFD 237 C1 D27 78E9-7 227",
  script "lepcha lepc" "1C00-37 4-E 4-2",
  script "limbu limb" "1900-1E 2-B 5-B 5 4-B" "965",
  script "lineara lina" "10600-136 A-15 B-7" "10107-2C",
  script "linearb linb" "10000-B 2-19 2-12 2-1 2-E 3-D 23-7A" "10100-2 5-2C 4-8",
  script "lisu" "A4D0-2F 7AB1" "2BC 11 2D3D-1",
  script "lycian lyci" "10280-1C" "205A",
  script "lydian lydi" "10920-19 6" "B7 2D7A",
  script "mahajani mahj" "11150-26" "B7 8AD-B 9EC1-9",
  script "makasar maka" "11EE0-18",
  script "malayalam mlym" "D00-C 2-2 2-32 2-2 2-5 5-F 3-19" "951-1 12-1 1375 18 8B3E-2",
  script "mandaic mand" "840-1B 3" "640",
  script "manichaean mani" "10AC0-26 5-B" "640",
  script "marchen marc" "11C70-1F 3-15 2-D",
  script "medefaidrin medf" "16E40-5A",
  script "meeteimayek mtei" "AAE0-16 CA-2D 3-9",
  script "mendekikakui mend" "1E800-C4 3-F",
  script "meroiticcursive merc" "109A0-17 5-13 3-2D",
  script "meroitichieroglyphs mero" "10980-1F" "205D",
  script "miao plrd" "16F00-4A 5-38 8-10",
  script "modi" "11600-44 C-9" "A830-9",
  script "mongolian mong" "1800-1 3 2-13 7-58 8-2A FDB6-C" "1802-1 2 82A FD2-1 6-3",
  script "mro mroo" "16A40-1E 2-9 5-1",
  script "multani mult" "11280-6 2 2-3 2-E 2-A" "A66-9",
  script "myanmar mymr" "1000-9F 9941-1E 62-1F 6C51-13" "A92E",
  script "nabataean nbat" "10880-1E 9-8",
  script "nagmundari nagm" "1E4D0-29",
  script "nandinagari nand" "119A0-7 3-2D 3-A" "964-1 381-9 FFA 9 8 8B36-5",
  script "oldnortharabian narb" "10A80-1F",
  script "newa" "11400-5B 2-4",
  script "newtailue talu" "1980-2B 5-19 7-A 4-1",
  script "nko nkoo" "7C0-3A 3-2" "60C F 4 F71F-1",
  script "nushu nshu" "16FE1 418F-18B",
  script "ogham ogam" "1680-1C"]

def scriptsLast : List Script := [
  script "olchiki olck" "1C50-2F",
  script "oldpermic perm" "10350-2A" "B7 249 6-2 B 170",
  script "oldpersian xpeo" "103A0-23 5-D",
  script "oldsogdian sogo" "10F00-27",
  script "oldsoutharabian sarb" "10A60-1F",
  script "oldturkic orkh" "10C00-48" "205A DD6",
  script "olduyghur ougr" "10F70-19" "640 104B2",
  script "olonal onao" "1E5D0-2A 5" "964-1",
  script "oriya orya" "B01-2 2-7 3-1 3-15 2-6 2-1 2-4 3-8 3-1 3-2 8-2 5-1 2-4 3-11" "951-1 12-1 1375 18",
  script "osage osge" "104B0-23 5-23" "301 3 7 4D",
  script "osmanya osma" "10480-1D 3-9",
  script "palmyrene palm" "10860-1F",
  script "paucinhau pauc" "11AC0-38",
  script "phagspa phag" "A840-37" "1802-1 2 82A FD3",
  script "psalterpahlavi phlp" "10B80-11 8-3 D-6" "640",
  script "phoenician phnx" "10900-1B 4",
  script "rejang rjng" "A930-23 C",
  script "runic runr" "16A0-4A 4-A" "16EB-2",
  script "samaritan samr" "800-2D 3-E" "2E31",
  script "saurashtra saur" "A880-45 9-B",
  script "signwriting sgnw" "1D800-28B 10-4 2-E",
  script "sharada shrd" "11180-5F" "951 1386 2 3-1 3 8B50-5 3",
  script "shavian shaw" "10450-2F" "B7",
  script "siddham sidd" "11580-35 3-25",
  script "sinhala sinh" "D81-2 2-11 4-17 2-8 2 3-6 4 5-5 2 2-7 7-9 3-2 103ED-13" "964-1 138D",
  script "sogdian sogd" "10F30-29" "640",
  script "sorasompeng sora" "110D0-18 8-9",
  script "soyombo soyo" "11A50-52",
  script "sundanese sund" "1B80-3F 101-7",
  script "sunuwar sunu" "11BC0-21 F-9" "300-1 2 A 3 1D 4",
  script "sylotinagri sylo" "A800-2C" "964-1 81-9",
  script "syriac syrc" "700-D 2-3B 3-2 111-A" "303-1 3-1 2 16 3-2 8-1 2 2DC F-1 3 21 B-A 1B 1788 2",
  script "tagalog tglg" "1700-15 A" "1735-1",
  script "tagbanwa tagb" "1760-C 2-2 2-1" "1735-1",
  script "taile tale" "1950-1D 3-4" "300-1 6-1 4 D34-9",
  script "taiviet tavt" "AA80-42 19-4",
  script "takri takr" "11680-39 7-9" "964-1 9ECB-9",
  script "tamil taml" "B82-1 2-5 4-2 2-3 4-1 2 2-1 4-1 4-2 4-B 5-4 4-2 2-3 3 7 F-14 113C6-31 E"
    "951-1 12-1 1375 8C19 6A0E 2 38-1",
  script "tangut tang" "16FE0 20-17F7 9-2FF 201-8" "2FF0-F 1F0",
  script "tangsa tnsa" "16A70-4E 2-9",
  script "telugu telu" "C00-C 2-2 2-16 2-F 3-8 2-2 2-3 8-1 2-2 3 3-3 3-9 8-8" "951-1 12-1 1375 18",
  script "tifinagh tfng" "2D30-37 8-1 F" "302 2 3 2",
  script "thaana thaa" "780-31" "60C F-1 3 41-9 F789 B",
  script "thai" "E01-39 6-1B" "2BC 1B 2C 2E",
  script "tibetan tibt" "F00-47 2-23 5-26 2-23 2-E 2-6 5-1" "3008-3",
  script "tirhuta tirh" "11480-47 9-9" "951-1 12-1 138D 8B3E-9",
  script "todhri todr" "105C0-33" "301 3 3 A 2 4B",
  script "toto" "1E290-1E" "2BC",
  script "tulutigalari tutg" "11380-9 2 3 2-25 2-9 2 3 2-3 2-9 2-1 9-1" "CE6-9 1003 2 8B3C-5 BC",
  script "ugaritic ugar" "10380-1D 2",
  script "vai vaii" "A500-12B",
  script "vithkuqi vith" "10570-A 2-E 2-6 2-1 2-A 2-E 2-6 2-1",
  script "wancho wcho" "1E2C0-39 6",
  script "warangciti wara" "118A0-52 D",
  script "yezidi yezi" "10E80-29 2-2 3-1" "60C F 4 41-9",
  script "yi yiii" "A000-48C 4-36" "3001-1 6-9 3-7 E0 CE66-4",
  script "zanabazarsquare zanb" "11A00-47"]

def scripts : List Script := scriptsFirst ++ scriptsMiddle ++ scriptsLast

/-!
## Versions of the character database
-/

/-- The versions of the character database, oldest first, with the characters that each one added. -/
def ages : List PropertyRule := [
  rule "1.1 v11"
    "0-1F5 5-1D 39-58 8-2E 2-9 17-45 1B-1 13-1 5 4 6-6 2 2-13 2-2B 2-6 4-6/2 2-11 E-B 2-41 2-B 2-28 A-34 3-1
    3-1 4-1B 3-7 3-1 38-25 3-6 2-26 2 27-9 2-8 D-1A 6-4 18 F 4 2-19 6-12 E-D 3-47 3-4 2-E 2-1D 3-9 208-2
    2-34 3-11 3-4 4-18 11-2 2-7 3-1 3-15 2-6 2 4-3 3 2-6 3-1 3-2 A 5-1 2-4 3-14 8 3-5 5-1 3-15 2-6 2-1 2-1
    2-1 3 2-4 5-1 3-2 C-3 2 8-E D-2 2-6 2 2-2 2-15 2-6 2-1 2-4 3-9 2-2 2-2 3 10 6-9 12-2 2-7 3-1 3-15 2-6
    2-1 3-3 3-7 4-1 3-2 9-1 5-1 2-2 5-A 12-1 2-5 4-2 2-3 4-1 2 2-1 4-1 4-2 4-7 2-2 5-4 4-2 2-3 A 10-B F-2
    2-7 2-2 2-16 2-9 2-4 5-6 2-2 2-3 8-1 A-1 5-9 13-1 2-7 2-2 2-16 2-9 2-4 5-6 2-2 2-3 8-1 8 2-1 5-9 13-1
    2-7 2-2 2-16 2-F 5-5 3-2 2-3 A 9-1 5-9 92-39 5-1C 26-1 2 3-1 2 3 7-3 2-6 2-2 2 2 3-1 2-C 2-2 3-4 2 2-5
    3-9 3-1 1C3-25 B-26 5 5-59 6-43 6-51 C07-9A 6-59 7-15 3-5 3-25 3-5 3-7 2-4/2 2-1E 3-34 2-E 2-D 3-5 2-12
    3-2 2-8 2-2E 2-16 24-6 4-1A 12-A 26-11 1F-38 1B-2F E-5A 16-F1 F 2-78 86-24 1C-A 16-8A 16-95 B-4F 11-13
    7-55 92-3 2-3 3-1B 2-22 2 2-3 4 2-6 3-6 F-1E 4-17 2-D 842-37 8 2-53 5-5 3-5D 7-27 5-5D 2-F 61-1C 4-23
    1D-1B 4-31 10-B 5-2E 2-76 5-62 3-1E 1A02-51A5 405B-1A2D D3-6 D-4 7-18 2-4 2 2-1 2-1 2-6B 22-16C 11-3F
    3-35 29-B 25-3 D-14 5-9 2-12 2-3 5-2 2 2-86 3 2-5D 3-5D 4-5 3-5 3-5 3-2 4-6 2-6 F-2",
  rule "2.0 v20"
    "591-10 2-C 15 93C-47 2-20 8-1A 5-5 2 2-14 4-6 2 EE2 210 8B55-2BA3 1285B-1 FFFF-1 FFFF-1 FFFF-1 FFFF-1
    FFFF-1 FFFF-1 FFFF-1 FFFF-1 FFFF-1 FFFF-1 FFFF-1 FFFF-1 FFFF-20001",
  rule "2.1 v21" "20AC DF50",
  rule "3.0 v30"
    "1F6-3 1F-7 3-11 76-4 32 B-4 58-8 14 75 4-6/2 1F D 43 D 2B-1 3-3 5D-1 9D C9-2 63-1 6 10 2B-4 2-D 2-1D
    4-1A 36-30 5D2-1 2-11 4-17 2-8 2 3-6 4 5-5 2 2-7 13-2 176 2C 18-2 8 2-2 2-E 3 31-21 2-4 2-1 2-6 4-3 7-19
    1A7-6 2-3E 2 2-3 3-6 2 2-3 3-26 2 2-3 3-1E 2 2-3 3-6 2 2-3 3-6 2-6 2-16 2-1E 2 2-3 3-6 2-26 2-12 7-1B
    24-54 D-275 A-1C 4-50 90-5C 4-9 17-E 2-9 7-57 9-29 786 19-5 60-2 33-1 56-1 49 68-8 10E 7A 2-1D 8B-1
    1CA-7 22 57-1 18F-FF 581-19 2-58 D-D5 1B-B 3D-2 4 162-17 249-19B5 524B-48C 4-11 3-F 2-B 2-2 2 5657
    4DC-2",
  rule "3.1 v31"
    "3F4-1 F9DB-1F 511-1E 2-3 D-1A B6-25 3-25 CBB3-F5 B-26 4-B3 223-54 2-46 2-1 3 3-1 3-3 2-B 2 2-3 2-1 2-40
    2-3 3-7 2-6 2-1B 2-3 2-4 2 4-6 2-151 5-121 5-31 2801-A6D6 512A-21D B05E4 1F-5F",
  rule "3.2 v32"
    "220 12F 14-C 69-1 1D 94-1 3A-1 3-1 3-1 32-F 15F-1 142 946-1 608-C 2-6 C-16 A-13 D-C 2-2 2-1 8D4 7-4 5
    8-4 E 3F-1 33-6 53-E A9-B F3-D 7D 1F-33 11D-13 98-9 59-7 17-1 5B-B 3-9 DF-D 5B-1B 5-F 101-1FF 53C-2 58-1
    9-1 5F F1-F 52-E 52-E 71E3-1 11 D 4 556B-3A 392 4-F 36-1 2D EC-1",
  rule "4.0 v40"
    "221 13-2 78-1 40-10 51-7 6-2 98-4 205-3 A-8 41-2 96-1 10 2E-2 1E-2 1B5 B9 44 2 89 55-2 E 44 3C 82-7
    C2-1 B20 13-9 107-1C 4-B 5-B 5 4-29 3-4 6C-1F 301-6B 2E8-1 E7 294-1 12F 115-1 75-7 F-1 45F-D 710-1 32
    2C-1 4F-3 A8-3 64-1 20 19C1-3F AFFE 4A-1 1B8-B 2-19 2-12 2-1 2-E 3-D 23-7A 6-2 5-2C 4-8 241-1D 2 87-1
    27-4F 3-9 357-5 3 2-2B 2-1 4 3 CAC1-56 16B C2C3F-EF",
  rule "4.1 v41"
    "237-A 117-4 A0-3 F7-1 AB 23-2 44 13 3B-5 F2-1D 210 51 1E8 30 3EA-1 128-1 2 10B 40 40 28 20 20 20 10 28
    18-1 20-19 5E7-29 7-19 7-9 5-1 21-1B 3-1 34D-57 292-1 2-6 32-4 1E-3 36 51 10 285-A 23D 66-1 13-A 6-F
    10F-6 348-5 ED-2E 2-2E 22-6A F-2C B-35 A 11-16 A-6 2-6 2-6 2-6 2-6 2-6 2-6 2-6 22-17 5-1 3A3-F AF
    6D28-15 745-16 EA-2B 5245-69 337-9 327-4A 216-23 5-D 62B-3 2-1 6-7 2-2 2-1A 5-2 5-8 9-8 C7A8-45 45F-1",
  rule "5.0 v50"
    "242-D 12C-2 152 2B-5 11-3 A7 206-3A 181-1 2-1 363-1 E-1 E0E-4B 5-2C 248-6 34-1 2ED-3 5E-1 36 258-B 2CB
    115-3 34A-6 6-3 13D-C 8-3 7AA0-3 6-1 11F-37 6089-19 6 16E1-36E 92-62 E-3 AEED-11 459-1",
  rule "5.1 v51"
    "370-3 3-1 58 B8 8D-F E3-4 C-4 21-4 12F-11 1F2-1 DF 24 CF 1E-1 6D 6D 1B-1 9-1 15-7 BE 7 1E-1 D-5 4-6
    1EC-1 62 4-2 4E 6 3 8-2 5-5 1B-3F 5-1 80B 2D6-2A 4-B 47-37 4-E 4-32 14C-1B B6-3 5B-5 165 8C 5F 36-3 515
    16-9 4-3 109 20-3 32C-4 5-28 4-4 119-2 2-2 5-5 163-1F 19-3 3-12 2FD A3-13 6DD9-7 53D-12B 15-1F 3-11 9-1B
    84-4 3-6A 6F-4 81-44 A-B 27-53 C A1-36 A-D 3-9 3-3 53C5-2 36A-B 35-2D 83-1C 4-30 650-19 6 C7EA 1ED7-2B
    5-63",
  rule "5.2 v52"
    "524-1 2DB-2D 3-E C2 4E 7 24-1 81 5DA-3 C2-3 BD-4 45-4 53-5 201 277-8 231-45 B5-1 2F 46-3E 2-1C 3-A 7-9
    7-D 223-22 10B 2B9-2 98-2 37 25F 2B6-1 1E-2 5-9 2-12 2 5-17 58 3FE-4 117 E-1 6C-6 140 413-B 6D75-7
    505-2F 1A1-57 139-9 A7-1B 65-1C 4-4D 2-A 5-1 81-1B 5-42 19-4 E1-2D 3-9 2BB7-16 5-30 2270-2 DD3-15 2-8
    BB-1 145-1F 81-35 4-1C 3-1A 6-7 81-48 218-1E 202-41 1F3F-42E BCD2-A 6-1E 3 C 2 3 4 4-4 9 8 1A 2-1 3 B-3
    3 70 10-21 F-8 B4B8-1034",
  rule "6.0 v60"
    "526-1 F9 3F 1E1-1B 3 DC-1 14 7-1 1C-4 1FB-5 1B2 11 14 23E-3 4A-1 383-1 862-33 9-3 1FD 299-7 1D 330-A
    2DB 14 2-3 1E 5-1 1D 24 2 5-2 A-1 35-2 19 F F-1 5A1 F 439-2 74A6-1 12C-1 2-1 F-9 51 307-5 3-5 3-5 A-6
    2-6 5084-F 143F-4D 5-1D 5791-238 45C8-1 409F-E 3-D 3-E 2-E 51 2-A 2 2-1 2-2 2-2 6-7 2-6 2-9 7-8 2 3-1
    2-9 5-1 2-9 4C-19 2-1 30-8 16-1 AF-20 10-5 2-45 4-13 D-24 2-4 16-10 10-3E 2 2-B5 2-3 4-3D 13-17 94-4 2-F
    2-2 2-4/2 2-2 2-5 3-3 2 3-3 2-B 5-A 31-45 3B-73 BFCD-DD",
  rule "6.1 v61"
    "58F 75 29C 2-A 38-1A 1F2 3EE-1 1E8 6 30-2 AAC-2 D-5 101-7 2C-3 AD5 2 525-1 34 6 39-1 CB-9 7191 6A8-7 24
    F3-1 17 4E-1 2E7-16 4F38-1 F51-37 7-1 711-18 8-9 7-34 2-D 3D-48 8-9 4A7-37 9-9 5837-44 C-2E 11-10 7E61-3
    2-1A 2-1 2 3 2-9 2-3 2 2 7 5-4/2 2-2 2-1 2 3-8/2 2-1 2 3-3 2-6 2-3 2-3 2 2-9 2-10 6-2 2-4 2-10 35-1
    279-1 3D5-3 BD 11 4-6/2 4 7-1 5 2-1 5",
  rule "6.2 v62" "20BA",
  rule "6.3 v63" "61C 1A4A-3",
  rule "7.0 v70"
    "37F 1A9-7 5E-1 77 29C C-5 4D 79 8 280 34 4D 80 E5-9 902-7 225-1 192-E 23A-1 EE-E 2C6-2 337-6 306 44D-2
    B-19 3-1F 3-21 4-B 2-7 26B-6 7856-5 F7-B C-2 3-1 46 1E9-1E 7E-3 B1-2F 5-1 52C2-6 35E-1 14 140-1B 24
    31-2A 186-27 9-33 C 91-136 A-15 B-7 F9-3E 9-8 1D1-1F 21-26 5-B 8A-11 8-3 D-6 4D0 D1-26 57 D 7-13 C-11
    2-2A 73-3A 6-9 8-2 2-7 3-1 3-15 2-6 2-1 2-4 3-8 3-1 3-2 A 6-6 3-6 4-4 10C-47 9-9 A7-35 3-11 37-44 C-9
    247-52 D 1C1-38 877-29 CB-B 6 45CC-1E 2-9 5-1 61-1D 3-5 B-45 B-9 2-6 2-14 6-12 5071-6A 6-C 4-8 8-9 3-7
    2B5D-C4 3-F 7E9 21-15 16-1 215-B A 47 17-B 26 6-3 6-B 12-6 48 2 B7 5-1 40-1 5-6 1E-11 2-28 2-55 47-1
    E-2F 47-9 11-C 4-3 8D-54 2C-B 5-37 9-9 7-27 9-1D",
  rule "8.0 v80"
    "8B3-1 2F 216 161 105 696 3-5 CC1 CC-1 A61-3 73DE-8 6C9 F1 23-5 145-1 263-3 D-4F 526F-1 AB1-12 2-1 6-4
    BD-1 3-F 3-2D 281-32 E-32 8-5 4CA-3 F-4 A1-6 2 2-3 2-E 2-A 57 50 27A-13 123-19 4-E 5-F C5A E7-C3
    1EBD-246 8B98-A 618-28B 10-4 2-E 187E-2 4F-1 50-4 25-7 100 4C-4 F4-1 8C 240-8 68-4 3C BE60-1681",
  rule "9.0 v90"
    "8B6-7 17-E 39E CF 5-2 2-6 18-2 F08-8 173 600-3 A45-1 796A 117 58C8-1 322-23 5-23 D43 1C2-59 2 2 203-C
    594-8 2-2C 2-D B-1C 4-1F 3-15 2-D 532A 20-17EC 14-2F2 550E-6 2-10 3-6 2-1 2-4 8D6-4A 6-9 5-1 83C-11 8F
    33F 2A 12D-1 22-2 223-5 2-7 9 3-B 2-B 5-E 27-C",
  rule "10.0 v100"
    "860-A 192-1 FD-5 201 3B-1 FBB FF-3 2C6 340 7D3 273-4 2E5 6EA8-14 6343-2 16D1-47 9-33 3-16 2-4 25E-6 2-1
    2-2B 4 2-1 2-8 9-9 5288 4021-11C 52-18B 3F65-5 46E-1 23-1 208-B 14 9-7 2-1 1A 13-C 27-5 39-16 D4CA-1D30",
  rule "11.0 v110"
    "560 28 67 20E-2 D4 12B 78 18E 80 BF4 418-2A 3-2 EFB-2 17-18 5-E 24C-4 2E1 6EBC-4 7C0 9-1 145-1 6135-1
    13 2B8-27 9-9 1C7-27 9-29 174 77-2 1F5 123 2BC E6-3B 262 2C3-5 2-1 2-24 2-1 2-5 8-9 137-18 4F48-5A
    1953-4 4AEF-13 7F-6 18F9-43 47B 5CA DC-3 175-2 1D-4 3-3 4 2-3 19-A E-9 8-1 25-18 61-D",
  rule "12.0 v120"
    "C77 20F 3 3 2-5 5 8 8-1 3 E E40 ECF 36 250 796B-5 3-4 3A0-1 6479-16 469 259 2E8-7 3-2D 3-A A0-1 53B-31
    E 1431-8 3B0D-5 5 30-8 5B-1 180F-5 2959-2 12-3 2F99-2C 4-D 3-9 5-1 171-39 6 64C 3B6-3C 42F 569 25 E6-B
    122-2 30 32 A 2A-5 4-1 B-5 4-7 3-2 31-53 1D-3 5-2 6-2 E-5",
  rule "12.1 v121" "32FF",
  rule "13.0 v130"
    "8BE-9 28E 1AF 7D D3E-1 10D7 2B9-2 369-4 1BF7-9 5231-C 7CB-3 2B-1 36 33C-3 5631 CE4-29 2-2 3-1 FF-1B 17C
    87-1 28B 6-1 49F-6 3 3-7 2-1 2-1D 2-1 3-B A-9 657 5034 C-1 1B02-1E2 2B-8 6405-2 5E-2 3E 529-1 24-1 1B4-1
    5B 66 5-1 2B-1 7-2 1E A9 F-3 10-12 8-6 A-2 E-6 2A-92 2-36 26-9 AADE-6 5923-134A",
  rule "14.0 v140"
    "61D 253-1E 2-1 7-7 16 13-A 36A 21 80 A30 8 A F0 2B2-D 7E 31-1 27C 2C6 B6F 30 1F4-A 71A0-2 7C1-1 F-1 2
    2-4 19-2 53CE 17E-F 80 2F-1 771-A 2-E 2-6 2-1 2-A 2-E 2-6 2-1 1C4-5 2-29 2-8 7B6-19 E7-5 4D 5F7 87-6
    36A-F 14D1-62 3A7E-4E 2-9 4527-3 2-6 2-1 121-3 1DDE-2D 3-16 A-73 226-1 D16-1E 372-1E 532-6 2-3 2-1 2-E
    EDF-2 111 189 53 AF-1 2D-3 B-3 9-2 12-2 7-7 9-6 ABE8-1 1056-3",
  rule "15.0 v150"
    "CF3 1DB 1002F-2 340-2 8BF-9 3F7-10 2-28 4-1B 14D6 A-1C 7CDD 23 216B-13 C52-5 106-3D 22 441-29 11E3 98-2
    5-4 5A 29C-2 10-1 25-2 C-2 2 F-1 B-1 D F-1 BC41 5C17-105F",
  rule "15.1 v151" "2FFC-3 1F0 2BA01-26D",
  rule "16.0 v160"
    "897 12B7-1 30 10A-1 79D-2 DBB-1 75E6-2 D-2 5DE4-33 74D-25 4-1C 9-1 133-2 38 484-9 2 3 2-25 2-9 2 3 2-3
    2-9 2-1 9-1 2EE-13 4DD-21 F-9 361 1506-F9A 1D06-39 C07-39 1F86 3F01-F9 7-1B3 171D-2A 5 12B3-9 5-1 1C8 6
    2F 8 16 3 A E2-24"]

/-!
## Ends of sentences, words and visible characters
-/

def sentenceBreaks : List PropertyRule := [
  rule "cr" "D",
  rule "lf" "A",
  rule "sep se" "85 1FA3-1",
  rule "sp" "whitespace" "sb=cr sb=lf sb=sep",
  rule "extend ex" "graphemeextend mc 200D",
  rule "numeric nu" "nd 600-5 66-1 71 1B3-1 51 10F8 F6E3 10",
  rule "format fo" "cf" "sb=numeric sb=extend",
  rule "lower lo" "lowercase" "graphemeextend 10D0-2A 3-2",
  rule "upper up" "uppercase lt" "1C90-2A 3-2",
  rule "oletter le" "alphabetic 5F3" "sb=lower sb=upper sb=extend",
  rule "aterm at" "2E 1FF6 DE2E BC",
  rule "sterm st" "sentenceterminal" "sb=aterm",
  rule "scontinue sc" "2C-1 D-1 343 1DF AF-1 1EB 100A 6 80B-1 FED CE0F-1 2-1 1D-1 1E-1 3-1 3 B A9-1 D-1 49",
  rule "close cl" "ps pe quotationmark 275B-5 6A0-D F-1 3-1 1C855-2" "FF02 5"]

def wordBreaks : List PropertyRule := [
  rule "cr" "D",
  rule "lf" "A",
  rule "newline nl" "B-1 79 1FA3-1",
  rule "doublequote dq" "22",
  rule "singlequote sq" "27",
  rule "zwj" "200D",
  rule "regionalindicator ri" "1F1E6-19",
  rule "midletter ml" "3A 7D 2D0 1D8 95 1A33 DDEC 42 C5",
  rule "midnum mn" "2C F 343 20B 83-1 5F 18C 184C DE0C 4 B8 F",
  rule "midnumlet mb" "2E 1FEA-1 B DE2E B5 7",
  rule "katakana ka" "sc=katakana 3031-4 66-1 4 5C CE74",
  rule "hebrewletter hl" "5D0-1A 5-3 F52B 2-9 2-C 2-4 2 2-1 2-1 2-9",
  rule "extend" "graphemeextend mc emojimodifier",
  rule "numeric nu" "nd 600-5 66 72 1B3-1 51 10F8 F6E3 10",
  rule "extendnumlet ex" "pc 202F",
  rule "wsegspace" "zs" "A0 1F67 28",
  rule "format fo" "cf" "wb=numeric wb=extend wb=zwj 70F 18FC",
  rule "aletter le" "alphabetic 2C2-3 D-5 7-1 6-6 2 2-10 25B-2 2 2C 69 11C 9FF9-E A-1 68-1 3D1"
    "ideographic wb=extend wb=katakana wb=hebrewletter sc=hiragana sc=thai sc=lao sc=myanmar sc=khmer
    sc=taile sc=newtailue sc=taitham sc=taiviet sc=ahom"]

/-- The classes for ends of visible characters. -/
def clusterBreaks : List PropertyRule := [
  rule "cr" "D",
  rule "lf" "A",
  rule "l" "1100-5F 9801-1C",
  rule "v" "1160-47 C609-16 959D 4-3",
  rule "t" "11A8-57 C5CC-30",
  rule "lv" "AC00-2B88/1C",
  rule "zwj" "200D",
  rule "regionalindicator ri" "1F1E6-19",
  rule "lvt" "AC00-2BA3" "gcb=lv",
  rule "extend ex" "graphemeextend emojimodifier",
  rule "prepend pp" "prependedconcatenationmark D4E 10474-1 20E 56E 2 F9 4A-5 2BD 1BC",
  rule "spacingmark sm" "mc E33 80" "graphemeextend 102B-1 C 2A-2 3-6 16 4-5 3 B-2 9C5 2-1 9017 2 6CA3-1",
  rule "control cn" "zl zp cc cf defaultignorablecodepoint"
    "gcb=extend gcb=cr gcb=lf gcb=prepend gcb=zwj 115F-1 2004 CE3C"]

end ApexPaths.Pattern.Property
