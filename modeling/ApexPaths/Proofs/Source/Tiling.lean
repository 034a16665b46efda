import ApexPaths.Proofs.Source.Termination
import Mathlib.Data.List.Induction

/-!
Token streams beside the text they were read from. A text with tokens is the texts of these tokens, in turn, with
blanks and comments between them; a place is told by the line breaks and the characters before it; and a mark is the
longest one that stands where it was read. The scanner sees only what is left of the text, so a tile is told by what
stands before it and after it.
-/

namespace ApexPaths.Source
set_option autoImplicit false

open Text List

variable {cs : List Char} {n : Nat} {kind : TokenKind} {before : List Char}

/-! ## Places -/

/-- The place behind so much of a text: line breaks count lines, and columns count characters from the last of them. -/
def Place.behind (before : List Char) : Place :=
  ⟨before.count '\n' + 1, (before.reverse.takeWhile (· != '\n')).length + 1⟩

theorem Place.after_append (place : Place) (cs ds : List Char) : place.after (cs ++ ds) = (place.after cs).after ds :=
  foldl_append

theorem Place.after_eq_behind (before : List Char) : Place.after {} before = Place.behind before := by
  induction before using List.reverseRecOn with
  | nil => rfl
  | append_singleton before c ih =>
    rw [Place.after_append, ih, Place.after, foldl_cons, foldl_nil, Place.step]
    by_cases hc : c = '\n'
    · subst hc
      simp [Place.behind]
    · rw [if_neg hc]
      simp [Place.behind, hc]

theorem Place.behind_append (before text : List Char) :
    (Place.behind before).after text = Place.behind (before ++ text) := by
  rw [← Place.after_eq_behind, ← Place.after_eq_behind, Place.after_append]

def Token.start (token : Token) : Place := ⟨token.line, token.column⟩

def Token.finish (token : Token) : Place := ⟨token.endLine, token.endColumn⟩

/-! ## Gaps -/

/-- A text is empty or goes on with the next line. -/
def EndsLine (cs : List Char) : Prop := ∀ c ∈ cs.head?, c = '\n'

/-- What may stand before the rest of a text and is no part of a token: blanks, comments up to the end of a line, and
closed comments, in any number. -/
inductive IsGap (rest : List Char) : List Char → Prop where
  | nil : IsGap rest []
  | blank {c : Char} {gap : List Char} (hblank : isBlank c = true) (hgap : IsGap rest gap) : IsGap rest (c :: gap)
  | line {body gap : List Char} (hbody : '\n' ∉ body) (hend : EndsLine (gap ++ rest)) (hgap : IsGap rest gap) :
    IsGap rest ('/' :: '/' :: (body ++ gap))
  | block {body gap : List Char} (hbody : ¬['*', '/'] <:+: body) (hgap : IsGap rest gap) :
    IsGap rest ('/' :: '*' :: (body ++ '*' :: '/' :: gap))

theorem exists_of_commentLength? (h : commentLength? cs = some n) :
    ∃ body after, cs = body ++ '*' :: '/' :: after ∧ n = body.length + 2 ∧ ¬['*', '/'] <:+: body := by
  fun_induction commentLength? cs generalizing n with
  | case1 => cases h
  | case2 after =>
    cases h
    exact ⟨[], after, rfl, rfl, by simp⟩
  | case3 c rest hopen ih =>
    obtain ⟨m, hm, rfl⟩ := Option.map_eq_some_iff.mp h
    obtain ⟨body, after, rfl, rfl, hbody⟩ := ih hm
    refine ⟨c :: body, after, rfl, rfl, fun hin => ?_⟩
    rcases infix_cons_iff.mp hin with hfirst | hin
    · obtain ⟨rfl, hslash⟩ := cons_prefix_cons.mp hfirst
      cases body with
      | nil => simp at hslash
      | cons d body =>
        obtain ⟨rfl, -⟩ := cons_prefix_cons.mp hslash
        exact hopen _ rfl rfl
    · exact hbody hin

theorem exists_line (cs : List Char) :
    ∃ line after, cs = line ++ after ∧ cs.takeWhile (· != '\n') = line ∧ '\n' ∉ line ∧ EndsLine after := by
  refine ⟨_, cs.dropWhile (· != '\n'), takeWhile_append_dropWhile.symm, rfl, fun hin => ?_, fun c hc => ?_⟩
  · simpa using all_eq_true.mp all_takeWhile _ hin
  · have hstop := List.head?_dropWhile_not (· != '\n') cs
    rw [Option.mem_def.mp hc] at hstop
    simpa using hstop

theorem IsGap.skip {gap rest : List Char} (hskip : skipLength cs = .ok (n + 1)) (hleft : cs.drop (n + 1) = gap ++ rest)
    (hgap : IsGap rest gap) : IsGap rest (cs.take (n + 1) ++ gap) := by
  rw [skipLength.eq_def] at hskip
  split at hskip
  case h_1 body =>
    obtain ⟨line, after, rfl, hline, hbody, hend⟩ := exists_line body
    rw [hline] at hskip
    obtain rfl : n = line.length + 1 := by simpa [Nat.add_comm] using (Except.ok.inj hskip).symm
    obtain rfl : after = gap ++ rest := by simpa using hleft
    simpa using IsGap.line hbody hend hgap
  case h_2 body =>
    split at hskip
    case h_1 m hm =>
      obtain ⟨inner, after, rfl, rfl, hbody⟩ := exists_of_commentLength? hm
      obtain rfl : n = inner.length + 3 := by simpa using (Except.ok.inj hskip).symm
      have hcut : '/' :: '*' :: (inner ++ '*' :: '/' :: after) = '/' :: '*' :: (inner ++ ['*', '/']) ++ after := by simp
      rw [hcut, drop_left' (by simp)] at hleft
      rw [hcut, take_left' (by simp)]
      simpa using IsGap.block hbody hgap
    case h_2 => cases hskip
  case h_3 c after _ _ =>
    cases hblank : isBlank c with
    | false => simp [hblank] at hskip
    | true =>
      obtain rfl : n = 0 := by simpa [hblank] using (Except.ok.inj hskip).symm
      simpa using IsGap.blank hblank hgap
  case h_4 => cases hskip

/-! ## Lexemes -/

/-- The token at the start of a text, by its first character. -/
inductive Lexeme : List Char → TokenKind → Nat → Prop where
  | text {rest value : List Char} {n : Nat} (hbody : stringBody? rest = some (value, n)) :
    Lexeme ('\'' :: rest) (.text (String.ofList value)) (n + 1)
  | decorator (rest : List Char) : Lexeme ('@' :: rest) (.decorator (String.ofList (rest.takeWhile isWordChar)))
      ((rest.takeWhile isWordChar).length + 1)
  | query {rest value : List Char} {n : Nat} (hbody : queryBody? 0 rest = some (value, n)) :
    Lexeme ('[' :: rest) (.query (String.ofList (trim value))) (n + 1)
  | number {c : Char} {rest : List Char} {kind : TokenKind} {n : Nat} (hdigit : c.isDigit = true)
      (hnumber : number (c :: rest) = .ok (kind, n)) : Lexeme (c :: rest) kind n
  | identifier (cs : List Char) :
    Lexeme cs (.identifier (String.ofList (cs.takeWhile isWordChar))) (cs.takeWhile isWordChar).length
  | punct {cs : List Char} {mark : String}
      (hmark : punctuation.find? (fun mark => (dropStart? mark.toList cs).isSome) = some mark) :
      Lexeme cs (.punct mark) mark.length

theorem lexeme_cases (hne : cs ≠ []) (h : lexeme cs = .ok (kind, n)) : Lexeme cs kind n := by
  obtain ⟨c, rest, rfl⟩ := exists_cons_of_ne_nil hne
  simp only [lexeme] at h
  split at h
  · subst c
    split at h
    · cases h
      exact .text ‹_›
    · cases h
  split at h
  · subst c
    split at h
    · cases h
    · cases h
      exact .decorator rest
  split at h
  · obtain ⟨rfl, -⟩ : c = '[' ∧ startsQuery rest = true := by simpa using ‹(c = '[' && startsQuery rest) = true›
    split at h
    · cases h
      exact .query ‹_›
    · cases h
  split at h
  · exact .number ‹_› h
  split at h
  · cases h
    exact .identifier _
  split at h
  · cases h
    exact .punct ‹_›
  · cases h

/-! ### Lengths -/

theorem length_le_of_stringBody? {value : List Char} (h : stringBody? cs = some (value, n)) : n ≤ cs.length := by
  fun_induction stringBody? cs generalizing value n with
  | case1 => cases h
  | case2 => simp_all
  | case3 c rest ih =>
    obtain ⟨⟨inner, m⟩, hinner, heq⟩ := Option.map_eq_some_iff.mp h
    cases heq
    exact Nat.add_le_add_right (ih hinner) 2
  | case4 => simp_all
  | case5 => cases h
  | case6 =>
    rename_i ih
    obtain ⟨⟨inner, m⟩, hinner, heq⟩ := Option.map_eq_some_iff.mp h
    cases heq
    exact Nat.succ_le_succ (ih hinner)

theorem length_le_of_queryBody? {depth : Nat} {value : List Char} (h : queryBody? depth cs = some (value, n)) :
    n ≤ cs.length := by
  fun_induction queryBody? depth cs generalizing value n with
  | case1 => cases h
  | case2 => simp_all
  | case3 =>
    rename_i ih
    obtain ⟨⟨found, m⟩, hfound, heq⟩ := Option.map_eq_some_iff.mp h
    cases heq
    exact Nat.succ_le_succ (ih hfound)

/-- The token is a number. -/
def TokenKind.isNumber : TokenKind → Bool
  | .integer _ | .long _ | .decimal _ => true
  | _ => false

theorem takes_integral {value : Option Int} {whole : List Char} {isLong : Bool} {length : Nat}
    (hfits : whole.length + (if isLong then 1 else 0) ≤ length)
    (h : (match value with
      | some n => .ok (if isLong then (.long n, whole.length + 1) else (.integer n, whole.length))
      | none => .error (.invalidNumber (String.ofList whole)) : Except Cause (TokenKind × Nat)) = .ok (kind, n)) :
    n ≤ length ∧ kind.isNumber = true := by
  cases value with
  | none => cases h
  | some value =>
    cases isLong <;> cases h
    · exact ⟨hfits, rfl⟩
    · exact ⟨hfits, rfl⟩

theorem takes_number (h : number cs = .ok (kind, n)) :
    n ≤ cs.length ∧ kind.isNumber = true := by
  have hlength : (cs.takeWhile Char.isDigit).length + (cs.dropWhile Char.isDigit).length = cs.length := by
    rw [← length_append, takeWhile_append_dropWhile]
  rw [number] at h
  split at h
  · rename_i d rest hdrop
    have hfraction : ((d :: rest).takeWhile Char.isDigit).length + ((d :: rest).dropWhile Char.isDigit).length =
        (d :: rest).length := by
      rw [← length_append, takeWhile_append_dropWhile]
    rw [hdrop, length_cons] at hlength
    dsimp only at h
    split at h
    · cases h
      refine ⟨?_, rfl⟩
      rw [length_append, length_cons]
      split
      · rename_i hleft
        rw [hleft, length_cons] at hfraction
        split <;> omega
      · omega
    · exact takes_integral (by rw [if_neg (by decide)]; omega) h
  · refine takes_integral ?_ h
    split
    · rename_i hleft
      rw [hleft, length_cons] at hlength
      split <;> omega
    · rw [if_neg (by decide)]
      omega

/-! ### Marks -/

theorem isSome_dropStart?_iff {start : List Char} : (dropStart? start cs).isSome = true ↔ start <+: cs := by
  fun_induction dropStart? start cs with
  | case1 => simp
  | case2 => simp
  | case3 p start cs ih => rw [ih, cons_prefix_cons, and_iff_right rfl]
  | case4 p start c cs hne => simp [hne]

/-- The mark is the longest one that the text begins with. -/
structure IsLongestMark (mark : String) (cs : List Char) : Prop where
  mem : mark ∈ punctuation
  starts : mark.toList <+: cs
  longest : ∀ other ∈ punctuation, other.toList <+: cs → other.length ≤ mark.length

/-- The marks are listed by falling length, so the first that fits is the longest. -/
theorem isLongestMark_of_find? {mark : String}
    (h : punctuation.find? (fun mark => (dropStart? mark.toList cs).isSome) = some mark) : IsLongestMark mark cs := by
  have hfalling : punctuation.Pairwise fun earlier later => later.length ≤ earlier.length := by decide
  obtain ⟨hstarts, earlier, later, hsplit, hnone⟩ := List.find?_eq_some_iff_append.mp h
  refine ⟨mem_of_find?_eq_some h, isSome_dropStart?_iff.mp hstarts, fun other hother hprefix => ?_⟩
  rw [hsplit] at hother hfalling
  obtain ⟨-, htail, -⟩ := pairwise_append.mp hfalling
  rcases mem_append.mp hother with hearlier | hlater
  · have hnot := hnone other hearlier
    rw [isSome_dropStart?_iff.mpr hprefix] at hnot
    cases hnot
  · rcases mem_cons.mp hlater with rfl | hlater
    · exact Nat.le_refl _
    · exact (pairwise_cons.mp htail).1 other hlater

theorem Lexeme.mark {cs : List Char} {mark : String} {n : Nat} (h : Lexeme cs (.punct mark) n) :
    IsLongestMark mark cs := by
  cases h with
  | number _ hnumber => exact Bool.noConfusion (takes_number hnumber).2
  | punct hfind => exact isLongestMark_of_find? hfind

/-- How a token is written that is written in one way only. -/
def TokenKind.written? : TokenKind → Option (List Char)
  | .identifier name => some name.toList
  | .decorator name => some ('@' :: name.toList)
  | .punct mark => some mark.toList
  | _ => none

theorem Lexeme.written (h : Lexeme cs kind n) : ∀ text ∈ kind.written?, cs.take n = text := by
  intro text htext
  cases h with
  | decorator rest =>
    cases htext
    rw [take_succ_cons, ← prefix_iff_eq_take.mp (List.takeWhile_prefix _), String.toList_ofList]
  | identifier =>
    cases htext
    rw [← prefix_iff_eq_take.mp (List.takeWhile_prefix _), String.toList_ofList]
  | punct hfind =>
    cases htext
    exact (prefix_iff_eq_take.mp (isLongestMark_of_find? hfind).starts).symm
  | number _ hnumber =>
    have hkind := (takes_number hnumber).2
    cases kind <;> first | exact Bool.noConfusion hkind | cases htext
  | text | query => cases htext

theorem Lexeme.length_le (h : Lexeme cs kind n) : n ≤ cs.length := by
  cases h with
  | text hbody => exact Nat.succ_le_succ (length_le_of_stringBody? hbody)
  | decorator rest => exact Nat.succ_le_succ (List.takeWhile_prefix _).length_le
  | query hbody => exact Nat.succ_le_succ (length_le_of_queryBody? hbody)
  | number _ hnumber => exact (takes_number hnumber).1
  | identifier => exact (List.takeWhile_prefix _).length_le
  | punct hmark => exact (isLongestMark_of_find? hmark).starts.length_le

theorem Lexeme.ne_eof (h : Lexeme cs kind n) : kind ≠ .eof := by
  cases h with
  | number _ hnumber =>
    rintro rfl
    exact Bool.noConfusion (takes_number hnumber).2
  | _ => exact TokenKind.noConfusion

/-! ## Tiles -/

/-- The text of a token with the gap before it. -/
structure Tile where
  gap : List Char
  text : List Char
  token : Token

namespace Tile

/-- The characters of a tile, those before its token first. -/
def chars (tile : Tile) : List Char := tile.gap ++ tile.text

/-- The tile stands between what was read before it and what is left after it. -/
structure Stands (before after : List Char) (tile : Tile) : Prop where
  gap : IsGap (tile.text ++ after) tile.gap
  ne_nil : tile.text ≠ []
  ne_eof : tile.token.kind ≠ .eof
  /-- The text is what the scanner reads as this token. -/
  lexeme : lexeme (tile.text ++ after) = .ok (tile.token.kind, tile.text.length)
  written : ∀ text ∈ tile.token.kind.written?, tile.text = text
  mark : ∀ mark, tile.token.kind = .punct mark → IsLongestMark mark (tile.text ++ after)
  start : tile.token.start = Place.behind (before ++ tile.gap)
  finish : tile.token.finish = Place.behind (before ++ tile.gap ++ tile.text)

theorem Stands.skip {skipped after : List Char} {tile : Tile} (h : tile.Stands (before ++ skipped) after)
    (hgap : IsGap (tile.text ++ after) (skipped ++ tile.gap)) :
    Stands before after { tile with gap := skipped ++ tile.gap } where
  gap := hgap
  ne_nil := h.ne_nil
  ne_eof := h.ne_eof
  lexeme := h.lexeme
  written := h.written
  mark := h.mark
  start := by rw [h.start, List.append_assoc]
  finish := by rw [h.finish, List.append_assoc before]

/-- The tile of a token that begins behind some text without a gap. -/
def beginning (before text : List Char) (kind : TokenKind) : Tile :=
  let start := Place.behind before
  let finish := start.after text
  ⟨[], text, ⟨kind, start.line, start.column, finish.line, finish.column⟩⟩

theorem stands_beginning (hne : cs ≠ []) (hlexeme : Source.lexeme cs = .ok (kind, n)) :
    (beginning before (cs.take n) kind).Stands before (cs.drop n) := by
  have hcases := lexeme_cases hne hlexeme
  have hlength : (cs.take n).length = n := length_take_of_le hcases.length_le
  have hwhole : (beginning before (cs.take n) kind).text ++ cs.drop n = cs := take_append_drop n cs
  have hpos : 0 < n := by
    have hscans := scans_lexeme hne
    rw [hlexeme] at hscans
    exact hscans
  refine ⟨.nil, ne_nil_of_length_pos (hlength.symm ▸ hpos), hcases.ne_eof, ?_, hcases.written, ?_, ?_, ?_⟩
  · rw [hwhole, hlexeme]
    exact congrArg (fun length => Except.ok (kind, length)) hlength.symm
  · rintro mark rfl
    exact hwhole.symm ▸ hcases.mark
  · exact congrArg Place.behind (append_nil before).symm
  · rw [beginning, append_nil]
    exact Place.behind_append before (cs.take n)

/-- The tiles stand one behind the other, and a last gap ends the text. -/
def Row (last : List Char) : List Char → List Tile → Prop
  | _, [] => IsGap [] last
  | before, tile :: rest => tile.Stands before (rest.flatMap chars ++ last) ∧ Row last (before ++ tile.chars) rest

theorem Row.last {last before : List Char} {tiles : List Tile} (h : Row last before tiles) : IsGap [] last := by
  induction tiles generalizing before with
  | nil => exact h
  | cons tile rest ih => exact ih h.2

theorem Row.skip {last : List Char} {tiles : List Tile} (hskip : skipLength cs = .ok (n + 1))
    (hleft : cs.drop (n + 1) = tiles.flatMap chars ++ last) (h : Row last (before ++ cs.take (n + 1)) tiles) :
    ∃ tiles' last', tiles'.map token = tiles.map token ∧ cs = tiles'.flatMap chars ++ last' ∧
    Row last' before tiles' := by
  have hwhole := take_append_drop (n + 1) cs
  rw [hleft] at hwhole
  cases tiles with
  | nil => exact ⟨[], cs.take (n + 1) ++ last, rfl, hwhole.symm, h.last.skip hskip (hleft.trans (append_nil last).symm)⟩
  | cons tile rest =>
    obtain ⟨hstands, hrest⟩ := h
    have hgap := hstands.gap.skip hskip (by simpa [chars] using hleft)
    refine ⟨{ tile with gap := cs.take (n + 1) ++ tile.gap } :: rest, last, rfl, ?_, hstands.skip hgap, ?_⟩
    · simpa [chars] using hwhole.symm
    · simpa [chars] using hrest

theorem Row.stands {last : List Char} {tile : Tile} {earlier later : List Tile}
    (h : Row last before (earlier ++ tile :: later)) :
    tile.Stands (before ++ earlier.flatMap chars) (later.flatMap chars ++ last) := by
  induction earlier generalizing before with
  | nil => simpa using h.1
  | cons first earlier ih => simpa using ih h.2

end Tile

/-- By induction on the fuel: each lexeme is the next tile. -/
theorem tiles_of_scanFrom {fuel : Nat} {place finish : Place} {tokens : List Token}
    (hplace : place = Place.behind before) (h : scanFrom fuel place cs = .ok (tokens, finish)) :
    ∃ tiles last, tokens = tiles.map Tile.token ∧ cs = tiles.flatMap Tile.chars ++ last ∧
    finish = Place.behind (before ++ cs) ∧ Tile.Row last before tiles := by
  fun_induction scanFrom fuel place cs generalizing before tokens finish with
  | case1 =>
    cases h
    exact ⟨[], [], rfl, rfl, by rw [append_nil, hplace], .nil⟩
  | case4 _ fuel cs hne n hskip ih =>
    subst hplace
    obtain ⟨tiles, last, rfl, hcs, rfl, hrow⟩ := ih (Place.behind_append before (cs.take (n + 1))) h
    obtain ⟨tiles', last', htokens, hcs', hrow'⟩ := hrow.skip hskip hcs
    exact ⟨tiles', last', htokens.symm, hcs', by rw [List.append_assoc, take_append_drop], hrow'⟩
  | case6 =>
    rename_i fuel cs hne hskip kind n hlexeme stop ih
    subst hplace
    obtain ⟨⟨rest, finish'⟩, hrest, h⟩ := bind_eq_ok.mp h
    cases h
    obtain ⟨tiles, last, rfl, hcs, rfl, hrow⟩ := ih (Place.behind_append before (cs.take n)) hrest
    have hstands : (Tile.beginning before (cs.take n) kind).Stands before (cs.drop n) :=
      Tile.stands_beginning hne hlexeme
    rw [hcs] at hstands
    refine ⟨.beginning before (cs.take n) kind :: tiles, last, rfl, ?_, ?_, hstands, hrow⟩
    · rw [flatMap_cons, List.append_assoc, ← hcs]
      exact (take_append_drop n cs).symm
    · rw [List.append_assoc, take_append_drop]
  | _ => cases h

theorem exists_tiles {name text : String} {tokens : List Token} (h : tokenize name text = .ok tokens) :
    ∃ tiles last, tokens = tiles.map Tile.token ++ [Token.endAt (Place.behind text.toList)] ∧
      text.toList = tiles.flatMap Tile.chars ++ last ∧ Tile.Row last [] tiles := by
  rw [tokenize] at h
  split at h
  · rename_i found stop hscan
    cases h
    obtain ⟨⟨scanned, finish⟩, hscanned, hscan⟩ := bind_eq_ok.mp hscan
    cases hscan
    have hplace : ({} : Place) = Place.behind [] := rfl
    obtain ⟨tiles, last, rfl, htext, rfl, hrow⟩ := tiles_of_scanFrom hplace hscanned
    exact ⟨tiles, last, rfl, htext, hrow⟩
  · cases h

/-- The tokens tile the text: it is their texts, none of them empty, with gaps before, between and after them, and every
token stands where its text does; the end mark stands at the end. -/
def TilesText (text : List Char) (tokens : List Token) : Prop :=
  ∃ tiles last, tokens = tiles.map Tile.token ++ [Token.endAt (Place.behind text)] ∧
  text = tiles.flatMap Tile.chars ++ last ∧ IsGap [] last ∧ ∀ earlier tile later, tiles = earlier ++ tile :: later →
      tile.Stands (earlier.flatMap Tile.chars) (later.flatMap Tile.chars ++ last)

/-- The tokens of an accepted text tile it: with the gaps between them they spell the text, each at its place
and as long as it can be. -/
theorem tilesText_of_tokenize {name text : String} {tokens : List Token} (h : tokenize name text = .ok tokens) :
    TilesText text.toList tokens := by
  obtain ⟨tiles, last, htokens, htext, hrow⟩ := exists_tiles h
  refine ⟨tiles, last, htokens, htext, hrow.last, ?_⟩
  rintro earlier tile later rfl
  exact hrow.stands

/-- A longer mark behind a comment, with a line break before it. -/
def comparison : String := "/**/ a\n  === b // c"

def comparisonTokens : List Token :=
  [⟨.identifier "a", 1, 6, 1, 7⟩, ⟨.punct "===", 2, 3, 2, 6⟩, ⟨.identifier "b", 2, 7, 2, 8⟩, ⟨.eof, 2, 13, 2, 13⟩]

/-- Gaps with comments and line breaks, and a mark of three characters. -/
theorem tilesText_comparison :
    tokenize "A" comparison = .ok comparisonTokens ∧ TilesText comparison.toList comparisonTokens := by
  have haccepted : tokenize "A" comparison = .ok comparisonTokens := by decide
  exact ⟨haccepted, tilesText_of_tokenize haccepted⟩

end ApexPaths.Source
