import ApexPaths.Proofs.Source.Tiling
import Mathlib.Algebra.Group.Int.Even

/-!
How literals end. The text of a text literal ends with a quote that no backslash hides, unless the source breaks
off behind a backslash. The text of a query ends with the bracket that closes its first one, where the brackets in
its quoted strings count like the others; it is the bracket that closes the query where there are none in them.
-/

namespace ApexPaths.Source
set_option autoImplicit false

open Text List

/-! ## Quotes -/

/-- How many backslashes end a text. -/
def escapes (cs : List Char) : Nat := (cs.reverse.takeWhile (· == '\\')).length

/-- A quote opens the text, and one that no backslash hides ends it. -/
def ClosesQuote (text : List Char) : Prop := ∃ body, text = '\'' :: (body ++ ['\'']) ∧ Even (escapes body)

/-- A quote opens the text, and a backslash that hides nothing ends it. -/
def BreaksOff (text : List Char) : Prop := ∃ body, text = '\'' :: (body ++ ['\\']) ∧ Even (escapes body)

theorem escapes_cons {c : Char} (hc : c ≠ '\\') (cs : List Char) : escapes (c :: cs) = escapes cs := by
  simp only [escapes, reverse_cons, takeWhile_append]
  split
  · simp [*]
  · rfl

theorem even_escapes_cons (c : Char) (cs : List Char) : Even (escapes ('\\' :: c :: cs)) ↔ Even (escapes cs) := by
  have htwo : Even 2 := ⟨1, rfl⟩
  simp only [escapes, reverse_cons, List.append_assoc, takeWhile_append]
  split
  · by_cases hc : c = '\\' <;> simp [*, Nat.even_add]
  · rfl

/-- A body ends at its quote, or at a last backslash. -/
theorem exists_body_of_stringBody? {cs value : List Char} {n : Nat} (h : stringBody? cs = some (value, n)) :
    ∃ body, Even (escapes body) ∧ (cs.take n = body ++ ['\''] ∨ cs.take n = body ++ ['\\'] ∧ n = cs.length) := by
  fun_induction stringBody? cs generalizing value n with
  | case1 => cases h
  | case2 =>
    cases h
    exact ⟨[], by decide, .inr ⟨rfl, rfl⟩⟩
  | case3 c rest ih =>
    obtain ⟨⟨inner, m⟩, hinner, heq⟩ := Option.map_eq_some_iff.mp h
    cases heq
    obtain ⟨body, heven, hends⟩ := ih hinner
    exact ⟨'\\' :: c :: body, (even_escapes_cons c body).mpr heven, by simpa using hends⟩
  | case4 rest =>
    cases h
    exact ⟨[], by decide, .inl (by simp)⟩
  | case5 => cases h
  | case6 c rest hlast hescape hquote _ ih =>
    obtain ⟨⟨inner, m⟩, hinner, heq⟩ := Option.map_eq_some_iff.mp h
    cases heq
    obtain ⟨body, heven, hends⟩ := ih hinner
    have hc : c ≠ '\\' := by
      intro hc
      cases rest with
      | nil => exact hlast hc rfl
      | cons d rest => exact hescape d rest hc rfl
    exact ⟨c :: body, (escapes_cons hc body).symm ▸ heven, by simpa using hends⟩

theorem Lexeme.closesQuote {cs : List Char} {value : String} {n : Nat} (h : Lexeme cs (.text value) n) :
    ClosesQuote (cs.take n) ∨ BreaksOff (cs.take n) ∧ n = cs.length := by
  cases h with
  | number _ hnumber => exact Bool.noConfusion (takes_number hnumber).2
  | text hbody =>
    obtain ⟨body, heven, hends⟩ := exists_body_of_stringBody? hbody
    rw [take_succ_cons]
    rcases hends with hclosed | ⟨hopen, rfl⟩
    · exact .inl ⟨body, by rw [hclosed], heven⟩
    · exact .inr ⟨⟨body, by rw [hopen], heven⟩, rfl⟩

/-! ## Brackets -/

/-- How many brackets a text leaves open. -/
def nesting (cs : List Char) : Int := cs.count '[' - cs.count ']'

theorem nesting_cons (c : Char) (cs : List Char) : nesting (c :: cs) = nesting [c] + nesting cs := by
  simp only [nesting, count_cons, count_nil]
  omega

/-- The last character closes the bracket that the first one opens, when only some of the characters are seen. -/
structure ClosesBracket (seen : List Char → List Char) (text : List Char) : Prop where
  opens : text.head? = some '['
  closes : text.getLast? = some ']'
  inside : ∀ first, first <+: text → first ≠ [] → first ≠ text → 0 < nesting (seen first)
  balanced : nesting (seen text) = 0

/-- A query is read up to the bracket that closes its first one. -/
theorem nesting_of_queryBody? {depth : Nat} {cs value : List Char} {n : Nat}
    (h : queryBody? depth cs = some (value, n)) : cs.take n = value ++ [']'] ∧ depth + nesting value = 0 ∧ ∀ first,
    first <+: value → 0 ≤ depth + nesting first := by
  fun_induction queryBody? depth cs generalizing value n with
  | case1 => cases h
  | case2 depth c rest hclose =>
    cases h
    obtain ⟨rfl, rfl⟩ := hclose
    exact ⟨rfl, rfl, fun first hfirst => by simp [prefix_nil.mp hfirst, nesting]⟩
  | case3 =>
    rename_i depth c rest hopen inner ih
    obtain ⟨⟨found, m⟩, hfound, heq⟩ := Option.map_eq_some_iff.mp h
    cases heq
    obtain ⟨htake, hnesting, hfirst⟩ := ih hfound
    have hinner : (inner : Int) = depth + nesting [c] := by
      by_cases hbracket : c = '['
      · simp [inner, hbracket, nesting]
      · by_cases hclose : c = ']'
        · have hdepth : 0 < depth := Nat.pos_of_ne_zero fun hzero => hopen ⟨hclose, hzero⟩
          simp [inner, hclose, nesting]
          omega
        · simp [inner, hbracket, hclose, nesting]
    refine ⟨by rw [take_succ_cons, htake]; rfl, by rw [nesting_cons]; omega, fun first hprefix => ?_⟩
    rcases prefix_cons_iff.mp hprefix with rfl | ⟨first, rfl, hinside⟩
    · simp [nesting]
    · have := hfirst first hinside
      rw [nesting_cons]
      omega

theorem Lexeme.closesBracket {cs : List Char} {query : String} {n : Nat} (h : Lexeme cs (.query query) n) :
    ClosesBracket id (cs.take n) := by
  cases h with
  | number _ hnumber => exact Bool.noConfusion (takes_number hnumber).2
  | query hbody =>
    rename_i rest value n
    obtain ⟨htake, hnesting, hfirst⟩ := nesting_of_queryBody? hbody
    rw [take_succ_cons, htake]
    have hopen : nesting ['['] = 1 := rfl
    refine ⟨rfl, by rw [← cons_append, List.getLast?_concat], fun first hprefix hne hpart => ?_, ?_⟩
    · rcases prefix_cons_iff.mp hprefix with rfl | ⟨first, rfl, hrest⟩
      · exact absurd rfl hne
      · rcases prefix_concat_iff.mp hrest with rfl | hinside
        · exact absurd rfl hpart
        · have := hfirst first hinside
          rw [id, nesting_cons]
          omega
    · have hclose : nesting (value ++ [']']) = nesting value - 1 := by
        simp [nesting]
        omega
      rw [id, nesting_cons, hclose]
      omega

/-! ### Brackets in quoted strings -/

/-- Where a character of a query stands. -/
inductive Quoting where
  | outside
  | inside
  /-- Inside, behind a backslash. -/
  | escaped
  deriving DecidableEq

def Quoting.isOutside (quoting : Quoting) : Bool := quoting == .outside

/-- Inside or outside a literal, after one more character. -/
def Quoting.after : Quoting → Char → Quoting
  | .outside, c => if c = '\'' then .inside else .outside
  | .inside, c => if c = '\'' then .outside else if c = '\\' then .escaped else .inside
  | .escaped, _ => .inside

/-- The characters at which the state of quoting is one of some. -/
def standing (keeps : Quoting → Bool) : Quoting → List Char → List Char
  | _, [] => []
  | quoting, c :: rest => (if keeps quoting then [c] else []) ++ standing keeps (quoting.after c) rest

/-- The characters outside the quoted strings, with the quotes that open them. -/
def unquoted : List Char → List Char := standing Quoting.isOutside .outside

/-- The characters of the quoted strings, with the quotes that close them. -/
def quoted : List Char → List Char := standing (fun quoting => !quoting.isOutside) .outside

theorem nesting_standing (keeps : Quoting → Bool) (quoting : Quoting) (cs : List Char) :
    nesting (standing keeps quoting cs) + nesting (standing (fun other => !keeps other) quoting cs) = nesting cs := by
  induction cs generalizing quoting with
  | nil => rfl
  | cons c rest ih =>
    have hrest := ih (quoting.after c)
    rw [standing, standing, nesting_cons c rest]
    cases keeps quoting <;> simp only [Bool.not_true, Bool.not_false, Bool.false_eq_true, if_true, if_false, nil_append,
      singleton_append, nesting_cons c (standing _ _ _)] <;> omega

theorem standing_prefix {keeps : Quoting → Bool} {quoting : Quoting} {first cs : List Char} (h : first <+: cs) :
    standing keeps quoting first <+: standing keeps quoting cs := by
  induction cs generalizing quoting first with
  | nil =>
    obtain rfl := prefix_nil.mp h
    exact prefix_refl _
  | cons c rest ih =>
    rcases prefix_cons_iff.mp h with rfl | ⟨first, rfl, hrest⟩
    · exact nil_prefix
    · exact (prefix_append_right_inj _).mpr (ih hrest)

theorem ClosesBracket.of_quoted {text : List Char} (h : ClosesBracket id text) (hopen : '[' ∉ quoted text)
    (hclose : ']' ∉ quoted text) : ClosesBracket unquoted text := by
  have hseen : ∀ first, first <+: text → nesting (unquoted first) = nesting first := by
    intro first hprefix
    have hquoted : quoted first <+: quoted text := standing_prefix hprefix
    have hnone : nesting (quoted first) = 0 := by
      rw [nesting, count_eq_zero_of_not_mem fun hmem => hopen (hquoted.subset hmem),
        count_eq_zero_of_not_mem fun hmem => hclose (hquoted.subset hmem)]
      rfl
    rw [← nesting_standing Quoting.isOutside .outside first]
    exact (add_eq_left.mpr hnone).symm
  refine ⟨h.opens, h.closes, fun first hprefix hne hpart => ?_, ?_⟩
  · rw [hseen first hprefix]
    exact h.inside first hprefix hne hpart
  · rw [hseen text (prefix_refl text)]
    exact h.balanced

/-! ## Literals -/

/-- How the text of a literal ends, before what is left of the source. -/
structure Tile.EndsLiteral (after : List Char) (tile : Tile) : Prop where
  text : ∀ value, tile.token.kind = .text value → ClosesQuote tile.text ∨ BreaksOff tile.text ∧ after = []
  query : ∀ body, tile.token.kind = .query body → ClosesBracket id tile.text ∧
    ('[' ∉ quoted tile.text → ']' ∉ quoted tile.text → ClosesBracket unquoted tile.text)

theorem Tile.Stands.endsLiteral {before after : List Char} {tile : Tile} (h : tile.Stands before after) :
    tile.EndsLiteral after := by
  have hlexeme := lexeme_cases (by simp [h.ne_nil]) h.lexeme
  have htake : (tile.text ++ after).take tile.text.length = tile.text := take_left
  refine ⟨fun value hkind => ?_, fun body hkind => ?_⟩
  · rw [hkind] at hlexeme
    have hends := hlexeme.closesQuote
    rw [htake, length_append] at hends
    exact hends.imp_right fun hopen => ⟨hopen.1, length_eq_zero_iff.mp (Nat.left_eq_add.mp hopen.2)⟩
  · rw [hkind] at hlexeme
    have hcloses := hlexeme.closesBracket
    rw [htake] at hcloses
    exact ⟨hcloses, hcloses.of_quoted⟩

/-- In a text that is accepted every text literal is closed, but one that breaks off at the end of the text behind a
backslash; and every query is closed, where all brackets count. -/
theorem literals_of_tokenize {name text : String} {tokens : List Token} (h : tokenize name text = .ok tokens) :
    ∃ tiles last, tokens = tiles.map Tile.token ++ [Token.endAt (Place.behind text.toList)] ∧
      text.toList = tiles.flatMap Tile.chars ++ last ∧ ∀ earlier tile later, tiles = earlier ++ tile :: later →
        tile.Stands (earlier.flatMap Tile.chars) (later.flatMap Tile.chars ++ last) ∧
        tile.EndsLiteral (later.flatMap Tile.chars ++ last) := by
  obtain ⟨tiles, last, htokens, htext, hrow⟩ := exists_tiles h
  refine ⟨tiles, last, htokens, htext, ?_⟩
  rintro earlier tile later rfl
  exact ⟨hrow.stands, hrow.stands.endsLiteral⟩

def searchText : String := "[FIND a] 'b\\"

def searchTokens : List Token := [⟨.query "FIND a", 1, 1, 1, 9⟩, ⟨.text "b", 1, 10, 1, 13⟩, ⟨.eof, 1, 13, 1, 13⟩]

/-- A query, and a literal that ends with a backslash at the end of the text. -/
theorem literals_searchText : tokenize "A" searchText = .ok searchTokens ∧
    ∃ tiles last, searchTokens = tiles.map Tile.token ++ [Token.endAt (Place.behind searchText.toList)] ∧
      searchText.toList = tiles.flatMap Tile.chars ++ last ∧ ∀ earlier tile later, tiles = earlier ++ tile :: later →
        tile.Stands (earlier.flatMap Tile.chars) (later.flatMap Tile.chars ++ last) ∧
        tile.EndsLiteral (later.flatMap Tile.chars ++ last) := by
  have haccepted : tokenize "A" searchText = .ok searchTokens := by decide
  exact ⟨haccepted, literals_of_tokenize haccepted⟩

def brokenOff : String := "'\\"

/-- A query with a bracket in quotes, and a comment with a quote. -/
def cutQuery : String := "[FIND ']'] //'"

/-- A text literal without its closing quote is accepted at the end of a text, and so is a query that ends within
its quoted string. -/
theorem unclosed_accepted :
    (tokenize "A" brokenOff = .ok [⟨.text "", 1, 1, 1, 3⟩, ⟨.eof, 1, 3, 1, 3⟩] ∧ ¬ClosesQuote brokenOff.toList) ∧
    tokenize "A" cutQuery = .ok [⟨.query "FIND '", 1, 1, 1, 9⟩, ⟨.text "] //", 1, 9, 1, 15⟩, ⟨.eof, 1, 15, 1, 15⟩] ∧
      ¬ClosesBracket unquoted (cutQuery.toList.take 8) := by
  refine ⟨⟨by decide, ?_⟩, by decide, fun hcloses => absurd hcloses.balanced (by decide)⟩
  rintro ⟨body, heq, -⟩
  have hlast := congrArg List.getLast? heq
  rw [← cons_append, List.getLast?_concat] at hlast
  exact absurd hlast (by decide)

end ApexPaths.Source
