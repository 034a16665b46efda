import ApexPaths.Proofs.Source.Tiling
import ApexPaths.Proofs.Text.Decimal

/-!
Tokens and expressions as they are written. Words, whole numbers, text literals and marks that are written with blanks
between them are scanned as the tokens that they are. Expressions of operators are written with parentheses only around
operands that bind more loosely than their place allows.
-/

namespace ApexPaths.Source
set_option autoImplicit false

open Text List

/-! ## Spellings -/

/-- Characters that are read as one word. -/
def IsWord (cs : List Char) : Prop := ∃ c rest, cs = c :: rest ∧ isWordStart c = true ∧ ∀ d ∈ rest, isWordChar d = true

/-- A character as it is written inside a literal. -/
def escaped (c : Char) : List Char :=
  if c = '\'' then ['\\', '\''] else if c = '\\' then ['\\', '\\'] else if c = '\n' then ['\\', 'n'] else [c]

/-- The characters of a token. -/
def spelling : TokenKind → List Char
  | .identifier name => name.toList
  | .text value => '\'' :: (value.toList.flatMap escaped ++ ['\''])
  | .integer value => (toString value).toList
  | .punct mark => mark.toList
  | _ => []

/-- The tokens that are scanned from their spelling. An opening bracket may begin a query. -/
inductive Writable : TokenKind → Prop where
  | identifier {name : String} (hword : IsWord name.toList) : Writable (.identifier name)
  | text (value : String) : Writable (.text value)
  | integer {n : Nat} (hfits : (n : Int) ≤ maxInt64) : Writable (.integer n)
  | punct {mark : String} (hmark : mark ∈ punctuation) (hbracket : mark ≠ "[") : Writable (.punct mark)

/-- A text begins with a blank or is empty. -/
def Parted (cs : List Char) : Prop := ∀ c ∈ cs.head?, isBlank c = true

variable {cs rest : List Char}

theorem Parted.takeWhile {p : Char → Bool} (hp : ∀ c, isBlank c = true → p c = false) (hrest : Parted rest)
    (hcs : ∀ c ∈ cs, p c = true) : (cs ++ rest).takeWhile p = cs := by
  rw [takeWhile_append_of_pos hcs]
  cases rest with
  | nil => simp
  | cons c rest => rw [takeWhile_cons_of_neg (by rw [hp c (hrest c rfl)]; exact Bool.false_ne_true), append_nil]

theorem isWordChar_of_isBlank {c : Char} (h : isBlank c = true) : isWordChar c = false :=
  Bool.eq_false_iff.mpr fun hword => Bool.noConfusion ((plain_of_isWordChar hword).1.symm.trans h)

theorem isDigit_of_isBlank {c : Char} (h : isBlank c = true) : c.isDigit = false := by
  have hblanks : ∀ code ∈ blankCodes, (Char.ofNat code).isDigit = false := by decide
  have hnot := hblanks _ (mem_blankCodes h)
  rwa [Char.ofNat_toNat] at hnot

variable {d : Char}

theorem ne_of_all_not {p : Char → Bool} {others : List Char} (hothers : others.all (!p ·) = true) {c : Char}
    (h : p c = true) (hd : d ∈ others) : c ≠ d := by
  rintro rfl
  have hnot := all_eq_true.mp hothers c hd
  rw [h] at hnot
  cases hnot

theorem ne_of_isBlank {c : Char} (h : isBlank c = true) (hd : d ∈ ['.', 'l', 'L', '/', '*']) : c ≠ d :=
  ne_of_all_not (by decide) h hd

theorem ne_of_isWordStart {c : Char} (h : isWordStart c = true) (hd : d ∈ ['\'', '@', '[', '/']) : c ≠ d :=
  ne_of_all_not (by decide) h hd

theorem ne_of_isDigit {c : Char} (h : c.isDigit = true) (hd : d ∈ ['\'', '@', '[', '/']) : c ≠ d :=
  ne_of_all_not (p := Char.isDigit) (by decide) h hd

theorem isWordChar_of_isWordStart {c : Char} (h : isWordStart c = true) : isWordChar c = true := by
  simp only [isWordStart, isWordChar, isLetterOrNumeric, Bool.or_eq_true] at h ⊢
  exact h.imp_left .inl

theorem digit_code {c : Char} (h : c.isDigit = true) : c.toNat ∈ List.range' 48 10 := by
  simp only [Char.isDigit, ge_iff_le, Bool.and_eq_true, decide_eq_true_eq, UInt32.le_iff_toNat_le] at h
  exact mem_range'_1.mpr ⟨h.1, Nat.lt_succ_of_le h.2⟩

theorem isWordStart_of_isDigit {c : Char} (h : c.isDigit = true) : isWordStart c = false := by
  have hdigits : ∀ code ∈ List.range' 48 10, isWordStart (Char.ofNat code) = false := by decide
  have hnot := hdigits _ (digit_code h)
  rwa [Char.ofNat_toNat] at hnot

/-! ## Words, texts and numbers -/

theorem IsWord.wordChars (h : IsWord cs) : ∀ c ∈ cs, isWordChar c = true := by
  obtain ⟨c, rest, rfl, hstart, hrest⟩ := h
  exact forall_mem_cons.mpr ⟨isWordChar_of_isWordStart hstart, hrest⟩

theorem stringBody?_escaped (value rest : List Char) :
    stringBody? (value.flatMap escaped ++ '\'' :: rest) = some (value, (value.flatMap escaped).length + 1) := by
  induction value with
  | nil => simp [stringBody?]
  | cons c value ih =>
    rw [flatMap_cons, List.append_assoc]
    by_cases hquote : c = '\''
    · subst c
      simp [escaped, stringBody?, unescape, ih]
    by_cases hslash : c = '\\'
    · subst c
      simp [escaped, stringBody?, unescape, ih]
    by_cases hbreak : c = '\n'
    · subst c
      simp [escaped, stringBody?, unescape, ih]
    · simp [escaped, stringBody?, hquote, hslash, hbreak, ih]

theorem number_of_digits {digits : List Char} {value : Int} (hdigits : ∀ c ∈ digits, c.isDigit = true)
    (hvalue : (digits? digits).bind (fun n => inInt64? n) = some value) (hrest : Parted rest) :
    number (digits ++ rest) = .ok (.integer value, digits.length) := by
  have htake := hrest.takeWhile (fun _ => isDigit_of_isBlank) hdigits
  have hdrop : (digits ++ rest).dropWhile Char.isDigit = rest := by
    have hsplit := takeWhile_append_dropWhile (p := Char.isDigit) (l := digits ++ rest)
    rwa [htake, append_cancel_left_eq] at hsplit
  rw [number, htake, hdrop]
  cases rest with
  | nil => simp [hvalue]
  | cons c rest =>
    have hblank := hrest c rfl
    have hdot : c ≠ '.' := ne_of_isBlank hblank (by decide)
    have hlower : c ≠ 'l' := ne_of_isBlank hblank (by decide)
    have hupper : c ≠ 'L' := ne_of_isBlank hblank (by decide)
    simp [hvalue, hdot, hlower, hupper]

theorem number_toString {n : Nat} (hfits : (n : Int) ≤ maxInt64) (hrest : Parted rest) :
    number ((toString n).toList ++ rest) = .ok (.integer n, (toString n).toList.length) := by
  have hmin : minInt64 ≤ (n : Int) := Int.le_trans (by decide) (Int.natCast_nonneg n)
  refine number_of_digits isDigit_of_mem_toString ?_ hrest
  rw [digits?_toString, Option.bind_some, inInt64?, if_pos ⟨hmin, hfits⟩]

/-! ## Marks -/

theorem isBlank_of_mem_mark {mark : String} (hmark : mark ∈ punctuation) : ∀ c ∈ mark.toList, isBlank c = false := by
  have hall : punctuation.all (fun mark => mark.toList.all (!isBlank ·)) = true := by decide
  intro c hc
  simpa using all_eq_true.mp (all_eq_true.mp hall mark hmark) c hc

/-- The first character of a mark begins no other token, and no mark begins a comment. -/
structure BeginsMark (c : Char) (rest : List Char) : Prop where
  quote : c ≠ '\''
  decorator : c ≠ '@'
  bracket : c ≠ '['
  digit : c.isDigit = false
  word : isWordStart c = false
  slash : c = '/' → rest = [] ∨ rest = ['=']

theorem beginsMark {mark : String} (hmark : mark ∈ punctuation) (hbracket : mark ≠ "[") :
    ∃ c rest, mark.toList = c :: rest ∧ BeginsMark c rest := by
  have hall : punctuation.all (fun mark => mark == "[" || mark.toList.head?.any fun c => c != '\'' && c != '@' && c !=
    '[' && !c.isDigit && !isWordStart c && (c != '/' || mark.toList.tail == [] || mark.toList.tail == ['='])) =
    true := by decide
  have htest := all_eq_true.mp hall mark hmark
  cases hchars : mark.toList with
  | nil => simp [hchars, hbracket] at htest
  | cons c rest =>
    simp only [hchars, List.head?_cons, tail_cons, Option.any_some, Bool.or_eq_true, beq_iff_eq, hbracket, false_or,
      Bool.and_eq_true, bne_iff_ne, Bool.not_eq_true'] at htest
    obtain ⟨⟨⟨⟨⟨hquote, hdecorator⟩, hopen⟩, hdigit⟩, hword⟩, hslash⟩ := htest
    exact ⟨c, rest, rfl, hquote, hdecorator, hopen, hdigit, hword, fun hc => by simpa [hc] using hslash⟩

theorem find?_mark {mark : String} (hmark : mark ∈ punctuation) (hrest : Parted rest) :
    punctuation.find? (fun other => (dropStart? other.toList (mark.toList ++ rest)).isSome) = some mark := by
  have hstarts : mark.toList <+: mark.toList ++ rest := prefix_append _ _
  cases hfind : punctuation.find? (fun other => (dropStart? other.toList (mark.toList ++ rest)).isSome) with
  | none => exact absurd (isSome_dropStart?_iff.mpr hstarts) (List.find?_eq_none.mp hfind mark hmark)
  | some found =>
    have hlongest := isLongestMark_of_find? hfind
    obtain ⟨more, hmore⟩ := prefix_of_prefix_length_le hstarts hlongest.starts (hlongest.longest mark hmark hstarts)
    cases more with
    | nil => rw [String.toList_injective (hmore.symm.trans (append_nil _))]
    | cons d more =>
      have hbehind := hlongest.starts
      rw [← hmore, prefix_append_right_inj] at hbehind
      obtain ⟨after, hafter⟩ := hbehind
      have hd : d ∈ found.toList := by simp [← hmore]
      have hblank := hrest d (by simp [← hafter])
      exact Bool.noConfusion ((isBlank_of_mem_mark hlongest.mem d hd).symm.trans hblank)

/-! ## Scanning -/

theorem skipLength_cons {c : Char} (hblank : isBlank c = false) (hslash : c ≠ '/') (rest : List Char) :
    skipLength (c :: rest) = .ok 0 := by
  simp [skipLength, hblank, hslash]

/-- The token is read from its spelling, and nothing of it is skipped. -/
structure IsScanned (kind : TokenKind) (rest : List Char) : Prop where
  ne_nil : spelling kind ≠ []
  skip : skipLength (spelling kind ++ rest) = .ok 0
  lexeme : lexeme (spelling kind ++ rest) = .ok (kind, (spelling kind).length)

theorem isScanned_identifier {name : String} (hword : IsWord name.toList) (hrest : Parted rest) :
    IsScanned (.identifier name) rest := by
  have htake := hrest.takeWhile (fun _ => isWordChar_of_isBlank) hword.wordChars
  obtain ⟨c, cs, hchars, hstart, -⟩ := hword
  have hne : ∀ d ∈ ['\'', '@', '[', '/'], c ≠ d := fun _ => ne_of_isWordStart hstart
  have hdigit : c.isDigit = false :=
    Bool.eq_false_iff.mpr fun h => Bool.noConfusion ((isWordStart_of_isDigit h).symm.trans hstart)
  have hblank := (plain_of_isWordChar (isWordChar_of_isWordStart hstart)).1
  rw [hchars, cons_append] at htake
  refine ⟨by simp [spelling, hchars], ?_, ?_⟩
  · rw [spelling, hchars]
    exact skipLength_cons hblank (hne '/' (by decide)) _
  · rw [spelling, hchars, cons_append, lexeme]
    simp only [hne '\'' (by decide), hne '@' (by decide), hne '[' (by decide), hdigit, hstart, htake, if_false,
      if_true, decide_false, Bool.false_and, Bool.false_eq_true]
    rw [← hchars, String.ofList_toList]

theorem isScanned_text (value : String) (rest : List Char) : IsScanned (.text value) rest := by
  refine ⟨by simp [spelling], ?_, ?_⟩
  · exact skipLength_cons (by decide) (by decide) _
  · have hbody := stringBody?_escaped value.toList rest
    simp [spelling, lexeme, hbody]

theorem isScanned_integer {n : Nat} (hfits : (n : Int) ≤ maxInt64) (hrest : Parted rest) :
    IsScanned (.integer n) rest := by
  have hnumber := number_toString hfits hrest
  have hspelling : spelling (.integer n) = (toString n).toList := rfl
  cases hchars : (toString n).toList with
  | nil => exact absurd (String.toList_eq_nil_iff.mp hchars) (by simp)
  | cons c cs =>
    have hdigit : c.isDigit = true := isDigit_of_mem_toString c (by rw [hchars]; exact mem_cons_self)
    have hne : ∀ d ∈ ['\'', '@', '[', '/'], c ≠ d := fun _ => ne_of_isDigit hdigit
    have hblank : isBlank c = false :=
      Bool.eq_false_iff.mpr fun h => Bool.noConfusion ((isDigit_of_isBlank h).symm.trans hdigit)
    rw [hchars] at hnumber hspelling
    refine ⟨by simp [hspelling], ?_, ?_⟩
    · rw [hspelling]
      exact skipLength_cons hblank (hne '/' (by decide)) _
    · rw [hspelling, cons_append, lexeme]
      simp only [hne '\'' (by decide), hne '@' (by decide), hne '[' (by decide), hdigit, if_false, if_true,
        decide_false, Bool.false_and, Bool.false_eq_true]
      exact hnumber

theorem isScanned_punct {mark : String} (hmark : mark ∈ punctuation) (hbracket : mark ≠ "[") (hrest : Parted rest) :
    IsScanned (.punct mark) rest := by
  have hfind := find?_mark hmark hrest
  obtain ⟨c, cs, hchars, hbegins⟩ := beginsMark hmark hbracket
  have hblank : isBlank c = false := isBlank_of_mem_mark hmark c (by rw [hchars]; exact mem_cons_self)
  rw [hchars] at hfind
  refine ⟨by simp [spelling, hchars], ?_, ?_⟩
  · rw [spelling, hchars]
    by_cases hslash : c = '/'
    · subst hslash
      rcases hbegins.slash rfl with rfl | rfl
      · cases rest with
        | nil => simp [skipLength, hblank]
        | cons d rest =>
          have hslash : d ≠ '/' := ne_of_isBlank (hrest d rfl) (by decide)
          have hstar : d ≠ '*' := ne_of_isBlank (hrest d rfl) (by decide)
          simp [skipLength, hblank, hslash, hstar]
      · simp [skipLength, hblank]
    · exact skipLength_cons hblank hslash _
  · rw [spelling, hchars, cons_append, lexeme]
    rw [cons_append] at hfind
    simp only [hbegins.quote, hbegins.decorator, hbegins.bracket, hbegins.digit, hbegins.word, if_false, decide_false,
      Bool.false_and, Bool.false_eq_true, hfind]
    rw [← hchars, String.length_toList]

theorem isScanned {kind : TokenKind} (h : Writable kind) (hrest : Parted rest) : IsScanned kind rest := by
  cases h with
  | identifier hword => exact isScanned_identifier hword hrest
  | text value => exact isScanned_text value rest
  | integer hfits => exact isScanned_integer hfits hrest
  | punct hmark hbracket => exact isScanned_punct hmark hbracket hrest

/-! ## Texts of tokens -/

/-- White space between two tokens. -/
structure Blanks where
  chars : List Char
  ne_nil : chars ≠ []
  blank : ∀ c ∈ chars, isBlank c = true

theorem Blanks.parted (gap : Blanks) (rest : List Char) : Parted (gap.chars ++ rest) := by
  obtain ⟨d, ds, hchars⟩ := exists_cons_of_ne_nil gap.ne_nil
  intro c hc
  rw [hchars] at hc
  cases hc
  exact gap.blank d (by rw [hchars]; exact mem_cons_self)

/-- The text of some tokens with white space between them. -/
def write (gaps : Nat → Blanks) : List TokenKind → List Char
  | [] => []
  | [kind] => spelling kind
  | kind :: next :: rest => spelling kind ++ ((gaps 0).chars ++ write (fun n => gaps (n + 1)) (next :: rest))

/-- The text is scanned as tokens of these kinds, wherever it stands. -/
def ScansTo (cs : List Char) (kinds : List TokenKind) : Prop :=
  ∀ fuel place, cs.length ≤ fuel → ∃ tokens finish, scanFrom fuel place cs = .ok (tokens, finish) ∧
  tokens.map Token.kind = kinds

theorem ScansTo.nil : ScansTo [] [] := by
  intro fuel place _
  refine ⟨[], place, ?_, rfl⟩
  cases fuel <;> rfl

theorem ScansTo.blanks {gap : List Char} {kinds : List TokenKind} (hgap : ∀ c ∈ gap, isBlank c = true)
    (h : ScansTo cs kinds) : ScansTo (gap ++ cs) kinds := by
  induction gap with
  | nil => exact h
  | cons c gap ih =>
    intro fuel place hfuel
    have hblank := hgap c mem_cons_self
    have hslash : c ≠ '/' := ne_of_isBlank hblank (by decide)
    obtain ⟨fuel, rfl⟩ : ∃ n, fuel = n + 1 := Nat.exists_eq_add_one_of_ne_zero (by rintro rfl; simp at hfuel)
    have hskip : skipLength (c :: (gap ++ cs)) = .ok 1 := by simp [skipLength, hblank, hslash]
    rw [cons_append, scanFrom]
    · simp only [hskip]
      exact ih (fun d hd => hgap d (mem_cons_of_mem c hd)) fuel _ (Nat.le_of_succ_le_succ hfuel)
    · exact cons_ne_nil _ _

theorem ScansTo.token {kind : TokenKind} {kinds : List TokenKind} (h : IsScanned kind rest)
    (hrest : ScansTo rest kinds) : ScansTo (spelling kind ++ rest) (kind :: kinds) := by
  intro fuel place hfuel
  have hpos : 0 < (spelling kind).length := length_pos_iff.mpr h.ne_nil
  rw [length_append] at hfuel
  obtain ⟨fuel, rfl⟩ : ∃ n, fuel = n + 1 := Nat.exists_eq_add_one_of_ne_zero (by omega)
  obtain ⟨tokens, finish, hscan, hkinds⟩ := hrest fuel (place.after (spelling kind)) (by omega)
  rw [scanFrom]
  · simp only [h.skip, h.lexeme, take_left, drop_left, hscan]
    exact ⟨_, _, rfl, by rw [map_cons, hkinds]⟩
  · simp [h.ne_nil]

theorem scansTo_write (gaps : Nat → Blanks) {kinds : List TokenKind} (h : ∀ kind ∈ kinds, Writable kind) :
    ScansTo (write gaps kinds) kinds := by
  induction kinds generalizing gaps with
  | nil => exact .nil
  | cons kind rest ih =>
    have hkind := h kind mem_cons_self
    cases rest with
    | nil =>
      rw [write, ← append_nil (spelling kind)]
      exact .token (isScanned hkind (by simp [Parted])) .nil
    | cons next rest =>
      have hrest := ih (fun n => gaps (n + 1)) fun other hother => h other (mem_cons_of_mem kind hother)
      exact .token (isScanned hkind ((gaps 0).parted _)) (.blanks (gaps 0).blank hrest)

/-- What is written with blanks between the tokens is scanned as these tokens. -/
theorem scan_write (gaps : Nat → Blanks) {kinds : List TokenKind} (h : ∀ kind ∈ kinds, Writable kind) :
    ∃ tokens stop, scan (String.ofList (write gaps kinds)) = .ok (tokens, stop) ∧ tokens.map Token.kind = kinds ∧
    stop.kind = .eof := by
  obtain ⟨tokens, finish, hscan, hkinds⟩ := scansTo_write gaps h _ {} (Nat.le_refl _)
  refine ⟨tokens, Token.endAt finish, ?_, hkinds, rfl⟩
  rw [scan, String.toList_ofList, hscan]
  rfl

/-! ## Expressions -/

/-- The operations with two operands. -/
inductive BinaryOp where
  | or | and
  | equal | unequal | identical | distinct
  | less | greater | atMost | atLeast
  | plus | minus
  | times | divided | modulo

/-- The operations before an operand. -/
inductive UnaryOp where
  | not | minus | plus | increment | decrement

/-- The assignments. -/
inductive AssignOp where
  | plain | plus | minus | times | divided

def BinaryOp.mark : BinaryOp → String
  | or => "||"
  | and => "&&"
  | equal => "=="
  | unequal => "!="
  | identical => "==="
  | distinct => "!=="
  | less => "<"
  | greater => ">"
  | atMost => "<="
  | atLeast => ">="
  | plus => "+"
  | minus => "-"
  | times => "*"
  | divided => "/"
  | modulo => "%"

def UnaryOp.mark : UnaryOp → String
  | not => "!"
  | minus => "-"
  | plus => "+"
  | increment => "++"
  | decrement => "--"

def AssignOp.mark : AssignOp → String
  | plain => "="
  | plus => "+="
  | minus => "-="
  | times => "*="
  | divided => "/="

/-- How strongly an operation binds, weaker ones first. -/
def BinaryOp.level : BinaryOp → Nat
  | or => 0
  | and => 1
  | equal | unequal | identical | distinct => 2
  | less | greater | atMost | atLeast => 3
  | plus | minus => 4
  | times | divided | modulo => 5

theorem BinaryOp.level_lt (op : BinaryOp) : op.level < 6 := by cases op <;> decide

/-- A name that stands for itself. -/
structure VariableName where
  name : String
  word : IsWord name.toList
  plain : ∀ word ∈ ["true", "false", "null", "this", "super"], eqIgnoringCase name word = false

/-- Expressions of operators over names and literals. -/
inductive Formula where
  | name (value : VariableName)
  | integer (value : Nat) (fits : (value : Int) ≤ maxInt64)
  | text (value : String)
  | truth (value : Bool)
  | null
  | unary (op : UnaryOp) (operand : Formula)
  | binary (op : BinaryOp) (left right : Formula)
  | choice (condition whenTrue whenFalse : Formula)
  | assign (op : AssignOp) (target value : Formula)

namespace Formula

/-- How strongly the outermost operator binds, from assignments and choices over the binary levels and signs to names
and literals. -/
def strength : Formula → Nat
  | assign .. => 0
  | choice .. => 1
  | binary op .. => op.level + 2
  | unary .. => 8
  | _ => 9

/-- Parentheses go around what binds more loosely than its place allows. -/
def enclosed (strength least : Nat) (kinds : List TokenKind) : List TokenKind :=
  if strength < least then .punct "(" :: (kinds ++ [.punct ")"]) else kinds

/-- The tokens of an expression. The left operand of a binary operator may have operators of its level, the right one
may not; outcomes of a choice and assigned values extend to the right. -/
def kinds : Formula → List TokenKind
  | name x => [.identifier x.name]
  | integer n _ => [.integer n]
  | text value => [.text value]
  | truth value => [.identifier (toString value)]
  | null => [.identifier "null"]
  | unary op e => .punct op.mark :: enclosed e.strength 8 e.kinds
  | binary op l r =>
    enclosed l.strength (op.level + 2) l.kinds ++ .punct op.mark :: enclosed r.strength (op.level + 3) r.kinds
  | choice c t f =>
    enclosed c.strength 2 c.kinds ++ .punct "?" ::
    (enclosed t.strength 0 t.kinds ++ .punct ":" :: enclosed f.strength 1 f.kinds)
  | assign op t v => enclosed t.strength 1 t.kinds ++ .punct op.mark :: enclosed v.strength 0 v.kinds

def node (kind : NodeKind) (op : String) (children : List Tree) : Tree :=
  { kind, span := .zero, props := [(.fact .operator, .text op)], children }

def literal (tag value : String) : Tree :=
  { kind := .literalExpression, span := .zero, props := [(.fact .literalType, .text tag), (.fact .value, .text value)] }

/-- The tree that a formula is read as. -/
def tree : Formula → Tree
  | name x =>
    { kind := .variableExpression, span := .zero, props := [(.spelled .name, .text x.name)],
      children := [{ kind := .emptyReferenceExpression, span := .zero }] }
  | integer n _ => literal "INTEGER" (toString n)
  | text value => literal "STRING" value
  | truth true => literal "TRUE" "true"
  | truth false => literal "FALSE" "false"
  | null => literal "NULL" "null"
  | unary op e => node .prefixExpression op.mark [e.tree]
  | binary op l r => node (if op.level < 4 then .booleanExpression else .binaryExpression) op.mark [l.tree, r.tree]
  | choice c t f => { kind := .ternaryExpression, span := .zero, children := [c.tree, t.tree, f.tree] }
  | assign op t v => node .assignmentExpression op.mark [t.tree, v.tree]

/-- The tokens where an operand of some strength is read. -/
def operand (e : Formula) (least : Nat) : List TokenKind := enclosed e.strength least e.kinds

section
variable (e l r c t f : Formula)

@[simp] theorem kinds_unary (op : UnaryOp) : (unary op e).kinds = .punct op.mark :: e.operand 8 := rfl

@[simp] theorem kinds_binary (op : BinaryOp) :
    (binary op l r).kinds = l.operand (op.level + 2) ++ .punct op.mark :: r.operand (op.level + 3) := rfl

@[simp] theorem kinds_choice :
    (choice c t f).kinds = c.operand 2 ++ .punct "?" :: (t.operand 0 ++ .punct ":" :: f.operand 1) := rfl

@[simp] theorem kinds_assign (op : AssignOp) :
    (assign op l r).kinds = l.operand 1 ++ .punct op.mark :: r.operand 0 := rfl

end

theorem operand_of_le {e : Formula} {least : Nat} (h : least ≤ e.strength) : e.operand least = e.kinds :=
  if_neg (Nat.not_lt.mpr h)

@[simp] theorem operand_zero (e : Formula) : e.operand 0 = e.kinds := operand_of_le (Nat.zero_le _)

theorem operand_of_lt {e : Formula} {least : Nat} (h : e.strength < least) :
    e.operand least = .punct "(" :: (e.kinds ++ [.punct ")"]) := if_pos h

theorem kinds_of_strong {e : Formula} (h : 9 ≤ e.strength) : ∃ kind, e.kinds = [kind] ∧ ∀ mark, kind ≠ .punct mark := by
  cases e with
  | unary => exact absurd h (by simp [strength])
  | binary op => exact absurd h (Nat.not_le.mpr (Nat.lt_succ_of_lt (Nat.add_lt_add_right op.level_lt 2)))
  | choice => exact absurd h (by simp [strength])
  | assign => exact absurd h (by simp [strength])
  | _ => exact ⟨_, rfl, by simp⟩

theorem operand_succ {e : Formula} {least : Nat} (h : e.strength ≠ least) :
    e.operand (least + 1) = e.operand least := by
  rcases Nat.lt_or_gt_of_ne h with h | h
  · rw [operand_of_lt h, operand_of_lt (Nat.lt_succ_of_lt h)]
  · rw [operand_of_le h, operand_of_le (Nat.le_of_lt h)]

/-- What holds of an expression without and within parentheses holds of it as an operand. -/
theorem operand_cases {motive : List TokenKind → Prop} (e : Formula) (least : Nat) (hplain : motive e.kinds)
    (henclosed : motive (.punct "(" :: (e.kinds ++ [.punct ")"]))) : motive (e.operand least) := by
  rcases Nat.lt_or_ge e.strength least with h | h
  · rwa [operand_of_lt h]
  · rwa [operand_of_le h]

theorem writable_operand_of {e : Formula} (h : ∀ kind ∈ e.kinds, Writable kind) (m : Nat) :
    ∀ kind ∈ e.operand m, Writable kind := by
  refine operand_cases (motive := fun ks => ∀ kind ∈ ks, Writable kind) e m h ?_
  refine forall_mem_cons.mpr ⟨.punct (by decide) (by decide), forall_mem_append.mpr ⟨h, ?_⟩⟩
  exact forall_mem_singleton.mpr (.punct (by decide) (by decide))

theorem writable_unary (op : UnaryOp) : Writable (.punct op.mark) := by
  cases op <;> exact .punct (by decide) (by decide)

theorem writable_binary (op : BinaryOp) : Writable (.punct op.mark) := by
  cases op <;> exact .punct (by decide) (by decide)

theorem writable_assign (op : AssignOp) : Writable (.punct op.mark) := by
  cases op <;> exact .punct (by decide) (by decide)

theorem writable_true : Writable (.identifier "true") :=
  .identifier ⟨'t', ['r', 'u', 'e'], by decide, by decide, all_eq_true.mp (by decide)⟩

theorem writable_false : Writable (.identifier "false") :=
  .identifier ⟨'f', ['a', 'l', 's', 'e'], by decide, by decide, all_eq_true.mp (by decide)⟩

theorem writable_null : Writable (.identifier "null") :=
  .identifier ⟨'n', ['u', 'l', 'l'], by decide, by decide, all_eq_true.mp (by decide)⟩

/-- Every token of a formula is scanned from its spelling. -/
theorem writable_kinds (e : Formula) : ∀ kind ∈ e.kinds, Writable kind := by
  induction e with
  | name x => exact forall_mem_singleton.mpr (.identifier x.word)
  | integer n hfits => exact forall_mem_singleton.mpr (.integer hfits)
  | text value => exact forall_mem_singleton.mpr (.text value)
  | truth value =>
    cases value with
    | true => exact forall_mem_singleton.mpr writable_true
    | false => exact forall_mem_singleton.mpr writable_false
  | null => exact forall_mem_singleton.mpr writable_null
  | unary op e ih => exact forall_mem_cons.mpr ⟨writable_unary op, writable_operand_of ih 8⟩
  | binary op l r ihl ihr =>
    have hright := forall_mem_cons.mpr ⟨writable_binary op, writable_operand_of ihr (op.level + 3)⟩
    exact forall_mem_append.mpr ⟨writable_operand_of ihl _, hright⟩
  | choice c t f ihc iht ihf =>
    have hquestion : Writable (.punct "?") := .punct (by decide) (by decide)
    have hcolon : Writable (.punct ":") := .punct (by decide) (by decide)
    have hfalse := forall_mem_cons.mpr ⟨hcolon, writable_operand_of ihf 1⟩
    have htrue := forall_mem_cons.mpr ⟨hquestion, forall_mem_append.mpr ⟨writable_operand_of iht 0, hfalse⟩⟩
    exact forall_mem_append.mpr ⟨writable_operand_of ihc _, htrue⟩
  | assign op t v iht ihv =>
    have hvalue := forall_mem_cons.mpr ⟨writable_assign op, writable_operand_of ihv 0⟩
    exact forall_mem_append.mpr ⟨writable_operand_of iht _, hvalue⟩

end Formula

end ApexPaths.Source
