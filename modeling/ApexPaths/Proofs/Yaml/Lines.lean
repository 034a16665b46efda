import ApexPaths.Yaml.Lexer
import Mathlib

/-!
Lines of words. A line gives a value to a key, or opens a block of lines that are indented deeper. The lexer
reads such lines as the tokens that their structure says; where a block ends, the next line closes it.
-/

namespace ApexPaths.Yaml
set_option autoImplicit false

open List

/-! ## Words -/

def isWordChar (c : Char) : Bool := c.isAlphanum || c == '_'

/-- A word: letters, digits and underscores, maybe after a dash. -/
def isWord : List Char → Bool
  | '-' :: cs => !cs.isEmpty && cs.all isWordChar
  | cs => !cs.isEmpty && cs.all isWordChar

variable {c : Char}

theorem isNameChar_of_isWordChar (h : isWordChar c = true) : isNameChar c = true := by
  rw [isWordChar] at h
  rw [isNameChar, h, Bool.true_or]

section
variable (h : isNameChar c = true)
include h

theorem beq_of_isNameChar (d : Char) (hd : isNameChar d = false) : (c == d) = false := by
  refine beq_eq_false_iff_ne.mpr ?_
  rintro rfl
  rw [h] at hd
  cases hd

theorem not_mem_of_isNameChar {marks : List Char} (hmarks : marks.all (!isNameChar ·) = true) :
    c ∉ marks := by
  intro hmem
  have hc := all_eq_true.mp hmarks c hmem
  rw [h] at hc
  cases hc

theorem toNat_beq_of_isNameChar (n : Nat) (hn : isNameChar (Char.ofNat n) = false) :
    (c.toNat == n) = false := by
  refine beq_eq_false_iff_ne.mpr ?_
  rintro rfl
  rw [Char.ofNat_toNat, h] at hn
  cases hn

theorem isBreak_of_isNameChar : isBreak c = false := by
  rw [isBreak, beq_of_isNameChar h '\n' (by decide), toNat_beq_of_isNameChar h 0x2028 (by decide),
    toNat_beq_of_isNameChar h 0x2029 (by decide)]
  rfl

theorem isSpacing_of_isNameChar : isSpacing c = false := by
  rw [isSpacing, beq_of_isNameChar h ' ' (by decide), beq_of_isNameChar h '\t' (by decide)]
  rfl

end

theorem isWord_cases {word : List Char} (h : isWord word = true) : (∀ c ∈ word, isNameChar c = true) ∧
    ∃ c cs, word = c :: cs ∧ (c = '-' → ∃ d ds, cs = d :: ds ∧ isWordChar d = true) := by
  unfold isWord at h
  split at h
  case h_1 cs =>
    simp only [Bool.and_eq_true, Bool.not_eq_true', all_eq_true] at h
    obtain ⟨hempty, hall⟩ := h
    refine ⟨?_, '-', cs, rfl, fun _ => ?_⟩
    · rintro c (_ | ⟨_, hc⟩)
      · decide
      · exact isNameChar_of_isWordChar (hall c hc)
    · cases cs with
      | nil => cases hempty
      | cons d ds => exact ⟨d, ds, rfl, hall d mem_cons_self⟩
  case h_2 hdash =>
    simp only [Bool.and_eq_true, Bool.not_eq_true', all_eq_true] at h
    obtain ⟨hempty, hall⟩ := h
    refine ⟨fun c hc => isNameChar_of_isWordChar (hall c hc), ?_⟩
    cases word with
    | nil => cases hempty
    | cons c cs => exact ⟨c, cs, rfl, fun hc => absurd (congrArg (· :: cs) hc) (hdash cs)⟩

/-! ## Plain scalars -/

theorem plainFrom?_cons (indent : Int) (read : List Char) (gap : Gap) (mark : Mark) (c : Char) (cs : List Char) :
    plainFrom? false indent read gap mark (c :: cs) =
      if isSpacing c || isBreak c then
        if c == '\t' && gap.broken && mark.column < indent then none
        else plainFrom? false indent read (gap.push c) (mark.after c) cs
      else if (!gap.isEmpty && (mark.column < indent || (mark.column == 0 && isDocumentMark (c :: cs)) || c == '#'))
          || (c == ':' && atGap cs) then
        some ⟨String.ofList read.reverse, gap.broken, ⟨mark, c :: cs⟩⟩
      else plainFrom? false indent (c :: gap.onto read) {} (mark.across 1) cs := by
  rw [plainFrom?.eq_def]
  simp only [Bool.not_false, Bool.true_and, Bool.false_and, Bool.or_false, Bool.false_eq_true, if_false,
    Bool.or_eq_true]
  grind

theorem plainFrom?_names {word : List Char} (hword : ∀ c ∈ word, isNameChar c = true) (indent : Int) (read : List Char)
    (mark : Mark) (rest : List Char) : plainFrom? false indent read {} mark (word ++ rest) =
      plainFrom? false indent (word.reverse ++ read) {} (mark.across word.length) rest := by
  induction word generalizing read mark with
  | nil => rfl
  | cons c cs ih =>
    have hc := hword c mem_cons_self
    have hread := ih (fun d hd => hword d (mem_cons_of_mem c hd)) (c :: read) (mark.across 1)
    rw [cons_append, plainFrom?_cons]
    simp only [isSpacing_of_isNameChar hc, isBreak_of_isNameChar hc, beq_of_isNameChar hc ':' (by decide)]
    simp only [Gap.isEmpty, Gap.onto]
    refine hread.trans ?_
    simp [Mark.across, Nat.add_assoc, Nat.add_comm 1]

theorem plainFrom?_blanks (indent : Int) (read : List Char) (gap : Gap) (hgap : gap.broken = true) (mark : Mark)
    (count : Nat) (rest : List Char) : plainFrom? false indent read gap mark (List.replicate count ' ' ++ rest) =
      plainFrom? false indent read gap (mark.across count) rest := by
  induction count generalizing mark with
  | zero => rfl
  | succ count ih =>
    have hblank : gap.push ' ' = gap := by rw [Gap.push, hgap]; rfl
    rw [replicate_succ, cons_append, plainFrom?_cons, if_pos (by decide), if_neg (by simp), hblank]
    refine (ih (mark.after ' ')).trans ?_
    rw [Mark.after, if_neg (by decide)]
    simp [Mark.across, Nat.add_assoc, Nat.add_comm 1]

/-- What may come after a line: nothing, or a line that begins with a word. -/
def Continues (rest : List Char) : Prop := rest = [] ∨ ∃ c cs, rest = c :: cs ∧ isNameChar c = true

theorem plainFrom?_word {word : List Char} (hword : isWord word = true) (indent : Int) (mark : Mark) (count : Nat)
    (hcount : (count : Int) < indent) (rest : List Char) (hrest : Continues rest) :
    plainFrom? false indent [] {} mark (word ++ '\n' :: (List.replicate count ' ' ++ rest)) =
      some ⟨String.ofList word, true, ⟨⟨mark.index + word.length + 1 + count, mark.line + 1, count⟩, rest⟩⟩ := by
  have hbroken : (Gap.push {} '\n').broken = true := by decide
  rw [plainFrom?_names (isWord_cases hword).1, plainFrom?_cons, if_pos (by decide), if_neg (by simp),
    plainFrom?_blanks _ _ _ hbroken]
  have hmark : ((mark.across word.length).after '\n').across count =
      ⟨mark.index + word.length + 1 + count, mark.line + 1, count⟩ := by
    simp [Mark.after, Mark.across, Mark.down, isBreak]
  rw [hmark]
  obtain rfl | ⟨c, cs, rfl, hc⟩ := hrest
  · rw [plainFrom?, append_nil, reverse_reverse, hbroken]
  · rw [plainFrom?_cons, if_neg (by rw [isSpacing_of_isNameChar hc, isBreak_of_isNameChar hc]; decide), if_pos,
      append_nil, reverse_reverse, hbroken]
    simp [Gap.isEmpty, hbroken, hcount]

theorem continues_word {word : List Char} (hword : isWord word = true) (rest : List Char) :
    Continues (word ++ rest) := by
  obtain ⟨hnames, c, cs, rfl, -⟩ := isWord_cases hword
  exact .inr ⟨c, cs ++ rest, rfl, hnames c mem_cons_self⟩

theorem plainFrom?_key {word : List Char} (hword : isWord word = true) (indent : Int) (mark : Mark) (rest : List Char)
    (hgap : atGap rest = true) : plainFrom? false indent [] {} mark (word ++ ':' :: rest) =
      some ⟨String.ofList word, false, ⟨mark.across word.length, ':' :: rest⟩⟩ := by
  rw [plainFrom?_names (isWord_cases hword).1, plainFrom?_cons, if_neg (by decide), if_pos (by simp [hgap]), append_nil,
    reverse_reverse]

namespace Lexer

theorem startsPlain_word {cs : List Char} (hc : isNameChar c = true)
    (hdash : c = '-' → ∃ d ds, cs = d :: ds ∧ isWordChar d = true) :
    isDocumentMark (c :: cs) = false ∧ (c == '-' && atGap cs) = false ∧ startsPlain false c cs = true := by
  by_cases h : c = '-'
  · obtain ⟨d, ds, rfl, hd⟩ := hdash h
    have hname := isNameChar_of_isWordChar hd
    have hspacing := isSpacing_of_isNameChar hname
    have hgap : atGap (d :: ds) = false := by rw [atGap, hspacing, isBreak_of_isNameChar hname]; rfl
    refine ⟨?_, by rw [hgap, Bool.and_false], ?_⟩
    · have hne : d ≠ '-' := by rintro rfl; revert hd; decide
      rw [h, isDocumentMark.eq_def]
      split <;> simp_all
    · simp [startsPlain, h, hspacing]
  · refine ⟨?_, by rw [beq_eq_false_iff_ne.mpr h, Bool.false_and], ?_⟩
    · have hpoint := beq_of_isNameChar hc '.' (by decide)
      rw [isDocumentMark.eq_def]
      split <;> simp_all
    · have hcontains : ∀ marks : List Char, marks.all (!isNameChar ·) = true → marks.contains c = false :=
        fun marks hmarks => Bool.eq_false_iff.mpr fun hmem => not_mem_of_isNameChar hc hmarks (contains_iff_mem.mp hmem)
      have hmarks := hcontains "#&*!|>'\"%@".toList (by decide)
      have hflow := hcontains [',', '[', ']', '{', '}'] (by decide)
      rw [startsPlain, if_neg (by simpa using h), if_neg, isSpacing_of_isNameChar hc, isBreak_of_isNameChar hc,
        isFlowMark, hflow, hmarks, toNat_beq_of_isNameChar hc 0x60 (by decide)]
      · rfl
      · simp [beq_of_isNameChar hc '?' (by decide), beq_of_isNameChar hc ':' (by decide)]

theorem token?_word {lexer : Lexer} {word rest : List Char} (hword : isWord word = true)
    (hrest : lexer.cursor.rest = word ++ rest) (hflow : lexer.outerKeys = []) : lexer.token? = lexer.plain? := by
  obtain ⟨hnames, c, cs, rfl, hdash⟩ := isWord_cases hword
  have hc := hnames c mem_cons_self
  have hdash' : c = '-' → ∃ d ds, cs ++ rest = d :: ds ∧ isWordChar d = true := by
    intro h
    obtain ⟨d, ds, rfl, hd⟩ := hdash h
    exact ⟨d, ds ++ rest, rfl, hd⟩
  obtain ⟨hmark, hentry, hplain⟩ := startsPlain_word hc hdash'
  have hflow' : lexer.inFlow = false := by rw [inFlow, hflow]; rfl
  have hmarks : c ∉ ['%', '[', '{', ']', '}', ',', '?', ':', '*', '&', '!', '|', '>', '\'', '"'] :=
    not_mem_of_isNameChar hc (by decide)
  have hne : ∀ d ∈ ['%', '[', '{', ']', '}', ',', '?', ':', '*', '&', '!', '|', '>', '\'', '"'], (c == d) = false :=
    fun d hd => beq_eq_false_iff_ne.mpr fun h => hmarks (h ▸ hd)
  simp only [mem_cons, not_mem_nil, or_false, forall_eq_or_imp, forall_eq] at hne
  rw [cons_append] at hrest
  simp only [token?, hrest, hne, hmark, hentry, hflow', hplain, Bool.and_false, Bool.false_and, Bool.false_eq_true,
    if_false, if_true]

/-! ## Blocks -/

/-- What was read so far: the tokens, latest first, and the indentation of the open blocks. -/
structure Blocks where
  tokens : List Token := []
  indent : Int := -1
  outer : List Int := []

namespace Blocks

variable {blocks : Blocks} {column : Nat}

def add (blocks : Blocks) (tokens : List Token) : Blocks := { blocks with tokens := tokens.reverse ++ blocks.tokens }

/-- Open a block at a column that is deeper than the last block. -/
def enter (blocks : Blocks) (column : Nat) : Blocks :=
  if blocks.indent < column then ⟨.blockMappingStart :: blocks.tokens, column, blocks.indent :: blocks.outer⟩
    else blocks

def leave (blocks : Blocks) : Blocks :=
  match blocks.outer with
  | [] => blocks
  | indent :: outer => ⟨.blockEnd :: blocks.tokens, indent, outer⟩

@[simp]
theorem indent_add (blocks : Blocks) (tokens : List Token) : (blocks.add tokens).indent = blocks.indent := rfl

@[simp]
theorem add_add (blocks : Blocks) (tokens more : List Token) :
    (blocks.add tokens).add more = blocks.add (tokens ++ more) := by
  simp [add]

theorem indent_enter (h : blocks.indent ≤ column) : (blocks.enter column).indent = column := by
  rw [enter]
  split
  · rfl
  · omega

theorem enter_of_indent (h : blocks.indent = column) : blocks.enter column = blocks := by
  rw [enter, if_neg (by omega)]

theorem leave_enter (h : blocks.indent < column) (tokens : List Token) :
    ((blocks.enter column).add tokens).leave = blocks.add (.blockMappingStart :: (tokens ++ [.blockEnd])) := by
  rw [enter, if_pos h]
  simp [leave, add]

end Blocks

/-! ## Places between tokens -/

/-- The lexer at the start of a line, outside brackets. -/
def atLine (mark : Mark) (rest : List Char) (blocks : Blocks) : Lexer :=
  { cursor := ⟨mark, rest⟩, tokens := blocks.tokens, indent := blocks.indent, outerIndents := blocks.outer }

/-- The lexer after a colon. -/
def afterColon (mark : Mark) (rest : List Char) (blocks : Blocks) : Lexer :=
  { atLine mark rest blocks with keyAllowed := false }

/-- The lexer after a word that may be a key. -/
def afterWord (mark : Mark) (word rest : List Char) (blocks : Blocks) : Lexer :=
  { afterColon (mark.across word.length) rest (blocks.add [.scalar true (String.ofList word)]) with
    key := some ⟨blocks.tokens.length, mark, blocks.indent == mark.column⟩ }

theorem closeTo_of_le {lexer : Lexer} {column : Int} (h : lexer.indent ≤ column) : lexer.closeTo column = lexer := by
  rw [closeTo]
  split
  · rfl
  · cases houter : lexer.outerIndents with
    | nil => rw [closeTo.go, ← houter]
    | cons outer rest => rw [closeTo.go, if_neg (by omega), ← houter]

/-- The lexer gets to the start of a line where these blocks are open. -/
structure Arrives (size : Nat) (lexer : Lexer) (mark : Mark) (rest : List Char) (blocks : Blocks) : Prop where
  toNext : lexer.toNext? = some (atLine mark rest blocks)
  index_le : lexer.cursor.mark.index ≤ mark.index
  size_eq : mark.index + rest.length = size

theorem run?_step {size : Nat} {lexer arrived next : Lexer} (harrived : lexer.toNext? = some arrived)
    (hrest : arrived.cursor.rest ≠ []) (hnext : arrived.token? = some next)
    (hlt : lexer.cursor.mark.index < next.cursor.mark.index) (hle : next.cursor.mark.index ≤ size) :
    run? size lexer = run? size next := by
  rw [run?, harrived]
  simp only
  rw [if_neg (by simpa using hrest), hnext]
  simp only
  rw [if_pos ⟨hlt, hle⟩]

/-! ## Keys -/

section

variable {size : Nat} {lexer : Lexer} {mark : Mark} {blocks : Blocks} {word rest : List Char}

theorem token?_atLine (hword : isWord word = true) (hgap : atGap rest = true) :
    (atLine mark (word ++ ':' :: rest) blocks).token? = some (afterWord mark word (':' :: rest) blocks) := by
  rw [token?_word hword rfl rfl]
  simp [plain?, saveKey?, dropKey?, atLine, inFlow, plainFrom?_key hword _ _ _ hgap, push, afterWord, afterColon,
    Blocks.add]

theorem toNext?_afterWord (hlength : word.length ≤ 1024) (hindent : blocks.indent ≤ mark.column) :
    (afterWord mark word (':' :: rest) blocks).toNext? = some (afterWord mark word (':' :: rest) blocks) := by
  have hover : PossibleKey.isOver ⟨blocks.tokens.length, mark, blocks.indent == mark.column⟩
      (mark.across word.length) = false := by
    simp [PossibleKey.isOver, Mark.across, hlength]
  have hspace : skipSpace false false false (mark.across word.length) (':' :: rest) =
      (false, ⟨mark.across word.length, ':' :: rest⟩) := by
    rw [skipSpace, if_neg (by decide), if_neg (by decide), if_neg (by decide)]
  have hkept : (afterWord mark word (':' :: rest) blocks).dropOldKeys? =
      some (afterWord mark word (':' :: rest) blocks) := by
    simp [dropOldKeys?, afterWord, afterColon, atLine, hover]
  rw [toNext?]
  simp only [afterWord, afterColon, atLine] at hkept hspace ⊢
  simp only [inFlow, isEmpty_nil, Bool.not_true, hspace, hkept]
  exact congrArg some (closeTo_of_le (by simp [Mark.across]; omega))

theorem token?_afterWord (hgap : atGap rest = true) :
    (afterWord mark word (':' :: rest) blocks).token? = some (afterColon (mark.across (word.length + 1)) rest
      ((blocks.enter mark.column).add [.key, .scalar true (String.ofList word), .value])) := by
  have hvalue : (afterWord mark word (':' :: rest) blocks).token? =
      (afterWord mark word (':' :: rest) blocks).value? := by
    simp [token?, afterWord, afterColon, atLine, isDocumentMark, hgap]
  rw [hvalue, Blocks.enter]
  by_cases h : blocks.indent < mark.column
  · simp [value?, afterWord, afterColon, atLine, insertAt, deepen, inFlow, h, push, skip, Blocks.add, Cursor.skip,
      Mark.across, Nat.add_assoc]
  · simp [value?, afterWord, afterColon, atLine, insertAt, deepen, inFlow, h, push, skip, Blocks.add, Cursor.skip,
      Mark.across, Nat.add_assoc]

theorem Arrives.key (arrives : Arrives size lexer mark (word ++ ':' :: rest) blocks) (hword : isWord word = true)
    (hlength : word.length ≤ 1024) (hgap : atGap rest = true) (hindent : blocks.indent ≤ mark.column) :
    run? size lexer = run? size (afterColon (mark.across (word.length + 1)) rest
      ((blocks.enter mark.column).add [.key, .scalar true (String.ofList word), .value])) := by
  have hsize := arrives.size_eq
  have hindex := arrives.index_le
  have hpos : 0 < word.length := by
    obtain ⟨-, c, cs, rfl, -⟩ := isWord_cases hword
    exact Nat.succ_pos _
  simp only [length_append, length_cons] at hsize
  rw [run?_step arrives.toNext (by simp [atLine]) (token?_atLine hword hgap)
    (by simp [afterWord, afterColon, atLine, Mark.across]; omega)
    (by simp [afterWord, afterColon, atLine, Mark.across]; omega)]
  exact run?_step (toNext?_afterWord hlength hindent) (by simp [afterWord, afterColon, atLine]) (token?_afterWord hgap)
    (by simp [afterWord, afterColon, atLine, Mark.across]) (by simp [afterColon, atLine, Mark.across]; omega)

end

/-! ## Lines -/

theorem skipSpace_blanks (keyAllowed : Bool) (mark : Mark) (count : Nat) (rest : List Char) :
    skipSpace false keyAllowed false mark (List.replicate count ' ' ++ rest) =
      skipSpace false keyAllowed false (mark.across count) rest := by
  induction count generalizing mark with
  | zero => rfl
  | succ count ih =>
    rw [replicate_succ, cons_append, skipSpace, if_neg (by decide), if_neg (by decide), if_pos (by simp), ih]
    simp [Mark.across, Nat.add_assoc, Nat.add_comm 1]

theorem skipSpace_of_continues {rest : List Char} (hrest : Continues rest) (keyAllowed : Bool) (mark : Mark) :
    skipSpace false keyAllowed false mark rest = (keyAllowed, ⟨mark, rest⟩) := by
  obtain rfl | ⟨c, cs, rfl, hc⟩ := hrest
  · rfl
  · rw [skipSpace, isBreak_of_isNameChar hc, beq_of_isNameChar hc '#' (by decide), beq_of_isNameChar hc ' ' (by decide),
      beq_of_isNameChar hc '\t' (by decide)]
    rfl

section

variable {size : Nat} {mark : Mark} {blocks : Blocks} {rest : List Char}

theorem arrives_atLine (hrest : Continues rest) (hsize : mark.index + rest.length = size)
    (hindent : blocks.indent ≤ mark.column) : Arrives size (atLine mark rest blocks) mark rest blocks where
  toNext := by
    rw [toNext?]
    simp only [atLine, inFlow, isEmpty_nil, Bool.not_true, skipSpace_of_continues hrest]
    exact congrArg some (closeTo_of_le hindent)
  index_le := Nat.le_refl _
  size_eq := hsize

theorem arrives_atLine_leave (hrest : Continues rest) (hsize : mark.index + rest.length = size)
    (hindent : mark.column < blocks.indent) (hleave : blocks.leave.indent ≤ mark.column) :
    Arrives size (atLine mark rest blocks) mark rest blocks.leave where
  toNext := by
    obtain ⟨tokens, indent, outer⟩ := blocks
    rw [toNext?]
    simp only [atLine, inFlow, isEmpty_nil, Bool.not_true, skipSpace_of_continues hrest]
    refine congrArg some ?_
    show closeTo.go (atLine mark rest ⟨tokens, indent, outer⟩) mark.column tokens indent outer = _
    cases outer with
    | nil => exact absurd hleave (Int.not_le.mpr hindent)
    | cons closed outer =>
      have hclosed : closed ≤ mark.column := hleave
      rw [closeTo.go, if_pos hindent]
      cases outer with
      | nil => rfl
      | cons next outer =>
        rw [closeTo.go, if_neg (by omega)]
        rfl
  index_le := Nat.le_refl _
  size_eq := hsize

theorem arrives_afterColon {count : Nat} (hrest : Continues rest) (hsize : mark.index + 1 + count + rest.length = size)
    (hindent : blocks.indent ≤ count) :
    Arrives size (afterColon mark ('\n' :: (List.replicate count ' ' ++ rest)) blocks)
      ⟨mark.index + 1 + count, mark.line + 1, count⟩ rest blocks where
  toNext := by
    rw [toNext?]
    simp only [afterColon, atLine, inFlow, isEmpty_nil, Bool.not_true]
    rw [skipSpace, if_pos (by decide), skipSpace_blanks, skipSpace_of_continues hrest]
    refine (congrArg some (closeTo_of_le ?_)).trans ?_
    · simpa [Mark.across, Mark.down] using hindent
    · simp [Mark.across, Mark.down]
  index_le := by simp [afterColon, atLine]; omega
  size_eq := hsize

theorem run?_afterColon {word : List Char} {count : Nat} (hword : isWord word = true) (hrest : Continues rest)
    (hsize : mark.index + 1 + word.length + 1 + count + rest.length = size) (hindent : blocks.indent ≤ mark.column)
    (hcount : count ≤ blocks.indent) :
    run? size (afterColon mark (' ' :: (word ++ '\n' :: (List.replicate count ' ' ++ rest))) blocks) =
      run? size (atLine ⟨mark.index + 1 + word.length + 1 + count, mark.line + 1, count⟩ rest
        (blocks.add [.scalar true (String.ofList word)])) := by
  have harrived : (afterColon mark (' ' :: (word ++ '\n' :: (List.replicate count ' ' ++ rest))) blocks).toNext? =
      some (afterColon (mark.across 1) (word ++ '\n' :: (List.replicate count ' ' ++ rest)) blocks) := by
    rw [toNext?]
    simp only [afterColon, atLine, inFlow, isEmpty_nil, Bool.not_true]
    rw [skipSpace, if_neg (by decide), if_neg (by decide), if_pos (by simp),
      skipSpace_of_continues (continues_word hword _)]
    exact congrArg some (closeTo_of_le (by simp [Mark.across]; omega))
  refine run?_step harrived ?_ ((token?_word hword rfl rfl).trans ?_) ?_ ?_
  · obtain ⟨-, c, cs, rfl, -⟩ := isWord_cases hword
    simp [afterColon, atLine]
  · have hscanned := plainFrom?_word hword (blocks.indent + 1) (mark.across 1) count (by omega) rest hrest
    simp only [Mark.across] at hscanned
    simp [plain?, saveKey?, afterColon, atLine, inFlow, hscanned, push, Blocks.add, Mark.across]
  · simp [afterColon, atLine]
    omega
  · simp [atLine]
    omega

end

end Lexer

/-! ## Fields -/

/-- A key and a value that are words. A key has to end within 1024 characters, or its colon does not count. -/
structure IsField (field : String × String) : Prop where
  key : isWord field.1.toList = true
  short : field.1.toList.length ≤ 1024
  value : isWord field.2.toList = true

/-- The characters of a field, followed by the rest. -/
def fieldText (field : String × String) (rest : List Char) : List Char :=
  field.1.toList ++ ':' :: ' ' :: (field.2.toList ++ '\n' :: rest)

def fieldsText (column : Nat) (fields : List (String × String)) (rest : List Char) : List Char :=
  fields.foldr (fun field rest => List.replicate column ' ' ++ fieldText field rest) rest

def fieldTokens (field : String × String) : List Token := [.key, .scalar true field.1, .value, .scalar true field.2]

theorem continues_fieldText {field : String × String} (h : IsField field) (rest : List Char) :
    Continues (fieldText field rest) :=
  continues_word h.key _

variable {more : List (String × String)}

namespace Lexer

section

variable {size : Nat} {lexer : Lexer} {mark : Mark} {blocks : Blocks} {rest : List Char}

theorem Arrives.field {field : String × String} {count : Nat} (hrest : Continues rest)
    (arrives : Arrives size lexer mark (fieldText field (List.replicate count ' ' ++ rest)) blocks)
    (hfield : IsField field) (hindent : blocks.indent ≤ mark.column) (hcount : count ≤ mark.column) :
    ∃ after : Mark, after.column = count ∧ after.index + rest.length = size ∧
      run? size lexer = run? size (atLine after rest ((blocks.enter mark.column).add (fieldTokens field))) := by
  have hsize := arrives.size_eq
  simp only [fieldText, length_append, length_cons, length_replicate] at hsize
  have henter := Blocks.indent_enter hindent
  rw [arrives.key hfield.key hfield.short (by rfl) hindent,
    run?_afterColon hfield.value hrest (by simp [Mark.across]; omega) (by simp [Mark.across, henter]; omega)
    (by simp [henter]; omega), String.ofList_toList, String.ofList_toList, Blocks.add_add]
  exact ⟨_, rfl, by simp [Mark.across]; omega, rfl⟩

theorem Arrives.fields {first : String × String} (hrest : Continues rest)
    (arrives : Arrives size lexer mark (fieldText first (fieldsText mark.column more rest)) blocks)
    (hfields : ∀ field ∈ first :: more, IsField field) (hindent : blocks.indent ≤ mark.column) :
    ∃ after : Mark, after.column = 0 ∧ after.index + rest.length = size ∧
      run? size lexer =
      run? size (atLine after rest ((blocks.enter mark.column).add ((first :: more).flatMap fieldTokens))) := by
  induction more generalizing first lexer mark blocks with
  | nil =>
    have hfirst := arrives.field hrest (hfields first mem_cons_self) hindent (Nat.zero_le _)
    rwa [flatMap_singleton]
  | cons second more ih =>
    have hsecond : Continues (fieldText second (fieldsText mark.column more rest)) :=
      continues_fieldText (hfields second (by simp)) _
    obtain ⟨middle, hcolumn, hindex, hrun⟩ :=
      arrives.field hsecond (hfields first mem_cons_self) hindent (Nat.le_refl _)
    -- The next line is in the same block, so nothing is entered or left before it.
    have hblock : ((blocks.enter mark.column).add (fieldTokens first)).indent = middle.column := by
      rw [Blocks.indent_add, Blocks.indent_enter hindent, hcolumn]
    have harrives := arrives_atLine hsecond hindex (Int.le_of_eq hblock)
    rw [← hcolumn] at harrives hblock
    obtain ⟨after, hafter, hsize, hmore⟩ :=
      ih harrives (fun field hfield => hfields field (mem_cons_of_mem _ hfield)) (Int.le_of_eq hblock)
    refine ⟨after, hafter, hsize, hrun.trans ?_⟩
    rw [← hcolumn, hmore, Blocks.enter_of_indent hblock, Blocks.add_add]
    rfl

theorem Arrives.block {first : String × String} (hrest : Continues rest)
    (arrives : Arrives size lexer mark (fieldText first (fieldsText mark.column more rest)) blocks)
    (hfields : ∀ field ∈ first :: more, IsField field) (hindent : blocks.indent = 0) (hmark : 0 < mark.column) :
    ∃ (next : Lexer) (after : Mark), after.column = 0 ∧ run? size lexer = run? size next ∧
      Arrives size next after rest
      (blocks.add (.blockMappingStart :: ((first :: more).flatMap fieldTokens ++ [.blockEnd]))) := by
  obtain ⟨after, hcolumn, hsize, hrun⟩ := arrives.fields hrest hfields (by omega)
  have hleave := Blocks.leave_enter (by omega : blocks.indent < mark.column) ((first :: more).flatMap fieldTokens)
  refine ⟨_, after, hcolumn, hrun, ?_⟩
  rw [← hleave]
  refine arrives_atLine_leave hrest hsize ?_ ?_
  · rw [hcolumn, Blocks.indent_add, Blocks.indent_enter (by omega)]
    exact Int.ofNat_lt.mpr hmark
  · rw [hleave, hcolumn, Blocks.indent_add, hindent]
    exact Int.le_refl 0

theorem Arrives.ended (arrives : Arrives size lexer mark [] blocks)
    (hblocks : blocks.indent = 0 ∧ blocks.outer = [-1]) : run? size lexer =
    some (blocks.tokens.reverse ++ [.blockEnd]) := by
  rw [run?, arrives.toNext]
  simp [atLine, hblocks, closeTo, closeTo.go, inFlow, dropKey?]

end

end Lexer

/-! ## Entries -/

/-- A field, or a block of fields below a key. -/
inductive Entry where
  | field (pair : String × String)
  | block (key : String) (first : String × String) (more : List (String × String))

namespace Entry

/-- An entry on lines of its own; a block is indented by two blanks. -/
def text (entry : Entry) (rest : List Char) : List Char :=
  match entry with
  | .field pair => fieldText pair rest
  | .block key first more => key.toList ++ ':' :: '\n' :: fieldsText 2 (first :: more) rest

/-- The tokens of an entry. -/
def tokens : Entry → List Token
  | .field pair => fieldTokens pair
  | .block key first more =>
    [.key, .scalar true key, .value] ++ .blockMappingStart :: ((first :: more).flatMap fieldTokens ++ [.blockEnd])

/-- An entry whose keys and values are words. -/
inductive Proper : Entry → Prop where
  | field {pair : String × String} (isField : IsField pair) : Proper (.field pair)
  | block {key : String} {first : String × String} {more : List (String × String)} (isWord : isWord key.toList = true)
    (short : key.toList.length ≤ 1024) (isField : ∀ field ∈ first :: more, IsField field) :
    Proper (.block key first more)

theorem Proper.continues {entry : Entry} (proper : entry.Proper) (rest : List Char) : Continues (entry.text rest) := by
  cases proper with
  | field isField => exact continues_fieldText isField rest
  | block isWord => exact continues_word isWord (_ :: _)

end Entry

def entriesText (entries : List Entry) : List Char := entries.foldr Entry.text []

theorem continues_entriesText {entries : List Entry} (h : ∀ entry ∈ entries, entry.Proper) :
    Continues (entriesText entries) := by
  cases entries with
  | nil => exact .inl rfl
  | cons entry entries => exact (h entry mem_cons_self).continues (entriesText entries)

namespace Lexer

variable {size : Nat} {lexer : Lexer} {mark : Mark} {blocks : Blocks} {rest : List Char}

/-- An entry is read, and the lexer arrives behind it. -/
theorem Arrives.entry {entry : Entry} (hrest : Continues rest)
    (arrives : Arrives size lexer mark (entry.text rest) blocks) (proper : entry.Proper) (hmark : mark.column = 0)
    (hindent : blocks.indent ≤ 0) :
    ∃ (next : Lexer) (after : Mark), after.column = 0 ∧ run? size lexer = run? size next ∧
      Arrives size next after rest ((blocks.enter 0).add entry.tokens) := by
  have henter : (blocks.enter 0).indent = 0 := Blocks.indent_enter hindent
  cases proper with
  | field isField =>
    have harrives : Arrives size lexer mark (fieldText _ (List.replicate 0 ' ' ++ rest)) blocks := arrives
    obtain ⟨after, hcolumn, hsize, hrun⟩ := harrives.field hrest isField (by omega) (Nat.zero_le _)
    rw [hmark] at hrun
    exact ⟨_, after, hcolumn, hrun, arrives_atLine hrest hsize (by simp [henter])⟩
  | @block key first more isWord short isField =>
    have hfirst : Continues (fieldText first (fieldsText 2 more rest)) :=
      continues_fieldText (isField first mem_cons_self) _
    have hkey := arrives.key isWord short (by rfl) (by omega)
    rw [hmark, String.ofList_toList] at hkey
    have hsize := arrives.size_eq
    simp only [Entry.text, fieldsText, foldr_cons, length_append, length_cons, length_replicate] at hsize
    have hbreak : (mark.across (key.toList.length + 1)).index + 1 + 2 +
        (fieldText first (fieldsText 2 more rest)).length = size := by
      simp only [Mark.across, fieldsText]
      omega
    have hopened : ((blocks.enter 0).add [.key, .scalar true key, .value]).indent ≤ ((2 : Nat) : Int) := by
      simp [henter]
    have hopen := arrives_afterColon hfirst hbreak hopened
    obtain ⟨next, after, hcolumn, hrun, hnext⟩ := hopen.block hrest isField henter Nat.two_pos
    rw [Blocks.add_add] at hnext
    exact ⟨next, after, hcolumn, hkey.trans hrun, hnext⟩

theorem Arrives.entries {entries : List Entry} (arrives : Arrives size lexer mark (entriesText entries) blocks)
    (hentries : ∀ entry ∈ entries, entry.Proper) (hmark : mark.column = 0) (hblocks : blocks.indent = 0 ∧
    blocks.outer = [-1]) :
    run? size lexer = some (blocks.tokens.reverse ++ entries.flatMap Entry.tokens ++ [.blockEnd]) := by
  induction entries generalizing lexer mark blocks with
  | nil => simpa using arrives.ended hblocks
  | cons entry entries ih =>
    have hmore : ∀ other ∈ entries, other.Proper := fun other hother => hentries other (mem_cons_of_mem entry hother)
    obtain ⟨next, after, hcolumn, hrun, hnext⟩ :=
      arrives.entry (continues_entriesText hmore) (hentries entry mem_cons_self) hmark (Int.le_of_eq hblocks.1)
    rw [Blocks.enter_of_indent hblocks.1] at hnext
    rw [hrun, ih hnext hmore hcolumn hblocks]
    simp [Blocks.add]

end Lexer

/-! ## The whole text -/

def isLineChar (c : Char) : Bool := isNameChar c || [' ', ':', '\n'].contains c

theorem isAllowed_of_isLineChar (h : isLineChar c = true) : isAllowed c = true ∧ c ≠ '\r' ∧ c.toNat ≠ 0x85 := by
  have hrange : c = '\n' ∨ (0x20 ≤ c.toNat ∧ c.toNat ≤ 0x7E) := by
    simp [isLineChar, isNameChar, Char.isAlphanum, Char.isAlpha, Char.isUpper, Char.isLower, Char.isDigit,
      UInt32.le_iff_toNat_le] at h
    obtain ⟨((hletter | hdigit) | rfl) | rfl⟩ | rfl | rfl | rfl := h
    · omega
    · omega
    all_goals decide
  obtain rfl | ⟨hleast, hmost⟩ := hrange
  · decide
  · refine ⟨by simp [isAllowed, hleast, hmost], ?_, by omega⟩
    rintro rfl
    revert hleast
    decide

theorem unifyBreaks?_eq {cs : List Char} (h : ∀ c ∈ cs, isLineChar c = true) : unifyBreaks? cs = some cs := by
  induction cs with
  | nil => rfl
  | cons c cs ih =>
    obtain ⟨hallowed, hreturn, hnext⟩ := isAllowed_of_isLineChar (h c mem_cons_self)
    rw [unifyBreaks?.eq_def]
    have := ih fun d hd => h d (mem_cons_of_mem c hd)
    split <;> simp_all

theorem isLineChar_word {word : List Char} (hword : isWord word = true) : ∀ c ∈ word, isLineChar c = true := by
  intro c hc
  rw [isLineChar, (isWord_cases hword).1 c hc, Bool.true_or]

theorem isLineChar_fieldText {field : String × String} (hfield : IsField field) {rest : List Char}
    (hrest : ∀ c ∈ rest, isLineChar c = true) : ∀ c ∈ fieldText field rest, isLineChar c = true := by
  have hkey := isLineChar_word hfield.key
  have hvalue := isLineChar_word hfield.value
  have hmarks : isLineChar ':' = true ∧ isLineChar ' ' = true ∧ isLineChar '\n' = true := by decide
  intro c hc
  simp only [fieldText, mem_append, mem_cons] at hc
  obtain h | rfl | rfl | h | rfl | h := hc
  · exact hkey c h
  · exact hmarks.1
  · exact hmarks.2.1
  · exact hvalue c h
  · exact hmarks.2.2
  · exact hrest c h

theorem isLineChar_fieldsText (column : Nat) {fields : List (String × String)}
    (hfields : ∀ field ∈ fields, IsField field) {rest : List Char} (hrest : ∀ c ∈ rest, isLineChar c = true) :
    ∀ c ∈ fieldsText column fields rest, isLineChar c = true := by
  induction fields with
  | nil => exact hrest
  | cons field fields ih =>
    have hmore := ih fun other hother => hfields other (mem_cons_of_mem field hother)
    intro c hc
    obtain hblank | htext := mem_append.mp hc
    · rw [eq_of_mem_replicate hblank]
      decide
    · exact isLineChar_fieldText (hfields field mem_cons_self) hmore c htext

theorem isLineChar_entriesText {entries : List Entry} (hentries : ∀ entry ∈ entries, entry.Proper) :
    ∀ c ∈ entriesText entries, isLineChar c = true := by
  induction entries with
  | nil => simp [entriesText]
  | cons entry entries ih =>
    have hmore := ih fun other hother => hentries other (mem_cons_of_mem entry hother)
    cases hentries entry mem_cons_self with
    | field isField => exact isLineChar_fieldText isField hmore
    | @block key first more isWord short isField =>
      have hfields := isLineChar_fieldsText 2 isField hmore
      intro c hc
      obtain hkey | hrest := mem_append.mp hc
      · exact isLineChar_word isWord c hkey
      · simp only [mem_cons] at hrest
        obtain rfl | rfl | h := hrest
        · decide
        · decide
        · exact hfields c h

/-- A text of entries has the tokens of its entries. -/
theorem tokens?_entries {text : String} {entry : Entry} {entries : List Entry}
    (htext : text.toList = entriesText (entry :: entries)) (hentries : ∀ other ∈ entry :: entries, other.Proper) :
    tokens? text = some (.blockMappingStart :: ((entry :: entries).flatMap Entry.tokens ++ [.blockEnd])) := by
  rw [tokens?, htext, unifyBreaks?_eq (isLineChar_entriesText hentries)]
  have hmore : ∀ other ∈ entries, other.Proper := fun other hother => hentries other (mem_cons_of_mem entry hother)
  have hstart := continues_entriesText hentries
  have hcursor : Cursor.ofText (entriesText (entry :: entries)) = ⟨{}, entriesText (entry :: entries)⟩ := by
    obtain h | ⟨c, cs, h, hc⟩ := hstart
    · rw [h]
      rfl
    · rw [h, Cursor.ofText, toNat_beq_of_isNameChar hc 0xFEFF (by decide)]
      rfl
  have hindent : ({} : Lexer.Blocks).indent ≤ ({} : Mark).column := by decide
  have harrives := Lexer.arrives_atLine hstart (Nat.zero_add _) hindent
  obtain ⟨next, after, hcolumn, hrun, hnext⟩ :=
    harrives.entry (continues_entriesText hmore) (hentries entry mem_cons_self) rfl (by decide)
  show Lexer.run? _ { cursor := Cursor.ofText (entriesText (entry :: entries)) } = _
  rw [hcursor]
  refine hrun.trans ((hnext.entries hmore hcolumn ⟨rfl, rfl⟩).trans ?_)
  simp [Lexer.Blocks.enter, Lexer.Blocks.add]

end ApexPaths.Yaml
