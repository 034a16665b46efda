import ApexPaths.TypeName

/-!
Type names as sources spell them: dotted words with arguments in angle brackets, and empty brackets for arrays.
The canonical spelling of such a name is one of such names again and its own canonical spelling.

Type names as terms. The canonical spelling of a type that is written with any blanks between its parts is the text
of another term: every array is a list there, and every dotted name has its canonical spelling. From that text the
base and the arguments are found again, and what is built around it is taken apart again.
-/

namespace ApexPaths.TypeName
set_option autoImplicit false

open Text List

/-! ## Spellings -/

/-- The characters with a meaning of their own in type names. -/
def marks : List Char := ['<', '>', ',', '[', ']']

/-- A name without arguments. -/
structure IsName (cs : List Char) : Prop where
  ne_nil : cs ≠ []
  plain : ∀ c ∈ cs, isBlank c = false ∧ c ∉ marks

/-- Arguments in angle brackets; nothing if there are none. -/
def brackets (args : List (List Char)) : List Char := if args.isEmpty then [] else '<' :: (joinWith [','] args ++ ['>'])

/-- A type name as it is written, without blanks. -/
inductive IsWritten : List Char → Prop where
  | named {name : List Char} {args : List (List Char)} (hname : IsName name) (hargs : ∀ arg ∈ args, IsWritten arg) :
    IsWritten (name ++ brackets args)
  | array {element : List Char} (h : IsWritten element) : IsWritten (element ++ ['[', ']'])

/-- A type name that is its own canonical spelling. -/
inductive IsCanonical : List Char → Prop where
  | named {name : List Char} {args : List (List Char)} (hname : IsName name)
    (hbase : canonicalBase (String.ofList name) = String.ofList name) (hargs : ∀ arg ∈ args, IsCanonical arg) :
    IsCanonical (name ++ brackets args)

variable {cs : List Char}

theorem IsCanonical.isWritten (h : IsCanonical cs) : IsWritten cs := by
  induction h with
  | named hname _ _ ih => exact .named hname ih

theorem brackets_cons (arg : List Char) (args : List (List Char)) :
    brackets (arg :: args) = '<' :: (joinWith [','] (arg :: args) ++ ['>']) := rfl

theorem joinWith_cons_cons (sep piece next : List Char) (rest : List (List Char)) :
    joinWith sep (piece :: next :: rest) = piece ++ sep ++ joinWith sep (next :: rest) := rfl

theorem mem_joinWith {sep : List Char} {pieces : List (List Char)} {c : Char} (h : c ∈ joinWith sep pieces) :
    c ∈ sep ∨ ∃ piece ∈ pieces, c ∈ piece := by
  induction pieces with
  | nil => cases h
  | cons piece rest ih =>
    cases rest with
    | nil => exact .inr ⟨piece, mem_cons_self, h⟩
    | cons next rest =>
      rw [joinWith_cons_cons, List.append_assoc, mem_append, mem_append] at h
      rcases h with h | h | h
      · exact .inr ⟨piece, mem_cons_self, h⟩
      · exact .inl h
      · rcases ih h with h | ⟨other, hother, h⟩
        · exact .inl h
        · exact .inr ⟨other, mem_cons_of_mem _ hother, h⟩

namespace IsWritten

theorem ne_nil (h : IsWritten cs) : cs ≠ [] := by
  cases h with
  | named hname => exact fun e => hname.ne_nil (append_eq_nil_iff.mp e).1
  | array => simp

theorem not_blank (h : IsWritten cs) : ∀ c ∈ cs, isBlank c = false := by
  induction h with
  | named hname _ ih =>
    rename_i name args
    refine forall_mem_append.mpr ⟨fun c hc => (hname.plain c hc).1, fun c hc => ?_⟩
    rw [brackets] at hc
    split at hc
    · cases hc
    · rw [mem_cons, mem_append, mem_singleton] at hc
      rcases hc with rfl | hc | rfl
      · rfl
      · rcases mem_joinWith hc with hc | ⟨arg, harg, hc⟩
        · rw [mem_singleton.mp hc]
          rfl
        · exact ih arg harg c hc
      · rfl
  | array _ ih => exact forall_mem_append.mpr ⟨ih, forall_mem_cons.mpr ⟨rfl, forall_mem_singleton.mpr rfl⟩⟩

end IsWritten

theorem trim_eq_self (h : ∀ c ∈ cs, isBlank c = false) : trim cs = cs := by
  have hdrop : ∀ {l : List Char}, (∀ c ∈ l, isBlank c = false) → l.dropWhile isBlank = l := by
    intro l hl
    cases l with
    | nil => rfl
    | cons c rest => rw [dropWhile_cons_of_neg (by simp [hl c mem_cons_self])]
  rw [trim, trimStart, trimEnd, hdrop h, hdrop fun c hc => h c (mem_reverse.mp hc), reverse_reverse]

/-! ## Splitting -/

/-- At every depth the text is part of the open argument. -/
def StaysOpen (cs : List Char) : Prop := ∀ depth current rest,
  splitArguments depth current (cs ++ rest) = splitArguments depth (cs.reverse ++ current) rest

theorem staysOpen_of_plain (h : ∀ c ∈ cs, c ≠ '<' ∧ c ≠ '>' ∧ c ≠ ',') : StaysOpen cs := by
  intro depth current rest
  induction cs generalizing current with
  | nil => rfl
  | cons c cs ih =>
    obtain ⟨⟨hopen, hclose, hcomma⟩, hcs⟩ := forall_mem_cons.mp h
    rw [cons_append, splitArguments, ih hcs, reverse_cons, List.append_assoc, singleton_append]
    · exact hopen
    · exact hclose
    · exact hcomma

theorem StaysOpen.append {first second : List Char} (h : StaysOpen first) (h' : StaysOpen second) :
    StaysOpen (first ++ second) := by
  intro depth current rest
  rw [List.append_assoc, h, h']
  simp

variable {args : List (List Char)}

theorem splitArguments_joinWith (h : ∀ arg ∈ args, StaysOpen arg) (depth : Nat) (current rest : List Char) :
    splitArguments (depth + 1) current (joinWith [','] args ++ rest) =
      splitArguments (depth + 1) ((joinWith [','] args).reverse ++ current) rest := by
  induction args generalizing current with
  | nil => rfl
  | cons arg args ih =>
    obtain ⟨harg, hargs⟩ := forall_mem_cons.mp h
    cases args with
    | nil => exact harg ..
    | cons next args =>
      rw [joinWith_cons_cons, List.append_assoc, List.append_assoc, harg, singleton_append, splitArguments,
        if_neg (Nat.succ_ne_zero _), ih hargs]
      simp

theorem StaysOpen.brackets {args : List (List Char)} (h : ∀ arg ∈ args, StaysOpen arg) : StaysOpen (brackets args) := by
  intro depth current rest
  cases args with
  | nil => rfl
  | cons arg args =>
    rw [brackets_cons, cons_append, List.append_assoc, splitArguments, splitArguments_joinWith h, singleton_append,
      splitArguments, Nat.add_sub_cancel]
    simp

theorem IsWritten.staysOpen (h : IsWritten cs) : StaysOpen cs := by
  induction h with
  | named hname _ ih =>
    refine .append (staysOpen_of_plain fun c hc => ?_) (.brackets ih)
    have hplain := (hname.plain c hc).2
    simp only [marks, mem_cons, not_or] at hplain
    exact ⟨hplain.1, hplain.2.1, hplain.2.2.1⟩
  | array _ ih =>
    exact .append ih (staysOpen_of_plain (forall_mem_cons.mpr ⟨by decide, forall_mem_singleton.mpr (by decide)⟩))

theorem splitArguments_eq (h : ∀ arg ∈ args, IsWritten arg) :
    splitArguments 0 [] (joinWith [','] args) = args := by
  have htrim : ∀ {arg : List Char}, IsWritten arg → trim (arg.reverse ++ []).reverse = arg := by
    intro arg harg
    rw [append_nil, reverse_reverse, trim_eq_self harg.not_blank]
  induction args with
  | nil => rfl
  | cons arg args ih =>
    obtain ⟨harg, hargs⟩ := forall_mem_cons.mp h
    cases args with
    | nil =>
      rw [joinWith, ← append_nil arg, harg.staysOpen, splitArguments, htrim harg]
      simp [harg.ne_nil]
    | cons next args =>
      rw [joinWith_cons_cons, List.append_assoc, harg.staysOpen, singleton_append, splitArguments, if_pos rfl,
        htrim harg, ih hargs]

variable {name : List Char}

theorem splitGenericChars_named (hname : IsName name)
    (hargs : ∀ arg ∈ args, IsWritten arg) : splitGenericChars (name ++ brackets args) = (name, args) := by
  have hopen : ∀ c ∈ name, (c != '<') = true := by
    intro c hc
    have hplain := (hname.plain c hc).2
    simp only [marks, mem_cons, not_or] at hplain
    simpa using hplain.1
  rw [splitGenericChars]
  cases args with
  | nil =>
    have hdrop : (name ++ []).dropWhile (· != '<') = [] := dropWhile_append_of_pos hopen
    rw [show brackets [] = [] from rfl, hdrop, append_nil]
  | cons arg args =>
    have hlast : (name ++ '<' :: (joinWith [','] (arg :: args) ++ ['>'])).getLast? = some '>' := by
      rw [← cons_append, ← List.append_assoc, List.getLast?_concat]
    rw [brackets_cons, takeWhile_append_of_pos hopen, dropWhile_append_of_pos hopen, hlast]
    simp [splitArguments_eq hargs]

/-! ## Canonical spellings -/

theorem dropEnd?_array (element : List Char) : dropEnd? ['[', ']'] (element ++ ['[', ']']) = some element := by
  simp [dropEnd?, dropStart?]

theorem dropEnd?_named (hname : IsName name) :
    dropEnd? ['[', ']'] (name ++ brackets args) = none := by
  cases args with
  | nil =>
    obtain ⟨before, last, rfl⟩ := eq_nil_or_concat name |>.resolve_left hname.ne_nil
    have hlast := (hname.plain last (by simp)).2
    simp only [marks, mem_cons, not_or] at hlast
    have hne : ']' ≠ last := fun e => hlast.2.2.2.2.1 e.symm
    simp [brackets, dropEnd?, dropStart?, hne]
  | cons arg args => simp [brackets, dropEnd?, dropStart?]

theorem canonicalCompact_array (element : List Char) :
    canonicalCompact (element ++ ['[', ']']) = "List".toList ++ brackets [canonicalCompact element] := by
  rw [canonicalCompact, if_neg (by simp)]
  split
  · rename_i found hfound
    rw [dropEnd?_array] at hfound
    cases hfound
    rfl
  · rename_i hnone
    rw [dropEnd?_array] at hnone
    cases hnone

theorem canonicalCompact_named (hname : IsName name)
    (hargs : ∀ arg ∈ args, IsWritten arg) :
    canonicalCompact (name ++ brackets args) = (canonicalBase (String.ofList name)).toList ++
    brackets (args.map canonicalCompact) := by
  rw [canonicalCompact, if_neg (by simp [hname.ne_nil])]
  split
  · rename_i found hfound
    rw [dropEnd?_named hname] at hfound
    cases hfound
  · simp only [map_attach_eq_pmap, pmap_eq_map, splitGenericChars_named hname hargs]
    cases args with
    | nil => simp [brackets]
    | cons arg args => simp [brackets]

theorem wellKnown_canonical : ∀ known ∈ wellKnown ++ schemaAliases.map ("Schema." ++ ·),
    canonicalBase known = known ∧ IsName known.toList := by
  have h : ∀ known ∈ wellKnown ++ schemaAliases.map ("Schema." ++ ·), canonicalBase known = known ∧ known.toList ≠ [] ∧
      known.toList.all (fun c => decide (isBlank c = false ∧ c ∉ marks)) = true := by decide +kernel
  refine fun known hknown => ⟨(h known hknown).1, (h known hknown).2.1, fun c hc => ?_⟩
  exact of_decide_eq_true (all_eq_true.mp (h known hknown).2.2 c hc)

theorem canonicalBase_cases (name : String) :
    canonicalBase name ∈ wellKnown ++ schemaAliases.map ("Schema." ++ ·) ∨ canonicalBase name = name := by
  rw [canonicalBase]
  split
  · rename_i known hknown
    exact .inl (mem_append_left _ (mem_of_find?_eq_some hknown))
  · split
    · rename_i known hknown
      exact .inl (mem_append_right _ (mem_map_of_mem (mem_of_find?_eq_some hknown)))
    · exact .inr rfl

theorem isName_canonicalBase (h : IsName name) :
    canonicalBase (canonicalBase (String.ofList name)) = canonicalBase (String.ofList name) ∧
      IsName (canonicalBase (String.ofList name)).toList := by
  rcases canonicalBase_cases (String.ofList name) with hknown | hsame
  · exact wellKnown_canonical _ hknown
  · rw [hsame, hsame, String.toList_ofList]
    exact ⟨rfl, h⟩

theorem IsWritten.isCanonical (h : IsWritten cs) : IsCanonical (canonicalCompact cs) := by
  induction h with
  | named hname hargs ih =>
    obtain ⟨hbase, hbasename⟩ := isName_canonicalBase hname
    rw [canonicalCompact_named hname hargs]
    refine .named hbasename (by rw [String.ofList_toList, hbase]) ?_
    exact forall_mem_map.mpr ih
  | array _ ih =>
    rw [canonicalCompact_array]
    obtain ⟨hbase, hname⟩ := wellKnown_canonical "List" (by decide)
    exact .named hname (by rw [String.ofList_toList, hbase]) (by simpa using ih)

theorem IsCanonical.canonicalCompact_eq (h : IsCanonical cs) : canonicalCompact cs = cs := by
  induction h with
  | named hname hbase hargs ih =>
    rw [canonicalCompact_named hname fun arg harg => (hargs arg harg).isWritten, hbase, String.toList_ofList,
      map_congr_left ih, map_id']

/-- The canonical spelling of a written name is its own canonical spelling. -/
theorem canonical_canonical {type : String} (h : IsWritten type.toList) :
    canonical (canonical type) = canonical type := by
  have hfilter : ∀ {cs : List Char}, IsWritten cs → cs.filter (!isBlank ·) = cs := fun hcs =>
    filter_eq_self.mpr fun c hc => by simp [hcs.not_blank c hc]
  have hcanonical := h.isCanonical
  rw [canonical, canonical, hfilter h, String.toList_ofList, hfilter hcanonical.isWritten,
    hcanonical.canonicalCompact_eq]

theorem isCollection_of_array {type : String} (h : IsWritten type.toList)
    (hlast : (trimEnd type.toList).getLast? = some ']') : isCollection (canonical type) = true := by
  have htrim : trimEnd type.toList = type.toList := by
    rw [trimEnd]
    cases hlast : type.toList.reverse with
    | nil => rw [reverse_eq_nil_iff.mp hlast]; rfl
    | cons c rest =>
      have hc : isBlank c = false := h.not_blank c (mem_reverse.mp (hlast ▸ mem_cons_self))
      rw [dropWhile_cons_of_neg (by simp [hc]), ← hlast, reverse_reverse]
  have hfilter : type.toList.filter (!isBlank ·) = type.toList := filter_eq_self.mpr fun c hc => by
    simp [h.not_blank c hc]
  have hcanonical : (canonical type).toList = canonicalCompact type.toList := by
    rw [canonical, hfilter, String.toList_ofList]
  rw [htrim] at hlast
  rw [isCollection, canonical_canonical h, base, splitGeneric, hcanonical]
  generalize type.toList = cs at h hlast
  cases h with
  | @named name args hname hargs =>
    exfalso
    cases args with
    | nil =>
      rw [show brackets [] = [] from rfl, append_nil] at hlast
      exact (hname.plain ']' (mem_of_getLast? hlast)).2 (by decide)
    | cons arg args =>
      rw [brackets_cons, ← cons_append, ← List.append_assoc, List.getLast?_concat] at hlast
      exact absurd hlast (by decide)
  | @array element helement =>
    rw [canonicalCompact_array, splitGenericChars_named (wellKnown_canonical "List" (by decide)).2
      (forall_mem_singleton.mpr helement.isCanonical.isWritten)]
    rfl

/-! ## Terms -/

/-- A dotted name. -/
structure Name where
  chars : List Char
  isName : IsName chars

/-- A name with arguments, if any, or an array of a type. -/
inductive Term where
  | named (name : Name) (args : List Term)
  | array (element : Term)

namespace Term

@[induction_eliminator]
theorem induct {motive : Term → Prop} (named : ∀ name args, (∀ arg ∈ args, motive arg) → motive (named name args))
    (array : ∀ element, motive element → motive (array element)) (term : Term) : motive term :=
  term.rec (motive_2 := fun args => ∀ arg ∈ args, motive arg) named array nofun
    fun _ _ hfirst hrest => forall_mem_cons.mpr ⟨hfirst, hrest⟩

/-- The characters of a type without blanks. -/
def chars : Term → List Char
  | .named name args => name.chars ++ brackets (args.map chars)
  | .array element => element.chars ++ ['[', ']']

def text (term : Term) : String := String.ofList term.chars

end Term

/-! ## Blanks between parts -/

/-- The words of a dotted name, and the full stops between them. -/
def Name.parts (name : Name) : List (List Char) := (Text.splitOn '.' name.chars).intersperse ['.']

def bracketParts (args : List (List (List Char))) : List (List Char) :=
  if args.isEmpty then [] else ['<'] :: ([[',']].intercalate args ++ [['>']])

/-- The parts of a type, between which blanks may stand. -/
def Term.parts : Term → List (List Char)
  | .named name args => name.parts ++ bracketParts (args.map parts)
  | .array element => element.parts ++ [['['], [']']]

/-- The parts in order, with blanks before, between and after them. -/
inductive Spaced : List (List Char) → List Char → Prop where
  | nil {gap : List Char} (hgap : ∀ c ∈ gap, isBlank c = true) : Spaced [] gap
  | cons {gap part rest : List Char} {parts : List (List Char)} (hgap : ∀ c ∈ gap, isBlank c = true)
      (hrest : Spaced parts rest) : Spaced (part :: parts) (gap ++ part ++ rest)

/-- A text spells a type, with any blanks between its parts. -/
def Term.IsSpelled (term : Term) (text : String) : Prop := Spaced term.parts text.toList

theorem filter_blanks {gap : List Char} (h : ∀ c ∈ gap, isBlank c = true) : gap.filter (!isBlank ·) = [] :=
  filter_eq_nil_iff.mpr fun c hc => by simp [h c hc]

theorem filter_of_spaced {parts : List (List Char)} (h : Spaced parts cs)
    (hparts : ∀ c ∈ parts.flatten, isBlank c = false) : cs.filter (!isBlank ·) = parts.flatten := by
  induction h with
  | nil hgap => rw [filter_blanks hgap, flatten_nil]
  | @cons gap part rest parts hgap _ ih =>
    rw [flatten_cons, forall_mem_append] at hparts
    obtain ⟨hpart, hrest⟩ := hparts
    have hkept : part.filter (!isBlank ·) = part := filter_eq_self.mpr fun c hc => by simp [hpart c hc]
    rw [filter_append, filter_append, filter_blanks hgap, hkept, ih hrest, nil_append, flatten_cons]

theorem joinWith_eq_intercalate (sep : List Char) (pieces : List (List Char)) :
    joinWith sep pieces = sep.intercalate pieces := by
  induction pieces with
  | nil => rfl
  | cons piece rest ih =>
    cases rest with
    | nil => simp [joinWith, List.intercalate]
    | cons next rest => rw [joinWith_cons_cons, ih, intercalate_cons_cons, List.append_assoc]

theorem flatten_intercalate (sep : List Char) (args : List (List (List Char))) :
    ([sep].intercalate args).flatten = joinWith sep (args.map List.flatten) := by
  induction args with
  | nil => rfl
  | cons arg rest ih =>
    cases rest with
    | nil => simp [joinWith, List.intercalate]
    | cons next rest =>
      rw [intercalate_cons_cons, flatten_append, flatten_append, ih, flatten_singleton]
      rfl

theorem Name.flatten_parts (name : Name) : name.parts.flatten = name.chars := by
  have hjoined := joinWith_splitOn '.' name.chars
  rwa [joinWith_eq_intercalate, List.intercalate] at hjoined

theorem flatten_bracketParts (args : List (List (List Char))) :
    (bracketParts args).flatten = brackets (args.map List.flatten) := by
  cases args with
  | nil => rfl
  | cons arg args =>
    show (['<'] :: ([[',']].intercalate (arg :: args) ++ [['>']])).flatten = _
    rw [flatten_cons, flatten_append, flatten_intercalate]
    rfl

namespace Term

theorem flatten_parts (term : Term) : term.parts.flatten = term.chars := by
  induction term with
  | named name args ih =>
    rw [parts, chars, flatten_append, name.flatten_parts, flatten_bracketParts, map_map]
    exact congrArg (name.chars ++ brackets ·) (map_congr_left ih)
  | array element ih =>
    rw [parts, chars, flatten_append, ih]
    rfl

theorem isWritten (term : Term) : IsWritten term.chars := by
  induction term with
  | named name args ih =>
    rw [chars]
    exact .named name.isName (forall_mem_map.mpr ih)
  | array element ih =>
    rw [chars]
    exact .array ih

theorem IsSpelled.filter_eq {term : Term} {text : String} (h : term.IsSpelled text) :
    text.toList.filter (!isBlank ·) = term.chars := by
  rw [← term.flatten_parts]
  refine filter_of_spaced h ?_
  rw [term.flatten_parts]
  exact term.isWritten.not_blank

end Term

/-! ## Canonical terms -/

/-- The canonical spelling of a dotted name: the well-known name that it is up to case; else the schema type that it is
up to case, with the `Schema.` that is left out; else the name. -/
inductive IsSpelling (name : String) : String → Prop where
  | wellKnown {known : String} (hknown : known ∈ wellKnown) (hsame : eqIgnoringCase known name = true) :
      IsSpelling name known
  | schema {known : String} (hnone : ∀ other ∈ wellKnown, eqIgnoringCase other name = false)
      (hknown : known ∈ schemaAliases) (hsame : eqIgnoringCase known name = true) : IsSpelling name ("Schema." ++ known)
  | own (hnone : ∀ other ∈ wellKnown ++ schemaAliases, eqIgnoringCase other name = false) : IsSpelling name name

variable {names : List String}

theorem same_of_find? {name found : String} (h : names.find? (eqIgnoringCase · name) = some found) :
    eqIgnoringCase found name = true := by
  simpa using List.find?_some h

theorem find?_self (hnames : names ∈ [wellKnown, schemaAliases]) {known : String} (hknown : known ∈ names) :
    names.find? (eqIgnoringCase · known) = some known := by
  rcases mem_cons.mp hnames with rfl | hnames
  · have hcanonical := (wellKnown_canonical known (mem_append_left _ hknown)).1
    unfold canonicalBase at hcanonical
    split at hcanonical
    · rename_i found hfound
      exact hcanonical ▸ hfound
    · rename_i hnone
      exact absurd (beq_self_eq_true _) (List.find?_eq_none.mp hnone known hknown)
  · rw [mem_singleton.mp hnames] at hknown ⊢
    have haliases : ∀ known ∈ schemaAliases, schemaAliases.find? (eqIgnoringCase · known) = some known := by
      decide
    exact haliases known hknown

theorem find?_eq_of_known (hnames : names ∈ [wellKnown, schemaAliases]) {known name : String}
    (hknown : known ∈ names) (hsame : eqIgnoringCase known name = true) : names.find? (eqIgnoringCase · name) =
    some known := by
  have hfolded : (eqIgnoringCase · name) = (eqIgnoringCase · known) := by
    unfold eqIgnoringCase at hsame ⊢
    rw [beq_iff_eq.mp hsame]
  rw [hfolded, find?_self hnames hknown]

theorem find?_eq_none_of {name : String} (h : ∀ other ∈ names, eqIgnoringCase other name = false) :
    names.find? (eqIgnoringCase · name) = none :=
  List.find?_eq_none.mpr fun other hother => by simp [h other hother]

theorem isSpelling_iff {name spelling : String} : IsSpelling name spelling ↔ canonicalBase name = spelling := by
  constructor
  · intro h
    unfold canonicalBase
    cases h with
    | wellKnown hknown hsame => rw [find?_eq_of_known (by simp) hknown hsame]
    | schema hnone hknown hsame => rw [find?_eq_none_of hnone, find?_eq_of_known (by simp) hknown hsame]
    | own hnone =>
      obtain ⟨hknown, hschema⟩ := forall_mem_append.mp hnone
      rw [find?_eq_none_of hknown, find?_eq_none_of hschema]
  · rintro rfl
    have hnone : ∀ {names : List String}, names.find? (eqIgnoringCase · name) = none → ∀ other ∈ names,
        eqIgnoringCase other name = false := by
      intro names hnames other hother
      simpa using List.find?_eq_none.mp hnames other hother
    unfold canonicalBase
    split
    · rename_i known hfound
      exact .wellKnown (mem_of_find?_eq_some hfound) (same_of_find? hfound)
    · rename_i hknown
      split
      · rename_i known hfound
        exact .schema (hnone hknown) (mem_of_find?_eq_some hfound) (same_of_find? hfound)
      · rename_i hschema
        exact .own (forall_mem_append.mpr ⟨hnone hknown, hnone hschema⟩)

def Name.text (name : Name) : String := String.ofList name.chars

/-- The name under which a type is known. -/
def Name.canonical (name : Name) : Name where
  chars := (canonicalBase (String.ofList name.chars)).toList
  isName := (isName_canonicalBase name.isName).2

def Name.known (known : String) (h : known ∈ wellKnown) : Name :=
  ⟨known.toList, (wellKnown_canonical known (mem_append_left _ h)).2⟩

/-- Every array as a list, every name in its canonical spelling. -/
def Term.canonical : Term → Term
  | .named name args => .named name.canonical (args.map canonical)
  | .array element => .named (.known "List" (by decide)) [element.canonical]

theorem Name.chars_canonical (name : Name) :
    name.canonical.chars = (canonicalBase (String.ofList name.chars)).toList := by
  rw [Name.canonical]

theorem Name.chars_known {known : String} (h : known ∈ wellKnown) : (Name.known known h).chars = known.toList := by
  rw [Name.known]

theorem Name.isSpelling_canonical (name : Name) : IsSpelling name.text name.canonical.text := by
  rw [isSpelling_iff, Name.text, Name.text, Name.chars_canonical, String.ofList_toList]

theorem Term.canonicalCompact_chars (term : Term) : canonicalCompact term.chars = term.canonical.chars := by
  induction term with
  | named name args ih =>
    have hargs : ∀ arg ∈ args.map chars, IsWritten arg := forall_mem_map.mpr fun arg _ => arg.isWritten
    rw [chars, canonicalCompact_named name.isName hargs, canonical, chars, Name.chars_canonical, map_map, map_map]
    exact congrArg (_ ++ brackets ·) (map_congr_left ih)
  | array element ih =>
    rw [chars, canonicalCompact_array, ih, canonical, chars, Name.chars_known]
    rfl

theorem Term.IsSpelled.canonical_eq {term : Term} {text : String} (h : term.IsSpelled text) :
    TypeName.canonical text = term.canonical.text := by
  rw [TypeName.canonical, h.filter_eq, term.canonicalCompact_chars, Term.text]

theorem Term.canonical_text (term : Term) : TypeName.canonical term.text = term.canonical.text := by
  rw [TypeName.canonical, Term.text, String.toList_ofList,
    filter_eq_self.mpr fun c hc => by simp [term.isWritten.not_blank c hc], term.canonicalCompact_chars, Term.text]

theorem Name.canonical_canonical (name : Name) : name.canonical.canonical = name.canonical := by
  have hbase := (isName_canonicalBase name.isName).1
  simp only [Name.canonical, String.ofList_toList]
  simp only [hbase]

theorem Name.canonical_known {known : String} (h : known ∈ wellKnown) :
    (Name.known known h).canonical = .known known h := by
  have hbase := (wellKnown_canonical known (mem_append_left _ h)).1
  simp only [Name.known, Name.canonical, String.ofList_toList]
  simp only [hbase]

theorem Term.canonical_canonical (term : Term) : term.canonical.canonical = term.canonical := by
  induction term with
  | named name args ih =>
    rw [canonical, canonical, name.canonical_canonical, map_map]
    exact congrArg _ (map_congr_left ih)
  | array element ih => rw [canonical, canonical, Name.canonical_known, map_singleton, ih]

/-! ## Taking apart -/

theorem splitGeneric_named (name : Name) (args : List Term) :
    splitGeneric (Term.named name args).text = (name.text, args.map Term.text) := by
  have hargs : ∀ arg ∈ args.map Term.chars, IsWritten arg := forall_mem_map.mpr fun arg _ => arg.isWritten
  rw [splitGeneric, Term.text, String.toList_ofList, Term.chars, splitGenericChars_named name.isName hargs]
  exact congrArg (Prod.mk _) map_map

theorem splitGeneric_known {known : String} (h : known ∈ wellKnown) (terms : List Term) :
    splitGeneric (canonical (Term.named (.known known h) (terms.map Term.canonical)).text) =
    (known, terms.map (·.canonical.text)) := by
  have hterms : (terms.map Term.canonical).map Term.canonical = terms.map Term.canonical := by
    rw [map_map]
    exact map_congr_left fun term _ => term.canonical_canonical
  rw [Term.canonical_text, Term.canonical, Name.canonical_known, hterms, splitGeneric_named, Name.text,
    Name.chars_known, String.ofList_toList, map_map]
  rfl

theorem equivalence_same : Equivalence fun a b : String => same a b = true := by
  refine ⟨fun a => ?_, fun {a b} h => ?_, fun {a b c} h h' => ?_⟩
  all_goals unfold same eqIgnoringCase at *
  · exact beq_self_eq_true _
  · rw [beq_iff_eq] at *
    exact h.symm
  · rw [beq_iff_eq] at *
    exact h.trans h'

section
variable {term key : Term} {text keyText : String} (h : term.IsSpelled text) (hkey : key.IsSpelled keyText)
include h

theorem element?_listOf : element? (listOf text) = some (canonical text) ∧
    element? (setOf text) = some (canonical text) := by
  have hlist : listOf text = (Term.named (.known "List" (by decide)) ([term].map Term.canonical)).text := by
    rw [listOf, h.canonical_eq]
    refine String.toList_inj.mp ?_
    simp [Term.text, Term.chars, Name.known, brackets, joinWith]
  have hset : setOf text = (Term.named (.known "Set" (by decide)) ([term].map Term.canonical)).text := by
    rw [setOf, h.canonical_eq]
    refine String.toList_inj.mp ?_
    simp [Term.text, Term.chars, Name.known, brackets, joinWith]
  refine ⟨?_, ?_⟩
  · rw [element?, hlist, splitGeneric_known, h.canonical_eq]
    rfl
  · rw [element?, hset, splitGeneric_known, h.canonical_eq]
    rfl

include hkey

theorem element?_mapOf : key? (mapOf keyText text) = some (canonical keyText) ∧
    element? (mapOf keyText text) = some (canonical text) := by
  have hmap : mapOf keyText text = (Term.named (.known "Map" (by decide)) ([key, term].map Term.canonical)).text := by
    rw [mapOf, h.canonical_eq, hkey.canonical_eq]
    refine String.toList_inj.mp ?_
    simp [Term.text, Term.chars, Name.known, brackets, joinWith]
  refine ⟨?_, ?_⟩
  · rw [key?, hmap, splitGeneric_known, hkey.canonical_eq]
    rfl
  · rw [element?, hmap, splitGeneric_known, h.canonical_eq]
    rfl

end

/-- However a type is written, its canonical spelling is the text of its canonical term, which is its own canonical
spelling and is split into its base and its arguments. To be the same type is an equivalence, and the types of
collections give back the types that they are built from. -/
theorem canonical_isSpelled {term key : Term} {text keyText : String} (h : term.IsSpelled text)
    (hkey : key.IsSpelled keyText) : canonical text = term.canonical.text ∧
    (∀ name : Name, IsSpelling name.text name.canonical.text) ∧
    canonical (canonical text) = canonical text ∧
    (∃ base args, term.canonical = .named base args ∧ splitGeneric (canonical text) = (base.text, args.map Term.text)) ∧
    Equivalence (fun a b : String => same a b = true) ∧
    (element? (listOf text) = some (canonical text) ∧ element? (setOf text) = some (canonical text)) ∧
    key? (mapOf keyText text) = some (canonical keyText) ∧ element? (mapOf keyText text) = some (canonical text) := by
  have hcanonical := h.canonical_eq
  have htwice : canonical (canonical text) = canonical text := by
    rw [hcanonical, Term.canonical_text, Term.canonical_canonical]
  have hnamed : ∃ base args, term.canonical = .named base args := by
    cases term with
    | named name args => exact ⟨_, _, Term.canonical.eq_1 name args⟩
    | array element => exact ⟨_, _, Term.canonical.eq_2 element⟩
  obtain ⟨base, args, hnamed⟩ := hnamed
  refine ⟨hcanonical, Name.isSpelling_canonical, htwice, ⟨base, args, hnamed, ?_⟩, equivalence_same,
    element?_listOf h, element?_mapOf h hkey⟩
  rw [hcanonical, hnamed, splitGeneric_named]

theorem isName_of_all (hne : cs ≠ []) (h : (cs.all fun c => !isBlank c && !marks.contains c) = true) : IsName cs := by
  refine ⟨hne, fun c hc => ?_⟩
  simpa using all_eq_true.mp h c hc

def fieldSets : Term :=
  .named ⟨"map".toList, isName_of_all (by decide) (by decide)⟩
  [.named ⟨"ID".toList, isName_of_all (by decide) (by decide)⟩ [],
  .array (.named ⟨"a.fieldset".toList, isName_of_all (by decide) (by decide)⟩ [])]

def spacedFieldSets : String := " map<ID , a .fieldset[ ]>"

theorem fieldSets_isSpelled : fieldSets.IsSpelled spacedFieldSets := by
  have hparts : fieldSets.parts = ["map".toList, ['<'], "ID".toList, [','], ['a'], ['.'], "fieldset".toList, ['['],
      [']'], ['>']] := by
    simp [fieldSets, Term.parts, Name.parts, bracketParts, Text.splitOn, List.intercalate]
  have htext : spacedFieldSets.toList = [' '] ++ "map".toList ++
    ([] ++ ['<'] ++ ([] ++ "ID".toList ++ ([' '] ++ [','] ++ ([' '] ++ ['a'] ++
      ([' '] ++ ['.'] ++
      ([] ++ "fieldset".toList ++ ([] ++ ['['] ++ ([' '] ++ [']'] ++ ([] ++ ['>'] ++ []))))))))) := by
    decide
  have hspace : ∀ c ∈ [' '], isBlank c = true := forall_mem_singleton.mpr (by decide)
  have hnone : ∀ c ∈ ([] : List Char), isBlank c = true := forall_mem_nil _
  rw [Term.IsSpelled, hparts, htext]
  exact .cons hspace <| .cons hnone <| .cons hnone <| .cons hspace <| .cons hspace <| .cons hspace <| .cons hnone <|
    .cons hnone <| .cons hspace <| .cons hnone <| .nil hnone

/-- A map of lists of field sets, with blanks between its parts. -/
theorem fieldSets_canonical : canonical spacedFieldSets = "Map<Id,List<a.fieldset>>" ∧
    fieldSets.IsSpelled spacedFieldSets ∧ canonical spacedFieldSets = fieldSets.canonical.text ∧
    canonical (canonical spacedFieldSets) = canonical spacedFieldSets ∧ key? (mapOf spacedFieldSets spacedFieldSets) =
    some (canonical spacedFieldSets) := by
  have h := canonical_isSpelled fieldSets_isSpelled fieldSets_isSpelled
  obtain ⟨hcanonical, -, htwice, -, -, -, hkey, -⟩ := h
  exact ⟨by decide +kernel, fieldSets_isSpelled, hcanonical, htwice, hkey⟩

end ApexPaths.TypeName
