import ApexPaths.Proofs.Result
import ApexPaths.Proofs.TypeName
import ApexPaths.Source.Cursor

/-!
Scanned tokens, and what readers yield of them. Every identifier is a word, which may stand as a name in a type.
-/

namespace ApexPaths.Source
set_option autoImplicit false

open Text List

/-! ## Words -/

/-- The code points of blanks. -/
def blankCodes : List Nat :=
  ((0x09, 0x0D) :: (0x20, 0x20) :: blankRanges).flatMap fun range => List.range' range.1 (range.2 - range.1 + 1)

theorem mem_blankCodes {c : Char} (h : isBlank c = true) : c.toNat ∈ blankCodes := by
  have hrange : ∃ range ∈ (0x09, 0x0D) :: (0x20, 0x20) :: blankRanges, range.1 ≤ c.toNat ∧ c.toNat ≤ range.2 := by
    rw [isBlank] at h
    split at h
    · simp only [Bool.or_eq_true, beq_iff_eq, Bool.and_eq_true, decide_eq_true_eq] at h
      rcases h with rfl | h
      · exact ⟨(0x20, 0x20), by simp, by decide⟩
      · exact ⟨(0x09, 0x0D), by simp, h⟩
    · obtain ⟨range, hmem, hin⟩ := any_eq_true.mp h
      exact ⟨range, mem_cons_of_mem _ (mem_cons_of_mem _ hmem), by simpa using hin⟩
  obtain ⟨range, hmem, hlow, hhigh⟩ := hrange
  exact mem_flatMap.mpr ⟨range, hmem, mem_range'_1.mpr ⟨hlow, by omega⟩⟩

theorem plain_of_isWordChar {c : Char} (h : isWordChar c = true) : isBlank c = false ∧ c ∉ TypeName.marks := by
  have hblanks : ∀ code ∈ blankCodes, isWordChar (Char.ofNat code) = false := by decide +kernel
  have hmarks : TypeName.marks.all (!isWordChar ·) = true := by decide
  constructor
  · refine Bool.eq_false_iff.mpr fun hblank => ?_
    have hnot := hblanks _ (mem_blankCodes hblank)
    rw [Char.ofNat_toNat, h] at hnot
    cases hnot
  · intro hmark
    have hnot := all_eq_true.mp hmarks c hmark
    rw [h] at hnot
    cases hnot

/-- The identifier of the token, if it is one, is a word. -/
def Token.IsPlain (token : Token) : Prop := ∀ name ∈ token.identifier?, TypeName.IsName name.toList

theorem isName_takeWhile {c : Char} {rest : List Char} (h : isWordStart c = true) :
    TypeName.IsName ((c :: rest).takeWhile isWordChar) := by
  have hfirst : isWordChar c = true := by
    simp only [isWordStart, isWordChar, isLetterOrNumeric, Bool.or_eq_true] at h ⊢
    exact h.imp_left .inl
  refine ⟨by simp [takeWhile_cons_of_pos hfirst], fun d hd => ?_⟩
  exact plain_of_isWordChar (all_eq_true.mp all_takeWhile d hd)

theorem identifier?_of_integral {value : Option Int} {whole : List Char} {isLong : Bool} {kind : TokenKind} {n : Nat}
    (h : (match value with
      | some n => .ok (if isLong then (.long n, whole.length + 1) else (.integer n, whole.length))
      | none => .error (.invalidNumber (String.ofList whole)) : Except Cause (TokenKind × Nat)) = .ok (kind, n)) :
    kind.identifier? = none := by
  cases value with
  | none => cases h
  | some n => cases isLong <;> cases h <;> rfl

variable {cs : List Char}

theorem identifier?_of_number {kind : TokenKind} {n : Nat} (h : number cs = .ok (kind, n)) :
    kind.identifier? = none := by
  rw [number] at h
  split at h
  · dsimp only at h
    split at h
    · cases h
      rfl
    · exact identifier?_of_integral h
  · exact identifier?_of_integral h

theorem isName_of_lexeme {name : String} {n : Nat} (h : lexeme cs = .ok (.identifier name, n)) :
    TypeName.IsName name.toList := by
  cases cs with
  | nil => cases h
  | cons c rest =>
    simp only [lexeme] at h
    split at h
    · split at h <;> cases h
    split at h
    · split at h <;> cases h
    split at h
    · split at h <;> cases h
    split at h
    · exact absurd (identifier?_of_number h) (by simp [TokenKind.identifier?])
    split at h
    · rename_i hstart
      cases h
      rw [String.toList_ofList]
      exact isName_takeWhile hstart
    · split at h <;> cases h

/-! ## Token streams -/

theorem isPlain_scanFrom {fuel : Nat} {place finish : Place} {tokens : List Token}
    (h : scanFrom fuel place cs = .ok (tokens, finish)) : ∀ token ∈ tokens, token.IsPlain := by
  fun_induction scanFrom fuel place cs generalizing tokens finish with
  | case1 =>
    cases h
    simp
  | case4 _ _ _ _ _ _ ih => exact ih h
  | case6 =>
    rename_i kind _ hlexeme _ ih
    obtain ⟨⟨rest, finish'⟩, hrest, h⟩ := bind_eq_ok.mp h
    cases h
    refine forall_mem_cons.mpr ⟨fun name hname => ?_, ih hrest⟩
    cases kind <;> cases hname
    exact isName_of_lexeme hlexeme
  | _ => cases h

theorem isPlain_scan {text : String} {tokens : List Token} {stop : Token} (h : scan text = .ok (tokens, stop)) :
    (∀ token ∈ tokens, token.IsPlain) ∧ stop.IsPlain := by
  obtain ⟨⟨found, finish⟩, hfound, h⟩ := bind_eq_ok.mp h
  cases h
  exact ⟨isPlain_scanFrom hfound, by simp [Token.IsPlain, Token.endAt, Token.identifier?, TokenKind.identifier?]⟩

/-!
## Yields

A reader yields a property when every value that it returns on plain tokens has it, and
the tokens that it leaves are plain; nothing is said about the readers that fail. Steady readers yield nothing
in particular.
-/

/-! ## Plain tokens -/

/-- All tokens that are left are plain. -/
structure Cursor.IsPlain (cursor : Cursor) : Prop where
  rest : ∀ token ∈ cursor.rest, token.IsPlain
  stop : cursor.stop.IsPlain

theorem Cursor.IsPlain.ahead {cursor : Cursor} (h : cursor.IsPlain) (n : Nat) : (cursor.ahead n).IsPlain := by
  rw [Cursor.ahead, getD_eq_getElem?_getD]
  cases htoken : cursor.rest[n]? with
  | none => exact h.stop
  | some token => exact h.rest token (mem_of_getElem? htoken)

theorem Cursor.IsPlain.advance {cursor : Cursor} (h : cursor.IsPlain) : cursor.advance.2.IsPlain := by
  rw [Cursor.advance]
  split
  · exact h
  · exact ⟨fun token htoken => h.rest token (mem_of_mem_tail htoken), h.stop⟩

namespace Reader

open Text

/-! ## Properties of results -/

/-- Every value that the reader returns on plain tokens has the property, and it leaves plain tokens. -/
def Yields {α : Type} (read : Reader α) (P : α → Prop) : Prop :=
  ∀ cursor a cursor', cursor.IsPlain → read cursor = .ok (a, cursor') → P a ∧ cursor'.IsPlain

/-- Whatever the reader returns on plain tokens, it leaves plain tokens. -/
class Steady {α : Type} (read : Reader α) : Prop where
  yields : Yields read fun _ => True

section
variable {α β : Type} {P : α → Prop} {Q : β → Prop}

theorem Yields.bind {read : Reader α} {next : α → Reader β} (h : Yields read P) (hnext : ∀ a, P a → Yields (next a) Q) :
    Yields (read >>= next) Q := by
  intro cursor b cursor' hplain hb
  have hb : (read cursor >>= fun found => next found.1 found.2) = .ok (b, cursor') := hb
  cases hread : read cursor with
  | error fault => simp [hread, Bind.bind, Except.bind] at hb
  | ok found =>
    obtain ⟨a, middle⟩ := found
    rw [hread] at hb
    obtain ⟨ha, hmiddle⟩ := h cursor a middle hplain hread
    exact hnext a ha middle b cursor' hmiddle hb

theorem Yields.after {read : Reader α} [h : Steady read] {next : α → Reader β} (hnext : ∀ a, Yields (next a) Q) :
    Yields (read >>= next) Q := Yields.bind h.yields fun a _ => hnext a

theorem Yields.pure {a : α} (h : P a) : Yields (Pure.pure a) P := by
  intro cursor b cursor' hplain hb
  cases hb
  exact ⟨h, hplain⟩

theorem Yields.given {a : α} {next : α → Reader β} (hnext : Yields (next a) Q) : Yields (Pure.pure a >>= next) Q :=
  .bind (P := (· = a)) (.pure rfl) fun _ h => h ▸ hnext

theorem Yields.fail {cause : Cause} : Yields (fail cause) P := by
  intro cursor a cursor' _ h
  cases h

theorem Yields.unexpected {wanted : Expectation} : Yields (unexpected wanted) P := by
  intro cursor a cursor' _ h
  cases h

theorem Yields.ite {c : Prop} [Decidable c] {first second : Reader α} (h : c → Yields first P)
    (h' : ¬c → Yields second P) : Yields (if c then first else second) P := by
  split
  · exact h ‹c›
  · exact h' ‹¬c›

theorem Yields.either {c : Prop} [Decidable c] {first second : Reader α} {next : α → Reader β} (h : Yields first P)
    (h' : Yields second P) (hnext : ∀ a, P a → Yields (next a) Q) :
    Yields (if c then first >>= next else second >>= next) Q :=
  .ite (fun _ => .bind h hnext) fun _ => .bind h' hnext

theorem Yields.imp {P' : α → Prop} {read : Reader α} (h : Yields read P) (himp : ∀ a, P a → P' a) : Yields read P' :=
  fun cursor a cursor' hplain ha => (h cursor a cursor' hplain ha).imp_left (himp a)

theorem Yields.steady {read : Reader α} (h : Yields read P) : Steady read := ⟨h.imp fun _ _ => trivial⟩

theorem Yields.map {read : Reader α} {f : α → β} (h : Yields read fun a => Q (f a)) : Yields (f <$> read) Q := by
  intro cursor b cursor' hplain hb
  have hb : (read cursor >>= fun found => Except.ok (f found.1, found.2)) = .ok (b, cursor') := hb
  cases hread : read cursor with
  | error fault => simp [hread, Bind.bind, Except.bind] at hb
  | ok found =>
    obtain ⟨a, middle⟩ := found
    rw [hread] at hb
    cases hb
    exact h cursor a _ hplain hread

theorem Yields.bounded {read : Nat → Reader α} (h : ∀ n, Yields (read n) P) : Yields (bounded read) P :=
  fun cursor a cursor' hplain ha => h _ cursor a cursor' hplain ha

theorem Yields.attempt {read : Reader α} (h : Yields read P) : Yields (attempt read) fun found => ∀ a ∈ found, P a := by
  intro cursor found cursor' hplain hfound
  rw [Reader.attempt] at hfound
  cases hread : read cursor with
  | error fault =>
    rw [hread] at hfound
    dsimp only at hfound
    split at hfound
    · cases hfound
    · cases hfound
      exact ⟨by simp, hplain⟩
  | ok result =>
    obtain ⟨a, middle⟩ := result
    rw [hread] at hfound
    cases hfound
    obtain ⟨ha, hleft⟩ := h cursor a _ hplain hread
    exact ⟨fun b hb => Option.some.inj hb ▸ ha, hleft⟩

end

/-! ## Steady readers -/

section
variable {α β : Type}

instance {a : α} : Steady (Pure.pure a : Reader α) := ⟨.pure trivial⟩

instance {read : Reader α} {next : α → Reader β} [h : Steady read] [hnext : ∀ a, Steady (next a)] :
    Steady (read >>= next) :=
  ⟨.bind h.yields fun a _ => (hnext a).yields⟩

instance {c : Prop} [Decidable c] {first second : Reader α} [h : Steady first] [h' : Steady second] :
    Steady (if c then first else second) := ⟨.ite (fun _ => h.yields) fun _ => h'.yields⟩

instance {cause : Cause} : Steady (fail cause : Reader α) := ⟨.fail⟩

instance {wanted : Expectation} : Steady (unexpected wanted : Reader α) := ⟨.unexpected⟩

instance {read : Nat → Reader α} [h : ∀ n, Steady (read n)] : Steady (bounded read) := ⟨.bounded fun n => (h n).yields⟩

instance {read : Reader α} [h : Steady read] : Steady (attempt read) := h.yields.attempt.steady

end

theorem yields_peek : Yields peek Token.IsPlain := by
  intro cursor a cursor' hplain h
  cases h
  exact ⟨hplain.ahead 0, hplain⟩

theorem yields_ahead (n : Nat) : Yields (ahead n) Token.IsPlain := by
  intro cursor a cursor' hplain h
  cases h
  exact ⟨hplain.ahead n, hplain⟩

instance : Steady peek := yields_peek.steady

instance (n : Nat) : Steady (ahead n) := (yields_ahead n).steady

instance : Steady advance where
  yields cursor a cursor' hplain h := by
    have hleft : cursor.advance.2 = cursor' := congrArg Prod.snd (Except.ok.inj h)
    exact ⟨trivial, hleft ▸ hplain.advance⟩

instance : Steady atEnd where
  yields cursor a cursor' hplain h := by
    cases h
    exact ⟨trivial, hplain⟩

instance (start : Token) : Steady (spanFrom start) where
  yields cursor a cursor' hplain h := by
    cases h
    exact ⟨trivial, hplain⟩

instance (mark : String) : Steady (check mark) := by
  unfold check
  infer_instance

instance (word : String) : Steady (checkWord word) := by
  unfold checkWord
  infer_instance

instance (marks : List String) : Steady (checkAny marks) := by
  unfold checkAny
  infer_instance

instance (mark : String) : Steady (eat mark) := by
  unfold eat
  infer_instance

instance (word : String) : Steady (eatWord word) := by
  unfold eatWord
  infer_instance

instance (mark : String) : Steady (expect mark) := by
  unfold expect
  infer_instance

instance (word : String) : Steady (expectWord word) := by
  unfold expectWord
  infer_instance

/-! ## Repetitions -/

section
variable {α : Type} {P : α → Prop} {item : Reader α} (h : Yields item P)
include h

theorem yields_commaSeparated (n : Nat) : Yields (commaSeparated item n) fun items => items ≠ [] ∧
    ∀ a ∈ items, P a := by
  induction n with
  | zero => exact .fail
  | succ n ih =>
    refine .bind h fun first hfirst => .after fun more => .ite (fun _ => ?_) fun _ => .pure (by simpa using hfirst)
    exact .bind ih fun rest hrest => .pure ⟨cons_ne_nil _ _, forall_mem_cons.mpr ⟨hfirst, hrest.2⟩⟩

theorem yields_itemsUntil (close : String) (n : Nat) :
    Yields (itemsUntil close item n) fun items => ∀ a ∈ items, P a := by
  induction n with
  | zero => exact .fail
  | succ n ih =>
    refine .after fun closed => .ite (fun _ => .pure (by simp)) fun _ => .bind h fun first hfirst => ?_
    refine .after fun more => .ite (fun _ => ?_) fun _ => .pure (by simpa using hfirst)
    exact .bind ih fun rest hrest => .pure (forall_mem_cons.mpr ⟨hfirst, hrest⟩)

theorem yields_itemsInBraces (n : Nat) : Yields (itemsInBraces item n) fun items => ∀ a ∈ items, P a := by
  induction n with
  | zero => exact .fail
  | succ n ih =>
    refine .after fun closed => .ite (fun _ => .pure (by simp)) fun _ => .after fun ended =>
      .ite (fun _ => .unexpected) fun _ => ?_
    refine .after fun skipped => .ite (fun _ => ih) fun _ => .bind h fun first hfirst => ?_
    exact .bind ih fun rest hrest => .pure (forall_mem_cons.mpr ⟨hfirst, hrest⟩)

end

section
variable {α : Type} {item : Reader α} [h : Steady item]

instance (n : Nat) : Steady (commaSeparated item n) := (yields_commaSeparated h.yields n).steady

instance (close : String) (n : Nat) : Steady (itemsUntil close item n) := (yields_itemsUntil h.yields close n).steady

end

/-! ## Names and types -/

theorem yields_identifier : Yields identifier fun name => TypeName.IsName name.toList := by
  refine .bind yields_peek fun token htoken => ?_
  split
  · rename_i name hname
    exact .after fun _ => .pure (htoken name hname)
  · exact .unexpected

instance : Steady identifier := yields_identifier.steady

theorem yields_dottedWords (n : Nat) : Yields (dottedWords n) fun text => ∀ c ∈ text.toList, isBlank c = false ∧
    c ∉ TypeName.marks := by
  induction n with
  | zero => exact .fail
  | succ n ih =>
    refine .after fun dotted => .after fun next => .ite (fun _ => .after fun _ => ?_) fun _ => .pure (by simp)
    refine .bind yields_identifier fun name hname => .bind ih fun rest hrest => .pure ?_
    simp only [String.toList_append, forall_mem_append]
    have hdot : ∀ c ∈ ".".toList, isBlank c = false ∧ c ∉ TypeName.marks := by
      rintro c hc
      obtain rfl : c = '.' := mem_singleton.mp hc
      decide
    exact ⟨⟨hdot, hname.plain⟩, hrest⟩

theorem yields_arrayMarks (n : Nat) : Yields (arrayMarks n) fun text => ∀ type : List Char, TypeName.IsWritten type →
    TypeName.IsWritten (type ++ text.toList) := by
  induction n with
  | zero => exact .fail
  | succ n ih =>
    refine .after fun opened => .after fun next => .ite (fun _ => .after fun _ => .after fun _ => ?_) fun _ =>
      .pure (by simp)
    refine .bind ih fun rest hrest => .pure fun type htype => ?_
    rw [String.toList_append, ← List.append_assoc]
    exact hrest _ (.array htype)

/-- What is read as a type is spelled as types are. -/
abbrev IsType (type : String) : Prop := TypeName.IsWritten type.toList

theorem joinWith_eq_intercalate (sep : List Char) (pieces : List (List Char)) :
    joinWith sep pieces = sep.intercalate pieces := by
  induction pieces with
  | nil => rfl
  | cons piece rest ih =>
    cases rest with
    | nil => simp [joinWith]
    | cons next rest => rw [TypeName.joinWith_cons_cons, intercalate_cons_cons, ih]

theorem toList_brackets {args : List String} (h : args ≠ []) :
    ("<" ++ joinStrings "," args ++ ">").toList = TypeName.brackets (args.map String.toList) := by
  obtain ⟨arg, rest, rfl⟩ := exists_cons_of_ne_nil h
  rw [map_cons, TypeName.brackets_cons, ← map_cons, joinWith_eq_intercalate, joinStrings]
  simp [String.toList_intercalate]

theorem yields_typeNameWith {argument : Reader String} (h : Yields argument IsType) :
    Yields (typeNameWith argument) IsType := by
  refine .bind yields_identifier fun first hfirst => .bind (.bounded yields_dottedWords) fun dotted hdotted => ?_
  have hname : TypeName.IsName (first ++ dotted).toList := by
    rw [String.toList_append]
    exact ⟨by simp [hfirst.ne_nil], forall_mem_append.mpr ⟨hfirst.plain, hdotted⟩⟩
  have hargs : Yields (bounded (commaSeparated argument)) fun args => args ≠ [] ∧ ∀ arg ∈ args, IsType arg :=
    .bounded (yields_commaSeparated h)
  refine .after fun generic => .ite (fun _ => .bind hargs fun args hargs => .after fun _ => .given ?_) fun _ =>
    .given ?_
  all_goals refine .bind (.bounded yields_arrayMarks) fun marks hmarks => .pure ?_
  all_goals rw [IsType, String.toList_append, String.toList_append]
  all_goals refine hmarks _ ?_
  · rw [toList_brackets hargs.1]
    exact .named hname (forall_mem_map.mpr hargs.2)
  · have hbare : ∀ arg ∈ ([] : List (List Char)), TypeName.IsWritten arg := by simp
    exact .named hname hbare

theorem yields_typeNameWithin (n : Nat) : Yields (typeNameWithin n) IsType := by
  induction n with
  | zero => exact .fail
  | succ n ih => exact yields_typeNameWith ih

theorem yields_typeName : Yields typeName IsType := .bounded yields_typeNameWithin

instance : Steady typeName := yields_typeName.steady

end Reader

end ApexPaths.Source
