import ApexPaths.Proofs.Source.Printing
import Mathlib.Data.Nat.Init

/-!
Written expressions are read as they were meant. Each strength of binding has a reader, and what may stand behind an
operand tells where its reader stops: no operator of its own strength or of a tighter one does. Operators of one level
are grouped to the left while the left operand is read before it is known to be one, so their reading is told for every
continuation. What stands in parentheses has an operator where no type name goes on, so it is never taken for a cast.
-/

namespace ApexPaths.Source
set_option autoImplicit false

open List

namespace Tree

mutual

/-- A tree without the places of its nodes. -/
def bare : Tree → Tree
  | ⟨kind, _, props, children⟩ => ⟨kind, .zero, props, bares children⟩

def bares : List Tree → List Tree
  | [] => []
  | tree :: rest => tree.bare :: bares rest

end

end Tree

variable {start : Token} {n : Nat} {kind : TokenKind}

namespace Reader

/-! ## Runs -/

/-- On tokens of these kinds the reader gives a value and leaves others; it fails only if it may. -/
def Runs {α : Type} (fails : Prop) (read : Reader α) (ks : List TokenKind) (P : α → List TokenKind → Prop) : Prop :=
  ∀ cursor : Cursor, cursor.rest.map Token.kind = ks → cursor.stop.kind = .eof →
    match read cursor with
    | .ok (a, left) => left.stop = cursor.stop ∧ P a (left.rest.map Token.kind)
    | .error _ => fails

section
variable {α β : Type} {fails : Prop} {ks rest : List TokenKind} {mark : String} {P : α → List TokenKind → Prop}
variable {Q : β → List TokenKind → Prop}

theorem Runs.bind {read : Reader α} {next : α → Reader β} (h : Runs fails read ks P)
    (hnext : ∀ a left, P a left → Runs fails (next a) left Q) : Runs fails (read >>= next) ks Q := by
  intro cursor hks hstop
  have hread := h cursor hks hstop
  show match read cursor >>= fun found => next found.1 found.2 with
    | .ok (a, left) => left.stop = cursor.stop ∧ Q a (left.rest.map Token.kind)
    | .error _ => fails
  cases hrun : read cursor with
  | error fault =>
    rw [hrun] at hread
    exact hread
  | ok found =>
    obtain ⟨a, middle⟩ := found
    rw [hrun] at hread
    obtain ⟨hsame, ha⟩ := hread
    have hafter := hnext a _ ha middle rfl (hsame ▸ hstop)
    rw [hsame] at hafter
    exact hafter

theorem Runs.imp {read : Reader α} {P' : α → List TokenKind → Prop} (h : Runs fails read ks P)
    (himp : ∀ a left, P a left → P' a left) : Runs fails read ks P' := by
  intro cursor hks hstop
  have hread := h cursor hks hstop
  cases hrun : read cursor with
  | error fault =>
    rw [hrun] at hread
    exact hread
  | ok found =>
    rw [hrun] at hread
    exact hread.imp_right (himp _ _)

theorem Runs.pure {a : α} (h : P a ks) : Runs fails (Pure.pure a) ks P := by
  rintro cursor rfl _
  exact ⟨rfl, h⟩

theorem Runs.given {a : α} {next : α → Reader β} (h : Runs fails (next a) ks Q) :
    Runs fails (Pure.pure a >>= next) ks Q := h

theorem Runs.fail {cause : Cause} (h : fails) : Runs fails (fail cause : Reader α) ks P := fun _ _ _ => h

theorem Runs.unexpected {wanted : Expectation} (h : fails) : Runs fails (unexpected wanted : Reader α) ks P :=
  fun _ _ _ => h

theorem Runs.whenTrue {first second : Reader α} (h : Runs fails first ks P) :
    Runs fails (if true = true then first else second) ks P := h

theorem Runs.whenFalse {first second : Reader α} (h : Runs fails second ks P) :
    Runs fails (if false = true then first else second) ks P := h

theorem Runs.bounded {read : Nat → Reader α} (h : Runs fails (read (ks.length + 1)) ks P) :
    Runs fails (bounded read) ks P := by
  rintro cursor rfl hstop
  rw [length_map] at h
  exact h cursor rfl hstop

theorem Runs.spanFrom {next : Span → Reader β} (h : ∀ span, Runs fails (next span) ks Q) :
    Runs fails (spanFrom start >>= next) ks Q := fun cursor => h (cursor.spanFrom start) cursor

/-! ### Tokens -/

theorem kind_ahead {cursor : Cursor} (hks : cursor.rest.map Token.kind = ks) (hstop : cursor.stop.kind = .eof)
    (n : Nat) : (cursor.ahead n).kind = ks.getD n .eof := by
  rw [Cursor.ahead, ← hks, ← hstop, getD_eq_getElem?_getD, getD_eq_getElem?_getD, List.getElem?_map]
  cases cursor.rest[n]? <;> rfl

theorem Runs.ahead {next : Token → Reader β}
    (h : ∀ token : Token, token.kind = ks.getD n .eof → Runs fails (next token) ks Q) :
    Runs fails (ahead n >>= next) ks Q :=
    fun cursor hks hstop => h (cursor.ahead n) (kind_ahead hks hstop n) cursor hks hstop

theorem Runs.peek {next : Token → Reader β}
    (h : ∀ token : Token, token.kind = ks.headD .eof → Runs fails (next token) ks Q) :
    Runs fails (peek >>= next) ks Q := fun cursor hks hstop => by
  refine h cursor.peek ?_ cursor hks hstop
  rw [Cursor.peek, kind_ahead hks hstop]
  cases ks <;> rfl

theorem isPunct_of_kind {token : Token} (h : token.kind = ks.headD .eof) :
    token.isPunct mark = (ks.head? == some (.punct mark)) := by
  rw [Token.isPunct, h]
  cases ks <;> rfl

theorem Runs.check {next : Bool → Reader β} (h : Runs fails (next (ks.head? == some (.punct mark))) ks Q) :
    Runs fails (check mark >>= next) ks Q := by
  rw [Reader.check, bind_assoc]
  refine .peek fun token htoken => ?_
  rw [pure_bind, isPunct_of_kind htoken]
  exact h

theorem Runs.unmarked (hno : ks.head? ≠ some (.punct mark)) {next : Bool → Reader β}
    (h : Runs fails (next false) ks Q) : Runs fails (Reader.check mark >>= next) ks Q :=
    .check (by rwa [beq_false_of_ne hno])

theorem Runs.unworded {word : String} (hno : ∀ name, ks.head? ≠ some (.identifier name)) {next : Bool → Reader β}
    (h : Runs fails (next false) ks Q) : Runs fails (Reader.checkWord word >>= next) ks Q := by
  rw [Reader.checkWord, bind_assoc]
  refine .peek fun token htoken => ?_
  have hword : token.isWord word = false := by
    rw [Token.isWord]
    split
    · rename_i hname
      cases ks with
      | nil => cases hname.symm.trans htoken
      | cons kind rest => exact absurd (congrArg some (htoken.symm.trans hname)) (hno _)
    · rfl
  rw [pure_bind, hword]
  exact h

theorem Runs.noneOf {marks : List String} (hno : ∀ mark ∈ marks, ks.head? ≠ some (.punct mark))
    {next : Option String → Reader β} (h : Runs fails (next none) ks Q) :
    Runs fails (checkAny marks >>= next) ks Q := by
  rw [Reader.checkAny, bind_assoc]
  refine .peek fun token htoken => ?_
  have hnone : marks.find? token.isPunct = none := by
    refine List.find?_eq_none.mpr fun mark hmark => ?_
    rw [isPunct_of_kind htoken, beq_false_of_ne (hno mark hmark)]
    exact Bool.false_ne_true
  rw [pure_bind, hnone]
  exact h

theorem Runs.oneOf {marks : List String} (hmark : mark ∈ marks) {next : Option String → Reader β}
    (h : Runs fails (next (some mark)) (.punct mark :: rest) Q) :
    Runs fails (checkAny marks >>= next) (.punct mark :: rest) Q := by
  rw [Reader.checkAny, bind_assoc]
  refine .peek fun token htoken => ?_
  have hsome : marks.find? token.isPunct = some mark := by
    cases hfind : marks.find? token.isPunct with
    | none => exact absurd (by simp [isPunct_of_kind htoken]) (List.find?_eq_none.mp hfind mark hmark)
    | some other =>
      have hother := List.find?_some hfind
      simp only [isPunct_of_kind htoken, List.head?_cons, beq_iff_eq, Option.some.injEq,
        TokenKind.punct.injEq] at hother
      rw [hother]
  rw [pure_bind, hsome]
  exact h

theorem Runs.advance (hkind : kind ≠ .eof) {next : Token → Reader β} (h : ∀ token, Runs fails (next token) rest Q) :
    Runs fails (advance >>= next) (kind :: rest) Q := by
  intro cursor hks hstop
  cases htokens : cursor.rest with
  | nil => simp [htokens] at hks
  | cons token tokens =>
    rw [htokens, map_cons, List.cons.injEq] at hks
    have hpeek : cursor.peek = token := by simp [Cursor.peek, Cursor.ahead, htokens]
    have hmove : cursor.advance = (token, { cursor with rest := tokens, last := some token }) := by
      rw [Cursor.advance, Cursor.atEnd, hpeek, hks.1, htokens, beq_false_of_ne hkind]
      rfl
    have hafter := h token { cursor with rest := tokens, last := some token } hks.2 hstop
    show match next cursor.advance.1 cursor.advance.2 with
      | .ok (a, left) => left.stop = cursor.stop ∧ Q a (left.rest.map Token.kind)
      | .error _ => fails
    rw [hmove]
    exact hafter

theorem Runs.eat {next : Bool → Reader β} (htaken : ∀ rest, ks = .punct mark :: rest → Runs fails (next true) rest Q)
    (hleft : ks.head? ≠ some (.punct mark) → Runs fails (next false) ks Q) : Runs fails (eat mark >>= next) ks Q := by
  rw [Reader.eat, bind_assoc]
  refine .check ?_
  by_cases hhead : ks.head? = some (.punct mark)
  · obtain ⟨rest, rfl⟩ := List.head?_eq_some_iff.mp hhead
    rw [beq_iff_eq.mpr hhead, if_pos rfl, bind_assoc]
    exact .advance (by simp) fun token => htaken rest rfl
  · rw [beq_false_of_ne hhead]
    exact hleft hhead

theorem Runs.taking {next : Bool → Reader β} (h : Runs fails (next true) rest Q) :
    Runs fails (Reader.eat mark >>= next) (.punct mark :: rest) Q :=
  .eat (fun _ heq => by rwa [← (List.cons.inj heq).2]) fun hhead => absurd rfl hhead

theorem Runs.leaving (hno : ks.head? ≠ some (.punct mark)) {next : Bool → Reader β} (h : Runs fails (next false) ks Q) :
    Runs fails (Reader.eat mark >>= next) ks Q :=
  .eat (fun _ heq => absurd (by rw [heq]; rfl) hno) fun _ => h

theorem Runs.expect {next : Token → Reader β} (hno : ks.head? ≠ some (.punct mark) → fails)
    (h : ∀ token rest, ks = .punct mark :: rest → Runs fails (next token) rest Q) :
    Runs fails (expect mark >>= next) ks Q := by
  rw [Reader.expect, bind_assoc]
  refine .check ?_
  by_cases hhead : ks.head? = some (.punct mark)
  · obtain ⟨rest, rfl⟩ := List.head?_eq_some_iff.mp hhead
    rw [beq_iff_eq.mpr hhead, if_pos rfl]
    exact .advance (by simp) fun token => h token rest rfl
  · rw [beq_false_of_ne hhead]
    exact .bind (P := fun _ _ => False) (.unexpected (hno hhead)) fun _ _ hfalse => hfalse.elim

theorem Runs.identifier {next : String → Reader β} (hno : (∀ name, ks.head? ≠ some (.identifier name)) → fails)
    (h : ∀ name rest, ks = .identifier name :: rest → Runs fails (next name) rest Q) :
    Runs fails (identifier >>= next) ks Q := by
  rw [Reader.identifier, bind_assoc]
  refine .peek fun token htoken => ?_
  rw [Token.identifier?, htoken]
  cases ks with
  | nil => exact .bind (P := fun _ _ => False) (.unexpected (hno (by simp))) fun _ _ hfalse => hfalse.elim
  | cons kind rest =>
    cases kind with
    | identifier name =>
      show Runs fails ((Reader.advance >>= fun _ => Pure.pure name) >>= next) (.identifier name :: rest) Q
      rw [bind_assoc]
      exact .advance (by simp) fun _ => h name rest rfl
    | _ => exact .bind (P := fun _ _ => False) (.unexpected (hno (by simp))) fun _ _ hfalse => hfalse.elim

theorem Runs.attempt {read : Reader α} [hends : Takes read] (hnone : Runs True read ks fun _ _ => False)
    {next : Option α → Reader β} (h : Runs fails (next none) ks Q) : Runs fails (attempt read >>= next) ks Q := by
  intro cursor hks hstop
  have hread := hnone cursor hks hstop
  have hin : cursor.Within (cursor.rest ++ [cursor.stop]) :=
    ⟨fun _ htoken => mem_append_left _ htoken, mem_append_right _ (mem_singleton_self _), hstop⟩
  have hended := hends.ends _ _ cursor hin (Nat.lt_succ_self _)
  show match Reader.attempt read cursor >>= fun found => next found.1 found.2 with
    | .ok (a, left) => left.stop = cursor.stop ∧ Q a (left.rest.map Token.kind)
    | .error _ => fails
  rw [Reader.attempt]
  cases hrun : read cursor with
  | error fault =>
    rw [hrun] at hended
    dsimp only
    rw [if_neg hended.ne_exhausted]
    exact h cursor hks hstop
  | ok found =>
    rw [hrun] at hread
    exact hread.2.elim

end

/-! ## No casts -/

/-- What stands up to a closing parenthesis is no type with several words: it has no dots, brackets or commas, and no
parenthesis is closed behind an angle bracket. -/
inductive Loose : List TokenKind → Prop where
  | closed (rest : List TokenKind) : Loose (.punct ")" :: rest)
  | cons {kind : TokenKind} {rest : List TokenKind} (hplain : ∀ mark ∈ [".", "[", ","], kind ≠ .punct mark)
      (hangle : kind = .punct ">" → rest.head? ≠ some (.punct ")")) (h : Loose rest) : Loose (kind :: rest)

theorem Loose.plain {ks : List TokenKind} (h : Loose ks) {mark : String} (hmark : mark ∈ [".", "[", ","]) :
    ks.head? ≠ some (.punct mark) := by
  cases h with
  | closed =>
    rintro hhead
    cases hhead
    exact absurd hmark (by decide)
  | cons hplain => simpa using hplain mark hmark

theorem Loose.rest {rest : List TokenKind} (h : Loose (kind :: rest)) (hne : kind ≠ .punct ")") : Loose rest := by
  cases h with
  | closed => exact absurd rfl hne
  | cons _ _ h => exact h

theorem Loose.angle {rest : List TokenKind} (h : Loose (.punct ">" :: rest)) : rest.head? ≠ some (.punct ")") := by
  generalize hks : TokenKind.punct ">" :: rest = ks at h
  cases h with
  | closed => simp at hks
  | cons _ hangle _ =>
    cases hks
    exact hangle rfl

theorem Loose.mark {mark : String} {rest : List TokenKind} (hplain : mark ∉ [".", "[", ","])
    (hhead : rest.head? ≠ some (.punct ")")) (h : Loose rest) : Loose (.punct mark :: rest) :=
  .cons (fun _ hother heq => hplain (TokenKind.punct.inj heq ▸ hother)) (fun _ => hhead) h

/-- A type that is read there is one name, or no parenthesis is closed behind it. -/
def NoCast (ks left : List TokenKind) : Prop :=
  Loose left ∧ ((∃ name, ks = .identifier name :: left) ∨ left.head? ≠ some (.punct ")"))

theorem runs_commaSeparated_loose {item : Reader String} {ks : List TokenKind}
    (h : Runs True item ks fun _ left => Loose left) (n : Nat) : Runs True (commaSeparated item n) ks fun _ left =>
    Loose left := by
  cases n with
  | zero => exact .fail trivial
  | succ n => exact .bind h fun first left hleft => .leaving (hleft.plain (by decide)) (.whenFalse (.pure hleft))

theorem runs_typeNameWithin_loose (n : Nat) {ks : List TokenKind} (h : Loose ks) :
    Runs True (typeNameWithin n) ks fun _ left => NoCast ks left := by
  induction n generalizing ks with
  | zero => exact .fail trivial
  | succ n ih =>
    refine .identifier (fun _ => trivial) fun name rest hks => ?_
    subst hks
    have hrest := h.rest (by simp)
    have hdots : Runs True (bounded dottedWords) rest fun _ left => left = rest :=
      .bounded (.unmarked (hrest.plain (by decide)) (.ahead fun _ _ => .whenFalse (.pure rfl)))
    have harray : ∀ {left}, Loose left → Runs True (bounded arrayMarks) left fun _ after => after = left := fun hleft =>
      .bounded (.unmarked (hleft.plain (by decide)) (.ahead fun _ _ => .whenFalse (.pure rfl)))
    refine .bind hdots fun _ left hleft => ?_
    subst hleft
    refine .eat (fun behind hbehind => .whenTrue ?_) fun _ =>
      .whenFalse (.given (.bind (harray hrest) fun _ after hafter => .pure ?_))
    -- No comma follows the first argument, so the angle bracket must, and nothing is closed behind it.
    · subst hbehind
      have hargument := ih (hrest.rest (by simp))
      refine .bind (.bounded (runs_commaSeparated_loose (hargument.imp fun _ _ h => h.1) _)) fun _ left hleft => ?_
      refine .expect (fun _ => trivial) fun _ after hafter => .given ?_
      subst hafter
      refine .bind (harray (hleft.rest (by simp))) fun _ left' hleft' => .pure ?_
      rw [hleft']
      exact ⟨hleft.rest (by simp), .inr hleft.angle⟩
    · rw [hafter]
      exact ⟨hrest, .inl ⟨name, rfl⟩⟩

end Reader

namespace Formula

open Reader

theorem head_operand_of {e : Formula} {rest : List TokenKind} (h : (e.kinds ++ rest).head? ≠ some (.punct ")"))
    (m : Nat) : (e.operand m ++ rest).head? ≠ some (.punct ")") :=
  operand_cases (motive := fun ks => (ks ++ rest).head? ≠ some (.punct ")")) e m h (by simp)

theorem head_kinds (e : Formula) (rest : List TokenKind) : (e.kinds ++ rest).head? ≠ some (.punct ")") := by
  induction e generalizing rest with
  | unary op e => cases op <;> simp [UnaryOp.mark]
  | binary op l r ihl =>
    rw [kinds_binary, List.append_assoc]
    exact head_operand_of (ihl _) _
  | choice c t f ihc =>
    rw [kinds_choice, List.append_assoc]
    exact head_operand_of (ihc _) _
  | assign op t v iht =>
    rw [kinds_assign, List.append_assoc]
    exact head_operand_of (iht _) _
  | _ => simp [kinds]

theorem head_operand (e : Formula) (m : Nat) (rest : List TokenKind) :
    (e.operand m ++ rest).head? ≠ some (.punct ")") :=
  head_operand_of (e.head_kinds rest) m

theorem loose_operand_of {e : Formula} (h : ∀ rest, Loose rest → Loose (e.kinds ++ rest)) (m : Nat)
    {rest : List TokenKind} (hrest : Loose rest) : Loose (e.operand m ++ rest) := by
  refine operand_cases (motive := fun ks => Loose (ks ++ rest)) e m (h rest hrest) ?_
  rw [cons_append, List.append_assoc]
  exact .mark (by decide) (e.head_kinds _) (h _ (.closed rest))

theorem loose_kinds (e : Formula) : ∀ rest, Loose rest → Loose (e.kinds ++ rest) := by
  induction e with
  | unary op e ih =>
    exact fun rest hrest => .mark (by cases op <;> decide) (e.head_operand _ _) (loose_operand_of ih _ hrest)
  | binary op l r ihl ihr =>
    intro rest hrest
    rw [kinds_binary, List.append_assoc]
    exact loose_operand_of ihl _ (.mark (by cases op <;> decide) (r.head_operand _ _) (loose_operand_of ihr _ hrest))
  | choice c t f ihc iht ihf =>
    intro rest hrest
    rw [kinds_choice, List.append_assoc, cons_append, List.append_assoc]
    have hfalse : Loose (.punct ":" :: (f.operand 1 ++ rest)) :=
      .mark (by decide) (f.head_operand _ _) (loose_operand_of ihf 1 hrest)
    exact loose_operand_of ihc _ (.mark (by decide) (t.head_operand _ _) (loose_operand_of iht 0 hfalse))
  | assign op t v iht ihv =>
    intro rest hrest
    rw [kinds_assign, List.append_assoc]
    exact loose_operand_of iht _ (.mark (by cases op <;> decide) (v.head_operand _ _) (loose_operand_of ihv _ hrest))
  | _ => exact fun rest hrest => .cons (by simp) (by simp) hrest

/-- No parenthesis is closed behind a name that comes first. -/
def NotAlone (ks : List TokenKind) : Prop := ∀ name left, ks = .identifier name :: left → left.head? ≠ some (.punct ")")

theorem notAlone_operand_of {e : Formula} {rest : List TokenKind} (h : NotAlone (e.kinds ++ rest)) (m : Nat) :
    NotAlone (e.operand m ++ rest) :=
  operand_cases (motive := fun ks => NotAlone (ks ++ rest)) e m h fun _ _ heq => by simp at heq

theorem notAlone_kinds (e : Formula) {rest : List TokenKind} (h : e.strength = 9 → rest.head? ≠ some (.punct ")")) :
    NotAlone (e.kinds ++ rest) := by
  induction e generalizing rest with
  | unary op e => exact fun _ _ heq => by simp at heq
  | binary op l r ihl =>
    rw [kinds_binary, List.append_assoc]
    exact notAlone_operand_of (ihl fun _ => by cases op <;> simp [BinaryOp.mark]) _
  | choice c t f ihc =>
    rw [kinds_choice, List.append_assoc]
    exact notAlone_operand_of (ihc fun _ => by simp) _
  | assign op t v iht =>
    rw [kinds_assign, List.append_assoc]
    exact notAlone_operand_of (iht fun _ => by cases op <;> simp [AssignOp.mark]) _
  | _ =>
    rintro name left heq
    obtain ⟨-, rfl⟩ := List.cons.inj heq
    exact h rfl

theorem runs_castHeader {e : Formula} (h : e.strength ≠ 9) (rest : List TokenKind) :
    Runs True castHeader (.punct "(" :: (e.kinds ++ .punct ")" :: rest)) fun _ _ => False := by
  refine .advance (by simp) fun _ => .bind (.bounded (runs_typeNameWithin_loose _ (e.loose_kinds _ (.closed rest))))
    fun ty left hleft => ?_
  refine .expect (fun _ => trivial) fun _ behind hbehind => ?_
  subst hbehind
  rcases hleft.2 with ⟨name, hname⟩ | hopen
  · exact absurd rfl (e.notAlone_kinds (absurd · h) name _ hname)
  · exact absurd rfl hopen

end Formula

/-! ## Behind operands -/

/-- The marks that stand behind an operand of some strength: what closes it, and the operators that bind more
loosely. -/
inductive Behind (strength : Nat) : String → Prop where
  | parenthesis : Behind strength ")"
  | colon : Behind strength ":"
  | assign (op : AssignOp) (h : 0 < strength) : Behind strength op.mark
  | choice (h : 1 < strength) : Behind strength "?"
  | binary (op : BinaryOp) (h : op.level + 2 < strength) : Behind strength op.mark

theorem Behind.mono {m m' : Nat} {mark : String} (h : Behind m mark) (hle : m ≤ m') : Behind m' mark := by
  cases h with
  | parenthesis => exact .parenthesis
  | colon => exact .colon
  | assign op h => exact .assign op (Nat.lt_of_lt_of_le h hle)
  | choice h => exact .choice (Nat.lt_of_lt_of_le h hle)
  | binary op h => exact .binary op (Nat.lt_of_lt_of_le h hle)

theorem not_behind {m : Nat} {mark : String} (hmark : mark ∈ [".", "(", "[", "++", "--"]) : ¬ Behind m mark := by
  intro h
  cases h with
  | assign op => cases op <;> exact absurd hmark (by decide)
  | binary op => cases op <;> exact absurd hmark (by decide)
  | _ => exact absurd hmark (by decide)

theorem mem_operators {op : BinaryOp} : ∀ i, ∀ hi : i < Reader.levels.length, op.mark ∈ Reader.levels[i].operators ↔
    op.level = i := by
  cases op <;> decide

variable {i : Nat}

theorem not_behind_level (hi : i < Reader.levels.length) {mark : String} (hmark : mark ∈ Reader.levels[i].operators) :
    ¬ Behind (i + 2) mark := by
  have hlevels : ∀ i, ∀ hi : i < Reader.levels.length, ∀ mark ∈ Reader.levels[i].operators,
      mark ∉ [")", ":", "?", "=", "+=", "-=", "*=", "/="] := by decide
  have hnot := hlevels i hi mark hmark
  intro h
  cases h with
  | assign op => cases op <;> exact hnot (by decide)
  | binary op h => exact absurd ((mem_operators i hi).mp hmark) (by omega)
  | _ => exact hnot (by decide)

theorem not_behind_choice : ¬ Behind 1 "?" := by
  intro h
  generalize hmark : "?" = mark at h
  cases h with
  | assign op => cases op <;> exact absurd hmark (by decide)
  | choice h => exact absurd h (by decide)
  | binary op => cases op <;> exact absurd hmark (by decide)
  | _ => exact absurd hmark (by decide)

theorem not_behind_assign {mark : String} (hmark : mark ∈ Reader.assignmentMarks) : ¬ Behind 0 mark := by
  intro h
  cases h with
  | parenthesis => exact absurd hmark (by decide)
  | colon => exact absurd hmark (by decide)
  | _ => omega

/-- The tokens are at their end or go on with such a mark. -/
def Follows (strength : Nat) (ks : List TokenKind) : Prop :=
  ∀ kind ∈ ks.head?, ∃ mark, Behind strength mark ∧ kind = .punct mark

namespace Follows

variable {m m' : Nat} {ks : List TokenKind} (h : Follows m ks)
include h

theorem mono (hle : m ≤ m') : Follows m' ks := fun kind hkind =>
  (h kind hkind).imp fun _ hmark => hmark.imp_left (·.mono hle)

theorem unmarked {mark : String} (hmark : ¬ Behind m mark) : ks.head? ≠ some (.punct mark) := by
  intro hhead
  obtain ⟨other, hother, heq⟩ := h _ hhead
  cases heq
  exact hmark hother

theorem apart : ∀ mark ∈ [".", "(", "[", "++", "--"], ks.head? ≠ some (.punct mark) :=
  fun _ hmark => h.unmarked (not_behind hmark)

theorem unnamed (name : String) : ks.head? ≠ some (.identifier name) := by
  intro hhead
  obtain ⟨_, -, heq⟩ := h _ hhead
  cases heq

theorem second (kind : TokenKind) : ((kind :: ks).getD 1 .eof).identifier? = none := by
  cases ks with
  | nil => rfl
  | cons next rest =>
    obtain ⟨_, -, rfl⟩ := h next rfl
    rfl

end Follows

theorem Behind.follows {m : Nat} {mark : String} (h : Behind m mark) (rest : List TokenKind) :
    Follows m (.punct mark :: rest) := by
  rintro _ ⟨⟩
  exact ⟨mark, h, rfl⟩

/-! ## Readers by strength -/

namespace Reader

/-- The reader of operands of some strength. Nested expressions have one bound, signs and choices of an outcome
another. -/
def operandReader (n k : Nat) : Nat → Reader Tree
  | 0 => expressionWithin (n + 1)
  | 1 => ternaryOver (expressionWithin n) (binaryOver (unaryWith (expressionWithin n)) levels) k
  | i + 2 =>
    if i < levels.length then binaryOver (unaryWith (expressionWithin n)) (levels.drop i)
    else if i = levels.length then unaryOver (postfixExpression (expressionWithin n)) k
    else postfixExpression (expressionWithin n)

theorem operandReader_level {k : Nat} (hi : i < levels.length) :
    operandReader n k (i + 2) = binaryOver (unaryWith (expressionWithin n)) (levels.drop i) := if_pos hi

/-- What is read is the expression, and these tokens are left. -/
def Gives (e : Formula) (rest : List TokenKind) (tree : Tree) (left : List TokenKind) : Prop :=
  tree.bare = e.tree ∧ left = rest

/-- The expression is read where an operand of some strength stands. -/
def Reads (e : Formula) (m : Nat) : Prop :=
  ∀ n k rest, (e.operand m ++ rest).length ≤ n → (e.operand m ++ rest).length < k → Follows m rest →
    Runs False (operandReader n k m) (e.operand m ++ rest) (Gives e rest)

/-- After the expression the operators of its level are read as they are after its tree. -/
def Chains (e : Formula) (i : Nat) : Prop :=
  ∀ (hi : i < levels.length) n rest P, (e.operand (i + 2) ++ rest).length ≤ n → Follows (i + 3) rest →
    (∀ start left m, left.bare = e.tree → rest.length < m →
      Runs False (binaryTail levels[i] (binaryOver (unaryWith (expressionWithin n)) (levels.drop (i + 1))) start left
      m) rest P) →
    Runs False (binaryOver (unaryWith (expressionWithin n)) (levels.drop i)) (e.operand (i + 2) ++ rest) P

section
variable {e : Formula}

theorem Reads.tighter (h : Reads e (i + 3)) (hi : i < levels.length) {rest : List TokenKind}
    (hn : (e.operand (i + 3) ++ rest).length ≤ n) (hrest : Follows (i + 3) rest) :
    Runs False (binaryOver (unaryWith (expressionWithin n)) (levels.drop (i + 1))) (e.operand (i + 3) ++ rest)
    (Gives e rest) := by
  have hread := h n _ rest hn (Nat.lt_succ_self _) hrest
  rcases Nat.lt_or_eq_of_le (Nat.succ_le_of_lt hi) with hlt | hlast
  · rwa [operandReader_level hlt] at hread
  · cases hlast
    exact .bounded hread

theorem runs_binaryTail_stop (hi : i < levels.length) {operand : Reader Tree} {left : Tree} {m : Nat}
    {rest : List TokenKind} (hrest : Follows (i + 2) rest) (hm : rest.length < m) :
    Runs False (binaryTail levels[i] operand start left m) rest fun tree ks => tree = left ∧ ks = rest := by
  obtain ⟨m, rfl⟩ := Nat.exists_eq_add_one_of_ne_zero (Nat.ne_zero_of_lt hm)
  refine .unworded hrest.unnamed ?_
  rw [Bool.and_false]
  exact .whenFalse (.noneOf (fun mark hmark => hrest.unmarked (not_behind_level hi hmark)) (.pure ⟨rfl, rfl⟩))

theorem Chains.reads (hi : i < levels.length) (h : Chains e i) : Reads e (i + 2) := by
  intro n k rest hn _ hrest
  rw [operandReader_level hi]
  refine h hi n rest _ hn (hrest.mono (Nat.le_succ _)) fun start left m hleft hm => ?_
  exact (runs_binaryTail_stop hi hrest hm).imp fun tree ks hgives => ⟨by rw [hgives.1, hleft], hgives.2⟩

theorem Reads.chains (h : Reads e (i + 3)) (hne : e.strength ≠ i + 2) : Chains e i := by
  intro hi n rest P hn hrest htail
  rw [← Formula.operand_succ hne] at hn ⊢
  rw [drop_eq_getElem_cons hi]
  refine .peek fun start _ => .bind (h.tighter hi hn hrest) fun left ks hleft => ?_
  obtain ⟨hleft, rfl⟩ := hleft
  exact .bounded (htail start left _ hleft (Nat.lt_succ_self _))

/-! ## Operands in parentheses -/

theorem runs_postfixTail_stop {m : Nat} {expr : Reader Tree} {operand : Tree} {rest : List TokenKind}
    (hrest : Follows m rest) : Runs False (bounded (postfixTail expr start operand)) rest fun tree left =>
    tree = operand ∧ left = rest := by
  have hno := hrest.apart
  refine .bounded
    (.unmarked (hno "." (by decide)) (.ahead fun next _ => .whenFalse (.leaving (hno "[" (by decide)) (.whenFalse ?_))))
  exact .noneOf (fun mark hmark => hno mark (by revert hmark; decide +revert)) (.pure ⟨rfl, rfl⟩)

theorem reads_of_primary (h : ∀ n rest, (e.operand 9 ++ rest).length ≤ n → Follows 9 rest →
    Runs False (primary (expressionWithin n)) (e.operand 9 ++ rest) (Gives e rest)) : Reads e 9 := by
  intro n k rest hn _ hrest
  refine .peek fun start _ => .bind (h n rest hn hrest) fun operand left hoperand => ?_
  obtain ⟨hbare, rfl⟩ := hoperand
  exact (runs_postfixTail_stop hrest).imp fun tree ks hgives => ⟨by rw [hgives.1, hbare], hgives.2⟩

theorem Reads.nested (h : Reads e 0) {rest : List TokenKind} (hn : (e.operand 0 ++ rest).length < n)
    (hrest : Follows 0 rest) : Runs False (expressionWithin n) (e.operand 0 ++ rest) (Gives e rest) := by
  obtain ⟨n, rfl⟩ := Nat.exists_eq_add_one_of_ne_zero (Nat.ne_zero_of_lt hn)
  exact h n _ rest (Nat.le_of_lt_succ hn) (Nat.lt_succ_self _) hrest

theorem Reads.enclosed (h : Reads e 0) (hcompound : e.strength < 9) : Reads e 9 := by
  refine reads_of_primary fun n rest hn hrest => ?_
  rw [Formula.operand_of_lt hcompound, ← Formula.operand_zero, cons_append, List.append_assoc, singleton_append] at hn ⊢
  refine .peek fun start hstart => ?_
  have hkind : start.kind = .punct "(" := hstart
  have hliteral : literal? start = none := by simp [literal?, Token.isWord, hkind]
  rw [hliteral, hkind]
  refine .taking (.whenTrue (.bind (h.nested hn (Behind.parenthesis.follows rest)) fun inner left hinner => ?_))
  obtain ⟨hbare, rfl⟩ := hinner
  refine .expect (fun hno => absurd rfl hno) fun _ left hleft => .pure ⟨hbare, ?_⟩
  exact (List.cons.inj hleft).2.symm

/-! ## Names and literals -/

theorem literal?_congr {token other : Token} (h : token.kind = other.kind) : literal? token = literal? other := by
  cases token
  cases other
  cases h
  rfl

theorem reads_literal {tag value : String} (hkinds : e.kinds = [kind]) (hstrong : e.strength = 9)
    (htree : e.tree = Formula.literal tag value) (hliteral : literal? ⟨kind, 0, 0, 0, 0⟩ = some (tag, value)) :
    Reads e 9 := by
  refine reads_of_primary fun n rest _ _ => ?_
  rw [Formula.operand_of_le (Nat.le_of_eq hstrong.symm), hkinds, singleton_append]
  refine .peek fun start hstart => ?_
  rw [(literal?_congr hstart).trans hliteral]
  exact .advance (ne_eof_of_literal? hliteral) fun _ => .spanFrom fun span => .pure ⟨htree.symm, rfl⟩

theorem reads_name (x : VariableName) : Reads (.name x) 9 := by
  refine reads_of_primary fun n rest _ hrest => ?_
  have hno := hrest.apart
  show Runs False (primary (expressionWithin n)) (.identifier x.name :: rest) (Gives (.name x) rest)
  refine .peek fun start hstart => ?_
  have hkind : start.kind = .identifier x.name := hstart
  have hword : ∀ word ∈ ["true", "false", "null", "this", "super"], start.isWord word = false := fun word hword => by
    rw [Token.isWord, hkind]
    exact x.plain word hword
  have hliteral : literal? start = none := by
    simp [literal?, hkind, hword "true" (by decide), hword "false" (by decide), hword "null" (by decide)]
  rw [hliteral, hkind]
  refine .leaving (by simp) (.whenFalse ?_)
  rw [hword "this" (by decide), hword "super" (by decide)]
  refine .whenFalse (.ahead fun next hnext => ?_)
  have hplain : next.identifier? = none := (congrArg TokenKind.identifier? hnext).trans (hrest.second _)
  rw [hplain, Option.isSome_none, Bool.and_false, Token.identifier?, hkind]
  refine .whenFalse
    (.whenTrue (.peek fun start _ => .identifier (fun hnone => absurd rfl (hnone _)) fun name left hleft => ?_))
  obtain ⟨hname, rfl⟩ := List.cons.inj hleft
  cases hname
  have hchain : Runs False (bounded chainedNames) rest fun names left => names = [] ∧ left = rest :=
    .bounded (.ahead fun next _ =>
    .unmarked (hno "." (by decide)) (.ahead fun second _ => .whenFalse (.pure ⟨rfl, rfl⟩)))
  refine .bind hchain fun names left hchained => ?_
  obtain ⟨rfl, rfl⟩ := hchained
  refine .unmarked (hno "(" (by decide))
    (.whenFalse (.unmarked (hno "." (by decide)) (.ahead fun next _ => .whenFalse ?_)))
  refine .unmarked (hno "." (by decide)) (.ahead fun next _ => .ahead fun second _ =>
    .whenFalse (.spanFrom fun span => .pure ⟨rfl, rfl⟩))

/-! ## Operators -/

theorem Reads.signless (h : Reads e 9) (hne : e.strength ≠ 8) : Reads e 8 := by
  intro n k rest hn hk hrest
  obtain ⟨k, rfl⟩ := Nat.exists_eq_add_one_of_ne_zero (Nat.ne_zero_of_lt hk)
  have hwhole := h n (k + 1) rest
  rw [Formula.operand_succ hne] at hwhole
  have hwhole := hwhole hn hk (hrest.mono (Nat.le_succ _))
  refine .peek fun start _ => ?_
  rcases Nat.lt_or_ge e.strength 9 with hlt | hge
  -- What is in parentheses is tried as a cast first.
  · rw [Formula.operand_of_lt (by omega), cons_append, List.append_assoc, singleton_append] at hwhole ⊢
    exact .noneOf (by simp) (.check (.whenTrue (.attempt (Formula.runs_castHeader (Nat.ne_of_lt hlt) rest) hwhole)))
  · obtain ⟨kind, hkinds, hkind⟩ := e.kinds_of_strong hge
    rw [Formula.operand_of_le (by omega), hkinds, singleton_append] at hwhole ⊢
    have hno : ∀ mark, (kind :: rest).head? ≠ some (.punct mark) := fun mark heq => hkind mark (Option.some.inj heq)
    exact .noneOf (fun mark _ => hno mark) (.unmarked (hno "(") (.whenFalse (.given hwhole)))

theorem reads_unary (op : UnaryOp) (h : Reads e 8) : Reads (.unary op e) 8 := by
  intro n k rest hn hk hrest
  obtain ⟨k, rfl⟩ := Nat.exists_eq_add_one_of_ne_zero (Nat.ne_zero_of_lt hk)
  refine .peek fun start _ => .oneOf (by cases op <;> decide) (.advance (by simp) fun _ => ?_)
  refine .bind (h n k rest (Nat.le_of_succ_le hn) (Nat.lt_of_succ_lt_succ hk) hrest) fun inner left hinner =>
    .spanFrom fun span => .pure ?_
  obtain ⟨hbare, rfl⟩ := hinner
  exact ⟨by simp [Tree.bare, Tree.bares, hbare, Formula.tree, Formula.node], rfl⟩

theorem kind_levels (op : BinaryOp) (hi : op.level < levels.length) :
    levels[op.level].kind = if op.level < 4 then .booleanExpression else .binaryExpression := by
  cases op <;> rfl

theorem chains_binary (op : BinaryOp) {l r : Formula} (hl : Chains l op.level) (hr : Reads r (op.level + 3)) :
    Chains (.binary op l r) op.level := by
  intro hi n rest P hn hrest htail
  have hkinds : (Formula.binary op l r).operand (op.level + 2) ++ rest =
      l.operand (op.level + 2) ++ .punct op.mark :: (r.operand (op.level + 3) ++ rest) := by
    rw [Formula.operand_of_le (Nat.le_of_eq rfl : op.level + 2 ≤ (Formula.binary op l r).strength),
      Formula.kinds_binary, List.append_assoc, cons_append]
  rw [hkinds] at hn ⊢
  -- Behind the left operand the continuation takes the operator and the right one, and goes on with both joined.
  refine hl hi n _ P hn ((Behind.binary op (Nat.lt_succ_self _)).follows _) fun start left m hleft hm => ?_
  obtain ⟨m, rfl⟩ := Nat.exists_eq_add_one_of_ne_zero (Nat.ne_zero_of_lt hm)
  refine .unworded (by simp) ?_
  rw [Bool.and_false]
  refine .whenFalse (.oneOf ((mem_operators _ hi).mpr rfl) (.advance (by simp) fun _ => ?_))
  refine .bind (hr.tighter hi ?_ hrest) fun right behind hright => .spanFrom fun span => ?_
  · rw [length_append, length_cons] at hn
    omega
  · obtain ⟨hright, rfl⟩ := hright
    refine htail start _ m ?_ ?_
    · simp [Tree.bare, Tree.bares, hleft, hright, Formula.tree, Formula.node, kind_levels]
    · rw [length_cons, length_append] at hm
      omega

theorem Reads.condition (h : Reads e 2) {rest : List TokenKind} (hn : (e.operand 2 ++ rest).length ≤ n)
    (hrest : Follows 2 rest) : Runs False (binaryOver (unaryWith (expressionWithin n)) levels) (e.operand 2 ++ rest)
    (Gives e rest) :=
  h n _ rest hn (Nat.lt_succ_self _) hrest

theorem reads_choice {c t f : Formula} (hc : Reads c 2) (ht : Reads t 0) (hf : Reads f 1) :
    Reads (.choice c t f) 1 := by
  intro n k rest hn hk hrest
  obtain ⟨k, rfl⟩ := Nat.exists_eq_add_one_of_ne_zero (Nat.ne_zero_of_lt hk)
  have hkinds : (Formula.choice c t f).operand 1 ++ rest =
      c.operand 2 ++ .punct "?" :: (t.operand 0 ++ .punct ":" :: (f.operand 1 ++ rest)) := by
    rw [Formula.operand_of_le (Nat.le_of_eq rfl : 1 ≤ (Formula.choice c t f).strength), Formula.kinds_choice]
    simp only [List.append_assoc, cons_append]
  rw [hkinds] at hn hk ⊢
  refine .peek fun start _ =>
    .bind (hc.condition hn ((Behind.choice (by decide)).follows _)) fun condition left hcondition => ?_
  obtain ⟨hcondition, rfl⟩ := hcondition
  simp only [length_append, length_cons] at hn hk
  refine .taking (.whenTrue (.bind (ht.nested ?_ (Behind.colon.follows _)) fun whenTrue left htrue => ?_))
  · simp only [length_append, length_cons]
    omega
  obtain ⟨htrue, rfl⟩ := htrue
  refine .expect (fun hno => absurd rfl hno) fun _ left hleft => ?_
  obtain ⟨-, rfl⟩ := List.cons.inj hleft
  refine .bind (hf n k rest ?_ ?_ hrest) fun whenFalse left hfalse => ?_
  · rw [length_append]
    omega
  · rw [length_append]
    omega
  obtain ⟨hfalse, rfl⟩ := hfalse
  exact .spanFrom fun span => .pure ⟨by simp [Tree.bare, Tree.bares, hcondition, htrue, hfalse, Formula.tree], rfl⟩

theorem reads_assign (op : AssignOp) {t v : Formula} (ht : Reads t 1) (hv : Reads v 0) : Reads (.assign op t v) 0 := by
  intro n k rest hn _ hrest
  have hkinds : (Formula.assign op t v).operand 0 ++ rest = t.operand 1 ++ .punct op.mark :: (v.operand 0 ++ rest) := by
    rw [Formula.operand_zero, Formula.kinds_assign, List.append_assoc, cons_append]
  rw [hkinds] at hn ⊢
  refine .peek fun start _ => .bind (.bounded (ht n _ _ hn (Nat.lt_succ_self _) ?_)) fun target left htarget => ?_
  · exact (Behind.assign op Nat.one_pos).follows _
  obtain ⟨htarget, rfl⟩ := htarget
  refine .oneOf (by cases op <;> decide) (.advance (by simp) fun _ =>
    .bind (hv.nested ?_ hrest) fun value behind hvalue => ?_)
  · rw [length_append, length_cons] at hn
    omega
  obtain ⟨hvalue, rfl⟩ := hvalue
  exact .spanFrom fun span => .pure ⟨by simp [Tree.bare, Tree.bares, htarget, hvalue, Formula.tree, Formula.node], rfl⟩

theorem Reads.step {m : Nat} (h : Reads e (m + 1)) (hm : m < 9) (hne : e.strength ≠ m) : Reads e m := by
  rcases m with _ | _ | i
  · intro n k rest hn _ hrest
    rw [← Formula.operand_succ hne] at hn ⊢
    refine .peek fun start _ => .bind (.bounded (h n _ rest hn (Nat.lt_succ_self _) (hrest.mono (Nat.zero_le 1))))
      fun target left htarget => ?_
    obtain ⟨htarget, rfl⟩ := htarget
    exact .noneOf (fun mark hmark => hrest.unmarked (not_behind_assign hmark)) (.pure ⟨htarget, rfl⟩)
  · intro n k rest hn hk hrest
    obtain ⟨k, rfl⟩ := Nat.exists_eq_add_one_of_ne_zero (Nat.ne_zero_of_lt hk)
    rw [← Formula.operand_succ hne] at hn ⊢
    refine .peek fun start _ => .bind (h.condition hn (hrest.mono (Nat.le_succ 1))) fun condition left hcondition => ?_
    obtain ⟨hcondition, rfl⟩ := hcondition
    exact .leaving (hrest.unmarked not_behind_choice) (.whenFalse (.pure ⟨hcondition, rfl⟩))
  · rcases Nat.lt_or_ge i levels.length with hi | hi
    · exact (h.chains hne).reads hi
    · obtain rfl : i = 6 := Nat.le_antisymm (by omega) hi
      exact h.signless hne

theorem Reads.all (h : Reads e e.strength) (hs : e.strength ≤ 9) {m : Nat} (hm : m ≤ 9) : Reads e m := by
  -- Down to the loosest place, from there in parentheses to the tightest one, and down again to the expression's own.
  have hlow : ∀ m ≤ e.strength, Reads e m := fun m hle =>
    Nat.decreasingInduction' (P := Reads e)
    (fun k hk _ hread => hread.step (Nat.lt_of_lt_of_le hk hs) (Nat.ne_of_gt hk)) hle h
  rcases Nat.lt_or_ge e.strength m with hlt | hge
  · have htop : Reads e 9 := (hlow 0 (Nat.zero_le _)).enclosed (Nat.lt_of_lt_of_le hlt hm)
    exact Nat.decreasingInduction' (P := Reads e)
      (fun k hk hle hread => hread.step hk (Nat.ne_of_lt (Nat.lt_of_lt_of_le hlt hle))) hm htop
  · exact hlow m hge

/-- The expression is read wherever its tokens stand, and the operators of its level are read on behind it. -/
structure IsRead (e : Formula) : Prop where
  reads {m : Nat} : m ≤ 9 → Reads e m
  chains (i : Nat) : Chains e i

theorem IsRead.of_own (hs : e.strength ≤ 9) (h : Reads e e.strength) (hchain : ∀ i, e.strength = i + 2 → Chains e i) :
    IsRead e := by
  refine ⟨h.all hs, fun i hi => ?_⟩
  have hlevel : i < 6 := hi
  by_cases hown : e.strength = i + 2
  · exact hchain i hown hi
  · exact (h.all hs (show i + 3 ≤ 9 by omega)).chains hown hi

theorem IsRead.of_other (h : Reads e e.strength) (hs : e.strength ∈ [0, 1, 8, 9]) : IsRead e := by
  have hle : ∀ s ∈ [0, 1, 8, 9], s ≤ 9 := by decide
  refine .of_own (hle _ hs) h fun i hown (hi : i < 6) => ?_
  simp only [hown, mem_cons, not_mem_nil, or_false] at hs
  exact absurd hs (by omega)

theorem IsRead.of_whole (hs : e.strength = 9) (h : Reads e 9) : IsRead e := .of_other (hs ▸ h) (by simp [hs])

/-- Every formula is read back; by induction on the formula. -/
theorem isRead (e : Formula) : IsRead e := by
  induction e with
  | unary op e ih => exact .of_other (reads_unary op (ih.reads (by decide))) (by simp [Formula.strength])
  | binary op l r ihl ihr =>
    have hlevel := op.level_lt
    have hchain := chains_binary op (ihl.chains op.level) (ihr.reads (by omega))
    refine .of_own (Nat.le_of_lt (Nat.lt_succ_of_lt (Nat.add_lt_add_right hlevel 2))) (hchain.reads hlevel)
      fun i hown => ?_
    obtain rfl : op.level = i := Nat.add_right_cancel hown
    exact hchain
  | choice c t f ihc iht ihf =>
    exact .of_other (reads_choice (ihc.reads (by decide)) (iht.reads (by decide)) (ihf.reads (by decide)))
      (by simp [Formula.strength])
  | assign op t v iht ihv =>
    exact .of_other (reads_assign op (iht.reads (by decide)) (ihv.reads (by decide))) (by simp [Formula.strength])
  | name x => exact .of_whole rfl (reads_name x)
  | integer n => exact .of_whole rfl (reads_literal rfl rfl rfl rfl)
  | text value => exact .of_whole rfl (reads_literal rfl rfl rfl rfl)
  | truth value =>
    cases value with
    | true => exact .of_whole rfl (reads_literal rfl rfl rfl (by decide))
    | false => exact .of_whole rfl (reads_literal rfl rfl rfl (by decide))
  | null => exact .of_whole rfl (reads_literal rfl rfl rfl (by decide))

end

end Reader

/-! ## Written expressions -/

/-- What an expression is written as, with any blanks between its tokens, is read as the tree of the expression, and
only the end mark is left. -/
theorem expression_write (e : Formula) (gaps : Nat → Blanks) :
    ∃ tokens stop tree cursor, scan (String.ofList (write gaps e.kinds)) = .ok (tokens, stop) ∧ stop.kind = .eof ∧
      Reader.expression { rest := tokens, stop } = .ok (tree, cursor) ∧ tree.bare = e.tree ∧ cursor.rest = [] ∧
      cursor.stop = stop := by
  obtain ⟨tokens, stop, hscan, hkinds, hstop⟩ := scan_write gaps e.writable_kinds
  have hreads : Reader.Runs False Reader.expression e.kinds (Reader.Gives e []) := by
    rw [← append_nil e.kinds, ← e.operand_zero]
    exact .bounded (((Reader.isRead e).reads (Nat.zero_le 9)).nested (Nat.lt_succ_self _) nofun)
  have hrun := hreads { rest := tokens, stop } hkinds hstop
  cases hexpression : Reader.expression { rest := tokens, stop } with
  | error fault =>
    rw [hexpression] at hrun
    exact hrun.elim
  | ok found =>
    obtain ⟨tree, cursor⟩ := found
    rw [hexpression] at hrun
    obtain ⟨hsame, hbare, hleft⟩ := hrun
    exact ⟨tokens, stop, tree, cursor, hscan, hstop, hexpression, hbare, map_eq_nil_iff.mp hleft, hsame⟩

end ApexPaths.Source
