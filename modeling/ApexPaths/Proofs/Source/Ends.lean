import ApexPaths.Source.Unit

/-!
How readings end. A reader ends when on every cursor before fewer tokens than some bound it gives a value, after at
least so many tokens, or a fault at a token; it never runs out of its bound. No single count goes down along a
reading: an end mark is never taken, and an attempt goes back. So each repetition is shown to take a token before it
comes around, and what was seen of the next token is kept until it is taken.
-/

namespace ApexPaths.Source
set_option autoImplicit false

/-! ## Cursors -/

/-- The cursor stands before some of these tokens, and an end mark is behind them. -/
structure Cursor.Within (all : List Token) (cursor : Cursor) : Prop where
  rest : ∀ token ∈ cursor.rest, token ∈ all
  stop : cursor.stop ∈ all
  ends : cursor.stop.kind = .eof

namespace Cursor.Within

variable {all : List Token} {cursor : Cursor} (h : cursor.Within all)
include h

theorem peek : cursor.peek ∈ all := by
  rw [Cursor.peek, Cursor.ahead, List.getD_eq_getElem?_getD]
  cases htoken : cursor.rest[0]? with
  | none => exact h.stop
  | some token => exact h.rest token (List.mem_of_getElem? htoken)

theorem advance : cursor.advance.2.Within all := by
  rw [Cursor.advance]
  split
  · exact h
  · exact ⟨fun token htoken => h.rest token (List.mem_of_mem_tail htoken), h.stop, h.ends⟩

omit h in
theorem length_advance_le (cursor : Cursor) : cursor.advance.2.rest.length ≤ cursor.rest.length := by
  rw [Cursor.advance]
  split
  · exact Nat.le_refl _
  · simp

theorem length_advance (hne : cursor.peek.kind ≠ .eof) : cursor.advance.2.rest.length + 1 = cursor.rest.length := by
  have hend : cursor.atEnd = false := by simpa [Cursor.atEnd] using hne
  rw [Cursor.advance, hend, if_neg Bool.false_ne_true]
  cases hrest : cursor.rest with
  | nil =>
    refine absurd ?_ hne
    rw [Cursor.peek, Cursor.ahead, hrest]
    exact h.ends
  | cons token rest => rfl

end Cursor.Within

variable {mark : String}

theorem Token.ne_eof_of_isPunct {token : Token} (h : token.isPunct mark = true) : token.kind ≠ .eof := by
  rw [Token.isPunct, beq_iff_eq] at h
  rw [h]
  exact TokenKind.noConfusion

variable {word : String}

theorem Token.ne_eof_of_isWord {token : Token} (h : token.isWord word = true) : token.kind ≠ .eof := by
  intro heof
  rw [Token.isWord, heof] at h
  cases h

theorem Token.ne_eof_of_find? {token : Token} {marks : List String} (h : marks.find? token.isPunct = some mark) :
    token.kind ≠ .eof := Token.ne_eof_of_isPunct (List.find?_some h)

theorem Token.ne_eof_of_identifier? {token : Token} {name : String} (h : token.identifier? = some name) :
    token.kind ≠ .eof := by
  intro heof
  rw [Token.identifier?, heof] at h
  cases h

/-! ## Ends -/

/-- A fault that is found at one of these tokens. -/
structure Fault.Among (all : List Token) (fault : Fault) : Prop where
  ne_exhausted : fault.cause ≠ .exhausted
  place : ∃ token ∈ all, fault.line = token.line ∧ fault.column = token.column

namespace Reader

section
variable (all : List Token) {α β : Type}

/-- What is left of so many tokens after at least some were taken, or a fault. -/
def Ended (least length : Nat) (P : α → Prop) : Except Fault (α × Cursor) → Prop
  | .ok (a, cursor) => P a ∧ cursor.Within all ∧ cursor.rest.length + least ≤ length
  | .error fault => fault.Among all

/-- Before fewer tokens than the bound the reader ends; at least some are taken for a value. -/
def Ends (bound least : Nat) (read : Reader α) (P : α → Prop) : Prop :=
  ∀ cursor, cursor.Within all → cursor.rest.length < bound → Ended all least cursor.rest.length P (read cursor)

/-- The reader ends on every cursor at the token within the bound. -/
def EndsAt (token : Token) (bound least : Nat) (read : Reader α) (P : α → Prop) : Prop :=
  ∀ cursor, cursor.Within all → cursor.rest.length < bound → cursor.peek = token →
    Ended all least cursor.rest.length P (read cursor)

end

/-- The reader ends on every cursor. -/
class Halts {α : Type} (read : Reader α) : Prop where
  ends : ∀ all bound, Ends all bound 0 read fun _ => True

/-- And it takes a token for a value. -/
class Takes {α : Type} (read : Reader α) : Prop where
  ends : ∀ all bound, Ends all bound 1 read fun _ => True

section
variable {all : List Token} {token : Token} {α β : Type} {bound least : Nat} {P : α → Prop} {Q : β → Prop}

theorem Ended.weaken {fewer length longer : Nat} {result : Except Fault (α × Cursor)}
    (h : Ended all least length P result) (hless : length + fewer ≤ longer + least) :
    Ended all fewer longer P result := by
  cases result with
  | error fault => exact h
  | ok found =>
    obtain ⟨ha, hin, hle⟩ := h
    exact ⟨ha, hin, by omega⟩

theorem Ended.imp {length : Nat} {P' : α → Prop} {result : Except Fault (α × Cursor)}
    (h : Ended all least length P result) (himp : ∀ a, P a → P' a) : Ended all least length P' result := by
  cases result with
  | error fault => exact h
  | ok found => exact ⟨himp _ h.1, h.2⟩

/-! ### Rules -/

theorem Ends.zero {read : Reader α} : Ends all 0 least read P := fun _ _ hlt => absurd hlt (Nat.not_lt_zero _)

theorem Ends.weaken {read : Reader α} {lower fewer : Nat} (h : Ends all bound least read P) (hbound : lower ≤ bound)
    (hleast : fewer ≤ least) : Ends all lower fewer read P := fun cursor hin hlt =>
  (h cursor hin (Nat.lt_of_lt_of_le hlt hbound)).weaken (Nat.add_le_add_left hleast _)

theorem Ends.imp {read : Reader α} {P' : α → Prop} (h : Ends all bound least read P) (himp : ∀ a, P a → P' a) :
    Ends all bound least read P' := fun cursor hin hlt => (h cursor hin hlt).imp himp

theorem EndsAt.of_ends {read : Reader α} (h : Ends all bound least read P) : EndsAt all token bound least read P :=
  fun cursor hin hlt _ => h cursor hin hlt

theorem Ends.looking {read : Reader α} (h : ∀ token ∈ all, EndsAt all token bound least read P) :
    Ends all bound least read P :=
  fun cursor hin hlt => h cursor.peek hin.peek cursor hin hlt rfl

theorem Ends.bind {taken : Nat} {read : Reader α} {next : α → Reader β} (h : Ends all bound taken read P)
    (hnext : ∀ a, P a → Ends all (bound - taken) (least - taken) (next a) Q) :
    Ends all bound least (read >>= next) Q := by
  intro cursor hin hlt
  have hread := h cursor hin hlt
  show Ended all least cursor.rest.length Q (read cursor >>= fun found => next found.1 found.2)
  cases hrun : read cursor with
  | error fault =>
    rw [hrun] at hread
    exact hread
  | ok found =>
    obtain ⟨a, middle⟩ := found
    rw [hrun] at hread
    obtain ⟨ha, hmiddle, hle⟩ := hread
    exact (hnext a ha middle hmiddle (by omega)).weaken (by omega)

theorem Ends.after {read : Reader α} [h : Halts read] {next : α → Reader β}
    (hnext : ∀ a, Ends all bound least (next a) Q) : Ends all bound least (read >>= next) Q :=
    .bind (h.ends all bound) fun a _ => hnext a

/-- One of two values about which nothing is known, and what follows either. -/
theorem Ends.either {c : Prop} [Decidable c] {first second : Reader α} [h : Halts first] [h' : Halts second]
    {next : α → Reader β} (hnext : ∀ a, Ends all bound least (next a) Q) :
    Ends all bound least (if c then first >>= next else second >>= next) Q := by
  split
  · exact .after hnext
  · exact .after hnext

theorem Ends.take {read : Reader α} [h : Takes read] {next : α → Reader β}
    (hnext : ∀ a, Ends all (bound - 1) (least - 1) (next a) Q) : Ends all bound least (read >>= next) Q :=
  .bind (h.ends all bound) fun a _ => hnext a

theorem Ends.pure {a : α} (h : P a) : Ends all bound 0 (Pure.pure a) P := fun _ hin _ => ⟨h, hin, Nat.le_refl _⟩

theorem Ends.given {a : α} {next : α → Reader β} (hnext : Ends all bound least (next a) Q) :
    Ends all bound least (Pure.pure a >>= next) Q :=
  .bind (P := (· = a)) (.pure rfl) fun _ h => h ▸ hnext

theorem Ends.unexpected {wanted : Expectation} : Ends all bound least (unexpected wanted) P := fun cursor hin _ =>
  ⟨Cause.noConfusion, cursor.peek, hin.peek, rfl, rfl⟩

theorem Ends.ite {c : Prop} [Decidable c] {first second : Reader α} (h : c → Ends all bound least first P)
    (h' : ¬c → Ends all bound least second P) : Ends all bound least (if c then first else second) P := by
  split
  · exact h ‹c›
  · exact h' ‹¬c›

theorem Ends.map {read : Reader α} {f : α → β} (h : Ends all bound least read fun a => Q (f a)) :
    Ends all bound least (f <$> read) Q := by
  intro cursor hin hlt
  have hread := h cursor hin hlt
  show Ended all least cursor.rest.length Q (read cursor >>= fun found => Except.ok (f found.1, found.2))
  cases hrun : read cursor <;> rw [hrun] at hread <;> exact hread

/-- A repetition gets a bound that exceeds the number of tokens left. -/
theorem Ends.bounded {read : Nat → Reader α} (h : ∀ n ≤ bound, Ends all n least (read n) P) :
    Ends all bound least (bounded read) P := fun cursor hin hlt =>
  h (cursor.rest.length + 1) hlt cursor hin (Nat.lt_succ_self _)

/-- An attempt that succeeds takes a token, and one that fails takes none. -/
theorem Ends.attempt {read : Reader α} [h : Takes read] {next : Option α → Reader β}
    (hsome : ∀ a, Ends all (bound - 1) (least - 1) (next (some a)) Q) (hnone : Ends all bound least (next none) Q) :
    Ends all bound least (attempt read >>= next) Q := by
  intro cursor hin hlt
  have hread := h.ends all bound cursor hin hlt
  show Ended all least cursor.rest.length Q (Reader.attempt read cursor >>= fun found => next found.1 found.2)
  rw [Reader.attempt]
  cases hrun : read cursor with
  | error fault =>
    rw [hrun] at hread
    dsimp only
    rw [if_neg hread.ne_exhausted]
    exact hnone cursor hin hlt
  | ok found =>
    obtain ⟨a, middle⟩ := found
    rw [hrun] at hread
    obtain ⟨-, hmiddle, hle⟩ := hread
    exact (hsome a middle hmiddle (by omega)).weaken (by omega)

/-! ### Looking at the next token -/

theorem EndsAt.peek {next : Token → Reader β} (h : EndsAt all token bound least (next token) Q) :
    EndsAt all token bound least (peek >>= next) Q := by
  rintro cursor hin hlt rfl
  exact h cursor hin hlt rfl

theorem EndsAt.ahead {n : Nat} {next : Token → Reader β} (h : ∀ other, EndsAt all token bound least (next other) Q) :
    EndsAt all token bound least (ahead n >>= next) Q :=
    fun cursor hin hlt hpeek => h (cursor.ahead n) cursor hin hlt hpeek

theorem EndsAt.check {next : Bool → Reader β} (h : EndsAt all token bound least (next (token.isPunct mark)) Q) :
    EndsAt all token bound least (check mark >>= next) Q := by
  rintro cursor hin hlt rfl
  exact h cursor hin hlt rfl

theorem EndsAt.checkWord {next : Bool → Reader β} (h : EndsAt all token bound least (next (token.isWord word)) Q) :
    EndsAt all token bound least (checkWord word >>= next) Q := by
  rintro cursor hin hlt rfl
  exact h cursor hin hlt rfl

theorem EndsAt.checkAny {marks : List String} {next : Option String → Reader β}
    (h : EndsAt all token bound least (next (marks.find? token.isPunct)) Q) :
    EndsAt all token bound least (checkAny marks >>= next) Q := by
  rintro cursor hin hlt rfl
  exact h cursor hin hlt rfl

theorem EndsAt.atEnd {next : Bool → Reader β} (h : EndsAt all token bound least (next (token.kind == .eof)) Q) :
    EndsAt all token bound least (atEnd >>= next) Q := by
  rintro cursor hin hlt rfl
  exact h cursor hin hlt rfl

theorem EndsAt.advance (hne : token.kind ≠ .eof) {next : Token → Reader β}
    (h : Ends all (bound - 1) (least - 1) (next token) Q) : EndsAt all token bound least (advance >>= next) Q := by
  rintro cursor hin hlt rfl
  have hlength := hin.length_advance hne
  have hvalue : cursor.advance.1 = cursor.peek := by
    rw [Cursor.advance]
    split <;> rfl
  show Ended all least cursor.rest.length Q (next cursor.advance.1 cursor.advance.2)
  rw [hvalue]
  exact (h cursor.advance.2 hin.advance (by omega)).weaken (by omega)

theorem EndsAt.ite {c : Prop} [Decidable c] {first second : Reader α} (h : c → EndsAt all token bound least first P)
    (h' : ¬c → EndsAt all token bound least second P) :
    EndsAt all token bound least (if c then first else second) P := by
  split
  · exact h ‹c›
  · exact h' ‹¬c›

theorem EndsAt.eat {next : Bool → Reader β} (htaken : Ends all (bound - 1) (least - 1) (next true) Q)
    (hleft : EndsAt all token bound least (next false) Q) : EndsAt all token bound least (eat mark >>= next) Q := by
  rw [Reader.eat, bind_assoc]
  refine .check ?_
  split
  · simp only [bind_assoc, pure_bind]
    exact .advance (Token.ne_eof_of_isPunct ‹_›) htaken
  · rw [pure_bind]
    exact hleft

theorem EndsAt.eatWord {next : Bool → Reader β} (htaken : Ends all (bound - 1) (least - 1) (next true) Q)
    (hleft : EndsAt all token bound least (next false) Q) : EndsAt all token bound least (eatWord word >>= next) Q := by
  rw [Reader.eatWord, bind_assoc]
  refine .checkWord ?_
  split
  · simp only [bind_assoc, pure_bind]
    exact .advance (Token.ne_eof_of_isWord ‹_›) htaken
  · rw [pure_bind]
    exact hleft

theorem Ends.eat {next : Bool → Reader β} (htaken : Ends all (bound - 1) (least - 1) (next true) Q)
    (hleft : Ends all bound least (next false) Q) : Ends all bound least (eat mark >>= next) Q :=
  .looking fun _ _ => .eat htaken (.of_ends hleft)

theorem Ends.eatWord {next : Bool → Reader β} (htaken : Ends all (bound - 1) (least - 1) (next true) Q)
    (hleft : Ends all bound least (next false) Q) : Ends all bound least (eatWord word >>= next) Q :=
  .looking fun _ _ => .eatWord htaken (.of_ends hleft)

end

/-! ## Single tokens -/

section
variable {α : Type}

theorem Halts.of_ends {read : Reader α} {P : List Token → α → Prop} (h : ∀ all bound, Ends all bound 0 read (P all)) :
    Halts read :=
  ⟨fun all bound => (h all bound).imp fun _ _ => trivial⟩

theorem Halts.of_looks {read : Reader α} (h : ∀ cursor, ∃ a, read cursor = .ok (a, cursor)) : Halts read where
  ends all bound cursor hin _ := by
    obtain ⟨a, ha⟩ := h cursor
    rw [ha]
    exact ⟨trivial, hin, Nat.le_refl _⟩

instance {read : Reader α} [h : Takes read] : Halts read :=
  ⟨fun all bound => (h.ends all bound).weaken (Nat.le_refl _) (Nat.zero_le _)⟩

instance {a : α} : Halts (Pure.pure a : Reader α) := ⟨fun _ _ => .pure trivial⟩

instance {β : Type} {read : Reader α} [h : Halts read] {f : α → β} : Halts (f <$> read) :=
  ⟨fun all bound => .map (h.ends all bound)⟩

theorem Halts.of_bounded {read : Nat → Reader α} (h : ∀ all n, Ends all n 0 (read n) fun _ => True) :
    Halts (bounded read) :=
  ⟨fun all _ => .bounded fun n _ => h all n⟩

theorem Takes.of_bounded {read : Nat → Reader α} (h : ∀ all n, Ends all n 1 (read n) fun _ => True) :
    Takes (bounded read) :=
  ⟨fun all _ => .bounded fun n _ => h all n⟩

instance {read : Reader α} [h : Takes read] : Halts (attempt read) where
  ends all bound := by
    rw [← bind_pure (attempt read)]
    exact .attempt (fun _ => .pure trivial) (.pure trivial)

end

instance : Halts peek := .of_looks fun _ => ⟨_, rfl⟩

instance (n : Nat) : Halts (ahead n) := .of_looks fun _ => ⟨_, rfl⟩

instance : Halts atEnd := .of_looks fun _ => ⟨_, rfl⟩

instance (mark : String) : Halts (check mark) := .of_looks fun _ => ⟨_, rfl⟩

instance (word : String) : Halts (checkWord word) := .of_looks fun _ => ⟨_, rfl⟩

instance (marks : List String) : Halts (checkAny marks) := .of_looks fun _ => ⟨_, rfl⟩

theorem ends_spanFrom {all : List Token} {bound : Nat} (start : Token) : Ends all bound 0 (spanFrom start) fun span =>
    span.startLine = start.line ∧ span.startColumn = start.column :=
  fun _ hin _ => ⟨⟨rfl, rfl⟩, hin, Nat.le_refl _⟩

instance (start : Token) : Halts (spanFrom start) := .of_ends fun _ _ => ends_spanFrom start

instance : Halts advance where
  ends _ _ cursor hin _ := ⟨trivial, hin.advance, Cursor.Within.length_advance_le cursor⟩

instance (mark : String) : Halts (eat mark) where
  ends all bound := by
    rw [← bind_pure (eat mark)]
    exact .eat (.pure trivial) (.pure trivial)

instance (word : String) : Halts (eatWord word) where
  ends all bound := by
    rw [← bind_pure (eatWord word)]
    exact .eatWord (.pure trivial) (.pure trivial)

instance (mark : String) : Takes (expect mark) where
  ends all bound := by
    refine .looking fun token _ => .check (.ite (fun hmark => ?_) fun _ => .of_ends .unexpected)
    rw [← bind_pure advance]
    exact .advance (Token.ne_eof_of_isPunct hmark) (.pure trivial)

instance (word : String) : Takes (expectWord word) where
  ends all bound := by
    refine .looking fun token _ => .checkWord (.ite (fun hword => ?_) fun _ => .of_ends .unexpected)
    rw [← bind_pure advance]
    exact .advance (Token.ne_eof_of_isWord hword) (.pure trivial)

instance : Takes identifier where
  ends all bound := by
    refine .looking fun token _ => .peek ?_
    split
    · exact .advance (Token.ne_eof_of_identifier? ‹_›) (.pure trivial)
    · exact .of_ends .unexpected

/-! ## Repetitions -/

section
variable {all : List Token} {α : Type} {bound : Nat} {item : Reader α} {P : α → Prop} (h : Ends all bound 1 item P)
include h

theorem ends_commaSeparated (n : Nat) (hn : n ≤ bound) : Ends all n 1 (commaSeparated item n) fun _ => True := by
  induction n with
  | zero => exact .zero
  | succ n ih =>
    refine .bind (h.weaken hn (Nat.le_refl _)) fun first _ => .after fun more => .ite (fun _ => ?_) fun _ =>
      .pure trivial
    exact .bind ((ih (Nat.le_of_succ_le hn)).weaken (Nat.le_refl _) (Nat.zero_le _)) fun _ _ => .pure trivial

theorem ends_itemsUntil (close : String) (n : Nat) (hn : n ≤ bound) :
    Ends all n 0 (itemsUntil close item n) fun _ => True := by
  induction n with
  | zero => exact .zero
  | succ n ih =>
    refine .after fun closed => .ite (fun _ => .pure trivial) fun _ =>
      .bind (h.weaken hn (Nat.le_refl _)) fun first _ => ?_
    refine .after fun more => .ite (fun _ => ?_) fun _ => .pure trivial
    exact .bind (ih (Nat.le_of_succ_le hn)) fun _ _ => .pure trivial

theorem ends_itemsInBraces (n : Nat) (hn : n ≤ bound) : Ends all n 0 (itemsInBraces item n) fun _ => True := by
  induction n with
  | zero => exact .zero
  | succ n ih =>
    have ih := ih (Nat.le_of_succ_le hn)
    refine .after fun closed => .ite (fun _ => .pure trivial) fun _ => .after fun ended =>
      .ite (fun _ => .unexpected) fun _ => ?_
    refine .eat ih ?_
    exact .bind (h.weaken hn (Nat.le_refl _)) fun first _ => .bind ih fun _ _ => .pure trivial

end

section
variable {α : Type} {item : Reader α} [h : Takes item]

instance : Takes (bounded (commaSeparated item)) := ⟨fun all bound => .bounded (ends_commaSeparated (h.ends all bound))⟩

instance (close : String) : Halts (bounded (itemsUntil close item)) :=
  ⟨fun all bound => .bounded (ends_itemsUntil (h.ends all bound) close)⟩

end

/-! ## Names and types -/

section
variable {all : List Token}

theorem ends_dottedWords (n : Nat) : Ends all n 0 (dottedWords n) fun _ => True := by
  induction n with
  | zero => exact .zero
  | succ n ih =>
    refine .after fun dotted => .after fun next => .ite (fun _ => .after fun _ => .take fun name => ?_) fun _ =>
      .pure trivial
    exact .bind ih fun _ _ => .pure trivial

instance : Halts (bounded dottedWords) := .of_bounded fun _ => ends_dottedWords

theorem ends_arrayMarks (n : Nat) : Ends all n 0 (arrayMarks n) fun _ => True := by
  induction n with
  | zero => exact .zero
  | succ n ih =>
    refine .looking fun token _ => .check (.ahead fun next => .ite (fun hmarks => ?_) fun _ => .of_ends (.pure trivial))
    refine .advance (Token.ne_eof_of_isPunct (Bool.and_eq_true_iff.mp hmarks).1) (.after fun _ => ?_)
    exact .bind ih fun _ _ => .pure trivial

instance : Halts (bounded arrayMarks) := .of_bounded fun _ => ends_arrayMarks

theorem ends_typeNameWith {argument : Reader String} {n : Nat} (h : Ends all n 1 argument fun _ => True) :
    Ends all (n + 1) 1 (typeNameWith argument) fun _ => True := by
  refine .take fun first => .after fun dotted => .after fun generic => .ite (fun _ => ?_) fun _ => .given ?_
  · refine .bind (.bounded (ends_commaSeparated h)) fun args _ => ?_
    exact .take fun _ => .given (.after fun marks => .pure trivial)
  · exact .after fun marks => .pure trivial

theorem ends_typeNameWithin (n : Nat) : Ends all n 1 (typeNameWithin n) fun _ => True := by
  induction n with
  | zero => exact .zero
  | succ n ih => exact ends_typeNameWith ih

instance : Takes typeName := .of_bounded fun _ => ends_typeNameWithin

end

end Reader

end ApexPaths.Source
