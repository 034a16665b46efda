import ApexPaths.Proofs.Source.Tiling
import ApexPaths.Proofs.Source.Unit
import Mathlib.Data.Prod.Lex

/-!
Where trees stand in their source. The tokens of a text stand one behind the other, so a reader goes from a place to a
later one. A tree is told by two places, it begins at the first or behind it and ends at the second or before it, and
the readings of a production are put together by the places between them. A node spans from its first token to the last
one that was taken, so it must be known that one was.
-/

set_option autoImplicit false

namespace ApexPaths.Source

/-! ## Places -/

/-- Places in the order of the text. -/
instance : Preorder Place := Preorder.lift fun place => toLex (place.line, place.column)

theorem Place.le_iff {p q : Place} : p ≤ q ↔ p.line < q.line ∨ p.line = q.line ∧ p.column ≤ q.column :=
  Prod.Lex.toLex_le_toLex

theorem Place.le_step (place : Place) (c : Char) : place ≤ place.step c := by
  rw [Place.le_iff, Place.step]
  split
  · exact .inl (Nat.lt_succ_self _)
  · exact .inr ⟨rfl, Nat.le_succ _⟩

theorem Place.le_after (place : Place) (cs : List Char) : place ≤ place.after cs := by
  induction cs generalizing place with
  | nil => exact le_refl place
  | cons c cs ih => exact (place.le_step c).trans (ih _)

/-- The tokens stand one behind the other, none of them before a place. -/
def InOrder (low : Place) : List Token → Prop
  | [] => True
  | token :: rest => low ≤ token.start ∧ token.start ≤ token.finish ∧ InOrder token.finish rest

theorem InOrder.lower {least low : Place} {tokens : List Token} (h : InOrder low tokens) (hle : least ≤ low) :
    InOrder least tokens := by
  cases tokens with
  | nil => trivial
  | cons token rest => exact ⟨hle.trans h.1, h.2⟩

theorem InOrder.behind {low : Place} {taken rest : List Token} (h : InOrder low (taken ++ rest)) :
    InOrder low rest ∧ ∀ last ∈ taken.getLast?, low ≤ last.finish ∧ InOrder last.finish rest := by
  induction taken generalizing low with
  | nil => exact ⟨h, by simp⟩
  | cons token taken ih =>
    obtain ⟨hlow, hle, hrest⟩ := h
    have hlow := hlow.trans hle
    obtain ⟨hleft, hlast⟩ := ih hrest
    refine ⟨hleft.lower hlow, fun last hmem => ?_⟩
    cases taken with
    | nil =>
      cases hmem
      exact ⟨hlow, hrest⟩
    | cons next taken => exact (hlast last hmem).imp_left hlow.trans

theorem inOrder_scanFrom {fuel : Nat} {place finish : Place} {cs : List Char} {tokens : List Token}
    (h : scanFrom fuel place cs = .ok (tokens, finish)) : InOrder place (tokens ++ [Token.endAt finish]) := by
  fun_induction scanFrom fuel place cs generalizing tokens finish with
  | case1 =>
    cases h
    exact ⟨le_refl _, le_refl _, trivial⟩
  | case4 place fuel cs _ n _ ih => exact (ih h).lower (place.le_after _)
  | case6 =>
    rename_i ih
    obtain ⟨⟨rest, finish'⟩, hrest, h⟩ := bind_eq_ok.mp h
    cases h
    exact ⟨le_refl _, Place.le_after _ _, ih hrest⟩
  | _ => cases h

end ApexPaths.Source

namespace ApexPaths

/-! ## Spans -/

def Span.start (span : Span) : Source.Place := ⟨span.startLine, span.startColumn⟩

def Span.stop (span : Span) : Source.Place := ⟨span.endLine, span.endColumn⟩

/-- The spans stand one behind the other between two places. -/
def Span.InRow (low high : Source.Place) : List Span → Prop
  | [] => low ≤ high
  | span :: rest => low ≤ span.start ∧ span.start ≤ span.stop ∧ InRow span.stop high rest

namespace Span.InRow

open Source

variable {low mid high : Place} {spans : List Span}

theorem le (h : InRow low high spans) : low ≤ high := by
  induction spans generalizing low with
  | nil => exact h
  | cons span rest ih => exact h.1.trans (h.2.1.trans (ih h.2.2))

theorem append {others : List Span} (h : InRow low mid spans) (h' : InRow mid high others) :
    InRow low high (spans ++ others) := by
  induction spans generalizing low with
  | nil =>
    cases others with
    | nil => exact le_trans h h'
    | cons span rest => exact ⟨le_trans h h'.1, h'.2⟩
  | cons span rest ih => exact ⟨h.1, h.2.1, ih h.2.2⟩

theorem lower {least : Place} (h : InRow low high spans) (hle : least ≤ low) : InRow least high spans :=
  append (show InRow least low [] from hle) h

theorem within (h : InRow low high spans) : ∀ span ∈ spans, low ≤ span.start ∧ span.stop ≤ high := by
  induction spans generalizing low with
  | nil => simp
  | cons span rest ih =>
    refine List.forall_mem_cons.mpr ⟨⟨h.1, le h.2.2⟩, fun other hother => ?_⟩
    exact (ih h.2.2 other hother).imp_left fun hstart => h.1.trans (h.2.1.trans hstart)

theorem chain (h : InRow low high spans) : spans.IsChain fun first second => first.stop ≤ second.start := by
  induction spans generalizing low with
  | nil => exact .nil
  | cons span rest ih =>
    cases rest with
    | nil => exact .singleton _
    | cons next rest => exact .cons_cons h.2.2.1 (ih h.2.2)

end Span.InRow

end ApexPaths

namespace ApexPaths.Source

/-- Every node of the tree spans its children, one behind the other. -/
def Tree.Nested (tree : Tree) : Prop :=
  ∀ node ∈ tree.nodes, Span.InRow node.span.start node.span.stop (node.children.map Tree.span)

/-- A nested tree that stands between two places. -/
structure Between (low high : Place) (tree : Tree) : Prop where
  nested : tree.Nested
  low : low ≤ tree.span.start
  high : tree.span.stop ≤ high

/-- Nested trees that stand one behind the other between two places. -/
structure Row (low high : Place) (trees : List Tree) : Prop where
  nested : ∀ tree ∈ trees, tree.Nested
  spans : Span.InRow low high (trees.map Tree.span)

variable {kind : NodeKind} {props : PropertyMap}

section
variable {least low mid high most : Place} {tree : Tree} {trees : List Tree}

theorem Between.le (h : Between low high tree) : tree.span.start ≤ tree.span.stop :=
  (h.nested tree tree.self_mem_nodes).le

theorem Between.lower (h : Between low high tree) (hle : least ≤ low) : Between least high tree :=
  ⟨h.nested, hle.trans h.low, h.high⟩

theorem Row.nil (h : low ≤ high) : Row low high [] := ⟨by simp, h⟩

theorem Row.cons (h : Between low mid tree) (hrest : Row mid high trees) : Row low high (tree :: trees) :=
  ⟨List.forall_mem_cons.mpr ⟨h.nested, hrest.nested⟩, h.low, h.le, hrest.spans.lower h.high⟩

theorem Row.append {others : List Tree} (h : Row low mid trees) (h' : Row mid high others) :
    Row low high (trees ++ others) :=
  ⟨List.forall_mem_append.mpr ⟨h.nested, h'.nested⟩, by rw [List.map_append]; exact h.spans.append h'.spans⟩

theorem Row.lower (h : Row low high trees) (hle : least ≤ low) : Row least high trees := (Row.nil hle).append h

theorem Row.higher (h : Row low high trees) (hle : high ≤ most) : Row low most trees := by
  simpa using h.append (Row.nil hle)

theorem Between.row (h : Between low high tree) : Row low high [tree] := .cons h (.nil (le_refl high))

theorem Between.node {kind : NodeKind} {span : Span} {props : PropertyMap} (hlow : low ≤ span.start)
    (hhigh : span.stop ≤ high) (h : Row span.start span.stop trees) :
    Between low high { kind, span, props, children := trees } := by
  refine ⟨fun node hnode => ?_, hlow, hhigh⟩
  rcases Tree.mem_nodes.mp hnode with rfl | ⟨child, hchild, hnode⟩
  · exact h.spans
  · exact h.nested child hchild node hnode

theorem Between.spanned {span : Span} {start : Token} (hspan : span.start = start.start)
    (hstop : high ≤ span.stop) (h : Row start.start high trees) :
    Between start.start span.stop { kind, span, props, children := trees } :=
  .node (ge_of_eq hspan) (le_refl _) (by rw [hspan]; exact h.higher hstop)

theorem Between.wrap (h : Between low high tree) :
    Between low high { kind, span := tree.span, props, children := [tree] } :=
  .node h.low h.high (Between.row ⟨h.nested, le_refl _, le_refl _⟩)

end

/-! ## Cursors -/

/-- Some tokens are taken, and the last of them is kept. -/
def Cursor.Moves (cursor cursor' : Cursor) : Prop :=
  ∃ taken, cursor.rest = taken ++ cursor'.rest ∧ cursor'.last = taken.getLast?.or cursor.last ∧
  cursor'.stop = cursor.stop

theorem Cursor.Moves.refl (cursor : Cursor) : cursor.Moves cursor := ⟨[], rfl, rfl, rfl⟩

theorem Cursor.Moves.trans {first second third : Cursor} (h : first.Moves second) (h' : second.Moves third) :
    first.Moves third := by
  obtain ⟨taken, hrest, hlast, hstop⟩ := h
  obtain ⟨more, hmore, hlast', hstop'⟩ := h'
  refine ⟨taken ++ more, by rw [hrest, hmore, List.append_assoc], ?_, hstop'.trans hstop⟩
  rw [hlast', hlast, List.getLast?_append, Option.or_assoc]

theorem Cursor.moves_advance {cursor : Cursor} (hstop : cursor.stop.kind = .eof) : cursor.Moves cursor.advance.2 := by
  rw [Cursor.advance]
  split
  · exact .refl cursor
  · rename_i hend
    obtain ⟨rest, last, stop⟩ := cursor
    cases rest with
    | nil => exact absurd (by rw [Cursor.atEnd, Cursor.peek, Cursor.ahead]; exact beq_iff_eq.mpr hstop) hend
    | cons token rest => exact ⟨[token], rfl, rfl, rfl⟩

/-- The tokens that are left stand in order behind what was taken, none of them before a place; when it is told that the
reading has begun, a token that ends there or behind it was taken. -/
structure Cursor.At (low : Place) (begun : Bool) (cursor : Cursor) : Prop where
  rest : InOrder low (cursor.rest ++ [cursor.stop])
  ends : cursor.stop.kind = .eof
  last : ∀ last ∈ cursor.last, InOrder last.finish (cursor.rest ++ [cursor.stop])
  begun : begun = true → ∃ last ∈ cursor.last, low ≤ last.finish

namespace Cursor.At

variable {least low : Place} {begun begun' : Bool} {cursor cursor' : Cursor} (h : cursor.At low begun)
include h

theorem weaken (hle : least ≤ low) (hbegun : begun' = true → begun = true) : cursor.At least begun' :=
  ⟨h.rest.lower hle, h.ends, h.last, fun hb => (h.begun (hbegun hb)).imp fun _ hlast => ⟨hlast.1, hle.trans hlast.2⟩⟩

theorem within : cursor.Within (cursor.rest ++ [cursor.stop]) :=
  ⟨fun _ htoken => List.mem_append_left _ htoken, List.mem_append_right _ (List.mem_singleton_self _), h.ends⟩

theorem moves (hmoves : cursor.Moves cursor') : cursor'.At low begun := by
  obtain ⟨taken, hrest, hlast, hstop⟩ := hmoves
  have horder := h.rest
  rw [hrest, List.append_assoc, ← hstop] at horder
  obtain ⟨hleft, htaken⟩ := horder.behind
  cases hnew : taken.getLast? with
  | none =>
    obtain rfl := List.getLast?_eq_none_iff.mp hnew
    have hsame : cursor.rest ++ [cursor.stop] = cursor'.rest ++ [cursor'.stop] := by rw [hrest, hstop, List.nil_append]
    rw [List.getLast?_nil, Option.none_or] at hlast
    exact ⟨hleft, hstop ▸ h.ends, by rw [← hsame, hlast]; exact h.last, by rw [hlast]; exact h.begun⟩
  | some last =>
    rw [hnew, Option.some_or] at hlast
    obtain ⟨hle, hbehind⟩ := htaken last hnew
    refine ⟨hleft, hstop ▸ h.ends, fun other hother => ?_, fun _ => ⟨last, hlast, hle⟩⟩
    cases hlast ▸ hother
    exact hbehind

theorem taken (hmoves : cursor.Moves cursor') (hless : cursor'.rest.length < cursor.rest.length) :
    cursor'.At low true := by
  obtain ⟨hrest, hends, hlast, -⟩ := h.moves hmoves
  refine ⟨hrest, hends, hlast, fun _ => ?_⟩
  obtain ⟨taken, hsplit, hkept, hstop⟩ := hmoves
  have horder := h.rest
  rw [hsplit, List.append_assoc, ← hstop] at horder
  cases hnew : taken.getLast? with
  | none =>
    rw [hsplit, List.getLast?_eq_none_iff.mp hnew] at hless
    exact absurd hless (Nat.lt_irrefl _)
  | some last =>
    rw [hnew, Option.some_or] at hkept
    exact ⟨last, hkept, (horder.behind.2 last hnew).1⟩

/-- The next token stands at that place or behind it, and so does what is left. -/
theorem peek : low ≤ cursor.peek.start ∧ cursor.peek.start ≤ cursor.peek.finish ∧
    cursor.At cursor.peek.start false := by
  obtain ⟨rest, last, stop⟩ := cursor
  cases rest with
  | nil => exact ⟨h.rest.1, h.rest.2.1, ⟨le_refl _, h.rest.2⟩, h.ends, h.last, nofun⟩
  | cons token rest => exact ⟨h.rest.1, h.rest.2.1, ⟨le_refl _, h.rest.2⟩, h.ends, h.last, nofun⟩

theorem advance (hne : cursor.peek.kind ≠ .eof) : cursor.advance.2.At cursor.peek.finish true := by
  have hend : cursor.atEnd = false := by simpa [Cursor.atEnd] using hne
  obtain ⟨rest, last, stop⟩ := cursor
  cases rest with
  | nil => exact absurd h.ends hne
  | cons token rest =>
    rw [Cursor.advance, hend, if_neg Bool.false_ne_true]
    obtain ⟨-, -, hrest⟩ := h.rest
    refine ⟨hrest, h.ends, fun last hlast => ?_, fun _ => ⟨token, rfl, le_refl _⟩⟩
    cases hlast
    exact hrest

end Cursor.At

/-! ## Readings -/

variable {wanted : Expectation} {c : Prop} {mark : String}

namespace Reader

section
variable {α : Type} (low : Place) (begun : Bool) (token : Token) (read : Reader α) (begun' : Bool)
    (P : Place → α → Prop)

/-- Before tokens from a place on the reader goes to a place that is not before it, and its value is told by that
place. -/
def Lays : Prop := ∀ cursor, cursor.At low begun → ∀ a cursor', read cursor = .ok (a, cursor') →
  ∃ mid, low ≤ mid ∧ cursor'.At mid begun' ∧ P mid a

/-- A reader that begins at a token lays its result at or after the start of that token. -/
def LaysAt : Prop :=
  ∀ cursor, cursor.At token.start false → cursor.peek = token → token.start ≤ token.finish → ∀ a cursor',
  read cursor = .ok (a, cursor') → ∃ mid, token.start ≤ mid ∧ cursor'.At mid begun' ∧ P mid a

end

/-- The reader only takes tokens. -/
class Onward {α : Type} (read : Reader α) : Prop where
  moves : ∀ cursor : Cursor, cursor.stop.kind = .eof → ∀ a cursor', read cursor = .ok (a, cursor') →
    cursor.Moves cursor'

section
variable {α β : Type} {low : Place} {begun begun' middle : Bool} {token : Token} {P : Place → α → Prop}
    {Q : Place → β → Prop}

/-! ### Rules -/

theorem Lays.imp {read : Reader α} {P' : Place → α → Prop} (h : Lays low begun read begun' P)
    (himp : ∀ mid a, low ≤ mid → P mid a → P' mid a) : Lays low begun read begun' P' := fun cursor hat a cursor' ha =>
  (h cursor hat a cursor' ha).imp fun mid hmid => ⟨hmid.1, hmid.2.1, himp mid a hmid.1 hmid.2.2⟩

theorem Lays.weaken {read : Reader α} {known asked : Bool} (h : Lays low begun read begun' P)
    (hbefore : begun = true → known = true) (hafter : asked = true → begun' = true) : Lays low known read asked P :=
    fun cursor hat a cursor' ha =>
  (h cursor (hat.weaken (le_refl low) hbefore) a cursor' ha).imp fun mid hmid =>
    ⟨hmid.1, hmid.2.1.weaken (le_refl mid) hafter, hmid.2.2⟩

theorem Lays.bind {read : Reader α} {next : α → Reader β} (h : Lays low begun read middle P)
    (hnext : ∀ mid a, low ≤ mid → P mid a → Lays mid middle (next a) begun' Q) :
    Lays low begun (read >>= next) begun' Q := by
  intro cursor hat b cursor' hb
  obtain ⟨⟨a, between⟩, ha, hb⟩ := bind_eq_ok.mp hb
  obtain ⟨mid, hmid, hbetween, hP⟩ := h cursor hat a between ha
  obtain ⟨high, hhigh, hleft, hQ⟩ := hnext mid a hmid hP between hbetween b cursor' hb
  exact ⟨high, hmid.trans hhigh, hleft, hQ⟩

theorem Lays.after {read : Reader α} [h : Onward read] {next : α → Reader β}
    (hnext : ∀ a, Lays low begun (next a) begun' Q) : Lays low begun (read >>= next) begun' Q := by
  intro cursor hat b cursor' hb
  obtain ⟨⟨a, between⟩, ha, hb⟩ := bind_eq_ok.mp hb
  exact hnext a between (hat.moves (h.moves cursor hat.ends a between ha)) b cursor' hb

theorem Lays.take {read : Reader α} [h : Onward read] [htakes : Takes read] {next : α → Reader β}
    (hnext : ∀ a, Lays low true (next a) begun' Q) : Lays low begun (read >>= next) begun' Q := by
  intro cursor hat b cursor' hb
  obtain ⟨⟨a, between⟩, ha, hb⟩ := bind_eq_ok.mp hb
  have hended := htakes.ends _ _ cursor hat.within (Nat.lt_succ_self _)
  rw [ha] at hended
  exact hnext a between (hat.taken (h.moves cursor hat.ends a between ha) hended.2.2) b cursor' hb

theorem Lays.pure {a : α} (h : P low a) : Lays low begun (Pure.pure a) begun P := by
  intro cursor hat b cursor' hb
  cases hb
  exact ⟨low, le_refl low, hat, h⟩

theorem Lays.done {a : α} (h : P low a) : Lays low true (Pure.pure a) begun' P := (Lays.pure h).weaken id fun _ => rfl

theorem Lays.given {a : α} {next : α → Reader β} (hnext : Lays low begun (next a) begun' Q) :
    Lays low begun (Pure.pure a >>= next) begun' Q := by
  rw [pure_bind]
  exact hnext

theorem Lays.unexpected : Lays low begun (unexpected wanted) begun' P := by
  intro cursor _ a cursor' ha
  cases ha

theorem Lays.unexpected_bind {next : α → Reader β} : Lays low begun (Reader.unexpected wanted >>= next) begun' Q :=
  .bind (show Lays low begun (Reader.unexpected wanted) begun fun _ _ => False from .unexpected) fun _ _ _ h => h.elim

theorem Lays.fail {cause : Cause} : Lays low begun (fail cause) begun' P := by
  intro cursor _ a cursor' ha
  cases ha

theorem Lays.ite [Decidable c] {first second : Reader α} (h : c → Lays low begun first begun' P)
    (h' : ¬c → Lays low begun second begun' P) : Lays low begun (if c then first else second) begun' P := by
  split
  · exact h ‹c›
  · exact h' ‹¬c›

theorem Lays.either [Decidable c] {first second : Reader α} {next : α → Reader β} (h : Lays low begun first middle P)
    (h' : Lays low begun second middle P) (hnext : ∀ mid a, low ≤ mid → P mid a → Lays mid middle (next a) begun' Q) :
    Lays low begun (if c then first >>= next else second >>= next) begun' Q :=
  .ite (fun _ => .bind h hnext) fun _ => .bind h' hnext

theorem Lays.choice [Decidable c] {first second : Reader α} [h : Onward first] [h' : Onward second]
    {next : α → Reader β} (hnext : ∀ a, Lays low begun (next a) begun' Q) :
    Lays low begun (if c then first >>= next else second >>= next) begun' Q :=
  .ite (fun _ => .after hnext) fun _ => .after hnext

theorem Lays.map {read : Reader α} {f : α → β} (h : Lays low begun read begun' fun mid a => Q mid (f a)) :
    Lays low begun (f <$> read) begun' Q := by
  intro cursor hat b cursor' hb
  have hb : (read cursor >>= fun found => Except.ok (f found.1, found.2)) = .ok (b, cursor') := hb
  obtain ⟨⟨a, left⟩, ha, hb⟩ := bind_eq_ok.mp hb
  cases hb
  exact h cursor hat a _ ha

theorem Lays.bounded {read : Nat → Reader α} (h : ∀ n, Lays low begun (read n) begun' P) :
    Lays low begun (bounded read) begun' P :=
  fun cursor hat => h (cursor.rest.length + 1) cursor hat

/-- An attempt that succeeds takes a token, and one that fails takes none. -/
theorem Lays.attempt {read : Reader α} [h : Onward read] [htakes : Takes read] {next : Option α → Reader β}
    (hsome : ∀ a, Lays low true (next (some a)) begun' Q) (hnone : Lays low begun (next none) begun' Q) :
    Lays low begun (attempt read >>= next) begun' Q := by
  intro cursor hat b cursor' hb
  have hb : (Reader.attempt read cursor >>= fun found => next found.1 found.2) = .ok (b, cursor') := hb
  rw [Reader.attempt] at hb
  cases hread : read cursor with
  | error fault =>
    rw [hread] at hb
    dsimp only at hb
    split at hb
    · cases hb
    · exact hnone cursor hat b cursor' hb
  | ok found =>
    obtain ⟨a, between⟩ := found
    rw [hread] at hb
    have hended := htakes.ends _ _ cursor hat.within (Nat.lt_succ_self _)
    rw [hread] at hended
    exact hsome a between (hat.taken (h.moves cursor hat.ends a between hread) hended.2.2) b cursor' hb

theorem Lays.spanFrom {start : Token} {next : Span → Reader β}
    (hnext : ∀ span : Span, span.start = start.start → low ≤ span.stop → Lays span.stop true (next span) begun' Q) :
    Lays low true (spanFrom start >>= next) begun' Q := by
  intro cursor hat b cursor' hb
  obtain ⟨last, hlast, hle⟩ := hat.begun rfl
  have hstop : (cursor.spanFrom start).stop = last.finish := by rw [Cursor.spanFrom, Option.mem_def.mp hlast]; rfl
  have hmoved : cursor.At (cursor.spanFrom start).stop true := by
    rw [hstop]
    exact ⟨hat.last last hlast, hat.ends, hat.last, fun _ => ⟨last, hlast, le_refl _⟩⟩
  obtain ⟨mid, hmid, hleft, hQ⟩ := hnext (cursor.spanFrom start) rfl (hstop ▸ hle) cursor hmoved b cursor' hb
  exact ⟨mid, (hstop ▸ hle).trans hmid, hleft, hQ⟩

theorem Lays.node {start : Token} {first : Place} {trees : List Tree}
    (hfirst : first ≤ start.start) (hrow : Row start.start low trees) :
    Lays low true (Reader.spanFrom start >>= fun span => Pure.pure { kind, span, props, children := trees }) begun'
    (Between first) :=
  .spanFrom fun _ hspan hstop => .done ((Between.spanned hspan hstop hrow).lower hfirst)

/-! ### Looking at the next token -/

/-- Which token is next, and that it stands at the place or behind it. -/
theorem Lays.looking {read : Reader α} (h : ∀ token, low ≤ token.start → LaysAt token read begun' P) :
    Lays low begun read begun' P := by
  intro cursor hat a cursor' ha
  obtain ⟨hle, hspan, hpeek⟩ := hat.peek
  obtain ⟨mid, hmid, hleft, hP⟩ := h cursor.peek hle cursor hpeek rfl hspan a cursor' ha
  exact ⟨mid, hle.trans hmid, hleft, hP⟩

theorem LaysAt.of_lays {read : Reader α} (h : Lays token.start false read begun' P) : LaysAt token read begun' P :=
  fun cursor hat _ _ => h cursor hat

theorem LaysAt.unexpected : LaysAt token (unexpected wanted) begun' P := .of_lays .unexpected

theorem LaysAt.peek {next : Token → Reader β} (h : LaysAt token (next token) begun' Q) :
    LaysAt token (peek >>= next) begun' Q := by
  rintro cursor hat rfl
  exact h cursor hat rfl

theorem LaysAt.ahead {n : Nat} {next : Token → Reader β} (h : ∀ other, LaysAt token (next other) begun' Q) :
    LaysAt token (ahead n >>= next) begun' Q := fun cursor hat hpeek => h (cursor.ahead n) cursor hat hpeek

theorem LaysAt.check {next : Bool → Reader β} (h : LaysAt token (next (token.isPunct mark)) begun' Q) :
    LaysAt token (check mark >>= next) begun' Q := by
  rintro cursor hat rfl
  exact h cursor hat rfl

theorem LaysAt.checkWord {word : String} {next : Bool → Reader β}
    (h : LaysAt token (next (token.isWord word)) begun' Q) : LaysAt token (checkWord word >>= next) begun' Q := by
  rintro cursor hat rfl
  exact h cursor hat rfl

theorem LaysAt.checkAny {marks : List String} {next : Option String → Reader β}
    (h : LaysAt token (next (marks.find? token.isPunct)) begun' Q) :
    LaysAt token (checkAny marks >>= next) begun' Q := by
  rintro cursor hat rfl
  exact h cursor hat rfl

theorem LaysAt.ite [Decidable c] {first second : Reader α} (h : c → LaysAt token first begun' P)
    (h' : ¬c → LaysAt token second begun' P) : LaysAt token (if c then first else second) begun' P := by
  split
  · exact h ‹c›
  · exact h' ‹¬c›

theorem LaysAt.taken (hne : token.kind ≠ .eof) {next : Token → Reader β}
    (h : token.start ≤ token.finish → ∃ place, token.start ≤ place ∧ place ≤ token.finish ∧
    Lays place true (next token) begun' Q) :
    LaysAt token (advance >>= next) begun' Q := by
  rintro cursor hat rfl hle b cursor' hb
  have hvalue : cursor.advance.1 = cursor.peek := by
    rw [Cursor.advance]
    split <;> rfl
  have hb : next cursor.advance.1 cursor.advance.2 = .ok (b, cursor') := hb
  rw [hvalue] at hb
  obtain ⟨place, hlow, hhigh, hnext⟩ := h hle
  obtain ⟨mid, hmid, hleft, hQ⟩ := hnext _ ((hat.advance hne).weaken hhigh id) b cursor' hb
  exact ⟨mid, hlow.trans hmid, hleft, hQ⟩

theorem LaysAt.advance (hne : token.kind ≠ .eof) {next : Token → Reader β}
    (h : token.start ≤ token.finish → Lays token.finish true (next token) begun' Q) :
    LaysAt token (advance >>= next) begun' Q :=
  .taken hne fun hle => ⟨token.finish, hle, le_refl _, h hle⟩

theorem LaysAt.begin (hne : token.kind ≠ .eof) {next : Token → Reader β}
    (h : Lays token.start true (next token) begun' Q) : LaysAt token (Reader.advance >>= next) begun' Q :=
  .taken hne fun hle => ⟨token.start, le_refl _, hle, h⟩

theorem LaysAt.identifier {next : String → Reader β}
    (h : ∀ name, token.start ≤ token.finish → Lays token.finish true (next name) begun' Q) :
    LaysAt token (identifier >>= next) begun' Q := by
  rw [Reader.identifier, bind_assoc]
  refine .peek ?_
  split
  · simp only [bind_assoc, pure_bind]
    exact .advance (Token.ne_eof_of_identifier? ‹_›) fun hle => h _ hle
  · exact .of_lays .unexpected_bind

theorem LaysAt.eat {next : Bool → Reader β}
    (htaken : token.start ≤ token.finish → Lays token.finish true (next true) begun' Q)
    (hleft : LaysAt token (next false) begun' Q) : LaysAt token (eat mark >>= next) begun' Q := by
  rw [Reader.eat, bind_assoc]
  refine .check ?_
  split
  · simp only [bind_assoc, pure_bind]
    exact .advance (Token.ne_eof_of_isPunct ‹_›) htaken
  · rw [pure_bind]
    exact hleft

theorem Lays.peek {next : Token → Reader β}
    (h : ∀ token, low ≤ token.start → Lays token.start false (next token) begun' Q) :
    Lays low begun (peek >>= next) begun' Q := .looking fun token hle => .peek (.of_lays (h token hle))

/-- A reading that begins with the token that is taken, if it is no end mark. -/
theorem Lays.advance {next : Token → Reader β}
    (h : ∀ token, low ≤ token.start → Lays token.start false (next token) begun' Q) :
    Lays low begun (advance >>= next) begun' Q := by
  refine .looking fun token hle => ?_
  by_cases hend : token.kind = .eof
  · rintro cursor hat rfl -
    have hstay : Reader.advance cursor = .ok (cursor.peek, cursor) := by
      have hatEnd : cursor.atEnd = true := beq_iff_eq.mpr hend
      rw [Reader.advance, Cursor.advance, hatEnd, if_pos rfl]
    intro b cursor' hb
    have hb : (Reader.advance cursor >>= fun found => next found.1 found.2) = .ok (b, cursor') := hb
    rw [hstay] at hb
    exact h cursor.peek hle cursor hat b cursor' hb
  · exact .begin hend ((h token hle).weaken (fun _ => rfl) id)

theorem Lays.expect {next : Token → Reader β}
    (h : ∀ token, low ≤ token.start → Lays token.start true (next token) begun' Q) :
    Lays low begun (expect mark >>= next) begun' Q := by
  rw [Reader.expect, bind_assoc]
  refine .looking fun token hle => .check ?_
  split
  · exact .begin (Token.ne_eof_of_isPunct ‹_›) (h token hle)
  · exact .of_lays .unexpected_bind

theorem Lays.expectWord {word : String} {next : Token → Reader β}
    (h : ∀ token, low ≤ token.start → Lays token.start true (next token) begun' Q) :
    Lays low begun (expectWord word >>= next) begun' Q := by
  rw [Reader.expectWord, bind_assoc]
  refine .looking fun token hle => .checkWord ?_
  split
  · exact .begin (Token.ne_eof_of_isWord ‹_›) (h token hle)
  · exact .of_lays .unexpected_bind

end

/-! ## Onward readers -/

section
variable {α β : Type}

theorem Onward.of_looks {read : Reader α} (h : ∀ cursor, ∃ a, read cursor = .ok (a, cursor)) : Onward read where
  moves cursor _ a cursor' ha := by
    obtain ⟨b, hb⟩ := h cursor
    cases hb.symm.trans ha
    exact .refl cursor

instance {a : α} : Onward (Pure.pure a : Reader α) := .of_looks fun _ => ⟨a, rfl⟩

theorem Onward.bind {read : Reader α} {next : α → Reader β} (h : Onward read) (hnext : ∀ a, Onward (next a)) :
    Onward (read >>= next) where
  moves cursor hstop b cursor' hb := by
    obtain ⟨⟨a, between⟩, ha, hb⟩ := bind_eq_ok.mp hb
    have hmoves := h.moves cursor hstop a between ha
    have hsame : between.stop = cursor.stop := hmoves.choose_spec.2.2
    exact hmoves.trans ((hnext a).moves between (hsame ▸ hstop) b cursor' hb)

instance {read : Reader α} {next : α → Reader β} [h : Onward read] [hnext : ∀ a, Onward (next a)] :
    Onward (read >>= next) := .bind h hnext

instance {c : Prop} [Decidable c] {first second : Reader α} [h : Onward first] [h' : Onward second] :
    Onward (if c then first else second) := by
  split
  · exact h
  · exact h'

instance {cause : Cause} : Onward (fail cause : Reader α) where
  moves cursor _ a cursor' ha := by cases ha

instance {wanted : Expectation} : Onward (unexpected wanted : Reader α) where
  moves cursor _ a cursor' ha := by cases ha

instance {read : Nat → Reader α} [h : ∀ n, Onward (read n)] : Onward (bounded read) :=
  ⟨fun cursor => (h (cursor.rest.length + 1)).moves cursor⟩

end

instance : Onward peek := .of_looks fun _ => ⟨_, rfl⟩

instance (n : Nat) : Onward (ahead n) := .of_looks fun _ => ⟨_, rfl⟩

instance : Onward atEnd := .of_looks fun _ => ⟨_, rfl⟩

instance : Onward advance where
  moves cursor hstop a cursor' ha := by
    have hleft : cursor.advance.2 = cursor' := congrArg Prod.snd (Except.ok.inj ha)
    exact hleft ▸ Cursor.moves_advance hstop

instance (mark : String) : Onward (check mark) := .of_looks fun _ => ⟨_, rfl⟩

instance (word : String) : Onward (checkWord word) := .of_looks fun _ => ⟨_, rfl⟩

instance (marks : List String) : Onward (checkAny marks) := .of_looks fun _ => ⟨_, rfl⟩

instance (mark : String) : Onward (eat mark) := by
  unfold eat
  infer_instance

instance (word : String) : Onward (eatWord word) := by
  unfold eatWord
  infer_instance

instance (mark : String) : Onward (expect mark) := by
  unfold expect
  infer_instance

instance (word : String) : Onward (expectWord word) := by
  unfold expectWord
  infer_instance

instance : Onward identifier := by
  refine .bind inferInstance fun token => ?_
  split <;> infer_instance

end Reader

end ApexPaths.Source
