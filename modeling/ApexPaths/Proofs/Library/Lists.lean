import ApexPaths.Library.Collections
import Mathlib.Data.List.Forall2

/-!
Collections as a run has them, and what an abstract collection says about one. A value says which element
it stands for, or nothing. Complete contents say all items in order; contents that are not complete say
of each listed item that it is there, up to the equality of elements, and of the others nothing.

The methods of lists, as a run has them and as they are modelled. A step that describes a list before a call describes
it after the call and gives no wrong answer, with three exceptions. `set` and `remove` at a position that is not known,
or of a list that is not complete, keep all listed items, also the one that is gone. `sort` keeps the order of the
listed items.
-/

namespace ApexPaths.Library
set_option autoImplicit false

open List

/-! ## Elements -/

/-- An element of a collection: a literal, an object of the heap or an object that the heap does not hold. -/
inductive Element where
  | literal (literal : Literal)
  | object (ref : HeapRef)
  | outside (id : Nat)
  deriving Inhabited

/-- What a run does with elements: their equality, and the order in which a list of them is sorted. Of the
equality of two objects nothing is known but that each is equal to itself. -/
structure Elements where
  same : Element → Element → Bool
  sorted : List Element → List Element
  same_literal : ∀ a b, same (.literal a) (.literal b) = a.same b
  same_object : ∀ ref, same (.object ref) (.object ref) = true
  same_symm : ∀ {x y}, same x y = true → same y x = true
  same_trans : ∀ {x y z}, same x y = true → same y z = true → same x z = true
  sorted_perm : ∀ items, (sorted items).Perm items

/-- What a value says of the answer of a method; one without an answer gives `none`. -/
def tells (value : Value) (answer : Option Element) : Prop :=
  match value.content with
  | .literal literal => answer = some (.literal literal)
  | .reference ref => answer = some (.object ref)
  | _ => True

/-- The value stands for the element; one that is not determinate stands for any. -/
def standsFor (value : Value) (element : Element) : Prop := tells value (some element)

theorem tells_unknown (type : String) (answer : Option Element) : tells (.unknown type) answer := trivial

theorem tells_ofLiteral (literal : Literal) : tells (.ofLiteral literal) (some (.literal literal)) := rfl

variable {value : Value}

theorem standsFor_int {n i : Int} (hvalue : standsFor value (.literal (.integer i))) (h : value.int? = some n) :
    n = i := by
  unfold standsFor tells at hvalue
  unfold Value.int? at h
  split at hvalue
  · rename_i literal hliteral
    obtain rfl : Literal.integer i = literal := by simpa using hvalue
    rw [hliteral] at h
    exact (Option.some.inj h).symm
  · rename_i ref href
    rw [href] at h
    cases h
  · rename_i hliteral _
    split at h
    · rename_i n hn
      exact absurd hn (hliteral _)
    · rename_i n hn
      exact absurd hn (hliteral _)
    · cases h

namespace Elements

variable (U : Elements)

/-- The value stands for an element that is the same as this one. -/
def means (value : Value) (element : Element) : Prop :=
  ∃ x, standsFor value x ∧ (element = x ∨ U.same element x = true)

theorem means_of_standsFor {element : Element} (h : standsFor value element) : U.means value element :=
  ⟨element, h, .inl rfl⟩

variable {U} {item needle : Value} {x y : Element}

theorem same_of_sameElement (h : sameElement? item needle = some true) (hx : standsFor item x)
    (hy : standsFor needle y) : U.same x y = true := by
  unfold sameElement? at h
  unfold standsFor tells at hx hy
  split at h
  · rename_i a b ha hb
    rw [ha] at hx
    rw [hb] at hy
    obtain rfl : x = .literal a := by simpa using hx
    obtain rfl : y = .literal b := by simpa using hy
    rw [U.same_literal]
    exact Option.some.inj h
  · rename_i a b ha hb
    rw [ha] at hx
    rw [hb] at hy
    obtain rfl : x = .object a := by simpa using hx
    obtain rfl : y = .object b := by simpa using hy
    obtain rfl : a = b := by
      by_contra hne
      rw [if_neg hne] at h
      cases h
    exact U.same_object a
  · cases h

theorem differs_of_sameElement (h : sameElement? item needle = some false) (hx : standsFor item x)
    (hy : standsFor needle y) : U.same x y = false := by
  unfold sameElement? at h
  unfold standsFor tells at hx hy
  split at h
  · rename_i a b ha hb
    rw [ha] at hx
    rw [hb] at hy
    obtain rfl : x = .literal a := by simpa using hx
    obtain rfl : y = .literal b := by simpa using hy
    rw [U.same_literal]
    exact Option.some.inj h
  · split at h <;> cases h
  · cases h

theorem same_of_means (h : sameElement? item needle = some true) (hx : U.means item x) (hy : standsFor needle y) :
    U.same x y = true := by
  obtain ⟨z, hz, rfl | hsame⟩ := hx
  · exact same_of_sameElement h hz hy
  · exact U.same_trans hsame (same_of_sameElement h hz hy)

theorem differs_of_means (h : sameElement? item needle = some false) (hx : U.means item x) (hy : standsFor needle y) :
    U.same x y = false := by
  obtain ⟨z, hz, rfl | hsame⟩ := hx
  · exact differs_of_sameElement h hz hy
  · have hdiffers : U.same z y = false := differs_of_sameElement h hz hy
    by_contra hxy
    have hzy : U.same z y = true := U.same_trans (U.same_symm hsame) (by simpa using hxy)
    rw [hdiffers] at hzy
    cases hzy

end Elements

/-! ## Contents -/

/-- What contents say about items: `exactly` relates the items of complete contents one by one, `loosely` each listed
item of other contents to one that is there. -/
def describes {α β : Type} (exactly loosely : α → β → Prop) (contents : Contents α) (items : List β) : Prop :=
  if contents.complete then List.Forall₂ exactly contents.items items
  else ∀ a ∈ contents.items, ∃ b ∈ items, loosely a b

section
variable {α β : Type} {exactly loosely : α → β → Prop} {contents : Contents α} {items : List β}

theorem describes_complete (h : contents.complete = true) :
    describes exactly loosely contents items ↔ List.Forall₂ exactly contents.items items := by
  rw [describes, if_pos h]

theorem describes_incomplete (h : contents.complete = false) :
    describes exactly loosely contents items ↔ ∀ a ∈ contents.items, ∃ b ∈ items, loosely a b := by
  rw [describes, if_neg (by rw [h]; exact Bool.false_ne_true)]

theorem describes_of_forall₂ {listed : List α} {complete : Bool} (hcomplete : complete = true)
    (h : List.Forall₂ exactly listed items) : describes exactly loosely ⟨listed, complete⟩ items :=
    (describes_complete hcomplete).mpr h

theorem describes_of_occurs {listed : List α} (h : ∀ a ∈ listed, ∃ b ∈ items, loosely a b) :
    describes exactly loosely ⟨listed, false⟩ items := (describes_incomplete rfl).mpr h

theorem describes_nil : describes exactly loosely ({} : Contents α) ([] : List β) := List.Forall₂.nil

/-- Where exactly related items are loosely related, every listed item is there. -/
theorem describes_occurs (hloose : ∀ a b, exactly a b → loosely a b) (h : describes exactly loosely contents items) :
    ∀ a ∈ contents.items, ∃ b ∈ items, loosely a b := by
  intro a ha
  unfold describes at h
  split at h
  · obtain ⟨i, hi, rfl⟩ := mem_iff_getElem.mp ha
    have hlength := h.length_eq
    exact ⟨items[i], getElem_mem _, hloose _ _ (h.get hi (by omega))⟩
  · exact h a ha

theorem size_of_describes {n : Nat} (h : describes exactly loosely contents items) (hn : contents.size? = some n) :
    items.length = n := by
  unfold Contents.size? at hn
  split at hn
  · rename_i hcomplete
    rw [← ((describes_complete hcomplete).mp h).length_eq]
    exact Option.some.inj hn
  · cases hn

theorem isEmpty_of_describes {b : Bool} (hloose : ∀ a b, exactly a b → loosely a b)
    (h : describes exactly loosely contents items) (hb : contents.isEmpty? = some b) : items.isEmpty = b := by
  unfold Contents.isEmpty? at hb
  split at hb
  · rename_i hlisted
    obtain ⟨a, ha⟩ : ∃ a, a ∈ contents.items := exists_mem_of_ne_nil _ (by simpa using hlisted)
    obtain ⟨b', hb', -⟩ := describes_occurs hloose h a ha
    cases hb
    simp [ne_nil_of_mem hb']
  · rename_i hlisted
    split at hb
    · rename_i hcomplete
      have hnil : contents.items = [] := by simpa using hlisted
      have hall := (describes_complete hcomplete).mp h
      rw [hnil] at hall
      cases hall
      exact Option.some.inj hb
    · cases hb

end

/-! ## Places -/

theorem place_here {complete : Bool} {items : List Value} {needle : Value} {i : Nat}
    (h : place needle complete items = .here i) : ∃ item, items[i]? = some item ∧
    sameElement? item needle = some true := by
  unfold place at h
  split at h
  · rename_i j hj
    obtain rfl : j = i := by simpa using h
    obtain ⟨hlt, hsame, -⟩ := List.findIdx?_eq_some_iff_getElem.mp hj
    exact ⟨items[j], List.getElem?_eq_getElem hlt, by simpa using hsame⟩
  · split at h <;> cases h

/-- A value is known to differ from all items. -/
def apart (needle : Value) (items : List Value) : Prop := ∀ item ∈ items, sameElement? item needle = some false

theorem place_absent {complete : Bool} {items : List Value} {needle : Value}
    (h : place needle complete items = .absent) : complete = true ∧ apart needle items := by
  unfold place at h
  split at h
  · cases h
  · split at h
    · rename_i hall
      simp only [Bool.and_eq_true, all_eq_true, beq_iff_eq] at hall
      exact hall
    · cases h

namespace Elements

variable {U : Elements} {complete : Bool} {items : List Value} {elements : List Element} {needle : Value} {x : Element}

theorem present_of_place (hitems : ∀ item ∈ items, ∃ y ∈ elements, U.means item y) (hx : standsFor needle x) {i : Nat}
    (h : place needle complete items = .here i) : ∃ y ∈ elements, U.same y x = true := by
  obtain ⟨item, hitem, hsame⟩ := place_here h
  obtain ⟨y, hy, hmeans⟩ := hitems item (mem_of_getElem? hitem)
  exact ⟨y, hy, same_of_means hsame hmeans hx⟩

theorem absent_of_apart (hitems : List.Forall₂ standsFor items elements) (hx : standsFor needle x)
    (h : apart needle items) : ∀ y ∈ elements, U.same y x = false := by
  intro y hy
  obtain ⟨i, hi, rfl⟩ := mem_iff_getElem.mp hy
  have hlength := hitems.length_eq
  exact differs_of_sameElement (h _ (getElem_mem (by omega))) (hitems.get (by omega) hi) hx

theorem isPresent_of_describes {contents : Contents Value} (h : describes standsFor U.means contents elements)
    (hx : standsFor needle x) {b : Bool} (hb : (place needle contents.complete contents.items).isPresent? = some b) :
    elements.any (U.same · x) = b := by
  cases hplace : place needle contents.complete contents.items with
  | here i =>
    obtain rfl : true = b := by simpa [hplace, Place.isPresent?] using hb
    obtain ⟨y, hy, hsame⟩ := present_of_place (describes_occurs (fun _ _ => U.means_of_standsFor) h) hx hplace
    exact any_eq_true.mpr ⟨y, hy, hsame⟩
  | absent =>
    obtain rfl : false = b := by simpa [hplace, Place.isPresent?] using hb
    obtain ⟨hcomplete, hapart⟩ := place_absent hplace
    have hall := absent_of_apart (U := U) ((describes_complete hcomplete).mp h) hx hapart
    simpa using hall
  | undecided => simp [hplace, Place.isPresent?] at hb

end Elements

/-! ## Methods of lists -/

/-- A call of a method of a list as a run makes it. The items of an argument that the heap does not hold come with
the call. -/
inductive ListCall where
  | add (x : Element)
  | insert (index : Int) (x : Element)
  | addAll (source : Element) (outside : List Element)
  | get (index : Int)
  | set (index : Int) (x : Element)
  | remove (index : Int)
  | contains (x : Element)
  | size
  | isEmpty
  | clear
  | sort

namespace ListCall

/-- The name of the method. -/
def method : ListCall → String
  | .add _ | .insert .. => "add"
  | .addAll .. => "addall"
  | .get _ => "get"
  | .set .. => "set"
  | .remove _ => "remove"
  | .contains _ => "contains"
  | .size => "size"
  | .isEmpty => "isempty"
  | .clear => "clear"
  | .sort => "sort"

/-- The arguments of a call. -/
def args : ListCall → List Element
  | .add x | .contains x => [x]
  | .insert index x | .set index x => [.literal (.integer index), x]
  | .addAll source _ => [source]
  | .get index | .remove index => [.literal (.integer index)]
  | .size | .isEmpty | .clear | .sort => []

end ListCall

/-- The position that an index is in a list of a length. -/
def position? (index : Int) (length : Nat) : Option Nat :=
  if 0 ≤ index ∧ index < length then some index.toNat else none

/-- What a call does to a list: its answer and the items after it, none if it throws. `held?` are the items of an
argument that is a collection. -/
def Elements.listStep (U : Elements) (held? : Option (List Element)) (items : List Element) :
    ListCall → Option (Option Element × List Element)
  | .add x => some (none, items ++ [x])
  | .insert index x => (position? index (items.length + 1)).map fun i => (none, items.take i ++ x :: items.drop i)
  | .addAll .. => held?.map fun held => (none, items ++ held)
  | .get index => (position? index items.length).bind fun i => items[i]?.map fun x => (some x, items)
  | .set index x => (position? index items.length).map fun i => (none, items.set i x)
  | .remove index => (position? index items.length).bind fun i => items[i]?.map fun x => (some x, items.eraseIdx i)
  | .contains x => some (some (.literal (.boolean (items.any (U.same · x)))), items)
  | .size => some (some (.literal (.integer items.length)), items)
  | .isEmpty => some (some (.literal (.boolean items.isEmpty)), items)
  | .clear => some (none, [])
  | .sort => some (none, U.sorted items)

/-- The call can be applied to the contents: what it changes is known. -/
def Elements.listSure (U : Elements) (call : LibraryCall) (contents : Contents Value) (items : List Element) :
    ListCall → Prop
  | .set .. | .remove _ => contents.items = [] ∨ (contents.complete = true ∧ (call.indexArg? 0).isSome)
  | .sort => contents.complete = true → U.sorted items = items
  | _ => True

/-! ## Items one by one -/

section
variable {α β : Type} {R : α → β → Prop} {xs : List α} {ys : List β}

section
variable (h : List.Forall₂ R xs ys)
include h

theorem forall₂_getElem? {i : Nat} {x : α} {y : β} (hx : xs[i]? = some x) (hy : ys[i]? = some y) :
    R x y := by
  obtain ⟨hi, rfl⟩ := List.getElem?_eq_some_iff.mp hx
  obtain ⟨hj, rfl⟩ := List.getElem?_eq_some_iff.mp hy
  exact h.get hi hj

theorem forall₂_insert (i : Nat) {x : α} {y : β} (hxy : R x y) :
    List.Forall₂ R (xs.take i ++ x :: xs.drop i) (ys.take i ++ y :: ys.drop i) :=
  rel_append (forall₂_take i h) (.cons hxy (forall₂_drop i h))

theorem forall₂_set (i : Nat) {x : α} {y : β} (hxy : R x y) : List.Forall₂ R (xs.set i x) (ys.set i y) := by
  induction h generalizing i with
  | nil => exact .nil
  | cons hhead htail ih =>
    cases i with
    | zero => exact .cons hxy htail
    | succ i => exact .cons hhead (ih i)

theorem forall₂_modify (i : Nat) {f : α → α} {g : β → β} (hfg : ∀ x y, R x y → R (f x) (g y)) :
    List.Forall₂ R (xs.modify i f) (ys.modify i g) := by
  induction h generalizing i with
  | nil => cases i <;> exact .nil
  | cons hhead htail ih =>
    cases i with
    | zero => exact .cons (hfg _ _ hhead) htail
    | succ i => exact .cons hhead (ih i)

theorem forall₂_eraseIdx (i : Nat) : List.Forall₂ R (xs.eraseIdx i) (ys.eraseIdx i) := by
  induction h generalizing i with
  | nil => exact .nil
  | cons hhead htail ih =>
    cases i with
    | zero => exact htail
    | succ i => exact .cons hhead (ih i)

end

end

/-! ## Arguments -/

section
variable {call : LibraryCall} {xs : List Element}

theorem exists_arg (hargs : List.Forall₂ standsFor call.args xs) {i : Nat} {x : Element} (hx : xs[i]? = some x) :
    ∃ value, call.arg? i = some value ∧ standsFor value x := by
  obtain ⟨hi, rfl⟩ := List.getElem?_eq_some_iff.mp hx
  have hlength := hargs.length_eq
  exact ⟨call.args[i], List.getElem?_eq_getElem (by omega), hargs.get (by omega) hi⟩

theorem position_of_indexArg {index : Int} {i n length : Nat} (hargs : List.Forall₂ standsFor call.args xs)
    (hx : xs[0]? = some (.literal (.integer index))) (hi : call.indexArg? 0 = some i)
    (hn : position? index length = some n) :
    n = i := by
  obtain ⟨value, hvalue, hstands⟩ := exists_arg hargs hx
  unfold LibraryCall.indexArg? LibraryCall.intArg? at hi
  rw [hvalue] at hi
  obtain ⟨m, hm, hmi⟩ := Option.bind_eq_some_iff.mp hi
  obtain rfl : m = index := standsFor_int hstands hm
  unfold position? at hn
  split at hn
  · rename_i hrange
    rw [if_pos hrange.1] at hmi
    exact (Option.some.inj hn).symm.trans (Option.some.inj hmi)
  · cases hn

theorem position_lt {index : Int} {n length : Nat} (hn : position? index length = some n) : n < length := by
  unfold position? at hn
  split at hn
  · cases hn
    omega
  · cases hn

end

/-! ## The step -/

namespace Elements

variable {U : Elements} {call : LibraryCall} {contents : Contents Value} {items after : List Element}
  {incoming : Option (Contents Value)} {held? : Option (List Element)} {answer : Option Element}

/-- What is to be shown of a method: it describes the items after the call, and its answer is right. -/
def listSound (U : Elements) (outcome : Outcome Value) (answer : Option Element) (after : List Element) : Prop :=
  (∀ value ∈ outcome.1, tells value answer) ∧ describes standsFor U.means outcome.2 after

theorem describes_append {added : Contents Value} {others : List Element}
    (h : describes standsFor U.means contents items) (hadded : describes standsFor U.means added others) :
    describes standsFor U.means ⟨contents.items ++ added.items, contents.complete && added.complete⟩
    (items ++ others) := by
  have hitems := describes_occurs (fun _ _ => U.means_of_standsFor) h
  have hothers := describes_occurs (fun _ _ => U.means_of_standsFor) hadded
  cases hboth : contents.complete && added.complete with
  | true =>
    obtain ⟨hcomplete, hcomplete'⟩ := Bool.and_eq_true_iff.mp hboth
    exact describes_of_forall₂ rfl
      (rel_append ((describes_complete hcomplete).mp h) ((describes_complete hcomplete').mp hadded))
  | false =>
    refine describes_of_occurs fun value hvalue => ?_
    obtain hvalue | hvalue := mem_append.mp hvalue
    · obtain ⟨x, hx, hmeans⟩ := hitems value hvalue
      exact ⟨x, mem_append_left _ hx, hmeans⟩
    · obtain ⟨x, hx, hmeans⟩ := hothers value hvalue
      exact ⟨x, mem_append_right _ hx, hmeans⟩

theorem describes_of_subset (h : describes standsFor U.means contents items) (hsubset : items ⊆ after) :
    describes standsFor U.means contents.incomplete after := by
  refine describes_of_occurs fun value hvalue => ?_
  obtain ⟨x, hx, hmeans⟩ := describes_occurs (fun _ _ => U.means_of_standsFor) h value hvalue
  exact ⟨x, hsubset hx, hmeans⟩

theorem describes_of_nil (hnil : contents.items = []) : describes standsFor U.means contents.incomplete items :=
  describes_of_occurs fun value hvalue => by simp [hnil] at hvalue

theorem describes_insertAt {x : Element} {i? : Option Nat} {i : Nat} (h : describes standsFor U.means contents items)
    (hx : standsFor value x) (hi : ∀ j, i? = some j → j = i) :
    describes standsFor U.means (insertAt contents i? value) (items.take i ++ x :: items.drop i) := by
  have hsubset : items ⊆ items.take i ++ x :: items.drop i := by
    intro y hy
    rw [← take_append_drop i items] at hy
    grind
  have hguess : describes standsFor U.means ⟨contents.items ++ [value], false⟩ (items.take i ++ x :: items.drop i) := by
    refine describes_of_occurs fun other hother => ?_
    obtain hother | hother := mem_append.mp hother
    · exact (describes_incomplete rfl).mp (describes_of_subset h hsubset) other hother
    · obtain rfl := mem_singleton.mp hother
      exact ⟨x, by simp, U.means_of_standsFor hx⟩
  unfold insertAt
  split
  · rename_i j
    obtain rfl := hi j rfl
    split
    · rename_i hinside
      have hcomplete : contents.complete = true := (Bool.and_eq_true_iff.mp hinside).1
      exact describes_of_forall₂ hcomplete (forall₂_insert ((describes_complete hcomplete).mp h) j hx)
    · exact hguess
  · exact hguess

theorem tells_sizeAnswer {α β : Type} {exactly loosely : α → β → Prop} {contents : Contents α} {items : List β}
    (h : describes exactly loosely contents items) :
    ∀ value ∈ sizeAnswer? contents "size", tells value (some (.literal (.integer items.length))) := by
  intro value hvalue
  cases hsize : contents.size? with
  | none => simp [sizeAnswer?, hsize] at hvalue
  | some n =>
    obtain rfl : Value.ofInt n = value := by simpa [sizeAnswer?, hsize] using hvalue
    rw [size_of_describes h hsize]
    exact tells_ofLiteral _

theorem tells_emptyAnswer {α β : Type} {exactly loosely : α → β → Prop} {contents : Contents α} {items : List β}
    (hloose : ∀ a b, exactly a b → loosely a b) (h : describes exactly loosely contents items) :
    ∀ value ∈ sizeAnswer? contents "isempty", tells value (some (.literal (.boolean items.isEmpty))) := by
  intro value hvalue
  obtain ⟨b, hb, rfl⟩ := Option.map_eq_some_iff.mp hvalue
  rw [isEmpty_of_describes hloose h hb]
  exact tells_ofLiteral _

theorem tells_void {answer : Option Element} : ∀ value ∈ some Value.void, tells value answer := by
  rintro value ⟨⟩
  exact tells_unknown ..

/-! ### The calls one by one -/

section

variable {index : Int} {x : Element} {i : Nat} (h : describes standsFor U.means contents items)

include h

theorem listSound_add (hmethod : call.method = "add") (hargs : List.Forall₂ standsFor call.args [x]) :
    listSound U (listMethod call incoming contents) none (items ++ [x]) := by
  obtain ⟨value, hvalue, hx⟩ := exists_arg (i := 0) hargs rfl
  have hlength : call.args.length = 1 := hargs.length_eq
  have hadded : describes standsFor U.means ⟨[value], true⟩ [x] := describes_of_forall₂ rfl (.cons hx .nil)
  have hdescribes := describes_append h hadded
  rw [Bool.and_true] at hdescribes
  simp only [listMethod, hmethod, hlength, hvalue, if_true]
  exact ⟨tells_void, hdescribes⟩

theorem listSound_insert (hmethod : call.method = "add")
    (hargs : List.Forall₂ standsFor call.args [.literal (.integer index), x])
    (hi : position? index (items.length + 1) = some i) :
    listSound U (listMethod call incoming contents) none (items.take i ++ x :: items.drop i) := by
  obtain ⟨value, hvalue, hx⟩ := exists_arg (i := 1) hargs rfl
  have hlength : call.args.length ≠ 1 := by simp [hargs.length_eq]
  simp only [listMethod, hmethod, if_neg hlength, hvalue]
  exact ⟨tells_void, describes_insertAt h hx fun j hj => (position_of_indexArg hargs rfl hj hi).symm⟩

theorem listSound_addAll {others : List Element} (hmethod : call.method = "addall")
    (hincoming : ∀ added ∈ incoming, describes standsFor U.means added others) :
    listSound U (listMethod call incoming contents) none (items ++ others) := by
  simp only [listMethod, hmethod]
  cases incoming with
  | none => exact ⟨tells_void, describes_of_subset h (subset_append_left _ _)⟩
  | some added => exact ⟨tells_void, describes_append h (hincoming added rfl)⟩

theorem listSound_get (hmethod : call.method = "get")
    (hargs : List.Forall₂ standsFor call.args [.literal (.integer index)])
    (hi : position? index items.length = some i) (hx : items[i]? = some x) :
    listSound U (listMethod call incoming contents) (some x) items := by
  simp only [listMethod, hmethod]
  refine ⟨fun value hvalue => ?_, h⟩
  obtain ⟨j, hj, hvalue⟩ := Option.bind_eq_some_iff.mp hvalue
  obtain rfl := position_of_indexArg hargs rfl hj hi
  by_cases hcomplete : contents.complete = true
  · rw [if_pos hcomplete] at hvalue
    exact forall₂_getElem? ((describes_complete hcomplete).mp h) hvalue hx
  · rw [if_neg hcomplete] at hvalue
    cases hvalue

/-- An index that is known finds its item in contents that are complete. -/
theorem inside_of_known {xs : List Element} (hargs : List.Forall₂ standsFor call.args (.literal (.integer index) :: xs))
    (hi : position? index items.length = some i) (hcomplete : contents.complete = true)
    (hknown : (call.indexArg? 0).isSome) :
    call.indexArg? 0 = some i ∧ i < contents.items.length ∧ List.Forall₂ standsFor contents.items items := by
  obtain ⟨j, hj⟩ := Option.isSome_iff_exists.mp hknown
  obtain rfl := position_of_indexArg hargs rfl hj hi
  have hall := (describes_complete hcomplete).mp h
  exact ⟨hj, hall.length_eq ▸ position_lt hi, hall⟩

theorem listSound_set (hmethod : call.method = "set")
    (hargs : List.Forall₂ standsFor call.args [.literal (.integer index), x])
    (hi : position? index items.length = some i)
    (hsure : contents.items = [] ∨ contents.complete = true ∧ (call.indexArg? 0).isSome) :
    listSound U (listMethod call incoming contents) none (items.set i x) := by
  obtain hnil | ⟨hcomplete, hknown⟩ := hsure
  · have hresult : listMethod call incoming contents = (some .void, contents.incomplete) := by
      cases hj : call.indexArg? 0 <;> simp [listMethod, hmethod, hj, hnil]
    rw [hresult]
    exact ⟨tells_void, describes_of_nil hnil⟩
  · obtain ⟨hj, hinside, hall⟩ := inside_of_known h hargs hi hcomplete hknown
    obtain ⟨value, hvalue, hx⟩ := exists_arg (i := 1) hargs rfl
    simp only [listMethod, hmethod, hj, hcomplete, hinside, hvalue, decide_true, Bool.and_true, if_true]
    exact ⟨tells_void, describes_of_forall₂ rfl (forall₂_set hall i hx)⟩

theorem listSound_remove (hmethod : call.method = "remove")
    (hargs : List.Forall₂ standsFor call.args [.literal (.integer index)])
    (hi : position? index items.length = some i) (hx : items[i]? = some x)
    (hsure : contents.items = [] ∨ contents.complete = true ∧ (call.indexArg? 0).isSome) :
    listSound U (listMethod call incoming contents) (some x) (items.eraseIdx i) := by
  obtain hnil | ⟨hcomplete, hknown⟩ := hsure
  · have hresult : listMethod call incoming contents = (none, contents.incomplete) := by
      cases hj : call.indexArg? 0 <;> simp [listMethod, hmethod, hj, hnil]
    rw [hresult]
    exact ⟨by simp, describes_of_nil hnil⟩
  · obtain ⟨hj, hinside, hall⟩ := inside_of_known h hargs hi hcomplete hknown
    simp only [listMethod, hmethod, hj, hcomplete, hinside, decide_true, Bool.and_true, if_true]
    exact ⟨fun value hvalue => forall₂_getElem? hall hvalue hx,
      describes_of_forall₂ rfl (forall₂_eraseIdx hall i)⟩

theorem listSound_contains (hmethod : call.method = "contains") (hargs : List.Forall₂ standsFor call.args [x]) :
    listSound U (listMethod call incoming contents) (some (.literal (.boolean (items.any (U.same · x))))) items := by
  obtain ⟨value, hvalue, hx⟩ := exists_arg (i := 0) hargs rfl
  simp only [listMethod, hmethod, hvalue]
  refine ⟨fun found hfound => ?_, h⟩
  obtain ⟨b, hb, rfl⟩ := Option.map_eq_some_iff.mp hfound
  rw [isPresent_of_describes h hx hb]
  exact tells_ofLiteral _

/-- The list stays as it was, so sorting is right where nothing moves; contents that are not complete say nothing of
the order. -/
theorem listSound_sort (hmethod : call.method = "sort")
    (hsure : contents.complete = true → U.sorted items = items) :
    listSound U (listMethod call incoming contents) none (U.sorted items) := by
  simp only [listMethod, hmethod]
  refine ⟨fun value hvalue => by simp [sizeAnswer?] at hvalue, ?_⟩
  by_cases hcomplete : contents.complete = true
  · rw [hsure hcomplete]
    exact h
  · have hincomplete : contents.incomplete = contents := by
      rw [Contents.incomplete, ← Bool.eq_false_iff.mpr hcomplete]
    rw [← hincomplete]
    exact describes_of_subset h (U.sorted_perm items).symm.subset

end

/-- By cases on the call: what a method answers and what it leaves are right about the list. -/
theorem listMethod_sound (c : ListCall) (hmethod : call.method = c.method)
    (hargs : List.Forall₂ standsFor call.args c.args) (h : describes standsFor U.means contents items)
    (hincoming : ∀ added ∈ incoming, ∀ held ∈ held?, describes standsFor U.means added held)
    (hsure : U.listSure call contents items c) (hstep : U.listStep held? items c = some (answer, after)) :
    listSound U (listMethod call incoming contents) answer after := by
  cases c with
  | add x =>
    cases hstep
    exact listSound_add h hmethod hargs
  | insert index x =>
    obtain ⟨i, hi, hafter⟩ := Option.map_eq_some_iff.mp hstep
    cases hafter
    exact listSound_insert h hmethod hargs hi
  | addAll source outside =>
    obtain ⟨held, hheld, hafter⟩ := Option.map_eq_some_iff.mp hstep
    cases hafter
    exact listSound_addAll h hmethod fun added hadded => hincoming added hadded held hheld
  | get index =>
    obtain ⟨i, hi, hafter⟩ := Option.bind_eq_some_iff.mp hstep
    obtain ⟨x, hx, hafter⟩ := Option.map_eq_some_iff.mp hafter
    cases hafter
    exact listSound_get h hmethod hargs hi hx
  | set index x =>
    obtain ⟨i, hi, hafter⟩ := Option.map_eq_some_iff.mp hstep
    cases hafter
    exact listSound_set h hmethod hargs hi hsure
  | remove index =>
    obtain ⟨i, hi, hafter⟩ := Option.bind_eq_some_iff.mp hstep
    obtain ⟨x, hx, hafter⟩ := Option.map_eq_some_iff.mp hafter
    cases hafter
    exact listSound_remove h hmethod hargs hi hx hsure
  | contains x =>
    cases hstep
    exact listSound_contains h hmethod hargs
  | size =>
    cases hstep
    simp only [listMethod, hmethod, ListCall.method]
    exact ⟨tells_sizeAnswer h, h⟩
  | isEmpty =>
    cases hstep
    simp only [listMethod, hmethod, ListCall.method]
    exact ⟨tells_emptyAnswer (fun _ _ => U.means_of_standsFor) h, h⟩
  | clear =>
    cases hstep
    rw [listMethod_clear hmethod]
    exact ⟨tells_void, describes_nil⟩
  | sort =>
    cases hstep
    exact listSound_sort h hmethod hsure

end Elements

end ApexPaths.Library
