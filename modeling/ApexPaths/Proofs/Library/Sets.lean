import ApexPaths.Proofs.Library.Lists

/-!
Collections whose items are found by a key: the elements of a set are their own keys. Keys of a collection are
distinct, so where an item surely has the key that is looked for, it is the item that a run finds. A change of the
items with a key can be applied when no listed item may have the key, or one surely has it and no other may; in
complete contents no other can.
-/

namespace ApexPaths.Library
set_option autoImplicit false

open List

/-! ## Keys -/

/-- How items of a collection say what they are: their keys, and what they say as items of complete and of other
contents. -/
structure Keyed (U : Elements) (α β : Type) where
  key : α → Value
  name : β → Element
  exactly : α → β → Prop
  loosely : α → β → Prop
  loosely_of_exactly : ∀ a b, exactly a b → loosely a b
  standsFor_name : ∀ a b, exactly a b → standsFor (key a) (name b)
  means_name : ∀ a b, loosely a b → U.means (key a) (name b)

namespace Elements

variable (U : Elements)

/-- Elements under their own name, as sets keep them. -/
def plain : Keyed U Value Element where
  key := id
  name := id
  exactly := standsFor
  loosely := U.means
  loosely_of_exactly _ _ := U.means_of_standsFor
  standsFor_name _ _ h := h
  means_name _ _ h := h

/-- Entries under their key, as maps keep them. -/
def paired : Keyed U (Value × Value) (Element × Element) where
  key := Prod.fst
  name := Prod.fst
  exactly a b := standsFor a.1 b.1 ∧ standsFor a.2 b.2
  loosely a b := U.means a.1 b.1 ∧ standsFor a.2 b.2
  loosely_of_exactly _ _ h := ⟨U.means_of_standsFor h.1, h.2⟩
  standsFor_name _ _ h := h.1
  means_name _ _ h := h.1

@[simp] theorem map_plain_key (listed : List Value) : listed.map U.plain.key = listed := map_id _

@[simp] theorem map_plain_name (elements : List Element) : elements.map U.plain.name = elements := map_id _

/-- No element is there twice. -/
def distinct (elements : List Element) : Prop := elements.Pairwise fun x y => U.same x y = false

/-- The position of an element by its name. -/
def find? {β : Type} (name : β → Element) (items : List β) (x : Element) : Option Nat :=
  items.findIdx? fun b => U.same (name b) x

variable {U}

theorem find?_of_same {β : Type} {name : β → Element} {items : List β} {x : Element} {j : Nat} {b : β}
    (hdistinct : U.distinct (items.map name)) (hb : items[j]? = some b) (hsame : U.same (name b) x = true) :
    U.find? name items x = some j := by
  obtain ⟨hj, rfl⟩ := List.getElem?_eq_some_iff.mp hb
  refine List.findIdx?_eq_some_iff_getElem.mpr ⟨hj, hsame, fun k hk hkx => ?_⟩
  have hdiffers := pairwise_iff_getElem.mp hdistinct k j (by simp; omega) (by simpa using hj) hk
  have hsame' : U.same (name items[k]) (name items[j]) = true := U.same_trans hkx (U.same_symm hsame)
  simp only [getElem_map] at hdiffers
  rw [hdiffers] at hsame'
  cases hsame'

end Elements

namespace Keyed

variable {U : Elements} {α β : Type} (K : Keyed U α β)

/-- What contents say about the items of a collection with keys. -/
def describes (contents : Contents α) (items : List β) : Prop :=
  Library.describes K.exactly K.loosely contents items ∧ U.distinct (items.map K.name)

/-- The change of the items with the key can be applied: none may have it, or the one at a place is surely the one. -/
def surely (contents : Contents α) (needle : Value) : Place → Prop
  | .here i => contents.complete = true ∨ apart needle ((contents.items.eraseIdx i).map K.key)
  | .absent => contents.complete = true
  | .undecided => apart needle (contents.items.map K.key)

variable {K} {contents : Contents α} {items : List β} {needle : Value} {x : Element} {complete : Bool} {i : Nat}

theorem occurs (h : K.describes contents items) : ∀ a ∈ contents.items, ∃ b ∈ items, K.loosely a b :=
  describes_occurs K.loosely_of_exactly h.1

theorem exists_found (h : K.describes contents items) (hx : standsFor needle x)
    (hplace : place needle complete (contents.items.map K.key) = .here i) :
    ∃ a j b, contents.items[i]? = some a ∧ items[j]? = some b ∧ K.loosely a b ∧ U.find? K.name items x = some j ∧
      (contents.complete = true → j = i) := by
  obtain ⟨item, hitem, hsame⟩ := place_here hplace
  rw [List.getElem?_map] at hitem
  obtain ⟨a, ha, rfl⟩ := Option.map_eq_some_iff.mp hitem
  have hfind {j : Nat} {b : β} (hb : items[j]? = some b) (hab : K.loosely a b) : U.find? K.name items x = some j :=
    Elements.find?_of_same h.2 hb (Elements.same_of_means hsame (K.means_name a b hab) hx)
  by_cases hcomplete : contents.complete = true
  · have hall := (describes_complete hcomplete).mp h.1
    obtain ⟨hi, rfl⟩ := List.getElem?_eq_some_iff.mp ha
    have hi' : i < items.length := hall.length_eq ▸ hi
    have hb : items[i]? = some items[i] := List.getElem?_eq_getElem hi'
    have hab : K.loosely contents.items[i] items[i] := K.loosely_of_exactly _ _ (hall.get hi hi')
    exact ⟨contents.items[i], i, items[i], ha, hb, hab, hfind hb hab, fun _ => rfl⟩
  · obtain ⟨b, hmem, hab⟩ := occurs h a (mem_of_getElem? ha)
    obtain ⟨j, hb⟩ := List.getElem?_of_mem hmem
    exact ⟨a, j, b, ha, hb, hab, hfind hb hab, fun hc => absurd hc hcomplete⟩

theorem differs_of_apart (hx : standsFor needle x) {listed : List α} (hapart : apart needle (listed.map K.key))
    {a : α} {b : β} (ha : a ∈ listed) (hab : K.loosely a b) : U.same (K.name b) x = false :=
  Elements.differs_of_means (hapart _ (mem_map_of_mem ha)) (K.means_name a b hab) hx

theorem find?_eq_none (h : K.describes contents items) (hx : standsFor needle x) (hcomplete : contents.complete = true)
    (hapart : apart needle (contents.items.map K.key)) : U.find? K.name items x = none := by
  have hall := (describes_complete hcomplete).mp h.1
  refine List.findIdx?_eq_none_iff.mpr fun b hb => ?_
  obtain ⟨j, hj, rfl⟩ := mem_iff_getElem.mp hb
  have hj' : j < contents.items.length := hall.length_eq ▸ hj
  exact differs_of_apart hx hapart (getElem_mem hj') (K.loosely_of_exactly _ _ (hall.get hj' hj))

/-- An answer is right, and the contents are described as they are after the call. -/
def sound (K : Keyed U α β) (outcome : Outcome α) (answer : Option Element) (after : List β) : Prop :=
  (∀ value ∈ outcome.1, tells value answer) ∧ K.describes outcome.2 after

/-! ## Removal -/

theorem mem_eraseIdx_of_differs {j : Nat} {b : β} (hfind : U.find? K.name items x = some j) (hb : b ∈ items)
    (hdiffers : U.same (K.name b) x = false) : b ∈ items.eraseIdx j := by
  obtain ⟨hj, hsame, -⟩ := List.findIdx?_eq_some_iff_getElem.mp hfind
  obtain ⟨k, hk, rfl⟩ := mem_iff_getElem.mp hb
  refine mem_eraseIdx_iff_getElem.mpr ⟨k, hk, ?_, rfl⟩
  rintro rfl
  rw [hsame] at hdiffers
  cases hdiffers

end Keyed

/-- The items without the one under a name. -/
def Elements.without {β : Type} (U : Elements) (name : β → Element) (items : List β) (x : Element) : List β :=
  match U.find? name items x with
  | some j => items.eraseIdx j
  | none => items

namespace Keyed

variable {U : Elements} {α β : Type} {K : Keyed U α β} {contents : Contents α} {items : List β} {needle : Value}
    {x : Element}

theorem mem_without {b : β} (hb : b ∈ items) (hdiffers : U.same (K.name b) x = false) :
    b ∈ U.without K.name items x := by
  unfold Elements.without
  split
  · exact mem_eraseIdx_of_differs ‹_› hb hdiffers
  · exact hb

theorem distinct_without (h : U.distinct (items.map K.name)) : U.distinct ((U.without K.name items x).map K.name) := by
  unfold Elements.without
  split
  · exact List.Pairwise.sublist ((eraseIdx_sublist _ _).map _) h
  · exact h

/-- What is left of the contents when the items with a key are removed. -/
def removed (contents : Contents α) : Place → Contents α
  | .here i => { contents with items := contents.items.eraseIdx i }
  | .absent => contents
  | .undecided => contents.incomplete

/-- A removal that can be applied keeps the description. -/
theorem describes_removed (h : K.describes contents items) (hx : standsFor needle x)
    (hsure : K.surely contents needle (place needle contents.complete (contents.items.map K.key))) :
    K.describes (removed contents (place needle contents.complete (contents.items.map K.key)))
    (U.without K.name items x) := by
  refine ⟨?_, distinct_without h.2⟩
  cases hplace : place needle contents.complete (contents.items.map K.key) with
  | here i =>
    rw [hplace] at hsure
    obtain ⟨a, j, b, ha, hb, hab, hfind, hji⟩ := exists_found h hx hplace
    by_cases hcomplete : contents.complete = true
    · obtain rfl := hji hcomplete
      have herased := forall₂_eraseIdx ((describes_complete hcomplete).mp h.1) j
      simp only [removed, Elements.without, hfind]
      exact describes_of_forall₂ hcomplete herased
    · have hapart := hsure.resolve_left hcomplete
      simp only [removed, Bool.eq_false_iff.mpr hcomplete]
      refine describes_of_occurs fun a ha => ?_
      obtain ⟨b, hb, hab⟩ := occurs h a (mem_of_mem_eraseIdx ha)
      exact ⟨b, mem_without hb (differs_of_apart hx hapart ha hab), hab⟩
  | absent =>
    obtain ⟨hcomplete, hapart⟩ := place_absent hplace
    simp only [removed, Elements.without, find?_eq_none h hx hcomplete hapart]
    exact h.1
  | undecided =>
    rw [hplace] at hsure
    refine describes_of_occurs fun a ha => ?_
    obtain ⟨b, hb, hab⟩ := occurs h a ha
    exact ⟨b, mem_without hb (differs_of_apart hx hsure ha hab), hab⟩

/-! ## Insertion -/

theorem describes_weakened {after : List β} (h : K.describes contents items) (hsubset : items ⊆ after)
    (hdistinct : U.distinct (after.map K.name)) :
    K.describes contents.incomplete after := by
  refine ⟨describes_of_occurs fun a ha => ?_, hdistinct⟩
  obtain ⟨b, hb, hab⟩ := occurs h a ha
  exact ⟨b, hsubset hb, hab⟩

theorem describes_snoc {a : α} {b : β} (h : K.describes contents items) (hab : K.exactly a b)
    (hnew : U.find? K.name items (K.name b) = none) :
    K.describes ⟨contents.items ++ [a], contents.complete⟩ (items ++ [b]) := by
  constructor
  · by_cases hcomplete : contents.complete = true
    · exact describes_of_forall₂ hcomplete (rel_append ((describes_complete hcomplete).mp h.1) (.cons hab .nil))
    · rw [Bool.eq_false_iff.mpr hcomplete]
      refine describes_of_occurs fun a' ha' => ?_
      obtain ha' | ha' := mem_append.mp ha'
      · obtain ⟨b', hb', hab'⟩ := occurs h a' ha'
        exact ⟨b', mem_append_left _ hb', hab'⟩
      · obtain rfl := mem_singleton.mp ha'
        exact ⟨b, by simp, K.loosely_of_exactly _ _ hab⟩
  · rw [map_append, Elements.distinct, pairwise_append]
    refine ⟨h.2, by simp, fun y hy z hz => ?_⟩
    obtain ⟨b', hb', rfl⟩ := mem_map.mp hy
    obtain rfl : z = K.name b := by simpa using hz
    simpa using List.findIdx?_eq_none_iff.mp hnew b' hb'

end Keyed

/-!
## Sets

What is modelled of a call describes the set after it and gives no wrong answer, with these exceptions: `add` takes
an element that is not listed to be new, also where the contents are not complete; `remove` keeps listed elements
that may be the one that is gone; `removeAll` and `retainAll` are not applied.
-/

/-- A call of a method of a set as a run makes it. -/
inductive SetCall where
  | add (x : Element)
  | addAll (source : Element) (outside : List Element)
  | remove (x : Element)
  | removeAll (source : Element) (outside : List Element)
  | retainAll (source : Element) (outside : List Element)
  | contains (x : Element)
  | size
  | isEmpty
  | clear

namespace SetCall

/-- The name of the method. -/
def method : SetCall → String
  | .add _ => "add"
  | .addAll .. => "addall"
  | .remove _ => "remove"
  | .removeAll .. => "removeall"
  | .retainAll .. => "retainall"
  | .contains _ => "contains"
  | .size => "size"
  | .isEmpty => "isempty"
  | .clear => "clear"

/-- The arguments of a call. -/
def args : SetCall → List Element
  | .add x | .remove x | .contains x => [x]
  | .addAll source _ | .removeAll source _ | .retainAll source _ => [source]
  | .size | .isEmpty | .clear => []

end SetCall

namespace Elements

/-- The answer of a method that tells whether something is so. -/
def yes (b : Bool) : Option Element := some (.literal (.boolean b))

variable (U : Elements)

/-- The elements of a set with one put in, at the end if it is new. -/
def insert (items : List Element) (x : Element) : List Element :=
  match U.find? id items x with
  | some _ => items
  | none => items ++ [x]

/-- What a call does to a set: its answer and the elements after it, none if it throws. -/
def setStep (held? : Option (List Element)) (items : List Element) : SetCall → Option (Option Element × List Element)
  | .add x => some (yes (U.find? id items x).isNone, U.insert items x)
  | .addAll .. => held?.map fun held =>
    (yes (held.any fun x => (U.find? id items x).isNone), held.foldl U.insert items)
  | .remove x => some (yes (U.find? id items x).isSome, U.without id items x)
  | .removeAll .. => held?.map fun held =>
    (yes (items.any fun x => (U.find? id held x).isSome), items.filter fun x => (U.find? id held x).isNone)
  | .retainAll .. => held?.map fun held =>
    (yes (items.any fun x => (U.find? id held x).isNone), items.filter fun x => (U.find? id held x).isSome)
  | .contains x => some (yes (items.any (U.same · x)), items)
  | .size => some (some (.literal (.integer items.length)), items)
  | .isEmpty => some (yes items.isEmpty, items)
  | .clear => some (none, [])

/-- The call can be applied to the contents, or changes nothing. -/
def setSure (call : LibraryCall) (contents : Contents Value) (items after : List Element) : SetCall → Prop
  | .add _ => ∀ value ∈ call.arg? 0, place value true contents.items = .absent → contents.complete = true
  | .remove _ => ∀ value ∈ call.arg? 0, U.plain.surely contents value (place value contents.complete contents.items)
  | .removeAll .. | .retainAll .. => after = items
  | _ => True

variable {U} {contents added : Contents Value} {items held after : List Element} {value : Value} {x y z : Element}

theorem means_of_same (hsame : U.same z y = true) (h : U.means value y) : U.means value z := by
  obtain ⟨x, hx, rfl | hyx⟩ := h
  · exact ⟨y, hx, .inr hsame⟩
  · exact ⟨x, hx, .inr (U.same_trans hsame hyx)⟩

theorem subset_insert : items ⊆ U.insert items x := by
  unfold insert
  split
  · exact List.Subset.refl _
  · exact subset_append_left _ _

theorem exists_mem_insert (h : U.means value x) : ∃ y ∈ U.insert items x, U.means value y := by
  unfold insert
  split
  · rename_i j hj
    obtain ⟨hlt, hsame, -⟩ := List.findIdx?_eq_some_iff_getElem.mp hj
    exact ⟨items[j], getElem_mem hlt, means_of_same hsame h⟩
  · exact ⟨x, by simp, h⟩

theorem distinct_insert (h : U.distinct items) : U.distinct (U.insert items x) := by
  unfold insert
  split
  · exact h
  · rename_i hnew
    refine pairwise_append.mpr ⟨h, by simp, fun y hy z hz => ?_⟩
    obtain rfl : z = x := by simpa using hz
    simpa using List.findIdx?_eq_none_iff.mp hnew y hy

section
variable (h : U.plain.describes contents items)
include h

section
variable (hx : standsFor value x)
include hx

theorem describes_guess :
    U.plain.describes ⟨contents.items ++ [value], false⟩ (U.insert items x) := by
  have hdistinct : U.distinct items := by simpa using h.2
  refine ⟨describes_of_occurs fun other hother => ?_, by simpa using distinct_insert hdistinct⟩
  obtain hother | hother := mem_append.mp hother
  · obtain ⟨y, hy, hmeans⟩ := Keyed.occurs h other hother
    exact ⟨y, subset_insert hy, hmeans⟩
  · obtain rfl := mem_singleton.mp hother
    exact exists_mem_insert (U.means_of_standsFor hx)

theorem exists_find?_of_place {complete : Bool} {i : Nat}
    (hplace : place value complete contents.items = .here i) : ∃ j, U.find? id items x = some j := by
  rw [← U.map_plain_key contents.items] at hplace
  obtain ⟨-, j, -, -, -, -, hfind, -⟩ := Keyed.exists_found h hx hplace
  exact ⟨j, hfind⟩

theorem find?_of_absent {complete : Bool}
    (hplace : place value complete contents.items = .absent) (hcomplete : contents.complete = true) :
    U.find? id items x = none := by
  rw [← U.map_plain_key contents.items] at hplace
  exact Keyed.find?_eq_none h hx hcomplete (place_absent hplace).2

theorem describes_insertItem :
    U.plain.describes (insertItem contents value).2 (U.insert items x) := by
  unfold insertItem
  cases hplace : place value true contents.items with
  | here i =>
    obtain ⟨j, hfind⟩ := exists_find?_of_place h hx hplace
    simp only [insert, hfind]
    exact h
  | absent =>
    by_cases hcomplete : contents.complete = true
    · have hnew := find?_of_absent h hx hplace hcomplete
      simp only [insert, hnew]
      exact Keyed.describes_snoc h hx hnew
    · simp only [Bool.eq_false_iff.mpr hcomplete]
      exact describes_guess h hx
  | undecided => exact describes_guess h hx

end

theorem describes_insertAll {listed : List Value} (hheld : List.Forall₂ standsFor listed held) :
    U.plain.describes (listed.foldl (fun contents item => (insertItem contents item).2) contents)
    (held.foldl U.insert items) := by
  induction hheld generalizing contents items with
  | nil => exact h
  | cons hx _ ih => exact ih (describes_insertItem h hx)

end

theorem mem_insertItem {other : Value} (h : other ∈ (insertItem contents value).2.items) :
    other ∈ contents.items ∨ other = value := by
  unfold insertItem at h
  split at h
  · exact .inl h
  · simpa using h
  · simpa using h

theorem mem_insertAll {other : Value} {listed : List Value}
    (h : other ∈ (listed.foldl (fun contents item => (insertItem contents item).2) contents).items) :
    other ∈ contents.items ∨ other ∈ listed := by
  induction listed generalizing contents with
  | nil => exact .inl h
  | cons value rest ih =>
    obtain h | h := ih h
    · obtain h | rfl := mem_insertItem h
      · exact .inl h
      · exact .inr mem_cons_self
    · exact .inr (mem_cons_of_mem _ h)

theorem subset_insertAll : items ⊆ held.foldl U.insert items := by
  induction held generalizing items with
  | nil => exact List.Subset.refl _
  | cons x rest ih => exact List.Subset.trans subset_insert ih

theorem exists_mem_insertAll (hx : x ∈ held) (h : U.means value x) :
    ∃ y ∈ held.foldl U.insert items, U.means value y := by
  induction held generalizing items with
  | nil => cases hx
  | cons x' rest ih =>
    obtain rfl | hx := mem_cons.mp hx
    · obtain ⟨y, hy, hmeans⟩ : ∃ y ∈ U.insert items x, U.means value y := exists_mem_insert h
      have hsubset : U.insert items x ⊆ rest.foldl U.insert (U.insert items x) := subset_insertAll
      exact ⟨y, hsubset hy, hmeans⟩
    · exact ih hx

theorem distinct_insertAll (h : U.distinct items) : U.distinct (held.foldl U.insert items) := by
  induction held generalizing items with
  | nil => exact h
  | cons x rest ih => exact ih (distinct_insert h)

theorem describes_joined (h : U.plain.describes contents items) (hadded : describes standsFor U.means added held) :
    let joined := added.items.foldl (fun contents item => (insertItem contents item).2) contents
    U.plain.describes { joined with complete := joined.complete && added.complete } (held.foldl U.insert items) := by
  intro joined
  by_cases hcomplete : added.complete = true
  · rw [hcomplete, Bool.and_true]
    exact describes_insertAll h ((describes_complete hcomplete).mp hadded)
  · rw [Bool.eq_false_iff.mpr hcomplete, Bool.and_false]
    refine ⟨describes_of_occurs fun other hother => ?_, by simpa using distinct_insertAll (by simpa using h.2)⟩
    obtain hother | hother := mem_insertAll hother
    · obtain ⟨y, hy, hmeans⟩ := Keyed.occurs h other hother
      exact ⟨y, subset_insertAll hy, hmeans⟩
    · obtain ⟨y, hy, hmeans⟩ := describes_occurs (fun _ _ => U.means_of_standsFor) hadded other hother
      exact exists_mem_insertAll hy hmeans

theorem tells_yes (b : Bool) : tells (.ofBool b) (yes b) := tells_ofLiteral _

/-! ### The calls one by one -/

section

variable {call : LibraryCall} {incoming : Option (Contents Value)} (h : U.plain.describes contents items)

include h

theorem setSound_add (hmethod : call.method = "add") (hargs : List.Forall₂ standsFor call.args [x])
    (hsure : ∀ value ∈ call.arg? 0, place value true contents.items = .absent → contents.complete = true) :
    U.plain.sound (setMethod call incoming contents) (yes (U.find? id items x).isNone) (U.insert items x) := by
  obtain ⟨value, hvalue, hx⟩ := exists_arg (i := 0) hargs rfl
  simp only [setMethod, hmethod, hvalue]
  refine ⟨fun found hfound => ?_, describes_insertItem h hx⟩
  unfold insertItem at hfound
  cases hplace : place value true contents.items with
  | here i =>
    obtain ⟨j, hfind⟩ := exists_find?_of_place h hx hplace
    obtain rfl : Value.ofBool false = found := by simpa [hplace] using hfound
    rw [hfind]
    exact tells_yes _
  | absent =>
    obtain rfl : Value.ofBool true = found := by simpa [hplace] using hfound
    rw [find?_of_absent h hx hplace (hsure value hvalue hplace)]
    exact tells_yes _
  | undecided => simp [hplace] at hfound

/-- Where the other collection is unknown the answer is, and the contents may have more than is listed. -/
theorem setSound_addAll (hmethod : call.method = "addall")
    (hincoming : ∀ added ∈ incoming, describes standsFor U.means added held) (answer : Option Element) :
    U.plain.sound (setMethod call incoming contents) answer (held.foldl U.insert items) := by
  simp only [setMethod, hmethod]
  cases incoming with
  | none =>
    exact ⟨fun _ hfound => (by cases hfound),
      Keyed.describes_weakened h subset_insertAll (by simpa using distinct_insertAll (by simpa using h.2))⟩
  | some added => exact ⟨fun _ hfound => (by cases hfound), describes_joined h (hincoming added rfl)⟩

theorem setSound_remove (hmethod : call.method = "remove") (hargs : List.Forall₂ standsFor call.args [x])
    (hsure : ∀ value ∈ call.arg? 0, U.plain.surely contents value (place value contents.complete contents.items)) :
    U.plain.sound (setMethod call incoming contents) (yes (U.find? id items x).isSome) (U.without id items x) := by
  obtain ⟨value, hvalue, hx⟩ := exists_arg (i := 0) hargs rfl
  have hremoved := Keyed.describes_removed h hx (by simpa using hsure value hvalue)
  rw [map_plain_key] at hremoved
  cases hplace : place value contents.complete contents.items with
  | here i =>
    obtain ⟨j, hfind⟩ := exists_find?_of_place h hx hplace
    rw [hplace] at hremoved
    simp only [setMethod, hmethod, hvalue, hplace, hfind]
    refine ⟨?_, hremoved⟩
    rintro found ⟨⟩
    exact tells_yes _
  | absent =>
    have hnone := find?_of_absent h hx hplace (place_absent hplace).1
    rw [hplace] at hremoved
    simp only [setMethod, hmethod, hvalue, hplace, hnone]
    refine ⟨?_, hremoved⟩
    rintro found ⟨⟩
    exact tells_yes _
  | undecided =>
    rw [hplace] at hremoved
    simp only [setMethod, hmethod, hvalue, hplace]
    exact ⟨fun _ hfound => (by cases hfound), hremoved⟩

theorem setSound_contains (hmethod : call.method = "contains") (hargs : List.Forall₂ standsFor call.args [x]) :
    U.plain.sound (setMethod call incoming contents) (yes (items.any (U.same · x))) items := by
  obtain ⟨value, hvalue, hx⟩ := exists_arg (i := 0) hargs rfl
  simp only [setMethod, hmethod, hvalue]
  refine ⟨fun found hfound => ?_, h⟩
  obtain ⟨b, hb, rfl⟩ := Option.map_eq_some_iff.mp hfound
  rw [isPresent_of_describes h.1 hx hb]
  exact tells_yes _

end

/-- By cases on the call: what a method answers and what it leaves are right about the set. -/
theorem setMethod_sound {call : LibraryCall} {incoming : Option (Contents Value)} {held? : Option (List Element)}
    {answer : Option Element} (c : SetCall) (hmethod : call.method = c.method)
    (hargs : List.Forall₂ standsFor call.args c.args)
    (h : U.plain.describes contents items)
    (hincoming : ∀ added ∈ incoming, ∀ held ∈ held?, describes standsFor U.means added held)
    (hsure : U.setSure call contents items after c) (hstep : U.setStep held? items c = some (answer, after)) :
    U.plain.sound (setMethod call incoming contents) answer after := by
  cases c with
  | add x =>
    cases hstep
    exact setSound_add h hmethod hargs hsure
  | addAll source outside =>
    obtain ⟨held, hheld, hafter⟩ := Option.map_eq_some_iff.mp hstep
    cases hafter
    exact setSound_addAll h hmethod (fun added hadded => hincoming added hadded held hheld) _
  | remove x =>
    cases hstep
    exact setSound_remove h hmethod hargs hsure
  | removeAll source outside | retainAll source outside =>
    obtain rfl : after = items := hsure
    simp only [setMethod, hmethod, SetCall.method]
    exact ⟨fun _ hfound => (by simp [sizeAnswer?] at hfound), h⟩
  | contains x =>
    cases hstep
    exact setSound_contains h hmethod hargs
  | size =>
    cases hstep
    simp only [setMethod, hmethod, SetCall.method]
    exact ⟨tells_sizeAnswer h.1, h⟩
  | isEmpty =>
    cases hstep
    simp only [setMethod, hmethod, SetCall.method]
    exact ⟨tells_emptyAnswer U.plain.loosely_of_exactly h.1, h⟩
  | clear =>
    cases hstep
    simp only [setMethod, hmethod, SetCall.method]
    exact ⟨tells_void, describes_nil, List.Pairwise.nil⟩

end Elements

end ApexPaths.Library
