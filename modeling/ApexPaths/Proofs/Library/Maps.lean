import ApexPaths.Proofs.Library.Sets

/-!
The methods of maps, as a run has them and as they are modelled. What is modelled of a call describes the map after
it and gives no wrong answer, with these exceptions: `put` takes a key that is not listed to be new, also where the
contents are not complete; `put` and `remove` keep listed entries that may be the one that is changed; `putAll` is
not applied.
-/

namespace ApexPaths.Library
set_option autoImplicit false

open List

/-- A call of a method of a map as a run makes it. -/
inductive MapCall where
  | put (k v : Element)
  | putAll (source : Element) (outside : List (Element × Element))
  | get (k : Element)
  | containsKey (k : Element)
  | remove (k : Element)
  | size
  | isEmpty
  | clear

namespace MapCall

/-- The name of the method. -/
def method : MapCall → String
  | .put .. => "put"
  | .putAll .. => "putall"
  | .get _ => "get"
  | .containsKey _ => "containskey"
  | .remove _ => "remove"
  | .size => "size"
  | .isEmpty => "isempty"
  | .clear => "clear"

/-- The arguments of a call. -/
def args : MapCall → List Element
  | .put k v => [k, v]
  | .putAll source _ => [source]
  | .get k | .containsKey k | .remove k => [k]
  | .size | .isEmpty | .clear => []

end MapCall

namespace Elements

variable (U : Elements)

/-- What a map gives for a key, null where it has none. -/
def valueAt (entries : List (Element × Element)) (k : Element) : Element :=
  match (U.find? Prod.fst entries k).bind (entries[·]?) with
  | some entry => entry.2
  | none => .literal .null

/-- The entries of a map with a value put at a key: in the place of the value that is there, else at the end. -/
def putEntry (entries : List (Element × Element)) (k v : Element) : List (Element × Element) :=
  match U.find? Prod.fst entries k with
  | some j => entries.modify j fun entry => (entry.1, v)
  | none => entries ++ [(k, v)]

/-- What a call does to a map: its answer and the entries after it, none if it throws. -/
def mapStep (held? : Option (List (Element × Element))) (entries : List (Element × Element)) :
    MapCall → Option (Option Element × List (Element × Element))
  | .put k v => some (some (U.valueAt entries k), U.putEntry entries k v)
  | .putAll .. =>
    held?.map fun held => (none, held.foldl (fun entries entry => U.putEntry entries entry.1 entry.2) entries)
  | .get k => some (some (U.valueAt entries k), entries)
  | .containsKey k => some (yes ((entries.map Prod.fst).any (U.same · k)), entries)
  | .remove k => some (some (U.valueAt entries k), U.without Prod.fst entries k)
  | .size => some (some (.literal (.integer entries.length)), entries)
  | .isEmpty => some (yes entries.isEmpty, entries)
  | .clear => some (none, [])

/-- The call can be applied to the contents, or changes nothing. -/
def mapSure (call : LibraryCall) (contents : Contents (Value × Value)) (entries after : List (Element × Element)) :
    MapCall → Prop
  | .put .. => ∀ key ∈ call.arg? 0, U.paired.surely contents key (place key true (contents.items.map Prod.fst))
  | .remove _ =>
    ∀ key ∈ call.arg? 0, U.paired.surely contents key (place key contents.complete (contents.items.map Prod.fst))
  | .putAll .. => after = entries
  | _ => True

variable {U} {contents : Contents (Value × Value)} {entries after : List (Element × Element)} {key value : Value}
    {k v : Element}

section
variable (h : U.paired.describes contents entries)
include h

theorem describes_keys :
    U.plain.describes ⟨contents.items.map Prod.fst, contents.complete⟩ (entries.map Prod.fst) := by
  refine ⟨?_, by rw [map_plain_name]; exact h.2⟩
  by_cases hcomplete : contents.complete = true
  · refine describes_of_forall₂ hcomplete ?_
    rw [forall₂_map_left_iff, forall₂_map_right_iff]
    exact ((describes_complete hcomplete).mp h.1).imp fun _ _ hab => hab.1
  · rw [Bool.eq_false_iff.mpr hcomplete]
    refine describes_of_occurs fun item hitem => ?_
    obtain ⟨a, ha, rfl⟩ := mem_map.mp hitem
    obtain ⟨b, hb, hab⟩ := Keyed.occurs h a ha
    exact ⟨b.1, mem_map_of_mem hb, hab.1⟩

theorem describes_values :
    describes standsFor U.means ⟨contents.items.map Prod.snd, contents.complete⟩ (entries.map Prod.snd) := by
  by_cases hcomplete : contents.complete = true
  · refine describes_of_forall₂ hcomplete ?_
    rw [forall₂_map_left_iff, forall₂_map_right_iff]
    exact ((describes_complete hcomplete).mp h.1).imp fun _ _ hab => hab.2
  · rw [Bool.eq_false_iff.mpr hcomplete]
    refine describes_of_occurs fun item hitem => ?_
    obtain ⟨a, ha, rfl⟩ := mem_map.mp hitem
    obtain ⟨b, hb, hab⟩ := Keyed.occurs h a ha
    exact ⟨b.2, mem_map_of_mem hb, U.means_of_standsFor hab.2⟩

theorem standsFor_valueAt {complete : Bool} {i : Nat} {a : Value × Value}
    (hk : standsFor key k) (hplace : place key complete (contents.items.map Prod.fst) = .here i)
    (ha : contents.items[i]? = some a) :
    standsFor a.2 (U.valueAt entries k) := by
  obtain ⟨a', j, b, ha', hb, hab, hfind, -⟩ := Keyed.exists_found h hk hplace
  cases ha.symm.trans ha'
  have hvalue : U.valueAt entries k = b.2 := by
    simp only [valueAt, show U.find? Prod.fst entries k = some j from hfind, Option.bind_some, hb]
  rw [hvalue]
  exact hab.2

theorem valueAt_of_absent {complete : Bool} (hk : standsFor key k)
    (hplace : place key complete (contents.items.map Prod.fst) = .absent) (hcomplete : contents.complete = true) :
    U.valueAt entries k = .literal .null := by
  have hnone : U.find? Prod.fst entries k = none := Keyed.find?_eq_none h hk hcomplete (place_absent hplace).2
  simp only [valueAt, hnone, Option.bind_none]

end

theorem mem_putEntry_of_find? {j : Nat} {b : Element × Element} (hfind : U.find? Prod.fst entries k = some j)
    (hb : entries[j]? = some b) : (b.1, v) ∈ U.putEntry entries k v := by
  simp only [putEntry, hfind]
  exact mem_of_getElem? (i := j) (by simp [hb])

theorem mem_putEntry_of_differs {b : Element × Element} (hb : b ∈ entries) (hdiffers : U.same b.1 k = false) :
    b ∈ U.putEntry entries k v := by
  unfold putEntry
  split
  · rename_i j hj
    obtain ⟨hlt, hsame, -⟩ := List.findIdx?_eq_some_iff_getElem.mp hj
    obtain ⟨m, hm, rfl⟩ := mem_iff_getElem.mp hb
    have hne : j ≠ m := by
      rintro rfl
      rw [hsame] at hdiffers
      cases hdiffers
    exact mem_of_getElem? (i := m) (by simp [hne, hm])
  · exact mem_append_left _ hb

theorem exists_mem_putEntry (hk : standsFor key k) : ∃ b ∈ U.putEntry entries k v, U.means key b.1 ∧ b.2 = v := by
  cases hfind : U.find? Prod.fst entries k with
  | some j =>
    obtain ⟨hlt, hsame, -⟩ := List.findIdx?_eq_some_iff_getElem.mp hfind
    exact ⟨_, mem_putEntry_of_find? hfind (List.getElem?_eq_getElem hlt), ⟨k, hk, .inr hsame⟩, rfl⟩
  | none => exact ⟨(k, v), by simp [putEntry, hfind], U.means_of_standsFor hk, rfl⟩

theorem distinct_putEntry (h : U.distinct (entries.map Prod.fst)) :
    U.distinct ((U.putEntry entries k v).map Prod.fst) := by
  unfold putEntry
  split
  · rename_i j _
    have hkeys : (entries.modify j fun entry => (entry.1, v)).map Prod.fst = entries.map Prod.fst := by
      apply ext_getElem?
      intro m
      rw [List.getElem?_map, List.getElem?_modify, List.getElem?_map]
      cases entries[m]? with
      | none => rfl
      | some entry => by_cases hm : j = m <;> simp [hm]
    rw [hkeys]
    exact h
  · rename_i hnew
    rw [map_append]
    refine pairwise_append.mpr ⟨h, by simp, fun y hy z hz => ?_⟩
    obtain ⟨b, hb, rfl⟩ := mem_map.mp hy
    obtain rfl : z = k := by simpa using hz
    simpa using List.findIdx?_eq_none_iff.mp hnew b hb

theorem mem_modify {α : Type} {items : List α} {i : Nat} {f : α → α} {a : α} (h : a ∈ items.modify i f) :
    a ∈ items.eraseIdx i ∨ ∃ a', items[i]? = some a' ∧ a = f a' := by
  obtain ⟨m, hm, rfl⟩ := mem_iff_getElem.mp h
  have hm' : m < items.length := by simpa using hm
  by_cases heq : i = m
  · subst heq
    exact .inr ⟨items[i], List.getElem?_eq_getElem hm', by simp⟩
  · rw [getElem_modify, if_neg heq]
    exact .inl (mem_eraseIdx_iff_getElem.mpr ⟨m, hm', Ne.symm heq, rfl⟩)

/-- What is left of the contents when a value is put at a key. -/
def putInto (contents : Contents (Value × Value)) (key value : Value) : Place → Contents (Value × Value)
  | .here i => { contents with items := contents.items.modify i fun entry => (entry.1, value) }
  | .absent => { contents with items := contents.items ++ [(key, value)] }
  | .undecided => ⟨contents.items ++ [(key, value)], false⟩

/-- A `put` that can be applied keeps the description. -/
theorem describes_putInto (h : U.paired.describes contents entries) (hk : standsFor key k) (hv : standsFor value v)
    (hsure : U.paired.surely contents key (place key true (contents.items.map Prod.fst))) :
    U.paired.describes (putInto contents key value (place key true (contents.items.map Prod.fst)))
    (U.putEntry entries k v) := by
  refine ⟨?_, distinct_putEntry h.2⟩
  cases hplace : place key true (contents.items.map Prod.fst) with
  | here i =>
    rw [hplace] at hsure
    obtain ⟨a, j, b, ha, hb, hab, hfind, hji⟩ := Keyed.exists_found h hk hplace
    by_cases hcomplete : contents.complete = true
    · obtain rfl := hji hcomplete
      simp only [putInto, putEntry, show U.find? Prod.fst entries k = some j from hfind]
      refine describes_of_forall₂ hcomplete ?_
      exact forall₂_modify ((describes_complete hcomplete).mp h.1) j fun _ _ hab => ⟨hab.1, hv⟩
    · have hapart := hsure.resolve_left hcomplete
      simp only [putInto, Bool.eq_false_iff.mpr hcomplete]
      refine describes_of_occurs fun entry hentry => ?_
      obtain hentry | ⟨a', ha', rfl⟩ := mem_modify hentry
      · obtain ⟨b', hb', hab'⟩ := Keyed.occurs h entry (mem_of_mem_eraseIdx hentry)
        exact ⟨b', mem_putEntry_of_differs hb' (Keyed.differs_of_apart hk hapart hentry hab'), hab'⟩
      · cases ha.symm.trans ha'
        exact ⟨(b.1, v), mem_putEntry_of_find? hfind hb, hab.1, hv⟩
  | absent =>
    rw [hplace] at hsure
    have hnew : U.find? Prod.fst entries k = none := Keyed.find?_eq_none h hk hsure (place_absent hplace).2
    simp only [putInto, putEntry, hnew]
    exact (Keyed.describes_snoc (K := U.paired) (a := (key, value)) (b := (k, v)) h ⟨hk, hv⟩ hnew).1
  | undecided =>
    rw [hplace] at hsure
    refine describes_of_occurs fun entry hentry => ?_
    obtain hentry | hentry := mem_append.mp hentry
    · obtain ⟨b, hb, hab⟩ := Keyed.occurs h entry hentry
      exact ⟨b, mem_putEntry_of_differs hb (Keyed.differs_of_apart hk hsure hentry hab), hab⟩
    · obtain rfl := mem_singleton.mp hentry
      obtain ⟨b, hb, hmeans, rfl⟩ : ∃ b ∈ U.putEntry entries k v, U.means key b.1 ∧ b.2 = v := exists_mem_putEntry hk
      exact ⟨b, hb, hmeans, hv⟩

theorem tells_nullOf (type : String) : tells (.nullOf type) (some (.literal .null)) := rfl

/-! ### The calls one by one -/

section

variable {call : LibraryCall} (h : U.paired.describes contents entries) (type : String)

include h

theorem mapSound_put (hmethod : call.method = "put") (hargs : List.Forall₂ standsFor call.args [k, v])
    (hsure : ∀ key ∈ call.arg? 0, U.paired.surely contents key (place key true (contents.items.map Prod.fst))) :
    U.paired.sound (mapMethod call type contents) (some (U.valueAt entries k)) (U.putEntry entries k v) := by
  obtain ⟨key, hkey, hk⟩ := exists_arg (i := 0) hargs rfl
  obtain ⟨value, hvalue, hv⟩ := exists_arg (i := 1) hargs rfl
  have hput := describes_putInto h hk hv (hsure key hkey)
  have hsurely := hsure key hkey
  cases hplace : place key true (contents.items.map Prod.fst) with
  | here i =>
    rw [hplace] at hput
    simp only [mapMethod, hmethod, hkey, hvalue, hplace]
    refine ⟨fun found hfound => ?_, hput⟩
    obtain ⟨a, ha, rfl⟩ := Option.map_eq_some_iff.mp hfound
    exact standsFor_valueAt h hk hplace ha
  | absent =>
    rw [hplace] at hput hsurely
    simp only [mapMethod, hmethod, hkey, hvalue, hplace, valueAt_of_absent h hk hplace hsurely]
    refine ⟨?_, hput⟩
    rintro found ⟨⟩
    exact tells_nullOf _
  | undecided =>
    rw [hplace] at hput
    simp only [mapMethod, hmethod, hkey, hvalue, hplace]
    exact ⟨fun _ hfound => (by cases hfound), hput⟩

theorem mapSound_get (hmethod : call.method = "get") (hargs : List.Forall₂ standsFor call.args [k]) :
    U.paired.sound (mapMethod call type contents) (some (U.valueAt entries k)) entries := by
  obtain ⟨key, hkey, hk⟩ := exists_arg (i := 0) hargs rfl
  simp only [mapMethod, hmethod, hkey]
  refine ⟨fun found hfound => ?_, h⟩
  cases hplace : place key contents.complete (contents.items.map Prod.fst) with
  | here i =>
    obtain ⟨a, ha, rfl⟩ : ∃ a, contents.items[i]? = some a ∧ a.2 = found := by simpa [hplace] using hfound
    exact standsFor_valueAt h hk hplace ha
  | absent =>
    obtain rfl : Value.nullOf type = found := by simpa [hplace] using hfound
    rw [valueAt_of_absent h hk hplace (place_absent hplace).1]
    exact tells_nullOf _
  | undecided => simp [hplace] at hfound

theorem mapSound_containsKey (hmethod : call.method = "containskey") (hargs : List.Forall₂ standsFor call.args [k]) :
    U.paired.sound (mapMethod call type contents) (yes ((entries.map Prod.fst).any (U.same · k))) entries := by
  obtain ⟨key, hkey, hk⟩ := exists_arg (i := 0) hargs rfl
  simp only [mapMethod, hmethod, hkey]
  refine ⟨fun found hfound => ?_, h⟩
  obtain ⟨b, hb, rfl⟩ := Option.map_eq_some_iff.mp hfound
  rw [isPresent_of_describes (describes_keys h).1 hk hb]
  exact tells_yes _

theorem mapSound_remove (hmethod : call.method = "remove") (hargs : List.Forall₂ standsFor call.args [k])
    (hsure : ∀ key ∈ call.arg? 0,
    U.paired.surely contents key (place key contents.complete (contents.items.map Prod.fst))) :
    U.paired.sound (mapMethod call type contents) (some (U.valueAt entries k)) (U.without Prod.fst entries k) := by
  obtain ⟨key, hkey, hk⟩ := exists_arg (i := 0) hargs rfl
  have hremoved := Keyed.describes_removed h hk (hsure key hkey)
  cases hplace : place key contents.complete (contents.items.map Prod.fst) with
  | here i =>
    rw [show place key contents.complete (contents.items.map U.paired.key) = .here i from hplace] at hremoved
    simp only [mapMethod, hmethod, hkey, hplace]
    refine ⟨fun found hfound => ?_, hremoved⟩
    obtain ⟨a, ha, rfl⟩ := Option.map_eq_some_iff.mp hfound
    exact standsFor_valueAt h hk hplace ha
  | absent =>
    rw [show place key contents.complete (contents.items.map U.paired.key) = .absent from hplace] at hremoved
    simp only [mapMethod, hmethod, hkey, hplace, valueAt_of_absent h hk hplace (place_absent hplace).1]
    refine ⟨?_, hremoved⟩
    rintro found ⟨⟩
    exact tells_nullOf _
  | undecided =>
    rw [show place key contents.complete (contents.items.map U.paired.key) = .undecided from hplace] at hremoved
    simp only [mapMethod, hmethod, hkey, hplace]
    exact ⟨fun _ hfound => (by cases hfound), hremoved⟩

end

/-- By cases on the call: what a method answers and what it leaves are right about the map. -/
theorem mapMethod_sound {call : LibraryCall} {held? : Option (List (Element × Element))} {answer : Option Element}
    (type : String) (c : MapCall) (hmethod : call.method = c.method) (hargs : List.Forall₂ standsFor call.args c.args)
    (h : U.paired.describes contents entries) (hsure : U.mapSure call contents entries after c)
    (hstep : U.mapStep held? entries c = some (answer, after)) :
    U.paired.sound (mapMethod call type contents) answer after := by
  cases c with
  | put k v =>
    cases hstep
    exact mapSound_put h type hmethod hargs hsure
  | putAll source outside =>
    obtain rfl : after = entries := hsure
    simp only [mapMethod, hmethod, MapCall.method]
    exact ⟨fun _ hfound => (by simp [sizeAnswer?] at hfound), h⟩
  | get k =>
    cases hstep
    exact mapSound_get h type hmethod hargs
  | containsKey k =>
    cases hstep
    exact mapSound_containsKey h type hmethod hargs
  | remove k =>
    cases hstep
    exact mapSound_remove h type hmethod hargs hsure
  | size =>
    cases hstep
    simp only [mapMethod, hmethod, MapCall.method]
    exact ⟨tells_sizeAnswer h.1, h⟩
  | isEmpty =>
    cases hstep
    simp only [mapMethod, hmethod, MapCall.method]
    exact ⟨tells_emptyAnswer U.paired.loosely_of_exactly h.1, h⟩
  | clear =>
    cases hstep
    simp only [mapMethod, hmethod, MapCall.method]
    exact ⟨tells_void, describes_nil, List.Pairwise.nil⟩

end Elements

end ApexPaths.Library
