import ApexPaths.Proofs.Library.Maps

/-!
Calls on the collections of a heap. The heap describes the objects of a run, one by one. A call that can be applied to
what is known of its collection keeps this and gives no wrong answer, whatever the values are that its arguments leave
open. A call on a list or a set may have another collection, or the same one, as its argument. So whole runs of such
calls keep it.
-/

namespace ApexPaths.Library
set_option autoImplicit false

open ApexPaths.TypeName

/-! ## Stores -/

/-- An object as a run has it. -/
inductive Held where
  | list (items : List Element)
  | set (items : List Element)
  | map (entries : List (Element × Element))
  | other

/-- The objects of a run, in the order in which they are made. -/
abbrev Store := List Held

/-- The items of an argument that is a list or a set; `outside` are those of an object that the heap does not hold. -/
def items? (store : Store) (outside : List Element) : Element → Option (List Element)
  | .object ref =>
    match store[ref]? with
    | some (.list items) | some (.set items) => some items
    | _ => none
  | .outside _ => some outside
  | .literal _ => none

/-- The entries of a map that is given as an argument. -/
def entries? (store : Store) (outside : List (Element × Element)) : Element → Option (List (Element × Element))
  | .object ref =>
    match store[ref]? with
    | some (.map entries) => some entries
    | _ => none
  | .outside _ => some outside
  | .literal _ => none

def ListCall.held? (store : Store) : ListCall → Option (List Element)
  | .addAll source outside => items? store outside source
  | _ => none

def SetCall.held? (store : Store) : SetCall → Option (List Element)
  | .addAll source outside | .removeAll source outside | .retainAll source outside => items? store outside source
  | _ => none

def MapCall.held? (store : Store) : MapCall → Option (List (Element × Element))
  | .putAll source outside => entries? store outside source
  | _ => none

/-- A call of a method of a collection as a run makes it. -/
inductive ActualCall where
  | list (call : ListCall)
  | set (call : SetCall)
  | map (call : MapCall)
  | clone
  | keySet
  | values

namespace ActualCall

def method : ActualCall → String
  | .list call => call.method
  | .set call => call.method
  | .map call => call.method
  | .clone => "clone"
  | .keySet => "keyset"
  | .values => "values"

def args : ActualCall → List Element
  | .list call => call.args
  | .set call => call.args
  | .map call => call.args
  | .clone | .keySet | .values => []

end ActualCall

/-- A new object of a store, and the store with it. -/
def Store.make (store : Store) (held : Held) : Option Element × Store := (some (.object store.length), store ++ [held])

/-- What a call on the object at a reference does: its answer and the store after it, none if it throws. -/
def Elements.step (U : Elements) (store : Store) (ref : HeapRef) (call : ActualCall) :
    Option (Option Element × Store) :=
  match call, store[ref]? with
  | .list c, some (.list items) =>
    (U.listStep (c.held? store) items c).map fun result => (result.1, store.set ref (.list result.2))
  | .set c, some (.set items) =>
    (U.setStep (c.held? store) items c).map fun result => (result.1, store.set ref (.set result.2))
  | .map c, some (.map entries) =>
    (U.mapStep (c.held? store) entries c).map fun result => (result.1, store.set ref (.map result.2))
  | .clone, some (.list items) => some (store.make (.list items))
  | .clone, some (.set items) => some (store.make (.set items))
  | .keySet, some (.map entries) => some (store.make (.set (entries.map Prod.fst)))
  | .values, some (.map entries) => some (store.make (.list (entries.map Prod.snd)))
  | _, _ => none

/-! ## Description -/

namespace Elements

variable (U : Elements)

/-- What an object of the heap says about one of a run. -/
def objectDescribes : HeapObject → Held → Prop
  | .list _ contents, .list items => describes standsFor U.means contents items
  | .set _ contents, .set items => U.plain.describes contents items
  | .map _ _ contents, .map entries => U.paired.describes contents entries
  | .record .., .other => True
  | _, _ => False

/-- A heap describes a store, object for object. -/
def heapDescribes (heap : Heap) (store : Store) : Prop := List.Forall₂ U.objectDescribes heap.objects.toList store

variable {U} {heap : Heap} {store : Store} {ref : HeapRef} {object : HeapObject} {held : Held}

section
variable (h : U.heapDescribes heap store)
include h

theorem exists_object (hheld : store[ref]? = some held) :
    ∃ object, heap.get? ref = some object ∧ U.objectDescribes object held := by
  obtain ⟨hlt, rfl⟩ := List.getElem?_eq_some_iff.mp hheld
  have hlt' : ref < heap.objects.toList.length := h.length_eq ▸ hlt
  refine ⟨heap.objects.toList[ref], ?_, h.get hlt' hlt⟩
  rw [Heap.get?, ← Array.getElem?_toList, List.getElem?_eq_getElem hlt']

theorem objectDescribes_of_get? (hobject : heap.get? ref = some object) (hheld : store[ref]? = some held) :
    U.objectDescribes object held := by
  obtain ⟨object', hobject', hdescribes⟩ := exists_object h hheld
  cases hobject.symm.trans hobject'
  exact hdescribes

theorem heapDescribes_put (hobject : U.objectDescribes object held) :
    U.heapDescribes (heap.put ref object) (store.set ref held) := by
  simp only [heapDescribes, Heap.put, Array.toList_setIfInBounds]
  exact forall₂_set h ref hobject

theorem heapDescribes_allocate (hobject : U.objectDescribes object held) :
    U.heapDescribes (heap.allocate object).2 (store ++ [held]) := by
  simp only [heapDescribes, Heap.allocate, Array.toList_push]
  exact List.rel_append h (.cons hobject .nil)

end

theorem eq_object {value : Value} {source : Element} (h : standsFor value source) (href : value.ref? = some ref) :
    source = .object ref := by
  unfold Value.ref? at href
  split at href
  · rename_i ref' hcontent
    cases href
    unfold standsFor tells at h
    rw [hcontent] at h
    exact Option.some.inj h
  · cases href

theorem length_eq_size (h : U.heapDescribes heap store) : store.length = heap.size := by
  simpa [Heap.size] using h.length_eq.symm

theorem describes_itemsOf? (h : U.heapDescribes heap store) {call : LibraryCall} {source : Element}
    {outside : List Element} (hargs : List.Forall₂ standsFor call.args [source]) :
    ∀ added ∈ (call.arg? 0).bind (itemsOf? heap), ∀ held ∈ items? store outside source,
    describes standsFor U.means added held := by
  intro added hadded held hheld
  obtain ⟨value, hvalue, hsource⟩ := exists_arg (i := 0) hargs rfl
  rw [hvalue, Option.bind_some] at hadded
  unfold itemsOf? at hadded
  cases href : value.ref? with
  | none => simp [href] at hadded
  | some ref =>
    obtain rfl : source = .object ref := eq_object hsource href
    rw [href, Option.bind_some] at hadded
    cases hstore : store[ref]? with
    | none => simp [items?, hstore] at hheld
    | some found =>
      obtain ⟨object, hobject, hdescribes⟩ := exists_object h hstore
      rw [hobject] at hadded
      simp only [items?, hstore] at hheld
      cases object <;> cases found <;> try exact hdescribes.elim
      case list.list =>
        obtain ⟨rfl, rfl⟩ := And.intro (Option.some.inj hadded) (Option.some.inj hheld)
        exact hdescribes
      case set.set =>
        obtain ⟨rfl, rfl⟩ := And.intro (Option.some.inj hadded) (Option.some.inj hheld)
        exact hdescribes.1
      all_goals cases hadded

end Elements

/-! ## Turns -/

/-- A call on a collection of the heap, and what it is in a run. -/
structure Turn where
  call : LibraryCall
  ref : HeapRef
  actual : ActualCall

/-- The name of the type of a collection without its arguments. -/
def collectionBase : HeapObject → Option String
  | .list .. => some "List"
  | .set .. => some "Set"
  | .map .. => some "Map"
  | .record .. => none

/-- The call is on the object at the reference, which is of the type that the receiver has, and its arguments stand for
those of the run. -/
structure Turn.fits (turn : Turn) (heap : Heap) : Prop where
  method_eq : turn.call.method = turn.actual.method
  args : List.Forall₂ standsFor turn.call.args turn.actual.args
  receiver : ∃ receiver object, turn.call.target = .value receiver ∧ receiver.ref? = some turn.ref ∧
    heap.get? turn.ref = some object ∧ isCollection receiver.type = true ∧
    collectionBase object = some (base receiver.type)

/-- The call can be applied to what is known of the collection. -/
def Turn.sure (U : Elements) (turn : Turn) (heap : Heap) (store after : Store) : Prop :=
  match turn.actual, heap.get? turn.ref, store[turn.ref]?, after[turn.ref]? with
  | .list c, some (.list _ contents), some (.list items), _ => U.listSure turn.call contents items c
  | .set c, some (.set _ contents), some (.set items), some (.set after) => U.setSure turn.call contents items after c
  | .map c, some (.map _ _ contents), some (.map entries), some (.map after) =>
    U.mapSure turn.call contents entries after c
  | _, _, _, _ => True

variable {type : String} {contents : Contents Value} {result : Option Element × List Element}

namespace Elements

variable {U : Elements} {heap : Heap} {store after : Store} {turn : Turn} {answer : Option Element}

theorem made_sound {object : HeapObject} {held : Held} (type : String) (h : U.heapDescribes heap store)
    (hmade : store.make held = (answer, after)) (hobject : U.objectDescribes object held) :
    (∀ value ∈ some (Value.ofRef type (heap.allocate object).1), tells value answer) ∧
      U.heapDescribes (heap.allocate object).2 after := by
  cases hmade
  refine ⟨?_, heapDescribes_allocate h hobject⟩
  rintro value ⟨⟩
  rw [length_eq_size h]
  rfl

section
variable {call : LibraryCall} {ref : HeapRef} (element key : String)

theorem listCall_sound {c : ListCall} {items : List Element} (h : U.heapDescribes heap store)
    (hobject : heap.get? ref = some (.list type contents)) (hdescribes : describes standsFor U.means contents items)
    (hmethod : call.method = c.method)
    (hargs : List.Forall₂ standsFor call.args c.args) (hsure : U.listSure call contents items c)
    (hresult : U.listStep (c.held? store) items c = some result) :
    (∀ value ∈ (collectionMethod call ref element key heap).1, tells value result.1) ∧
      U.heapDescribes (collectionMethod call ref element key heap).2 (store.set ref (.list result.2)) := by
  have hclone : call.method ≠ "clone" := by
    rw [hmethod]
    cases c <;> simp [ListCall.method]
  have hincoming : ∀ added ∈ (call.arg? 0).bind (itemsOf? heap), ∀ held ∈ c.held? store,
      describes standsFor U.means added held := by
    cases c with
    | addAll source outside => exact describes_itemsOf? h hargs
    | _ => exact fun _ _ _ hheld => (by cases hheld)
  obtain ⟨htells, hafter⟩ := listMethod_sound c hmethod hargs hdescribes hincoming hsure hresult
  simp only [collectionMethod, hobject, if_neg hclone]
  exact ⟨htells, heapDescribes_put h hafter⟩

theorem setCall_sound {c : SetCall} {items : List Element} (h : U.heapDescribes heap store)
    (hobject : heap.get? ref = some (.set type contents)) (hdescribes : U.plain.describes contents items)
    (hmethod : call.method = c.method)
    (hargs : List.Forall₂ standsFor call.args c.args) (hsure : U.setSure call contents items result.2 c)
    (hresult : U.setStep (c.held? store) items c = some result) :
    (∀ value ∈ (collectionMethod call ref element key heap).1, tells value result.1) ∧
      U.heapDescribes (collectionMethod call ref element key heap).2 (store.set ref (.set result.2)) := by
  have hclone : call.method ≠ "clone" := by
    rw [hmethod]
    cases c <;> simp [SetCall.method]
  have hincoming : ∀ added ∈ (call.arg? 0).bind (itemsOf? heap), ∀ held ∈ c.held? store,
      describes standsFor U.means added held := by
    cases c with
    | addAll source outside => exact describes_itemsOf? h hargs
    | removeAll source outside => exact describes_itemsOf? h hargs
    | retainAll source outside => exact describes_itemsOf? h hargs
    | _ => exact fun _ _ _ hheld => (by cases hheld)
  obtain ⟨htells, hafter⟩ := setMethod_sound c hmethod hargs hdescribes hincoming hsure hresult
  simp only [collectionMethod, hobject, if_neg hclone]
  exact ⟨htells, heapDescribes_put h hafter⟩

theorem mapCall_sound {c : MapCall} {keyType : String} {contents : Contents (Value × Value)}
    {entries : List (Element × Element)} {result : Option Element × List (Element × Element)}
    (h : U.heapDescribes heap store)
    (hobject : heap.get? ref = some (.map keyType type contents)) (hdescribes : U.paired.describes contents entries)
    (hmethod : call.method = c.method) (hargs : List.Forall₂ standsFor call.args c.args)
    (hsure : U.mapSure call contents entries result.2 c) (hresult : U.mapStep (c.held? store) entries c = some result) :
    (∀ value ∈ (collectionMethod call ref element key heap).1, tells value result.1) ∧
      U.heapDescribes (collectionMethod call ref element key heap).2 (store.set ref (.map result.2)) := by
  have hviews : call.method ≠ "keyset" ∧ call.method ≠ "values" := by
    rw [hmethod]
    cases c <;> simp [MapCall.method]
  obtain ⟨htells, hafter⟩ := mapMethod_sound element c hmethod hargs hdescribes hsure hresult
  simp only [collectionMethod, hobject, if_neg hviews.1, if_neg hviews.2]
  exact ⟨htells, heapDescribes_put h hafter⟩

end

/-- By cases on the object and on the call. -/
theorem collectionMethod_sound (element key : String) (hfits : turn.fits heap) (h : U.heapDescribes heap store)
    (hstep : U.step store turn.ref turn.actual = some (answer, after)) (hsure : turn.sure U heap store after) :
    (∀ value ∈ (collectionMethod turn.call turn.ref element key heap).1, tells value answer) ∧
      U.heapDescribes (collectionMethod turn.call turn.ref element key heap).2 after := by
  obtain ⟨call, ref, actual⟩ := turn
  have hmethod : call.method = actual.method := hfits.method_eq
  have hargs : List.Forall₂ standsFor call.args actual.args := hfits.args
  clear hfits
  unfold Turn.sure at hsure
  simp only [step] at hstep hsure ⊢
  split at hstep
  · rename_i c items hstore
    obtain ⟨result, hresult, hafter⟩ := Option.map_eq_some_iff.mp hstep
    cases hafter
    obtain ⟨object, hobject, hdescribes⟩ := exists_object h hstore
    cases object <;> try exact hdescribes.elim
    rw [hobject, hstore] at hsure
    exact listCall_sound element key h hobject hdescribes hmethod hargs hsure hresult
  · rename_i c items hstore
    obtain ⟨result, hresult, hafter⟩ := Option.map_eq_some_iff.mp hstep
    cases hafter
    obtain ⟨object, hobject, hdescribes⟩ := exists_object h hstore
    cases object <;> try exact hdescribes.elim
    have hset : (store.set ref (.set result.2))[ref]? = some (.set result.2) := by
      rw [List.getElem?_set_self (List.getElem?_eq_some_iff.mp hstore).1]
    rw [hobject, hstore, hset] at hsure
    exact setCall_sound element key h hobject hdescribes hmethod hargs hsure hresult
  · rename_i c entries hstore
    obtain ⟨result, hresult, hafter⟩ := Option.map_eq_some_iff.mp hstep
    cases hafter
    obtain ⟨object, hobject, hdescribes⟩ := exists_object h hstore
    cases object <;> try exact hdescribes.elim
    have hset : (store.set ref (.map result.2))[ref]? = some (.map result.2) := by
      rw [List.getElem?_set_self (List.getElem?_eq_some_iff.mp hstore).1]
    rw [hobject, hstore, hset] at hsure
    exact mapCall_sound element key h hobject hdescribes hmethod hargs hsure hresult
  · rename_i items hstore
    obtain ⟨object, hobject, hdescribes⟩ := exists_object h hstore
    cases object <;> try exact hdescribes.elim
    simp only [collectionMethod, hobject, show call.method = "clone" from hmethod, if_true]
    exact made_sound _ h (Option.some.inj hstep) hdescribes
  · rename_i items hstore
    obtain ⟨object, hobject, hdescribes⟩ := exists_object h hstore
    cases object <;> try exact hdescribes.elim
    simp only [collectionMethod, hobject, show call.method = "clone" from hmethod, if_true]
    exact made_sound _ h (Option.some.inj hstep) hdescribes
  · rename_i entries hstore
    obtain ⟨object, hobject, hdescribes⟩ := exists_object h hstore
    cases object <;> try exact hdescribes.elim
    simp only [collectionMethod, hobject, show call.method = "keyset" from hmethod, if_true]
    exact made_sound _ h (Option.some.inj hstep) (describes_keys hdescribes)
  · rename_i entries hstore
    obtain ⟨object, hobject, hdescribes⟩ := exists_object h hstore
    cases object <;> try exact hdescribes.elim
    simp only [collectionMethod, hobject, show call.method = "values" from hmethod, if_true]
    exact made_sound _ h (Option.some.inj hstep) (describes_values hdescribes)
  · cases hstep

theorem exists_listFallback (c : ListCall) (element key : String) (hbase : base type = "List") :
    ∃ fallback, collectionFallback? type element key c.method = some fallback := by
  cases c <;> simp [collectionFallback?, ListCall.method, hbase]

theorem exists_setFallback (c : SetCall) (element key : String) (hbase : base type = "Set") :
    ∃ fallback, collectionFallback? type element key c.method = some fallback := by
  cases c <;> simp [collectionFallback?, SetCall.method, hbase]

theorem exists_mapFallback (c : MapCall) (element key : String) (hbase : base type = "Map") :
    ∃ fallback, collectionFallback? type element key c.method = some fallback := by
  cases c <;> simp [collectionFallback?, MapCall.method, hbase]

theorem exists_fallback {object : HeapObject} (element key : String) (h : U.heapDescribes heap store)
    (hobject : heap.get? turn.ref = some object) (hbase : collectionBase object = some (base type))
    (hmethod : turn.call.method = turn.actual.method)
    (hstep : U.step store turn.ref turn.actual = some (answer, after)) :
    ∃ fallback, collectionFallback? type element key turn.call.method = some fallback := by
  obtain ⟨call, ref, actual⟩ := turn
  have hkind : ∀ held, store[ref]? = some held → U.objectDescribes object held :=
    fun held hheld => objectDescribes_of_get? h hobject hheld
  simp only [step] at hstep hmethod ⊢
  rw [hmethod]
  split at hstep
  · rename_i c _ hstore
    have hdescribes := hkind _ hstore
    cases object <;> try exact hdescribes.elim
    exact exists_listFallback c element key (Option.some.inj hbase).symm
  · rename_i c _ hstore
    have hdescribes := hkind _ hstore
    cases object <;> try exact hdescribes.elim
    exact exists_setFallback c element key (Option.some.inj hbase).symm
  · rename_i c _ hstore
    have hdescribes := hkind _ hstore
    cases object <;> try exact hdescribes.elim
    exact exists_mapFallback c element key (Option.some.inj hbase).symm
  · exact ⟨.unknown type, by simp [collectionFallback?, ActualCall.method]⟩
  · exact ⟨.unknown type, by simp [collectionFallback?, ActualCall.method]⟩
  · rename_i hstore
    have hdescribes := hkind _ hstore
    cases object <;> try exact hdescribes.elim
    exact ⟨.unknown (setOf key), by simp [collectionFallback?, ActualCall.method, ← Option.some.inj hbase]⟩
  · rename_i hstore
    have hdescribes := hkind _ hstore
    cases object <;> try exact hdescribes.elim
    exact ⟨.unknown
      (listOf element), by simp [collectionFallback?, ActualCall.method, ← Option.some.inj hbase]⟩
  · cases hstep

theorem collections_eq {call : LibraryCall} {receiver fallback : Value} {ref : HeapRef} {element key : String}
    (htarget : call.target = .value receiver) (hcollection : isCollection receiver.type = true)
    (href : receiver.ref? = some ref) (helement : (element? receiver.type).getD "Object" = element)
    (hkey : (key? receiver.type).getD "Object" = key)
    (hfallback : collectionFallback? receiver.type element key call.method = some fallback) :
    collections call heap =
      some ((collectionMethod call ref element key heap).1.getD fallback,
      (collectionMethod call ref element key heap).2) := by
  simp only [collections, htarget, hcollection, helement, hkey, href, hfallback]
  rfl

theorem collections_sound (hfits : turn.fits heap) (h : U.heapDescribes heap store)
    (hstep : U.step store turn.ref turn.actual = some (answer, after)) (hsure : turn.sure U heap store after) :
    ∃ value heap', collections turn.call heap = some (value, heap') ∧ tells value answer ∧
    U.heapDescribes heap' after := by
  obtain ⟨receiver, object, htarget, href, hobject, hcollection, hbase⟩ := hfits.receiver
  generalize helement : (element? receiver.type).getD "Object" = element
  generalize hkey : (key? receiver.type).getD "Object" = key
  obtain ⟨fallback, hfallback⟩ := exists_fallback element key h hobject hbase hfits.method_eq hstep
  obtain ⟨htells, hafter⟩ := collectionMethod_sound element key hfits h hstep hsure
  refine ⟨_, _, collections_eq htarget hcollection href helement hkey hfallback, ?_, hafter⟩
  cases hanswer : (collectionMethod turn.call turn.ref element key heap).1 with
  | none =>
    obtain ⟨answerType, rfl⟩ := exists_of_collectionFallback? hfallback
    exact tells_unknown answerType answer
  | some value => exact htells value hanswer

end Elements

/-!
## Calls one after the other

Along a run whose calls can all be applied to what is known when
their turn comes, the heap describes the collections after each call and no answer is wrong.
-/

/-! ## Turns in a row -/

/-- The answers and stores of a run, call by call; none if one throws. -/
def Elements.run (U : Elements) : Store → List Turn → Option (List (Option Element × Store))
  | _, [] => some []
  | store, turn :: rest => do
    let (answer, after) ← U.step store turn.ref turn.actual
    return (answer, after) :: (← U.run after rest)

/-- The results of calls of a handler one after the other, each with the heap after it. -/
def callAll (handler : Handler) : Heap → List LibraryCall → Option (List (Value × Heap))
  | _, [] => some []
  | heap, call :: rest => do
    let (value, after) ← handler call heap
    return (value, after) :: (← callAll handler after rest)

/-- The turns are calls of a kind on collections of the heap, and each can be applied to what is known when its
turn comes. -/
def settled (U : Elements) (kind : ActualCall → Prop) : List Turn → Heap → Store → Prop
  | [], _, _ => True
  | turn :: rest, heap, store => kind turn.actual ∧ turn.fits heap ∧
    ∀ answer after, U.step store turn.ref turn.actual = some (answer, after) →
      turn.sure U heap store after ∧ ∀ value heap', collections turn.call heap = some (value, heap') →
      settled U kind rest heap' after

theorem exists_collectionMethod {call : LibraryCall} {receiver value : Value} {ref : HeapRef} {heap heap' : Heap}
    (htarget : call.target = .value receiver) (href : receiver.ref? = some ref)
    (hcall : collections call heap = some (value, heap')) :
    ∃ element key, heap' = (collectionMethod call ref element key heap).2 := by
  simp only [collections, htarget, href] at hcall
  split at hcall
  · cases hcall
  · obtain ⟨fallback, -, hresult⟩ := Option.bind_eq_some_iff.mp hcall
    exact ⟨_, _, (Prod.mk.inj (Option.some.inj hresult)).2.symm⟩

theorem settled_cons {U : Elements} {kind : ActualCall → Prop} {turn : Turn} {rest : List Turn} {heap : Heap}
    {store after : Store} {answer : Option Element} (hkind : kind turn.actual) (hfits : turn.fits heap)
    (hstep : U.step store turn.ref turn.actual = some (answer, after)) (hsure : turn.sure U heap store after)
    (hrest : ∀ element key, settled U kind rest (collectionMethod turn.call turn.ref element key heap).2 after) :
    settled U kind (turn :: rest) heap store := by
  obtain ⟨receiver, object, htarget, href, -⟩ := hfits.receiver
  refine ⟨hkind, hfits, fun answer' after' hstep' => ?_⟩
  cases hstep.symm.trans hstep'
  refine ⟨hsure, fun value heap' hcall => ?_⟩
  obtain ⟨element, key, rfl⟩ := exists_collectionMethod htarget href hcall
  exact hrest element key

/-- What is modelled of a run is right after each call: the answer is not wrong, and the heap describes the store. -/
def agrees (U : Elements) (result : Value × Heap) (actual : Option Element × Store) : Prop :=
  tells result.1 actual.1 ∧ U.heapDescribes result.2 actual.2

/-- By induction on the calls. -/
theorem run_agrees {U : Elements} {kind : ActualCall → Prop} {turns : List Turn} {heap : Heap} {store : Store}
    {actual : List (Option Element × Store)} (h : U.heapDescribes heap store)
    (hsettled : settled U kind turns heap store)
    (hrun : U.run store turns = some actual) :
    ∃ results, callAll collections heap (turns.map Turn.call) = some results ∧
    List.Forall₂ (agrees U) results actual := by
  induction turns generalizing heap store actual with
  | nil =>
    cases hrun
    exact ⟨[], rfl, .nil⟩
  | cons turn rest ih =>
    obtain ⟨-, hfits, hsettled⟩ := hsettled
    simp only [Elements.run, Option.bind_eq_bind] at hrun
    obtain ⟨⟨answer, after⟩, hstep, hrun⟩ := Option.bind_eq_some_iff.mp hrun
    obtain ⟨others, hothers, hactual⟩ := Option.bind_eq_some_iff.mp hrun
    cases hactual
    obtain ⟨hsure, hsettled⟩ := hsettled answer after hstep
    obtain ⟨value, heap', hvalue, htells, hafter⟩ := Elements.collections_sound hfits h hstep hsure
    obtain ⟨results, hresults, hagrees⟩ := ih hafter (hsettled value heap' hvalue) hothers
    refine ⟨(value, heap') :: results, ?_, .cons ⟨htells, hafter⟩ hagrees⟩
    simp [callAll, hvalue, hresults]

/-! ## Elements by their values -/

open Float.Model (UnpackedFloat)

theorem compare_eq_iff_of_ne {a b : UnpackedFloat} (hcompare : UnpackedFloat.compare a b ≠ some .eq)
    (hzero : ∀ s t, ¬(a = .zero s ∧ b = .zero t)) (hne : a ≠ b) :
    UnpackedFloat.compare a b = some .eq ↔ (∃ s t, a = .zero s ∧ b = .zero t) ∨ (a = b ∧ a ≠ .notANumber) := by
  refine iff_of_false hcompare ?_
  rintro (⟨s, t, hboth⟩ | ⟨hsame, -⟩)
  · exact hzero s t hboth
  · exact hne hsame

theorem compare_eq_iff (a b : UnpackedFloat) : UnpackedFloat.compare a b = some .eq ↔
    (∃ s t, a = .zero s ∧ b = .zero t) ∨ (a = b ∧ a ≠ .notANumber) := by
  cases a with
  | notANumber =>
    refine iff_of_false (fun h => by cases h) ?_
    rintro (⟨s, t, h, -⟩ | ⟨-, h⟩)
    · cases h
    · exact h rfl
  | infinity s =>
    cases b with
    | infinity t =>
      cases s <;> cases t
      all_goals first
        | exact iff_of_true rfl (.inr ⟨rfl, fun h => by cases h⟩)
        | exact compare_eq_iff_of_ne (fun h => by cases h) (fun _ _ h => by cases h.1) (fun h => by cases h)
    | _ =>
      cases s <;> exact compare_eq_iff_of_ne (fun h => by cases h) (fun _ _ h => by cases h.1) (fun h => by cases h)
  | zero s =>
    cases b with
    | zero t => exact iff_of_true rfl (.inl ⟨s, t, rfl, rfl⟩)
    | notANumber => exact compare_eq_iff_of_ne (fun h => by cases h) (fun _ _ h => by cases h.2) (fun h => by cases h)
    | finite t | infinity t =>
      cases t <;> exact compare_eq_iff_of_ne (fun h => by cases h) (fun _ _ h => by cases h.2) (fun h => by cases h)
  | finite s m e h =>
    cases b with
    | finite t m' e' h' =>
      have hsame : ((∃ s' t', UnpackedFloat.finite s m e h = .zero s' ∧ UnpackedFloat.finite t m' e' h' = .zero t') ∨
          (UnpackedFloat.finite s m e h = .finite t m' e' h' ∧ UnpackedFloat.finite s m e h ≠ .notANumber)) ↔ s = t ∧
          m = m' ∧ e = e' := by
        rw [UnpackedFloat.finite.injEq]
        constructor
        · rintro (⟨s', t', hzero, -⟩ | ⟨hparts, -⟩)
          · cases hzero
          · exact hparts
        · exact fun hparts => .inr ⟨hparts, fun hnone => by cases hnone⟩
      rw [hsame]
      have hparts : (compare e e').then (compare m m') = .eq ↔ m = m' ∧ e = e' := by
        simp [Ordering.then_eq_eq, and_comm]
      cases s <;> cases t
      case negative.negative =>
        show some ((compare e e').then (compare m m')).swap = some .eq ↔ _
        simpa using hparts
      case positive.positive =>
        show some ((compare e e').then (compare m m')) = some .eq ↔ _
        simpa using hparts
      all_goals exact iff_of_false (fun h => by cases h) fun h => by cases h.1
    | notANumber => exact compare_eq_iff_of_ne (fun h => by cases h) (fun _ _ h => by cases h.1) (fun h => by cases h)
    | zero t =>
      cases s <;> exact compare_eq_iff_of_ne (fun h => by cases h) (fun _ _ h => by cases h.1) (fun h => by cases h)
    | infinity t =>
      cases t <;> exact compare_eq_iff_of_ne (fun h => by cases h) (fun _ _ h => by cases h.1) (fun h => by cases h)

theorem float_beq_iff (a b : Float) :
    (a == b) = true ↔ UnpackedFloat.compare a.toModel.unpack b.toModel.unpack = some .eq := by
  show (UnpackedFloat.compare a.toModel.unpack b.toModel.unpack == some .eq) = true ↔ _
  exact beq_iff_eq

theorem float_beq_symm {a b : Float} (h : (a == b) = true) : (b == a) = true := by
  rw [float_beq_iff, compare_eq_iff] at h ⊢
  obtain ⟨s, t, ha, hb⟩ | ⟨hab, hne⟩ := h
  · exact .inl ⟨t, s, hb, ha⟩
  · exact .inr ⟨hab.symm, hab ▸ hne⟩

theorem float_beq_trans {a b c : Float} (h : (a == b) = true) (h' : (b == c) = true) : (a == c) = true := by
  rw [float_beq_iff, compare_eq_iff] at h h' ⊢
  grind

theorem literal_same_symm {a b : Literal} (h : a.same b = true) : b.same a = true := by
  cases a <;> cases b <;> simp only [Literal.same, beq_iff_eq, Bool.false_eq_true] at h ⊢
  all_goals first | exact h.symm | exact float_beq_symm h

theorem literal_same_trans {a b c : Literal} (h : a.same b = true) (h' : b.same c = true) : a.same c = true := by
  cases a <;> cases b <;> cases c <;> simp only [Literal.same, beq_iff_eq, Bool.false_eq_true] at h h' ⊢
  all_goals first | exact h.trans h' | exact float_beq_trans h h'

/-- Literals are equal by value and objects by identity; integers are sorted by size. -/
def byValue : Elements where
  same
    | .literal a, .literal b => a.same b
    | .object a, .object b => a == b
    | .outside a, .outside b => a == b
    | _, _ => false
  sorted items := items.mergeSort fun
    | .literal (.integer a), .literal (.integer b) => a ≤ b
    | _, _ => true
  same_literal _ _ := rfl
  same_object _ := beq_self_eq_true _
  same_symm {x y} h := by
    cases x <;> cases y <;> simp only [beq_iff_eq, Bool.false_eq_true] at h ⊢
    all_goals first | exact h.symm | exact literal_same_symm h
  same_trans {x y z} h h' := by
    cases x <;> cases y <;> cases z <;> simp only [beq_iff_eq, Bool.false_eq_true] at h h' ⊢
    all_goals first | exact h.trans h' | exact literal_same_trans h h'
  sorted_perm items := List.mergeSort_perm items _

/-! ## Lists -/

def ActualCall.onList : ActualCall → Prop
  | .list _ | .clone => True
  | _ => False

/-- The model of lists states nothing false: along every run of calls on lists, each of which can be applied to what is
known, every list is described after each call and every answer is right. -/
theorem lists_agree {U : Elements} {turns : List Turn} {heap : Heap} {store : Store}
    {actual : List (Option Element × Store)} (h : U.heapDescribes heap store)
    (hsettled : settled U ActualCall.onList turns heap store)
    (hrun : U.run store turns = some actual) :
    ∃ results, callAll collections heap (turns.map Turn.call) = some results ∧ List.Forall₂ (agrees U) results actual :=
  run_agrees h hsettled hrun

def numbers (list set : Contents Value) (map : Contents (Value × Value)) : Heap :=
  { objects := #[.list "Integer" list, .set "Integer" set, .map "Integer" "Integer" map] }

def number (n : Int) : Element := .literal (.integer n)

/-- The numbers of the heap that the turns start with. -/
def numbersHeld : Store := [.list [number 1, number 2], .set [number 3], .map [(number 4, number 5)]]

theorem numbersHeld_described : byValue.heapDescribes
    (numbers ⟨[.ofInt 1, .ofInt 2], true⟩ ⟨[.ofInt 3], true⟩ ⟨[(.ofInt 4, .ofInt 5)], true⟩) numbersHeld := by
  refine .cons ?_ (.cons ⟨?_, ?_⟩ (.cons ⟨?_, ?_⟩ .nil))
  · exact describes_of_forall₂ rfl (.cons rfl (.cons rfl .nil))
  · exact describes_of_forall₂ rfl (.cons rfl .nil)
  · exact List.pairwise_singleton _ _
  · exact describes_of_forall₂ rfl (.cons ⟨rfl, rfl⟩ .nil)
  · exact List.pairwise_singleton _ _

def onNumbers (args : List Value) (actual : ListCall) : Turn :=
  ⟨⟨.value ⟨"List<Integer>", .reference 0, none⟩, actual.method, args⟩, 0, .list actual⟩

/-- The number at the front is removed, then an unknown number is added and the numbers of the set. -/
def listTurns : List Turn :=
  [onNumbers [.ofInt 0] (.remove 0),
    onNumbers [.unknown "Integer"] (.add (number 7)),
    onNumbers [⟨"Set<Integer>", .reference 1, none⟩] (.addAll (.object 1) [])]

theorem onNumbers_fits {args : List Value} {actual : ListCall} {heap : Heap}
    (hargs : List.Forall₂ standsFor args actual.args) (hobject : heap.get? 0 = some (.list "Integer" contents)) :
    (onNumbers args actual).fits heap :=
  ⟨rfl, hargs, _, _, rfl, rfl, hobject, by decide +kernel, congrArg some (by decide)⟩

theorem listTurns_settled : settled byValue ActualCall.onList listTurns
    (numbers ⟨[.ofInt 1, .ofInt 2], true⟩ ⟨[.ofInt 3], true⟩ ⟨[(.ofInt 4, .ofInt 5)], true⟩) numbersHeld := by
  refine settled_cons trivial (onNumbers_fits (.cons rfl .nil) rfl) rfl (.inr ⟨rfl, rfl⟩) fun _ _ => ?_
  refine settled_cons trivial (onNumbers_fits (.cons trivial .nil) rfl) rfl trivial fun _ _ => ?_
  exact settled_cons trivial (onNumbers_fits (.cons rfl .nil) rfl) rfl trivial fun _ _ => trivial

/-- A list loses an item, then takes an unknown one and all of a set. -/
theorem listTurns_agree : ∃ results, callAll collections
    (numbers ⟨[.ofInt 1, .ofInt 2], true⟩ ⟨[.ofInt 3], true⟩ ⟨[(.ofInt 4, .ofInt 5)], true⟩)
    (listTurns.map Turn.call) = some results ∧ List.Forall₂ (agrees byValue) results
        [(some (number 1), [.list [number 2], .set [number 3], .map [(number 4, number 5)]]),
          (none, [.list [number 2, number 7], .set [number 3], .map [(number 4, number 5)]]),
          (none, [.list [number 2, number 7, number 3], .set [number 3], .map [(number 4, number 5)]])] :=
  lists_agree numbersHeld_described listTurns_settled rfl

/-! ## Sets and maps -/

def ActualCall.onKeyed : ActualCall → Prop
  | .list _ => False
  | _ => True

/-- The models of sets and maps state nothing false: along every run of calls on them, each of which can be applied to
what is known, every set and map is described after each call and every answer is right. -/
theorem keyed_agree {U : Elements} {turns : List Turn} {heap : Heap} {store : Store}
    {actual : List (Option Element × Store)} (h : U.heapDescribes heap store)
    (hsettled : settled U ActualCall.onKeyed turns heap store)
    (hrun : U.run store turns = some actual) :
    ∃ results, callAll collections heap (turns.map Turn.call) = some results ∧ List.Forall₂ (agrees U) results actual :=
  run_agrees h hsettled hrun

def onNumberSet (args : List Value) (actual : SetCall) : Turn :=
  ⟨⟨.value ⟨"Set<Integer>", .reference 1, none⟩, actual.method, args⟩, 1, .set actual⟩

def onNumberMap (args : List Value) (actual : MapCall) : Turn :=
  ⟨⟨.value ⟨"Map<Integer,Integer>", .reference 2, none⟩, actual.method, args⟩, 2, .map actual⟩

/-- An unknown number is added to the set, which has it, and 3 is looked for; an unknown number is put in the map
and read. -/
def keyedTurns : List Turn :=
  [onNumberSet [.unknown "Integer"] (.add (number 3)),
    onNumberSet [.ofInt 3] (.contains (number 3)),
    onNumberMap [.ofInt 4, .unknown "Integer"] (.put (number 4) (number 6)),
    onNumberMap [.ofInt 4] (.get (number 4))]

theorem onNumberSet_fits {args : List Value} {actual : SetCall} {heap : Heap}
    (hargs : List.Forall₂ standsFor args actual.args) (hobject : heap.get? 1 = some (.set "Integer" contents)) :
    (onNumberSet args actual).fits heap :=
  ⟨rfl, hargs, _, _, rfl, rfl, hobject, by decide +kernel, congrArg some (by decide)⟩

theorem onNumberMap_fits {args : List Value} {actual : MapCall} {heap : Heap} {contents : Contents (Value × Value)}
    (hargs : List.Forall₂ standsFor args actual.args)
    (hobject : heap.get? 2 = some (.map "Integer" "Integer" contents)) :
    (onNumberMap args actual).fits heap :=
  ⟨rfl, hargs, _, _, rfl, rfl, hobject, by decide +kernel, congrArg some (by decide)⟩

theorem keyedTurns_settled : settled byValue ActualCall.onKeyed keyedTurns
    (numbers ⟨[.ofInt 1, .ofInt 2], true⟩ ⟨[.ofInt 3], true⟩ ⟨[(.ofInt 4, .ofInt 5)], true⟩) numbersHeld := by
  refine settled_cons trivial (onNumberSet_fits (.cons trivial .nil) rfl) rfl (fun _ _ _ => rfl) fun _ _ => ?_
  refine settled_cons trivial (onNumberSet_fits (.cons rfl .nil) rfl) rfl trivial fun _ _ => ?_
  refine settled_cons trivial (onNumberMap_fits (.cons rfl (.cons trivial .nil)) rfl) rfl ?_ fun _ _ => ?_
  · rintro key ⟨⟩
    exact .inl rfl
  · exact settled_cons trivial (onNumberMap_fits (.cons rfl .nil) rfl) rfl trivial fun _ _ => trivial

/-- A set takes an unknown item and is asked for another; a map takes an unknown value and gives it back. -/
theorem keyedTurns_agree : ∃ results, callAll collections
    (numbers ⟨[.ofInt 1, .ofInt 2], true⟩ ⟨[.ofInt 3], true⟩ ⟨[(.ofInt 4, .ofInt 5)], true⟩)
    (keyedTurns.map Turn.call) = some results ∧ List.Forall₂ (agrees byValue) results
        [(Elements.yes false, numbersHeld), (Elements.yes true, numbersHeld),
          (some (number 5), [.list [number 1, number 2], .set [number 3], .map [(number 4, number 6)]]),
          (some (number 6), [.list [number 1, number 2], .set [number 3], .map [(number 4, number 6)]])] :=
  keyed_agree numbersHeld_described keyedTurns_settled rfl

end ApexPaths.Library
