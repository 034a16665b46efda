import ApexPaths.Library.Basic
import ApexPaths.Proofs.Library.Heaps

/-!
Sets without equal items and maps without equal keys. The methods of the library look for an item or a key before
they put one in, so they keep the sets and maps of a heap this way; a copy is as its original is.
-/

namespace ApexPaths
set_option autoImplicit false

open List

variable {contents : Contents Value}

namespace Library

/-! ## Items -/

/-- No two values are known to be equal. -/
def Unrepeated (items : List Value) : Prop := items.Pairwise fun a b => sameElement? a b ≠ some true

theorem unrepeated_append {items : List Value} {value : Value} (h : Unrepeated items)
    (hplace : ∀ i, place value true items ≠ .here i) : Unrepeated (items ++ [value]) := by
  refine pairwise_append.mpr ⟨h, pairwise_singleton .., fun item hitem other hother => ?_⟩
  obtain rfl := mem_singleton.mp hother
  cases hindex : items.findIdx? fun item => sameElement? item other == some true with
  | some i => exact absurd (by rw [place, hindex]) (hplace i)
  | none =>
    have hnone := List.findIdx?_eq_none_iff.mp hindex item hitem
    exact fun hsame => by simp [hsame] at hnone

theorem unrepeated_insertItem (h : Unrepeated contents.items) (value : Value) :
    Unrepeated (insertItem contents value).2.items := by
  rw [insertItem]
  cases hplace : place value true contents.items with
  | here => exact h
  | absent => exact unrepeated_append h (by simp [hplace])
  | undecided => exact unrepeated_append h (by simp [hplace])

theorem unrepeated_insertAll (items : List Value) (h : Unrepeated contents.items) :
    Unrepeated (items.foldl (fun contents item => (insertItem contents item).2) contents).items := by
  induction items generalizing contents with
  | nil => exact h
  | cons item items ih => exact ih (unrepeated_insertItem h item)

/-! ## Methods -/

theorem unrepeated_setMethod (call : LibraryCall) (incoming : Option (Contents Value))
    (h : Unrepeated contents.items) : Unrepeated (setMethod call incoming contents).2.items := by
  unfold setMethod
  dsimp only
  split
  · cases call.arg? 0 with
    | none => exact h
    | some value => exact unrepeated_insertItem h value
  · cases incoming with
    | none => exact h
    | some other => exact unrepeated_insertAll other.items h
  · cases call.arg? 0 with
    | none => exact h
    | some value =>
      dsimp only
      split
      · exact h.sublist (eraseIdx_sublist ..)
      · exact h
      · exact h
  · exact h
  · exact .nil
  · exact h

theorem keys_modify (entries : List (Value × Value)) (i : Nat) (value : Value) :
    (entries.modify i fun entry => (entry.1, value)).map Prod.fst = entries.map Prod.fst := by
  refine ext_getElem? fun j => ?_
  rw [List.getElem?_map, List.getElem?_map, List.getElem?_modify]
  cases entries[j]? with
  | none => rfl
  | some entry =>
    by_cases hij : i = j
    · simp [hij]
    · simp [hij]

theorem unrepeated_mapMethod (call : LibraryCall) (valueType : String) {contents : Contents (Value × Value)}
    (h : Unrepeated (contents.items.map Prod.fst)) :
    Unrepeated ((mapMethod call valueType contents).2.items.map Prod.fst) := by
  have hput : ∀ key value, (∀ i, place key true (contents.items.map Prod.fst) ≠ .here i) →
      Unrepeated ((contents.items ++ [(key, value)]).map Prod.fst) := by
    intro key value hplace
    rw [map_append]
    exact unrepeated_append h hplace
  unfold mapMethod
  dsimp only
  split
  · cases call.arg? 0 with
    | none => exact h
    | some key =>
      cases call.arg? 1 with
      | none => exact h
      | some value =>
        dsimp only
        cases hplace : place key true (contents.items.map Prod.fst) with
        | here i =>
          rw [keys_modify]
          exact h
        | absent => exact hput key value (by simp [hplace])
        | undecided => exact hput key value (by simp [hplace])
  · exact h
  · exact h
  · cases call.arg? 0 with
    | none => exact h
    | some key =>
      dsimp only
      split
      · exact h.sublist ((eraseIdx_sublist ..).map _)
      · exact h
      · exact h
  · exact .nil
  · exact h

end Library

/-! ## Heaps -/

open Library

/-- A set without equal items, a map without equal keys, or any other object. -/
def HeapObject.Distinct : HeapObject → Prop
  | .record .. | .list .. => True
  | .set _ contents => Unrepeated contents.items
  | .map _ _ contents => Unrepeated (contents.items.map Prod.fst)

/-- All sets and maps of the heap are without equal items and keys. -/
def Heap.Distinct (heap : Heap) : Prop := ∀ object ∈ heap.objects, object.Distinct

variable {object : HeapObject}

namespace Heap

variable {heap : Heap}

theorem Distinct.allocate (h : heap.Distinct) (hobject : object.Distinct) : (heap.allocate object).2.Distinct := by
  intro other hother
  rcases Array.mem_push.mp hother with hother | rfl
  · exact h other hother
  · exact hobject

theorem Distinct.put (h : heap.Distinct) (ref : HeapRef) (hobject : object.Distinct) :
    (heap.put ref object).Distinct := by
  intro other hother
  rcases Array.mem_or_eq_of_mem_setIfInBounds hother with hother | rfl
  · exact h other hother
  · exact hobject

theorem Distinct.of_get? (h : heap.Distinct) {ref : HeapRef} (hobject : heap.get? ref = some object) :
    object.Distinct := h object (Array.mem_of_getElem? hobject)

theorem Distinct.setField (h : heap.Distinct) (ref : HeapRef) (name : String) (value : Value) :
    (heap.setField ref name value).Distinct := by
  rw [Heap.setField, setField?]
  split
  · exact h.put ref trivial
  · exact h

end Heap

namespace Library

variable {heap heap' : Heap} {call : LibraryCall} {value : Value}

/-- A call on a collection repeats no key and no element of a set. -/
theorem distinct_collectionMethod (call : LibraryCall) (ref : HeapRef) (element key : String) (h : heap.Distinct) :
    (collectionMethod call ref element key heap).2.Distinct := by
  rw [collectionMethod]
  dsimp only
  cases hobject : heap.get? ref with
  | none => exact h
  | some object =>
    have hdistinct := h.of_get? hobject
    cases object with
    | record => exact h
    | list type contents =>
      dsimp only
      split
      · exact h.allocate trivial
      · exact h.put ref trivial
    | set type contents =>
      dsimp only
      split
      · exact h.allocate hdistinct
      · exact h.put ref (unrepeated_setMethod _ _ hdistinct)
    | map keyType type contents =>
      dsimp only
      split
      · exact h.allocate hdistinct
      split
      · exact h.allocate trivial
      · exact h.put ref (unrepeated_mapMethod _ _ hdistinct)

theorem distinct_collections (h : heap.Distinct) (hcall : collections call heap = some (value, heap')) :
    heap'.Distinct := by
  rw [collections] at hcall
  split at hcall
  · cases hcall
  · split at hcall
    · cases hcall
    · obtain ⟨fallback, -, hresult⟩ := Option.bind_eq_some_iff.mp hcall
      split at hresult
      · obtain ⟨-, rfl⟩ := Prod.mk.inj (Option.some.inj hresult)
        exact h
      · obtain ⟨-, rfl⟩ := Prod.mk.inj (Option.some.inj hresult)
        exact distinct_collectionMethod call _ _ _ h

theorem distinct_strings (h : heap.Distinct) (hcall : strings call heap = some (value, heap')) : heap'.Distinct := by
  rw [strings] at hcall
  split at hcall
  · split at hcall
    · obtain ⟨answer, -, hresult⟩ := Option.map_eq_some_iff.mp hcall
      exact (Prod.mk.inj hresult).2 ▸ h
    · cases hcall
  · rename_i receiver _
    split at hcall
    · obtain ⟨type, -, hresult⟩ := Option.bind_eq_some_iff.mp hcall
      have hmade : ∀ made : Value × Heap, (receiver.text?.bind fun s =>
          if call.method = "split" then (splitPieces? s call).map fun pieces =>
            heap.newList "String" { items := pieces.map .ofText }
          else (stringResult? s call).map (·, heap)) = some made → made.2.Distinct := by
        intro made hmade
        obtain ⟨text, -, hmade⟩ := Option.bind_eq_some_iff.mp hmade
        split at hmade
        · obtain ⟨pieces, -, rfl⟩ := Option.map_eq_some_iff.mp hmade
          exact h.allocate trivial
        · obtain ⟨answer, -, rfl⟩ := Option.map_eq_some_iff.mp hmade
          exact h
      generalize (receiver.text?.bind fun s => _) = computed at hresult hmade
      cases computed with
      | none => exact (Prod.mk.inj (Option.some.inj hresult)).2 ▸ h
      | some made =>
        cases hresult
        exact hmade _ rfl
    · cases hcall

theorem distinct_tokenMethod (token : SchemaToken) (h : heap.Distinct) {made : Value × Heap}
    (hcall : tokenMethod? token call heap = some made) : made.2.Distinct := by
  unfold tokenMethod? at hcall
  dsimp only at hcall
  split at hcall
  case h_3 =>
    obtain ⟨object, -, rfl⟩ := Option.map_eq_some_iff.mp hcall
    exact h.allocate trivial
  all_goals first
    | exact Option.some.inj hcall ▸ h
    | (obtain ⟨name, -, hcall⟩ := Option.bind_eq_some_iff.mp hcall
       exact Option.some.inj hcall ▸ h)
    | cases hcall

theorem distinct_schema (h : heap.Distinct) (hcall : schema call heap = some (value, heap')) : heap'.Distinct := by
  rw [schema] at hcall
  split at hcall
  · split at hcall
    · cases hcall
    · split at hcall
      · exact (Prod.mk.inj (Option.some.inj hcall)).2 ▸ h
      · exact (Prod.mk.inj (Option.some.inj hcall)).2 ▸ h
      · cases hcall
  · split at hcall
    · rename_i token _
      cases hmade : tokenMethod? token call heap with
      | none =>
        rw [hmade] at hcall
        exact (Prod.mk.inj (Option.some.inj hcall)).2 ▸ h
      | some made =>
        have hdistinct := distinct_tokenMethod token h hmade
        rw [hmade] at hcall
        cases hcall
        exact hdistinct
    · split at hcall
      · exact (Prod.mk.inj (Option.some.inj hcall)).2 ▸ h
      · cases hcall

theorem distinct_databaseMethod (h : heap.Distinct) (hcall : databaseMethod? call heap = some (value, heap')) :
    heap'.Distinct := by
  rw [databaseMethod?] at hcall
  dsimp only at hcall
  split at hcall
  case h_1 =>
    obtain rfl : (heap.newList _ .unknown).2 = heap' := (congrArg Prod.snd (Option.some.inj hcall))
    exact h.allocate trivial
  case h_2 => 
    obtain rfl : (heap.newList _ .unknown).2 = heap' := (congrArg Prod.snd (Option.some.inj hcall))
    exact h.allocate trivial
  all_goals first
    | exact (Prod.mk.inj (Option.some.inj hcall)).2 ▸ h
    | cases hcall

theorem distinct_system (h : heap.Distinct) (hcall : system call heap = some (value, heap')) : heap'.Distinct := by
  have hpure : ∀ {answer : Option Value}, answer.map (·, heap) = some (value, heap') → heap'.Distinct := by
    intro answer hanswer
    obtain ⟨_, -, hresult⟩ := Option.map_eq_some_iff.mp hanswer
    exact (Prod.mk.inj hresult).2 ▸ h
  rw [system] at hcall
  split at hcall
  · cases hcall
  · split at hcall
    · exact hpure hcall
    split at hcall
    · exact distinct_databaseMethod h hcall
    split at hcall
    · exact hpure hcall
    split at hcall
    · exact hpure hcall
    split at hcall
    · exact hpure hcall
    split at hcall
    · exact hpure hcall
    · cases hcall

/-- No method of the library puts an item or a key twice into a set or map. -/
theorem distinct_invoke (h : heap.Distinct) (hcall : invoke call heap = some (value, heap')) : heap'.Distinct := by
  obtain ⟨⟨name, handler⟩, hhandler, hresult⟩ := exists_of_findSome?_eq_some hcall
  simp only [handlers, mem_cons, not_mem_nil, or_false, Prod.mk.injEq] at hhandler
  obtain ⟨-, rfl⟩ | ⟨-, rfl⟩ | ⟨-, rfl⟩ | ⟨-, rfl⟩ := hhandler
  · exact distinct_strings h hresult
  · exact distinct_collections h hresult
  · exact distinct_schema h hresult
  · exact distinct_system h hresult

end Library

end ApexPaths
