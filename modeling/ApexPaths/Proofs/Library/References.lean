import ApexPaths.Library.Basic
import ApexPaths.Proofs.Memory.References

/-!
References in the library. A method stores and answers only what it was given, what it found in the heap, a new object,
or something that mentions no object; it replaces an object only by one of the same kind and type.
-/

namespace ApexPaths
set_option autoImplicit false

open List Value

variable {method : String} {contents : Contents Value}

/-- The values of a call: what the method is called on, and the arguments. -/
def LibraryCall.values (call : LibraryCall) : List Value :=
  match call.target with
  | .value value => value :: call.args
  | .type _ => call.args

/-- What a computation on the heap makes of it: the heap grows, and it and the result are admitted. -/
structure Contract.Makes (contract : Contract) (heap : Heap) (made : Value × Heap) : Prop where
  grows : heap.Grows made.2
  keeps : contract.Keeps made.2
  admits : contract.Admits made.2 made.1

variable {incoming : Option (Contents Value)}

namespace Library

/-! ## Contents -/

section
variable {P : Value → Prop} (hsilent : ∀ value : Value, value.Silent → P value)
include hsilent

theorem forall_sizeAnswer? {α : Type} {contents : Contents α} : ∀ value ∈ sizeAnswer? contents method, P value := by
  intro value hvalue
  unfold sizeAnswer? at hvalue
  split at hvalue
  · obtain ⟨_, -, rfl⟩ := Option.map_eq_some_iff.mp hvalue
    exact hsilent _ (silent_ofInt _)
  · obtain ⟨_, -, rfl⟩ := Option.map_eq_some_iff.mp hvalue
    exact hsilent _ (silent_ofBool _)
  · cases hvalue

theorem forall_isPresent? (found : Option Place) :
    ∀ value ∈ found.bind fun place => place.isPresent?.map ofBool, P value := by
  intro value hvalue
  obtain ⟨_, -, hvalue⟩ := Option.bind_eq_some_iff.mp hvalue
  obtain ⟨_, -, rfl⟩ := Option.map_eq_some_iff.mp hvalue
  exact hsilent _ (silent_ofBool _)

variable {call : LibraryCall} (hargs : ∀ value ∈ call.args, P value)
include hargs

omit hsilent in
theorem forall_arg? (index : Nat) : ∀ value ∈ call.arg? index, P value :=
  fun value hvalue => hargs value (mem_of_getElem? hvalue)

omit hsilent hargs in
theorem forall_insertAt (h : ∀ value ∈ contents.items, P value) (index : Option Nat) {value : Value}
    (hvalue : P value) : ∀ v ∈ (insertAt contents index value).items, P v := by
  have hend : ∀ v ∈ contents.items ++ [value], P v := forall_mem_append.mpr ⟨h, forall_mem_singleton.mpr hvalue⟩
  unfold insertAt
  split
  · split
    · exact forall_mem_append.mpr ⟨fun v hv => h v (mem_of_mem_take hv),
        forall_mem_cons.mpr ⟨hvalue, fun v hv => h v (mem_of_mem_drop hv)⟩⟩
    · exact hend
  · exact hend

theorem forall_listMethod (hincoming : ∀ other ∈ incoming, ∀ value ∈ other.items, P value)
    (h : ∀ value ∈ contents.items, P value) : (∀ value ∈ (listMethod call incoming contents).1, P value) ∧
    ∀ value ∈ (listMethod call incoming contents).2.items, P value := by
  have hvoid : ∀ value ∈ some void, P value :=
    fun value hvalue => Option.some.inj hvalue ▸ hsilent _ silent_void
  have hnone : ∀ value ∈ (none : Option Value), P value := nofun
  have hitem : ∀ i, ∀ value ∈ contents.items[i]?, P value := fun i value hvalue => h value (mem_of_getElem? hvalue)
  unfold listMethod
  dsimp only
  split
  · split
    · cases harg : call.arg? 0 with
      | none => exact ⟨hnone, h⟩
      | some value =>
        exact ⟨hvoid, forall_mem_append.mpr ⟨h, forall_mem_singleton.mpr (forall_arg? hargs 0 value harg)⟩⟩
    · cases harg : call.arg? 1 with
      | none => exact ⟨hnone, h⟩
      | some value => exact ⟨hvoid, forall_insertAt h _ (forall_arg? hargs 1 value harg)⟩
  · cases incoming with
    | none => exact ⟨hvoid, h⟩
    | some other => exact ⟨hvoid, forall_mem_append.mpr ⟨h, hincoming other rfl⟩⟩
  · refine ⟨fun value hvalue => ?_, h⟩
    obtain ⟨i, -, hvalue⟩ := Option.bind_eq_some_iff.mp hvalue
    split at hvalue
    · exact hitem i value hvalue
    · cases hvalue
  · split
    · split
      · cases harg : call.arg? 1 with
        | none => exact ⟨hnone, h⟩
        | some value =>
          refine ⟨hvoid, fun v hv => ?_⟩
          rcases mem_or_eq_of_mem_set hv with hv | rfl
          · exact h v hv
          · exact forall_arg? hargs 1 v harg
      · exact ⟨hvoid, h⟩
    · exact ⟨hvoid, h⟩
  · split
    · split
      · exact ⟨hitem _, fun v hv => h v ((eraseIdx_sublist ..).subset hv)⟩
      · exact ⟨hnone, h⟩
    · exact ⟨hnone, h⟩
  · refine ⟨?_, h⟩
    have hpresent :=
      forall_isPresent? hsilent ((call.arg? 0).map fun value => place value contents.complete contents.items)
    rwa [Option.bind_map] at hpresent
  · exact ⟨hvoid, nofun⟩
  · exact ⟨forall_sizeAnswer? hsilent, h⟩

omit hsilent hargs in
theorem forall_insertItem (h : ∀ value ∈ contents.items, P value) {value : Value} (hvalue : P value) :
    ∀ v ∈ (insertItem contents value).2.items, P v := by
  have hend : ∀ v ∈ contents.items ++ [value], P v := forall_mem_append.mpr ⟨h, forall_mem_singleton.mpr hvalue⟩
  unfold insertItem
  split
  · exact h
  · exact hend
  · exact hend

omit hsilent hargs in
theorem forall_insertAll {items : List Value} (hitems : ∀ value ∈ items, P value)
    (h : ∀ value ∈ contents.items, P value) :
    ∀ value ∈ (items.foldl (fun contents item => (insertItem contents item).2) contents).items, P value := by
  induction items generalizing contents with
  | nil => exact h
  | cons item items ih =>
    obtain ⟨hitem, hrest⟩ := forall_mem_cons.mp hitems
    exact ih hrest (forall_insertItem h hitem)

theorem forall_setMethod (hincoming : ∀ other ∈ incoming, ∀ value ∈ other.items, P value)
    (h : ∀ value ∈ contents.items, P value) : (∀ value ∈ (setMethod call incoming contents).1, P value) ∧
    ∀ value ∈ (setMethod call incoming contents).2.items, P value := by
  have hbool : ∀ b, ∀ value ∈ some (ofBool b), P value :=
    fun b value hvalue => Option.some.inj hvalue ▸ hsilent _ (silent_ofBool b)
  have hnone : ∀ value ∈ (none : Option Value), P value := nofun
  unfold setMethod
  dsimp only
  split
  · cases harg : call.arg? 0 with
    | none => exact ⟨hnone, h⟩
    | some value =>
      refine ⟨fun v hv => ?_, forall_insertItem h (forall_arg? hargs 0 value harg)⟩
      obtain ⟨b, -, rfl⟩ := Option.map_eq_some_iff.mp hv
      exact hsilent _ (silent_ofBool b)
  · cases incoming with
    | none => exact ⟨hnone, h⟩
    | some other => exact ⟨hnone, forall_insertAll (hincoming other rfl) h⟩
  · cases call.arg? 0 with
    | none => exact ⟨hnone, h⟩
    | some value =>
      dsimp only
      split
      · exact ⟨hbool _, fun v hv => h v ((eraseIdx_sublist ..).subset hv)⟩
      · exact ⟨hbool _, h⟩
      · exact ⟨hnone, h⟩
  · refine ⟨?_, h⟩
    have hpresent :=
      forall_isPresent? hsilent ((call.arg? 0).map fun value => place value contents.complete contents.items)
    rwa [Option.bind_map] at hpresent
  · refine ⟨fun v hv => Option.some.inj hv ▸ hsilent _ silent_void, nofun⟩
  · exact ⟨forall_sizeAnswer? hsilent, h⟩

omit hsilent hargs in
theorem forall_entries {entries : List (Value × Value)} :
    (∀ value ∈ entries.flatMap fun entry => [entry.1, entry.2], P value) ↔ ∀ entry ∈ entries, P entry.1 ∧
    P entry.2 := by
  simp only [forall_mem_flatMap, forall_mem_cons, not_mem_nil, false_implies, implies_true, and_true]

theorem forall_mapMethod (valueType : String) {contents : Contents (Value × Value)}
    (h : ∀ entry ∈ contents.items, P entry.1 ∧ P entry.2) : (∀ value ∈ (mapMethod call valueType contents).1, P value) ∧
      ∀ entry ∈ (mapMethod call valueType contents).2.items, P entry.1 ∧ P entry.2 := by
  have hnone : ∀ value ∈ (none : Option Value), P value := nofun
  have hnull : ∀ value ∈ some (nullOf valueType), P value :=
    fun value hvalue => Option.some.inj hvalue ▸ hsilent _ (silent_nullOf _)
  have hat : ∀ (i : Nat), ∀ value ∈ (contents.items[i]?).map Prod.snd, P value := by
    intro i value hvalue
    obtain ⟨entry, hentry, rfl⟩ := Option.map_eq_some_iff.mp hvalue
    exact (h entry (mem_of_getElem? hentry)).2
  unfold mapMethod
  dsimp only
  split
  · cases hkey : call.arg? 0 with
    | none => exact ⟨hnone, h⟩
    | some key =>
      cases hvalue : call.arg? 1 with
      | none => exact ⟨hnone, h⟩
      | some value =>
        have hboth : P key ∧ P value := ⟨forall_arg? hargs 0 key hkey, forall_arg? hargs 1 value hvalue⟩
        have hend : ∀ entry ∈ contents.items ++ [(key, value)], P entry.1 ∧ P entry.2 :=
          forall_mem_append.mpr ⟨h, forall_mem_singleton.mpr hboth⟩
        dsimp only
        split
        · rename_i i _
          refine ⟨hat i, fun entry hentry => ?_⟩
          obtain ⟨j, hj⟩ := mem_iff_getElem?.mp hentry
          rw [List.getElem?_modify] at hj
          obtain ⟨old, hold, rfl⟩ := Option.map_eq_some_iff.mp hj
          have hpair := h old (mem_of_getElem? hold)
          split
          · exact ⟨hpair.1, hboth.2⟩
          · exact hpair
        · exact ⟨hnull, hend⟩
        · exact ⟨hnone, hend⟩
  · refine ⟨fun value hvalue => ?_, h⟩
    obtain ⟨key, -, hvalue⟩ := Option.bind_eq_some_iff.mp hvalue
    split at hvalue
    · exact hat _ value hvalue
    · exact hnull value hvalue
    · cases hvalue
  · refine ⟨?_, h⟩
    have hpresent :=
      forall_isPresent? hsilent ((call.arg? 0).map fun key => place key contents.complete (contents.items.map (·.1)))
    rwa [Option.bind_map] at hpresent
  · cases call.arg? 0 with
    | none => exact ⟨hnone, h⟩
    | some key =>
      dsimp only
      split
      · exact ⟨hat _, fun entry hentry => h entry ((eraseIdx_sublist ..).subset hentry)⟩
      · exact ⟨hnull, h⟩
      · exact ⟨hnone, h⟩
  · exact ⟨fun v hv => Option.some.inj hv ▸ hsilent _ silent_void, nofun⟩
  · exact ⟨forall_sizeAnswer? hsilent, h⟩

end

/-! ## Handlers -/

section
variable {contract : Contract} {heap : Heap} {call : LibraryCall} {made : Value × Heap} (h : contract.Keeps heap)
include h

theorem makes_silent {value : Value} (hvalue : value.Silent) : contract.Makes heap (value, heap) :=
  ⟨.refl heap, h, Contract.admits_of_silent hvalue⟩

theorem makes_allocate {object : HeapObject} (hobject : ∀ value ∈ object.values, contract.Admits heap value)
    (type : String) : contract.Makes heap (.ofRef type heap.size, (heap.allocate object).2) :=
  ⟨.allocate heap object, h.allocate hobject, Contract.admits_ofRef (contract.fresh heap object)⟩

theorem makes_newList (element : String) (hitems : ∀ value ∈ contents.items, contract.Admits heap value) :
    contract.Makes heap (heap.newList element contents) :=
  have hobject : ∀ value ∈ (HeapObject.list (TypeName.canonical element) contents).values, contract.Admits heap value :=
    hitems
  makes_allocate h hobject _

theorem makes_newSet (element : String) (hitems : ∀ value ∈ contents.items, contract.Admits heap value) :
    contract.Makes heap (heap.newSet element contents) :=
  have hobject : ∀ value ∈ (HeapObject.set (TypeName.canonical element) contents).values, contract.Admits heap value :=
    hitems
  makes_allocate h hobject _

theorem makes_newMap (key element : String) {contents : Contents (Value × Value)}
    (hitems : ∀ entry ∈ contents.items, contract.Admits heap entry.1 ∧ contract.Admits heap entry.2) :
    contract.Makes heap (heap.newMap key element contents) :=
  have hobject : ∀ value ∈ (HeapObject.map key element contents).values, contract.Admits heap value :=
    forall_entries.mpr hitems
  makes_allocate h hobject _

/-- A call on a collection gives something admitted, on a heap that has grown. -/
theorem makes_collectionMethod (hargs : ∀ value ∈ call.args, contract.Admits heap value) (ref : HeapRef)
    (element key : String) {fallback : Value} (hfallback : fallback.Silent) :
    contract.Makes heap ((collectionMethod call ref element key heap).1.getD fallback,
    (collectionMethod call ref element key heap).2) := by
  have hsilent : ∀ value : Value, value.Silent → contract.Admits heap value := fun _ => Contract.admits_of_silent
  have hincoming : ∀ other ∈ (call.arg? 0).bind (itemsOf? heap), ∀ value ∈ other.items, contract.Admits heap value := by
    intro other hother
    obtain ⟨source, -, hitems⟩ := Option.bind_eq_some_iff.mp hother
    rw [itemsOf?] at hitems
    split at hitems
    · rename_i hobject
      cases hitems
      obtain ⟨_, -, hobject⟩ := Option.bind_eq_some_iff.mp hobject
      exact h.of_get? hobject
    · rename_i hobject
      cases hitems
      obtain ⟨_, -, hobject⟩ := Option.bind_eq_some_iff.mp hobject
      exact h.of_get? hobject
    · cases hitems
  have hput : ∀ {object object' : HeapObject} {answer : Option Value}, heap.get? ref = some object →
    object.Alike object' → (∀ value ∈ answer, contract.Admits heap value) →
    (∀ value ∈ object'.values, contract.Admits heap value) →
      contract.Makes heap (answer.getD fallback, heap.put ref object') := fun hobject halike hanswer hvalues =>
    ⟨.put hobject halike, h.put hobject halike hvalues,
    (Contract.admits_getD hanswer hfallback).grow (.put hobject halike)⟩
  unfold collectionMethod
  dsimp only
  cases hobject : heap.get? ref with
  | none => exact makes_silent h hfallback
  | some object =>
    have hvalues := h.of_get? hobject
    cases object with
    | record => exact makes_silent h hfallback
    | list type contents =>
      dsimp only
      split
      · exact makes_newList h element hvalues
      · obtain ⟨hanswer, hitems⟩ := forall_listMethod hsilent hargs hincoming hvalues
        exact hput hobject .list hanswer hitems
    | set type contents =>
      dsimp only
      split
      · exact makes_newSet h element hvalues
      · obtain ⟨hanswer, hitems⟩ := forall_setMethod hsilent hargs hincoming hvalues
        exact hput hobject .set hanswer hitems
    | map keyType type contents =>
      have hentries := forall_entries.mp hvalues
      dsimp only
      split
      · exact makes_newSet h key (forall_mem_map.mpr fun entry hentry => (hentries entry hentry).1)
      split
      · exact makes_newList h element (forall_mem_map.mpr fun entry hentry => (hentries entry hentry).2)
      · obtain ⟨hanswer, hitems⟩ := forall_mapMethod hsilent hargs element hentries
        exact hput hobject .map hanswer (forall_entries.mpr hitems)

theorem makes_collections (hvalues : ∀ value ∈ call.values, contract.Admits heap value)
    (hcall : collections call heap = some made) : contract.Makes heap made := by
  rw [collections] at hcall
  split at hcall
  · cases hcall
  · rename_i receiver htarget
    have hargs : ∀ value ∈ call.args, contract.Admits heap value := fun value hvalue => hvalues value (by
      rw [LibraryCall.values, htarget]
      exact mem_cons_of_mem _ hvalue)
    split at hcall
    · cases hcall
    · obtain ⟨fallback, hfallback, hresult⟩ := Option.bind_eq_some_iff.mp hcall
      obtain ⟨answer, rfl⟩ := exists_of_collectionFallback? hfallback
      have hsilent := silent_unknown answer
      split at hresult
      · exact Option.some.inj hresult ▸ makes_silent h hsilent
      · exact Option.some.inj hresult ▸ makes_collectionMethod h hargs _ _ _ hsilent

omit h in
theorem silent_stringResult? {s : String} {value : Value} (hvalue : stringResult? s call = some value) :
    value.Silent := by
  unfold stringResult? at hvalue
  dsimp only at hvalue
  split at hvalue
  all_goals
    simp only [Option.bind_eq_bind, Option.bind_eq_some_iff, Option.map_eq_some_iff, Option.pure_def,
      Option.some.injEq, reduceCtorEq] at hvalue
  all_goals grind [Option.map_eq_some_iff, Option.bind_eq_some_iff, silent_ofText, silent_ofInt,
              silent_ofBool]

omit h in
theorem silent_staticStringMethod? {value : Value} (hvalue : staticStringMethod? call = some value) : value.Silent := by
  have hflag : ∀ flag : Option Bool, ((flag.map ofBool).getD (.unknown "Boolean")).Silent := by
    rintro (_ | _)
    · exact silent_unknown _
    · exact silent_ofBool _
  have htext : ∀ text : Option String, ((text.map ofText).getD (.unknown "String")).Silent := by
    rintro (_ | _)
    · exact silent_unknown _
    · exact silent_ofText _
  unfold staticStringMethod? at hvalue
  dsimp only at hvalue
  split at hvalue
  all_goals simp only [Option.some.injEq, reduceCtorEq] at hvalue
  all_goals subst hvalue
  all_goals first
    | exact hflag _
    | exact htext _

theorem makes_strings (hcall : strings call heap = some made) : contract.Makes heap made := by
  rw [strings] at hcall
  split at hcall
  · split at hcall
    · obtain ⟨answer, hanswer, rfl⟩ := Option.map_eq_some_iff.mp hcall
      exact makes_silent h (silent_staticStringMethod? hanswer)
    · cases hcall
  · rename_i receiver _
    split at hcall
    · obtain ⟨type, -, hresult⟩ := Option.bind_eq_some_iff.mp hcall
      have hcomputed : ∀ computed ∈ (receiver.text?.bind fun s =>
          if call.method = "split" then (splitPieces? s call).map fun pieces =>
            heap.newList "String" { items := pieces.map .ofText }
          else (stringResult? s call).map (·, heap)), contract.Makes heap computed := by
        intro computed hmade
        obtain ⟨text, -, hmade⟩ := Option.bind_eq_some_iff.mp hmade
        split at hmade
        · obtain ⟨pieces, -, rfl⟩ := Option.map_eq_some_iff.mp hmade
          refine makes_newList h _ (forall_mem_map.mpr fun piece _ =>
            Contract.admits_of_silent (silent_ofText piece))
        · obtain ⟨answer, hanswer, rfl⟩ := Option.map_eq_some_iff.mp hmade
          exact makes_silent h (silent_stringResult? hanswer)
      generalize (receiver.text?.bind fun s => _) = found at hresult hcomputed
      cases found with
      | none => exact Option.some.inj hresult ▸ makes_silent h (silent_unknown _)
      | some computed => exact Option.some.inj hresult ▸ hcomputed computed rfl
    · cases hcall

omit h in
theorem silent_schemaFallback (method type : String) : (schemaFallback method type).Silent := by
  unfold schemaFallback
  repeat' split
  all_goals exact silent_unknown _

theorem makes_tokenMethod {token : SchemaToken} (hcall : tokenMethod? token call heap = some made) :
    contract.Makes heap made := by
  have htoken : ∀ {found : SchemaToken}, some (ofToken found, heap) = some made → contract.Makes heap made :=
    fun heq =>
    Option.some.inj heq ▸ makes_silent h (silent_ofToken _)
  have htext : ∀ {found : Option String}, (found.bind fun name => some (ofText name, heap)) = some made →
      contract.Makes heap made := by
    intro found heq
    obtain ⟨name, -, heq⟩ := Option.bind_eq_some_iff.mp heq
    exact Option.some.inj heq ▸ makes_silent h (silent_ofText _)
  unfold tokenMethod? at hcall
  dsimp only at hcall
  split at hcall
  case h_3 =>
    obtain ⟨object, -, rfl⟩ := Option.map_eq_some_iff.mp hcall
    have hempty : ∀ v ∈ (HeapObject.instanceOf object).values, contract.Admits heap v := nofun
    exact makes_allocate h hempty object
  all_goals first
    | exact htoken hcall
    | exact htext hcall
    | cases hcall

theorem makes_schema (hcall : schema call heap = some made) : contract.Makes heap made := by
  rw [schema] at hcall
  split at hcall
  · split at hcall
    · cases hcall
    · split at hcall
      · exact Option.some.inj hcall ▸ makes_silent h (silent_ofToken _)
      · exact Option.some.inj hcall ▸ makes_silent h (silent_unknown _)
      · cases hcall
  · split at hcall
    · rename_i receiver _ token _
      cases hmade : tokenMethod? token call heap with
      | none =>
        rw [hmade] at hcall
        exact Option.some.inj hcall ▸ makes_silent h (silent_schemaFallback _ _)
      | some found =>
        rw [hmade] at hcall
        exact Option.some.inj hcall ▸ makes_tokenMethod h hmade
    · split at hcall
      · exact Option.some.inj hcall ▸ makes_silent h (silent_schemaFallback _ _)
      · cases hcall

omit h in
theorem silent_systemMethod? {value : Value} (hvalue : systemMethod? method = some value) : value.Silent := by
  unfold systemMethod? at hvalue
  split at hvalue
  all_goals simp only [Option.some.injEq, reduceCtorEq] at hvalue
  all_goals subst hvalue
  all_goals exact silent_unknown _

omit h in
theorem silent_userInfo? {value : Value} (hvalue : userInfo? method = some value) : value.Silent := by
  unfold userInfo? at hvalue
  repeat' split at hvalue
  all_goals simp only [Option.some.injEq, reduceCtorEq] at hvalue
  all_goals subst hvalue
  all_goals exact silent_unknown _

omit h in
theorem silent_testMethod? {value : Value} (hvalue : testMethod? method = some value) : value.Silent := by
  unfold testMethod? at hvalue
  split at hvalue
  all_goals simp only [Option.some.injEq, reduceCtorEq] at hvalue
  all_goals subst hvalue
  all_goals exact silent_unknown _

omit h in
theorem silent_converted? {type : String} {value converted : Value}
    (hvalue : converted? type value = some converted) : converted.Silent := by
  unfold converted? at hvalue
  obtain ⟨literal, -, hvalue⟩ := Option.bind_eq_some_iff.mp hvalue
  split at hvalue
  · cases hvalue
  · dsimp only at hvalue
    split at hvalue
    all_goals simp only [Option.map_eq_some_iff, Option.some.injEq, reduceCtorEq] at hvalue
    all_goals grind [silent_ofInt, silent_ofLiteral, silent_ofBool, silent_make_literal]

omit h in
theorem silent_valueOf? {value : Value} (hvalue : valueOf? call = some value) : value.Silent := by
  obtain ⟨type, -, rfl⟩ := Option.map_eq_some_iff.mp hvalue
  cases hconverted : (call.arg? 0).bind (converted? type) with
  | none => exact silent_unknown _
  | some converted =>
    obtain ⟨_, -, hconverted⟩ := Option.bind_eq_some_iff.mp hconverted
    exact silent_converted? hconverted

theorem makes_queryResult (query : Option String) : contract.Makes heap (queryResult query heap) :=
  makes_newList h _ nofun

theorem makes_databaseMethod (hcall : databaseMethod? call heap = some made) : contract.Makes heap made := by
  unfold databaseMethod? at hcall
  dsimp only at hcall
  split at hcall
  all_goals simp only [Option.some.injEq, reduceCtorEq] at hcall
  all_goals subst hcall
  case h_1 => exact makes_queryResult h _
  case h_2 => exact makes_queryResult h _
  all_goals exact makes_silent h (silent_unknown _)

theorem makes_system (hcall : system call heap = some made) : contract.Makes heap made := by
  have hpure : ∀ {answer : Option Value}, (∀ value, answer = some value → value.Silent) →
    answer.map (·, heap) = some made → contract.Makes heap made := by
    intro answer hsilent hanswer
    obtain ⟨value, hvalue, rfl⟩ := Option.map_eq_some_iff.mp hanswer
    exact makes_silent h (hsilent value hvalue)
  rw [system] at hcall
  split at hcall
  · cases hcall
  · split at hcall
    · exact hpure (fun _ => silent_systemMethod?) hcall
    split at hcall
    · exact makes_databaseMethod h hcall
    split at hcall
    · exact hpure (fun _ => silent_userInfo?) hcall
    split at hcall
    · refine hpure (fun value hvalue => ?_) hcall
      split at hvalue
      · exact Option.some.inj hvalue ▸ silent_unknown _
      · cases hvalue
    split at hcall
    · exact hpure (fun _ => silent_testMethod?) hcall
    split at hcall
    · exact hpure (fun _ => silent_valueOf?) hcall
    · cases hcall

/-- A call lets the heap grow, and it and the result mention valid references only if the arguments did. -/
theorem makes_invoke (hvalues : ∀ value ∈ call.values, contract.Admits heap value)
    (hcall : invoke call heap = some made) : contract.Makes heap made := by
  obtain ⟨⟨name, handler⟩, hhandler, hresult⟩ := exists_of_findSome?_eq_some hcall
  simp only [handlers, mem_cons, not_mem_nil, or_false, Prod.mk.injEq] at hhandler
  obtain ⟨-, rfl⟩ | ⟨-, rfl⟩ | ⟨-, rfl⟩ | ⟨-, rfl⟩ := hhandler
  · exact makes_strings h hresult
  · exact makes_collections h hvalues hresult
  · exact makes_schema h hresult
  · exact makes_system h hresult

end

end Library

end ApexPaths
