import ApexPaths.Memory.Scope
import ApexPaths.Value.Operators

/-!
References and the objects that they name. A value mentions an object if it is a reference to it or lists one among the
values of a loop. Heaps grow: no object goes away, and none changes its kind or its type.
-/

namespace ApexPaths
set_option autoImplicit false

open List

variable {type : String} {items : List Value} {vars : VariableMap} {name : String} {found : Variable}
variable {scope : StaticScope} {object : HeapObject}

/-! ## Values -/

/-- A value refers to an object, itself or by one of the values of a loop. -/
inductive Value.Mentions (ref : HeapRef) : Value → Prop
  | reference {value : Value} (h : value.content = .reference ref) : Mentions ref value
  | loop {value item : Value} {items : List Value} (h : value.content = .loop items) (hmem : item ∈ items)
      (hitem : Mentions ref item) : Mentions ref value

/-- The value mentions no object. -/
def Value.Silent (value : Value) : Prop := ∀ ref, ¬value.Mentions ref

namespace Value

variable {value other : Value} {ref : HeapRef}

theorem Mentions.of_content (h : value.Mentions ref) (hcontent : other.content = value.content) :
    other.Mentions ref := by
  cases h with
  | reference h => exact .reference (hcontent.trans h)
  | loop h hmem hitem => exact .loop (hcontent.trans h) hmem hitem

theorem content_retyped (value : Value) (type : String) : (value.retyped type).content = value.content := by
  unfold retyped
  split <;> rfl

theorem Mentions.of_retyped (h : (value.retyped type).Mentions ref) : value.Mentions ref :=
  h.of_content (content_retyped value type).symm

theorem Mentions.of_withOrigin {origin : VertexId} (h : (value.withOrigin origin).Mentions ref) :
    value.Mentions ref := h.of_content rfl

theorem mentions_ofRef {target : HeapRef} : (ofRef type target).Mentions ref ↔ ref = target := by
  refine ⟨fun h => ?_, fun h => .reference (h ▸ rfl)⟩
  generalize hvalue : ofRef type target = made at h
  cases h with
  | reference h => exact (Content.reference.inj (hvalue ▸ h : Content.reference target = _)).symm
  | loop h => cases (hvalue ▸ h : Content.reference target = _)

theorem mentions_of_ref? (h : value.ref? = some ref) : value.Mentions ref := by
  rw [ref?] at h
  split at h
  · rename_i found hcontent
    cases h
    exact .reference hcontent
  · cases h

theorem mentions_ofLoop (h : (ofLoop type items).Mentions ref) : ∃ item ∈ items, item.Mentions ref := by
  generalize hvalue : ofLoop type items = made at h
  cases h with
  | reference h => cases (hvalue ▸ h : Content.loop items = _)
  | loop h hmem hitem =>
    obtain rfl := Content.loop.inj (hvalue ▸ h : Content.loop items = _)
    exact ⟨_, hmem, hitem⟩

/-! ## Values without objects -/

theorem silent_of_content (href : ∀ ref, value.content ≠ .reference ref)
    (hloop : ∀ items, value.content ≠ .loop items) : value.Silent := by
  intro ref h
  cases h with
  | reference h => exact href ref h
  | loop h => exact hloop _ h

theorem silent_ofLiteral (literal : Literal) : (ofLiteral literal).Silent := silent_of_content nofun nofun

theorem silent_null : null.Silent := silent_ofLiteral _

theorem silent_nullOf (type : String) : (nullOf type).Silent := silent_of_content nofun nofun

theorem silent_ofText (text : String) : (ofText text).Silent := silent_ofLiteral _

theorem silent_ofInt (n : Int) : (ofInt n).Silent := silent_ofLiteral _

theorem silent_ofBool (b : Bool) : (ofBool b).Silent := silent_ofLiteral _

theorem silent_unknown (type : String) : (unknown type).Silent := silent_of_content nofun nofun

theorem silent_void : void.Silent := silent_unknown _

theorem silent_ofToken (token : SchemaToken) : (ofToken token).Silent := silent_of_content nofun nofun

theorem silent_make_literal (type : String) (literal : Literal) : (make type (.literal literal)).Silent :=
  silent_of_content nofun nofun

theorem Silent.withOrigin (h : value.Silent) (origin : VertexId) : (value.withOrigin origin).Silent :=
  fun ref hmentions =>
  h ref hmentions.of_withOrigin

theorem silent_ofLoop (h : ∀ item ∈ items, item.Silent) : (ofLoop type items).Silent := by
  intro ref hmentions
  obtain ⟨item, hmem, hitem⟩ := mentions_ofLoop hmentions
  exact h item hmem ref hitem

end Value

/-! ## Operators -/

theorem Number.silent_toValue (number : Number) : number.toValue.Silent := by
  cases number <;> exact Value.silent_ofLiteral _

namespace Operator

variable {op : String} {left right value : Value}

theorem silent_binary? (h : binary? op left right = some value) : value.Silent := by
  rw [binary?] at h
  split at h
  · obtain ⟨_, -, h⟩ := Option.bind_eq_some_iff.mp h
    obtain ⟨_, -, h⟩ := Option.bind_eq_some_iff.mp h
    exact Option.some.inj h ▸ Value.silent_ofText _
  · obtain ⟨_, -, h⟩ := Option.bind_eq_some_iff.mp h
    obtain ⟨_, -, h⟩ := Option.bind_eq_some_iff.mp h
    obtain ⟨_, -, h⟩ := Option.bind_eq_some_iff.mp h
    exact Option.some.inj h ▸ Number.silent_toValue _

theorem silent_compare? (h : compare? op left right = some value) : value.Silent := by
  obtain ⟨_, -, rfl⟩ := Option.map_eq_some_iff.mp h
  exact Value.silent_ofBool _

theorem silent_shortCircuit? (h : shortCircuit? op left = some value) : value.Silent := by
  unfold shortCircuit? at h
  split at h
  · exact Option.some.inj h ▸ Value.silent_ofBool _
  · exact Option.some.inj h ▸ Value.silent_ofBool _
  · cases h

theorem silent_logical? (h : logical? op left right = some value) : value.Silent := by
  unfold logical? at h
  split at h
  · rename_i decided hdecided
    exact Option.some.inj h ▸ silent_shortCircuit? hdecided
  · split at h
    all_goals first
      | exact Option.some.inj h ▸ Value.silent_ofBool _
      | cases h

theorem silent_unary? (h : unary? op left = some value) : value.Silent := by
  unfold unary? at h
  split at h
  · obtain ⟨_, -, rfl⟩ := Option.map_eq_some_iff.mp h
    exact Value.silent_ofBool _
  · obtain ⟨_, -, h⟩ := Option.bind_eq_some_iff.mp h
    obtain ⟨_, -, h⟩ := Option.bind_eq_some_iff.mp h
    exact Option.some.inj h ▸ Number.silent_toValue _
  · obtain ⟨_, -, rfl⟩ := Option.map_eq_some_iff.mp h
    exact Number.silent_toValue _
  · cases h

theorem silent_step? (h : step? op left = some value) : value.Silent := by
  have hstep : ∀ sign, (do
      let number ← Number.ofValue? left
      return (← arithmetic? sign number number.one).toValue) = some value → value.Silent := by
    intro sign h
    obtain ⟨_, -, h⟩ := Option.bind_eq_some_iff.mp h
    obtain ⟨_, -, h⟩ := Option.bind_eq_some_iff.mp h
    exact Option.some.inj h ▸ Number.silent_toValue _
  unfold step? at h
  split at h
  · exact hstep _ h
  · exact hstep _ h
  · cases h

end Operator

/-! ## Values that are stored -/

/-- The values that an object holds. -/
def HeapObject.values : HeapObject → List Value
  | .record _ fields => fields.map (·.2)
  | .list _ contents | .set _ contents => contents.items
  | .map _ _ contents => contents.items.flatMap fun entry => [entry.1, entry.2]

def VariableMap.values (vars : VariableMap) : List Value := vars.map (·.2.value)

def StaticScopes.values (scopes : StaticScopes) : List Value := scopes.flatMap (·.2.vars.values)

def Frame.values (frame : Frame) : List Value :=
  frame.parameters.values ++ frame.blocks.flatMap (·.vars.values) ++ frame.returned.toList

section
variable {P : Value → Prop}

theorem mem_assign {α : Type} {key : String} {value : α} {entries : List (String × α)} {entry : String × α}
    (h : entry ∈ assign key value entries) : entry.2 = value ∨ entry ∈ entries := by
  induction entries with
  | nil => exact .inl (mem_singleton.mp h ▸ rfl)
  | cons first rest ih =>
    obtain ⟨k, v⟩ := first
    rw [assign] at h
    split at h
    · rcases mem_cons.mp h with rfl | h
      · exact .inl rfl
      · exact .inr (mem_cons_of_mem _ h)
    · rcases mem_cons.mp h with rfl | h
      · exact .inr mem_cons_self
      · exact (ih h).imp_right (mem_cons_of_mem _)

section
variable (h : ∀ value ∈ vars.values, P value)
include h

theorem VariableMap.forall_assign {var : Variable} (hvar : P var.value) (key : String) :
    ∀ value ∈ VariableMap.values (assign key var vars), P value := by
  refine forall_mem_map.mpr fun entry hentry => ?_
  rcases mem_assign hentry with heq | hold
  · exact heq ▸ hvar
  · exact h _ (mem_map_of_mem hold)

theorem VariableMap.forall_declare {value : Value} (hvalue : P value)
    (name type : String) : ∀ v ∈ (vars.declare name type value).values, P v := forall_assign h hvalue _

theorem VariableMap.forall_assign? {changed : VariableMap} {value : Value}
    (hvalue : P value) (hchanged : vars.assign? name value = some changed) : ∀ value ∈ changed.values, P value := by
  obtain ⟨found, -, rfl⟩ := Option.map_eq_some_iff.mp hchanged
  exact forall_assign h hvalue _

end

theorem VariableMap.mem_values_of_get? (h : vars.get? name = some found) :
    found.value ∈ vars.values := by
  obtain ⟨entry, hentry, rfl⟩ := Option.map_eq_some_iff.mp h
  exact mem_map_of_mem (mem_of_find?_eq_some hentry)

namespace Frame

variable {frame : Frame}

/-- Every value of a frame is in its parameters, in its blocks, or is returned. -/
theorem forall_values : (∀ value ∈ frame.values, P value) ↔ (∀ value ∈ frame.parameters.values, P value) ∧
    (∀ block ∈ frame.blocks, ∀ value ∈ block.vars.values, P value) ∧ ∀ value ∈ frame.returned, P value := by
  rw [values, forall_mem_append, forall_mem_append, forall_mem_flatMap, and_assoc]
  simp only [Option.mem_toList, Option.mem_def]

theorem forall_declare (h : ∀ value ∈ frame.values, P value) {value : Value} (hvalue : P value) (name type : String) :
    ∀ v ∈ (frame.declare name type value).values, P v := by
  obtain ⟨hparameters, hblocks, hreturned⟩ := forall_values.mp h
  obtain ⟨method, owner, this, returned, parameters, blocks⟩ := frame
  cases blocks with
  | nil => exact forall_values.mpr ⟨VariableMap.forall_declare hparameters hvalue name type, hblocks, hreturned⟩
  | cons block blocks =>
    obtain ⟨hblock, hrest⟩ := forall_mem_cons.mp hblocks
    exact forall_values.mpr
      ⟨hparameters, forall_mem_cons.mpr ⟨VariableMap.forall_declare hblock hvalue name type, hrest⟩, hreturned⟩

theorem forall_assignBlocks? {value : Value} (hvalue : P value) {blocks changed : List Block}
    (h : ∀ block ∈ blocks, ∀ value ∈ block.vars.values, P value)
    (hchanged : assignBlocks? name value blocks = some changed) :
    ∀ block ∈ changed, ∀ value ∈ block.vars.values, P value := by
  induction blocks generalizing changed with
  | nil => cases hchanged
  | cons block blocks ih =>
    obtain ⟨hblock, hrest⟩ := forall_mem_cons.mp h
    rw [assignBlocks?] at hchanged
    split at hchanged
    · rename_i vars hvars
      cases hchanged
      exact forall_mem_cons.mpr ⟨VariableMap.forall_assign? hblock hvalue hvars, hrest⟩
    · obtain ⟨rest, hassigned, rfl⟩ := Option.map_eq_some_iff.mp hchanged
      exact forall_mem_cons.mpr ⟨hblock, ih hrest hassigned⟩

section
variable (h : ∀ value ∈ frame.values, P value)
include h

theorem forall_assigned {value : Value} (hvalue : P value) (name : String) :
    ∀ v ∈ ((frame.assign? name value).getD frame).values, P v := by
  obtain ⟨hparameters, hblocks, hreturned⟩ := forall_values.mp h
  unfold assign?
  cases hassigned : assignBlocks? name value frame.blocks with
  | some blocks => exact forall_values.mpr ⟨hparameters, forall_assignBlocks? hvalue hblocks hassigned, hreturned⟩
  | none =>
    cases hvars : frame.parameters.assign? name value with
    | none => exact h
    | some vars => exact forall_values.mpr ⟨VariableMap.forall_assign? hparameters hvalue hvars, hblocks, hreturned⟩

theorem forall_popBlocks (count : Nat) : ∀ value ∈ (frame.popBlocks count).values, P value := by
  obtain ⟨hparameters, hblocks, hreturned⟩ := forall_values.mp h
  exact forall_values.mpr ⟨hparameters, fun block hblock => hblocks block (mem_of_mem_drop hblock), hreturned⟩

theorem forall_pushBlock (kind : NodeKind) : ∀ value ∈ (frame.pushBlock kind).values, P value := by
  obtain ⟨hparameters, hblocks, hreturned⟩ := forall_values.mp h
  exact forall_values.mpr ⟨hparameters, forall_mem_cons.mpr ⟨nofun, hblocks⟩, hreturned⟩

end

theorem mem_values_of_lookup? (h : frame.lookup? name = some found) : found.value ∈ frame.values := by
  rw [lookup?, Option.orElse_eq_orElse, Option.orElse_eq_or] at h
  rcases Option.or_eq_some_iff.mp h with h | ⟨-, h⟩
  · obtain ⟨block, hblock, hfound⟩ := exists_of_findSome?_eq_some h
    exact mem_append_left _
      (mem_append_right _ (mem_flatMap.mpr ⟨block, hblock, VariableMap.mem_values_of_get? hfound⟩))
  · exact mem_append_left _ (mem_append_left _ (VariableMap.mem_values_of_get? h))

end Frame

theorem StaticScope.vars_begin (scope : StaticScope) : scope.begin.2.vars = scope.vars := by
  unfold begin
  split <;> rfl

namespace StaticScopes

variable {scopes : StaticScopes}

theorem mem_values_of_get? {owner : String} (h : scopes.get? owner = some scope) {value : Value}
    (hvalue : value ∈ scope.vars.values) : value ∈ scopes.values := by
  obtain ⟨entry, hentry, rfl⟩ := Option.map_eq_some_iff.mp h
  exact mem_flatMap.mpr ⟨entry, mem_of_find?_eq_some hentry, hvalue⟩

section
variable (h : ∀ value ∈ scopes.values, P value)
include h

theorem forall_get (owner : String) : ∀ value ∈ (scopes.get owner).vars.values, P value := by
  rw [get]
  cases hfound : scopes.get? owner with
  | none => nofun
  | some scope => exact fun value hvalue => h value (mem_values_of_get? hfound hvalue)

theorem forall_put (owner : String) (hscope : ∀ value ∈ scope.vars.values, P value) :
    ∀ value ∈ (scopes.put owner scope).values, P value := by
  refine forall_mem_flatMap.mpr fun entry hentry => ?_
  rcases mem_assign hentry with heq | hold
  · exact heq ▸ hscope
  · exact forall_mem_flatMap.mp h entry hold

theorem forall_begin (owner : String) : ∀ value ∈ (scopes.begin owner).2.values, P value := by
  have hscope : ∀ value ∈ (scopes.get owner).begin.2.vars.values, P value := by
    rw [StaticScope.vars_begin]
    exact forall_get h owner
  exact forall_put h owner hscope

theorem forall_finish (owner : String) : ∀ value ∈ (scopes.finish owner).values, P value :=
  forall_put h owner (forall_get h owner)

theorem forall_declare {value : Value} (hvalue : P value) (owner name type : String) :
    ∀ v ∈ (scopes.declare owner name type value).values, P v :=
  forall_put h owner (VariableMap.forall_declare (forall_get h owner) hvalue name type)

theorem forall_write {value : Value} (hvalue : P value) (owner name : String) :
    ∀ v ∈ (scopes.write owner name value).values, P v := by
  refine forall_put h owner ?_
  dsimp only
  cases hassigned : (scopes.get owner).vars.assign? name value with
  | none => exact VariableMap.forall_declare (forall_get h owner) hvalue name _
  | some vars => exact VariableMap.forall_assign? (forall_get h owner) hvalue hassigned

end

theorem mem_values_of_lookup? {owner : String} (h : scopes.lookup? owner name = some found) :
    found.value ∈ scopes.values := by
  obtain ⟨scope, hscope, hfound⟩ := Option.bind_eq_some_iff.mp h
  exact mem_values_of_get? hscope (VariableMap.mem_values_of_get? hfound)

end StaticScopes

end

/-! ## Heaps -/

/-- Two objects of the same kind and type. -/
inductive HeapObject.Alike : HeapObject → HeapObject → Prop
  | record {type : String} {fields fields' : List (String × Value)} : Alike (.record type fields) (.record type fields')
  | list {element : String} {contents contents' : Contents Value} :
      Alike (.list element contents) (.list element contents')
  | set {element : String} {contents contents' : Contents Value} :
      Alike (.set element contents) (.set element contents')
  | map {key value : String} {contents contents' : Contents (Value × Value)} :
      Alike (.map key value contents) (.map key value contents')

namespace HeapObject.Alike

theorem refl (object : HeapObject) : object.Alike object := by cases object <;> constructor

theorem trans {a b c : HeapObject} (h : a.Alike b) (h' : b.Alike c) : a.Alike c := by
  cases h <;> cases h' <;> constructor

end HeapObject.Alike

/-- Every object of a heap is in a later one, with its kind and its type. -/
def Heap.Grows (heap later : Heap) : Prop :=
  ∀ ref object, heap.get? ref = some object → ∃ object', later.get? ref = some object' ∧ object.Alike object'

namespace Heap

variable {heap later : Heap}

theorem lt_size_of_get? {ref : HeapRef} {object : HeapObject} (h : heap.get? ref = some object) : ref < heap.size :=
  (Array.getElem?_eq_some_iff.mp h).1

theorem get?_allocate_of_lt (object : HeapObject) {ref : HeapRef} (h : ref < heap.size) :
    (heap.allocate object).2.get? ref = heap.get? ref := by
  show (heap.objects.push object)[ref]? = heap.objects[ref]?
  exact Array.getElem?_push_lt h |>.trans (Array.getElem?_eq_getElem h).symm

theorem size_allocate (heap : Heap) (object : HeapObject) : (heap.allocate object).2.size = heap.size + 1 :=
  Array.size_push _

namespace Grows

theorem refl (heap : Heap) : heap.Grows heap := fun _ object h => ⟨object, h, .refl object⟩

theorem trans {last : Heap} (h : heap.Grows later) (h' : later.Grows last) : heap.Grows last := by
  intro ref object hobject
  obtain ⟨object', hobject', halike⟩ := h ref object hobject
  obtain ⟨object'', hobject'', halike'⟩ := h' ref object' hobject'
  exact ⟨object'', hobject'', halike.trans halike'⟩

theorem size_le (h : heap.Grows later) : heap.size ≤ later.size := by
  refine Nat.le_of_not_lt fun hlt => ?_
  obtain ⟨_, hlater, -⟩ := h later.size _ (Array.getElem?_eq_getElem hlt)
  exact absurd (lt_size_of_get? hlater) (Nat.lt_irrefl _)

theorem allocate (heap : Heap) (object : HeapObject) : heap.Grows (heap.allocate object).2 := fun _ found h =>
  ⟨found, (get?_allocate_of_lt object (lt_size_of_get? h)).trans h, .refl found⟩

theorem put {ref : HeapRef} {object' : HeapObject} (hobject : heap.get? ref = some object)
    (halike : object.Alike object') : heap.Grows (heap.put ref object') := by
  intro other found hfound
  by_cases heq : ref = other
  · subst heq
    cases hobject.symm.trans hfound
    refine ⟨object', ?_, halike⟩
    show (heap.objects.setIfInBounds ref object')[ref]? = _
    rw [Array.getElem?_setIfInBounds_self_of_lt (lt_size_of_get? hfound)]
  · refine ⟨found, ?_, .refl found⟩
    show (heap.objects.setIfInBounds ref object')[other]? = _
    rw [Array.getElem?_setIfInBounds_ne heq]
    exact hfound

theorem setField (heap : Heap) (ref : HeapRef) (name : String) (value : Value) :
    heap.Grows (heap.setField ref name value) := by
  rw [Heap.setField, setField?]
  split
  · rename_i type fields hobject
    exact put hobject .record
  · exact refl heap

end Grows

end Heap

/-! ## Contracts -/

/-- Which references may occur beside a heap: those to new objects, and whatever was valid beside an earlier heap. -/
structure Contract where
  valid : Heap → HeapRef → Prop
  grow : ∀ {heap later ref}, heap.Grows later → valid heap ref → valid later ref
  fresh : ∀ (heap : Heap) (object : HeapObject), valid (heap.allocate object).2 heap.size

namespace Contract

variable (contract : Contract)

/-- What a value mentions is valid. -/
def Admits (heap : Heap) (value : Value) : Prop := ∀ ref, value.Mentions ref → contract.valid heap ref

/-- All that the objects of a heap mention is valid. -/
def Keeps (heap : Heap) : Prop := ∀ object ∈ heap.objects, ∀ value ∈ object.values, contract.Admits heap value

variable {contract} {heap later : Heap} {value : Value}

theorem admits_of_silent (h : value.Silent) : contract.Admits heap value :=
  fun ref hmentions => absurd hmentions (h ref)

namespace Admits

theorem grow (h : contract.Admits heap value) (hgrows : heap.Grows later) : contract.Admits later value :=
  fun ref hmentions => contract.grow hgrows (h ref hmentions)

theorem retyped (h : contract.Admits heap value) (type : String) : contract.Admits heap (value.retyped type) :=
  fun ref hmentions => h ref hmentions.of_retyped

theorem withOrigin (h : contract.Admits heap value) (origin : VertexId) :
    contract.Admits heap (value.withOrigin origin) :=
  fun ref hmentions => h ref hmentions.of_withOrigin

theorem ofLoop (h : ∀ item ∈ items, contract.Admits heap item) (type : String) :
    contract.Admits heap (.ofLoop type items) := by
  intro ref hmentions
  obtain ⟨item, hmem, hitem⟩ := Value.mentions_ofLoop hmentions
  exact h item hmem ref hitem

theorem valid_of_ref? (h : contract.Admits heap value) {ref : HeapRef} (href : value.ref? = some ref) :
    contract.valid heap ref :=
  h ref (Value.mentions_of_ref? href)

end Admits

theorem admits_ofRef {ref : HeapRef} (h : contract.valid heap ref) : contract.Admits heap (.ofRef type ref) := by
  intro other hmentions
  exact Value.mentions_ofRef.mp hmentions ▸ h

theorem admits_getD {found : Option Value} (h : ∀ value ∈ found, contract.Admits heap value) {default : Value}
    (hdefault : default.Silent) : contract.Admits heap (found.getD default) := by
  cases found with
  | none => exact admits_of_silent hdefault
  | some value => exact h value rfl

namespace Keeps

section
variable (h : contract.Keeps heap)
include h

theorem of_get? {ref : HeapRef} (hobject : heap.get? ref = some object) :
    ∀ value ∈ object.values, contract.Admits heap value := h object (Array.mem_of_getElem? hobject)

theorem allocate (hobject : ∀ value ∈ object.values, contract.Admits heap value) :
    contract.Keeps (heap.allocate object).2 := by
  intro other hother value hvalue
  rcases Array.mem_push.mp hother with hother | rfl
  · exact (h other hother value hvalue).grow (.allocate heap object)
  · exact (hobject value hvalue).grow (.allocate heap other)

theorem put {ref : HeapRef} {object' : HeapObject} (hobject : heap.get? ref = some object)
    (halike : object.Alike object') (hvalues : ∀ value ∈ object'.values, contract.Admits heap value) :
    contract.Keeps (heap.put ref object') := by
  intro other hother value hvalue
  rcases Array.mem_or_eq_of_mem_setIfInBounds hother with hother | rfl
  · exact (h other hother value hvalue).grow (.put hobject halike)
  · exact (hvalues value hvalue).grow (.put hobject halike)

theorem setField (ref : HeapRef) (name : String) {value : Value} (hvalue : contract.Admits heap value) :
    contract.Keeps (heap.setField ref name value) := by
  rw [Heap.setField, Heap.setField?]
  split
  · rename_i type fields hobject
    refine h.put hobject .record (forall_mem_map.mpr fun entry hentry => ?_)
    rcases mem_assign hentry with heq | hold
    · exact heq ▸ hvalue
    · exact h.of_get? hobject _ (mem_map_of_mem hold)
  · exact h

theorem field? {ref : HeapRef} (hvalue : heap.field? ref name = some value) : contract.Admits heap value := by
  rw [Heap.field?] at hvalue
  split at hvalue
  · rename_i type fields hobject
    obtain ⟨entry, hentry, rfl⟩ := Option.map_eq_some_iff.mp hvalue
    exact h.of_get? hobject _ (mem_map_of_mem (mem_of_find?_eq_some hentry))
  · cases hvalue

end

end Keeps

end Contract

/-!
## States of classes

To begin and to finish the initialization of a class changes its state and that of no other; variables
may be declared and written without any change.
-/

theorem find?_assign {α : Type} (key other : String) (value : α) (entries : List (String × α)) :
    (assign key value entries).find? (·.1 == other) = if key = other then some (key, value)
    else entries.find? (·.1 == other) := by
  induction entries with
  | nil =>
    rw [assign, List.find?_singleton]
    simp only [beq_iff_eq, List.find?_nil]
  | cons entry rest ih =>
    obtain ⟨k, v⟩ := entry
    rw [assign]
    split
    · rename_i hk
      obtain rfl := eq_of_beq hk
      rw [List.find?_cons, List.find?_cons]
      by_cases hother : k = other
      · simp [hother]
      · simp [hother, beq_eq_false_iff_ne.mpr hother]
    · rename_i hk
      rw [List.find?_cons, List.find?_cons, ih]
      by_cases hother : k = other
      · have hne : key ≠ other := fun heq => hk (by simp [heq, hother])
        simp [hother, hne]
      · simp [beq_eq_false_iff_ne.mpr hother]

namespace StaticScopes

variable (scopes : StaticScopes) (owner other : String)

theorem get?_put (scope : StaticScope) :
    (scopes.put owner scope).get? other = if Text.lower owner = Text.lower other then some scope
    else scopes.get? other := by
  rw [get?, put, find?_assign]
  split <;> rfl

theorem state_put (scope : StaticScope) :
    (scopes.put owner scope).state other = if Text.lower owner = Text.lower other then scope.state
    else scopes.state other := by
  rw [state, get?_put]
  split <;> rfl

theorem state_get : (scopes.get owner).state = scopes.state owner := by
  rw [get, state]
  cases scopes.get? owner <;> rfl

variable {owner other} in
theorem state_congr (h : Text.lower owner = Text.lower other) : scopes.state owner = scopes.state other := by
  rw [state, state, get?, get?, h]

theorem state_put_same (h : scope.state = (scopes.get owner).state) :
    (scopes.put owner scope).state other = scopes.state other := by
  rw [state_put]
  split
  · rename_i heq
    rw [h, state_get, scopes.state_congr heq]
  · rfl

theorem begin_fst : (scopes.begin owner).1 = decide (scopes.state owner = .uninitialized) := by
  have h : (scopes.begin owner).1 = (scopes.get owner).begin.1 := rfl
  rw [h, StaticScope.begin, ← state_get]
  split
  · rename_i heq
    exact (decide_eq_true heq).symm
  · rename_i hne
    exact (decide_eq_false hne).symm

theorem state_begin : (scopes.begin owner).2.state other =
    if Text.lower owner = Text.lower other ∧ scopes.state owner = .uninitialized then .initializing
      else scopes.state other := by
  have h : (scopes.begin owner).2 = scopes.put owner (scopes.get owner).begin.2 := rfl
  rw [h]
  by_cases hstate : scopes.state owner = .uninitialized
  · have hscope : (scopes.get owner).begin.2.state = .initializing := by
      rw [StaticScope.begin, if_pos ((state_get ..).trans hstate)]
    rw [state_put, hscope]
    simp [hstate]
  · have hscope : (scopes.get owner).begin.2 = scopes.get owner := by
      rw [StaticScope.begin, if_neg (mt (state_get ..).symm.trans hstate)]
    rw [hscope, state_put_same _ _ _ rfl]
    simp [hstate]

theorem state_finish : (scopes.finish owner).state other = if Text.lower owner = Text.lower other then .initialized
    else scopes.state other :=
  state_put ..

theorem state_declare (name type : String) (value : Value) :
    (scopes.declare owner name type value).state other = scopes.state other :=
  state_put_same _ _ _ rfl

theorem state_write (name : String) (value : Value) :
    (scopes.write owner name value).state other = scopes.state other := state_put_same _ _ _ rfl

end StaticScopes

end ApexPaths
