import ApexPaths.Proofs.Walk.Evaluation
import ApexPaths.Proofs.Walk.Safety

/-!
Safe evaluation of names and expressions. Every value that an expression gives mentions valid references only: it is
written out, read from the state, the result of a method, or a reference to a new object.
-/

namespace ApexPaths
set_option autoImplicit false

open WalkM Safe List Contract Value

variable {σ : Type}
variable {name : String} {value : Value}

namespace Walker

variable {walker : Walker σ} {duty : Duty σ} {perform : Perform σ} {known : String → Prop} {state : WalkState σ}

theorem safe_unknown (hstate : Sound duty state) (expr : VertexId) :
    Safe duty state (Pure.pure (walker.unknown expr) : WalkM σ Value) (Gives duty) :=
  .pure hstate (admits_of_silent (silent_unknown _))

/-! ## Names -/

section
variable (hstate : Sound duty state) (hclasses : Initializes walker duty perform known state)
include hstate hclasses

theorem safe_staticValue? (owner : VertexId) (name : String) :
    Safe duty state (walker.staticValue? perform owner name) (GivesAny duty) := by
  refine (safe_ensureInitialized hstate hclasses owner).bind fun next _ hnext _ _ =>
    .symbols_bind (.pure hnext fun value hvalue => ?_)
  obtain ⟨found, hfound, rfl⟩ := Option.map_eq_some_iff.mp hvalue
  exact hnext.statics_lookup? hfound

theorem safe_declaredValue (binding : Binding) (name : String) :
    Safe duty state (walker.declaredValue perform binding name) (Gives duty) := by
  rw [declaredValue]
  cases staticOwner? binding.declared with
  | none => exact .pure hstate (admits_of_silent (silent_unknown _))
  | some owner =>
    exact (safe_staticValue? hstate hclasses owner name).bind fun next found hnext _ hfound =>
      .pure hnext (admits_getD hfound (silent_unknown _))

theorem safe_nameValue? (name : String) (place : VertexId) :
    Safe duty state (walker.nameValue? perform name place) (GivesAny duty) := by
  rw [nameValue?]
  refine .frame_bind fun _ _ => .symbols_bind ?_
  cases hlookup : state.symbols.lookup? name with
  | some value => exact .pure hstate fun found hfound => Option.some.inj hfound ▸ hstate.lookup? hlookup
  | none =>
    cases walker.program.variableBinding? name place with
    | none => exact .pure hstate fun _ hnone => absurd hnone (Option.not_mem_none _)
    | some binding =>
      exact (safe_declaredValue hstate hclasses binding name).bind fun next value hnext _ hvalue =>
        .pure hnext fun found hfound => Option.some.inj hfound ▸ hvalue

omit hstate hclasses in
theorem silent_enumConstant? {type : VertexId} (h : walker.enumConstant? type name = some value) : value.Silent := by
  rw [enumConstant?] at h
  split at h
  · obtain ⟨constant, -, rfl⟩ := Option.map_eq_some_iff.mp h
    exact silent_make_literal _ _
  · cases h

theorem safe_staticMember? (type : VertexId) (name : String) :
    Safe duty state (walker.staticMember? perform type name) (GivesAny duty) := by
  rw [staticMember?]
  cases hconstant : walker.enumConstant? type name with
  | some constant =>
    exact .pure hstate fun found hfound =>
      admits_of_silent (Option.some.inj hfound ▸ silent_enumConstant? hconstant)
  | none =>
    cases walker.program.memberBinding? type name with
    | none => exact .pure hstate fun _ hnone => absurd hnone (Option.not_mem_none _)
    | some binding =>
      exact (safe_declaredValue hstate hclasses binding name).bind fun next value hnext _ hvalue =>
        .pure hnext fun found hfound => Option.some.inj hfound ▸ hvalue

omit hstate hclasses in
theorem silent_schemaMember? {holder : Value} (h : Library.schemaMember? holder name = some value) : value.Silent := by
  unfold Library.schemaMember? at h
  obtain ⟨token, -, h⟩ := Option.bind_eq_some_iff.mp h
  split at h
  all_goals simp only [Option.some.injEq, reduceCtorEq] at h
  all_goals exact h ▸ silent_ofToken _

omit hclasses in
theorem admits_memberOf (fallback : String) (holder : Value) (name : String) :
    duty.Admits state.symbols.heap (walker.memberOf state.symbols.heap fallback holder name) := by
  refine admits_getD (fun value hvalue => ?_) (silent_unknown _)
  simp only [Option.orElse_eq_orElse, Option.orElse_eq_or, Option.mem_def, Option.or_eq_some_iff] at hvalue
  rcases hvalue with hvalue | ⟨-, hvalue⟩
  · exact admits_of_silent (silent_schemaMember? hvalue)
  · obtain ⟨ref, -, hfield⟩ := Option.bind_eq_some_iff.mp hvalue
    exact hstate.heap.field? hfield

omit hclasses in
theorem safe_membersOf (hvalue : duty.Admits state.symbols.heap value) (names : List String) :
    Safe duty state (walker.membersOf value names) (Gives duty) := by
  refine .heap_bind (.pure hstate ?_)
  rw [Gives]
  induction names generalizing value with
  | nil => exact hvalue
  | cons name names ih => exact ih (admits_memberOf hstate "Object" value name)

omit hclasses in
theorem safe_members (hvalue : duty.Admits state.symbols.heap value) (names : List String) :
    Safe duty state (do return .value (← walker.membersOf value names) : WalkM σ Denoted)
      fun next denoted => ∀ value, denoted = .value value → duty.Admits next.symbols.heap value :=
  (safe_membersOf hstate hvalue names).bind fun _ _ hnext _ hfound => .pure hnext fun _ hother =>
  Denoted.value.inj hother ▸ hfound

omit hstate hclasses in
theorem silent_schemaReference? {names : List String} (h : Library.schemaReference? names = some value) :
    value.Silent := by
  obtain ⟨⟨token, rest⟩, -, h⟩ := Option.bind_eq_some_iff.mp h
  have hfold : ∀ (rest : List String) (start : Value), start.Silent → rest.foldlM Library.schemaMember? start =
      some value → value.Silent := by
    intro rest
    induction rest with
    | nil => exact fun start hstart hfound => Option.some.inj hfound ▸ hstart
    | cons name rest ih =>
      intro start _ hfound
      rw [foldlM_cons] at hfound
      obtain ⟨member, hmember, hfound⟩ := Option.bind_eq_some_iff.mp hfound
      exact ih member (silent_schemaMember? hmember) hfound
  exact hfold rest _ (silent_ofToken _) h

theorem safe_resolveType (names : List String) (place : VertexId) :
    Safe duty state (walker.resolveType perform names place) fun next denoted => ∀ value, denoted = .value value →
    duty.Admits next.symbols.heap value := by
  rw [resolveType]
  rcases walker.namedType? names place with _ | ⟨type, _ | ⟨name, rest⟩⟩
  · refine .pure hstate fun value hvalue => admits_of_silent ?_
    cases hreference : Library.schemaReference? names with
    | none => rw [hreference] at hvalue; cases hvalue
    | some found =>
      rw [hreference] at hvalue
      exact Denoted.value.inj hvalue ▸ silent_schemaReference? hreference
  · exact .pure hstate (by simp)
  · refine (safe_staticMember? hstate hclasses type name).bind fun next found hnext _ hfound => ?_
    cases found with
    | none => exact .pure hnext (by simp)
    | some value => exact safe_members hnext (hfound value rfl) rest

theorem safe_resolveNames (names : List String) (place : VertexId) :
    Safe duty state (walker.resolveNames perform names place) fun next denoted => ∀ value, denoted = .value value →
    duty.Admits next.symbols.heap value := by
  cases names with
  | nil => exact .pure hstate (by simp)
  | cons first names =>
    rw [resolveNames]
    refine (safe_nameValue? hstate hclasses first place).bind fun next found hnext hleads hfound => ?_
    cases found with
    | some value => exact safe_members hnext (hfound value rfl) names
    | none =>
      cases htrigger : walker.triggerVariable? (first :: names) place with
      | none => exact safe_resolveType hnext (hclasses.later hleads.toAdvances) _ place
      | some entry =>
        obtain ⟨value, others⟩ := entry
        refine safe_members hnext (admits_of_silent ?_) others
        unfold triggerVariable? at htrigger
        split at htrigger
        · simp only [Option.bind_eq_bind, Option.bind_eq_some_iff, Option.pure_def, Option.some.injEq,
            Prod.mk.injEq] at htrigger
          obtain ⟨_, -, _, -, _, -, found, hfound, rfl, -⟩ := htrigger
          unfold Library.triggerVariable? at hfound
          split at hfound
          all_goals simp only [Option.some.injEq, reduceCtorEq] at hfound
          all_goals exact hfound ▸ silent_unknown _
        · cases htrigger

theorem safe_variablePlace (name : String) (target : VertexId) :
    Safe duty state (walker.variablePlace perform name target) fun next place =>
    place.Admitted duty.toContract next.symbols.heap := by
  rw [variablePlace]
  refine .frame_bind fun frame hframe => .symbols_bind ?_
  have hthis := (hstate.frame? hframe).2
  split
  · exact .pure hstate trivial
  cases hfield : frame.this.filter fun this => (state.symbols.heap.field? this name).isSome with
  | some this => exact .pure hstate (hthis this (Option.filter_eq_some_iff.mp hfield).1)
  | none =>
    cases frame.owner.filter fun owner => (state.symbols.statics.lookup? owner name).isSome with
    | some owner => exact .pure hstate trivial
    | none =>
      have hinstance : Safe duty state (Pure.pure (frame.this.elim .unknown (.field · name)) : WalkM σ Place)
          fun next place => place.Admitted duty.toContract next.symbols.heap := by
        cases hobject : frame.this with
        | none => exact .pure hstate trivial
        | some this => exact .pure hstate (hthis this hobject)
      have hstatic : ∀ owner, Safe duty state (do
          walker.ensureInitialized perform owner
          return Place.static (walker.program.nameOf owner) name) fun next place =>
            place.Admitted duty.toContract next.symbols.heap :=
        fun owner => (safe_ensureInitialized hstate hclasses owner).bind fun next _ hnext _ _ => .pure hnext trivial
      rcases (walker.program.variableBinding? name target).map Binding.declared with
        _ | ⟨_⟩ | ⟨_⟩ | ⟨owner, _, _ | _⟩ | ⟨owner, _, _ | _⟩
      · exact .pure hstate trivial
      · exact .pure hstate trivial
      · exact .pure hstate trivial
      · exact hinstance
      · exact hstatic owner
      · exact hinstance
      · exact hstatic owner

theorem safe_staticPlace (type : VertexId) (name : String) :
    Safe duty state (walker.staticPlace perform type name) fun next place =>
    place.Admitted duty.toContract next.symbols.heap :=
  (safe_ensureInitialized hstate hclasses _).bind fun _ _ hnext _ _ => .pure hnext trivial

end

theorem admitted_fieldPlace {holder : Option HeapRef} (h : ∀ ref ∈ holder, duty.valid state.symbols.heap ref)
    (name : String) : (fieldPlace holder name).Admitted duty.toContract state.symbols.heap := by
  cases holder with
  | none => trivial
  | some ref => exact h ref rfl

theorem valid_ref? (h : duty.Admits state.symbols.heap value) : ∀ ref ∈ value.ref?, duty.valid state.symbols.heap ref :=
  fun _ href => h.valid_of_ref? href

/-! ## Places and variables -/

section
variable (hstate : Sound duty state) (hclasses : Initializes walker duty perform known state)
    {sites : Option CodePath} {expr : VertexId} (hparts : ∀ part ∈ walker.graph.children expr,
    Ready duty perform state (.eval sites part))
include hstate hclasses hparts

omit hclasses in
theorem safe_partAt {index : Nat} {part : VertexId} (hpart : walker.graph.childAt? expr index = some part) :
    Safe duty state (perform (.eval sites part)) (Gives duty) := (hparts part (mem_of_getElem? hpart)).eval hstate

theorem safe_placeOf : Safe duty state (walker.placeOf perform sites expr) fun next place =>
    place.Admitted duty.toContract next.symbols.heap := by
  rw [placeOf]
  split
  · cases hqualifier : walker.graph.qualifier? expr with
    | none => exact safe_variablePlace hstate hclasses _ expr
    | some qualifier =>
      dsimp only
      split
      · exact safe_variablePlace hstate hclasses _ expr
      · exact (Safe.this? hstate).bind fun _ _ hnext _ hthis => .pure hnext (admitted_fieldPlace hthis _)
      · exact (Safe.this? hstate).bind fun _ _ hnext _ hthis => .pure hnext (admitted_fieldPlace hthis _)
      · refine (safe_resolveNames hstate hclasses _ expr).bind fun next denoted hnext hleads hdenoted => ?_
        cases denoted with
        | value holder => exact .pure hnext (admitted_fieldPlace (valid_ref? (hdenoted holder rfl)) _)
        | type type => exact safe_staticPlace hnext (hclasses.later hleads.toAdvances) type _
        | unknown => exact .pure hnext trivial
      · exact (safe_partAt hstate hparts hqualifier).bind fun _ _ hnext _ hholder =>
          .pure hnext (admitted_fieldPlace (valid_ref? hholder) _)
  · cases hcontainer : walker.graph.childAt? expr 0 with
    | none => exact .pure hstate trivial
    | some container =>
      cases hindex : walker.graph.childAt? expr 1 with
      | none => exact .pure hstate trivial
      | some index =>
        refine (safe_partAt hstate hparts hcontainer).bind fun next holder hnext hleads hholder => ?_
        have hindexed := (hparts index (mem_of_getElem? hindex)).later hleads.toAdvances
        exact (hindexed.eval hnext).bind fun _ _ hlater hafter hindex => .pure hlater ⟨hholder.later hafter, hindex⟩
  · exact .pure hstate trivial

omit hclasses hparts in
theorem safe_thisValue : Safe duty state (walker.thisValue expr) (Gives duty) := by
  refine .symbols_bind ?_
  split
  · rename_i ref object hobject
    obtain ⟨found, hthis, hobject⟩ := Option.bind_eq_some_iff.mp hobject
    obtain ⟨_, -, heq⟩ := Option.map_eq_some_iff.mp hobject
    obtain ⟨rfl, -⟩ := Prod.mk.inj heq
    obtain ⟨frame, hframe, hthis⟩ := Option.bind_eq_some_iff.mp hthis
    exact .pure hstate (admits_ofRef ((hstate.frame? hframe).2 found hthis))
  · exact safe_unknown hstate expr

theorem safe_accessorHolder : Safe duty state (walker.accessorHolder perform sites expr)
    fun next holder => ∀ ref ∈ holder, duty.valid next.symbols.heap ref := by
  rw [accessorHolder]
  cases hqualifier : walker.graph.qualifier? expr with
  | none => exact Safe.this? hstate
  | some qualifier =>
    dsimp only
    split
    · exact Safe.this? hstate
    · exact Safe.this? hstate
    · exact Safe.this? hstate
    · refine (safe_resolveNames hstate hclasses _ expr).bind fun next denoted hnext _ hdenoted => ?_
      cases denoted with
      | value holder => exact .pure hnext (valid_ref? (hdenoted holder rfl))
      | type type => exact .pure hnext (by simp)
      | unknown => exact .pure hnext (by simp)
    · exact (safe_partAt hstate hparts hqualifier).bind fun _ _ hnext _ hholder => .pure hnext (valid_ref? hholder)

theorem safe_readVariable : Safe duty state (walker.readVariable perform sites expr) (Gives duty) := by
  rw [readVariable]
  have hname : Safe duty state (do
      return (← walker.nameValue? perform ((walker.graph.name? expr).getD "") expr).getD (walker.unknown expr))
        (Gives duty) := (safe_nameValue? hstate hclasses _ expr).bind fun _ _ hnext _ hfound =>
    .pure hnext (admits_getD hfound (silent_unknown _))
  have hfield : Safe duty state (do
      let this ← this?
      return (this.bind ((← heap).field? · ((walker.graph.name? expr).getD ""))).getD (walker.unknown expr))
        (Gives duty) := by
    refine (Safe.this? hstate).bind fun next this hnext _ _ => .heap_bind (.pure hnext ?_)
    refine admits_getD (fun value hvalue => ?_) (silent_unknown _)
    obtain ⟨_, -, hvalue⟩ := Option.bind_eq_some_iff.mp hvalue
    exact hnext.heap.field? hvalue
  cases hqualifier : walker.graph.qualifier? expr with
  | none => exact hname
  | some qualifier =>
    dsimp only
    split
    · exact hname
    · exact hfield
    · exact hfield
    · refine (safe_resolveNames hstate hclasses _ expr).bind fun next denoted hnext _ hdenoted => ?_
      cases denoted with
      | value value => exact .pure hnext (hdenoted value rfl)
      | type type => exact safe_unknown hnext expr
      | unknown => exact safe_unknown hnext expr
    · exact (safe_partAt hstate hparts hqualifier).bind fun _ holder hnext _ _ =>
        .heap_bind (.pure hnext (admits_memberOf hnext _ holder _))

end

/-! ## Calls -/

section
variable (hstate : Sound duty state) {sites : Option CodePath} {expr : VertexId}
  (hnested : Nested walker duty perform known state sites expr)
include hstate hnested

omit hstate in
theorem ready_part {part : VertexId} (hpart : part ∈ walker.graph.children expr) :
    Ready duty perform state (.eval sites part) :=
  hnested.part (.single hpart)

omit hstate in
theorem ready_partAt {index : Nat} {part : VertexId} (hpart : walker.graph.childAt? expr index = some part) :
    Ready duty perform state (.eval sites part) := ready_part hnested (mem_of_getElem? hpart)

theorem safe_evalVariable : Safe duty state (walker.evalVariable perform sites expr) (Gives duty) := by
  rw [evalVariable]
  have hparts := fun part (hpart : part ∈ walker.graph.children expr) => ready_part hnested hpart
  cases hgetter : attached? sites expr with
  | none => exact safe_readVariable hstate hnested.classes hparts
  | some getter =>
    exact (safe_accessorHolder hstate hnested.classes hparts).bind fun next holder hnext hleads hholder =>
      ((hnested.attached hgetter holder []).later hleads.toAdvances).invoke hnext hholder (by simp)

theorem safe_callTarget? : Safe duty state (walker.callTarget? perform sites expr)
    fun next target => ∀ value, target = some (.value value) → duty.Admits next.symbols.heap value := by
  rw [callTarget?]
  cases hreceiver : walker.graph.receiver? expr with
  | none => exact .pure hstate (by simp)
  | some receiver =>
    dsimp only
    split
    · exact .pure hstate (by simp)
    · exact .pure hstate (by simp)
    · exact .pure hstate (by simp)
    · refine (safe_resolveNames hstate hnested.classes _ expr).bind fun next denoted hnext _ hdenoted => ?_
      cases denoted with
      | value value =>
        exact .pure hnext fun other hother => CallTarget.value.inj (Option.some.inj hother) ▸ hdenoted value rfl
      | type type => exact .pure hnext (by simp)
      | unknown => exact .pure hnext (by simp)
    · refine ((ready_part hnested (CodeGraph.mem_children_of_receiver? hreceiver)).eval hstate).bind
        fun next value hnext _ hvalue => ?_
      exact .pure hnext fun other hother => CallTarget.value.inj (Option.some.inj hother) ▸ hvalue

theorem safe_evalAll {exprs : List VertexId} (hexprs : ∀ part ∈ exprs, part ∈ walker.graph.children expr) :
    Safe duty state (evalAll perform sites exprs) fun next values => ∀ value ∈ values, Gives duty next value :=
  .mapM (fun hleads hvalue => hvalue.later hleads) hstate fun part hpart _ hnext hleads =>
    ((ready_part hnested (hexprs part hpart)).later hleads.toAdvances).eval hnext

theorem safe_arguments : Safe duty state (evalAll perform sites (walker.graph.arguments expr))
    fun next values => ∀ value ∈ values, Gives duty next value :=
  safe_evalAll hstate hnested fun _ => CodeGraph.mem_children_of_mem_arguments

theorem safe_evalCall : Safe duty state (walker.evalCall perform sites expr) (Gives duty) := by
  rw [evalCall]
  refine (safe_callTarget? hstate hnested).bind fun middle target hmiddle hleads htarget => ?_
  refine (safe_arguments hmiddle (hnested.later hleads.toAdvances)).bind fun next args hnext hbetween hargs => ?_
  have htarget : ∀ value, target = some (.value value) → duty.Admits next.symbols.heap value := fun value hvalue =>
    (htarget value hvalue).grow hbetween.heap
  cases hcallee : attached? sites expr with
  | some callee =>
    have hinvoke : ∀ later, next.Leads later → Sound duty later → ∀ this : Option HeapRef,
        (∀ ref ∈ this, duty.valid later.symbols.heap ref) →
        Safe duty later (perform (.invoke callee this args)) (Gives duty) :=
      fun later hafter hlater this hthis =>
      ((hnested.attached hcallee this args).later ((hleads.trans hbetween).trans hafter).toAdvances).invoke hlater
      hthis fun arg harg => (hargs arg harg).later hafter
    rcases target with _ | ⟨value⟩ | ⟨type⟩
    · exact (Safe.this? hnext).bind fun later this hlater hafter hthis => hinvoke later hafter hlater this hthis
    · exact hinvoke next (.refl next) hnext value.ref? (valid_ref? (htarget value rfl))
    · exact hinvoke next (.refl next) hnext none (by simp)
  | none =>
    cases target with
    | none => exact safe_unknown hnext expr
    | some target =>
      have hcall : Safe duty next (callLibrary? target ((walker.graph.calledName? expr).getD "") args)
          (GivesAny duty) := by
        refine .callLibrary? hnext ?_
        cases target with
        | value value => exact forall_mem_cons.mpr ⟨htarget value rfl, hargs⟩
        | type type => exact hargs
      exact hcall.bind fun _ _ hlater _ hfound => .pure hlater (admits_getD hfound (silent_unknown _))

/-! ## Creation -/

omit hstate hnested in
theorem admits_copiedContents {heap : Heap} (h : duty.Keeps heap) (source : Option Value) :
    ∀ value ∈ (copiedContents heap source).items, duty.Admits heap value := by
  unfold copiedContents
  split
  · simp
  · split
    · rename_i hobject
      obtain ⟨_, -, hobject⟩ := Option.bind_eq_some_iff.mp hobject
      exact h.of_get? hobject
    · rename_i hobject
      obtain ⟨_, -, hobject⟩ := Option.bind_eq_some_iff.mp hobject
      exact h.of_get? hobject
    · exact fun _ hvalue => absurd hvalue not_mem_nil

omit hnested in
theorem safe_newCollection (type : String) (source : Option Value) :
    Safe duty state (newCollection type source) (Gives duty) := by
  refine .onHeap_makes hstate ?_
  split
  · refine Library.makes_newMap hstate.heap _ _ ?_
    split
    · simp
    · exact fun _ hentry => absurd hentry not_mem_nil
  · exact Library.makes_newSet hstate.heap _ (admits_copiedContents hstate.heap source)
  · exact Library.makes_newList hstate.heap _ (admits_copiedContents hstate.heap source)

omit hstate hnested in
theorem child_of_fieldArgument? {arg value : VertexId} (h : walker.fieldArgument? arg = some (name, value)) :
    value ∈ walker.graph.children arg := by
  rw [fieldArgument?] at h
  simp only [Option.bind_eq_bind, Option.bind_eq_some_iff, Option.pure_def, Option.some.injEq, Prod.mk.injEq] at h
  obtain ⟨_, -, _, -, _, -, found, hfound, -, rfl⟩ := h
  exact CodeGraph.mem_children_of_childAt? hfound

theorem safe_newRecord (type : String) {args : List VertexId} (hargs : ∀ arg ∈ args, arg ∈ walker.graph.children expr) :
    Safe duty state (walker.newRecord perform sites type args) (Gives duty) := by
  have hnew : Safe duty state (WalkM.onHeap (·.allocate (.instanceOf type))) fun next ref =>
      duty.valid next.symbols.heap ref :=
    .onHeap hstate (.allocate _ _) (hstate.heap.allocate fun _ hvalue => absurd hvalue not_mem_nil)
    fun next hnext => by
      rw [hnext]
      exact duty.fresh ..
  refine hnew.bind fun created ref hcreated hleads hvalid => ?_
  have hfields : Safe duty created (args.forM (walker.fillField perform sites ref)) fun _ _ => True := by
    refine .forM hcreated fun arg harg next hnext hbetween => ?_
    rw [fillField]
    have hlater := (hleads.trans hbetween).toAdvances
    cases hfield : walker.fieldArgument? arg with
    | none => exact (((ready_part hnested (hargs arg harg)).later hlater).eval hnext).discard
    | some entry =>
      obtain ⟨name, part⟩ := entry
      have hpart := (hnested.part (.tail (.single (hargs arg harg)) (child_of_fieldArgument? hfield))).later hlater
      exact (hpart.eval hnext).bind fun left value hleft _ hvalue =>
        Safe.onHeap (f := fun heap => ((), heap.setField ref name value)) hleft (.setField _ ref name value)
          (hleft.heap.setField ref name hvalue) fun _ _ => trivial
  exact hfields.bind fun left _ hleft hafter _ => .pure hleft (admits_ofRef (duty.grow hafter.heap hvalid))

theorem safe_evalNew (hlabel : walker.graph.labelOf expr = .newObjectExpression) :
    Safe duty state (walker.evalNew perform sites expr) (Gives duty) := by
  rw [evalNew]
  dsimp only
  split
  · exact .onHeap_makes hstate (Library.makes_newList hstate.heap _ fun _ hvalue => absurd hvalue not_mem_nil)
  rename_i harray
  split
  · exact (safe_arguments hstate hnested).bind fun next args hnext _ _ => safe_newCollection hnext _ _
  rename_i hcollection
  split
  · rename_i declared hdeclared
    have hcreated : walker.created? expr = some declared := by
      rw [created?, if_pos ⟨hlabel, Bool.eq_false_iff.mpr harray, Bool.eq_false_iff.mpr hcollection⟩]
      exact hdeclared
    refine (safe_arguments hstate hnested).bind fun evaluated args hevaluated hleads hargs => ?_
    refine (safe_ensureInitialized hevaluated (hnested.classes.later hleads.toAdvances) declared).bind
      fun initialized _ hinitialized hbetween _ => ?_
    have hobjects := fun owner howner init hinit =>
      (hnested.objects hcreated owner howner init hinit).later (hleads.trans hbetween).toAdvances
    refine (safe_instantiate hinitialized hobjects).bind fun made ref hmade hmaking hvalid => ?_
    have hconstructed : Safe duty made (construct perform sites expr ref args) fun _ _ => True := by
      rw [construct]
      cases hconstructor : attached? sites expr with
      | none => exact .pure hmade trivial
      | some constructor =>
        have hready :=
          (hnested.attached hconstructor (some ref) args).later ((hleads.trans hbetween).trans hmaking).toAdvances
        exact (hready.invoke hmade (fun other hother => Option.some.inj hother ▸ hvalid) fun arg harg =>
          (hargs arg harg).later (hbetween.trans hmaking)).discard
    have hgiven : ∀ left, Sound duty left → made.Leads left →
        Safe duty left (Pure.pure (ofRef (walker.program.nameOf declared) ref)) (Gives duty) :=
        fun left hleft hafter =>
      .pure hleft (admits_ofRef (duty.grow hafter.heap hvalid))
    have hall := hconstructed.bind fun left _ hleft hafter _ => hgiven left hleft hafter
    rw [construct] at hall
    cases hconstructor : attached? sites expr with
    | none =>
      rw [hconstructor] at hall
      exact hall
    | some constructor =>
      rw [hconstructor] at hall
      exact hall
  · exact safe_newRecord hstate hnested _ fun _ => CodeGraph.mem_children_of_mem_arguments

theorem safe_evalElements (isSet : Bool) : Safe duty state (walker.evalElements perform sites expr isSet)
    (Gives duty) := by
  refine (safe_evalAll hstate hnested fun _ => id).bind fun next items hnext _ hitems => .onHeap_makes hnext ?_
  split
  · exact Library.makes_newSet hnext.heap _ hitems
  · exact Library.makes_newList hnext.heap _ hitems

theorem safe_evalEntries : Safe duty state (walker.evalEntries perform sites expr) (Gives duty) := by
  rw [evalEntries]
  have hentries : Safe duty state ((((walker.graph.childrenWithLabel expr .mapEntryNode).filterMap fun entry => do
      return (← walker.graph.childAt? entry 0, ← walker.graph.childAt? entry 1)).mapM (evalEntry perform sites)) :
        WalkM σ (List (Value × Value)))
      fun next items => ∀ item ∈ items, duty.Admits next.symbols.heap item.1 ∧
      duty.Admits next.symbols.heap item.2 := by
    refine .mapM (fun hleads hitem => ⟨hitem.1.grow hleads.heap, hitem.2.grow hleads.heap⟩) hstate
      fun entry hentry next hnext hleads => ?_
    obtain ⟨key, value⟩ := entry
    obtain ⟨node, hnode, hparts⟩ := mem_filterMap.mp hentry
    have hnode : node ∈ walker.graph.children expr := (mem_filter.mp hnode).1
    simp only [Option.bind_eq_bind, Option.bind_eq_some_iff, Option.pure_def, Option.some.injEq,
      Prod.mk.injEq] at hparts
    obtain ⟨_, hkey, _, hvalue, rfl, rfl⟩ := hparts
    have hinside : ∀ {index part}, walker.graph.childAt? node index = some part →
      Ready duty perform next (.eval sites part) := fun hpart =>
      (hnested.part (.tail (.single hnode) (CodeGraph.mem_children_of_childAt? hpart))).later hleads.toAdvances
    refine ((hinside hkey).eval hnext).bind fun middle first hmiddle hbetween hfirst => ?_
    refine (((hinside hvalue).later hbetween.toAdvances).eval hmiddle).bind fun later second hlater hafter hsecond => ?_
    exact .pure hlater ⟨hfirst.later hafter, hsecond⟩
  exact hentries.bind fun next items hnext _ hitems => .onHeap_makes hnext (Library.makes_newMap hnext.heap _ _ hitems)

/-! ## Operators -/

omit hstate in
theorem ready_operands {left right : VertexId} (hoperands : walker.operands? expr = some (left, right)) :
    Ready duty perform state (.eval sites left) ∧ Ready duty perform state (.eval sites right) := by
  rw [operands?] at hoperands
  simp only [Option.bind_eq_bind, Option.bind_eq_some_iff, Option.pure_def, Option.some.injEq,
    Prod.mk.injEq] at hoperands
  obtain ⟨_, hleft, _, hright, rfl, rfl⟩ := hoperands
  exact ⟨ready_partAt hnested hleft, ready_partAt hnested hright⟩

theorem safe_evalBinary : Safe duty state (walker.evalBinary perform sites expr) (Gives duty) := by
  rw [evalBinary]
  cases hoperands : walker.operands? expr with
  | none => exact safe_unknown hstate expr
  | some operands =>
    obtain ⟨hleft, hright⟩ := ready_operands hnested hoperands
    refine (hleft.eval hstate).bind fun middle left hmiddle hleads _ => ?_
    refine ((hright.later hleads.toAdvances).eval hmiddle).bind fun next right hnext _ _ => .pure hnext ?_
    exact admits_getD (fun value hvalue => admits_of_silent (Operator.silent_binary? hvalue))
      (silent_unknown _)

theorem safe_evalBoolean : Safe duty state (walker.evalBoolean perform sites expr) (Gives duty) := by
  rw [evalBoolean]
  have hundecided : (Value.unknown "Boolean").Silent := Value.silent_unknown _
  dsimp only
  cases hoperands : walker.operands? expr with
  | none => exact .pure hstate (admits_of_silent hundecided)
  | some operands =>
    obtain ⟨hleft, hright⟩ := ready_operands hnested hoperands
    refine (hleft.eval hstate).bind fun middle left hmiddle hleads _ => ?_
    have hright := (hright.later hleads.toAdvances).eval hmiddle
    split
    · cases hdecided : Operator.shortCircuit? (walker.operatorOf expr "==") left with
      | some decided => exact .pure hmiddle (admits_of_silent (Operator.silent_shortCircuit? hdecided))
      | none =>
        exact hright.bind fun next right hnext _ _ => .pure hnext
          (admits_getD (fun value hvalue => admits_of_silent (Operator.silent_logical? hvalue))
          hundecided)
    · exact hright.bind fun next right hnext _ _ => .pure hnext
        (admits_getD (fun value hvalue => admits_of_silent (Operator.silent_compare? hvalue))
        hundecided)

theorem safe_evalUnary : Safe duty state (walker.evalUnary perform sites expr) (Gives duty) := by
  rw [evalUnary]
  cases hoperand : walker.graph.childAt? expr 0 with
  | none => exact safe_unknown hstate expr
  | some operand =>
    have hmem : operand ∈ walker.graph.children expr := mem_of_getElem? hoperand
    dsimp only
    split
    · have hplaceOf : Safe duty state (walker.placeOf perform sites operand) fun next place =>
          place.Admitted duty.toContract next.symbols.heap :=
        safe_placeOf hstate hnested.classes fun part hpart => hnested.part (.tail (.single hmem) hpart)
      refine hplaceOf.bind fun placed place hplaced hleads hplace => ?_
      refine (place.safe_read? hplaced hplace).bind fun read found hread hreading hfound => ?_
      have hcurrent : duty.Admits read.symbols.heap (found.getD (walker.unknown operand)) :=
        admits_getD hfound (silent_unknown _)
      refine (Safe.notify hread (hnested.watched.onExpression hread.watch)).bind fun told _ htold htelling _ => ?_
      have hnext : ((Operator.step? (walker.operatorOf expr "") (found.getD (walker.unknown operand))).getD
          (.unknown (found.getD (walker.unknown operand)).type)).Silent := by
        cases hstep : Operator.step? (walker.operatorOf expr "") (found.getD (walker.unknown operand)) with
        | none => exact silent_unknown _
        | some value => exact Operator.silent_step? hstep
      refine (place.safe_write htold (hplace.grow (hreading.trans htelling).heap)
        (admits_of_silent hnext)).bind fun left _ hleft hwriting _ => .pure hleft ?_
      split
      · exact hcurrent.grow (htelling.trans hwriting).heap
      · exact admits_of_silent hnext
    · refine ((ready_partAt hnested hoperand).eval hstate).bind fun next value hnext _ _ => .pure hnext ?_
      exact admits_getD (fun value hvalue => admits_of_silent (Operator.silent_unary? hvalue))
        (silent_unknown _)

theorem safe_evalAssignment : Safe duty state (walker.evalAssignment perform sites expr) (Gives duty) := by
  rw [evalAssignment]
  cases hoperands : walker.operands? expr with
  | none => exact safe_unknown hstate expr
  | some operands =>
    obtain ⟨target, source⟩ := operands
    have htarget : target ∈ walker.graph.children expr := by
      rw [operands?] at hoperands
      simp only [Option.bind_eq_bind, Option.bind_eq_some_iff, Option.pure_def, Option.some.injEq,
        Prod.mk.injEq] at hoperands
      obtain ⟨_, hleft, _, -, rfl, -⟩ := hoperands
      exact CodeGraph.mem_children_of_childAt? hleft
    have hplaceOf : Safe duty state (walker.placeOf perform sites target) fun next place =>
        place.Admitted duty.toContract next.symbols.heap :=
      safe_placeOf hstate hnested.classes fun part hpart => hnested.part (.tail (.single htarget) hpart)
    refine hplaceOf.bind fun placed place hplaced hplacing hfound => ?_
    refine (((ready_operands hnested hoperands).2.later hplacing.toAdvances).eval hplaced).bind
      fun assigned value hassigned hassigning hvalue => ?_
    have hkept := hfound.grow hassigning.heap
    have hstore : ∀ (value : Value) (next : WalkState σ), Sound duty next → assigned.Leads next →
      duty.Admits next.symbols.heap value → Safe duty next (store perform sites expr place value) (Gives duty) := by
      intro value next hnext hleads hvalue
      rw [store]
      have hplace := hkept.grow hleads.heap
      cases hsetter : attached? sites expr with
      | none =>
        exact (place.safe_write hnext hplace hvalue).bind fun left _ hleft hafter _ =>
          .pure hleft (hvalue.grow hafter.heap)
      | some setter =>
        have hinvoke : ∀ later, next.Leads later → Sound duty later → ∀ holder : Option HeapRef,
            (∀ ref ∈ holder, duty.valid later.symbols.heap ref) → Safe duty later (do
              discard (perform (.invoke setter holder [value]))
              return value) (Gives duty) := by
          intro later hafter hlater holder hholder
          have hready :=
            (hnested.attached hsetter holder [value]).later
            (((hplacing.trans hassigning).trans hleads).trans hafter).toAdvances
          have hcall := hready.invoke hlater hholder (forall_mem_singleton.mpr (hvalue.grow hafter.heap))
          exact hcall.discard.bind fun left _ hleft hlast _ => .pure hleft (hvalue.grow (hafter.trans hlast).heap)
        cases place
        case field object name =>
          exact hinvoke next (.refl next) hnext (some object) fun ref href => Option.some.inj href ▸ hplace
        all_goals exact (Safe.this? hnext).bind fun later holder hlater hafter hholder =>
                    hinvoke later hafter hlater holder hholder
    cases compound? (walker.operatorOf expr "=") with
    | none => exact hstore value assigned hassigned (.refl assigned) hvalue
    | some op =>
      refine (place.safe_read? hassigned hkept).bind fun read found hread hreading _ => hstore _ read hread hreading ?_
      exact admits_getD (fun value hvalue => admits_of_silent (Operator.silent_binary? hvalue))
        (silent_unknown _)

theorem safe_evalTernary : Safe duty state (walker.evalTernary perform sites expr) (Gives duty) := by
  rw [evalTernary]
  cases hoperands : walker.operands? expr with
  | none => exact safe_unknown hstate expr
  | some operands =>
    cases hno : walker.graph.childAt? expr 2 with
    | none => exact safe_unknown hstate expr
    | some no =>
      obtain ⟨hcondition, hyes⟩ := ready_operands hnested hoperands
      refine (hcondition.eval hstate).bind fun middle condition hmiddle hleads _ => ?_
      have hyes := hyes.later hleads.toAdvances
      have hno := (ready_partAt hnested hno).later hleads.toAdvances
      rcases condition.bool? with _ | _ | _
      · refine (hyes.eval hmiddle).bind fun between first hbetween hfirst hvalue => ?_
        refine ((hno.later hfirst.toAdvances).eval hbetween).bind fun next second hnext hsecond _ => .pure hnext ?_
        split
        · exact hvalue.later hsecond
        · exact admits_of_silent (silent_unknown _)
      · exact hno.eval hmiddle
      · exact hyes.eval hmiddle

/-! ## Types -/

theorem safe_evalCast : Safe duty state (walker.evalCast perform sites expr) (Gives duty) := by
  rw [evalCast]
  cases hoperand : walker.graph.childAt? expr 0 with
  | none => exact .pure hstate (admits_of_silent (silent_unknown _))
  | some operand =>
    exact ((ready_partAt hnested hoperand).eval hstate).bind fun _ _ hnext _ hvalue => .pure hnext (hvalue.retyped _)

theorem safe_evalInstanceOf : Safe duty state (walker.evalInstanceOf perform sites expr) (Gives duty) := by
  rw [evalInstanceOf]
  cases hoperand : walker.graph.childAt? expr 0 with
  | none => exact .pure hstate (admits_of_silent (silent_unknown _))
  | some operand =>
    refine ((ready_partAt hnested hoperand).eval hstate).bind fun next value hnext _ _ => .pure hnext ?_
    refine admits_getD (fun found hfound => ?_) (silent_unknown _)
    obtain ⟨b, -, rfl⟩ := Option.map_eq_some_iff.mp hfound
    exact admits_of_silent (silent_ofBool b)

theorem safe_evalElement : Safe duty state (walker.evalElement perform sites expr) (Gives duty) := by
  rw [evalElement]
  cases hoperands : walker.operands? expr with
  | none => exact safe_unknown hstate expr
  | some operands =>
    obtain ⟨hcontainer, hindex⟩ := ready_operands hnested hoperands
    refine (hcontainer.eval hstate).bind fun middle container hmiddle hleads hcontained => ?_
    refine ((hindex.later hleads.toAdvances).eval hmiddle).bind fun next index hnext hbetween hindexed => ?_
    exact (Place.safe_elementOf? hnext (hcontained.later hbetween) hindexed).bind fun _ _ hlater _ hfound =>
      .pure hlater (admits_getD hfound (silent_unknown _))

/-! ## All expressions -/

omit hstate hnested in
theorem silent_literalValue (tag text : String) : (literalValue tag text).Silent := by
  unfold literalValue
  split
  · exact silent_ofText _
  split
  · cases Text.int64? text with
    | none => exact silent_unknown _
    | some n => exact silent_ofInt n
  split
  · dsimp only
    generalize Text.int64? _ = read
    cases read with
    | none => exact silent_unknown _
    | some n => exact silent_ofLiteral _
  split
  · cases Double.read? text with
    | none => exact silent_unknown _
    | some x => exact silent_ofLiteral _
  split
  · exact silent_ofBool _
  split
  · exact silent_ofBool _
  · exact silent_null

/-- Every kind of expression is safe. -/
theorem safe_evalKind : Safe duty state (walker.evalKind perform sites expr) (Gives duty) := by
  rw [evalKind]
  cases hlabel : walker.graph.labelOf expr
  case literalExpression => exact .pure hstate (admits_of_silent (silent_literalValue _ _))
  case variableExpression => exact safe_evalVariable hstate hnested
  case thisVariableExpression | superVariableExpression => exact safe_thisValue hstate
  case methodCallExpression | thisMethodCallExpression | superMethodCallExpression => exact safe_evalCall hstate hnested
  case newObjectExpression => exact safe_evalNew hstate hnested hlabel
  case newListLiteralExpression | newSetLiteralExpression => exact safe_evalElements hstate hnested _
  case newMapLiteralExpression => exact safe_evalEntries hstate hnested
  case binaryExpression => exact safe_evalBinary hstate hnested
  case booleanExpression => exact safe_evalBoolean hstate hnested
  case prefixExpression | postfixExpression => exact safe_evalUnary hstate hnested
  case assignmentExpression => exact safe_evalAssignment hstate hnested
  case ternaryExpression => exact safe_evalTernary hstate hnested
  case castExpression => exact safe_evalCast hstate hnested
  case instanceOfExpression => exact safe_evalInstanceOf hstate hnested
  case arrayLoadExpression => exact safe_evalElement hstate hnested
  case soqlExpression => exact .onHeap_makes hstate (Library.makes_queryResult hstate.heap _)
  case classRefExpression => exact .pure hstate (admits_of_silent (silent_unknown _))
  all_goals exact safe_unknown hstate expr

theorem safe_evalExpression : Safe duty state (walker.evalExpression perform sites expr) (Gives duty) := by
  refine (safe_evalKind hstate hnested).bind fun next found hnext _ hfound => ?_
  have hvalue : duty.Admits next.symbols.heap (if found.origin.isSome then found else found.withOrigin expr) := by
    split
    · exact hfound
    · exact hfound.withOrigin expr
  exact (Safe.notify hnext (hnested.watched.onExpression hnext.watch)).bind fun left _ hleft hleads _ =>
    .pure hleft (hvalue.grow hleads.heap)

end

end Walker

end ApexPaths
