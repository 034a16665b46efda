import ApexPaths.Library.Basic

/-!
Chains of descriptions through the whole library. The tokens of the global description and of a field map have
types of maps, and collections are asked before the schema, so `get` on such a token is answered by the type of its
values and the object or the field is forgotten. Every other method of a token is answered as the schema answers
it. What was forgotten is not found again.
-/

namespace ApexPaths.Library
set_option autoImplicit false

/-! ## Types of tokens -/

/-- The type of the values of the map that a token stands for. -/
def mapped? : SchemaKind → Option String
  | .globalDescribe => some "Schema.SObjectType"
  | .fieldMap => some "Schema.SObjectField"
  | _ => none

variable {type : String}

section
variable (kind : SchemaKind)

theorem typeName_spelled : TypeName.canonical kind.typeName = kind.typeName ∧
    TypeName.isCollection kind.typeName = (mapped? kind).isSome ∧ TypeName.element? kind.typeName = mapped? kind := by
  have hall : ∀ kind ∈ SchemaKind.all, TypeName.canonical kind.typeName = kind.typeName ∧
      TypeName.isCollection kind.typeName = (mapped? kind).isSome ∧
      TypeName.element? kind.typeName = mapped? kind := by decide +kernel
  exact hall kind (by cases kind <;> decide)

theorem canonical_typeName : TypeName.canonical kind.typeName = kind.typeName := (typeName_spelled kind).1

omit kind in
theorem type_ofToken (token : SchemaToken) : (Value.ofToken token).type = token.kind.typeName :=
  canonical_typeName token.kind

theorem isCollection_typeName : TypeName.isCollection kind.typeName = (mapped? kind).isSome :=
  (typeName_spelled kind).2.1

theorem element?_typeName : TypeName.element? kind.typeName = mapped? kind := (typeName_spelled kind).2.2

theorem base_of_mapped? (h : mapped? kind = some type) : TypeName.base kind.typeName = "Map" := by
  cases kind with
  | globalDescribe | fieldMap => decide
  | _ => cases h

theorem not_text : ¬(kind.typeName = "String" ∨ kind.typeName = "Id") := by
  cases kind <;> decide

end

/-! ## Calls on tokens -/

/-- A method of a token of this kind gives something for some arguments. -/
def Continues (kind : SchemaKind) (method : String) : Prop :=
  ∃ token call heap, token.kind = kind ∧ call.method = method ∧ (tokenMethod? token call heap).isSome

/-- What is left of a token where collections answer for it. -/
def forgotten? (kind : SchemaKind) (method : String) : Option Value :=
  if method = "get" then (mapped? kind).map Value.unknown else none

theorem collectionFallback?_get (h : TypeName.base type = "Map") (element key : String) :
    collectionFallback? type element key "get" = some (.unknown element) := by
  simp [collectionFallback?, h]

theorem collectionFallback?_getmap (type element key : String) :
    collectionFallback? type element key "getmap" = none := by
  simp [collectionFallback?]

theorem Continues.of_mapped? {kind : SchemaKind} {method : String} (h : Continues kind method)
    (hmapped : mapped? kind = some type) : method = "get" ∨ method = "getmap" := by
  obtain ⟨token, call, heap, rfl, rfl, h⟩ := h
  rw [tokenMethod?] at h
  cases hkind : token.kind with
  | globalDescribe | fieldMap =>
    rw [hkind] at h
    dsimp only at h
    split at h <;> simp_all
  | _ =>
    rw [hkind] at hmapped
    cases hmapped

theorem Continues.forgotten?_get {kind : SchemaKind} (h : Continues kind "get") :
    ∃ type, forgotten? kind "get" = some (.unknown type) := by
  obtain ⟨token, call, heap, rfl, hmethod, h⟩ := h
  rw [tokenMethod?, hmethod] at h
  cases hkind : token.kind with
  | globalDescribe | fieldMap => exact ⟨_, rfl⟩
  | _ =>
    rw [hkind] at h
    cases h

section
variable {token : SchemaToken} {receiver : Value} (hcontent : receiver.content = .schema token)
    (htype : receiver.type = token.kind.typeName) {method : String} (args : List Value) (heap : Heap)

include htype in
theorem strings_token : strings ⟨.value receiver, method, args⟩ heap = none := by
  rw [strings]
  dsimp only
  rw [htype, if_neg (not_text token.kind)]

include hcontent htype in
theorem collections_token (hmethod : Continues token.kind method) :
    collections ⟨.value receiver, method, args⟩ heap = (forgotten? token.kind method).map (·, heap) := by
  have href : receiver.ref? = none := by rw [Value.ref?, hcontent]
  rw [collections]
  dsimp only
  rw [htype, isCollection_typeName, href, element?_typeName]
  cases hmapped : mapped? token.kind with
  | none =>
    rw [forgotten?, hmapped]
    exact congrArg (Option.map (·, heap)) (ite_self none).symm
  | some type =>
    rcases hmethod.of_mapped? hmapped with rfl | rfl
    · rw [Option.getD_some, collectionFallback?_get (base_of_mapped? _ hmapped), forgotten?, hmapped, if_pos rfl]
      rfl
    · rw [collectionFallback?_getmap, forgotten?, if_neg (show ¬"getmap" = "get" by decide)]
      rfl

include hcontent in
theorem schema_token : schema ⟨.value receiver, method, args⟩ heap =
    some ((tokenMethod? token ⟨.value receiver, method, args⟩ heap).getD (schemaFallback method receiver.type,
    heap)) := by
  rw [schema]
  dsimp only
  rw [Value.token?, hcontent]

include hcontent htype in
theorem invoke_token (hmethod : Continues token.kind method) : invoke ⟨.value receiver, method, args⟩ heap =
    ((forgotten? token.kind method).map (·, heap)).or (schema ⟨.value receiver, method, args⟩ heap) := by
  rw [invoke, handlers]
  simp only [List.findSome?_cons, strings_token htype, collections_token hcontent htype args heap hmethod,
    schema_token hcontent]
  cases forgotten? token.kind method <;> rfl

end

/-! ## Calls on what is unknown -/

theorem content_schemaFallback (method type : String) : (schemaFallback method type).content = .unknown := by
  unfold schemaFallback
  split <;> first | rfl | (split <;> rfl)

/-- A method on a value that is not known returns one that is not known and changes nothing. -/
theorem unknown_of_invoke {receiver : Value} (hreceiver : receiver.content = .unknown) {method : String}
    {args : List Value} {heap : Heap} {reached : Value × Heap} (h : invoke ⟨.value receiver, method, args⟩ heap =
    some reached) :
    reached.1.content = .unknown ∧ reached.2 = heap := by
  have hnone : receiver.text? = none ∧ receiver.ref? = none ∧ receiver.token? = none := by
    rw [Value.text?, Value.ref?, Value.token?, hreceiver]
    exact ⟨rfl, rfl, rfl⟩
  obtain ⟨htext, href, htoken⟩ := hnone
  have hanswer : ∀ {value : Value}, value.content = .unknown → some (value, heap) = some reached →
      reached.1.content = .unknown ∧ reached.2 = heap := by
    rintro value hvalue ⟨⟩
    exact ⟨hvalue, rfl⟩
  obtain ⟨⟨name, handler⟩, hmem, h⟩ := List.exists_of_findSome?_eq_some h
  simp only [handlers, List.mem_cons, Prod.mk.injEq, List.not_mem_nil, or_false] at hmem
  rcases hmem with ⟨-, rfl⟩ | ⟨-, rfl⟩ | ⟨-, rfl⟩ | ⟨-, rfl⟩
  · obtain ⟨-, h⟩ := Option.ite_none_right_eq_some.mp h
    obtain ⟨type, -, h⟩ := Option.bind_eq_some_iff.mp h
    rw [htext] at h
    exact hanswer rfl h
  · obtain ⟨-, h⟩ := Option.ite_none_left_eq_some.mp h
    obtain ⟨fallback, hfallback, h⟩ := Option.bind_eq_some_iff.mp h
    rw [href] at h
    obtain ⟨answer, rfl⟩ := exists_of_collectionFallback? hfallback
    exact hanswer rfl h
  · dsimp only [schema] at h
    rw [htoken] at h
    obtain ⟨-, h⟩ := Option.ite_none_right_eq_some.mp h
    exact hanswer (content_schemaFallback _ _) h
  · cases h

/-! ## Chains -/

/-- A link of a chain of descriptions: a call on what was reached, or a member of it. -/
inductive Link where
  | call (method : String) (args : List Value)
  | member (name : String)

/-- Follow a link from what was reached, with a part of the library that answers calls. -/
def Link.follow (handler : Handler) : Link → Value × Heap → Option (Value × Heap)
  | .call method args, (value, heap) => handler (.make (.value value) method args) heap
  | .member name, (value, heap) => (schemaMember? value name).map (·, heap)

/-- What a chain of links comes to. -/
def follow (handler : Handler) (links : List Link) (start : Value × Heap) : Option (Value × Heap) :=
  links.foldlM (fun reached link => link.follow handler reached) start

/-- From a token, every call along the chain is one by which such tokens lead on, and none asks for a value of a map. -/
def Remembers : List Link → Value × Heap → Prop
  | [], _ => True
  | link :: rest, start =>
    (∃ token, start.1.content = .schema token ∧ start.1.type = token.kind.typeName ∧
      ∀ method args, link = .call method args → Continues token.kind (Text.lower method) ∧
      forgotten? token.kind (Text.lower method) = none) ∧
    ∀ reached, link.follow schema start = some reached → Remembers rest reached

theorem follow_cons (handler : Handler) (link : Link) (rest : List Link) (start : Value × Heap) :
    follow handler (link :: rest) start = (link.follow handler start).bind (follow handler rest) :=
  List.foldlM_cons

variable {start : Value × Heap}

theorem follow_invoke {links : List Link} (h : Remembers links start) :
    follow invoke links start = follow schema links start := by
  induction links generalizing start with
  | nil => rfl
  | cons link rest ih =>
    obtain ⟨⟨token, hcontent, htype, hcall⟩, hrest⟩ := h
    have hlink : link.follow invoke start = link.follow schema start := by
      cases link with
      | member name => rfl
      | call method args =>
        obtain ⟨hcontinues, hkept⟩ := hcall method args rfl
        have hinvoke := invoke_token hcontent htype args start.2 hcontinues
        rwa [hkept] at hinvoke
    rw [follow_cons, follow_cons, hlink]
    exact Option.bind_congr fun reached hreached => ih (hrest reached hreached)

theorem follow_member_of_unknown {handler : Handler} (hstart : start.1.content = .unknown) (name : String) :
    (Link.member name).follow handler start = none := by
  obtain ⟨value, heap⟩ := start
  rw [Link.follow, schemaMember?, Value.token?, hstart]
  rfl

theorem unknown_of_follow {links : List Link} {reached : Value × Heap} (hstart : start.1.content = .unknown)
    (h : follow invoke links start = some reached) : reached.1.content = .unknown ∧ reached.2 = start.2 := by
  induction links generalizing start with
  | nil =>
    cases h
    exact ⟨hstart, rfl⟩
  | cons link rest ih =>
    rw [follow_cons] at h
    obtain ⟨next, hnext, h⟩ := Option.bind_eq_some_iff.mp h
    have hnextUnknown : next.1.content = .unknown ∧ next.2 = start.2 := by
      cases link with
      | call method args => exact unknown_of_invoke hstart hnext
      | member name =>
        rw [follow_member_of_unknown hstart] at hnext
        cases hnext
    obtain ⟨hreached, hheap⟩ := ih hnextUnknown.1 h
    exact ⟨hreached, hheap.trans hnextUnknown.2⟩

/-! ## From the global description to a field -/

/-- From the global description to the description of a field: by the name of an object and the name of the field. -/
def fieldLinks (object field : String) : List Link :=
  [.call "get" [.ofText object], .call "getDescribe" [], .member "fields", .call "getMap" [],
  .call "get" [.ofText field], .call "getDescribe" []]

/-- `Schema.getGlobalDescribe()` with the links to the description of a field. -/
def describeField (handler : Handler) (object field : String) (heap : Heap) : Option (Value × Heap) :=
  (handler (.make (.type "Schema") "getGlobalDescribe" []) heap).bind (follow handler (fieldLinks object field))

theorem lower_links : Text.lower "getGlobalDescribe" = "getglobaldescribe" ∧ Text.lower "get" = "get" ∧
    Text.lower "getDescribe" = "getdescribe" ∧ Text.lower "fields" = "fields" ∧
    Text.lower "getMap" = "getmap" := by decide

theorem schema_globalDescribe (heap : Heap) :
    schema (.make (.type "Schema") "getGlobalDescribe" []) heap =
    some (.ofToken { kind := .globalDescribe }, heap) := by
  have hstatic : LibraryCall.isStaticOn (.make (.type "Schema") "getGlobalDescribe" []) "Schema" = true :=
    by decide
  rw [schema, hstatic]
  dsimp only [LibraryCall.make]
  rw [lower_links.1]
  rfl

theorem invoke_globalDescribe (heap : Heap) :
    invoke (.make (.type "Schema") "getGlobalDescribe" []) heap =
    some (.ofToken { kind := .globalDescribe }, heap) := by
  have hstrings : strings (.make (.type "Schema") "getGlobalDescribe" []) heap = none := by
    have hstatic : LibraryCall.isStaticOn (.make (.type "Schema") "getGlobalDescribe" []) "String" = false :=
      by decide
    rw [strings, hstatic]
    rfl
  rw [invoke, handlers]
  simp only [List.findSome?_cons, hstrings, schema_globalDescribe]
  rfl

theorem follow_call_schema {token next : SchemaToken} {method lowered : String} {args : List Value} {heap : Heap}
    (hlower : Text.lower method = lowered) (h : ∀ target, tokenMethod? token ⟨target, lowered, args⟩ heap =
    some (.ofToken next, heap)) :
    (Link.call method args).follow schema (.ofToken token, heap) = some (.ofToken next, heap) := by
  rw [Link.follow, LibraryCall.make, hlower, schema_token rfl, h, Option.getD_some]

def mapLinks : List Link := [.call "getDescribe" [], .member "fields", .call "getMap" []]

theorem follow_describe (object : Option String) (heap : Heap) :
    (Link.call "getDescribe" []).follow schema (.ofToken ⟨.objectType, object, none⟩, heap) =
    some (.ofToken ⟨.objectDescribe, object, none⟩, heap) :=
  follow_call_schema lower_links.2.2.1 fun _ => rfl

theorem follow_fields (object : Option String) (heap : Heap) :
    (Link.member "fields").follow schema (.ofToken ⟨.objectDescribe, object, none⟩, heap) =
    some (.ofToken ⟨.fieldMap, object, none⟩, heap) := by
  rw [Link.follow, schemaMember?, lower_links.2.2.2.1]
  rfl

theorem follow_mapLinks (object : Option String) (heap : Heap) :
    follow schema mapLinks (.ofToken ⟨.objectType, object, none⟩, heap) =
    some (.ofToken ⟨.fieldMap, object, none⟩, heap) := by
  rw [mapLinks, follow_cons, follow_describe, Option.bind_some, follow_cons, follow_fields, Option.bind_some,
    follow_cons, follow_call_schema lower_links.2.2.2.2 fun _ => rfl]
  rfl

theorem remembers_mapLinks (object : Option String) (heap : Heap) :
    Remembers mapLinks (.ofToken ⟨.objectType, object, none⟩, heap) := by
  obtain ⟨-, -, hdescribe, -, hmap⟩ := lower_links
  refine ⟨⟨_, rfl, type_ofToken _, ?_⟩, fun reached hreached => ?_⟩
  · rintro method args ⟨⟩
    rw [hdescribe]
    exact ⟨⟨⟨.objectType, none, none⟩, ⟨.type "", "getdescribe", []⟩, {}, rfl, rfl, rfl⟩, rfl⟩
  rw [follow_describe] at hreached
  cases hreached
  refine ⟨⟨_, rfl, type_ofToken _, fun _ _ => nofun⟩, fun reached hreached => ?_⟩
  rw [follow_fields] at hreached
  cases hreached
  refine ⟨⟨_, rfl, type_ofToken _, ?_⟩, fun _ _ => trivial⟩
  rintro method args ⟨⟩
  rw [hmap]
  exact ⟨⟨⟨.fieldMap, none, none⟩, ⟨.type "", "getmap", []⟩, {}, rfl, rfl, rfl⟩, rfl⟩

theorem follow_append (handler : Handler) (first second : List Link) (start : Value × Heap) :
    follow handler (first ++ second) start = (follow handler first start).bind (follow handler second) :=
  List.foldlM_append

theorem describeField_schema (object field : String) (heap : Heap) :
    describeField schema object field heap = some (.ofToken ⟨.fieldDescribe, some object, some field⟩, heap) := by
  obtain ⟨-, hget, hdescribe, -, -⟩ := lower_links
  have hlinks : fieldLinks object field = .call "get" [.ofText object] ::
    (mapLinks ++ [.call "get" [.ofText field], .call "getDescribe" []]) := rfl
  have hobject : ∀ target, tokenMethod? ⟨.globalDescribe, none, none⟩ ⟨target, "get", [.ofText object]⟩ heap =
      some (.ofToken ⟨.objectType, some object, none⟩, heap) := fun _ => rfl
  have hfield : ∀ target, tokenMethod? ⟨.fieldMap, some object, none⟩ ⟨target, "get", [.ofText field]⟩ heap =
      some (.ofToken ⟨.field, some object, some field⟩, heap) := fun _ => rfl
  have hlast : ∀ target, tokenMethod? ⟨.field, some object, some field⟩ ⟨target, "getdescribe", []⟩ heap =
      some (.ofToken ⟨.fieldDescribe, some object, some field⟩, heap) := fun _ => rfl
  rw [describeField, schema_globalDescribe, Option.bind_some, hlinks, follow_cons, follow_call_schema hget hobject,
    Option.bind_some, follow_append, follow_mapLinks, Option.bind_some, follow_cons, follow_call_schema hget hfield,
    Option.bind_some, follow_cons, follow_call_schema hdescribe hlast]
  rfl

theorem continues_globalDescribe : Continues .globalDescribe "get" :=
  ⟨{ kind := .globalDescribe }, ⟨.type "", "get", []⟩, {}, rfl, rfl, rfl⟩

theorem follow_get_invoke {token : SchemaToken} {receiver : Value} (hcontent : receiver.content = .schema token)
    (htype : receiver.type = token.kind.typeName) (hcontinues : Continues token.kind "get") {left : Value}
    (hleft : forgotten? token.kind "get" = some left) (args : List Value) (heap : Heap) :
    (Link.call "get" args).follow invoke (receiver, heap) = some (left, heap) := by
  rw [Link.follow, LibraryCall.make, lower_links.2.1, invoke_token hcontent htype args heap hcontinues, hleft]
  rfl

theorem describeField_invoke (object field : String) (heap : Heap) : describeField invoke object field heap = none := by
  rw [describeField, invoke_globalDescribe, Option.bind_some, fieldLinks, follow_cons,
    follow_get_invoke rfl (type_ofToken _) continues_globalDescribe rfl, Option.bind_some, follow_cons,
    Option.bind_eq_none_iff]
  intro reached hreached
  rw [follow_cons, follow_member_of_unknown (unknown_of_invoke rfl hreached).1]
  rfl

/-! ## Through the whole library -/

/-- Through the whole library a method by which tokens lead on is answered as by the schema, but for `get` on the
global description and on a map of fields, whose answer is unknown and leads nowhere. So a chain without these is
the same through the library as through the schema, and the chain from the global description to a field, which the
schema follows to its end, breaks off. -/
theorem descriptions_through_library {token : SchemaToken} {receiver : Value}
    (hcontent : receiver.content = .schema token) (htype : receiver.type = token.kind.typeName) (heap : Heap) :
    (∀ method args, Continues token.kind method → invoke ⟨.value receiver, method, args⟩ heap =
      ((forgotten? token.kind method).map (·, heap)).or (schema ⟨.value receiver, method, args⟩ heap)) ∧
    (∀ links, Remembers links (receiver, heap) → follow invoke links (receiver, heap) =
    follow schema links (receiver, heap)) ∧
    (∀ links args reached, Continues token.kind "get" → follow invoke (.call "get" args :: links) (receiver, heap) =
    some reached → reached.1.content = .unknown ∧ reached.2 = heap) ∧
    ∀ object field, describeField schema object field heap =
    some (.ofToken ⟨.fieldDescribe, some object, some field⟩, heap) ∧ describeField invoke object field heap =
    none := by
  refine ⟨fun method args hcontinues => invoke_token hcontent htype args heap hcontinues, fun links hremembers =>
    follow_invoke hremembers, ?_, fun object field =>
    ⟨describeField_schema object field heap, describeField_invoke object field heap⟩⟩
  intro links args reached hcontinues hfollow
  obtain ⟨type, hleft⟩ := hcontinues.forgotten?_get
  rw [follow_cons, follow_get_invoke hcontent htype hcontinues hleft, Option.bind_some] at hfollow
  exact unknown_of_follow rfl hfollow

/-- `Account.SObjectType` and its map of fields, with an empty heap. -/
def account : Value × Heap := (.ofToken ⟨.objectType, some "Account", none⟩, {})

def accountFields : Value × Heap := (.ofToken ⟨.fieldMap, some "Account", none⟩, {})

/-- The map of fields of `Account` is reached from its type, and `get` on it forgets the field. -/
theorem descriptions_of_account :
    (Continues .objectType "getdescribe" ∧ invoke ⟨.value account.1, "getdescribe", []⟩ {} =
    some (.ofToken ⟨.objectDescribe, some "Account", none⟩, {})) ∧
    (Remembers mapLinks account ∧ follow invoke mapLinks account = some accountFields) ∧
    (Continues .fieldMap "get" ∧ ∃ reached, follow invoke [.call "get" [.ofText "Name"]] accountFields =
    some reached ∧ reached.1.content = .unknown) := by
  obtain ⟨hcall, hchain, -⟩ := descriptions_through_library rfl (type_ofToken ⟨.objectType, some "Account", none⟩) {}
  obtain ⟨-, -, hlost, -⟩ := descriptions_through_library rfl (type_ofToken ⟨.fieldMap, some "Account", none⟩) {}
  have hdescribe : Continues .objectType "getdescribe" :=
    ⟨⟨.objectType, none, none⟩, ⟨.type "", "getdescribe", []⟩, {}, rfl, rfl, rfl⟩
  have hremembers : Remembers mapLinks account := remembers_mapLinks (some "Account") {}
  have hget : Continues .fieldMap "get" := ⟨⟨.fieldMap, none, none⟩, ⟨.type "", "get", []⟩, {}, rfl, rfl, rfl⟩
  have hfollow : follow invoke [.call "get" [.ofText "Name"]] accountFields =
      some (.unknown "Schema.SObjectField", {}) := by
    rw [follow_cons, accountFields, follow_get_invoke rfl (type_ofToken _) hget rfl]
    rfl
  exact ⟨⟨hdescribe, hcall _ [] hdescribe⟩,
    ⟨hremembers, (hchain _ hremembers).trans (follow_mapLinks (some "Account") {})⟩, hget, _, hfollow,
    (hlost _ _ _ hget hfollow).1⟩

/-- The description of the field `Name` of `Account` is not found through the whole library. -/
theorem describeField_ne_account :
    describeField invoke "Account" "Name" {} ≠ some (.ofToken ⟨.fieldDescribe, some "Account", some "Name"⟩, {}) := by
  rw [describeField_invoke]
  nofun

end ApexPaths.Library
