import ApexPaths.Build.Inheritance
import ApexPaths.Proofs.Build.Planting
import ApexPaths.Proofs.Flow.Methods
import ApexPaths.Proofs.Result
import Mathlib.Logic.Relation

/-!
Supertypes of a graph. What a type mentions is read from the tree, which linking does not change; so the
links are the resolved references of all types. Resolution fails when a reference means the type that
mentions it, or when extension edges lead from a type back to it.
-/

namespace ApexPaths.Build
set_option autoImplicit false

open CodeGraph ApexPaths.Flow List

/-! ## Resolved references -/

/-- A type mentions a name that means another type, with the label of the edge it is to get. -/
def Mentions (graph : CodeGraph) (label : EdgeLabel) (source target : VertexId) : Prop :=
  source ∈ typeDeclarations graph ∧ ∃ reference, (reference, label) ∈ supertypeReferences graph source ∧
    resolveSupertype? graph (typeTable graph) source reference = some target

/-- Some type names itself as a supertype. -/
def HasSelfSupertype (graph : CodeGraph) : Prop := ∃ label id, Mentions graph label id id

/-- The resolved extensions lead from some type back to it. -/
def HasExtensionCycle (graph : CodeGraph) : Prop := ∃ id, Relation.TransGen (Mentions graph .extensionOf) id id

def IsInheritance (label : EdgeLabel) : Prop := label = .extensionOf ∨ label = .implementationOf

variable {id : VertexId}

theorem isInheritance_of_mem {graph : CodeGraph} {r : String × EdgeLabel}
    (h : r ∈ supertypeReferences graph id) : IsInheritance r.2 := by
  rcases mem_append.mp h with h | h
  · obtain ⟨name, -, rfl⟩ := Option.map_eq_some_iff.mp (Option.mem_toList.mp h)
    exact .inl rfl
  · obtain ⟨name, -, rfl⟩ := mem_map.mp h
    cases graph.is id .userInterface
    · exact .inr rfl
    · exact .inl rfl

theorem lt_of_mem_typeDeclarations {graph : CodeGraph} (h : id ∈ typeDeclarations graph) :
    id < graph.vertexCount := mem_range.mp (mem_filter.mp h).1

variable {table : List (String × VertexId)}

theorem mem_of_lookup? {name : String} (h : lookup? table name = some id) :
    ∃ key, (key, id) ∈ table := by
  obtain ⟨⟨key, v⟩, hfound, rfl⟩ := Option.map_eq_some_iff.mp h
  exact ⟨key, mem_of_find?_eq_some hfound⟩

theorem mem_of_resolveSupertype? {graph : CodeGraph} {target : VertexId}
    {reference : String} (h : resolveSupertype? graph table id reference = some target) : ∃ key,
    (key, target) ∈ table := by
  rw [resolveSupertype?] at h
  split at h
  · exact mem_of_lookup? h
  · obtain ⟨name, -, hname⟩ := exists_of_findSome?_eq_some h
    exact mem_of_lookup? hname

theorem mem_typeDeclarations_of_mem_typeTable {graph : CodeGraph} {entry : String × VertexId}
    (h : entry ∈ typeTable graph) : entry.2 ∈ typeDeclarations graph := by
  obtain ⟨id, hid, hentry⟩ := mem_filterMap.mp h
  obtain ⟨name, -, rfl⟩ := Option.map_eq_some_iff.mp hentry
  exact hid

/-! ## Reads from the tree -/

section
variable {graph graph' : CodeGraph} (same : graph.SameTree graph')
include same

theorem supertypeReferences_congr (id : VertexId) : supertypeReferences graph' id = supertypeReferences graph id := by
  have hname : graph'.text? id (.spelled .superClassName) = graph.text? id (.spelled .superClassName) :=
    same.text?_eq id rfl
  have hnames : graph'.texts id (.spelled .interfaceNames) = graph.texts id (.spelled .interfaceNames) := by
    rw [CodeGraph.texts_eq, CodeGraph.texts_eq, same.property?_eq id _ rfl]
  simp only [supertypeReferences, same.is_eq, hname, hnames]

theorem resolveSupertype?_congr (table : List (String × VertexId)) (id : VertexId) (reference : String) :
    resolveSupertype? graph' table id reference = resolveSupertype? graph table id reference := by
  have hdefining : graph'.text? id (.folded .definingType) = graph.text? id (.folded .definingType) :=
    same.text?_eq id rfl
  have houter : graph'.text? id (.folded .outerType) = graph.text? id (.folded .outerType) := same.text?_eq id rfl
  simp only [resolveSupertype?, hdefining, houter]

theorem typeDeclarations_congr : typeDeclarations graph' = typeDeclarations graph := by
  simp only [typeDeclarations, CodeGraph.ids, same.vertexCount_eq, same.is_eq]

end

/-! ## Changes -/

variable {self : Prop} {extensions : VertexId → VertexId → Prop}

section
variable {α β : Type} (graph : CodeGraph)

/-- The second graph is the first one with more inheritance edges; `extensions` are those of extension. -/
structure Linked (graph : CodeGraph) (extensions : VertexId → VertexId → Prop) (graph' : CodeGraph) : Prop where
  sameTree : graph.SameTree graph'
  keeps : ∀ v, Keeps graph graph' v
  mem_iff : ∀ v w, w ∈ graph'.outNeighbors v .extensionOf ↔ w ∈ graph.outNeighbors v .extensionOf ∨ extensions v w

/-- A change links types, or fails on a reference of a type to itself. -/
def Links (x : Change α) (self : Prop) (extensions : VertexId → VertexId → Prop) : Prop :=
  match x.run graph with
  | (.ok _, graph') => ¬self ∧ Linked graph extensions graph'
  | (.error error, _) => self ∧ ∃ name, error = .internal (.selfSupertype name)

variable {graph}

theorem Linked.refl (graph : CodeGraph) : Linked graph (fun _ _ => False) graph :=
  ⟨.refl graph, fun v => .refl graph v, by simp⟩

theorem Linked.trans {a b c : CodeGraph} {first second : VertexId → VertexId → Prop} (hab : Linked a first b)
    (hbc : Linked b second c) : Linked a (fun v w => first v w ∨ second v w) c where
  sameTree := hab.sameTree.trans hbc.sameTree
  keeps v := (hab.keeps v).trans (hbc.keeps v)
  mem_iff v w := by rw [hbc.mem_iff, hab.mem_iff, or_assoc]

theorem Links.congr {x : Change α} {self' : Prop} {extensions' : VertexId → VertexId → Prop}
    (h : Links graph x self extensions) (hself : self ↔ self') (hextensions : ∀ v w, extensions v w ↔ extensions' v w) :
    Links graph x self' extensions' := by
  obtain rfl : extensions = extensions' := funext fun v => funext fun w => propext (hextensions v w)
  rwa [← hself]

theorem Links.pure (a : α) : Links graph (Pure.pure a) False fun _ _ => False := ⟨not_false, .refl graph⟩

/-- Linking in two steps fails where either does, and adds the edges of both. -/
theorem Links.bind {x : Change α} {f : α → Change β} {self' : Prop} {first second : VertexId → VertexId → Prop}
    (h : Links graph x self first) (hf : ∀ a graph', Linked graph first graph' → Links graph' (f a) self' second) :
    Links graph (x >>= f) (self ∨ self') fun v w => first v w ∨ second v w := by
  rw [Links] at h
  rw [Links, run_bind]
  obtain ⟨answer, graph', hrun⟩ : ∃ answer graph', x.run graph = (answer, graph') := ⟨_, _, rfl⟩
  rw [hrun] at h ⊢
  cases answer with
  | error error => exact ⟨.inl h.1, h.2⟩
  | ok a =>
    have hnext := hf a graph' h.2
    rw [Links] at hnext
    obtain ⟨answer, graph'', hrun⟩ : ∃ answer graph'', (f a).run graph' = (answer, graph'') := ⟨_, _, rfl⟩
    simp only [hrun] at hnext ⊢
    cases answer with
    | error error => exact ⟨.inr hnext.1, hnext.2⟩
    | ok b => exact ⟨not_or.mpr ⟨h.1, hnext.1⟩, h.2.trans hnext.2⟩

theorem Links.map {x : Change α} {f : α → β}
    (h : Links graph x self extensions) : Links graph (x >>= fun a => Pure.pure (f a)) self extensions :=
  (h.bind fun a graph' _ => Links.pure (f a)).congr (by simp) (by simp)

theorem Links.given {f : CodeGraph → Change α}
    (h : Links graph (f graph) self extensions) : Links graph (get >>= f) self extensions := h

theorem Links.fail (h : self) (name : String) :
    Links graph (throw (.internal (.selfSupertype name)) : Change α) self extensions := ⟨h, name, rfl⟩

theorem Links.change {f : CodeGraph → CodeGraph}
    (h : Linked graph extensions (f graph)) : Links graph (modify f : Change Unit) False extensions := ⟨not_false, h⟩

/-! ## Links -/

theorem linked_addEdge {source target : Nat} (h : source < graph.vertexCount ∧ target < graph.vertexCount)
    {label : EdgeLabel} (hchild : label ≠ .child) (hflow : label.flow? = none) :
    Linked graph (fun v w => label = .extensionOf ∧ v = source ∧ w = target) (graph.addEdge source target label) where
  sameTree := .of_addEdge graph source target hchild
  keeps v := ⟨flowSuccessors_addEdge_of_flow?_none graph h v hflow,
    flowPredecessors_addEdge_of_flow?_none graph h v hflow, property?_addEdge graph source target v label _⟩
  mem_iff v w := by
    rw [outNeighbors_addEdge graph h, mem_append]
    refine or_congr_right ?_
    by_cases hlabel : label = .extensionOf <;> by_cases hv : v = source <;> simp [hlabel, hv]

theorem linked_link {source target : Nat} (h : source < graph.vertexCount ∧ target < graph.vertexCount)
    {label : EdgeLabel} (hlabel : IsInheritance label) :
    Linked graph (fun v w => label = .extensionOf ∧ v = source ∧ w = target) (link graph source target label) := by
  have hback : ∀ back : EdgeLabel, back ≠ .child → back.flow? = none → back ≠ .extensionOf → label ≠ .child →
    label.flow? = none → Linked graph (fun v w => label = .extensionOf ∧ v = source ∧ w = target)
        ((graph.addEdge source target label).addEdge target source back) := by
    intro back hchild hflow hne hchild' hflow'
    have hthere := linked_addEdge h hchild' hflow'
    have hrange : target < (graph.addEdge source target label).vertexCount ∧
        source < (graph.addEdge source target label).vertexCount := by
      simpa using h.symm
    simpa [hne] using hthere.trans (linked_addEdge hrange hchild hflow)
  rcases hlabel with rfl | rfl
  · exact hback .extendedBy (by simp) rfl (by simp) (by simp) rfl
  · exact hback .implementedBy (by simp) rfl (by simp) (by simp) rfl

theorem linked_setProperty (id : VertexId) (value : PropertyValue) :
    Linked graph (fun _ _ => False) (graph.setProperty id (.fact .unresolvedSupertypes) value) where
  sameTree := .of_setProperty graph id rfl value
  keeps v := ⟨flowSuccessors_setProperty graph id v _ value, flowPredecessors_setProperty graph id v _ value,
    property?_setProperty_of_ne graph (.inr (by simp)) value⟩
  mem_iff v w := by simp

/-- Linking the references of one type fails at itself, else it adds extensions alone. -/
theorem links_linkReferences (htable : ∀ entry ∈ table, entry.2 < graph.vertexCount)
    {id : Nat} (hid : id < graph.vertexCount) (references : List (String × EdgeLabel))
    (hlabels : ∀ r ∈ references, IsInheritance r.2) : Links graph (linkReferences table id references)
      (∃ r ∈ references, resolveSupertype? graph table id r.1 = some id)
      fun v w => v = id ∧ ∃ r ∈ references, r.2 = .extensionOf ∧ resolveSupertype? graph table id r.1 = some w := by
  induction references generalizing graph with
  | nil => exact (Links.pure _).congr (by simp) (by simp)
  | cons r rest ih =>
    obtain ⟨reference, label⟩ := r
    have hlabel : IsInheritance label := hlabels (reference, label) mem_cons_self
    have hrest : ∀ r ∈ rest, IsInheritance r.2 := fun r hr => hlabels r (mem_cons_of_mem _ hr)
    unfold linkReferences
    refine Links.given ?_
    -- What is left to do in a graph with one more link reads the same references.
    have hlater : ∀ {extensions : VertexId → VertexId → Prop} {graph' : CodeGraph}, Linked graph extensions graph' →
        Links graph' (linkReferences table id rest) (∃ r ∈ rest, resolveSupertype? graph table id r.1 = some id)
          fun v w => v = id ∧ ∃ r ∈ rest, r.2 = .extensionOf ∧ resolveSupertype? graph table id r.1 = some w := by
      intro extensions graph' linked
      have hcount := linked.sameTree.vertexCount_eq
      have hlinks := @ih graph' (by rwa [hcount]) (by rwa [hcount]) hrest
      simpa only [resolveSupertype?_congr linked.sameTree] using hlinks
    cases hfound : resolveSupertype? graph table id reference with
    | none =>
      refine (Links.map (hlater (.refl graph))).congr ?_ fun v w => ?_
      · simp [hfound]
      · simp [hfound]
    | some target =>
      by_cases hself : target = id
      · subst hself
        simp only [if_true]
        exact Links.fail ⟨(reference, label), mem_cons_self, hfound⟩ _
      · obtain ⟨key, hkey⟩ := mem_of_resolveSupertype? hfound
        have hlink : Linked graph (fun v w => label = .extensionOf ∧ v = id ∧ w = target)
            (link graph id target label) :=
          linked_link ⟨hid, htable _ hkey⟩ hlabel
        simp only [if_neg hself]
        refine (Links.bind (Links.change hlink) fun _ graph' linked => Links.map (hlater linked)).congr ?_ fun v w => ?_
        · simp [hfound, hself]
        · simp only [mem_cons, or_and_right, exists_or, exists_eq_left, hfound, Option.some.injEq]
          constructor
          · rintro (⟨h, rfl, rfl⟩ | ⟨h, hr⟩)
            · exact ⟨rfl, .inl ⟨h, rfl⟩⟩
            · exact ⟨h, .inr hr⟩
          · rintro ⟨rfl, ⟨h, rfl⟩ | hr⟩
            · exact .inl ⟨h, rfl, rfl⟩
            · exact .inr ⟨rfl, hr⟩

/-- Linking all types fails where some type means itself. -/
theorem links_linkTypes (htable : ∀ entry ∈ table, entry.2 < graph.vertexCount)
    (types : List VertexId) (htypes : ∀ id ∈ types, id < graph.vertexCount) : Links graph (linkTypes table types)
      (∃ id ∈ types, ∃ r ∈ supertypeReferences graph id, resolveSupertype? graph table id r.1 = some id)
      fun v w => v ∈ types ∧ ∃ r ∈ supertypeReferences graph v, r.2 = .extensionOf ∧
        resolveSupertype? graph table v r.1 = some w := by
  induction types generalizing graph with
  | nil => exact (Links.pure _).congr (by simp) (by simp)
  | cons id rest ih =>
    obtain ⟨hid, hrest⟩ := forall_mem_cons.mp htypes
    have hfirst := links_linkReferences htable hid (supertypeReferences graph id) fun r => isInheritance_of_mem
    have hlater : ∀ {extensions : VertexId → VertexId → Prop} {graph' : CodeGraph}, Linked graph extensions graph' →
        Links graph' (linkTypes table rest)
          (∃ id ∈ rest, ∃ r ∈ supertypeReferences graph id, resolveSupertype? graph table id r.1 = some id)
          fun v w => v ∈ rest ∧ ∃ r ∈ supertypeReferences graph v, r.2 = .extensionOf ∧
            resolveSupertype? graph table v r.1 = some w := by
      intro extensions graph' linked
      have hcount := linked.sameTree.vertexCount_eq
      have hlinks := @ih graph' (by rwa [hcount]) (by rwa [hcount])
      simpa only [resolveSupertype?_congr linked.sameTree, supertypeReferences_congr linked.sameTree] using hlinks
    rw [linkTypes]
    refine Links.given ?_
    refine (Links.bind hfirst fun found graph' linked => show Links graph' _
      (∃ id ∈ rest, ∃ r ∈ supertypeReferences graph id, resolveSupertype? graph table id r.1 = some id)
      fun v w => v ∈ rest ∧ ∃ r ∈ supertypeReferences graph v, r.2 = .extensionOf ∧
      resolveSupertype? graph table v r.1 = some w
      from ?_).congr ?_ fun v w => ?_
    · obtain ⟨edges, unresolved⟩ := found
      -- The record of unknown names links nothing.
      by_cases hempty : unresolved.isEmpty = true
      · simp only [hempty, Bool.not_true, Bool.false_eq_true, if_false]
        exact Links.map (hlater linked)
      · simp only [hempty, Bool.not_false, if_true]
        have hrecord : Linked graph' _ _ := linked_setProperty id (.texts unresolved)
        refine (Links.bind (Links.change hrecord) fun _ graph'' recorded =>
          Links.map (hlater (linked.trans recorded))).congr ?_ ?_
        · simp
        · simp
    · simp
    · simp only [mem_cons]
      constructor
      · rintro (⟨rfl, hr⟩ | ⟨h, hr⟩)
        · exact ⟨.inl rfl, hr⟩
        · exact ⟨.inr h, hr⟩
      · rintro ⟨rfl | h, hr⟩
        · exact .inl ⟨rfl, hr⟩
        · exact .inr ⟨h, hr⟩

end

/-! ## Cycles of extension -/

section
variable (graph : CodeGraph)

/-- An extension edge leads from the first vertex to the second. -/
def Extends (v w : VertexId) : Prop := w ∈ graph.outNeighbors v .extensionOf

variable {graph}

theorem nodup_eraseDups (vertices : List VertexId) : vertices.eraseDups.Nodup := by
  induction h : vertices.length using Nat.strongRecOn generalizing vertices with
  | ind n ih =>
    cases vertices with
    | nil => simp
    | cons v rest =>
      have hlt : (rest.filter fun w => !w == v).length < n := by
        have hle := length_filter_le (fun w => !w == v) rest
        simp only [length_cons] at h
        omega
      rw [eraseDups_cons, nodup_cons]
      exact ⟨by simp, ih _ hlt _ rfl⟩

/-- With enough fuel everything that follows a waiting vertex is found: each step takes one vertex from
those waiting, and each vertex comes to them once. -/
theorem closed_extensionClosure (hrange : ∀ v w, Extends graph v w → w < graph.vertexCount) (n : Nat)
    (seen waiting : List VertexId) (hnodup : seen.Nodup) (hseen : ∀ v ∈ seen, v < graph.vertexCount)
    (hfuel : waiting.length + (graph.vertexCount - seen.length) ≤ n)
    (hdone : ∀ v ∈ seen, v ∈ waiting ∨ ∀ w, Extends graph v w → w ∈ seen) :
    (∀ v ∈ seen, v ∈ extensionClosure graph n seen waiting) ∧
      (∀ v ∈ waiting, ∀ w, Extends graph v w → w ∈ extensionClosure graph n seen waiting) ∧
      ∀ v ∈ extensionClosure graph n seen waiting, ∀ w, Extends graph v w →
      w ∈ extensionClosure graph n seen waiting := by
  induction n generalizing seen waiting with
  | zero =>
    obtain rfl : waiting = [] := length_eq_zero_iff.mp (by omega)
    rw [extensionClosure]
    exact ⟨fun v hv => hv, by simp, fun v hv => (hdone v hv).resolve_left not_mem_nil⟩
  | succ n ih =>
    cases waiting with
    | nil =>
      rw [extensionClosure]
      · exact ⟨fun v hv => hv, by simp, fun v hv => (hdone v hv).resolve_left not_mem_nil⟩
      · simp
    | cons id rest =>
      rw [extensionClosure]
      generalize hfresh : ((graph.outNeighbors id .extensionOf).filter (!seen.contains ·)).eraseDups = fresh
      have hmem : ∀ w, w ∈ fresh ↔ Extends graph id w ∧ w ∉ seen := by
        intro w
        rw [← hfresh, mem_eraseDups, mem_filter]
        simp [Extends]
      have hdistinct : (seen ++ fresh).Nodup := by
        refine nodup_append.mpr ⟨hnodup, hfresh ▸ nodup_eraseDups _, ?_⟩
        rintro v hv _ hw rfl
        exact ((hmem v).mp hw).2 hv
      have hwithin : ∀ v ∈ seen ++ fresh, v < graph.vertexCount :=
        forall_mem_append.mpr ⟨hseen, fun w hw => hrange id w ((hmem w).mp hw).1⟩
      have hlength : (seen ++ fresh).length ≤ graph.vertexCount := by
        have hsub : seen ++ fresh ⊆ List.range graph.vertexCount := fun v hv => mem_range.mpr (hwithin v hv)
        simpa using hdistinct.length_le_of_subset hsub
      have hfound : ∀ w, Extends graph id w → w ∈ seen ++ fresh := by
        intro w hw
        by_cases hold : w ∈ seen
        · exact mem_append_left _ hold
        · exact mem_append_right _ ((hmem w).mpr ⟨hw, hold⟩)
      have hnext : ∀ v ∈ seen ++ fresh, v ∈ fresh ++ rest ∨ ∀ w, Extends graph v w → w ∈ seen ++ fresh := by
        refine forall_mem_append.mpr ⟨fun v hv => ?_, fun v hv => .inl (mem_append_left _ hv)⟩
        rcases hdone v hv with hv | hv
        · rcases mem_cons.mp hv with rfl | hv
          · exact .inr hfound
          · exact .inl (mem_append_right _ hv)
        · exact .inr fun w hw => mem_append_left _ (hv w hw)
      have hless : (fresh ++ rest).length + (graph.vertexCount - (seen ++ fresh).length) ≤ n := by
        simp only [length_append, length_cons] at hfuel hlength ⊢
        omega
      obtain ⟨hkept, hwaited, hclosed⟩ := ih (seen ++ fresh) (fresh ++ rest) hdistinct hwithin hless hnext
      refine ⟨fun v hv => hkept v (mem_append_left _ hv), forall_mem_cons.mpr ⟨fun w hw => hkept w (hfound w hw), ?_⟩,
        hclosed⟩
      exact fun v hv => hwaited v (mem_append_right _ hv)

theorem forall_mem_extensionClosure {P : VertexId → Prop} (hstep : ∀ v w, P v → Extends graph v w → P w) (n : Nat)
    (seen waiting : List VertexId) (hseen : ∀ v ∈ seen, P v) (hwaiting : ∀ v ∈ waiting, ∀ w, Extends graph v w → P w) :
    ∀ v ∈ extensionClosure graph n seen waiting, P v := by
  induction n generalizing seen waiting with
  | zero =>
    rw [extensionClosure]
    exact hseen
  | succ n ih =>
    cases waiting with
    | nil =>
      rw [extensionClosure]
      · exact hseen
      · simp
    | cons id rest =>
      obtain ⟨hid, hrest⟩ := forall_mem_cons.mp hwaiting
      have hfresh : ∀ w ∈ ((graph.outNeighbors id .extensionOf).filter (!seen.contains ·)).eraseDups, P w := by
        intro w hw
        exact hid w (mem_filter.mp (mem_eraseDups.mp hw)).1
      rw [extensionClosure]
      exact ih _ _ (forall_mem_append.mpr ⟨hseen, hfresh⟩)
        (forall_mem_append.mpr ⟨fun v hv w => hstep v w (hfresh v hv), hrest⟩)

theorem onExtensionCycle_iff (hrange : ∀ v w, Extends graph v w → w < graph.vertexCount) (id : VertexId) :
    onExtensionCycle graph id = true ↔ Relation.TransGen (Extends graph) id id := by
  rw [onExtensionCycle, contains_iff_mem]
  constructor
  · refine forall_mem_extensionClosure (P := fun v => Relation.TransGen (Extends graph) id v)
      (fun v w h hvw => h.tail hvw) _ [] [id] (by simp) ?_ id
    simpa using fun w => Relation.TransGen.single
  · intro h
    obtain ⟨-, hfirst, hclosed⟩ := closed_extensionClosure hrange (graph.vertexCount + 1) [] [id] nodup_nil (by simp)
      (by simp only [length_cons, length_nil]; omega) (by simp)
    have hall : ∀ w, Relation.TransGen (Extends graph) id w →
        w ∈ extensionClosure graph (graph.vertexCount + 1) [] [id] := by
      intro w hw
      induction hw with
      | single hw => exact hfirst id mem_cons_self _ hw
      | tail _ hvw ih => exact hclosed _ ih _ hvw
    exact hall id h

end

/-! ## Resolution -/

/-- Resolution links the types of a graph, or fails exactly on a type that is its own supertype. -/
theorem resolveInheritance_ends {graph : CodeGraph} (hbare : ∀ v, graph.outNeighbors v .extensionOf = []) :
    match resolveInheritance.run graph with
    | (.ok _, linked) =>
      ¬HasSelfSupertype graph ∧ ¬HasExtensionCycle graph ∧ graph.SameTree linked ∧ ∀ v, Keeps graph linked v
    | (.error error, _) => (HasSelfSupertype graph ∨ HasExtensionCycle graph) ∧
        ∃ name, error = .internal (.selfSupertype name) ∨ error = .internal (.cyclicExtension name) := by
  have htable : ∀ entry ∈ typeTable graph, entry.2 < graph.vertexCount := fun entry hentry =>
    lt_of_mem_typeDeclarations (mem_typeDeclarations_of_mem_typeTable hentry)
  have hlinks := links_linkTypes htable (typeDeclarations graph) fun id => lt_of_mem_typeDeclarations
  have hself : (∃ id ∈ typeDeclarations graph, ∃ r ∈ supertypeReferences graph id,
      resolveSupertype? graph (typeTable graph) id r.1 = some id) ↔ HasSelfSupertype graph := by
    constructor
    · rintro ⟨id, hid, ⟨reference, label⟩, hr, hfound⟩
      exact ⟨label, id, hid, reference, hr, hfound⟩
    · rintro ⟨label, id, hid, reference, hr, hfound⟩
      exact ⟨id, hid, (reference, label), hr, hfound⟩
  rw [resolveInheritance]
  show match (linkTypes (typeTable graph) (typeDeclarations graph) >>= _ : Change InheritanceStats).run graph with
    | (.ok _, linked) => _
    | (.error error, _) => _
  rw [run_bind]
  rw [Links] at hlinks
  obtain ⟨answer, linked, hrun⟩ : ∃ answer linked, (linkTypes (typeTable graph) (typeDeclarations graph)).run graph =
    (answer, linked) :=
    ⟨_, _, rfl⟩
  rw [hrun] at hlinks ⊢
  cases answer with
  | error error =>
    obtain ⟨hfound, name, rfl⟩ := hlinks
    exact ⟨.inl (hself.mp hfound), name, .inl rfl⟩
  | ok counts =>
    obtain ⟨edges, unresolved⟩ := counts
    obtain ⟨hnone, hlinked⟩ := hlinks
    have hextends : ∀ v w, Extends linked v w ↔ Mentions graph .extensionOf v w := by
      intro v w
      rw [Extends, hlinked.mem_iff, hbare, Mentions]
      simp only [not_mem_nil, false_or]
      refine and_congr_right fun _ => ⟨?_, ?_⟩
      · rintro ⟨⟨reference, label⟩, hr, rfl, hfound⟩
        exact ⟨reference, hr, hfound⟩
      · rintro ⟨reference, hr, hfound⟩
        exact ⟨(reference, .extensionOf), hr, rfl, hfound⟩
    have hrange : ∀ v w, Extends linked v w → w < linked.vertexCount := by
      intro v w h
      obtain ⟨-, reference, -, hfound⟩ := (hextends v w).mp h
      obtain ⟨key, hkey⟩ := mem_of_resolveSupertype? hfound
      rw [hlinked.sameTree.vertexCount_eq]
      exact htable _ hkey
    have hcycle : ∀ id, onExtensionCycle linked id = true ↔ Relation.TransGen (Mentions graph .extensionOf) id id := by
      intro id
      rw [onExtensionCycle_iff hrange, show Extends linked = Mentions graph .extensionOf from
        funext fun v => funext fun w => propext (hextends v w)]
    dsimp only
    rw [run_bind, show (get : Change CodeGraph).run linked = (.ok linked, linked) from rfl]
    dsimp only
    cases hfind : (typeDeclarations linked).find? (onExtensionCycle linked) with
    | some id => exact ⟨.inr ⟨id, (hcycle id).mp (List.find?_some hfind)⟩, shownType linked id, .inr rfl⟩
    | none =>
      refine ⟨fun h => hnone (hself.mpr h), ?_, hlinked.sameTree, hlinked.keeps⟩
      rintro ⟨id, h⟩
      have hid : id ∈ typeDeclarations linked := by
        rw [typeDeclarations_congr hlinked.sameTree]
        obtain ⟨_, hfirst, -⟩ := Relation.TransGen.head'_iff.mp h
        exact hfirst.1
      exact List.find?_eq_none.mp hfind id hid ((hcycle id).mpr h)

end ApexPaths.Build
