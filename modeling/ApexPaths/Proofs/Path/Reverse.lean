import ApexPaths.Proofs.Path.Route
import ApexPaths.Proofs.Path.Sequences

/-!
Paths found backward are starts of paths found forward. Every edge of control flow is listed at both of its ends, so the
search against the edges goes through the same sequences of edges as the search along them, and comes upon each once. A
sequence that leads from the entry to a vertex goes on to an end of the method, since no walk from the entry is endless.
Vertices that cannot be reached from the entry have edges as well; the search backward from them ends without a path.
-/

namespace ApexPaths
set_option autoImplicit false

open List CodeGraph

variable {w : VertexId} {passed vertices : List PathVertex}

/-! ## Both ends of an edge -/

namespace Build

/-- An edge of control flow is listed at its target as often as at its source. -/
def Mirrored (graph : CodeGraph) : Prop :=
  ∀ v w kind, (graph.flowPredecessors w).count (v, kind) = (graph.flowSuccessors v).count (w, kind)

theorem flowSuccessors_addVertex (graph : CodeGraph) (label : NodeKind) (span : Span) (v : VertexId) :
    (graph.addVertex label span).flowSuccessors v = graph.flowSuccessors v := by
  rw [flowSuccessors, flowSuccessors, vertex?_addVertex]
  split_ifs with hv
  · have hnone : graph.vertex? v = none := Array.getElem?_eq_none (Nat.le_of_eq hv.symm)
    simp [hnone, Vertex.make]
  · rfl

theorem flowPredecessors_addVertex (graph : CodeGraph) (label : NodeKind) (span : Span) (v : VertexId) :
    (graph.addVertex label span).flowPredecessors v = graph.flowPredecessors v := by
  rw [flowPredecessors, flowPredecessors, vertex?_addVertex]
  split_ifs with hv
  · have hnone : graph.vertex? v = none := Array.getElem?_eq_none (Nat.le_of_eq hv.symm)
    simp [hnone, Vertex.make]
  · rfl

theorem lasting_mirrored : Lasting Mirrored where
  addVertex h label span v w kind := by
    rw [flowSuccessors_addVertex, flowPredecessors_addVertex]
    exact h v w kind
  setProperty h id key value v w kind := by
    rw [flowSuccessors_setProperty, flowPredecessors_setProperty]
    exact h v w kind
  addEdge {graph} h source target label v w kind := by
    by_cases hrange : (source : Nat) < graph.vertexCount ∧ (target : Nat) < graph.vertexCount
    · cases hlabel : label.flow? with
      | none =>
        rw [flowSuccessors_addEdge_of_flow?_none graph hrange v hlabel,
          flowPredecessors_addEdge_of_flow?_none graph hrange w hlabel]
        exact h v w kind
      | some laid =>
        obtain rfl : label = .flow laid := by
          cases label <;> simp_all [EdgeLabel.flow?]
        rw [flowSuccessors_addEdge graph hrange, flowPredecessors_addEdge graph hrange,
          count_append, count_append, h v w kind]
        by_cases hv : v = source <;> by_cases hw : w = target <;> simp [hv, hw, count_singleton, Ne.symm]
    · rw [addEdge, if_neg hrange]
      exact h v w kind

theorem mirrored_of_build {settings : Settings} {units : List Source.CompilationUnit} {graph : CodeGraph}
    {stats : Stats} (hbuild : build settings units = .ok (graph, stats)) : Mirrored graph :=
  lasting_mirrored.of_build
  (fun v w kind => by simp [flowSuccessors, flowPredecessors, vertex?]) hbuild

theorem Mirrored.mem_iff {graph : CodeGraph} (h : Mirrored graph) {v : VertexId} {kind : FlowKind} :
    (v, kind) ∈ graph.flowPredecessors w ↔ (w, kind) ∈ graph.flowSuccessors v := by
  rw [← count_pos_iff, h v w kind, count_pos_iff]

end Build

namespace Path

/-! ## Sequences from the entry -/

/-- Edges taken one after the other from an entry to a vertex: the vertices before it with the kinds of the edges. -/
inductive Leads (graph : CodeGraph) (entry : VertexId) : List PathVertex → VertexId → Prop where
  | entry : Leads graph entry [] entry
  | edge {passed : List PathVertex} {v w : VertexId} {kind : FlowKind} (h : Leads graph entry passed v)
    (hedge : (w, kind) ∈ graph.flowSuccessors v) : Leads graph entry (passed ++ [⟨v, some kind⟩]) w

variable {graph : CodeGraph} {entry : VertexId}

theorem Leads.eq_nil_or_cons {v : VertexId} (h : Leads graph entry passed v) :
    (passed = [] ∧ v = entry) ∨ ∃ exit rest, passed = ⟨entry, exit⟩ :: rest := by
  induction h with
  | entry => exact .inl ⟨rfl, rfl⟩
  | edge h hedge ih =>
    rcases ih with ⟨rfl, rfl⟩ | ⟨exit, rest, rfl⟩
    · exact .inr ⟨_, [], rfl⟩
    · exact .inr ⟨exit, _, rfl⟩

theorem Leads.maximal {v : VertexId} (h : Leads graph entry passed v) {places : List Nat}
    (hmaximal : Maximal graph v places vertices) : ∃ places, Maximal graph entry places (passed ++ vertices) := by
  induction h generalizing places vertices with
  | entry => exact ⟨places, hmaximal⟩
  | @edge passed v w kind h hedge ih =>
    obtain ⟨place, hplace⟩ := mem_iff_getElem?.mp hedge
    obtain ⟨places, hwhole⟩ := ih (.edge hplace hmaximal)
    exact ⟨places, by rwa [List.append_assoc]⟩

theorem Maximal.leads {before done after : List PathVertex} {v a : VertexId} {exit : Option FlowKind}
    {places : List Nat} (hdone : Leads graph entry done v) (h : Maximal graph v places (before ++ ⟨a, exit⟩ :: after)) :
    Leads graph entry (done ++ before) a := by
  induction before generalizing done v places with
  | nil =>
    obtain ⟨first, rest, hcons⟩ := h.exists_cons
    obtain rfl : a = v := congrArg PathVertex.id (List.cons.inj hcons).1
    rwa [append_nil]
  | cons first rest ih =>
    generalize hvertices : first :: rest ++ ⟨a, exit⟩ :: after = vertices at h
    cases h with
    | last => simp at hvertices
    | edge hedge hrest =>
      cases hvertices
      have hstep := ih (hdone.edge (mem_of_getElem? hedge)) hrest
      rwa [List.append_assoc] at hstep

theorem Leads.exists_within {n : Nat} (hwithin : Within graph n entry) {v : VertexId}
    (h : Leads graph entry passed v) : ∃ m, Within graph m v := by
  induction h with
  | entry => exact ⟨n, hwithin⟩
  | edge h hedge ih =>
    obtain ⟨m, hm⟩ := ih
    cases m with
    | zero => exact absurd hm (not_within_zero _)
    | succ m => exact ⟨m, hm.next hedge⟩

/-! ## The search backward -/

/-- Backward enumeration finds the vertices that lead from the entry to a vertex. -/
theorem mem_backwardFrom_iff (mirrored : Build.Mirrored graph)
    (hentry : ∀ passed, Leads graph entry passed entry → passed = []) {n : Nat} {v : VertexId}
    {rest : List PathVertex} : vertices ∈ backwardFrom graph entry n v rest ↔
      ∃ passed, Leads graph entry passed v ∧ passed.length < n ∧ vertices = passed ++ rest := by
  induction n generalizing v rest with
  | zero => simp [backwardFrom]
  | succ n ih =>
    rw [backwardFrom]
    by_cases hv : v = entry
    · subst hv
      rw [if_pos rfl, mem_singleton]
      constructor
      · rintro rfl
        exact ⟨[], .entry, Nat.succ_pos n, rfl⟩
      · rintro ⟨passed, hleads, -, rfl⟩
        rw [hentry passed hleads, nil_append]
    rw [if_neg hv, mem_flatMap]
    constructor
    · rintro ⟨⟨previous, kind⟩, hedge, hvertices⟩
      obtain ⟨passed, hleads, hlength, rfl⟩ := ih.mp hvertices
      refine ⟨passed ++ [⟨previous, some kind⟩], hleads.edge (mirrored.mem_iff.mp hedge),
        ?_, by rw [List.append_assoc]; rfl⟩
      rw [length_append, length_singleton]
      exact Nat.succ_lt_succ hlength
    · rintro ⟨passed, hleads, hlength, rfl⟩
      cases hleads with
      | entry => exact absurd rfl hv
      | @edge passed previous _ kind hleads hedge =>
        rw [length_append, length_singleton] at hlength
        refine ⟨(previous, kind), mirrored.mem_iff.mpr hedge,
          ih.mpr ⟨passed, hleads, Nat.lt_of_succ_lt_succ hlength, ?_⟩⟩
        rw [List.append_assoc]
        rfl

theorem nodup_flatMap_of_count_le_one {α β : Type} [BEq α] [LawfulBEq α] {f : α → List β} {items : List α}
    (hitems : ∀ a ∈ items, (f a).Nodup) (honce : ∀ a, f a ≠ [] → items.count a ≤ 1)
    (hapart : ∀ a b, a ≠ b → (f a).Disjoint (f b)) : (items.flatMap f).Nodup := by
  induction items with
  | nil => exact nodup_nil
  | cons a rest ih =>
    obtain ⟨ha, hrest⟩ := forall_mem_cons.mp hitems
    rw [flatMap_cons, nodup_append']
    refine ⟨ha, ih hrest fun b hb => Nat.le_trans count_le_count_cons (honce b hb), fun x hx hlater => ?_⟩
    obtain ⟨b, hb, hxb⟩ := mem_flatMap.mp hlater
    by_cases hab : a = b
    · subst hab
      have hcount := honce a (ne_nil_of_mem hx)
      rw [count_cons_self] at hcount
      have hpos := count_pos_iff.mpr hb
      omega
    · exact hapart a b hab hx hxb

/-- No path is found twice on the way back. -/
theorem nodup_backwardFrom (mirrored : Build.Mirrored graph)
    (hentry : ∀ passed, Leads graph entry passed entry → passed = []) (hforks : ∀ passed v,
    Leads graph entry passed v → (graph.flowSuccessors v).Nodup) (n : Nat) (v : VertexId)
    (rest : List PathVertex) : (backwardFrom graph entry n v rest).Nodup := by
  induction n generalizing v rest with
  | zero => exact nodup_nil
  | succ n ih =>
    rw [backwardFrom]
    split
    · exact nodup_singleton rest
    refine nodup_flatMap_of_count_le_one (fun edge _ => ih edge.1 _) ?_ ?_
    · -- an edge that is listed twice comes from a vertex that cannot be reached, so nothing is found beyond it
      rintro ⟨previous, kind⟩ hfound
      obtain ⟨vertices, hvertices⟩ := exists_mem_of_ne_nil _ hfound
      obtain ⟨passed, hleads, -, -⟩ := (mem_backwardFrom_iff mirrored hentry).mp hvertices
      rw [mirrored previous v kind]
      exact nodup_iff_count_le_one.mp (hforks passed previous hleads) _
    · intro first second hne vertices hfirst hsecond
      obtain ⟨passed, -, -, rfl⟩ := (mem_backwardFrom_iff mirrored hentry).mp hfirst
      obtain ⟨other, -, -, heq⟩ := (mem_backwardFrom_iff mirrored hentry).mp hsecond
      have hlast := (append_inj' heq rfl).2
      simp only [List.cons.injEq, PathVertex.mk.injEq, Option.some.injEq, and_true] at hlast
      exact hne (Prod.ext hlast.1 hlast.2)

end Path

/-! ## Built graphs -/

open ApexPaths.Flow

theorem Build.IsBuilt.forks {graph : CodeGraph} (built : Build.IsBuilt graph) (forest : graph.IsForest)
    {method body : VertexId} (hmethod : graph.is method .method = true) (hbody : graph.body? method = some body) :
    ∃ vertices : List VertexId, body ∈ vertices ∧ ∀ v ∈ vertices,
      ((graph.flowSuccessors v).map Prod.fst).Nodup ∧ ∀ edge ∈ graph.flowSuccessors v, edge.1 ∈ vertices := by
  obtain ⟨b, rfl, hholds, hfault, hstands, -⟩ := built.exists_block hmethod hbody
  refine ⟨b.vertices, b.id_mem_vertices, fun v hv => ?_⟩
  rw [← bodyJunctions_ids hfault] at hv
  obtain ⟨j, hj, rfl⟩ := mem_map.mp hv
  rw [(hstands j hj).next_eq]
  exact ⟨b.junctions_fork [] {} (b.spans forest hholds).1 j hj, (bodyJunctions_exact forest hholds j hj).next_mem⟩

namespace Path

variable {config : Settings} {sources : List (String × String)} {graph : CodeGraph} {entry : VertexId}

/-! ## The forward paths as sequences -/

theorem eq_of_checked {method : VertexId} {entered : Int} {way : List PathVertex}
    (h : checked graph method entered vertices = .ok way) : way = vertices := by
  rw [checked] at h
  cases himbalance : imbalance? graph entered vertices with
  | none =>
    rw [himbalance] at h
    exact (Except.ok.inj h).symm
  | some place =>
    rw [himbalance] at h
    cases h

section
variable {method v : VertexId} {n : Nat} {depth : Int} {ways : List (List PathVertex)}
  (h : forwardFrom graph method n depth v = .ok ways)
include h

theorem within_of_forwardFrom : Within graph n v := by
  induction n generalizing depth v ways with
  | zero => cases h
  | succ n ih =>
    intro walk hwalk
    cases walk with
    | nil => exact Nat.succ_pos n
    | cons next walk =>
      obtain ⟨⟨kind, hedge⟩, hrest⟩ := isChain_cons_cons.mp hwalk
      have hdepth : ¬depth + scopeChange graph v < 0 := fun hbelow => by
        rw [forwardFrom_below hbelow] at h
        cases h
      rw [forwardFrom_edges hdepth (ne_nil_of_mem hedge)] at h
      obtain ⟨groups, hgroups, -⟩ := exists_of_map_eq_ok h
      obtain ⟨group, -, hgroup⟩ := exists_ok_of_mem_mapM hgroups hedge
      obtain ⟨more, hmore, -⟩ := exists_of_map_eq_ok hgroup
      exact Nat.succ_lt_succ (ih hmore walk hrest)

theorem mem_ways_iff {way : List PathVertex} : way ∈ ways ↔ ∃ places, Maximal graph v places way := by
  have hwithin := within_of_forwardFrom h
  rw [forwardFrom_eq_checked hwithin] at h
  constructor
  · intro hway
    obtain ⟨s, hs, hchecked⟩ := exists_of_mapM_eq_ok h hway
    rw [eq_of_checked hchecked]
    exact ⟨s.1, (mem_sequences_iff hwithin).mp hs⟩
  · rintro ⟨places, hmaximal⟩
    obtain ⟨found, hfound, hchecked⟩ := exists_ok_of_mem_mapM h ((mem_sequences_iff hwithin).mpr hmaximal)
    rwa [eq_of_checked hchecked] at hfound

theorem Leads.exists_way (hleads : Leads graph v passed w) :
    ∃ exit rest, passed ++ ⟨w, exit⟩ :: rest ∈ ways := by
  obtain ⟨m, hwithin⟩ := hleads.exists_within (within_of_forwardFrom h)
  obtain ⟨places, vertices, hmaximal⟩ := exists_maximal hwithin
  obtain ⟨exit, rest, rfl⟩ := hmaximal.exists_cons
  exact ⟨exit, rest, (mem_ways_iff h).mpr (hleads.maximal hmaximal)⟩

theorem Leads.eq_nil (hnodup : ∀ way ∈ ways, (way.map PathVertex.id).Nodup)
    (hleads : Leads graph v passed v) : passed = [] := by
  obtain ⟨exit, rest, hway⟩ := hleads.exists_way h
  rcases hleads.eq_nil_or_cons with ⟨rfl, -⟩ | ⟨first, more, rfl⟩
  · rfl
  · have htwice := hnodup _ hway
    simp at htwice

theorem Leads.length_lt (hnodup : ∀ way ∈ ways, (way.map PathVertex.id).Nodup)
    (hinside : ∀ way ∈ ways, ∀ w ∈ way.map PathVertex.id, w < graph.vertexCount)
    (hleads : Leads graph v passed w) : passed.length < graph.vertexCount := by
  obtain ⟨exit, rest, hway⟩ := hleads.exists_way h
  have hlength := (hnodup _ hway).length_le_of_subset fun w hw => mem_range.mpr (hinside _ hway w hw)
  simp only [length_map, length_append, length_cons, length_range] at hlength
  omega

end

/-! ## The paths to a vertex -/

/-- Where the search from the entry succeeds and passes no vertex twice, the search backward finds the starts of
its ways. -/
theorem mem_backwardFrom_iff_exists (mirrored : Build.Mirrored graph) {method : VertexId}
    {ways : List (List PathVertex)} (hways : forwardFrom graph method (graph.vertexCount + 1) 0 entry = .ok ways)
    (hnodup : ∀ way ∈ ways, (way.map PathVertex.id).Nodup)
    (hinside : ∀ way ∈ ways, ∀ w ∈ way.map PathVertex.id, w < graph.vertexCount) {anchor : VertexId} :
    vertices ∈ backwardFrom graph entry (graph.vertexCount + 1) anchor [⟨anchor, none⟩] ↔
      ∃ way ∈ ways, ∃ before exit after, way = before ++ ⟨anchor, exit⟩ :: after ∧
      vertices = before ++ [⟨anchor, none⟩] := by
  rw [mem_backwardFrom_iff mirrored fun _ => Leads.eq_nil hways hnodup]
  constructor
  · rintro ⟨passed, hleads, -, rfl⟩
    obtain ⟨exit, rest, hway⟩ := hleads.exists_way hways
    exact ⟨_, hway, passed, exit, rest, rfl, rfl⟩
  · rintro ⟨way, hway, before, exit, after, rfl, rfl⟩
    obtain ⟨places, hmaximal⟩ := (mem_ways_iff hways).mp hway
    have hleads := hmaximal.leads .entry
    exact ⟨before, hleads, Nat.lt_succ_of_lt (hleads.length_lt hways hnodup hinside), rfl⟩

/-- The paths to a vertex, or to what evaluates it, are the forward paths through it up to there, each found once. -/
theorem reverse_eq_prefixes (h : Build.IsGraphOf config sources graph) {target method anchor : VertexId}
    (hmethod : graph.enclosingMethod? target = some method) (hbody : graph.body? method = some entry)
    (hanchor : anchor? graph target entry = some anchor) :
    ∃ found paths, reverse graph target = .ok found ∧ forward graph method = .ok paths ∧ found.Nodup ∧
      (∀ path, path ∈ found ↔ ∃ whole ∈ paths, ∃ before exit after, whole.vertices = before ++ ⟨anchor, exit⟩ :: after ∧
        path = { method, vertices := before ++ [⟨anchor, none⟩] }) ∧
      (found = [] ↔ ∀ whole ∈ paths, whole.contains anchor = false) := by
  have built := h.isBuilt
  have placed := h.wellPlaced
  have mirrored : Build.Mirrored graph := by
    obtain ⟨units, stats, -, hbuild⟩ := h
    exact Build.mirrored_of_build hbuild
  have hlabel : graph.is method .method = true :=
    List.find?_some (p := fun v => graph.is v .method) hmethod
  obtain ⟨paths, hpaths, -⟩ := built.exists_forward hlabel
  have hforward := hpaths
  rw [forward, if_pos hlabel, hbody] at hforward
  obtain ⟨ways, hways, hmap⟩ := bind_eq_ok.mp hforward
  cases hmap
  have hroute : ∀ way ∈ ways, Route graph entry (way.map PathVertex.id) := by
    intro way hway
    obtain ⟨body, hentry, hroute⟩ := built.route placed hpaths (mem_map_of_mem hway)
    rw [hbody] at hentry
    cases hentry
    exact hroute
  have hnodup : ∀ way ∈ ways, (way.map PathVertex.id).Nodup := fun way hway => (hroute way hway).nodup
  have hinside : ∀ way ∈ ways, ∀ w ∈ way.map PathVertex.id, w < graph.vertexCount :=
    fun way hway w hw => ((hroute way hway).below w hw).1
  have hforks : ∀ passed v, Leads graph entry passed v → (graph.flowSuccessors v).Nodup := by
    obtain ⟨vertices, hin, hclosed⟩ := built.forks placed.forest hlabel hbody
    intro passed v hleads
    have hv : v ∈ vertices := by
      induction hleads with
      | entry => exact hin
      | edge _ hedge ih => exact (hclosed _ ih).2 _ hedge
    exact List.Nodup.of_map _ (hclosed v hv).1
  have hmem : ∀ vertices, vertices ∈ backwardFrom graph entry (graph.vertexCount + 1) anchor [⟨anchor, none⟩] ↔
      ∃ way ∈ ways, ∃ before exit after, way = before ++ ⟨anchor, exit⟩ :: after ∧
      vertices = before ++ [⟨anchor, none⟩] :=
    fun _ => mem_backwardFrom_iff_exists mirrored hways hnodup hinside
  have hfound :=
    nodup_backwardFrom mirrored (fun _ => Leads.eq_nil hways hnodup) hforks (graph.vertexCount + 1) anchor
    [⟨anchor, none⟩]
  have hreverse : reverse graph target =
    .ok ((backwardFrom graph entry (graph.vertexCount + 1) anchor [⟨anchor, none⟩]).map fun vertices =>
    { method, vertices }) := by
    simp only [reverse, hmethod, hbody, hanchor]
  generalize backwardFrom graph entry (graph.vertexCount + 1) anchor [⟨anchor, none⟩] = backward at hmem hfound hreverse
  refine ⟨_, _, hreverse, hpaths, hfound.map fun _ _ heq => congrArg CodePath.vertices heq, fun path => ?_, ?_⟩
  · rw [mem_map]
    constructor
    · rintro ⟨vertices, hvertices, rfl⟩
      obtain ⟨way, hway, before, exit, after, hsplit, rfl⟩ := (hmem vertices).mp hvertices
      exact ⟨_, mem_map_of_mem hway, before, exit, after, hsplit, rfl⟩
    · rintro ⟨_, hwhole, before, exit, after, hsplit, rfl⟩
      obtain ⟨way, hway, rfl⟩ := mem_map.mp hwhole
      exact ⟨_, (hmem _).mpr ⟨way, hway, before, exit, after, hsplit, rfl⟩, rfl⟩
  · rw [map_eq_nil_iff, forall_mem_map]
    constructor
    · rintro rfl way hway
      refine Bool.eq_false_iff.mpr fun hcontains => ?_
      obtain ⟨⟨id, exit⟩, hpassed, hid⟩ := any_eq_true.mp hcontains
      obtain rfl := beq_iff_eq.mp hid
      obtain ⟨before, after, hsplit⟩ := append_of_mem hpassed
      exact absurd ((hmem _).mpr ⟨way, hway, before, exit, after, hsplit, rfl⟩) not_mem_nil
    · intro hnone
      refine eq_nil_iff_forall_not_mem.mpr fun vertices hvertices => ?_
      obtain ⟨way, hway, before, exit, after, rfl, -⟩ := (hmem vertices).mp hvertices
      have hcontains := hnone _ hway
      simp [CodePath.contains] at hcontains

/-- Two paths come together before an assignment; two more assignments stand where control cannot come. -/
def rejoining : String :=
  "class A { void m(Boolean b) { if (b) { } b = true; try { return; } catch (E e) { return; } b = true; b = false; } }"

/-- Searches for parts of the first assignment and of the last one go to these vertices, and find so many paths. -/
def findsTwoAndNone (graph : CodeGraph) (method : VertexId) : Bool :=
  graph.body? method == some 3 && [(13, 11, 2), (29, 27, 0)].all fun (target, anchor, number) =>
    graph.enclosingMethod? target == some method && anchor? graph target 3 == some anchor &&
    graph.hasFlowEdges anchor && (reverse graph target).toOption.map List.length == some number

theorem findsTwoAndNone_rejoining :
    (Build.treeOfChars rejoining.toList).toOption.any (anyMethod findsTwoAndNone) = true :=
  Build.any_of_toList_eq String.toList_ofList (by decide +kernel)

/-- Two ways lead to the assignment behind the branches, and none to those behind the `try`, which returns on
every way. -/
theorem rejoining_reverse : ∃ graph method found paths, Build.IsGraphOf bareSettings [("A", rejoining)] graph ∧
    reverse graph 13 = .ok found ∧ reverse graph 29 = .ok [] ∧ forward graph method = .ok paths ∧
    found.length = 2 ∧ found.Nodup ∧
    (∀ path ∈ found, ∃ whole ∈ paths, ∃ before exit after, whole.vertices = before ++ ⟨11, exit⟩ :: after ∧
      path = { method, vertices := before ++ [⟨11, none⟩] }) ∧
    graph.hasFlowEdges 27 = true ∧ ∀ whole ∈ paths, whole.contains 27 = false := by
  obtain ⟨graph, method, hgraph, -, htest⟩ := exists_graph findsTwoAndNone_rejoining
  simp only [findsTwoAndNone, all_cons, all_nil, Bool.and_true, Bool.and_eq_true, beq_iff_eq] at htest
  obtain ⟨hbody, ⟨⟨⟨hmethod, hanchor⟩, -⟩, hnumber⟩, ⟨⟨hmethod', hanchor'⟩, hedges⟩, hnone⟩ := htest
  obtain ⟨found, paths, hreverse, hforward, hnodup, hmem, -⟩ := reverse_eq_prefixes hgraph hmethod hbody hanchor
  obtain ⟨found', paths', hreverse', hforward', -, -, hempty⟩ := reverse_eq_prefixes hgraph hmethod' hbody hanchor'
  cases hforward.symm.trans hforward'
  rw [hreverse] at hnumber
  rw [hreverse'] at hnone
  obtain rfl : found' = [] := eq_nil_of_length_eq_zero (Option.some.inj hnone)
  exact ⟨graph, method, found, paths, hgraph, hreverse, hreverse', hforward, Option.some.inj hnumber, hnodup,
    fun path hpath => (hmem path).mp hpath, hedges, hempty.mp rfl⟩

end Path

end ApexPaths
