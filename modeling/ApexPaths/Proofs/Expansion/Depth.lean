import ApexPaths.Proofs.Expansion.Nesting
import ApexPaths.Proofs.Expansion.Sequence

/-!
What the depth limit drops. Without a limit, one can record along every strand how deep the deepest site
is nested that it reaches. A limit drops exactly the strands that reach a site beyond it. A site is
reached before it is known whether its callee has a body, so a strand can be dropped for a callee that
attaches no path and adds nothing to the depth of the result. Where all callees have bodies, the deepest
site is nested as deeply as the result.
-/

namespace ApexPaths
set_option autoImplicit false

open List

theorem Limit.allows_max (limit : Limit) (first second : Nat) :
    limit.allows (max first second) = (limit.allows first && limit.allows second) := by
  obtain ⟨_ | most⟩ := limit
  · rfl
  · simp only [Limit.allows, Nat.max_le, Bool.decide_and]

variable {method : VertexId} {sources : List (String × String)} {graph : CodeGraph}

namespace Expander

variable (expander : Expander)

/-- The expander with another limit on nesting. -/
def under (limit : Limit) : Expander := { expander with depthLimit := limit }

/-- The expansions of a strand without a depth limit, each with the nesting of the deepest site that it reaches. A
site with nothing to do is not reached; a site whose callee has no body is. -/
def reaching (active : List VertexId) (item : Strand × Nat) : List (Strand × Nat) :=
  follow (fun item step => match step with
    | .settle vertex => (expander.settle? item.1 vertex).toList.map (·, item.2)
    | .site anchor site =>
      if skips active item.1 site then [item]
      else if expander.forwardPaths site.callee = [] then [(item.1.entering site, max item.2 active.length)]
      else
        let results := (expander.forwardPaths site.callee).flatMap fun path =>
          reaching (site.callee :: active) (⟨path, (item.1.entering site).initialized⟩, max item.2 active.length)
        results.map fun sub => (item.1.splice anchor site sub.1, sub.2))
    (expander.steps item.1.path.method true item.1.path.vertices) item
termination_by expander.idleCount active
decreasing_by exact idleCount_lt ‹_› ‹_›

/-- The results of one step with the nesting of their sites. -/
def reach (active : List VertexId) (item : Strand × Nat) : Step → List (Strand × Nat)
  | .settle vertex => (expander.settle? item.1 vertex).toList.map (·, item.2)
  | .site anchor site =>
    if skips active item.1 site then [item]
    else if expander.forwardPaths site.callee = [] then [(item.1.entering site, max item.2 active.length)]
    else
      let results := (expander.forwardPaths site.callee).flatMap fun path =>
        expander.reaching (site.callee :: active) (⟨path, (item.1.entering site).initialized⟩, max item.2 active.length)
      results.map fun sub => (item.1.splice anchor site sub.1, sub.2)

theorem reaching_eq (active : List VertexId) (item : Strand × Nat) : expander.reaching active item =
    follow (expander.reach active) (expander.steps item.1.path.method true item.1.path.vertices) item := by
  rw [reaching]
  rfl

/-! ## Within a limit -/

/-- The paths whose nesting a limit allows. -/
def within (limit : Limit) (items : List (Strand × Nat)) : List Strand :=
  (items.filter fun item => limit.allows item.2).map (·.1)

variable {expander} {limit : Limit}

theorem within_flatMap {α : Type} (items : List α) (f : α → List (Strand × Nat)) :
    within limit (items.flatMap f) = items.flatMap fun item => within limit (f item) := by
  simp only [within, filter_flatMap, map_flatMap]

/-- A bound on the nesting commutes with the steps of a strand. -/
theorem within_follow {take : Strand → Step → List Strand} {reach : Strand × Nat → Step → List (Strand × Nat)}
    (h : ∀ strand nesting step, within limit (reach (strand, nesting) step) =
    if limit.allows nesting then take strand step else [])
    (steps : List Step) (strand : Strand) (nesting : Nat) :
    within limit (follow reach steps (strand, nesting)) = if limit.allows nesting then follow take steps strand
    else [] := by
  induction steps generalizing strand nesting with
  | nil =>
    cases hallows : limit.allows nesting <;> simp [follow, within, hallows]
  | cons step rest ih =>
    have hitems : ∀ items : List (Strand × Nat), (items.flatMap fun item => within limit (follow reach rest item)) =
        (within limit items).flatMap (follow take rest) := by
      intro items
      induction items with
      | nil => rfl
      | cons item others ihItems =>
        rw [flatMap_cons, ihItems, ih item.1 item.2]
        cases hallows : limit.allows item.2 <;> simp [within, hallows]
    rw [follow, within_flatMap, hitems, h, follow]
    cases limit.allows nesting <;> rfl

theorem within_map (items : List (Strand × Nat)) (f : Strand → Strand) :
    within limit (items.map fun item => (f item.1, item.2)) = (within limit items).map f := by
  simp [within, filter_map, Function.comp_def]

theorem collapse_eq (h : expander.options.collapsers = []) (results : List Strand) :
    expander.collapse results = results := by
  rw [collapse, h]
  rfl

theorem steps_under (limit : Limit) (method : VertexId) (isFirst : Bool) (vertices : List PathVertex) :
    (expander.under limit).steps method isFirst vertices = expander.steps method isFirst vertices := by
  induction vertices generalizing isFirst with
  | nil => rfl
  | cons vertex rest ih =>
    rw [steps, steps, ih]
    rfl

section
variable (hcollapsers : expander.options.collapsers = [])
include hcollapsers

/-- Filtering by nesting gives what the expansion under the limit gives. -/
theorem within_reaching (limit : Limit) (active : List VertexId) (strand : Strand)
    (nesting : Nat) : within limit (expander.reaching active (strand, nesting)) =
      if limit.allows nesting then (expander.under limit).expansions active strand else [] := by
  induction hidle : expander.idleCount active using Nat.strongRecOn generalizing active strand nesting with
  | _ n nested =>
  rw [reaching_eq, expansions_eq, steps_under]
  refine within_follow (fun strand nesting step => ?_) _ strand nesting
  cases step with
  | settle vertex =>
    show within limit ((expander.settle? strand vertex).toList.map (·, nesting)) = _
    cases hallows : limit.allows nesting <;> simp [within, hallows, filter_map, Function.comp_def, take, takeWith]
    rfl
  | site anchor site =>
    rw [take_site, reach]
    by_cases hskips : skips active strand site = true
    · simp only [if_pos hskips]
      cases hallows : limit.allows nesting <;> simp [within, hallows]
    simp only [if_neg hskips]
    have hdeep : limit.allows (max nesting active.length) = (limit.allows nesting && limit.allows active.length) :=
      limit.allows_max nesting active.length
    have hpaths : (expander.under limit).forwardPaths site.callee = expander.forwardPaths site.callee := rfl
    have hlimit : (expander.under limit).depthLimit = limit := rfl
    rw [hpaths, hlimit]
    by_cases hnone : expander.forwardPaths site.callee = []
    · simp only [if_pos hnone]
      cases hallows : limit.allows nesting <;> cases hroom : limit.allows active.length <;>
        simp [within, hdeep, hallows, hroom]
    · simp only [if_neg hnone]
      rw [within_map, within_flatMap]
      have hnested : ∀ path, within limit (expander.reaching (site.callee :: active)
          (⟨path, (strand.entering site).initialized⟩, max nesting active.length)) =
          if limit.allows (max nesting active.length) then
            (expander.under limit).expansions (site.callee :: active) ⟨path, (strand.entering site).initialized⟩
          else [] := fun path => nested _ (hidle ▸ idleCount_lt hskips hnone) _ _ _ rfl
      simp only [hnested, hdeep]
      cases hallows : limit.allows nesting
      · simp
      cases hroom : limit.allows active.length
      · simp
      simp only [Bool.and_true, if_true, Bool.not_true, Bool.false_eq_true, if_false]
      rw [collapse_eq (show (expander.under limit).options.collapsers = [] from hcollapsers)]
      rfl

theorem expansions_unlimited (active : List VertexId) (strand : Strand) :
    (expander.under .unlimited).expansions active strand = (expander.reaching active (strand, 0)).map (·.1) := by
  have hwithin := within_reaching hcollapsers .unlimited active strand 0
  rw [if_pos (show Limit.unlimited.allows 0 = true from rfl)] at hwithin
  rw [← hwithin, within, filter_eq_self.mpr]
  exact fun _ _ => rfl

theorem expansions_limited (most : Nat) (active : List VertexId) (strand : Strand) :
    (expander.under ⟨some most⟩).expansions active strand =
      ((expander.reaching active (strand, 0)).filter (·.2 ≤ most)).map (·.1) := by
  have hwithin := within_reaching hcollapsers ⟨some most⟩ active strand 0
  rw [if_pos (by simp [Limit.allows])] at hwithin
  exact hwithin.symm

theorem depth_le_of_mem_reaching {vertices : List PathVertex}
    {item : Strand × Nat} (hitem : item ∈ expander.reaching [method] (⟨{ method, vertices }, []⟩, 0)) :
    item.1.path.depth ≤ item.2 := by
  have hmem : item.1 ∈ (expander.under ⟨some item.2⟩).expansions [method] ⟨{ method, vertices }, []⟩ := by
    rw [expansions_limited hcollapsers]
    exact mem_map_of_mem (mem_filter.mpr ⟨hitem, by simp⟩)
  obtain ⟨-, nests⟩ := invariant_nests.expansions ⟨rfl, nests_of_not_attached rfl⟩ item.1 hmem
  simpa using nests.depth_le_limit rfl (by simp)

end

/-!
## Callees with bodies

A site whose callee has a body attaches a path, and no later site along the same path takes its place. So the depth of
the result shows every site that was reached.
-/

/-- The methods that an expansion can come to from one: the callees along the forward paths of those it can come to. -/
inductive ComesTo (expander : Expander) (start : VertexId) : VertexId → Prop where
  | start : ComesTo expander start start
  | callee {method : VertexId} {path : CodePath} {initialized : List String} {anchor : VertexId} {site : Site}
    (h : ComesTo expander start method) (mem : path ∈ expander.forwardPaths method)
    (step : .site anchor site ∈ expander.stepsOf ⟨path, initialized⟩) : ComesTo expander start site.callee

/-- Along no forward path two calls are at the same expression. -/
def CallsApart (expander : Expander) : Prop :=
  ∀ method, ∀ path ∈ expander.forwardPaths method, ∀ active initialized,
    (((expander.stepsOf ⟨path, initialized⟩).filterMap (expander.callOf active)).map Prod.snd).Nodup

/-- What a strand has come to after some steps; sites that it reached in them are no deeper than its path. -/
structure Shows (expander : Expander) (active : List VertexId) (first : Strand × Nat) (done : List Step)
    (item : Strand × Nat) : Prop where
  attaches : expander.Attaches active first.1 done item.1
  nesting : item.2 ≤ first.2 ∨ item.2 < item.1.path.depth + active.length

/-- A call has no path attached before its own step. -/
theorem Attaches.fresh {active : List VertexId} {first strand : Strand} {done : List Step}
    {anchor expr callee : VertexId} (h : expander.Attaches active first done strand)
    (hcall : expander.callOf active (.site anchor (.call expr callee)) = some (anchor, expr))
    (hfront : (done ++ [.site anchor (.call expr callee)]) <+: expander.stepsOf first)
    (hnodup : (((expander.stepsOf first).filterMap (expander.callOf active)).map Prod.snd).Nodup) :
    expr ∉ strand.path.invocations.map Prod.fst := by
  have hcalls := ((hfront.sublist.filterMap (expander.callOf active)).map Prod.snd).nodup hnodup
  rw [filterMap_append_one, hcall, Option.toList_some, map_append, ← h.calls] at hcalls
  rw [h.keys]
  exact fun hmem => (nodup_append.mp hcalls).2.2 expr hmem expr mem_cons_self rfl

theorem attached_splice_perm {strand sub : Strand} {anchor : VertexId} {site : Site}
    (hfresh : ∀ expr callee, site = .call expr callee → expr ∉ strand.path.invocations.map Prod.fst) :
    (strand.splice anchor site sub).path.attached.Perm (sub.path :: strand.path.attached) := by
  cases site with
  | call expr callee => exact CodePath.attached_withInvocation_perm (hfresh expr callee rfl)
  | staticInit expression class_ invoker => exact CodePath.attached_withStaticInit_perm

/-- An expansion in which every callee has a body nests as deep as it shows. -/
theorem shows_reaching (apart : expander.CallsApart) {start : VertexId}
    (hbodies : ∀ callee, expander.ComesTo start callee → expander.forwardPaths callee ≠ []) {active : List VertexId}
    {path : CodePath} {initialized : List String} {nesting : Nat}
    (hcomes : expander.ComesTo start method) (hpath : path ∈ expander.forwardPaths method) :
    ∀ item ∈ expander.reaching active (⟨path, initialized⟩, nesting),
      expander.Shows active (⟨path, initialized⟩, nesting) (expander.stepsOf ⟨path, initialized⟩) item := by
  induction hidle : expander.idleCount active using Nat.strongRecOn generalizing active method path initialized
    nesting with
  | _ n nested =>
  have hstart : expander.Attaches active ⟨path, initialized⟩ [] ⟨path, initialized⟩ := by
    obtain ⟨vertices, rfl⟩ := eq_of_mem_forwardPaths hpath
    exact attaches_nil ..
  rw [reaching_eq, ← nil_append (expander.stepsOf _)]
  refine follow_through (P := expander.Shows active (⟨path, initialized⟩, nesting))
    (fun done step todo hsteps item hitem result hresult => ?_) ⟨hstart, .inl le_rfl⟩
  rw [nil_append] at hitem ⊢
  have hfront : (done ++ [step]) <+: expander.stepsOf ⟨path, initialized⟩ :=
    ⟨todo, by rw [stepsOf, hsteps, List.append_assoc]; rfl⟩
  cases step with
  | settle vertex =>
    obtain ⟨strand, hstrand, rfl⟩ := mem_map.mp hresult
    rw [eq_of_settle? (Option.mem_toList.mp hstrand)]
    have hsame : item.1.path.depth ≤ (expander.settled item.1 vertex).path.depth :=
      CodePath.depth_mono (List.Subset.refl _)
    exact ⟨course_attaches.metadata _ _ _ _ _ (course_attaches.settle _ _ _ _ vertex hfront hitem.attaches),
      hitem.nesting.imp_right fun h => Nat.lt_of_lt_of_le h (Nat.add_le_add_right hsame _)⟩
  | site anchor site =>
    rw [reach] at hresult
    by_cases hskips : skips active item.1 site = true
    · rw [if_pos hskips] at hresult
      rw [mem_singleton.mp hresult]
      exact ⟨course_attaches.skip _ _ _ _ anchor site hfront hskips hitem.attaches, hitem.nesting⟩
    have hcallee := hcomes.callee hpath (hfront.subset (mem_append_right _ mem_cons_self))
    have hnone := hbodies _ hcallee
    rw [if_neg hskips, if_neg hnone] at hresult
    obtain ⟨sub, hsub, rfl⟩ := mem_map.mp hresult
    obtain ⟨inner, hinner, hsub⟩ := mem_flatMap.mp hsub
    have hshows := nested _ (hidle ▸ idleCount_lt hskips hnone) hcallee hinner rfl sub hsub
    have hidle := Bool.not_eq_true _ ▸ hskips
    have hattached : (item.1.splice anchor site sub.1).path.attached.Perm (sub.1.path :: item.1.path.attached) := by
      refine attached_splice_perm fun expr callee hsite => ?_
      subst hsite
      exact hitem.attaches.fresh (callOf_call anchor hidle hnone) hfront (apart method path hpath active initialized)
    have hdeeper : sub.1.path.depth < (item.1.splice anchor site sub.1).path.depth :=
      CodePath.depth_lt_of_mem_attached (hattached.mem_iff.mpr mem_cons_self)
    have hkept : item.1.path.depth ≤ (item.1.splice anchor site sub.1).path.depth :=
      CodePath.depth_mono fun other hother => hattached.mem_iff.mpr (mem_cons_of_mem _ hother)
    refine ⟨course_attaches.splice _ _ _ _ anchor site inner _ hfront hidle hinner hitem.attaches hshows.attaches, ?_⟩
    have hold := hitem.nesting
    have hnew := hshows.nesting
    simp only [length_cons] at hold hnew ⊢
    omega

theorem callsApart_ofGraph {config : Settings}
    (h : Build.IsGraphOf config sources graph) (settings : Settings) (options : ExpansionOptions) :
    (ofGraph graph settings options).CallsApart := by
  intro method path hpath active initialized
  have hforward := forward_of_mem_forwardPaths hpath
  obtain ⟨hids, hpasses⟩ := Path.IsEnumerated.passes (.inl ⟨method, _, hforward, hpath⟩) h
  exact nodup_callOf_stepsOf h.wellPlaced h.hasOperands hids hpasses

theorem ComesTo.is_method {settings : Settings} {options : ExpansionOptions} {start callee : VertexId}
    (h : (ofGraph graph settings options).ComesTo start callee) (hstart : graph.is start .method = true) :
    graph.is callee .method = true := by
  cases h with
  | start => exact hstart
  | callee _ _ step =>
    obtain ⟨-, _, hsite⟩ := mem_steps step
    exact is_of_mem_sitesOf graph settings options _ hsite

/-- Where every method that the expansion can come to has a body, the deepest site that a strand reaches is nested as
deeply as the path that comes out. -/
theorem depth_eq_of_mem_reaching {config : Settings}
    (h : Build.IsGraphOf config sources graph) (settings : Settings) {options : ExpansionOptions}
    (hcollapsers : options.collapsers = []) {forward : List CodePath}
    (hforward : Path.forward graph method = .ok forward) {path : CodePath}
    (hpath : path ∈ forward)
    (hbodies : ∀ callee, (ofGraph graph settings options).ComesTo method callee → graph.body? callee ≠ none) :
    ∀ item ∈ (ofGraph graph settings options).reaching [method] ({ path }, 0), item.1.path.depth = item.2 := by
  intro item hitem
  obtain ⟨hmethod, hpaths⟩ := eq_of_forward hforward
  have hmem : path ∈ (ofGraph graph settings options).forwardPaths method := by
    rw [forwardPaths, show (ofGraph graph settings options).graph = graph from rfl, hforward]
    exact hpath
  obtain ⟨vertices, rfl⟩ := hpaths path hpath
  have hshows := shows_reaching (callsApart_ofGraph h settings options)
    (fun callee hcomes => (forwardPaths_eq_nil_iff h.isBuilt settings options (hcomes.is_method hmethod)).not.mpr
    (hbodies callee hcomes))
    .start hmem item hitem
  have hle := depth_le_of_mem_reaching hcollapsers hitem
  have hnesting := hshows.nesting
  simp only [length_singleton] at hnesting
  omega

/-! ## Runs under a limit -/

/-- Without a limit a path is expanded to strands that reach some sites; a limit keeps those that reach no site
beyond it, in their order. Each of them is nested at most as deeply as the sites it reaches. -/
theorem expandPath_within {config : Settings} {sources : List (String × String)} {graph : CodeGraph}
    (h : Build.IsGraphOf config sources graph) (settings : Settings) {options : ExpansionOptions}
    (hcollapsers : options.collapsers = [])
    {method : VertexId} {forward : List CodePath} (hforward : Path.forward graph method = .ok forward) {path : CodePath}
    (hpath : path ∈ forward) (most : Nat) {state : ExpansionState} (valid : state.Valid graph) :
    let free := ofGraph graph { settings with stackDepthLimit := -1 } options
    let bounded := ofGraph graph { settings with stackDepthLimit := most } options
    let reached := free.reaching [method] ({ path }, 0)
    ((free.expandPath path).run state).1 = state.registry.outcome (free.forks [method] { path })
    (reached.map (·.1.path)) ∧
    ((bounded.expandPath path).run state).1 =
      state.registry.outcome (bounded.forks [method] { path }) ((reached.filter (·.2 ≤ most)).map (·.1.path)) ∧
    ∀ item ∈ reached, item.1.path.depth ≤ item.2 := by
  intro free bounded reached
  obtain ⟨vertices, rfl⟩ := (eq_of_forward hforward).2 path hpath
  have hnone : free.options.collapsers = [] := hcollapsers
  have hfree :=
    (asks_expandPath (sound_ofGraph h.isBuilt { settings with stackDepthLimit := -1 } options)
    { method, vertices }).result_eq valid
  have hbounded :=
    (asks_expandPath (sound_ofGraph h.isBuilt { settings with stackDepthLimit := most } options)
    { method, vertices }).result_eq valid
  have hall : free.expansions [method] ⟨{ method, vertices }, []⟩ = reached.map (·.1) :=
    expansions_unlimited hnone [method] _
  have hsome : bounded.expansions [method] ⟨{ method, vertices }, []⟩ = (reached.filter (·.2 ≤ most)).map (·.1) :=
    expansions_limited hnone most [method] _
  refine ⟨?_, ?_, fun item hitem => ?_⟩
  · rw [hfree, hall, map_map]
    rfl
  · rw [hbounded, hsome, map_map]
    rfl
  · exact depth_le_of_mem_reaching hnone hitem

/-- The four expansions of two calls, and what a limit of two nested calls keeps of them. -/
theorem callingTwice_within : ∃ graph method path reached, Build.IsGraphOf bareSettings [("A", callingTwice)] graph ∧
    Path.forward graph method = .ok [path] ∧ reached = (ofGraph graph bareSettings {}).reaching [method] ({ path }, 0) ∧
    reached.length = 4 ∧ (∀ item ∈ reached, item.1.path.depth ≤ item.2) ∧
    (((ofGraph graph { bareSettings with stackDepthLimit := 2 } {}).expandPath path).run
    { registry := { limit := .unlimited } }).1 = Registry.outcome { limit :=
    .unlimited } ((ofGraph graph { bareSettings with stackDepthLimit := 2 } {}).forks [method] { path })
    ((reached.filter (·.2 ≤ 2)).map (·.1.path)) := by
  obtain ⟨graph, path, hgraph, hforward, hcount, hforks, -⟩ := exists_fourfold
  obtain ⟨-, hbounded, hdepth⟩ :=
    expandPath_within hgraph bareSettings (show ({} : ExpansionOptions).collapsers = [] from rfl) hforward
    mem_cons_self 2 (valid_start graph .unlimited)
  refine ⟨graph, path.method, path, _, hgraph, hforward, rfl, ?_, hdepth, hbounded⟩
  rw [show ofGraph graph bareSettings {} = (ofGraph graph bareSettings {}).under .unlimited from rfl,
    expansions_unlimited rfl, length_map] at hcount
  exact hcount

/-- A method calls a method that calls one without a body. -/
def callingAbstract : String := "abstract class A { abstract void b(); void n() { b(); } void m() { n(); } }"

/-- The path of a method has an expansion with one path attached, but none under a limit of one nested call. -/
def dropsShallow (graph : CodeGraph) (method : VertexId) : Bool :=
  let free := ofGraph graph bareSettings {}
  let bounded := ofGraph graph { bareSettings with stackDepthLimit := 1 } {}
  let bound := (graph.withLabel .method).length + 1
  match free.forwardPaths method with
  | [path] =>
    match free.expansionsWithin bound [method] { path } with
    | [strand] =>
      (strand.path.attached.all fun sub => sub.attached.isEmpty) && free.forksWithin bound [method] { path } == 0 &&
        (bounded.expansionsWithin bound [method] { path }).isEmpty && bounded.forksWithin bound [method] { path } == 0
    | _ => false
  | _ => false

theorem dropsShallow_callingAbstract :
    (Build.treeOfChars callingAbstract.toList).toOption.any (anyMethod dropsShallow) = true :=
  Build.any_of_toList_eq String.toList_ofList (by decide +kernel)

/-- A path of depth one is dropped under a limit of one nested call, for a call that attaches nothing. -/
theorem callingAbstract_dropped : ∃ graph path expanded, Build.IsGraphOf bareSettings [("A", callingAbstract)] graph ∧
    Path.forward graph path.method = .ok [path] ∧
    (((ofGraph graph bareSettings {}).expandPath path).run { registry := { limit := .unlimited } }).1 = .ok [expanded] ∧
    expanded.depth ≤ 1 ∧
    (((ofGraph graph { bareSettings with stackDepthLimit := 1 } {}).expandPath path).run
    { registry := { limit := .unlimited } }).1 = .ok [] := by
  obtain ⟨graph, method, hgraph, -, htest⟩ := exists_graph dropsShallow_callingAbstract
  rw [dropsShallow] at htest
  split at htest
  case h_2 => cases htest
  case h_1 path hpaths =>
  have hmem : path ∈ (ofGraph graph bareSettings {}).forwardPaths method := by simp [hpaths]
  obtain ⟨vertices, rfl⟩ := eq_of_mem_forwardPaths hmem
  have hidle : ∀ settings : Settings, (ofGraph graph settings {}).idleCount [method] <
      (graph.withLabel .method).length + 1 :=
    fun settings => Nat.lt_succ_of_le (List.length_filter_le ..)
  simp only [expansionsWithin_eq _ (hidle _), forksWithin_eq _ (hidle _)] at htest
  split at htest
  case h_2 => cases htest
  case h_1 strand hstrand =>
  simp only [Bool.and_eq_true, List.all_eq_true, List.isEmpty_iff, beq_iff_eq] at htest
  obtain ⟨⟨⟨hshallow, hforks⟩, hnone⟩, hforks'⟩ := htest
  have hfree :=
    (asks_expandPath (sound_ofGraph hgraph.isBuilt bareSettings {}) { method, vertices }).result_eq
    (valid_start graph .unlimited)
  have hbounded := (asks_expandPath (sound_ofGraph hgraph.isBuilt { bareSettings with stackDepthLimit := 1 } {})
    { method, vertices }).result_eq (valid_start graph .unlimited)
  rw [hforks, hstrand, Registry.outcome, if_pos (by decide)] at hfree
  rw [hforks', hnone, Registry.outcome, if_pos (by decide)] at hbounded
  refine ⟨graph, { method, vertices }, strand.path, hgraph,
    (forward_of_mem_forwardPaths hmem).trans (congrArg _ hpaths), hfree, ?_, hbounded⟩
  refine CodePath.depth_le_iff.mpr fun sub hsub => ?_
  have hzero : sub.depth ≤ 0 := CodePath.depth_le_iff.mpr (by simp [hshallow sub hsub])
  omega

end Expander

end ApexPaths
