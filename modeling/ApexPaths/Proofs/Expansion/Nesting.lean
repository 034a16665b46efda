import ApexPaths.Proofs.Expansion.Invariants
import ApexPaths.Proofs.Path.Attached

/-!
No method is expanded inside itself. Every path attached to an expanded path is one of a method that was
not active where it was attached, so nesting is bounded by the number of methods, and by the depth limit.

Static initialization runs once along an expanded path. The classes that a strand has initialized go with
it into every callee and come back with the results, so no initializer is attached for a class that is
among them.
-/

set_option autoImplicit false

namespace ApexPaths.Expander

open List CodePath

/-- Every path attached inside active methods is a path of another method, within the depth limit; so are those
attached to it. -/
inductive Nests (expander : Expander) : List VertexId → CodePath → Prop where
  | intro {active : List VertexId} {path : CodePath}
    (idle : ∀ sub ∈ path.attached, sub.method ∉ active)
    (isMethod : ∀ sub ∈ path.attached, expander.graph.is sub.method .method = true)
    (allowed : ∀ sub ∈ path.attached, expander.depthLimit.allows active.length = true)
    (nested : ∀ sub ∈ path.attached, Nests expander (sub.method :: active) sub) : Nests expander active path

variable {expander : Expander} {active : List VertexId} {path : CodePath}

theorem nests_of_not_attached (h : path.attached = []) : expander.Nests active path := by
  refine .intro ?_ ?_ ?_ ?_ <;> simp [h]

theorem Nests.of_attached {other sub : CodePath} (nests : expander.Nests active path)
    (h : ∀ item ∈ other.attached, item = sub ∨ item ∈ path.attached) (hidle : sub.method ∉ active)
    (hmethod : expander.graph.is sub.method .method = true) (hallowed : expander.depthLimit.allows active.length = true)
    (hsub : expander.Nests (sub.method :: active) sub) : expander.Nests active other := by
  obtain ⟨idle, isMethod, allowed, nested⟩ := nests
  refine .intro (fun item hitem => ?_) (fun item hitem => ?_) (fun item hitem => ?_) (fun item hitem => ?_)
  all_goals rcases h item hitem with rfl | hold
  · exact hidle
  · exact idle item hold
  · exact hmethod
  · exact isMethod item hold
  · exact hallowed
  · exact hallowed
  · exact hsub
  · exact nested item hold

/-- Nesting is kept by everything that happens to a strand. -/
theorem invariant_nests : expander.Invariant fun active first strand =>
    strand.path.method = first.path.method ∧ expander.Nests active strand.path where
  start active method path initialized hpath := by
    obtain ⟨vertices, rfl⟩ := eq_of_mem_forwardPaths hpath
    exact ⟨rfl, nests_of_not_attached rfl⟩
  metadata active first strand metadata h := by
    obtain ⟨idle, isMethod, allowed, nested⟩ := h.2
    exact ⟨h.1, .intro idle isMethod allowed nested⟩
  entering active first strand site _ h := by cases site <;> exact h
  splice active first strand anchor site path sub hskips hallowed hpath h hsub := by
    obtain ⟨vertices, rfl⟩ := eq_of_mem_forwardPaths hpath
    have hcallee : sub.path.method = site.callee := hsub.1
    have hidle : sub.path.method ∉ active := by
      rw [hcallee]
      simpa using (Bool.or_eq_false_iff.mp hskips).1
    have hmethod : expander.graph.is sub.path.method .method = true := by
      rw [hcallee]
      exact is_of_mem_forwardPaths hpath
    have hnests : expander.Nests (sub.path.method :: active) sub.path := by
      rw [hcallee]
      exact hsub.2
    cases site with
    | call expression method =>
      exact ⟨h.1, h.2.of_attached (fun _ => mem_attached_withInvocation) hidle hmethod hallowed hnests⟩
    | staticInit expression class_ invoker =>
      exact ⟨h.1, h.2.of_attached (fun _ => mem_attached_withStaticInit) hidle hmethod hallowed hnests⟩

/-! ## Chains and depth -/

/-- Along a chain of attached paths no method comes twice. -/
theorem Nests.chain (nests : expander.Nests active path) {chain : List CodePath}
    (h : (path :: chain).IsChain fun outer sub => sub ∈ outer.attached) :
    (chain.map method).Nodup ∧ ∀ sub ∈ chain, sub.method ∉ active := by
  induction chain generalizing active path with
  | nil => simp
  | cons sub rest ih =>
    obtain ⟨idle, -, -, nested⟩ := nests
    obtain ⟨hsub, hrest⟩ := isChain_cons_cons.mp h
    obtain ⟨hnodup, houtside⟩ := ih (nested sub hsub) hrest
    refine ⟨nodup_cons.mpr ⟨fun hmem => ?_, hnodup⟩, forall_mem_cons.mpr ⟨idle sub hsub, fun other hother => ?_⟩⟩
    · obtain ⟨other, hother, heq⟩ := mem_map.mp hmem
      exact houtside other hother (heq ▸ mem_cons_self)
    · exact fun hactive => houtside other hother (mem_cons_of_mem _ hactive)

theorem Nests.depth_le (nests : expander.Nests active path) (hnodup : active.Nodup)
    (hmethods : ∀ method ∈ active, expander.graph.is method .method = true) :
    path.depth + active.length ≤ (expander.graph.withLabel .method).length := by
  induction nests with
  | @intro active path idle isMethod allowed nested ih =>
    have hroom : active.length ≤ (expander.graph.withLabel .method).length :=
      hnodup.length_le_of_subset fun method hmethod => CodeGraph.mem_withLabel.mpr (hmethods method hmethod)
    have hdepth : path.depth ≤ (expander.graph.withLabel .method).length - active.length := by
      refine depth_le_iff.mpr fun sub hsub => ?_
      have hbound := ih sub hsub (nodup_cons.mpr ⟨idle sub hsub, hnodup⟩)
        (forall_mem_cons.mpr ⟨isMethod sub hsub, hmethods⟩)
      rw [length_cons] at hbound
      omega
    omega

theorem Nests.depth_le_limit (nests : expander.Nests active path) {limit : Nat}
    (hlimit : expander.depthLimit.max? = some limit) (hactive : active.length ≤ limit + 1) : path.depth +
    active.length ≤ limit + 1 := by
  induction nests with
  | @intro active path idle isMethod allowed nested ih =>
    have hdepth : path.depth ≤ limit + 1 - active.length := by
      refine depth_le_iff.mpr fun sub hsub => ?_
      have hwithin : active.length ≤ limit := by simpa [Limit.allows, hlimit] using allowed sub hsub
      have hbound := ih sub hsub (by simpa using hwithin)
      rw [length_cons] at hbound
      omega
    omega

/-! ## Expansion ends -/

/-- The expansion of a forward path comes to an end, whatever calls what: there is no endless sequence of steps, and
only the limit of forks can make it fail. Along every chain of attached paths in a result the methods differ, so the
result is nested less deeply than there are methods; and it is not nested more deeply than the limit. -/
theorem expandPath_ends {config : Settings} {sources : List (String × String)} {graph : CodeGraph}
    (h : Build.IsGraphOf config sources graph) (settings : Settings) (options : ExpansionOptions) {method : VertexId}
    {forward : List CodePath} (hforward : Path.forward graph method = .ok forward) {path : CodePath}
    (hpath : path ∈ forward)
    {state : ExpansionState} (valid : state.Valid graph) :
    Acc (ofGraph graph settings options).Follows ([Frame.enter path.method [path] []], state) ∧
    ((((ofGraph graph settings options).expandPath path).run state).1 = .error state.registry.limit.failure ∨
      ∃ paths, (((ofGraph graph settings options).expandPath path).run state).1 = .ok paths ∧ ∀ expanded ∈ paths,
        (∀ chain, (expanded :: chain).IsChain (fun outer sub => sub ∈ outer.attached) →
          ((expanded :: chain).map CodePath.method).Nodup) ∧
        expanded.depth < (graph.withLabel .method).length ∧
        ∀ limit, settings.depthLimit.max? = some limit → expanded.depth ≤ limit) := by
  have sound := sound_ofGraph h.isBuilt settings options
  obtain ⟨hmethod, hpaths⟩ := eq_of_forward hforward
  obtain ⟨vertices, rfl⟩ := hpaths path hpath
  obtain ⟨length, hrun⟩ := exists_runs sound { method, vertices }
  refine ⟨hrun.acc valid, ?_⟩
  rw [(asks_expandPath sound { method, vertices }).result_eq valid, Registry.outcome]
  split
  case isFalse hfull => exact .inl rfl
  case isTrue hfits =>
    refine .inr ⟨_, rfl, forall_mem_map.mpr fun strand hstrand => ?_⟩
    obtain ⟨hown, nests⟩ := invariant_nests.expansions ⟨rfl, nests_of_not_attached rfl⟩ strand hstrand
    refine ⟨fun chain hchain => ?_, ?_, fun limit hlimit => ?_⟩
    · obtain ⟨hnodup, houtside⟩ := nests.chain hchain
      refine nodup_cons.mpr ⟨fun hmem => ?_, hnodup⟩
      obtain ⟨sub, hsub, heq⟩ := mem_map.mp hmem
      exact houtside sub hsub (by rw [heq, hown]; exact mem_singleton.mpr rfl)
    · exact nests.depth_le (by simp) fun other hother => mem_singleton.mp hother ▸ hmethod
    · have hbound := nests.depth_le_limit hlimit (by simp)
      simpa using hbound

/-- The expansions of the two calls end; each is a path with paths attached to it. -/
theorem callingTwice_ends : ∃ graph path paths, Build.IsGraphOf bareSettings [("A", callingTwice)] graph ∧
    Path.forward graph path.method = .ok [path] ∧
    Acc (ofGraph graph bareSettings {}).Follows ([Frame.enter path.method [path] []],
    { registry := { limit := .unlimited } }) ∧
    (((ofGraph graph bareSettings {}).expandPath path).run { registry := { limit := .unlimited } }).1 = .ok paths ∧
    paths.length = 4 ∧
    ∀ expanded ∈ paths, expanded.attached ≠ [] ∧ expanded.depth < (graph.withLabel .method).length := by
  obtain ⟨graph, path, paths, hgraph, hforward, hrun, hcount, hinits⟩ := exists_fourfold_run
  obtain ⟨hacc, hends⟩ := expandPath_ends hgraph bareSettings {} hforward mem_cons_self (valid_start graph .unlimited)
  refine ⟨graph, path, paths, hgraph, hforward, hacc, hrun, hcount, fun expanded hexpanded => ⟨fun hnone => ?_, ?_⟩⟩
  · have hone := hinits expanded hexpanded
    rw [attached, append_eq_nil_iff, map_eq_nil_iff, map_eq_nil_iff] at hnone
    simp [hnone.2] at hone
  · rw [hrun] at hends
    rcases hends with herror | ⟨_, hpaths, hends⟩
    · cases herror
    · cases hpaths
      exact (hends expanded hexpanded).2.1

end ApexPaths.Expander

/-!
## Forward paths

A path that comes out of an expansion passes the vertices of a forward path of its method, and so does every path
that is attached to it at any depth.
-/

namespace ApexPaths

open List CodePath

/-- A path and all paths attached to it, at any depth, pass the vertices of forward paths of their methods. -/
inductive CodePath.Forwarded (graph : CodeGraph) : CodePath → Prop where
  | intro {path base : CodePath} {forward : List CodePath} (enumerated : Path.forward graph path.method = .ok forward)
    (mem : base ∈ forward) (ids_eq : path.ids = base.ids) (attached : ∀ sub ∈ path.attached, Forwarded graph sub) :
    Forwarded graph path

namespace Expander

variable {expander : Expander}

theorem invariant_forwarded : expander.Invariant fun _ first strand =>
    strand.path.method = first.path.method ∧ strand.path.ids = first.path.ids ∧
      ∀ sub ∈ strand.path.attached, sub.Forwarded expander.graph where
  start active method path initialized hpath := by
    obtain ⟨vertices, rfl⟩ := eq_of_mem_forwardPaths hpath
    exact ⟨rfl, rfl, by simp [attached]⟩
  metadata active first strand metadata h := h
  entering active first strand site _ h := by cases site <;> exact h
  splice active first strand anchor site path sub _ _ hpath h hsub := by
    have hcallee : sub.path.method = site.callee := by
      obtain ⟨vertices, rfl⟩ := eq_of_mem_forwardPaths hpath
      exact hsub.1
    have henumerated := forward_of_mem_forwardPaths hpath
    rw [← hcallee] at henumerated hpath
    have hforwarded : sub.path.Forwarded expander.graph := .intro henumerated hpath hsub.2.1 hsub.2.2
    have hone : ∀ {other : CodePath}, other = sub.path ∨ other ∈ strand.path.attached →
        other.Forwarded expander.graph := by
      rintro other (rfl | hold)
      · exact hforwarded
      · exact h.2.2 other hold
    cases site with
    | call expression method => exact ⟨h.1, h.2.1, fun _ hother => hone (mem_attached_withInvocation hother)⟩
    | staticInit expression class_ invoker =>
      exact ⟨h.1, h.2.1, fun _ hother => hone (mem_attached_withStaticInit hother)⟩

theorem forwarded_of_expandPath {config : Settings} {sources : List (String × String)} {graph : CodeGraph}
    (h : Build.IsGraphOf config sources graph) {settings : Settings} {options : ExpansionOptions} {method : VertexId}
    {forward : List CodePath} (hforward : Path.forward graph method = .ok forward) {path : CodePath}
    (hpath : path ∈ forward)
    {state : ExpansionState} (valid : state.Valid graph) {paths : List CodePath}
    (hrun : (((ofGraph graph settings options).expandPath path).run state).1 = .ok paths) :
    ∀ expanded ∈ paths, expanded.Forwarded graph := by
  have hresult := (asks_expandPath (sound_ofGraph h.isBuilt settings options) path).result_eq valid
  rw [hrun, Registry.outcome] at hresult
  split at hresult
  case isFalse => cases hresult
  case isTrue =>
    cases hresult
    obtain ⟨-, hpaths⟩ := eq_of_forward hforward
    obtain ⟨vertices, rfl⟩ := hpaths path hpath
    refine forall_mem_map.mpr fun strand hstrand => ?_
    obtain ⟨hmethod, hids, hattached⟩ :=
      invariant_forwarded.expansions ⟨rfl, rfl, by simp [attached]⟩ strand hstrand
    exact .intro (hmethod ▸ hforward) hpath hids hattached

end Expander

/-! ## Initialized classes -/

namespace Strand

/-- Along the strand every class was initialized once, none of them before it started. -/
structure Once (before : List String) (strand : Strand) : Prop where
  nodup : strand.path.initializedClasses.Nodup
  isInitialized : ∀ class_ ∈ strand.path.initializedClasses, class_ ∈ strand.initialized
  fresh : ∀ class_ ∈ strand.path.initializedClasses, class_ ∉ before
  remembers : ∀ class_ ∈ before, class_ ∈ strand.initialized

theorem once_of_not_attached {path : CodePath} (hinvocations : path.invocations = []) (hinits : path.staticInits = [])
    (before : List String) : Once before ⟨path, before⟩ := by
  have hnone : path.initializedClasses = [] := by
    rw [initializedClasses_eq, hinvocations, hinits]
    rfl
  exact ⟨by simp [hnone], by simp [hnone], by simp [hnone], fun _ => id⟩

theorem initialized_entering (strand : Strand) (site : Site) :
    (strand.entering site).initialized = strand.initialized ++ (site.class?.map Text.lower).toList := by
  cases site with
  | call expression method => exact (append_nil _).symm
  | staticInit expression class_ invoker => rfl

variable {before : List String} {strand : Strand}

theorem Once.withMetadata (once : Once before strand) (metadata : PathMetadata) :
    Once before (strand.withMetadata metadata) := by
  have hclasses : (strand.withMetadata metadata).path.initializedClasses = strand.path.initializedClasses := by
    rw [initializedClasses_eq, initializedClasses_eq]
    rfl
  exact ⟨hclasses ▸ once.nodup, hclasses ▸ once.isInitialized, hclasses ▸ once.fresh, once.remembers⟩

theorem Once.entering (once : Once before strand) (site : Site) : Once before (strand.entering site) := by
  have hpath : (strand.entering site).path = strand.path := by cases site <;> rfl
  have hgrows : ∀ class_ ∈ strand.initialized, class_ ∈ (strand.entering site).initialized := fun class_ h => by
    rw [initialized_entering]
    exact mem_append_left _ h
  exact ⟨hpath ▸ once.nodup, fun class_ h => hgrows class_ (once.isInitialized class_ (hpath ▸ h)), hpath ▸ once.fresh,
    fun class_ h => hgrows class_ (once.remembers class_ h)⟩

theorem initializedClasses_splice (strand sub : Strand) (anchor : VertexId) (site : Site) :
    ∃ kept, kept.Sublist strand.path.initializedClasses ∧ (strand.splice anchor site sub).path.initializedClasses.Perm
      (sub.path.initializedClasses ++ ((site.class?.map Text.lower).toList ++ kept)) := by
  cases site with
  | call expression method => exact initializedClasses_withInvocation strand.path sub.path anchor expression
  | staticInit expression class_ invoker =>
    refine ⟨strand.path.initializedClasses, .refl _, ?_⟩
    show (strand.path.withStaticInit class_ _ sub.path).initializedClasses.Perm _
    rw [initializedClasses_withStaticInit]
    exact perm_append_comm.trans (perm_middle.symm)

/-- A splice brings only classes that were not initialized before. -/
theorem Once.splice (once : Once before strand) {active : List VertexId} {site : Site}
    (hskips : Expander.skips active strand site = false) {sub : Strand}
    (hsub : Once (strand.entering site).initialized sub)
    (anchor : VertexId) : Once before (strand.splice anchor site sub) := by
  obtain ⟨kept, hkept, hperm⟩ := initializedClasses_splice strand sub anchor site
  have hinside : ∀ class_ ∈ strand.initialized, class_ ∈ (strand.entering site).initialized := fun class_ h => by
    rw [initialized_entering]
    exact mem_append_left _ h
  have hkeptOld : ∀ class_ ∈ kept, class_ ∈ strand.initialized :=
    fun class_ h => once.isInitialized class_ (hkept.mem h)
  have hown : ∀ class_ ∈ (site.class?.map Text.lower).toList, class_ ∉ strand.initialized ∧
      class_ ∈ (strand.entering site).initialized := by
    intro class_ h
    refine ⟨?_, by rw [initialized_entering]; exact mem_append_right _ h⟩
    obtain ⟨name, hname, rfl⟩ := Option.map_eq_some_iff.mp (Option.mem_toList.mp h)
    simpa [Expander.skips, hname, Strand.isInitialized] using (Bool.or_eq_false_iff.mp hskips).2
  refine ⟨?_, fun class_ h => ?_, fun class_ h => ?_, fun class_ h =>
    hsub.remembers class_ (hinside class_ (once.remembers class_ h))⟩
  · refine hperm.nodup_iff.mpr (nodup_append.mpr ⟨hsub.nodup, nodup_append.mpr ⟨?_, hkept.nodup once.nodup, ?_⟩, ?_⟩)
    · cases site.class? <;> simp
    · rintro class_ h _ hold rfl
      exact (hown class_ h).1 (hkeptOld class_ hold)
    · rintro class_ h _ hother rfl
      refine hsub.fresh class_ h ?_
      rcases mem_append.mp hother with hother | hother
      · exact (hown class_ hother).2
      · exact hinside class_ (hkeptOld class_ hother)
  · rcases mem_append.mp (hperm.mem_iff.mp h) with h | h
    · exact hsub.isInitialized class_ h
    rcases mem_append.mp h with h | h
    · exact hsub.remembers class_ (hown class_ h).2
    · exact hsub.remembers class_ (hinside class_ (hkeptOld class_ h))
  · intro hbefore
    have hold := once.remembers class_ hbefore
    rcases mem_append.mp (hperm.mem_iff.mp h) with h | h
    · exact hsub.fresh class_ h (hinside class_ hold)
    rcases mem_append.mp h with h | h
    · exact (hown class_ h).1 hold
    · exact once.fresh class_ (hkept.mem h) hbefore

end Strand

namespace Expander

variable {expander : Expander}

theorem invariant_once : expander.Invariant fun _ first strand => Strand.Once first.initialized strand where
  start active method path initialized hpath := by
    obtain ⟨vertices, rfl⟩ := eq_of_mem_forwardPaths hpath
    exact Strand.once_of_not_attached rfl rfl initialized
  metadata _ _ _ metadata once := once.withMetadata metadata
  entering _ _ _ site _ once := once.entering site
  splice _ _ _ anchor _ _ _ hskips _ _ once hsub := once.splice hskips hsub anchor

/-- No class is initialized twice along an expanded path and the paths attached to it. -/
theorem nodup_initializedClasses {config : Settings} {sources : List (String × String)} {graph : CodeGraph}
    (h : Build.IsGraphOf config sources graph) (settings : Settings) (options : ExpansionOptions) {path : CodePath}
    (hpath : path.isExpanded = false) {state : ExpansionState} (valid : state.Valid graph) {paths : List CodePath}
    (hpaths : (((ofGraph graph settings options).expandPath path).run state).1 = .ok paths) :
    ∀ expanded ∈ paths, expanded.initializedClasses.Nodup := by
  have hasks := asks_expandPath (sound_ofGraph h.isBuilt settings options) path
  rw [hasks.result_eq valid] at hpaths
  obtain ⟨-, rfl⟩ := Registry.outcome_eq_ok hpaths
  have hattached : path.invocations = [] ∧ path.staticInits = [] := by simpa [isExpanded] using hpath
  intro expanded hexpanded
  obtain ⟨strand, hstrand, rfl⟩ := mem_map.mp hexpanded
  exact (invariant_once.expansions (Strand.once_of_not_attached hattached.1 hattached.2 []) strand hstrand).nodup

/-- The class of the method is initialized before its first vertex, and not again at the later call. -/
theorem callingTwice_initializedClasses : ∃ graph path paths, Build.IsGraphOf bareSettings [("A", callingTwice)] graph ∧
    Path.forward graph path.method = .ok [path] ∧
    (((ofGraph graph bareSettings {}).expandPath path).run { registry := { limit := .unlimited } }).1 = .ok paths ∧
    paths.length = 4 ∧ ∀ expanded ∈ paths, expanded.staticInits.length = 1 ∧ expanded.initializedClasses.Nodup := by
  obtain ⟨graph, path, paths, hgraph, hforward, hrun, hcount, hinits⟩ := exists_fourfold_run
  obtain ⟨vertices, hpath⟩ := (eq_of_forward hforward).2 path mem_cons_self
  have hnodup :=
    nodup_initializedClasses hgraph bareSettings {} (by rw [hpath]; rfl) (valid_start graph .unlimited) hrun
  exact ⟨graph, path, paths, hgraph, hforward, hrun, hcount, fun expanded hexpanded =>
    ⟨hinits expanded hexpanded, hnodup expanded hexpanded⟩⟩

end Expander

end ApexPaths
