import ApexPaths.Proofs.Expansion.Recursion
import ApexPaths.Proofs.Result

/-!
Computations that count forks, and the machine that is one of them. Such a computation has one result and asks for one
number of forks in all. It gives the result if the forks still fit under the limit, and fails at the limit if they do
not; nothing else about the count matters to it.
-/

namespace ApexPaths
set_option autoImplicit false

open List

/-- The most forks that can be counted under a limit. -/
def Limit.capacity (limit : Limit) : Nat := min (limit.max?.getD maxCount) maxCount

def Limit.failure (limit : Limit) : EngineError := .expansionLimit (limit.max?.getD maxCount)

variable {count : Nat}

theorem Limit.le_capacity_iff {limit : Limit} :
    count ≤ limit.capacity ↔ count ≤ maxCount ∧ limit.allows count = true := by
  obtain ⟨max⟩ := limit
  cases max with
  | none => simp [Limit.capacity, Limit.allows]
  | some most =>
    rw [Limit.capacity, Option.getD_some, Nat.le_min, and_comm]
    simp [Limit.allows]

/-- What comes of a computation with one result that asks for some forks. -/
def Registry.outcome {α : Type} (registry : Registry) (count : Nat) (a : α) : Except EngineError α :=
  if registry.forks + count ≤ registry.limit.capacity then .ok a else .error registry.limit.failure

theorem Registry.outcome_eq_ok {α : Type} {registry : Registry} {a b : α} (h : registry.outcome count a = .ok b) :
    registry.forks + count ≤ registry.limit.capacity ∧ a = b := by
  rw [outcome] at h
  split at h
  · exact ⟨‹_›, Except.ok.inj h⟩
  · cases h

/-- Every entry holds the forward paths of its method. -/
def PathCache.Holds (graph : CodeGraph) (cache : PathCache) : Prop :=
  ∀ entry ∈ cache, Path.forward graph entry.1 = .ok entry.2

/-- What is kept during an expansion. -/
structure ExpansionState.Valid (graph : CodeGraph) (state : ExpansionState) : Prop where
  cached : state.cache.Holds graph
  counted : state.registry.forks ≤ state.registry.limit.capacity

theorem valid_start (graph : CodeGraph) (limit : Limit) : ExpansionState.Valid graph { registry := { limit } } :=
  ⟨by simp [PathCache.Holds], Nat.zero_le _⟩

/-- One way for a computation to end: it asks for some forks, and gives a result if they fit. -/
def Asks (graph : CodeGraph) {α : Type} (x : ExpandM α) (count : Nat) (a : α) : Prop :=
  ∀ state : ExpansionState, state.Valid graph → ∃ after : ExpansionState,
    after.Valid graph ∧ after.registry.limit = state.registry.limit ∧
      if state.registry.forks + count ≤ state.registry.limit.capacity then
        x.run state = (.ok a, after) ∧ after.registry.forks = state.registry.forks + count
      else x.run state = (.error state.registry.limit.failure, after)

variable {state : ExpansionState}

section
variable {graph : CodeGraph} {α β : Type}

theorem Asks.result_eq {x : ExpandM α} {a : α} (h : Asks graph x count a)
    (valid : state.Valid graph) : (x.run state).1 = state.registry.outcome count a := by
  obtain ⟨after, -, -, hx⟩ := h state valid
  rw [Registry.outcome]
  split at hx
  · rw [if_pos ‹_›, hx.1]
  · rw [if_neg ‹_›, hx]

theorem Asks.free {x : ExpandM α} {a : α} (h : ∀ state : ExpansionState, state.Valid graph → ∃ cache expanders,
    PathCache.Holds graph cache ∧ x.run state = (.ok a, { registry := { state.registry with expanders }, cache })) :
    Asks graph x 0 a := by
  intro state valid
  obtain ⟨cache, expanders, hcache, hrun⟩ := h state valid
  refine ⟨{ registry := { state.registry with expanders }, cache }, ⟨hcache, valid.counted⟩, rfl, ?_⟩
  rw [Nat.add_zero]
  split
  · exact ⟨hrun, rfl⟩
  · exact absurd valid.counted ‹_›

theorem Asks.pure (a : α) : Asks graph (Pure.pure a) 0 a :=
  .free fun state valid => ⟨state.cache, state.registry.expanders, valid.cached, rfl⟩

/-- Forks add up. -/
theorem Asks.bind {x : ExpandM α} {f : α → ExpandM β} {first second : Nat} {a : α} {b : β} (h : Asks graph x first a)
    (h' : Asks graph (f a) second b) : Asks graph (x >>= f) (first + second) b := by
  intro state valid
  obtain ⟨middle, hvalid, hlimit, hx⟩ := h state valid
  split at hx
  case isFalse hfull =>
    refine ⟨middle, hvalid, hlimit, ?_⟩
    rw [if_neg (by omega), run_bind, hx]
  case isTrue hfits =>
    obtain ⟨hx, hforks⟩ := hx
    obtain ⟨after, hafter, hlimit', hf⟩ := h' middle hvalid
    rw [hlimit, hforks] at hf
    refine ⟨after, hafter, hlimit'.trans hlimit, ?_⟩
    rw [run_bind, hx]
    split at hf
    case isTrue hboth =>
      rw [if_pos (by omega)]
      exact ⟨hf.1, by omega⟩
    case isFalse hboth =>
      rw [if_neg (by omega)]
      exact hf

theorem Asks.after {x : ExpandM α} {f : α → ExpandM β} {a : α} {b : β} (h : Asks graph x 0 a)
    (h' : Asks graph (f a) count b) : Asks graph (x >>= f) count b := by
  simpa using h.bind h'

theorem Asks.before {x : ExpandM α} {f : α → ExpandM β} {a : α} {b : β} (h : Asks graph x count a)
    (h' : Asks graph (f a) 0 b) : Asks graph (x >>= f) count b := h.bind h'

theorem Asks.map {x : ExpandM α} {a : α} (h : Asks graph x count a) (f : α → β) :
    Asks graph (x >>= fun a => Pure.pure (f a)) count (f a) := h.before (Asks.pure (f a))

theorem Asks.flatMapM {f : α → ExpandM (List β)} {count : α → Nat} {g : α → List β} (items : List α)
    (h : ∀ item ∈ items, Asks graph (f item) (count item) (g item)) :
    Asks graph (items.flatMapM f) (items.map count).sum (items.flatMap g) := by
  have hloop : ∀ (items : List α) (found : List (List β)), (∀ item ∈ items, Asks graph (f item) (count item) (g item)) →
      Asks graph (List.flatMapM.loop f items found) (items.map count).sum
      (found.reverse.flatten ++ items.flatMap g) := by
    intro items
    induction items with
    | nil =>
      intro found _
      simpa [List.flatMapM.loop] using Asks.pure (found.reverse.flatten)
    | cons item rest ih =>
      intro found h
      obtain ⟨hitem, hrest⟩ := forall_mem_cons.mp h
      have hmore := ih (g item :: found) hrest
      rw [reverse_cons, flatten_append, flatten_singleton, List.append_assoc] at hmore
      simpa [List.flatMapM.loop] using hitem.bind hmore
  simpa [List.flatMapM] using hloop items [] h

theorem Asks.mapM {f : α → ExpandM β} {count : α → Nat} {g : α → β} (items : List α)
    (h : ∀ item ∈ items, Asks graph (f item) (count item) (g item)) :
    Asks graph (items.mapM f) (items.map count).sum (items.map g) := by
  induction items with
  | nil => exact Asks.pure []
  | cons item rest ih =>
    obtain ⟨hitem, hrest⟩ := forall_mem_cons.mp h
    rw [mapM_cons, map_cons, sum_cons, map_cons]
    exact hitem.bind ((ih hrest).map (g item :: ·))

end

/-! ## Effects -/

variable {method : VertexId} {paths : List CodePath}

namespace Expander

variable {expander : Expander}

theorem mem_of_get? {cache : PathCache} (h : cache.get? method = some paths) :
    (method, paths) ∈ cache := by
  obtain ⟨⟨key, value⟩, hfound, rfl⟩ := Option.map_eq_some_iff.mp h
  have hkey := List.find?_some hfound
  obtain rfl : key = method := by simpa using hkey
  exact mem_of_find?_eq_some hfound

theorem asks_pathsOf (h : Path.forward expander.graph method = .ok paths) :
    Asks expander.graph (expander.pathsOf method) 0 paths := by
  refine .free fun state valid => ?_
  show ∃ cache expanders, _ ∧ ((state.cache.fetch expander.graph method).1, _) = _
  rw [PathCache.fetch]
  cases hcached : state.cache.get? method with
  | some found =>
    have hfound := valid.cached _ (mem_of_get? hcached)
    cases h.symm.trans hfound
    exact ⟨state.cache, state.registry.expanders, valid.cached, rfl⟩
  | none =>
    simp only [h]
    refine ⟨state.cache ++ [(method, paths)], state.registry.expanders, ?_, rfl⟩
    exact forall_mem_append.mpr ⟨valid.cached, by simpa using h⟩

theorem asks_countExpander : Asks expander.graph countExpander 0 () :=
  .free fun state valid => ⟨state.cache, state.registry.expanders + 1, valid.cached, rfl⟩

theorem run_countForks (count : Nat) (state : ExpansionState) : (countForks count).run state =
    match state.registry.countForks count with
    | .ok registry => (.ok (), { state with registry })
    | .error error => (.error error, state) := by
  rw [countForks, run_bind]
  show ((liftM (state.registry.countForks count) : ExpandM Registry) >>= fun registry =>
    set { state with registry }).run state = _
  rw [run_bind]
  cases state.registry.countForks count <;> rfl

theorem asks_countForks (count : Nat) : Asks expander.graph (countForks count) count () := by
  by_cases hzero : count = 0
  · subst hzero
    refine .free fun state valid => ⟨state.cache, state.registry.expanders, valid.cached, ?_⟩
    rw [run_countForks]
    rfl
  intro state valid
  have hrun := run_countForks count state
  rw [Registry.countForks, if_neg hzero, Registry.forksAfter?] at hrun
  simp only [← Limit.le_capacity_iff] at hrun
  split
  case isTrue hfits =>
    rw [if_pos hfits] at hrun
    exact ⟨{ state with registry := { state.registry with forks := state.registry.forks + count } },
      ⟨valid.cached, hfits⟩, rfl, hrun, rfl⟩
  case isFalse hfull =>
    rw [if_neg hfull] at hrun
    exact ⟨state, valid, rfl, hrun⟩

end Expander

/-!
## The stack of frames

A frame that follows a strand ends with the expansions of
the strand among its finished ones, everything else as before; a callee that is entered on the way is
finished and handed back by then. So the steps from a first frame end, with the results and the forks of
the recursion.
-/

/-! ## What a step keeps -/

namespace Strand

/-- The strand still follows the same vertices of the same method. -/
structure Keeps (strand result : Strand) : Prop where
  method_eq : result.path.method = strand.path.method
  vertices_eq : result.path.vertices = strand.path.vertices

theorem keeps_splice (strand sub : Strand) (anchor : VertexId) (site : Site) :
    strand.Keeps (strand.splice anchor site sub) := by
  cases site <;> exact ⟨rfl, rfl⟩

theorem keeps_entering (strand : Strand) (site : Site) : strand.Keeps (strand.entering site) := by
  cases site <;> exact ⟨rfl, rfl⟩

end Strand

namespace Expander

/-- An expansion that finds what it needs: methods at all sites, and the forward paths of every method. -/
structure Sound (expander : Expander) : Prop where
  exists_forward : ∀ method, expander.graph.is method .method = true → ∃ paths,
    Path.forward expander.graph method = .ok paths
  is_callee : ∀ method isFirst vertex, ∀ site ∈ expander.sitesOf method isFirst vertex,
    expander.graph.is site.callee .method = true

theorem Sound.forward_eq {expander : Expander} (sound : expander.Sound)
    (h : expander.graph.is method .method = true) : Path.forward expander.graph method =
    .ok (expander.forwardPaths method) := by
  obtain ⟨paths, hpaths⟩ := sound.exists_forward method h
  rw [forwardPaths, hpaths]
  rfl

/-! ## Runs -/

/-- A number of steps leads from a stack to the end; they ask for some forks, and give some paths. -/
inductive Runs (expander : Expander) : Nat → List Frame → Nat → List CodePath → Prop where
  | finished {stack : List Frame} {paths : List CodePath}
      (step : Asks expander.graph (expander.step stack) 0 (.finished paths)) : Runs expander 1 stack 0 paths
  | moved {stack next : List Frame} {length first rest : Nat} {paths : List CodePath}
    (step : Asks expander.graph (expander.step stack) first (.running next))
    (run : Runs expander length next rest paths) :
    Runs expander (length + 1) stack (first + rest) paths

/-- Steps that ask for some forks lead from one stack to another. -/
def Leads (expander : Expander) (stack : List Frame) (count : Nat) (next : List Frame) : Prop :=
  ∀ length rest paths, Runs expander length next rest paths → ∃ longer, Runs expander longer stack (count + rest) paths

variable {expander : Expander}

theorem Leads.refl (stack : List Frame) : Leads expander stack 0 stack := fun length rest paths run =>
  ⟨length, by simpa using run⟩

theorem Leads.trans {a b c : List Frame} {first second : Nat} (hab : Leads expander a first b)
    (hbc : Leads expander b second c) : Leads expander a (first + second) c := by
  intro length rest paths run
  obtain ⟨length, run⟩ := hbc length rest paths run
  obtain ⟨length, run⟩ := hab length _ paths run
  exact ⟨length, by rwa [Nat.add_assoc]⟩

theorem Leads.single {stack next : List Frame}
    (step : Asks expander.graph (expander.step stack) count (.running next)) : Leads expander stack count next :=
  fun length _ _ run => ⟨length + 1, .moved step run⟩

/-! ## Places on a path -/

variable (expander)

/-- The steps that a path has ahead of a cursor. -/
def stepsFrom (path : CodePath) (cursor : Cursor) : List Step :=
  match path.vertices.drop cursor.vertex with
  | [] => []
  | vertex :: rest =>
    ((expander.sitesOf path.method (cursor.vertex == 0) vertex.id).drop cursor.site).map (.site vertex.id) ++
      .settle vertex :: expander.steps path.method false rest

theorem stepsFrom_start (path : CodePath) :
    expander.stepsFrom path {} = expander.steps path.method true path.vertices := by
  rw [stepsFrom]
  cases path.vertices <;> rfl

theorem stepsFrom_congr {strand result : Strand} (keeps : strand.Keeps result) (cursor : Cursor) :
    expander.stepsFrom result.path cursor = expander.stepsFrom strand.path cursor := by
  rw [stepsFrom, stepsFrom, keeps.method_eq, keeps.vertices_eq]

variable {expander} {path : CodePath} {cursor : Cursor}

theorem drop_eq_cons {vertex : PathVertex} (h : path.vertices[cursor.vertex]? = some vertex) :
    path.vertices.drop cursor.vertex = vertex :: path.vertices.drop (cursor.vertex + 1) := by
  obtain ⟨hlt, rfl⟩ := List.getElem?_eq_some_iff.mp h
  exact drop_eq_getElem_cons hlt

theorem stepsFrom_end (h : path.vertices[cursor.vertex]? = none) : expander.stepsFrom path cursor = [] := by
  rw [stepsFrom, drop_eq_nil_of_le (List.getElem?_eq_none_iff.mp h)]

theorem stepsFrom_settle {vertex : PathVertex} (h : path.vertices[cursor.vertex]? = some vertex)
    (hsite : (expander.sitesOf path.method (cursor.vertex == 0) vertex.id)[cursor.site]? = none) :
    expander.stepsFrom path cursor = .settle vertex :: expander.stepsFrom path cursor.pastVertex := by
  have hsites : (expander.sitesOf path.method (cursor.vertex == 0) vertex.id).drop cursor.site = [] :=
    drop_eq_nil_of_le (List.getElem?_eq_none_iff.mp hsite)
  rw [stepsFrom, drop_eq_cons h]
  simp only [hsites, map_nil, nil_append, List.cons.injEq, true_and]
  rw [stepsFrom, Cursor.pastVertex]
  cases path.vertices.drop (cursor.vertex + 1) <;> rfl

theorem stepsFrom_site {vertex : PathVertex} {site : Site} (h : path.vertices[cursor.vertex]? = some vertex)
    (hsite : (expander.sitesOf path.method (cursor.vertex == 0) vertex.id)[cursor.site]? = some site) :
    expander.stepsFrom path cursor = .site vertex.id site :: expander.stepsFrom path cursor.pastSite := by
  obtain ⟨hlt, rfl⟩ := List.getElem?_eq_some_iff.mp hsite
  rw [stepsFrom, stepsFrom, Cursor.pastSite, drop_eq_cons h]
  simp only [drop_eq_getElem_cons hlt, map_cons, cons_append]

/-! ## One step of a frame -/

theorem keeps_of_settle? {strand result : Strand} {vertex : PathVertex}
    (h : expander.settle? strand vertex = some result) : strand.Keeps result := by
  rw [settle?] at h
  split at h
  · cases h
  · cases h
    exact ⟨rfl, rfl⟩

theorem keeps_of_mem_take {active : List VertexId} {strand result : Strand} {step : Step}
    (h : result ∈ expander.take active strand step) : strand.Keeps result := by
  cases step with
  | settle vertex => exact keeps_of_settle? (Option.mem_toList.mp h)
  | site anchor site =>
    rw [take_site] at h
    split at h
    · rw [mem_singleton.mp h]
      exact ⟨rfl, rfl⟩
    split at h
    · cases h
    split at h
    · rw [mem_singleton.mp h]
      exact strand.keeps_entering site
    · obtain ⟨sub, -, rfl⟩ := mem_map.mp h
      exact strand.keeps_splice sub anchor site

/-- The methods of a stack, the innermost first. -/
def methods (stack : List Frame) : List VertexId := stack.map Frame.method

def Frame.finish (frame : Frame) (results : List Strand) : Frame := { frame with done := results.reverse ++ frame.done }

theorem Frame.finish_append (frame : Frame) (first second : List Strand) :
    frame.finish (first ++ second) = (frame.finish first).finish second := by
  simp [Frame.finish]

variable (expander) in
/-- What an expander does at a site. -/
def planned (active : List VertexId) (strand : Strand) (site : Site) : Plan :=
  if skips active strand site then .skip
  else if !expander.depthLimit.allows active.length then .drop
  else if expander.forwardPaths site.callee = [] then if site.class?.isSome then .mark else .skip
  else .descend (expander.forwardPaths site.callee)

theorem asks_plan (sound : expander.Sound) (stack : List Frame) (strand : Strand) {site : Site}
    (hcallee : expander.graph.is site.callee .method = true) :
    Asks expander.graph (expander.plan stack strand site) 0 (expander.planned (methods stack) strand site) := by
  have hactive : (stack.any fun frame => frame.method == site.callee) = (methods stack).contains site.callee := by
    rw [methods, contains_eq_any_beq, any_map]
    exact congrArg _ (funext fun frame => Bool.beq_comm)
  rw [plan, planned, hactive, methods, length_map, ← methods]
  show Asks _ (if skips (methods stack) strand site = true then _ else _) _ _
  split
  · exact Asks.pure _
  split
  · exact Asks.pure _
  have hpaths := asks_pathsOf (sound.forward_eq hcallee)
  refine hpaths.after ?_
  cases expander.forwardPaths site.callee with
  | nil => exact Asks.pure _
  | cons path rest => exact Asks.pure _

theorem step_ahead (frame : Frame) (below : List Frame) (strand : Strand) (cursor : Cursor) :
    expander.step (frame.ahead [strand] cursor :: below) =
      (expander.advance frame below ⟨strand, cursor⟩ >>= fun stack => pure (.running stack)) := rfl

section
variable (frame : Frame) (below : List Frame) (strand : Strand) (cursor : Cursor)

theorem leads_end (h : strand.path.vertices[cursor.vertex]? = none) :
    Leads expander (frame.ahead [strand] cursor :: below) 0 (frame.finish [strand] :: below) := by
  refine .single ?_
  rw [step_ahead, advance, Partial.vertex?, h]
  exact (Asks.pure _).map _

theorem leads_settle {vertex : PathVertex} (h : strand.path.vertices[cursor.vertex]? = some vertex)
    (hsite : (expander.sitesOf strand.path.method (cursor.vertex == 0) vertex.id)[cursor.site]? = none) :
    Leads expander (frame.ahead [strand] cursor :: below) 0
      (frame.ahead (expander.settle? strand vertex).toList cursor.pastVertex :: below) := by
  refine .single ?_
  rw [step_ahead, advance, Partial.vertex?, h]
  simp only [hsite]
  exact (Asks.pure _).map _

variable {vertex : PathVertex} {site : Site} (h : strand.path.vertices[cursor.vertex]? = some vertex)
  (hsite : (expander.sitesOf strand.path.method (cursor.vertex == 0) vertex.id)[cursor.site]? = some site)
include h hsite

theorem leads_site (sound : expander.Sound) : Leads expander (frame.ahead [strand] cursor :: below) 0
    (match expander.planned (methods (frame :: below)) strand site with
    | .skip => frame.ahead [strand] cursor.pastSite :: below
    | .mark => frame.ahead [strand.entering site] cursor.pastSite :: below
    | .drop => frame :: below
    | .descend paths => Frame.enter site.callee paths (strand.entering site).initialized ::
        { frame with waiting := some (⟨strand, cursor⟩, site) } :: below) := by
  have hcallee := sound.is_callee _ _ _ site (mem_of_getElem? hsite)
  refine .single ?_
  rw [step_ahead, advance, Partial.vertex?, h]
  simp only [hsite]
  have hplan := asks_plan sound (frame :: below) strand hcallee
  refine Asks.map (f := Progress.running) (hplan.after ?_)
  cases expander.planned (methods (frame :: below)) strand site with
  | skip => exact Asks.pure _
  | mark => exact Asks.pure _
  | drop => exact Asks.pure _
  | descend paths => exact asks_countExpander.after (Asks.pure _)

end

/-- A frame that waited goes on with each result in turn. -/
theorem leads_resume {frame : Frame} (hwaiting : frame.waiting = none) (below : List Frame) (strand : Strand)
    (cursor : Cursor) {vertex : PathVertex} (h : strand.path.vertices[cursor.vertex]? = some vertex)
    (callee : VertexId) (site : Site)
    (results : List Strand) :
    Leads expander (Frame.finish { method := callee, pending := [] } results ::
        { frame with waiting := some (⟨strand, cursor⟩, site) } :: below) ((expander.collapse results).length - 1)
      (frame.ahead ((expander.collapse results).map (strand.splice vertex.id site)) cursor.pastSite :: below) := by
  have hframe : { frame with waiting := none } = frame := by rw [← hwaiting]
  refine .single ?_
  show Asks _ (expander.resume (Frame.finish { method := callee, pending := [] } results).done.reverse _ below >>= _)
    _ _
  rw [Frame.finish, append_nil, reverse_reverse]
  refine Asks.map (f := Progress.running) ?_
  rw [resume]
  simp only
  cases expander.collapse results with
  | nil =>
    simp only [hframe]
    exact Asks.pure _
  | cons first rest =>
    refine (asks_countForks _).before ?_
    simp only [Partial.vertex?, h, hframe]
    exact Asks.pure _

/-! ## Whole strands -/

theorem Frame.enter_eq (method : VertexId) (paths : List CodePath) (initialized : List String) :
    Frame.enter method paths initialized =
      Frame.ahead { method, pending := [] } (paths.map fun path => ⟨path, initialized⟩) {} := by
  simp [Frame.enter, Frame.ahead]

theorem leads_all {below : List Frame} {cursor : Cursor} {count : Strand → Nat} {results : Strand → List Strand}
    (strands : List Strand) (h : ∀ strand ∈ strands, ∀ frame : Frame, frame.method = method → frame.waiting = none →
      Leads expander (frame.ahead [strand] cursor :: below) (count strand) (frame.finish (results strand) :: below))
    (frame : Frame) (hmethod : frame.method = method) (hwaiting : frame.waiting = none) :
    Leads expander (frame.ahead strands cursor :: below) (strands.map count).sum
      (frame.finish (strands.flatMap results) :: below) := by
  induction strands generalizing frame with
  | nil => exact Leads.refl (frame :: below)
  | cons strand rest ih =>
    obtain ⟨hstrand, hrest⟩ := forall_mem_cons.mp h
    rw [map_cons, sum_cons, flatMap_cons, Frame.finish_append]
    exact (hstrand (frame.ahead rest cursor) hmethod hwaiting).trans
      (ih hrest (frame.finish (results strand)) hmethod hwaiting)

theorem leads_callee {stack : List Frame} (strand : Strand) {site : Site} (h : ∀ sub : Strand, ∀ frame : Frame,
    frame.method = site.callee → frame.waiting = none → Leads expander (frame.ahead [sub] {} :: stack)
      (expander.forks (site.callee :: methods stack) sub)
      (frame.finish (expander.expansions (site.callee :: methods stack) sub) :: stack)) :
    Leads expander (Frame.enter site.callee (expander.forwardPaths site.callee) (strand.entering site).initialized ::
    stack) (expander.calleeForks (methods stack) strand site)
      (Frame.finish { method := site.callee, pending := [] } (expander.calleeResults (methods stack) strand site) ::
      stack) := by
  rw [Frame.enter_eq, calleeForks, calleeResults]
  have hall :=
    leads_all ((expander.forwardPaths site.callee).map fun path => ⟨path, (strand.entering site).initialized⟩)
    (fun sub _ => h sub) { method := site.callee, pending := [] } rfl rfl
  rwa [map_map, flatMap_map] at hall

/-- A site is taken by steps that end with what the recursion gives for it. -/
theorem leads_take (sound : expander.Sound) {frame : Frame} (hwaiting : frame.waiting = none) (below : List Frame)
    {strand : Strand} {cursor : Cursor} {vertex : PathVertex} {site : Site}
    (hvertex : strand.path.vertices[cursor.vertex]? = some vertex)
    (hsite : (expander.sitesOf strand.path.method (cursor.vertex == 0) vertex.id)[cursor.site]? = some site)
    (hentered : ∀ stack, methods stack = methods (frame :: below) →
      expander.idleCount (site.callee :: methods stack) < expander.idleCount (methods stack) → ∀ sub : Strand,
      ∀ callee : Frame,
      callee.method = site.callee → callee.waiting = none → Leads expander (callee.ahead [sub] {} :: stack)
        (expander.forks (site.callee :: methods stack) sub)
        (callee.finish (expander.expansions (site.callee :: methods stack) sub) :: stack)) :
    Leads expander (frame.ahead [strand] cursor :: below)
      (expander.stepForks (methods (frame :: below)) strand (.site vertex.id site))
      (frame.ahead (expander.take (methods (frame :: below)) strand (.site vertex.id site)) cursor.pastSite ::
      below) := by
  have hmove := leads_site frame below strand cursor hvertex hsite sound
  rw [planned] at hmove
  rw [take_site, stepForks_site]
  by_cases hskips : skips (methods (frame :: below)) strand site = true
  · simp only [if_pos hskips] at hmove ⊢
    exact hmove
  by_cases hdeep : (!expander.depthLimit.allows (methods (frame :: below)).length) = true
  · simp only [if_neg hskips, if_pos hdeep] at hmove ⊢
    exact hmove
  by_cases hnone : expander.forwardPaths site.callee = []
  · simp only [if_neg hskips, if_neg hdeep, if_pos hnone] at hmove ⊢
    cases site with
    | call expression callee => exact hmove
    | staticInit expression class_ invoker => exact hmove
  · simp only [if_neg hskips, if_neg hdeep, if_neg hnone] at hmove ⊢
    let stack : List Frame := { frame with waiting := some (⟨strand, cursor⟩, site) } :: below
    have hcallee := leads_callee strand (hentered stack rfl (idleCount_lt hskips hnone))
    have hall := (hmove.trans hcallee).trans (leads_resume hwaiting below strand cursor hvertex site.callee site _)
    rwa [Nat.zero_add] at hall

/-- A strand is followed by steps that end with its expansions; by induction on the steps ahead. -/
theorem leads_follow (sound : expander.Sound) (method : VertexId) (below : List Frame) (steps : List Step)
    (strand : Strand) (cursor : Cursor) (hsteps : expander.stepsFrom strand.path cursor = steps) (frame : Frame)
    (hmethod : frame.method = method) (hwaiting : frame.waiting = none) :
    Leads expander (frame.ahead [strand] cursor :: below)
      (tally (expander.take (method :: methods below)) (expander.stepForks (method :: methods below)) steps strand)
      (frame.finish (follow (expander.take (method :: methods below)) steps strand) :: below) := by
  -- Callees are entered with fewer idle methods; along the strand itself there are fewer steps.
  induction hidle : expander.idleCount (method :: methods below) using Nat.strongRecOn
    generalizing method below steps strand cursor frame with
  | _ n entered =>
  induction steps generalizing strand cursor frame with
  | nil =>
    cases hvertex : strand.path.vertices[cursor.vertex]? with
    | none => exact leads_end frame below strand cursor hvertex
    | some vertex =>
      cases hsite : (expander.sitesOf strand.path.method (cursor.vertex == 0) vertex.id)[cursor.site]? with
      | none => simp [stepsFrom_settle hvertex hsite] at hsteps
      | some site => simp [stepsFrom_site hvertex hsite] at hsteps
  | cons step rest ih =>
    -- The results of a step are ahead of the frame, each at the next place of its path.
    have honward : ∀ (results : List Strand) (next : Cursor), expander.stepsFrom strand.path next = rest →
        (∀ result ∈ results, strand.Keeps result) →
        Leads expander (frame.ahead results next :: below)
          (results.map
          (tally (expander.take (method :: methods below)) (expander.stepForks (method :: methods below)) rest)).sum
          (frame.finish (results.flatMap (follow (expander.take (method :: methods below)) rest)) :: below) := by
      intro results next hnext hkeeps
      refine leads_all results (fun result hresult frame hmethod hwaiting => ?_) frame hmethod hwaiting
      refine ih result next ?_ frame hmethod hwaiting
      rw [stepsFrom_congr expander (hkeeps result hresult), hnext]
    cases hvertex : strand.path.vertices[cursor.vertex]? with
    | none => simp [stepsFrom_end hvertex] at hsteps
    | some vertex =>
    cases hsite : (expander.sitesOf strand.path.method (cursor.vertex == 0) vertex.id)[cursor.site]? with
    | none =>
      obtain ⟨rfl, hrest⟩ := List.cons.inj ((stepsFrom_settle hvertex hsite).symm.trans hsteps)
      have hmove := leads_settle frame below strand cursor hvertex hsite
      exact hmove.trans (honward _ _ hrest fun result hresult => keeps_of_settle? (Option.mem_toList.mp hresult))
    | some site =>
      obtain ⟨rfl, hrest⟩ := List.cons.inj ((stepsFrom_site hvertex hsite).symm.trans hsteps)
      have hactive : methods (frame :: below) = method :: methods below := congrArg (· :: methods below) hmethod
      have htake := leads_take sound hwaiting below hvertex hsite fun stack hstack hlt sub callee hcallee hnone => by
        rw [hstack, hactive, hidle] at hlt
        rw [forks_eq, expansions_eq]
        exact entered _ (by rw [hstack, hactive]; exact hlt) site.callee stack _ sub {}
          (expander.stepsFrom_start sub.path) callee hcallee hnone rfl
      rw [hactive] at htake
      have hkeeps : ∀ result ∈ expander.take (method :: methods below) strand (.site vertex.id site),
          strand.Keeps result :=
        fun result => keeps_of_mem_take
      exact htake.trans (honward _ _ hrest hkeeps)

/-! ## Whole runs -/

/-- From its first frame the machine runs to the expansions of the path. -/
theorem exists_runs (sound : expander.Sound) (path : CodePath) :
    ∃ length, Runs expander length [Frame.enter path.method [path] []] (expander.forks [path.method] { path })
      ((expander.expansions [path.method] { path }).map (·.path)) := by
  have hleads := leads_follow sound path.method [] _ { path } {} (expander.stepsFrom_start path)
    { method := path.method, pending := [] } rfl rfl
  have hend : Runs expander 1
    [Frame.finish { method := path.method, pending := [] } (expander.expansions [path.method] { path })] 0
    ((expander.expansions [path.method] { path }).map (·.path)) := by
    refine .finished ?_
    have hdone : Asks expander.graph _ 0 _ :=
      Asks.pure (Progress.finished ((expander.expansions [path.method] { path }).map (·.path)))
    simpa [step, Frame.finish] using hdone
  rw [expansions_eq] at hend
  obtain ⟨length, hrun⟩ := hleads 1 0 _ hend
  rw [forks_eq, expansions_eq]
  exact ⟨length, hrun⟩

/-- From a stack that leads to an end, the loop takes one step and goes on. -/
theorem loop_of_acc {stack : List Frame} (h : Acc expander.Follows (stack, state)) :
    expander.loop (stack, state) =
      match (expander.step stack).run state with
      | (.ok (.running next), state) => expander.loop (next, state)
      | (.ok (.finished paths), state) => (.ok paths, state)
      | (.error error, state) => (.error error, state) := by
  rw [loop, WellFounded.partialExtrinsicFix_eq_apply_of_acc h]
  split <;> simp only [*]

/-- A run cannot go on forever, whatever the registry answers. -/
theorem Runs.acc {length : Nat} {stack : List Frame} (run : Runs expander length stack count paths)
    (valid : state.Valid expander.graph) : Acc expander.Follows (stack, state) := by
  induction run generalizing state with
  | finished step =>
    obtain ⟨after, -, -, hstep⟩ := step state valid
    refine .intro _ fun next hnext => ?_
    rw [Follows] at hnext
    split at hstep
    · cases hstep.1.symm.trans hnext
    · cases hstep.symm.trans hnext
  | moved step run ih =>
    obtain ⟨middle, hmiddle, -, hstep⟩ := step state valid
    refine .intro _ fun next hnext => ?_
    rw [Follows] at hnext
    split at hstep
    · cases hstep.1.symm.trans hnext
      exact ih hmiddle
    · cases hstep.symm.trans hnext

/-- The loop gives the paths of the run if its forks fit under the limit, and fails there if not. -/
theorem Runs.loop_eq {length : Nat} {stack : List Frame}
    (run : Runs expander length stack count paths) (state : ExpansionState) (valid : state.Valid expander.graph) :
    ∃ after : ExpansionState, after.Valid expander.graph ∧ after.registry.limit = state.registry.limit ∧
      if state.registry.forks + count ≤ state.registry.limit.capacity then
        expander.loop (stack, state) = (.ok paths, after) ∧ after.registry.forks = state.registry.forks + count
      else expander.loop (stack, state) = (.error state.registry.limit.failure, after) := by
  have hacc := run.acc valid
  induction run generalizing state with
  | finished step =>
    obtain ⟨after, hafter, hlimit, hstep⟩ := step state valid
    refine ⟨after, hafter, hlimit, ?_⟩
    rw [loop_of_acc hacc]
    split at hstep
    · rw [if_pos ‹_›, hstep.1]
      exact ⟨rfl, hstep.2⟩
    · rw [if_neg ‹_›, hstep]
  | @moved stack next length first rest paths step run ih =>
    obtain ⟨middle, hmiddle, hlimit, hstep⟩ := step state valid
    rw [loop_of_acc hacc]
    split at hstep
    case isFalse hfull =>
      refine ⟨middle, hmiddle, hlimit, ?_⟩
      rw [if_neg (by omega), hstep]
    case isTrue hfits =>
      obtain ⟨hstep, hforks⟩ := hstep
      obtain ⟨after, hafter, hlimit', hloop⟩ := ih middle hmiddle (run.acc hmiddle)
      rw [hlimit, hforks, Nat.add_assoc] at hloop
      rw [hstep]
      exact ⟨after, hafter, hlimit'.trans hlimit, hloop⟩

theorem asks_expandPath (sound : expander.Sound) (path : CodePath) : Asks expander.graph (expander.expandPath path)
    (expander.forks [path.method] { path }) ((expander.expansions [path.method] { path }).map (·.path)) := by
  obtain ⟨length, hrun⟩ := exists_runs sound path
  exact hrun.loop_eq

end Expander

end ApexPaths
