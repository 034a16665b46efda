import ApexPaths.Proofs.Expansion.Machine
import Mathlib.Data.Prod.Lex
import Mathlib.Logic.Hydra

/-!
Expansions end over every graph, whether or not they find what they need. A path under expansion is weighed by the
methods that are not active yet, the vertices left on it and the sites left at its vertex. A step takes one weight off
the stack and puts lighter ones in its place: a callee has fewer idle methods, and a path that waits for one is lighter
than before the site and heavier than after it.
-/

namespace ApexPaths
set_option autoImplicit false

open List

/-! ## Kept paths that belong to the graph -/

/-- If the kept paths belong to the graph they do so afterwards, and a result is as it should be. -/
def Ensures (graph : CodeGraph) {α : Type} (x : ExpandM α) (post : α → Prop) : Prop :=
  ∀ state : ExpansionState, state.cache.Holds graph →
    (x.run state).2.cache.Holds graph ∧ ∀ a, (x.run state).1 = .ok a → post a

namespace Ensures

variable {graph : CodeGraph} {α β : Type} {post : α → Prop} {after : β → Prop}

theorem pure {a : α} (h : post a) : Ensures graph (Pure.pure a) post := fun _ hcache =>
  ⟨hcache, fun _ ha => Except.ok.inj ha ▸ h⟩

theorem throw (error : EngineError) : Ensures graph (throw error : ExpandM α) post := fun _ hcache =>
  ⟨hcache, fun _ ha => by cases ha⟩

theorem bind {x : ExpandM α} {f : α → ExpandM β} (h : Ensures graph x post)
    (hf : ∀ a, post a → Ensures graph (f a) after) : Ensures graph (x >>= f) after := by
  intro state hcache
  obtain ⟨hkept, hpost⟩ := h state hcache
  rw [run_bind]
  cases hrun : x.run state with
  | mk result state' =>
    rw [hrun] at hkept hpost
    cases result with
    | error error => exact ⟨hkept, fun _ hb => by cases hb⟩
    | ok a => exact hf a (hpost a rfl) state' hkept

theorem imp {x : ExpandM α} {post' : α → Prop} (h : Ensures graph x post) (himp : ∀ a, post a → post' a) :
    Ensures graph x post' :=
  fun state hcache => ⟨(h state hcache).1, fun a ha => himp a ((h state hcache).2 a ha)⟩

theorem ignore {x : ExpandM α} (h : Ensures graph x post) : Ensures graph x fun _ => True := h.imp fun _ _ => trivial

theorem mapM {f : α → ExpandM β} (items : List α) (h : ∀ item ∈ items, Ensures graph (f item) fun _ => True) :
    Ensures graph (items.mapM f) fun _ => True := by
  induction items with
  | nil => exact pure trivial
  | cons item rest ih =>
    obtain ⟨hitem, hrest⟩ := forall_mem_cons.mp h
    rw [mapM_cons]
    exact hitem.bind fun _ _ => (ih hrest).bind fun _ _ => pure trivial

theorem flatMapM {f : α → ExpandM (List β)} (items : List α)
    (h : ∀ item ∈ items, Ensures graph (f item) fun _ => True) : Ensures graph (items.flatMapM f) fun _ => True := by
  have hloop : ∀ (items : List α) (found : List (List β)), (∀ item ∈ items, Ensures graph (f item) fun _ => True) →
      Ensures graph (List.flatMapM.loop f items found) fun _ => True := by
    intro items
    induction items with
    | nil => exact fun found _ => pure trivial
    | cons item rest ih =>
      intro found h
      obtain ⟨hitem, hrest⟩ := forall_mem_cons.mp h
      exact hitem.bind fun _ _ => ih _ hrest
  exact hloop items [] h

end Ensures

/-- A cache that tells the truth goes on to do so, and answers with forward paths. -/
theorem PathCache.Holds.fetch {graph : CodeGraph} {cache : PathCache} (h : cache.Holds graph) (method : VertexId) :
    PathCache.Holds graph (cache.fetch graph method).2 ∧
      ∀ paths, (cache.fetch graph method).1 = .ok paths → Path.forward graph method = .ok paths := by
  rw [PathCache.fetch]
  cases hcached : cache.get? method with
  | some found => exact ⟨h, fun paths hpaths => Except.ok.inj hpaths ▸ h _ (Expander.mem_of_get? hcached)⟩
  | none =>
    cases hforward : Path.forward graph method with
    | error error => exact ⟨h, fun _ hpaths => by cases hpaths⟩
    | ok found => exact ⟨forall_mem_append.mpr ⟨h, by simpa using hforward⟩, fun _ hpaths => hpaths⟩

namespace Expander

variable {expander : Expander}

/-! ## Effects -/

theorem ensures_pathsOf (method : VertexId) :
    Ensures expander.graph (expander.pathsOf method) fun paths => Path.forward expander.graph method = .ok paths :=
  fun _ hcache => hcache.fetch method

theorem ensures_countExpander : Ensures expander.graph countExpander fun _ => True :=
  fun _ hcache => ⟨hcache, fun _ _ => trivial⟩

theorem ensures_countForks (count : Nat) : Ensures expander.graph (countForks count) fun _ => True := by
  intro state hcache
  rw [run_countForks]
  cases state.registry.countForks count <;> exact ⟨hcache, fun _ _ => trivial⟩

/-- A callee is entered with its forward paths, and only if it is not active. -/
theorem ensures_plan (stack : List Frame) (strand : Strand) (site : Site) :
    Ensures expander.graph (expander.plan stack strand site) fun plan => ∀ paths, plan = .descend paths →
      site.callee ∉ methods stack ∧ Path.forward expander.graph site.callee = .ok paths := by
  rw [plan]
  split
  · exact .pure (by simp)
  rename_i hidle
  split
  · exact .pure (by simp)
  refine (ensures_pathsOf site.callee).bind fun found hfound => ?_
  split
  · exact .pure (by split <;> simp)
  · refine .pure fun paths hpaths => ⟨fun hactive => hidle ?_, by rwa [← Plan.descend.inj hpaths]⟩
    obtain ⟨frame, hframe, hmethod⟩ := mem_map.mp hactive
    exact Bool.or_eq_true_iff.mpr (.inl (any_eq_true.mpr ⟨frame, hframe, beq_iff_eq.mpr hmethod⟩))

/-! ## Weights -/

/-- A number of idle methods, of vertices left, and of moves left at the vertex; the first one counts most. -/
abbrev Weight := Nat ×ₗ Nat ×ₗ Nat

variable (expander)

/-- How many sites of the current vertex are still ahead. -/
def sitesLeft (part : Partial) : Nat :=
  (part.vertex?.elim 0 fun vertex =>
  (expander.sitesOf part.strand.path.method (part.cursor.vertex == 0) vertex.id).length) - part.cursor.site

/-- Each site counts for two moves: into its callee and past it. -/
def weightAt (level : Nat) (part : Partial) (moves : Nat) : Weight :=
  toLex (level, toLex (part.strand.path.vertices.length - part.cursor.vertex, moves))

def pendingWeight (level : Nat) (part : Partial) : Weight := weightAt level part (2 * expander.sitesLeft part)

/-- A path that waits has moved into the callee of its site, and is to move past it. -/
def waitingWeight (level : Nat) (part : Partial) : Weight := weightAt level part (2 * (expander.sitesLeft part - 1) + 1)

/-- The weights of the frames that wait for the one above them. -/
def weightsBelow : List Frame → List Weight
  | [] => []
  | frame :: below =>
    let level := expander.idleCount (methods (frame :: below))
    frame.waiting.toList.map (fun entry => expander.waitingWeight level entry.1) ++
      (frame.pending.map (expander.pendingWeight level) ++ weightsBelow below)

def weights : List Frame → List Weight
  | [] => []
  | frame :: below =>
    frame.pending.map (expander.pendingWeight (expander.idleCount (methods (frame :: below)))) ++
    expander.weightsBelow below

/-- The weights fall: some are replaced by any number of smaller ones. -/
def Lightens (next current : List Weight) : Prop :=
  Relation.CutExpand (· < ·) (next : Multiset Weight) (current : Multiset Weight)

variable {expander}

theorem lightens (lighter : List Weight) (heavy : Weight) (h : ∀ weight ∈ lighter, weight < heavy)
    (rest : List Weight) : Lightens (lighter ++ rest) (heavy :: rest) := by
  refine ⟨lighter, heavy, by simpa using h, ?_⟩
  rw [← Multiset.coe_singleton, Multiset.coe_add, Multiset.coe_add, Multiset.coe_eq_coe, cons_append]
  exact (perm_append_singleton heavy (lighter ++ rest)).trans (.cons heavy (perm_append_comm ..))

theorem weightAt_lt_of_level {level level' : Nat} (h : level < level') (part part' : Partial) (moves moves' : Nat) :
    weightAt level part moves < weightAt level' part' moves' := Prod.Lex.toLex_lt_toLex.mpr (.inl h)

theorem weightAt_lt_of_moves {moves moves' : Nat} (h : moves < moves') (level : Nat) {part part' : Partial}
    (hlength : part.strand.path.vertices = part'.strand.path.vertices)
    (hcursor : part.cursor.vertex = part'.cursor.vertex) :
    weightAt level part moves < weightAt level part' moves' := by
  rw [weightAt, weightAt, hlength, hcursor]
  exact Prod.Lex.toLex_lt_toLex.mpr (.inr ⟨rfl, Prod.Lex.toLex_lt_toLex.mpr (.inr ⟨rfl, h⟩)⟩)

/-! ## Moves of a path -/

section
variable {strand result : Strand} {cursor : Cursor} (level : Nat)

theorem sitesLeft_pastSite (keeps : strand.Keeps result) :
    expander.sitesLeft ⟨result, cursor.pastSite⟩ = expander.sitesLeft ⟨strand, cursor⟩ - 1 := by
  simp only [sitesLeft, Partial.vertex?, Cursor.pastSite, keeps.method_eq, keeps.vertices_eq]
  omega

theorem sitesLeft_pos {vertex : PathVertex} {site : Site} (hvertex : (Partial.mk strand cursor).vertex? = some vertex)
    (hsite : (expander.sitesOf strand.path.method (cursor.vertex == 0) vertex.id)[cursor.site]? = some site) :
    0 < expander.sitesLeft ⟨strand, cursor⟩ := by
  obtain ⟨hlt, -⟩ := List.getElem?_eq_some_iff.mp hsite
  rw [sitesLeft, hvertex]
  exact Nat.sub_pos_of_lt hlt

theorem pastSite_lt_waiting (keeps : strand.Keeps result) :
    expander.pendingWeight level ⟨result, cursor.pastSite⟩ < expander.waitingWeight level ⟨strand, cursor⟩ := by
  rw [pendingWeight, waitingWeight, sitesLeft_pastSite keeps]
  exact weightAt_lt_of_moves (by omega) level keeps.vertices_eq rfl

theorem waiting_lt_pending (hsites : 0 < expander.sitesLeft ⟨strand, cursor⟩) :
    expander.waitingWeight level ⟨strand, cursor⟩ < expander.pendingWeight level ⟨strand, cursor⟩ := by
  rw [pendingWeight, waitingWeight]
  exact weightAt_lt_of_moves (by omega) level rfl rfl

theorem pastVertex_lt {vertex : PathVertex} (hvertex : (Partial.mk strand cursor).vertex? = some vertex)
    (keeps : strand.Keeps result) : expander.pendingWeight level ⟨result, cursor.pastVertex⟩ <
    expander.pendingWeight level ⟨strand, cursor⟩ := by
  obtain ⟨hlt, -⟩ := List.getElem?_eq_some_iff.mp hvertex
  refine Prod.Lex.toLex_lt_toLex.mpr (.inr ⟨rfl, Prod.Lex.toLex_lt_toLex.mpr (.inl ?_)⟩)
  show result.path.vertices.length - (cursor.vertex + 1) < strand.path.vertices.length - cursor.vertex
  rw [keeps.vertices_eq]
  exact Nat.sub_lt_sub_left hlt (Nat.lt_succ_self _)

end

/-! ## Steps -/

theorem lightens_ahead (frame : Frame) (below : List Frame) {results : List Strand} {cursor : Cursor} {heavy : Weight}
    (h : ∀ result ∈ results, expander.pendingWeight (expander.idleCount (methods (frame :: below))) ⟨result, cursor⟩ <
    heavy) :
    Lightens (expander.weights (frame.ahead results cursor :: below)) (heavy :: expander.weights (frame :: below)) := by
  have hweights : expander.weights (frame.ahead results cursor :: below) =
      results.map (fun result => expander.pendingWeight (expander.idleCount (methods (frame :: below)))
      ⟨result, cursor⟩) ++ expander.weights (frame :: below) := by
    simp [weights, Frame.ahead, methods, Function.comp_def]
  rw [hweights]
  exact lightens _ _ (forall_mem_map.mpr h) _

/-- A step along a path puts lighter frames in its place. -/
theorem ensures_advance (frame : Frame) (below : List Frame) (part : Partial) :
    Ensures expander.graph (expander.advance frame below part) fun next => Lightens (expander.weights next)
      (expander.pendingWeight (expander.idleCount (methods (frame :: below))) part ::
      expander.weights (frame :: below)) := by
  obtain ⟨strand, cursor⟩ := part
  rw [advance]
  split
  · exact .pure (lightens [] _ (by simp) _)
  rename_i vertex hvertex
  split
  · refine .pure (lightens_ahead frame below fun result hresult => ?_)
    exact pastVertex_lt _ hvertex (keeps_of_settle? (Option.mem_toList.mp hresult))
  rename_i site hsite
  have hwaits := waiting_lt_pending (expander.idleCount (methods (frame :: below))) (sitesLeft_pos hvertex hsite)
  refine (ensures_plan (frame :: below) strand site).bind fun plan hplan => ?_
  cases plan with
  | skip =>
    refine .pure (lightens_ahead frame below fun result hresult => ?_)
    exact (pastSite_lt_waiting _ (mem_singleton.mp hresult ▸ ⟨rfl, rfl⟩)).trans hwaits
  | mark =>
    refine .pure (lightens_ahead frame below fun result hresult => ?_)
    exact (pastSite_lt_waiting _ (mem_singleton.mp hresult ▸ strand.keeps_entering site)).trans hwaits
  | drop => exact .pure (lightens [] _ (by simp) _)
  | descend paths =>
    refine ensures_countExpander.bind fun _ _ => .pure ?_
    obtain ⟨hidle, hforward⟩ := hplan paths rfl
    have hlower := idleCount_cons_lt (eq_of_forward hforward).1 hidle
    have hstack := lightens
      ((Frame.enter site.callee paths (strand.entering site).initialized).pending.map
          (expander.pendingWeight (expander.idleCount (site.callee :: methods (frame :: below)))) ++
        [expander.waitingWeight (expander.idleCount (methods (frame :: below))) ⟨strand, cursor⟩])
      (expander.pendingWeight (expander.idleCount (methods (frame :: below))) ⟨strand, cursor⟩) (by
        simp only [forall_mem_append, forall_mem_map, forall_mem_singleton]
        exact ⟨fun part _ => weightAt_lt_of_level hlower _ _ _ _, hwaits⟩) (expander.weights (frame :: below))
    rw [List.append_assoc] at hstack
    exact hstack

/-- A frame that is resumed has become lighter. -/
theorem ensures_resume (finished : List Strand) (frame : Frame) (below : List Frame) :
    Ensures expander.graph (expander.resume finished frame below) fun next =>
      Lightens (expander.weights next) (expander.weightsBelow (frame :: below)) := by
  rw [resume]
  split
  · exact .throw _
  rename_i part site hwaiting
  obtain ⟨strand, cursor⟩ := part
  have hbelow : expander.weightsBelow (frame :: below) =
    expander.waitingWeight (expander.idleCount (methods (frame :: below))) ⟨strand, cursor⟩ ::
    expander.weights (frame :: below) := by
    rw [weightsBelow, hwaiting]
    rfl
  rw [hbelow]
  split
  · exact .pure (lightens [] _ (by simp) _)
  rename_i results hresults
  refine (ensures_countForks _).bind fun _ _ => ?_
  split
  · exact .throw _
  rename_i anchor _
  refine .pure (lightens_ahead { frame with waiting := none } below (forall_mem_map.mpr fun sub _ => ?_))
  exact pastSite_lt_waiting _ (strand.keeps_splice sub anchor.id site)

/-- Every step makes the stack lighter. -/
theorem ensures_step (stack : List Frame) : Ensures expander.graph (expander.step stack) fun progress =>
    ∀ next, progress = .running next → Lightens (expander.weights next) (expander.weights stack) := by
  cases stack with
  | nil => exact .throw _
  | cons frame below =>
    obtain ⟨method, pending, done, waiting⟩ := frame
    cases pending with
    | cons part rest =>
      refine (ensures_advance { method, pending := rest, done, waiting } below part).bind fun next hnext => .pure ?_
      rintro _ ⟨⟩
      exact hnext
    | nil =>
      cases below with
      | nil => exact .pure fun _ h => by cases h
      | cons caller below =>
        refine (ensures_resume done.reverse caller below).bind fun next hnext => .pure ?_
        rintro _ ⟨⟩
        exact hnext

/-! ## Whole expansions -/

theorem acc_follows {stack : List Frame} {state : ExpansionState} (h : state.cache.Holds expander.graph) :
    Acc expander.Follows (stack, state) := by
  have hfounded : WellFounded (Relation.CutExpand (· < · : Weight → Weight → Prop)) :=
    WellFounded.cutExpand wellFounded_lt
  induction hweights : (expander.weights stack : Multiset Weight) using hfounded.induction generalizing stack state with
  | _ _ ih =>
    refine .intro _ fun next hnext => ?_
    obtain ⟨hkept, hlighter⟩ := ensures_step stack state h
    rw [Follows] at hnext
    rw [hnext] at hkept hlighter
    exact ih _ (hweights ▸ hlighter _ rfl next.1 rfl) hkept rfl

theorem holds_loop {stack : List Frame} {state : ExpansionState} (h : state.cache.Holds expander.graph) :
    (expander.loop (stack, state)).2.cache.Holds expander.graph := by
  have hacc : Acc expander.Follows (stack, state) := acc_follows h
  generalize hcurrent : (stack, state) = current at hacc
  induction hacc generalizing stack state with
  | intro current hprevious ih =>
    subst hcurrent
    obtain ⟨hkept, -⟩ := ensures_step stack state h
    rw [loop_of_acc (.intro _ hprevious)]
    rcases hrun : (expander.step stack).run state with ⟨error | next | paths, after⟩ <;> rw [hrun] at hkept
    · exact hkept
    · exact ih _ hrun hkept rfl
    · exact hkept

theorem ensures_expandMethod (method : VertexId) :
    Ensures expander.graph (expander.expandMethod method) fun _ => True :=
  (ensures_pathsOf method).bind fun paths _ => .flatMapM paths fun _ _ _ hcache =>
  ⟨holds_loop hcache, fun _ _ => trivial⟩

theorem ensures_expandMethods (methods : List VertexId) :
    Ensures expander.graph (expander.expandMethods methods) fun _ => True :=
  .mapM methods fun method _ => (ensures_expandMethod method).bind fun _ _ => .pure trivial

end Expander

end ApexPaths
