import ApexPaths.Proofs.Path.Route
import ApexPaths.Proofs.Walk.Outline

/-!
The blocks that are open along a route. Before a vertex is entered the blocks are those of the scopes around
it, and each of them holds what the vertices passed so far declare directly under its scope, in the order in
which they were passed.
-/

namespace ApexPaths
set_option autoImplicit false

open List

/-! ## Scopes around a vertex -/

namespace CodeGraph

def opens (graph : CodeGraph) (v : VertexId) : Bool := (graph.scope? v).isSome

/-- The vertices that open the scopes at a vertex, among those up to `top`, innermost first. -/
def scopeLine (graph : CodeGraph) (top v : VertexId) : List VertexId := (graph.upTo top v).filter graph.opens

/-- The vertices that open the scopes before a vertex is entered. -/
def scopeLineBefore (graph : CodeGraph) (top v : VertexId) : List VertexId :=
  if graph.opens v then (graph.scopeLine top v).tail else graph.scopeLine top v

/-- The clause of a statement binds a variable itself: a `catch`, or a `when` with a type. -/
def isBindingClause (graph : CodeGraph) (v : VertexId) : Bool :=
  graph.is v .catchBlockStatement || graph.is v .typeWhenBlock

/-- The vertex in whose scope a declaration binds its variable. -/
def home? (graph : CodeGraph) (v : VertexId) : Option VertexId :=
  if graph.declares v then graph.parent? v else if graph.isBindingClause v then some v else none

section
variable {graph : CodeGraph}

theorem labelOf_eq {v : VertexId} {label : NodeKind} (h : graph.label? v = some label) : graph.labelOf v = label := by
  rw [labelOf, h, Option.getD_some]

theorem exists_label {v : Nat} (hv : v < graph.vertexCount) : ∃ label, graph.label? v = some label := by
  rw [label?, vertex?, Array.getElem?_eq_getElem hv]
  exact ⟨_, rfl⟩

theorem upTo_top (top : VertexId) : graph.upTo top top = [top] := by
  rw [upTo, line, takeWhile_cons_of_neg (by simp)]
  rfl

theorem upTo_of_parent (forest : graph.IsForest) {top v p : Nat} (hv : v < graph.vertexCount)
    (hp : graph.parent? v = some p) (hne : v ≠ top) : graph.upTo top v = v :: graph.upTo top p := by
  rw [upTo, line_of_parent forest hv hp, takeWhile_cons_of_pos (by simpa using hne)]
  rfl

theorem scopeLine_eq (forest : graph.IsForest) {top v : Nat} (h : graph.Below top v) :
    graph.scopeLine top v = if graph.opens v then v :: graph.scopeLineBefore top v
    else graph.scopeLineBefore top v := by
  have hhead : ∃ rest, graph.upTo top v = v :: rest := by
    by_cases hv : v = top
    · subst hv
      exact ⟨[], upTo_top v⟩
    · obtain ⟨p, hp⟩ := h.parent_of_ne hv
      exact ⟨_, upTo_of_parent forest h.1 hp hv⟩
  obtain ⟨rest, hrest⟩ := hhead
  rw [scopeLineBefore, scopeLine, hrest]
  by_cases hs : graph.opens v = true
  · rw [if_pos hs, if_pos hs, filter_cons_of_pos hs, tail_cons]
  · rw [if_neg hs, if_neg hs]

theorem scopeLineBefore_of_parent (forest : graph.IsForest) {top v p : Nat} (hv : v < graph.vertexCount)
    (hp : graph.parent? v = some p) (hne : v ≠ top) : graph.scopeLineBefore top v = graph.scopeLine top p := by
  rw [scopeLineBefore, scopeLine, upTo_of_parent forest hv hp hne]
  by_cases hs : graph.opens v = true
  · rw [if_pos hs, filter_cons_of_pos hs, tail_cons]
    rfl
  · rw [if_neg hs, filter_cons_of_neg hs]
    rfl

theorem scopeLineBefore_top (top : VertexId) : graph.scopeLineBefore top top = [] := by
  rw [scopeLineBefore, scopeLine, upTo_top]
  by_cases hs : graph.opens top = true
  · rw [if_pos hs, filter_cons_of_pos hs]
    rfl
  · rw [if_neg hs, filter_cons_of_neg hs]
    rfl

/-- The kinds of the open scopes are the labels of the vertices that open them. -/
theorem openScopes_eq_map (top v : VertexId) : graph.openScopes top v = (graph.scopeLine top v).map graph.labelOf := by
  rw [openScopes, scopeLine]
  induction graph.upTo top v with
  | nil => rfl
  | cons s rest ih =>
    cases hs : graph.scope? s with
    | none => rw [filterMap_cons_none hs, filter_cons_of_neg (by simp [opens, hs]), ih]
    | some kind =>
      have hlabel : graph.label? s = some kind := (Option.filter_eq_some_iff.mp hs).1
      rw [filterMap_cons_some hs, filter_cons_of_pos (by simp [opens, hs]), map_cons, labelOf_eq hlabel, ih]

theorem length_scopesBefore (top v : VertexId) :
    (graph.scopesBefore top v).length = (graph.scopeLineBefore top v).length := by
  rw [scopesBefore, scopeLineBefore, openScopes_eq_map, opens]
  split <;> simp

theorem mem_scopeLine {top v s : Nat} (forest : graph.IsForest) (h : graph.Below top v)
    (hs : s ∈ graph.scopeLine top v) : s ∈ graph.line v ∧ graph.Below top s ∧ graph.opens s = true := by
  obtain ⟨hmem, hscope⟩ := mem_filter.mp hs
  obtain ⟨n, hn⟩ : ∃ n, v ≤ n := ⟨v, Nat.le_refl v⟩
  refine ⟨?_, ?_, hscope⟩
  · rcases mem_append.mp hmem with hmem | hmem
    · exact (List.takeWhile_prefix _).subset hmem
    · rw [mem_singleton.mp hmem]
      exact h.2
  · clear hs
    induction n generalizing v with
    | zero =>
      obtain rfl : v = 0 := Nat.le_zero.mp hn
      obtain rfl : top = 0 := Nat.le_zero.mp (h.le forest)
      rw [upTo_top, mem_singleton] at hmem
      rwa [hmem]
    | succ n ih =>
      by_cases hv : v = top
      · subst hv
        rw [upTo_top, mem_singleton] at hmem
        rwa [hmem]
      · obtain ⟨p, hp⟩ := h.parent_of_ne hv
        rw [upTo_of_parent forest h.1 hp hv] at hmem
        rcases mem_cons.mp hmem with rfl | hmem
        · exact h
        · have hlt := forest.parent_lt hp
          exact ih (h.parent forest hv hp) hmem (by omega)

theorem scopeLine_suffix (forest : graph.IsForest) {top v p : Nat} (hv : graph.Below top v) (hp : p ∈ graph.line v)
    (hbelow : graph.Below top p) : graph.scopeLine top p <:+ graph.scopeLine top v := by
  induction v using Nat.strongRecOn with
  | ind v ih =>
    by_cases he : p = v
    · exact he ▸ suffix_refl _
    rcases line_eq_cases forest hv.1 with ⟨hline, -⟩ | ⟨q, hq, hlt, hline⟩
    · rw [hline, mem_singleton] at hp
      exact absurd hp he
    · rw [hline] at hp
      have hup := (mem_cons.mp hp).resolve_left he
      have hne : v ≠ top := by
        rintro rfl
        have h1 := le_of_mem_line forest hup
        have h2 := hbelow.le forest
        exact absurd (Nat.lt_of_le_of_lt (Nat.le_trans h2 h1) hlt) (Nat.lt_irrefl _)
      have hsuffix := ih q hlt (hv.parent forest hne hq) hup
      refine hsuffix.trans ?_
      rw [scopeLine_eq forest hv, scopeLineBefore_of_parent forest hv.1 hq hne]
      split
      · exact suffix_cons _ _
      · exact suffix_refl _

theorem nodup_scopeLine (forest : graph.IsForest) {top v : Nat} (h : graph.Below top v) :
    (graph.scopeLine top v).Nodup := by
  induction v using Nat.strongRecOn with
  | ind v ih =>
    have hbefore : (graph.scopeLineBefore top v).Nodup ∧ ∀ s : Nat, s ∈ graph.scopeLineBefore top v → s < v := by
      by_cases hv : v = top
      · subst hv
        rw [scopeLineBefore_top]
        exact ⟨nodup_nil, by simp⟩
      · obtain ⟨p, hp⟩ := h.parent_of_ne hv
        have hbelow := h.parent forest hv hp
        have hlt := forest.parent_lt hp
        rw [scopeLineBefore_of_parent forest h.1 hp hv]
        refine ⟨ih p hlt hbelow, fun s hs => ?_⟩
        have := le_of_mem_line forest (mem_scopeLine forest hbelow hs).1
        omega
    rw [scopeLine_eq forest h]
    split
    · exact nodup_cons.mpr ⟨fun hmem => Nat.lt_irrefl v (hbefore.2 v hmem), hbefore.1⟩
    · exact hbefore.1

theorem exists_scopeLine_of_home? (forest : graph.IsForest) (places : graph.DeclaresInPlace) {top v s : Nat}
    (hlabel : graph.label? top = some .blockStatement) (h : graph.Below top v) (hchild : v ≠ top →
    ∃ p, v ∈ graph.children p) (hhome : graph.home? v = some s) :
    ∃ rest, graph.scopeLine top v = s :: rest := by
  rw [home?] at hhome
  by_cases hdeclares : graph.declares v = true
  · rw [if_pos hdeclares] at hhome
    have hv := graph.is_iff.mp hdeclares
    have hne : v ≠ top := by
      rintro rfl
      rw [hlabel] at hv
      cases hv
    have hbelow := h.parent forest hne hhome
    obtain ⟨p, hp⟩ := hchild hne
    obtain rfl : p = s := Option.some.inj ((forest.parent_of_mem hp).symm.trans hhome)
    have hscope : graph.opens p = true := places.scope?_isSome hp hdeclares
    rw [scopeLine_eq forest h, if_neg (by simp [opens, scope?, hv, NodeKind.opensScope]),
      scopeLineBefore_of_parent forest h.1 hhome hne, scopeLine_eq forest hbelow, if_pos hscope]
    exact ⟨_, rfl⟩
  · rw [if_neg hdeclares] at hhome
    by_cases hclause : graph.isBindingClause v = true
    · rw [if_pos hclause] at hhome
      obtain rfl := Option.some.inj hhome
      have hscope : graph.opens v = true := by
        rcases Bool.or_eq_true_iff.mp hclause with hv | hv <;>
          simp [opens, scope?, graph.is_iff.mp hv, NodeKind.opensScope]
      rw [scopeLine_eq forest h, if_pos hscope]
      exact ⟨_, rfl⟩
    · rw [if_neg hclause] at hhome
      cases hhome

end

end CodeGraph
/-! ## What was passed -/

namespace Route

open CodeGraph

variable {graph : CodeGraph} {body : VertexId} {ids before after : List VertexId} {v : VertexId}

theorem mem (h : ids = before ++ v :: after) : v ∈ ids := by
  rw [h]
  exact mem_append_right _ mem_cons_self

/-- A vertex of a route is the body, or it lies under an ancestor of the vertex before it. -/
theorem first_or_follows (route : Route graph body ids) (h : ids = before ++ v :: after) :
    before = [] ∧ v = body ∨ ∃ earlier u, before = earlier ++ [u] ∧ ids = earlier ++ u :: v :: after ∧
    graph.Follows u v := by
  rcases eq_nil_or_concat before with rfl | ⟨earlier, u, rfl⟩
  · have hhead := route.head?_eq
    rw [h] at hhead
    exact .inl ⟨rfl, Option.some.inj hhead⟩
  · have hids : ids = earlier ++ u :: v :: after := by simpa using h
    have hfollows := route.follows
    rw [hids, isChain_append] at hfollows
    exact .inr ⟨earlier, u, concat_eq_append, hids, (isChain_cons_cons.mp hfollows.2.1).1⟩

theorem exists_parent (route : Route graph body ids) (hv : v ∈ ids) (hne : v ≠ body) : ∃ p, v ∈ graph.children p := by
  obtain ⟨before, after, h⟩ := append_of_mem hv
  rcases route.first_or_follows h with ⟨-, rfl⟩ | ⟨_, u, -, -, p, -, hchild, -⟩
  · exact absurd rfl hne
  · exact ⟨p, hchild⟩

/-- What encloses a vertex of a route inside the body was passed before it. -/
theorem mem_of_mem_line (forest : graph.IsForest) (route : Route graph body ids)
    (h : ids = before ++ v :: after) {u : Nat} (hu : u ∈ graph.line v) (hbelow : graph.Below body u) : u = v ∨
    u ∈ before := by
  induction before using List.reverseRecOn generalizing v after with
  | nil =>
    rcases route.first_or_follows h with ⟨-, rfl⟩ | ⟨earlier, w, hnil, -⟩
    · exact .inl (Nat.le_antisymm (le_of_mem_line forest hu) (hbelow.le forest))
    · simp at hnil
  | append_singleton earlier w ih =>
    rcases route.first_or_follows h with ⟨hnil, -⟩ | ⟨_, _, heq, hids, p, hp, hchild, -⟩
    · simp at hnil
    obtain ⟨rfl, hw⟩ := append_inj' heq rfl
    obtain rfl := (List.cons.inj hw).1
    have hparent := forest.parent_of_mem hchild
    rw [line_of_parent forest (route.below v (mem h)).1 hparent] at hu
    rcases mem_cons.mp hu with rfl | hup
    · exact .inl rfl
    · have hw := route.below w (mem hids)
      have huw := mem_line_trans forest hw.1 hup hp
      refine .inr ?_
      rcases ih hids huw with rfl | hmem
      · exact mem_append_right _ mem_cons_self
      · exact mem_append_left _ hmem

theorem not_mem_line (forest : graph.IsForest) (route : Route graph body ids) (h : ids = before ++ v :: after) {u : Nat}
    (hu : u ∈ before) : v ∉ graph.line u := by
  intro hv
  obtain ⟨earlier, later, rfl⟩ := append_of_mem hu
  have hids : ids = earlier ++ u :: (later ++ v :: after) := by simpa using h
  have hnodup := route.nodup
  rw [h] at hnodup
  have hdisjoint := (nodup_append.mp hnodup).2.2
  rcases route.mem_of_mem_line forest hids hv (route.below v (mem h)) with rfl | hmem
  · exact hdisjoint v (mem_append_right _ mem_cons_self) v mem_cons_self rfl
  · exact hdisjoint v (mem_append_left _ hmem) v mem_cons_self rfl

/-- The scopes that do not end at a vertex are those before the next one. -/
theorem drop_scopeLine (forest : graph.IsForest) (route : Route graph body ids) {w : VertexId}
    (h : ids = before ++ v :: w :: after) : (graph.scopeLine body v).drop (graph.endScopes v).length =
    graph.scopeLineBefore body w := by
  have hv := route.below v (mem h)
  have hw : graph.Below body w := route.below w (by simp [h])
  have hfollows := route.follows
  have hleaves := route.leaves
  rw [h, isChain_append] at hfollows hleaves
  obtain ⟨p, hp, hchild, -⟩ := (isChain_cons_cons.mp hfollows.2.1).1
  have hlength := congrArg List.length (isChain_cons_cons.mp hleaves.2.1).1
  rw [length_scopesBefore, openScopes_eq_map, length_drop, length_map] at hlength
  have hne : w ≠ body := by
    rintro rfl
    have hhead := route.head?_eq
    have hnodup := route.nodup
    rw [h] at hhead hnodup
    rcases before with _ | ⟨u, before⟩
    · cases hhead
      simp at hnodup
    · cases hhead
      simp at hnodup
  have hparent := forest.parent_of_mem hchild
  have hbefore := scopeLineBefore_of_parent forest hw.1 hparent hne
  rw [hbefore] at hlength ⊢
  -- Both are ends of one list, and equally long.
  have hsuffix := scopeLine_suffix forest hv hp (hw.parent forest hne hparent)
  obtain ⟨inner, hinner⟩ := hsuffix
  have hle := congrArg List.length hinner
  rw [length_append] at hle
  have hends := route.ends v (mem h)
  rw [openScopes_eq_map, length_map] at hends
  rw [← hinner, drop_left' (by omega)]

end Route

/-! ## Declared variables -/

def bindAll (vars : VariableOutline) (entries : List (String × String)) : VariableOutline :=
  entries.foldl (fun vars entry => assign (Text.lower entry.1) (TypeName.canonical entry.2) vars) vars

theorem bindAll_append (vars : VariableOutline) (first second : List (String × String)) :
    bindAll vars (first ++ second) = bindAll (bindAll vars first) second := foldl_append

theorem FrameOutline.declareAll_cons (parameters vars : VariableOutline) (kind : NodeKind)
    (blocks : List (NodeKind × VariableOutline)) (entries : List (String × String)) :
    FrameOutline.declareAll ⟨parameters, (kind, vars) :: blocks⟩ entries =
      ⟨parameters, (kind, bindAll vars entries) :: blocks⟩ := by
  induction entries generalizing vars with
  | nil => rfl
  | cons entry rest ih => exact ih (assign (Text.lower entry.1) (TypeName.canonical entry.2) vars)

namespace Walker

open CodeGraph

variable {σ : Type} (walker : Walker σ)

/-- The names that a vertex declares, with their types. -/
def declared (v : VertexId) : List (String × String) :=
  match walker.graph.labelOf v with
  | .variableDeclarationStatements => (walker.declaredVariables v).map Prod.snd
  | .typeWhenBlock | .catchBlockStatement => (walker.graph.name? v).toList.map (·, walker.program.typeOfDeclaration v)
  | _ => []

/-- What the block of a scope holds when these vertices were passed. -/
def contents (passed : List VertexId) (scope : VertexId) : VariableOutline :=
  bindAll [] ((passed.filter fun u => walker.graph.home? u == some scope).flatMap walker.declared)

/-- The blocks of scopes when these vertices were passed. -/
def blocksOf (passed scopes : List VertexId) : List (NodeKind × VariableOutline) :=
  scopes.map fun scope => (walker.graph.labelOf scope, walker.contents passed scope)

/-- The outline after a vertex opened its scope. -/
def entering (outline : FrameOutline) (v : VertexId) : FrameOutline :=
  if (walker.graph.labelOf v).opensScope then outline.push (walker.graph.labelOf v) else outline

/-- The outline after a vertex: its scope opened, its variables declared and what it ends closed. -/
def passing (outline : FrameOutline) (v : VertexId) : FrameOutline :=
  ((walker.entering outline v).declareAll (walker.declared v)).pop (walker.graph.endScopes v).length

theorem contents_append (passed : List VertexId) (v scope : VertexId) : walker.contents (passed ++ [v]) scope =
    if walker.graph.home? v = some scope then bindAll (walker.contents passed scope) (walker.declared v)
    else walker.contents passed scope := by
  rw [contents, contents, filter_append, flatMap_append, bindAll_append]
  by_cases h : walker.graph.home? v = some scope
  · rw [if_pos h, filter_cons_of_pos (by simp [h])]
    simp
  · rw [if_neg h, filter_cons_of_neg (by simp [h])]
    rfl

theorem declared_eq_nil {v : VertexId} (hv : v < walker.graph.vertexCount) (h : walker.graph.declares v = false)
    (hclause : walker.graph.isBindingClause v = false) : walker.declared v = [] := by
  obtain ⟨label, hlabel⟩ := exists_label hv
  rw [declares] at h
  rw [isBindingClause] at hclause
  simp only [CodeGraph.is, hlabel] at h hclause
  rw [declared, labelOf_eq hlabel]
  cases label <;> simp_all

section
variable {walker} {body : VertexId} {ids before after : List VertexId} {v : VertexId}
  (placed : Build.WellPlaced walker.graph) (route : Route walker.graph body ids) (h : ids = before ++ v :: after)
include placed route h

/-- Entering a vertex opens the scope that begins there. -/
theorem entering_blocksOf (parameters : VariableOutline) :
    walker.entering ⟨parameters, walker.blocksOf before (walker.graph.scopeLineBefore body v)⟩ v =
      ⟨parameters, walker.blocksOf before (walker.graph.scopeLine body v)⟩ := by
  have hbelow := route.below v (Route.mem h)
  obtain ⟨label, hlabel⟩ := exists_label hbelow.1
  have hopens : walker.graph.opens v = label.opensScope := by
    rw [opens, scope?, hlabel]
    by_cases ho : label.opensScope = true <;> simp [Option.filter_some, ho]
  rw [entering, labelOf_eq hlabel, scopeLine_eq placed.forest hbelow, hopens]
  by_cases ho : label.opensScope = true
  · rw [if_pos ho, if_pos ho, FrameOutline.push, blocksOf, blocksOf, map_cons, labelOf_eq hlabel]
    -- Nothing was declared in the new scope, for nothing inside it was passed.
    have hempty : walker.contents before v = [] := by
      have hnone : (before.filter fun u => walker.graph.home? u == some v) = [] := by
        refine filter_eq_nil_iff.mpr fun u hu hhome => ?_
        have hmem : u ∈ ids := by
          rw [h]
          exact mem_append_left _ hu
        have hnot := route.not_mem_line placed.forest h hu
        have hhome : walker.graph.home? u = some v := by simpa using hhome
        rw [home?] at hhome
        split at hhome
        · rw [line_of_parent placed.forest (route.below u hmem).1 hhome] at hnot
          exact hnot (mem_cons_of_mem _ mem_cons_self)
        · split at hhome
          · cases hhome
            exact hnot mem_cons_self
          · cases hhome
      rw [contents, hnone]
      rfl
    rw [hempty]
  · rw [if_neg ho, if_neg ho]

/-- The declarations of a vertex bind in the innermost block. -/
theorem declareAll_blocksOf (parameters : VariableOutline) :
    FrameOutline.declareAll ⟨parameters, walker.blocksOf before (walker.graph.scopeLine body v)⟩ (walker.declared v) =
      ⟨parameters, walker.blocksOf (before ++ [v]) (walker.graph.scopeLine body v)⟩ := by
  have hbelow := route.below v (Route.mem h)
  cases hhome : walker.graph.home? v with
  | none =>
    have hnone : walker.declared v = [] := by
      rw [home?] at hhome
      by_cases hdeclares : walker.graph.declares v = true
      · rw [if_pos hdeclares] at hhome
        have hne : v ≠ body := by
          rintro rfl
          exact absurd route.isBlock (by simp [walker.graph.is_iff.mp hdeclares])
        obtain ⟨p, hp⟩ := route.exists_parent (Route.mem h) hne
        rw [placed.forest.parent_of_mem hp] at hhome
        cases hhome
      · rw [if_neg hdeclares] at hhome
        by_cases hclause : walker.graph.isBindingClause v = true
        · rw [if_pos hclause] at hhome
          cases hhome
        · exact walker.declared_eq_nil hbelow.1 (by simpa using hdeclares) (by simpa using hclause)
    have hsame : ∀ scope, walker.contents (before ++ [v]) scope = walker.contents before scope := by
      intro scope
      rw [walker.contents_append, if_neg (by simp [hhome])]
    rw [hnone, blocksOf, blocksOf]
    simp only [hsame]
    rfl
  | some scope =>
    obtain ⟨rest, hrest⟩ := exists_scopeLine_of_home? placed.forest placed.places route.isBlock hbelow
      (route.exists_parent (Route.mem h)) hhome
    have hnodup := nodup_scopeLine placed.forest hbelow
    rw [hrest] at hnodup ⊢
    have hothers : ∀ other ∈ rest, walker.contents (before ++ [v]) other = walker.contents before other := by
      intro other hother
      rw [walker.contents_append, if_neg ?_]
      rw [hhome]
      rintro heq
      cases heq
      exact (nodup_cons.mp hnodup).1 hother
    rw [blocksOf, blocksOf, map_cons, map_cons, FrameOutline.declareAll_cons, walker.contents_append, if_pos hhome]
    congr 2
    exact map_congr_left fun other hother => by rw [hothers other hother]

end

/-- Along a route the blocks before a vertex are those of the scopes around it. -/
theorem foldl_passing_of_route {body : VertexId} {ids before after : List VertexId} {v : VertexId}
    (placed : Build.WellPlaced walker.graph) (route : Route walker.graph body ids) (h : ids = before ++ v :: after)
    (parameters : VariableOutline) : before.foldl walker.passing ⟨parameters, []⟩ =
      ⟨parameters, walker.blocksOf before (walker.graph.scopeLineBefore body v)⟩ := by
  induction before using List.reverseRecOn generalizing v after with
  | nil =>
    rcases route.first_or_follows h with ⟨-, rfl⟩ | ⟨earlier, w, hnil, -⟩
    · rw [scopeLineBefore_top]
      rfl
    · simp at hnil
  | append_singleton earlier u ih =>
    have hids : ids = earlier ++ u :: v :: after := by simpa using h
    rw [foldl_append, ih hids, foldl_cons, foldl_nil, passing, entering_blocksOf placed route hids,
      declareAll_blocksOf placed route hids, FrameOutline.pop, ← route.drop_scopeLine placed.forest hids, blocksOf,
      blocksOf,
      map_drop]

theorem foldl_passing_route {body : VertexId} {ids : List VertexId} (placed : Build.WellPlaced walker.graph)
    (route : Route walker.graph body ids) (parameters : VariableOutline) :
    ids.foldl walker.passing ⟨parameters, []⟩ = ⟨parameters, []⟩ := by
  rcases eq_nil_or_concat ids with rfl | ⟨before, v, rfl⟩
  · rfl
  · have h : before.concat v = before ++ v :: [] := concat_eq_append
    have hcloses := route.closes v (by simp)
    have hends := congrArg List.length hcloses
    rw [openScopes_eq_map, length_map] at hends
    rw [h, foldl_append, walker.foldl_passing_of_route placed route h, foldl_cons, foldl_nil, passing,
      entering_blocksOf placed route h, declareAll_blocksOf placed route h, FrameOutline.pop, drop_of_length_le]
    rw [blocksOf, length_map, hends]

end Walker

end ApexPaths
