import ApexPaths.Proofs.Graph.Change

/-!
The tree part of a graph. Parents have smaller numbers than their children, so the line from a vertex
up to its root is finite and the subtrees of two siblings share no vertex. Control flow and
inheritance leave the tree part as it is.
-/

namespace ApexPaths.CodeGraph
set_option autoImplicit false

open List

variable {v p top : Nat}

/-! ## Forests -/

/-- The tree edges form a forest: every child knows its parent, and parents come first. -/
structure IsForest (graph : CodeGraph) : Prop where
  parent_lt : ∀ {v p : Nat}, graph.parent? v = some p → p < v
  parent_of_mem : ∀ {v p : Nat}, v ∈ graph.children p → graph.parent? v = some p
  nodup_children : ∀ p : Nat, (graph.children p).Nodup

theorem lt_of_parent? {graph : CodeGraph} (h : graph.parent? v = some p) : v < graph.vertexCount := by
  refine Nat.lt_of_not_le fun hv => ?_
  have hnone : graph.vertex? v = none := Array.getElem?_eq_none hv
  simp [parent?, inNeighbors, hnone] at h

theorem children_of_vertexCount_le (graph : CodeGraph) (h : graph.vertexCount ≤ p) : graph.children p = [] := by
  have hnone : graph.vertex? p = none := Array.getElem?_eq_none h
  simp [children, outNeighbors, hnone]

theorem isForest_iff (graph : CodeGraph) : graph.IsForest ↔
    (∀ v ∈ graph.ids, ∀ p ∈ graph.parent? v, (p : Nat) < v) ∧
      ∀ p ∈ graph.ids, (∀ v ∈ graph.children p, graph.parent? v = some p) ∧ (graph.children p).Nodup := by
  constructor
  · intro forest
    exact ⟨fun v _ p hp => forest.parent_lt hp, fun p _ =>
      ⟨fun v hv => forest.parent_of_mem hv, forest.nodup_children p⟩⟩
  · rintro ⟨hparent, hchildren⟩
    have hids : ∀ {v : Nat}, v < graph.vertexCount → v ∈ graph.ids := mem_range.mpr
    refine ⟨fun {v p} hp => hparent v (hids (lt_of_parent? hp)) p hp, fun {v p} hv => ?_, fun p => ?_⟩
    · by_cases hp : p < graph.vertexCount
      · exact (hchildren p (hids hp)).1 v hv
      · rw [graph.children_of_vertexCount_le (Nat.not_lt.mp hp)] at hv
        exact absurd hv not_mem_nil
    · by_cases hp : p < graph.vertexCount
      · exact (hchildren p (hids hp)).2
      · rw [graph.children_of_vertexCount_le (Nat.not_lt.mp hp)]
        exact nodup_nil

instance (graph : CodeGraph) : Decidable graph.IsForest := decidable_of_iff' _ graph.isForest_iff

/-- A vertex with all that it is inside of, from the inside out. -/
def line (graph : CodeGraph) (v : VertexId) : List VertexId := v :: graph.ancestors v

section
variable {graph : CodeGraph} (forest : graph.IsForest)
include forest

theorem IsForest.lt_of_mem (h : v ∈ graph.children p) : p < v :=
  forest.parent_lt (forest.parent_of_mem h)

/-- A bound that is not below the vertex loses no ancestor. -/
theorem ancestorsWithin_congr (n m : Nat) (v : Nat) (hn : v ≤ n) (hm : v ≤ m) :
    graph.ancestorsWithin n v = graph.ancestorsWithin m v := by
  induction n generalizing m v with
  | zero =>
    have hv : v = 0 := Nat.le_zero.mp hn
    subst hv
    cases m with
    | zero => rfl
    | succ m =>
      rw [ancestorsWithin, ancestorsWithin]
      cases hp : graph.parent? 0 with
      | none => rfl
      | some p => exact absurd (forest.parent_lt hp) (Nat.not_lt_zero p)
  | succ n ih =>
    cases m with
    | zero =>
      have hv : v = 0 := Nat.le_zero.mp hm
      subst hv
      rw [ancestorsWithin, ancestorsWithin]
      cases hp : graph.parent? 0 with
      | none => rfl
      | some p => exact absurd (forest.parent_lt hp) (Nat.not_lt_zero p)
    | succ m =>
      rw [ancestorsWithin, ancestorsWithin]
      cases hp : graph.parent? v with
      | none => rfl
      | some p =>
        have hlt := forest.parent_lt hp
        exact congrArg (p :: ·) (ih m p (by omega) (by omega))

/-- The line of a vertex goes on from its parent. -/
theorem line_of_parent (hv : v < graph.vertexCount) (hp : graph.parent? v = some p) :
    graph.line v = v :: graph.line p := by
  have hlt := forest.parent_lt hp
  have h : graph.ancestors v = p :: graph.ancestors p := by
    obtain ⟨n, hn⟩ : ∃ n, graph.vertexCount = n + 1 := ⟨graph.vertexCount - 1, by omega⟩
    rw [ancestors, ancestors, hn, ancestorsWithin, hp]
    exact congrArg (p :: ·) (ancestorsWithin_congr forest n (n + 1) p (by omega) (by omega))
  rw [line, h, line]

theorem le_of_mem_ancestorsWithin (n : Nat) {u : Nat} (h : u ∈ graph.ancestorsWithin n v) : u < v := by
  induction n generalizing v with
  | zero => simp [ancestorsWithin] at h
  | succ n ih =>
    rw [ancestorsWithin] at h
    cases hp : graph.parent? v with
    | none => simp [hp] at h
    | some p =>
      have hlt := forest.parent_lt hp
      rw [hp] at h
      rcases mem_cons.mp h with rfl | hu
      · exact hlt
      · exact Nat.lt_trans (ih hu) hlt

theorem le_of_mem_line {u : Nat} (h : u ∈ graph.line v) : u ≤ v := by
  rcases mem_cons.mp h with rfl | hu
  · exact Nat.le_refl u
  · exact Nat.le_of_lt (le_of_mem_ancestorsWithin forest _ hu)

/-- Lines are linear: of two vertices on one line, one is on the line of the other. -/
theorem mem_line_or_mem_line (n : Nat) {u w : Nat} (hn : v ≤ n) (hv : v < graph.vertexCount)
    (hu : u ∈ graph.line v) (hw : w ∈ graph.line v) : u ∈ graph.line w ∨ w ∈ graph.line u := by
  induction n generalizing v with
  | zero =>
    have h1 := le_of_mem_line forest hu
    have h2 := le_of_mem_line forest hw
    have e : u = w := by omega
    exact .inl (e ▸ mem_cons_self)
  | succ n ih =>
    rcases mem_cons.mp hu with rfl | hu'
    · exact .inr hw
    rcases mem_cons.mp hw with rfl | hw'
    · exact .inl hu
    cases hp : graph.parent? v with
    | none =>
      rw [ancestors_of_no_parent hp] at hu'
      exact absurd hu' not_mem_nil
    | some p =>
      have hlt := forest.parent_lt hp
      have hline := line_of_parent forest hv hp
      rw [line, List.cons.injEq] at hline
      rw [hline.2] at hu' hw'
      exact ih (by omega) (by omega) hu' hw'

/-- Nothing lies below two siblings. -/
theorem not_mem_line_of_siblings {a b : Nat} (hne : a ≠ b) (ha : graph.parent? a = some p)
    (hb : graph.parent? b = some p) (hac : a < graph.vertexCount) (hbc : b < graph.vertexCount)
    (hv : v < graph.vertexCount) (h : a ∈ graph.line v) : b ∉ graph.line v := by
  intro hbv
  have hpa := forest.parent_lt ha
  have hpb := forest.parent_lt hb
  rcases mem_line_or_mem_line forest v (Nat.le_refl v) hv h hbv with hab | hba
  · rw [line_of_parent forest hbc hb] at hab
    rcases mem_cons.mp hab with rfl | hap
    · exact hne rfl
    · have := le_of_mem_line forest hap
      omega
  · rw [line_of_parent forest hac ha] at hba
    rcases mem_cons.mp hba with rfl | hbp
    · exact hne rfl
    · have := le_of_mem_line forest hbp
      omega

/-! ## Subtrees -/

omit forest in
/-- A vertex of the graph is inside another or is it. -/
def Below (graph : CodeGraph) (top v : VertexId) : Prop := v < graph.vertexCount ∧ top ∈ graph.line v

omit forest in
theorem Below.refl (h : v < graph.vertexCount) : graph.Below v v := ⟨h, mem_cons_self⟩

theorem Below.le (h : graph.Below top v) : top ≤ v := le_of_mem_line forest h.2

omit forest in
theorem Below.parent_of_ne (h : graph.Below top v) (hne : v ≠ top) : ∃ p, graph.parent? v = some p := by
  cases hp : graph.parent? v with
  | some p => exact ⟨p, rfl⟩
  | none =>
    have hline := h.2
    rw [line, ancestors_of_no_parent hp, mem_singleton] at hline
    exact absurd hline.symm hne

theorem Below.parent (h : graph.Below top v) (hne : v ≠ top) (hp : graph.parent? v = some p) :
    graph.Below top p := by
  obtain ⟨hv, hline⟩ := h
  rw [line_of_parent forest hv hp] at hline
  rcases mem_cons.mp hline with rfl | hline
  · exact absurd rfl hne
  · exact ⟨Nat.lt_trans (forest.parent_lt hp) hv, hline⟩

theorem Below.of_child {c : Nat} (hc : c ∈ graph.children p) (h : graph.Below c v) : graph.Below p v := by
  refine ⟨h.1, ?_⟩
  have hp := forest.parent_of_mem hc
  obtain ⟨n, hn⟩ : ∃ n, v ≤ n := ⟨v, Nat.le_refl v⟩
  obtain ⟨hv, hline⟩ := h
  induction n generalizing v with
  | zero =>
    have hle := le_of_mem_line forest hline
    have hlt := forest.parent_lt hp
    omega
  | succ n ih =>
    rcases mem_cons.mp hline with rfl | hup
    · rw [line_of_parent forest hv hp]
      exact mem_cons_of_mem _ mem_cons_self
    · cases hq : graph.parent? v with
      | none =>
        rw [ancestors_of_no_parent hq] at hup
        exact absurd hup not_mem_nil
      | some q =>
        have hlt := forest.parent_lt hq
        have hstep := line_of_parent forest hv hq
        have hup' : c ∈ graph.line q := by
          rw [line, List.cons.injEq] at hstep
          rwa [hstep.2] at hup
        rw [hstep]
        exact mem_cons_of_mem _ (ih (by omega) (Nat.lt_trans hlt hv) hup')

/-- The subtrees of siblings are disjoint, and the parent is in none of them. -/
theorem nodup_subtrees (parts : List (VertexId × List VertexId)) (hdistinct : (parts.map Prod.fst).Nodup)
    (hchild : ∀ part ∈ parts, part.1 ∈ graph.children p) (hbelow : ∀ part ∈ parts, ∀ v ∈ part.2, graph.Below part.1 v)
    (hnodup : ∀ part ∈ parts, part.2.Nodup) : (p :: parts.flatMap Prod.snd).Nodup := by
  rw [nodup_cons, List.Nodup, pairwise_flatMap]
  refine ⟨fun hp => ?_, hnodup, ?_⟩
  · obtain ⟨part, hpart, hv⟩ := mem_flatMap.mp hp
    have hle := (hbelow part hpart p hv).le forest
    have hlt := forest.lt_of_mem (hchild part hpart)
    omega
  · refine (pairwise_map.mp hdistinct).imp_of_mem ?_
    rintro a b ha hb hne v hva w hvb rfl
    have hpa := forest.parent_of_mem (hchild a ha)
    have hpb := forest.parent_of_mem (hchild b hb)
    have hbelowa := hbelow a ha v hva
    have hbelowb := hbelow b hb v hvb
    exact not_mem_line_of_siblings forest hne hpa hpb (lt_of_parent? hpa) (lt_of_parent? hpb) hbelowa.1 hbelowa.2
      hbelowb.2

end

/-! ## Open scopes -/

/-- A vertex and its ancestors up to and including `top`. -/
def upTo (graph : CodeGraph) (top v : VertexId) : List VertexId := (graph.line v).takeWhile (· ≠ top) ++ [top]

/-- The kind of scope that a vertex opens. -/
def scope? (graph : CodeGraph) (v : VertexId) : Option NodeKind := (graph.label? v).filter NodeKind.opensScope

/-- The kinds of the scopes that are open at a vertex, among those up to `top`, innermost first. -/
def openScopes (graph : CodeGraph) (top v : VertexId) : List NodeKind := (graph.upTo top v).filterMap graph.scope?

/-- The scopes that are open before a vertex is entered: its own one is not among them. -/
def scopesBefore (graph : CodeGraph) (top v : VertexId) : List NodeKind :=
  if (graph.scope? v).isSome then (graph.openScopes top v).tail else graph.openScopes top v

theorem openScopes_top (graph : CodeGraph) (top : VertexId) : graph.openScopes top top = (graph.scope? top).toList := by
  simp only [openScopes, upTo, line, ne_eq, not_true_eq_false, decide_false, Bool.false_eq_true, not_false_eq_true,
    takeWhile_cons_of_neg, nil_append, filterMap_cons, filterMap_nil]
  cases graph.scope? top <;> rfl

theorem scopesBefore_top (graph : CodeGraph) (top : VertexId) : graph.scopesBefore top top = [] := by
  rw [scopesBefore, openScopes_top]
  cases graph.scope? top <;> rfl

theorem openScopes_of_parent {graph : CodeGraph} (forest : graph.IsForest)
    (hv : v < graph.vertexCount) (hp : graph.parent? v = some p) (hne : v ≠ top) :
    graph.openScopes top v = (graph.scope? v).toList ++ graph.openScopes top p := by
  have h : graph.upTo top v = v :: graph.upTo top p := by
    rw [upTo, line_of_parent forest hv hp, takeWhile_cons_of_pos (by simpa using hne)]
    rfl
  rw [openScopes, h, filterMap_cons, openScopes]
  cases graph.scope? v <;> rfl

theorem scopesBefore_of_parent {graph : CodeGraph} (forest : graph.IsForest)
    (hv : v < graph.vertexCount) (hp : graph.parent? v = some p) (hne : v ≠ top) :
    graph.scopesBefore top v = graph.openScopes top p := by
  rw [scopesBefore, openScopes_of_parent forest hv hp hne]
  cases graph.scope? v <;> rfl

theorem openScopes_eq {graph : CodeGraph} (forest : graph.IsForest) (hv : v < graph.vertexCount) :
    v = top ∨ (∃ p, graph.parent? v = some p) →
      graph.openScopes top v = (graph.scope? v).toList ++ graph.scopesBefore top v := by
  intro h
  by_cases he : v = top
  · subst he
    rw [scopesBefore_top, openScopes_top, append_nil]
  · obtain ⟨p, hp⟩ := h.resolve_left he
    rw [scopesBefore_of_parent forest hv hp he, openScopes_of_parent forest hv hp he]

/-! ## Graphs with the same tree part -/

/-- The keys of the facts that are written after the tree: where scopes end, and unknown supertypes. -/
def isLateKey (key : Key) : Bool := key == .fact .endScopes || key == .fact .unresolvedSupertypes

/-- The second graph has the vertices, properties and tree edges of the first; other edges and late facts
may differ. -/
structure SameTree (graph graph' : CodeGraph) : Prop where
  vertexCount_eq : graph'.vertexCount = graph.vertexCount
  label?_eq : ∀ v, graph'.label? v = graph.label? v
  property?_eq : ∀ v key, isLateKey key = false → graph'.property? v key = graph.property? v key
  childEdges_eq : ∀ v, graph'.outNeighbors v .child = graph.outNeighbors v .child
  parentEdges_eq : ∀ v, graph'.inNeighbors v .child = graph.inNeighbors v .child

namespace SameTree

theorem refl (graph : CodeGraph) : SameTree graph graph :=
  ⟨rfl, fun _ => rfl, fun _ _ _ => rfl, fun _ => rfl, fun _ => rfl⟩

theorem trans {a b c : CodeGraph} (hab : SameTree a b) (hbc : SameTree b c) : SameTree a c where
  vertexCount_eq := hbc.vertexCount_eq.trans hab.vertexCount_eq
  label?_eq v := (hbc.label?_eq v).trans (hab.label?_eq v)
  property?_eq v key h := (hbc.property?_eq v key h).trans (hab.property?_eq v key h)
  childEdges_eq v := (hbc.childEdges_eq v).trans (hab.childEdges_eq v)
  parentEdges_eq v := (hbc.parentEdges_eq v).trans (hab.parentEdges_eq v)

theorem of_addEdge (graph : CodeGraph) (source target : VertexId) {label : EdgeLabel} (hl : label ≠ .child) :
    SameTree graph (graph.addEdge source target label) := by
  by_cases h : source < graph.vertexCount ∧ target < graph.vertexCount
  · refine ⟨by simp, by simp, by simp, fun v => ?_, fun v => ?_⟩
    · simp [outNeighbors_addEdge graph h, hl]
    · simp [inNeighbors_addEdge graph h, hl]
  · rw [addEdge, if_neg h]
    exact refl graph

theorem of_setProperty (graph : CodeGraph) (id : VertexId) {k : FactKey} (hk : isLateKey (.fact k) = true)
    (value : PropertyValue) : SameTree graph (graph.setProperty id (.fact k) value) := by
  refine ⟨by simp, by simp, fun v key hkey => ?_, by simp, by simp⟩
  have hne : Key.fact k ≠ key := fun e => by simp [e, hkey] at hk
  rw [property?, property?, vertex?_setProperty]
  cases graph.vertex? v with
  | none => rfl
  | some x => by_cases hv : v = id <;> simp [hv, PropertyMap.get?_assign_fact, hne]

variable {graph graph' : CodeGraph} (same : SameTree graph graph')
include same

theorem is_eq (v : VertexId) (label : NodeKind) : graph'.is v label = graph.is v label := by
  rw [CodeGraph.is, CodeGraph.is, same.label?_eq]

theorem flag_eq (v : VertexId) {key : Key} (h : isLateKey key = false) : graph'.flag v key = graph.flag v key := by
  rw [CodeGraph.flag_eq, CodeGraph.flag_eq, same.property?_eq v key h]

theorem text?_eq (v : VertexId) {key : Key} (h : isLateKey key = false) : graph'.text? v key = graph.text? v key := by
  rw [CodeGraph.text?_eq, CodeGraph.text?_eq, same.property?_eq v key h]

theorem childIndex_eq (v : VertexId) : graph'.childIndex v = graph.childIndex v := by
  rw [childIndex, childIndex, int?_eq, int?_eq, same.property?_eq v _ rfl]

theorem children_eq (v : VertexId) : graph'.children v = graph.children v := by
  have h : graph'.childIndex = graph.childIndex := funext same.childIndex_eq
  rw [children, children, same.childEdges_eq, h]

theorem parent?_eq (v : VertexId) : graph'.parent? v = graph.parent? v := by
  rw [parent?, parent?, same.parentEdges_eq]

theorem ancestorsWithin_eq (n : Nat) (v : VertexId) : graph'.ancestorsWithin n v = graph.ancestorsWithin n v := by
  induction n generalizing v with
  | zero => rfl
  | succ n ih =>
    rw [ancestorsWithin, ancestorsWithin, same.parent?_eq]
    cases graph.parent? v with
    | none => rfl
    | some p => exact congrArg (p :: ·) (ih p)

theorem line_eq (v : VertexId) : graph'.line v = graph.line v := by
  rw [line, line, ancestors, ancestors, same.vertexCount_eq, same.ancestorsWithin_eq]

theorem below_iff {top v : VertexId} : graph'.Below top v ↔ graph.Below top v := by
  rw [Below, Below, same.vertexCount_eq, same.line_eq]

theorem scope?_eq : graph'.scope? = graph.scope? := by
  funext v
  rw [scope?, scope?, same.label?_eq]

theorem openScopes_eq (top v : VertexId) : graph'.openScopes top v = graph.openScopes top v := by
  rw [openScopes, openScopes, upTo, upTo, same.line_eq, same.scope?_eq]

theorem scopesBefore_eq (top v : VertexId) : graph'.scopesBefore top v = graph.scopesBefore top v := by
  rw [scopesBefore, scopesBefore, same.openScopes_eq, same.scope?_eq]

theorem isForest (forest : graph.IsForest) : graph'.IsForest where
  parent_lt h := forest.parent_lt (by rwa [same.parent?_eq] at h)
  parent_of_mem h := by
    rw [same.parent?_eq]
    exact forest.parent_of_mem (by rwa [same.children_eq] at h)
  nodup_children p := by
    rw [same.children_eq]
    exact forest.nodup_children p

end SameTree

end ApexPaths.CodeGraph
