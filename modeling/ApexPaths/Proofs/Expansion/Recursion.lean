import ApexPaths.Expansion.Expander
import ApexPaths.Proofs.Graph.Change
import Mathlib.Algebra.GroupWithZero.Nat

/-!
Expansion by recursion, without frames and counters. A path is followed vertex by vertex and at each
vertex site by site. A site stands for the merged expansions of all forward paths of its callee, each
spliced in. The recursion ends since every callee is one more active method.
-/

namespace ApexPaths.Expander
set_option autoImplicit false

variable {method : VertexId} {path : CodePath} {active : List VertexId}

/-! ## Following a path -/

/-- One thing to do along a path: a site of a vertex, or the end of the vertex's sites. -/
inductive Step where
  | site (anchor : VertexId) (site : Site)
  | settle (vertex : PathVertex)

section
variable {α : Type} (take : α → Step → List α)

/-- Take steps one after the other, with every result of each step. -/
def follow : List Step → α → List α
  | [], strand => [strand]
  | step :: rest, strand => (take strand step).flatMap (follow rest)

/-- The sum of a count over all steps that are taken. -/
def tally (count : α → Step → Nat) : List Step → α → Nat
  | [], _ => 0
  | step :: rest, strand => count strand step + ((take strand step).map (tally count rest)).sum

variable {take}

theorem follow_preserves {P : α → Prop} {steps : List Step}
    (htake : ∀ strand step, step ∈ steps → P strand → ∀ result ∈ take strand step, P result) {strand : α}
    (h : P strand) :
    ∀ result ∈ follow take steps strand, P result := by
  induction steps generalizing strand with
  | nil => simpa [follow] using h
  | cons step rest ih =>
    intro result hresult
    obtain ⟨next, hnext, hresult⟩ := List.mem_flatMap.mp hresult
    exact ih (fun s t ht => htake s t (List.mem_cons_of_mem _ ht)) (htake strand step List.mem_cons_self h next hnext)
      result hresult

end

variable (expander : Expander)

/-- The steps along the vertices of a path of a method. -/
def steps (method : VertexId) (isFirst : Bool) : List PathVertex → List Step
  | [] => []
  | vertex :: rest =>
    (expander.sitesOf method isFirst vertex.id).map (.site vertex.id) ++ .settle vertex :: steps method false rest

/-! ## Callees -/

/-- The forward paths of a method; none where they cannot be enumerated. -/
def forwardPaths (method : VertexId) : List CodePath := (Path.forward expander.graph method).toOption.getD []

/-- A site with nothing to do: its callee is active, or its class is initialized. -/
def skips (active : List VertexId) (strand : Strand) (site : Site) : Bool :=
  active.contains site.callee || site.class?.any strand.isInitialized

/-- How many methods are not active. -/
def idleCount (active : List VertexId) : Nat := ((expander.graph.withLabel .method).filter (!active.contains ·)).length

variable {expander}

theorem eq_of_forward {graph : CodeGraph} {method : VertexId} {paths : List CodePath}
    (h : Path.forward graph method = .ok paths) : graph.is method .method = true ∧ ∀ path ∈ paths, ∃ vertices,
    path = { method, vertices } := by
  rw [Path.forward] at h
  split at h
  · refine ⟨‹_›, ?_⟩
    split at h
    · cases h
      simp
    · cases hways : Path.forwardFrom graph method (graph.vertexCount + 1) 0 _ with
      | error error =>
        rw [hways] at h
        cases h
      | ok ways =>
        rw [hways] at h
        cases h
        simp
  · cases h

section
variable (h : path ∈ expander.forwardPaths method)
include h

theorem forward_of_mem_forwardPaths :
    Path.forward expander.graph method = .ok (expander.forwardPaths method) := by
  rw [forwardPaths] at h ⊢
  cases hforward : Path.forward expander.graph method with
  | error error => simp [hforward, Except.toOption] at h
  | ok paths => rfl

theorem is_of_mem_forwardPaths :
    expander.graph.is method .method = true := (eq_of_forward (forward_of_mem_forwardPaths h)).1

theorem eq_of_mem_forwardPaths :
    ∃ vertices, path = { method, vertices } := (eq_of_forward (forward_of_mem_forwardPaths h)).2 path h

end

theorem idleCount_cons_lt {callee : VertexId} (hmethod : expander.graph.is callee .method = true)
    (hidle : callee ∉ active) : expander.idleCount (callee :: active) < expander.idleCount active := by
  have hfilter : (expander.graph.withLabel .method).filter (!(callee :: active).contains ·) =
      ((expander.graph.withLabel .method).filter (!active.contains ·)).filter (· != callee) := by
    rw [List.filter_filter]
    refine List.filter_congr fun id _ => ?_
    simp [bne, BEq.beq]
  rw [idleCount, idleCount, hfilter]
  refine List.length_filter_lt_length_iff_exists.mpr ⟨callee, ?_, by simp⟩
  exact List.mem_filter.mpr ⟨CodeGraph.mem_withLabel.mpr hmethod, by simpa using hidle⟩

/-- A callee leaves fewer methods idle. -/
theorem idleCount_lt {strand : Strand} {site : Site} (hskips : ¬skips active strand site = true)
    (hpaths : expander.forwardPaths site.callee ≠ []) : expander.idleCount (site.callee :: active) <
    expander.idleCount active := by
  obtain ⟨path, hpath⟩ := List.exists_mem_of_ne_nil _ hpaths
  refine idleCount_cons_lt (is_of_mem_forwardPaths hpath) fun hactive => hskips ?_
  simp [skips, hactive]

/-! ## Whole paths -/

variable (expander)

/-- The expansions of a strand inside the active methods, the innermost first. -/
def expansions (active : List VertexId) (strand : Strand) : List Strand :=
  follow (fun strand step => match step with
    | .settle vertex => (expander.settle? strand vertex).toList
    | .site anchor site =>
      if skips active strand site then [strand]
      else if !expander.depthLimit.allows active.length then []
      else if expander.forwardPaths site.callee = [] then [strand.entering site]
      else
        let results := (expander.forwardPaths site.callee).flatMap fun path =>
          expansions (site.callee :: active) ⟨path, (strand.entering site).initialized⟩
        (expander.collapse results).map (strand.splice anchor site))
    (expander.steps strand.path.method true strand.path.vertices) strand
termination_by expander.idleCount active
decreasing_by exact idleCount_lt ‹_› ‹_›

/-- The results of one step, given the expansions of strands inside more active methods. -/
def takeWith (expand : List VertexId → Strand → List Strand) (active : List VertexId) (strand : Strand) :
    Step → List Strand
  | .settle vertex => (expander.settle? strand vertex).toList
  | .site anchor site =>
    if skips active strand site then [strand]
    else if !expander.depthLimit.allows active.length then []
    else if expander.forwardPaths site.callee = [] then [strand.entering site]
    else
      let results := (expander.forwardPaths site.callee).flatMap fun path =>
        expand (site.callee :: active) ⟨path, (strand.entering site).initialized⟩
      (expander.collapse results).map (strand.splice anchor site)

def take : List VertexId → Strand → Step → List Strand := expander.takeWith expander.expansions

theorem expansions_eq (active : List VertexId) (strand : Strand) : expander.expansions active strand =
    follow (expander.take active) (expander.steps strand.path.method true strand.path.vertices) strand := by
  rw [expansions]
  rfl

/-- The expansions of all forward paths of the callee of a site. -/
def calleeResults (active : List VertexId) (strand : Strand) (site : Site) : List Strand :=
  (expander.forwardPaths site.callee).flatMap fun path =>
    expander.expansions (site.callee :: active) ⟨path, (strand.entering site).initialized⟩

/-- What happens at a site: it is skipped, dropped, entered in vain, or gives way to its results. -/
theorem take_site (active : List VertexId) (strand : Strand) (anchor : VertexId) (site : Site) :
    expander.take active strand (.site anchor site) =
      if skips active strand site then [strand]
      else if !expander.depthLimit.allows active.length then []
      else if expander.forwardPaths site.callee = [] then [strand.entering site]
      else (expander.collapse (expander.calleeResults active strand site)).map (strand.splice anchor site) := rfl

/-- The number of forks that the expansion of a strand asks for: at every site that is entered one less than
the results that are spliced in. -/
def forks (active : List VertexId) (strand : Strand) : Nat :=
  tally (expander.take active) (fun strand step => match step with
    | .settle _ => 0
    | .site _ site =>
      if skips active strand site then 0
      else if !expander.depthLimit.allows active.length then 0
      else if expander.forwardPaths site.callee = [] then 0
      else ((expander.forwardPaths site.callee).map fun path =>
          forks (site.callee :: active) ⟨path, (strand.entering site).initialized⟩).sum +
        ((expander.collapse (expander.calleeResults active strand site)).length - 1))
    (expander.steps strand.path.method true strand.path.vertices) strand
termination_by expander.idleCount active
decreasing_by exact idleCount_lt ‹_› ‹_›

/-- The forks that one step asks for, given those of strands inside more active methods. -/
def stepForksWith (expand : List VertexId → Strand → List Strand) (count : List VertexId → Strand → Nat)
    (active : List VertexId) (strand : Strand) : Step → Nat
  | .settle _ => 0
  | .site _ site =>
    if skips active strand site then 0
    else if !expander.depthLimit.allows active.length then 0
    else if expander.forwardPaths site.callee = [] then 0
    else
      let results := (expander.forwardPaths site.callee).flatMap fun path =>
        expand (site.callee :: active) ⟨path, (strand.entering site).initialized⟩
      ((expander.forwardPaths site.callee).map fun path =>
        count (site.callee :: active) ⟨path, (strand.entering site).initialized⟩).sum +
        ((expander.collapse results).length - 1)

def stepForks : List VertexId → Strand → Step → Nat := expander.stepForksWith expander.expansions expander.forks

theorem forks_eq (active : List VertexId) (strand : Strand) : expander.forks active strand =
    tally (expander.take active) (expander.stepForks active)
    (expander.steps strand.path.method true strand.path.vertices) strand := by
  rw [forks]
  rfl

/-- The forks that the expansions of the paths of a callee ask for. -/
def calleeForks (active : List VertexId) (strand : Strand) (site : Site) : Nat :=
  ((expander.forwardPaths site.callee).map fun path =>
    expander.forks (site.callee :: active) ⟨path, (strand.entering site).initialized⟩).sum

theorem stepForks_site (active : List VertexId) (strand : Strand) (anchor : VertexId) (site : Site) :
    expander.stepForks active strand (.site anchor site) =
      if skips active strand site then 0
      else if !expander.depthLimit.allows active.length then 0
      else if expander.forwardPaths site.callee = [] then 0
      else expander.calleeForks active strand site +
        ((expander.collapse (expander.calleeResults active strand site)).length - 1) := rfl

/-! ## Bounded recursion -/

/-- The expansions of a strand down to some depth of nesting. -/
def expansionsWithin : Nat → List VertexId → Strand → List Strand
  | 0, _, _ => []
  | n + 1, active, strand =>
    follow (expander.takeWith (expansionsWithin n) active)
    (expander.steps strand.path.method true strand.path.vertices) strand

/-- The forks of a strand down to some depth of nesting. -/
def forksWithin : Nat → List VertexId → Strand → Nat
  | 0, _, _ => 0
  | n + 1, active, strand =>
    tally (expander.takeWith (expander.expansionsWithin n) active)
      (expander.stepForksWith (expander.expansionsWithin n) (forksWithin n) active)
      (expander.steps strand.path.method true strand.path.vertices) strand

variable {expand expand' : List VertexId → Strand → List Strand}

variable {expander} in
theorem takeWith_congr {active : List VertexId}
    (h : ∀ callee, expander.idleCount (callee :: active) < expander.idleCount active →
    expand (callee :: active) = expand' (callee :: active)) :
    expander.takeWith expand active = expander.takeWith expand' active := by
  funext strand step
  cases step with
  | settle vertex => rfl
  | site anchor site =>
    rw [takeWith, takeWith]
    split
    · rfl
    split
    · rfl
    split
    · rfl
    simp only [h _ (idleCount_lt ‹_› ‹_›)]

variable {expander} in
theorem stepForksWith_congr {count count' : List VertexId → Strand → Nat}
    {active : List VertexId} (h : ∀ callee, expander.idleCount (callee :: active) < expander.idleCount active →
      expand (callee :: active) = expand' (callee :: active) ∧ count (callee :: active) = count' (callee :: active)) :
    expander.stepForksWith expand count active = expander.stepForksWith expand' count' active := by
  funext strand step
  cases step with
  | settle vertex => rfl
  | site anchor site =>
    rw [stepForksWith, stepForksWith]
    split
    · rfl
    split
    · rfl
    split
    · rfl
    simp only [h _ (idleCount_lt ‹_› ‹_›)]

theorem expansionsWithin_eq {n : Nat} (h : expander.idleCount active < n) :
    expander.expansionsWithin n active = expander.expansions active := by
  induction n generalizing active with
  | zero => cases h
  | succ n ih =>
    funext strand
    rw [expansionsWithin, expansions_eq, take, takeWith_congr fun callee hlt =>
      ih (Nat.lt_of_lt_of_le hlt (Nat.le_of_lt_succ h))]

theorem forksWithin_eq {n : Nat} (h : expander.idleCount active < n) :
    expander.forksWithin n active = expander.forks active := by
  induction n generalizing active with
  | zero => cases h
  | succ n ih =>
    have hbelow : ∀ callee, expander.idleCount (callee :: active) < expander.idleCount active →
        expander.idleCount (callee :: active) < n := fun callee hlt => Nat.lt_of_lt_of_le hlt (Nat.le_of_lt_succ h)
    funext strand
    rw [forksWithin, forks_eq, take, stepForks,
      takeWith_congr fun callee hlt => expander.expansionsWithin_eq (hbelow callee hlt),
      stepForksWith_congr fun callee hlt => ⟨expander.expansionsWithin_eq (hbelow callee hlt), ih (hbelow callee hlt)⟩]

end ApexPaths.Expander
