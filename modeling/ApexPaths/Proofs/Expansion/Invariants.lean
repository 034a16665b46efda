import ApexPaths.Proofs.Expansion.Built

/-!
Invariants of expansion. What holds of a strand as it starts, and is kept by new metadata, by the mark of
an initialized class and by every splice, holds of all expansions.
-/

set_option autoImplicit false

namespace ApexPaths

open List

/-! ## Metadata -/

def Strand.withMetadata (strand : Strand) (metadata : PathMetadata) : Strand :=
  { strand with path := { strand.path with metadata } }

theorem Strand.withMetadata_self (strand : Strand) : strand.withMetadata strand.path.metadata = strand := by
  obtain ⟨⟨⟩, _⟩ := strand
  rfl

theorem exists_collapsedInto (strand : Strand) (name : String) :
    ∃ metadata, { strand with path := strand.path.collapsedInto name } = strand.withMetadata metadata ∧
      metadata.constraints = strand.path.metadata.constraints := by
  rw [CodePath.collapsedInto]
  split
  · exact ⟨strand.path.metadata, strand.withMetadata_self.symm, rfl⟩
  · exact ⟨_, rfl, rfl⟩

/-- What is kept by a merge was there before, or is the marked form of what was there. -/
theorem mem_of_mem_mergeKeyed {α : Type} {mark : α → α} {seen : List String} {items : List (Option String × α)} {a : α}
    (h : a ∈ mergeKeyed mark seen items) : ∃ item ∈ items, a = item.2 ∨ a = mark item.2 := by
  induction items generalizing seen with
  | nil => cases h
  | cons item rest ih =>
    have hlater : ∀ {seen : List String}, a ∈ mergeKeyed mark seen rest → ∃ other ∈ item :: rest, a = other.2 ∨
        a = mark other.2 := by
      intro seen hmem
      obtain ⟨other, hother, ha⟩ := ih hmem
      exact ⟨other, mem_cons_of_mem _ hother, ha⟩
    obtain ⟨_ | key, b⟩ := item
    · rcases mem_cons.mp h with rfl | h
      · exact ⟨_, mem_cons_self, .inl rfl⟩
      · exact hlater h
    · rw [mergeKeyed] at h
      split at h
      · exact hlater h
      · rcases mem_cons.mp h with rfl | h
        · refine ⟨_, mem_cons_self, ?_⟩
          split
          · exact .inr rfl
          · exact .inl rfl
        · exact hlater h

namespace Expander

variable {expander : Expander}

/-- A strand among the collapsed ones is one of the results, with the mark that others were dropped for it. -/
theorem exists_of_mem_collapse {results : List Strand} {strand : Strand} (h : strand ∈ expander.collapse results) :
    ∃ result ∈ results, ∃ metadata, strand = result.withMetadata metadata ∧
    metadata.constraints = result.path.metadata.constraints := by
  rw [collapse] at h
  generalize expander.options.collapsers = collapsers at h
  induction collapsers generalizing results with
  | nil => exact ⟨strand, h, strand.path.metadata, strand.withMetadata_self.symm, rfl⟩
  | cons collapser rest ih =>
    obtain ⟨merged, hmerged, metadata, rfl, hsame⟩ := ih h
    obtain ⟨item, hitem, hcase⟩ := mem_of_mem_mergeKeyed hmerged
    obtain ⟨result, hresult, rfl⟩ := mem_map.mp hitem
    refine ⟨result, hresult, metadata, ?_⟩
    rcases hcase with rfl | rfl
    · exact ⟨rfl, hsame⟩
    · obtain ⟨marked, hmarked, hconstraints⟩ := exists_collapsedInto result collapser.name
      have htwice : (result.withMetadata marked).withMetadata metadata = result.withMetadata metadata := rfl
      rw [← htwice, ← hmarked]
      exact ⟨rfl, (hsame.trans (congrArg (·.path.metadata.constraints) hmarked)).trans hconstraints⟩

variable (expander) in
def settled (strand : Strand) (vertex : PathVertex) : Strand :=
  strand.withMetadata (expander.annotated strand.path vertex).metadata

theorem eq_of_settle? {strand result : Strand} {vertex : PathVertex}
    (h : expander.settle? strand vertex = some result) : result = expander.settled strand vertex := by
  rw [settle?] at h
  split at h
  · cases h
  · exact (Option.some.inj h).symm

/-- What a step makes of a strand inside active methods. -/
inductive Takes (expander : Expander) (active : List VertexId) (strand : Strand) : Step → Strand → Prop where
  | settle {vertex : PathVertex} : expander.Takes active strand (.settle vertex) (expander.settled strand vertex)
  | skip {anchor : VertexId} {site : Site} (hskips : skips active strand site = true) :
    expander.Takes active strand (.site anchor site) strand
  | entering {anchor : VertexId} {site : Site} (hskips : skips active strand site = false)
    (hnone : expander.forwardPaths site.callee = []) : expander.Takes active strand (.site anchor site)
    (strand.entering site)
  | splice {anchor : VertexId} {site : Site} {path : CodePath} {sub : Strand} {metadata : PathMetadata}
    (hskips : skips active strand site = false) (hallows : expander.depthLimit.allows active.length = true)
    (hpath : path ∈ expander.forwardPaths site.callee)
    (hsub : sub ∈ expander.expansions (site.callee :: active) ⟨path, (strand.entering site).initialized⟩)
    (hlt : expander.idleCount (site.callee :: active) < expander.idleCount active)
    (hsame : metadata.constraints = sub.path.metadata.constraints) :
    expander.Takes active strand (.site anchor site) (strand.splice anchor site (sub.withMetadata metadata))

/-- By cases on the step and on what the expander finds there. -/
theorem takes_of_mem_take {active : List VertexId} {strand result : Strand} {step : Step}
    (h : result ∈ expander.take active strand step) : expander.Takes active strand step result := by
  cases step with
  | settle vertex =>
    rw [eq_of_settle? (Option.mem_toList.mp h)]
    exact .settle
  | site anchor site =>
    rw [take_site] at h
    split at h
    · rw [mem_singleton.mp h]
      exact .skip ‹_›
    rename_i hskips
    split at h
    · cases h
    rename_i hdeep
    split at h
    · rw [mem_singleton.mp h]
      exact .entering (Bool.not_eq_true _ ▸ hskips) ‹_›
    rename_i hnone
    obtain ⟨merged, hmerged, rfl⟩ := mem_map.mp h
    obtain ⟨sub, hsub, metadata, rfl, hsame⟩ := exists_of_mem_collapse hmerged
    obtain ⟨path, hpath, hsub⟩ := mem_flatMap.mp hsub
    exact .splice (by simpa using hskips) (by simpa using hdeep) hpath hsub (idleCount_lt hskips hnone) hsame

/-! ## Invariants -/

/-- A relation between the strand with which an expansion starts inside active methods, and a strand that it
has come to. -/
structure Invariant (expander : Expander) (holds : List VertexId → Strand → Strand → Prop) : Prop where
  start : ∀ active method path initialized, path ∈ expander.forwardPaths method →
    holds (method :: active) ⟨path, initialized⟩ ⟨path, initialized⟩
  metadata : ∀ active first strand metadata, holds active first strand →
    holds active first (strand.withMetadata metadata)
  entering : ∀ active first strand site, skips active strand site = false → holds active first strand →
    holds active first (strand.entering site)
  splice : ∀ active first strand anchor site path sub, skips active strand site = false →
    expander.depthLimit.allows active.length = true → path ∈ expander.forwardPaths site.callee →
    holds active first strand → holds (site.callee :: active) ⟨path, (strand.entering site).initialized⟩ sub →
    holds active first (strand.splice anchor site sub)

/-- By induction on the steps, inside the recursion over idle methods. -/
theorem Invariant.expansions {holds : List VertexId → Strand → Strand → Prop} (invariant : expander.Invariant holds)
    {active : List VertexId} {first : Strand} (h : holds active first first) :
    ∀ result ∈ expander.expansions active first, holds active first result := by
  induction hidle : expander.idleCount active using Nat.strongRecOn generalizing active first with
  | _ n nested =>
  rw [expansions_eq]
  refine follow_preserves (fun strand step _ hstrand result hresult => ?_) h
  cases takes_of_mem_take hresult with
  | settle => exact invariant.metadata _ _ _ _ hstrand
  | skip => exact hstrand
  | entering hskips => exact invariant.entering _ _ _ _ hskips hstrand
  | splice hskips hallows hpath hsub hlt =>
    have hholds := nested _ (hidle ▸ hlt) (invariant.start _ _ _ _ hpath) rfl _ hsub
    exact invariant.splice _ _ _ _ _ _ _ hskips hallows hpath hstrand (invariant.metadata _ _ _ _ hholds)

end Expander

end ApexPaths

/-!
## Courses

What an expansion has come to after some of its steps. The steps along a path are known before it is followed, so a
strand can be compared with the steps that were taken to it: what every step keeps holds after all of them.
-/

namespace ApexPaths.Expander

open List

variable {expander : Expander}

/-- All steps of a path. -/
def stepsOf (expander : Expander) (strand : Strand) : List Step :=
  expander.steps strand.path.method true strand.path.vertices

/-- A relation between the strand with which an expansion starts inside active methods, the steps that were taken,
and the strand that it has come to. Every step is one along the path of the first strand. -/
structure Course (expander : Expander) (holds : List VertexId → Strand → List Step → Strand → Prop) : Prop where
  start : ∀ active method path initialized, path ∈ expander.forwardPaths method →
    holds (method :: active) ⟨path, initialized⟩ [] ⟨path, initialized⟩
  metadata : ∀ active first done strand metadata, holds active first done strand →
    holds active first done (strand.withMetadata metadata)
  settle : ∀ active first done strand vertex, (done ++ [.settle vertex]) <+: expander.stepsOf first →
    holds active first done strand → holds active first (done ++ [.settle vertex]) strand
  skip : ∀ active first done strand anchor site, (done ++ [.site anchor site]) <+: expander.stepsOf first →
    skips active strand site = true → holds active first done strand →
    holds active first (done ++ [.site anchor site]) strand
  entering : ∀ active first done strand anchor site, (done ++ [.site anchor site]) <+: expander.stepsOf first →
    skips active strand site = false → expander.forwardPaths site.callee = [] → holds active first done strand →
    holds active first (done ++ [.site anchor site]) (strand.entering site)
  splice : ∀ active first done strand anchor site path sub, (done ++ [.site anchor site]) <+: expander.stepsOf first →
    skips active strand site = false → path ∈ expander.forwardPaths site.callee → holds active first done strand →
    holds (site.callee :: active) ⟨path, (strand.entering site).initialized⟩
      (expander.stepsOf ⟨path, (strand.entering site).initialized⟩) sub →
    holds active first (done ++ [.site anchor site]) (strand.splice anchor site sub)

/-- What holds of the steps taken so far holds of more steps after each of them. -/
theorem follow_through {α : Type} {take : α → Step → List α} {P : List Step → α → Prop} {steps done : List Step}
    (htake : ∀ before step after, steps = before ++ step :: after → ∀ strand, P (done ++ before) strand →
      ∀ result ∈ take strand step, P (done ++ before ++ [step]) result) {strand : α} (h : P done strand) :
    ∀ result ∈ follow take steps strand, P (done ++ steps) result := by
  induction steps generalizing done strand with
  | nil => simpa [follow] using h
  | cons step rest ih =>
    intro result hresult
    obtain ⟨next, hnext, hresult⟩ := mem_flatMap.mp hresult
    have hfirst : P (done ++ [step]) next := by
      have hstep := htake [] step rest rfl strand (by simpa using h) next hnext
      simpa using hstep
    have hlater : ∀ before later after, rest = before ++ later :: after → ∀ strand,
      P (done ++ [step] ++ before) strand → ∀ result ∈ take strand later,
      P (done ++ [step] ++ before ++ [later]) result := by
      intro before later after heq strand hstrand other hother
      have hstep := htake (step :: before) later after (by rw [heq]; rfl) strand (by simpa using hstrand) other hother
      simpa using hstep
    have hrest := ih hlater hfirst result hresult
    simpa using hrest

theorem Course.expansions {holds : List VertexId → Strand → List Step → Strand → Prop} (course : expander.Course holds)
    {active : List VertexId} {first : Strand} (h : holds active first [] first) :
    ∀ result ∈ expander.expansions active first, holds active first (expander.stepsOf first) result := by
  induction hidle : expander.idleCount active using Nat.strongRecOn generalizing active first with
  | _ n nested =>
  rw [expansions_eq]
  rw [← nil_append (expander.stepsOf first)]
  refine follow_through (P := fun done strand => holds active first done strand)
    (fun done step todo hsteps strand hstrand result hresult => ?_) h
  have hprefix : (done ++ [step]) <+: expander.stepsOf first := ⟨todo, by rw [stepsOf, hsteps, List.append_assoc]; rfl⟩
  rw [nil_append] at hstrand ⊢
  cases takes_of_mem_take hresult with
  | settle => exact course.metadata _ _ _ _ _ (course.settle _ _ _ _ _ hprefix hstrand)
  | skip hskips => exact course.skip _ _ _ _ _ _ hprefix hskips hstrand
  | entering hskips hnone => exact course.entering _ _ _ _ _ _ hprefix hskips hnone hstrand
  | splice hskips _ hpath hsub hlt =>
    have hholds := nested _ (hidle ▸ hlt) (course.start _ _ _ _ hpath) rfl _ hsub
    exact course.splice _ _ _ _ _ _ _ _ hprefix hskips hpath hstrand (course.metadata _ _ _ _ _ hholds)

section
variable {config : Settings} {sources : List (String × String)} {graph : CodeGraph}
    (h : Build.IsGraphOf config sources graph) {settings : Settings} {options : ExpansionOptions} {path : CodePath}
    {state : ExpansionState} (valid : state.Valid graph) {paths : List CodePath}
    (hrun : (((ofGraph graph settings options).expandPath path).run state).1 = .ok paths) {expanded : CodePath}
    (hexpanded : expanded ∈ paths)
include h valid hrun hexpanded

/-- A path that comes out of an expansion is the end of a strand that starts with the path that went in. -/
theorem exists_expansion : ∃ strand ∈ (ofGraph graph settings options).expansions [path.method] ⟨path, []⟩,
    strand.path = expanded := by
  have hresult := (asks_expandPath (sound_ofGraph h.isBuilt settings options) path).result_eq valid
  rw [hrun] at hresult
  obtain ⟨-, rfl⟩ := Registry.outcome_eq_ok hresult.symm
  exact mem_map.mp hexpanded

theorem exists_strand {method : VertexId} {forward : List CodePath}
    (hforward : Path.forward graph method = .ok forward) (hpath : path ∈ forward) :
    ∃ strand ∈ (ofGraph graph settings options).expansions [path.method] ⟨path, []⟩, strand.path = expanded ∧
      path ∈ (ofGraph graph settings options).forwardPaths path.method := by
  obtain ⟨strand, hstrand, hend⟩ := exists_expansion h valid hrun hexpanded
  refine ⟨strand, hstrand, hend, ?_⟩
  obtain ⟨vertices, rfl⟩ := (eq_of_forward hforward).2 path hpath
  rw [forwardPaths, show (ofGraph graph settings options).graph = graph from rfl, hforward]
  exact hpath

end

end ApexPaths.Expander
