import ApexPaths.Proofs.Expansion.Invariants
import ApexPaths.Proofs.Path.Attached
import ApexPaths.Proofs.Path.Route

/-!
What is attached to an expanded path. A call is attached for every evaluated expression that runs a method which has a
path and is not active, in the order of evaluation; a static initializer belongs to a vertex of the path or to none.
The same holds of every path that is attached, at any depth.
-/

namespace ApexPaths
set_option autoImplicit false

open List Expander

variable {site : VertexId} {sub : CodePath} {method : VertexId} {vertices : List PathVertex} {v : VertexId}

/-! ## Attachments -/

namespace CodePath

/-- The attached calls, each with its vertex, in the order of attachment. -/
def calls (path : CodePath) : List (VertexId × VertexId) :=
  path.attachments.filterMap fun
    | .invocation anchor site => some (anchor, site)
    | .staticInit _ => none

/-- The numbers of the attached static initializers in the order of attachment. -/
def initNumbers (path : CodePath) : List Nat :=
  path.attachments.filterMap fun
    | .invocation .. => none
    | .staticInit index => some index

theorem mem_keys_insertByKey {α : Type} {key other : Nat} {value : α} {entries : List (Nat × α)} :
    other ∈ (insertByKey key value entries).map Prod.fst ↔ other = key ∨ other ∈ entries.map Prod.fst := by
  induction entries with
  | nil => simp [insertByKey]
  | cons entry rest ih =>
    obtain ⟨k, v⟩ := entry
    rw [insertByKey]
    split
    · simp
    split
    · rename_i hkey
      subst hkey
      simp
    · rw [map_cons, mem_cons, ih, map_cons, mem_cons]
      exact or_left_comm

theorem isSome_invokedPath? {path : CodePath} :
    (path.invokedPath? site).isSome = true ↔ site ∈ path.invocations.map Prod.fst := by
  rw [invokedPath?, Option.isSome_map, List.find?_isSome]
  simp

theorem mem_invocations_of_invokedPath? {path : CodePath} (h : path.invokedPath? site = some sub) :
    (site, sub) ∈ path.invocations := by
  obtain ⟨⟨other, sub⟩, hfind, rfl⟩ := Option.map_eq_some_iff.mp h
  obtain rfl : other = site := by simpa using List.find?_some hfind
  exact mem_of_find?_eq_some hfind

theorem perm_flatMap_filter {α κ : Type} [BEq κ] [LawfulBEq κ] (key : α → κ) (keys : List κ) (hnodup : keys.Nodup)
    {items : List α} (h : ∀ item ∈ items, key item ∈ keys) :
    (keys.flatMap fun k => items.filter (key · == k)).Perm items := by
  induction keys generalizing items with
  | nil =>
    rw [eq_nil_iff_forall_not_mem.mpr fun item hitem => not_mem_nil (h item hitem)]
    exact .refl _
  | cons k rest ih =>
    obtain ⟨hk, hrest⟩ := nodup_cons.mp hnodup
    have hothers : (rest.flatMap fun other => items.filter (key · == other)) =
        rest.flatMap fun other => (items.filter fun item => !(key item == k)).filter (key · == other) := by
      refine flatMap_congr fun other hother => ?_
      rw [filter_filter]
      refine filter_congr fun item _ => ?_
      by_cases hitem : key item = other
      · have hne : key item ≠ k := fun heq => hk (heq ▸ hitem ▸ hother)
        have hother : other ≠ k := fun heq => hk (heq ▸ hother)
        simp [hitem, hother]
      · simp [hitem]
    rw [flatMap_cons, hothers]
    refine ((ih hrest fun item hitem => ?_).append_left _).trans (filter_append_perm ..)
    obtain ⟨hmem, hne⟩ := mem_filter.mp hitem
    exact (mem_cons.mp (h item hmem)).resolve_left (by simpa using hne)

end CodePath

namespace Expander

variable (expander : Expander)

/-- An expression runs a method that has a path and is not active. -/
def enters (active : List VertexId) (expr : VertexId) : Bool :=
  (expander.program.runMethod? expr).any fun callee => !active.contains callee &&
  !(expander.forwardPaths callee).isEmpty

/-- The call that a step attaches a path to, if it attaches any. -/
def callOf (active : List VertexId) : Step → Option (VertexId × VertexId)
  | .site anchor (.call expr callee) =>
    if !active.contains callee && !(expander.forwardPaths callee).isEmpty then some (anchor, expr) else none
  | .site _ (.staticInit ..) | .settle _ => none

/-- The evaluated expressions of a vertex for which a call is attached, operands before operations. -/
def enteredAt (active : List VertexId) (vertex : VertexId) : List VertexId :=
  if expander.options.followCalls then (expander.graph.evaluatedExpressions vertex).filter (expander.enters active)
    else []

end Expander

/-- A path that differs from a forward path of its method only by what is attached to it, as it is where some
methods are active. -/
inductive CodePath.Spliced (expander : Expander) : CodePath → Prop where
  | intro {path : CodePath} {active : List VertexId}
    (forward : { method := path.method, vertices := path.vertices } ∈ expander.forwardPaths path.method)
    (calls : path.calls = (expander.steps path.method true path.vertices).filterMap (expander.callOf active))
    (invoked : ∀ entry ∈ path.invocations, ∃ anchor, .site anchor (.call entry.1 entry.2.method) ∈
    expander.steps path.method true path.vertices)
    (keys : ∀ site, site ∈ path.invocations.map Prod.fst ↔ site ∈ path.calls.map Prod.snd)
    (numbers : path.initNumbers = List.range path.staticInits.length)
    (anchors : ∀ init ∈ path.staticInits, ∀ v ∈ init.2.1, ∃ site,
    .site v site ∈ expander.steps path.method true path.vertices)
    (attached : ∀ sub ∈ path.attached, Spliced expander sub) : Spliced expander path

namespace Expander

variable {expander : Expander}

/-- What is attached to a strand after some steps from a strand without attachments. -/
structure Attaches (expander : Expander) (active : List VertexId) (first : Strand) (done : List Step)
    (strand : Strand) : Prop where
  method : strand.path.method = first.path.method
  vertices : strand.path.vertices = first.path.vertices
  calls : strand.path.calls = done.filterMap (expander.callOf active)
  invoked : ∀ entry ∈ strand.path.invocations, ∃ anchor, .site anchor (.call entry.1 entry.2.method) ∈ done
  keys : ∀ site, site ∈ strand.path.invocations.map Prod.fst ↔ site ∈ strand.path.calls.map Prod.snd
  numbers : strand.path.initNumbers = List.range strand.path.staticInits.length
  anchors : ∀ init ∈ strand.path.staticInits, ∀ v ∈ init.2.1, ∃ site, .site v site ∈ done
  attached : ∀ sub ∈ strand.path.attached, sub.Spliced expander

theorem filterMap_append_one {active : List VertexId} (done : List Step) (step : Step) :
    (done ++ [step]).filterMap (expander.callOf active) = done.filterMap (expander.callOf active) ++
    (expander.callOf active step).toList := by
  rw [filterMap_append, filterMap_cons]
  cases expander.callOf active step <;> rfl

theorem callOf_call {active : List VertexId} {strand : Strand} {expr callee : VertexId} (anchor : VertexId)
    (hskips : skips active strand (.call expr callee) = false) (hforward : expander.forwardPaths callee ≠ []) :
    expander.callOf active (.site anchor (.call expr callee)) = some (anchor, expr) := by
  have hidle : active.contains callee = false := (Bool.or_eq_false_iff.mp hskips).1
  refine if_pos ?_
  rw [hidle, isEmpty_eq_false_iff.mpr hforward]
  rfl

namespace Attaches

variable {active : List VertexId} {first strand : Strand} {done : List Step}

theorem pass (h : expander.Attaches active first done strand) {step : Step}
    (hstep : expander.callOf active step = none) {other : Strand} (hpath : other.path = strand.path) :
    expander.Attaches active first (done ++ [step]) other := by
  obtain ⟨path, initialized⟩ := other
  obtain rfl : path = strand.path := hpath
  refine ⟨h.method, h.vertices, ?_, fun entry hentry => ?_, h.keys, h.numbers, fun init hinit v hv => ?_, h.attached⟩
  · rw [filterMap_append_one, hstep, Option.toList_none, append_nil]
    exact h.calls
  · obtain ⟨anchor, hanchor⟩ := h.invoked entry hentry
    exact ⟨anchor, mem_append_left _ hanchor⟩
  · obtain ⟨site, hsite⟩ := h.anchors init hinit v hv
    exact ⟨site, mem_append_left _ hsite⟩

/-- A splice attaches one more call at its anchor. -/
theorem splice (h : expander.Attaches active first done strand) {anchor : VertexId} {site : Site} {path : CodePath}
    {sub : Strand} (hskips : skips active strand site = false) (hpath : path ∈ expander.forwardPaths site.callee)
    (hmethod : sub.path.method = site.callee) (hsub : sub.path.Spliced expander) :
    expander.Attaches active first (done ++ [.site anchor site]) (strand.splice anchor site sub) := by
  cases site with
  | call expr callee =>
    have hcall := callOf_call anchor hskips (ne_nil_of_mem hpath)
    have hcalls : (strand.path.withInvocation anchor expr sub.path).calls = strand.path.calls ++ [(anchor, expr)] := by
      rw [CodePath.calls, CodePath.withInvocation, filterMap_append]
      rfl
    have hnumbers : (strand.path.withInvocation anchor expr sub.path).initNumbers = strand.path.initNumbers := by
      rw [CodePath.initNumbers, CodePath.withInvocation, filterMap_append]
      exact append_nil _
    refine ⟨h.method, h.vertices, ?_, fun entry hentry => ?_, fun site => ?_, hnumbers.trans h.numbers,
      fun init hinit v hv => ?_, fun other hother => ?_⟩
    · rw [filterMap_append_one, hcall, Option.toList_some, ← h.calls]
      exact hcalls
    · obtain ⟨kept, hkept, hperm⟩ := CodePath.exists_insertByKey expr sub.path strand.path.invocations
      rcases mem_cons.mp (hperm.mem_iff.mp hentry) with rfl | hold
      · exact ⟨anchor, mem_append_right _ (by rw [hmethod]; exact mem_cons_self)⟩
      · obtain ⟨anchor, hanchor⟩ := h.invoked entry (hkept.mem hold)
        exact ⟨anchor, mem_append_left _ hanchor⟩
    · show site ∈ (CodePath.insertByKey expr sub.path strand.path.invocations).map Prod.fst ↔
        site ∈ (strand.path.withInvocation anchor expr sub.path).calls.map Prod.snd
      rw [CodePath.mem_keys_insertByKey, h.keys, hcalls, map_append, mem_append]
      simp [or_comm]
    · obtain ⟨site, hsite⟩ := h.anchors init hinit v hv
      exact ⟨site, mem_append_left _ hsite⟩
    · rcases CodePath.mem_attached_withInvocation hother with rfl | hold
      · exact hsub
      · exact h.attached other hold
  | staticInit expression class_ invoker =>
    have hcalls : (strand.path.withStaticInit class_ (expression.map fun _ => anchor) sub.path).calls =
        strand.path.calls := by
      rw [CodePath.calls, CodePath.withStaticInit, filterMap_append]
      exact append_nil _
    have hnumbers : (strand.path.withStaticInit class_ (expression.map fun _ => anchor) sub.path).initNumbers =
        strand.path.initNumbers ++ [strand.path.staticInits.length] := by
      rw [CodePath.initNumbers, CodePath.withStaticInit, filterMap_append]
      rfl
    refine ⟨h.method, h.vertices, ?_, fun entry hentry => ?_, fun site => ?_, ?_, fun init hinit v hv => ?_,
      fun other hother => ?_⟩
    · rw [filterMap_append_one, show expander.callOf active (.site anchor (.staticInit expression class_ invoker)) =
        none from rfl, Option.toList_none, append_nil, ← h.calls]
      exact hcalls
    · obtain ⟨at_, hat⟩ := h.invoked entry hentry
      exact ⟨at_, mem_append_left _ hat⟩
    · show site ∈ strand.path.invocations.map Prod.fst ↔
        site ∈ (strand.path.withStaticInit class_ (expression.map fun _ => anchor) sub.path).calls.map Prod.snd
      rw [hcalls]
      exact h.keys site
    · show (strand.path.withStaticInit class_ (expression.map fun _ => anchor) sub.path).initNumbers =
        List.range (strand.path.staticInits ++ [_]).length
      rw [hnumbers, h.numbers, length_append, length_singleton, range_succ]
    · rcases mem_append.mp hinit with hold | hnew
      · obtain ⟨site, hsite⟩ := h.anchors init hold v hv
        exact ⟨site, mem_append_left _ hsite⟩
      · rw [mem_singleton.mp hnew] at hv
        obtain ⟨expr, -, rfl⟩ := Option.map_eq_some_iff.mp hv
        exact ⟨_, mem_append_right _ mem_cons_self⟩
    · rcases CodePath.mem_attached_withStaticInit hother with rfl | hold
      · exact hsub
      · exact h.attached other hold

theorem spliced (h : expander.Attaches active first (expander.stepsOf first) strand)
    (hforward : { method := first.path.method, vertices := first.path.vertices } ∈
    expander.forwardPaths first.path.method) :
    strand.path.Spliced expander := by
  have hcalls := h.calls
  have hinvoked := h.invoked
  have hanchors := h.anchors
  rw [stepsOf, ← h.method, ← h.vertices] at hcalls hinvoked hanchors
  rw [← h.method, ← h.vertices] at hforward
  exact .intro hforward hcalls hinvoked h.keys h.numbers hanchors h.attached

end Attaches

theorem attaches_nil (active : List VertexId) (method : VertexId) (vertices : List PathVertex)
    (initialized : List String) : expander.Attaches active ⟨{ method, vertices }, initialized⟩ []
    ⟨{ method, vertices }, initialized⟩ where
  method := rfl
  vertices := rfl
  calls := rfl
  invoked _ h := absurd h not_mem_nil
  keys _ := Iff.rfl
  numbers := rfl
  anchors _ h := absurd h not_mem_nil
  attached _ h := absurd h not_mem_nil

/-- What a strand has attached agrees with the steps that were taken. -/
theorem course_attaches : expander.Course expander.Attaches where
  start active method path initialized hpath := by
    obtain ⟨vertices, rfl⟩ := eq_of_mem_forwardPaths hpath
    exact attaches_nil ..
  metadata active first done strand metadata h :=
    ⟨h.method, h.vertices, h.calls, h.invoked, h.keys, h.numbers, h.anchors, h.attached⟩
  settle active first done strand vertex _ h := h.pass rfl rfl
  skip active first done strand anchor site _ hskips h := by
    refine h.pass ?_ rfl
    cases site with
    | call expr callee =>
      have hactive : active.contains callee = true := by simpa [skips, Site.class?, Site.callee] using hskips
      refine if_neg ?_
      rw [hactive]
      simp
    | staticInit => rfl
  entering active first done strand anchor site _ _ hnone h := by
    cases site with
    | call expr callee =>
      have hcall : expander.callOf active (.site anchor (.call expr callee)) = none := by
        refine if_neg ?_
        rw [show expander.forwardPaths callee = [] from hnone]
        simp
      exact h.pass hcall rfl
    | staticInit => exact h.pass rfl rfl
  splice active first done strand anchor site path sub _ hskips hpath h hsub := by
    obtain ⟨vertices, rfl⟩ := eq_of_mem_forwardPaths hpath
    exact h.splice hskips hpath hsub.method (hsub.spliced hpath)

/-- A path that comes out of an expansion has its calls attached in order. -/
theorem spliced_of_expandPath {config : Settings} {sources : List (String × String)} {graph : CodeGraph}
    (h : Build.IsGraphOf config sources graph) {settings : Settings} {options : ExpansionOptions}
    {forward : List CodePath} (hforward : Path.forward graph method = .ok forward) {path : CodePath}
    (hpath : path ∈ forward)
    {state : ExpansionState} (valid : state.Valid graph) {paths : List CodePath}
    (hrun : (((ofGraph graph settings options).expandPath path).run state).1 = .ok paths) :
    ∀ expanded ∈ paths, expanded.Spliced (ofGraph graph settings options) := by
  intro expanded hexpanded
  obtain ⟨strand, hstrand, rfl, hmem⟩ := exists_strand h valid hrun hexpanded hforward hpath
  obtain ⟨vertices, rfl⟩ := (eq_of_forward hforward).2 path hpath
  exact (course_attaches.expansions (attaches_nil ..) strand hstrand).spliced hmem

/-! ## Calls at a vertex -/

theorem mem_steps {isFirst : Bool} {anchor : VertexId} {site : Site}
    (h : .site anchor site ∈ expander.steps method isFirst vertices) :
    anchor ∈ vertices.map (·.id) ∧ ∃ isFirst, site ∈ expander.sitesOf method isFirst anchor := by
  induction vertices generalizing isFirst with
  | nil => cases h
  | cons vertex rest ih =>
    rw [steps] at h
    rcases mem_append.mp h with h | h
    · obtain ⟨other, hother, heq⟩ := mem_map.mp h
      cases heq
      exact ⟨mem_cons_self, isFirst, hother⟩
    · obtain ⟨hrest, hsite⟩ := ih ((mem_cons.mp h).resolve_left nofun)
      exact ⟨mem_cons_of_mem _ hrest, hsite⟩

theorem enters_eq {active : List VertexId} (anchor expr : VertexId) :
    ((expander.program.runMethod? expr).bind fun callee => expander.callOf active (.site anchor (.call expr callee))) =
      if expander.enters active expr then some (anchor, expr) else none := by
  rw [enters]
  cases expander.program.runMethod? expr <;> rfl

section
variable {graph : CodeGraph} {settings : Settings} {options : ExpansionOptions} {active : List VertexId}

theorem filterMap_sitesAt (program : Program) (call? : Site → Option (VertexId × VertexId))
    (hinit : ∀ expr class_ invoker, call? (.staticInit expr class_ invoker) = none) (v : VertexId) :
    (program.sitesAt v).filterMap call? =
      (program.graph.evaluatedExpressions v).filterMap fun expr => (program.runMethod? expr).bind fun callee =>
      call? (.call expr callee) := by
  suffices hfold : ∀ (exprs : List VertexId) (sites : List Site),
    (exprs.foldl program.withSitesOf sites).filterMap call? = sites.filterMap call? ++ exprs.filterMap fun expr =>
    (program.runMethod? expr).bind fun callee => call? (.call expr callee) from
    hfold _ []
  intro exprs
  induction exprs with
  | nil => exact fun sites => (append_nil _).symm
  | cons expr rest ih =>
    intro sites
    have hone : (program.withSitesOf sites expr).filterMap call? =
        sites.filterMap call? ++ ((program.runMethod? expr).bind fun callee => call? (.call expr callee)).toList := by
      rw [Program.withSitesOf, filterMap_append, filterMap_append, List.append_assoc]
      congr 1
      have hnone : ∀ test : Site → Bool,
          (((program.staticReference? expr).bind (program.initSite? (some expr))).filter test).toList.filterMap
          call? = [] := by
        refine fun test => filterMap_eq_nil_iff.mpr fun site hsite => ?_
        obtain ⟨type, -, hsome⟩ :=
          Option.bind_eq_some_iff.mp (Option.filter_eq_some_iff.mp (Option.mem_toList.mp hsite)).1
        obtain ⟨invoker, -, rfl⟩ := Option.map_eq_some_iff.mp hsome
        exact hinit ..
      refine (congrArg (· ++ _) (hnone _)).trans ?_
      cases program.runMethod? expr with
      | none => rfl
      | some callee =>
        show [Site.call expr callee].filterMap call? = (call? (.call expr callee)).toList
        rw [filterMap_cons]
        cases call? (.call expr callee) <;> rfl
    rw [foldl_cons, ih, hone, List.append_assoc]
    congr 1
    rw [filterMap_cons]
    cases (program.runMethod? expr).bind fun callee => call? (.call expr callee) <;> rfl

theorem filterMap_ite {α β : Type} (p : α → Bool) (f : α → β) (items : List α) :
    (items.filterMap fun a => if p a then some (f a) else none) = (items.filter p).map f := by
  induction items with
  | nil => rfl
  | cons a rest ih =>
    by_cases h : p a = true
    · rw [filterMap_cons_some (by rw [if_pos h]), filter_cons_of_pos h, map_cons, ih]
    · rw [filterMap_cons_none (by rw [if_neg h]), filter_cons_of_neg h, ih]

/-- The calls that are attached along vertices are those that are entered at each of them. -/
theorem filterMap_steps {isFirst : Bool} (hvertices : ∀ vertex ∈ vertices, vertex.id < graph.vertexCount) :
    ((ofGraph graph settings options).steps method isFirst vertices).filterMap
    ((ofGraph graph settings options).callOf active) = vertices.flatMap fun vertex =>
    ((ofGraph graph settings options).enteredAt active vertex.id).map (vertex.id, ·) := by
  induction vertices generalizing isFirst with
  | nil => rfl
  | cons vertex rest ih =>
    obtain ⟨hvertex, hrest⟩ := forall_mem_cons.mp hvertices
    rw [steps, filterMap_append, filterMap_cons, ih hrest, flatMap_cons]
    refine congrArg (· ++ _) ?_
    rw [filterMap_map, sitesOf, enteredAt]
    split
    · rw [filterMap_append]
      have hentry : (if isFirst then ((ofGraph graph settings options).program.entrySite? method).toList
        else []).filterMap ((ofGraph graph settings options).callOf active ∘ Step.site vertex.id) = [] := by
        refine filterMap_eq_nil_iff.mpr fun site hsite => ?_
        split at hsite
        · obtain ⟨type, -, hinit⟩ := Option.bind_eq_some_iff.mp (Option.mem_toList.mp hsite)
          obtain ⟨invoker, -, rfl⟩ := Option.map_eq_some_iff.mp hinit
          rfl
        · cases hsite
      have hsites : (ofGraph graph settings options).sites.sites vertex.id =
          (ofGraph graph settings options).program.sitesAt vertex.id :=
        SiteTable.sites_ofProgram hvertex
      rw [hentry, nil_append, hsites, filterMap_sitesAt _ _ fun _ _ _ => rfl]
      have henters : (fun expr => ((ofGraph graph settings options).program.runMethod? expr).bind fun callee =>
          ((ofGraph graph settings options).callOf active ∘ Step.site vertex.id) (.call expr callee)) =
          fun expr => if (ofGraph graph settings options).enters active expr then some (vertex.id, expr) else none :=
        funext fun expr => enters_eq vertex.id expr
      rw [henters, filterMap_ite]
      rfl
    · rfl

/-- The expression of a call and the method that it runs. -/
def siteCall? : Site → Option (VertexId × VertexId)
  | .call expr callee => some (expr, callee)
  | .staticInit .. => none

theorem mem_sitesAt_call (program : Program) {expr callee : VertexId} (h : .call expr callee ∈ program.sitesAt v) :
    expr ∈ program.graph.evaluatedExpressions v ∧ program.runMethod? expr = some callee := by
  have hmem : (expr, callee) ∈ (program.sitesAt v).filterMap siteCall? := mem_filterMap.mpr ⟨_, h, rfl⟩
  rw [filterMap_sitesAt program siteCall? fun _ _ _ => rfl] at hmem
  obtain ⟨other, hother, hbind⟩ := mem_filterMap.mp hmem
  obtain ⟨method, hmethod, heq⟩ := Option.bind_eq_some_iff.mp hbind
  cases heq
  exact ⟨hother, hmethod⟩

theorem filter_flatMap_of_nodup {f : VertexId → List VertexId} (hnodup : (vertices.map (·.id)).Nodup)
    (hv : v ∈ vertices.map (·.id)) :
    ((vertices.flatMap fun vertex => (f vertex.id).map (vertex.id, ·)).filter (·.1 == v)).map Prod.snd = f v := by
  have hsame : ∀ w, (((f w).map (w, ·)).filter (·.1 == v)).map Prod.snd = if w = v then f w else [] := by
    intro w
    rw [filter_map, map_map]
    by_cases h : w = v
    · subst h
      rw [if_pos rfl, filter_eq_self.mpr (by simp)]
      exact map_id _
    · rw [if_neg h, filter_eq_nil_iff.mpr (by simpa using fun _ _ => h)]
      rfl
  induction vertices with
  | nil => cases hv
  | cons vertex rest ih =>
    obtain ⟨hnot, hrest⟩ := nodup_cons.mp hnodup
    rw [flatMap_cons, filter_append, map_append, hsame]
    by_cases h : vertex.id = v
    · subst h
      have hnone : ((rest.flatMap fun vertex => (f vertex.id).map (vertex.id, ·)).filter (·.1 == vertex.id)).map
          Prod.snd = [] := by
        rw [map_eq_nil_iff, filter_eq_nil_iff]
        rintro ⟨w, e⟩ hmem
        obtain ⟨other, hother, hpair⟩ := mem_flatMap.mp hmem
        obtain ⟨_, -, heq⟩ := mem_map.mp hpair
        obtain rfl := (Prod.mk.inj heq).1
        have hne : other.id ≠ vertex.id := fun heq => hnot (mem_map.mpr ⟨other, hother, heq⟩)
        simpa using hne
      rw [if_pos rfl, hnone, append_nil]
    · rw [if_neg h, nil_append]
      exact ih hrest ((mem_cons.mp hv).resolve_left fun heq => h heq.symm)

end

end Expander

variable {init : String × Option VertexId × CodePath}

namespace CodePath

variable {graph : CodeGraph} {settings : Settings} {options : ExpansionOptions} {path : CodePath}

section
variable (h : path.Spliced (ofGraph graph settings options))
include h

theorem Spliced.exists_forward :
    ∃ forward, Path.forward graph path.method = .ok forward ∧ { method := path.method, vertices := path.vertices } ∈
    forward := by
  obtain ⟨hforward, -⟩ := h
  exact ⟨_, forward_of_mem_forwardPaths hforward, hforward⟩

theorem Spliced.exists_route (built : Build.IsBuilt graph)
    (placed : Build.WellPlaced graph) : ∃ body, graph.body? path.method = some body ∧ Route graph body path.ids := by
  obtain ⟨forward, henumerated, hmem⟩ := h.exists_forward
  obtain ⟨body, hbody, route⟩ := built.route placed henumerated hmem
  exact ⟨body, hbody, route⟩

theorem Spliced.attached :
    ∀ sub ∈ path.attached, sub.Spliced (ofGraph graph settings options) := by
  obtain ⟨-, -, -, -, -, -, hattached⟩ := h
  exact hattached

theorem Spliced.invoked
    (hsub : path.invokedPath? site = some sub) : sub.Spliced (ofGraph graph settings options) :=
  h.attached sub (mem_append_left _ (mem_map_of_mem (mem_invocations_of_invokedPath? hsub)))

theorem Spliced.initialized
    (hinit : init ∈ path.staticInits) : init.2.2.Spliced (ofGraph graph settings options) :=
  h.attached init.2.2 (mem_append_right _ (mem_map_of_mem hinit))

end

section
variable (h : path.Spliced (ofGraph graph settings options)) (built : Build.IsBuilt graph)
    (placed : Build.WellPlaced graph)
include h built placed

theorem Spliced.lt_of_mem (hv : v ∈ path.ids) : v < graph.vertexCount := by
  obtain ⟨body, -, route⟩ := h.exists_route built placed
  exact (route.below v hv).1

/-- The calls at a vertex are those of the evaluated expressions that have an attached path, operands before
operations. -/
theorem Spliced.calls_at (hv : v ∈ path.ids) : (path.calls.filter (·.1 == v)).map Prod.snd =
    (graph.evaluatedExpressions v).filter fun expr => (path.invokedPath? expr).isSome := by
  obtain ⟨body, -, route⟩ := h.exists_route built placed
  have hbounded : ∀ vertex ∈ path.vertices, vertex.id < graph.vertexCount := fun vertex hvertex =>
    (route.below vertex.id (mem_map_of_mem hvertex)).1
  obtain @⟨_, active, -, hcalls, -, hkeys, -⟩ := h
  rw [filterMap_steps hbounded] at hcalls
  rw [hcalls, filter_flatMap_of_nodup route.nodup hv, enteredAt]
  have hentered : ∀ expr ∈ graph.evaluatedExpressions v, (path.invokedPath? expr).isSome = true ↔
      options.followCalls = true ∧ (ofGraph graph settings options).enters active expr = true := by
    intro expr hexpr
    rw [isSome_invokedPath?, hkeys, hcalls]
    constructor
    · intro hmem
      obtain ⟨⟨w, other⟩, hpair, rfl⟩ := mem_map.mp hmem
      obtain ⟨vertex, -, hvertex⟩ := mem_flatMap.mp hpair
      obtain ⟨other, hother, heq⟩ := mem_map.mp hvertex
      obtain rfl := (Prod.mk.inj heq).2
      rw [enteredAt] at hother
      split at hother
      · exact ⟨‹_›, (mem_filter.mp hother).2⟩
      · cases hother
    · rintro ⟨hfollow, henters⟩
      obtain ⟨vertex, hvertex, rfl⟩ := mem_map.mp hv
      refine mem_map.mpr ⟨(vertex.id, expr), mem_flatMap.mpr ⟨vertex, hvertex, mem_map_of_mem ?_⟩, rfl⟩
      rw [enteredAt,
        if_pos (show (ofGraph graph settings options).options.followCalls = true from hfollow)]
      exact mem_filter.mpr ⟨hexpr, henters⟩
  split
  · rename_i hfollow
    exact filter_congr fun expr hexpr => by
      rw [Bool.eq_iff_iff, hentered expr hexpr]
      exact ⟨fun henters => ⟨hfollow, henters⟩, And.right⟩
  · rename_i hfollow
    refine (filter_eq_nil_iff.mpr fun expr hexpr hsome => hfollow ?_).symm
    exact ((hentered expr hexpr).mp hsome).1

/-- The attached path is one of the method that the expression runs. -/
theorem Spliced.runMethod?_eq (hsub : path.invokedPath? site = some sub) :
    (Program.ofGraph graph).runMethod? site = some sub.method := by
  have hbounded := fun v => Spliced.lt_of_mem h built placed (v := v)
  obtain ⟨-, -, hinvoked, -⟩ := h
  obtain ⟨anchor, hanchor⟩ := hinvoked _ (mem_invocations_of_invokedPath? hsub)
  obtain ⟨hmem, isFirst, hsite⟩ := mem_steps hanchor
  rw [sitesOf] at hsite
  split at hsite
  · rcases mem_append.mp hsite with hsite | hsite
    · split at hsite
      · obtain ⟨type, -, hinit⟩ := Option.bind_eq_some_iff.mp (Option.mem_toList.mp hsite)
        obtain ⟨invoker, -, heq⟩ := Option.map_eq_some_iff.mp hinit
        cases heq
      · cases hsite
    · rw [show (ofGraph graph settings options).sites.sites anchor =
        (Program.ofGraph graph).sitesAt anchor from
        SiteTable.sites_ofProgram (hbounded anchor hmem)] at hsite
      exact (mem_sitesAt_call _ hsite).2
  · cases hsite

omit built placed in
/-- A static initializer belongs to a vertex of the path or to none. -/
theorem Spliced.anchor_mem (hinit : init ∈ path.staticInits) (hv : init.2.1 = some v) :
    v ∈ path.ids := by
  obtain ⟨-, -, -, -, -, hanchors, -⟩ := h
  obtain ⟨site, hsite⟩ := hanchors init hinit v hv
  exact (mem_steps hsite).1

end

end CodePath

end ApexPaths
