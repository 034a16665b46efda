import ApexPaths.Proofs.Walk.Passing

/-!
How records grow. Of the entries that a computation adds, some count: vertices about which the visitor is asked at any
depth, and attached paths that begin at the depth of the computation itself. What is foretold bounds those that count.
-/

namespace ApexPaths
set_option autoImplicit false

open WalkM List

variable {σ β : Type}

namespace Forecast

/-- Events that happen without fail. -/
def exactly (events : List β) : Forecast β := ⟨events, events⟩

theorem exactly_append (events events' : List β) : exactly (events ++ events') = exactly events ++ exactly events' :=
  rfl

theorem ofAll_exactly {α : Type} (events : α → List β) (items : List α) :
    ofAll (fun item => exactly (events item)) items items = exactly (items.flatMap events) := rfl

end Forecast

/-- What counts in a record. -/
structure Pick (β : Type) where
  /-- The visitor is asked about a vertex, at any depth. -/
  visit : VertexId → Option β := fun _ => none
  /-- An attached path begins, at the depth of the computation. -/
  walk : Option VertexId → CodePath → Option β := fun _ _ => none

namespace Pick

variable (pick : Pick β)

/-- What a pick takes of an entry that was made at a depth. -/
def event? (depth : Nat) : Entry → Option β
  | .visited v => pick.visit v
  | .evaluated .. => none
  | .walks d site path => if d = depth then pick.walk site path else none

/-- What a pick takes of a record. -/
def events (depth : Nat) (log : List Entry) : List β := log.filterMap (pick.event? depth)

theorem events_append (depth : Nat) (log log' : List Entry) :
    pick.events depth (log ++ log') = pick.events depth log ++ pick.events depth log' :=
  filterMap_append

end Pick

/-- The entry is of a path that is nested so deep or deeper. -/
def Entry.IsBelow (depth : Nat) : Entry → Prop
  | .walks d .. => depth ≤ d
  | .visited _ | .evaluated .. => True

theorem Pick.events_of_below {pick : Pick β} (hvisit : ∀ v, pick.visit v = none) {depth depth' : Nat}
    (hdepth : depth < depth') {log : List Entry} (hbelow : ∀ entry ∈ log, entry.IsBelow depth') :
    pick.events depth log = [] := by
  refine filterMap_eq_nil_iff.mpr fun entry hentry => ?_
  have hentry := hbelow entry hentry
  cases entry with
  | visited v => exact hvisit v
  | evaluated => rfl
  | walks d site path =>
    rw [Entry.IsBelow] at hentry
    exact if_neg (by omega)

theorem Pick.events_of_visits {pick : Pick β} (hwalk : ∀ site path, pick.walk site path = none) (depth depth' : Nat)
    (log : List Entry) : pick.events depth log = pick.events depth' log := by
  refine filterMap_congr fun entry _ => ?_
  cases entry with
  | walks d site path => rw [event?, event?, hwalk, ite_self, ite_self]
  | _ => rfl

/-- Entries are added to a record, and those that count are as foretold. -/
def Grows (pick : Pick β) (forecast : Forecast β) (before after : Trail) : Prop :=
  after.depth = before.depth ∧ ∃ added, after.log = before.log ++ added ∧
  (∀ entry ∈ added, entry.IsBelow before.depth) ∧ forecast.sure.Sublist (pick.events before.depth added) ∧
  (pick.events before.depth added).Sublist forecast.possible

theorem Grows.of_empty {pick : Pick β} {forecast : Forecast β} {heap : Heap} {depth : Nat} {after : Trail}
    (h : Grows pick forecast ⟨heap, depth, []⟩ after) :
    forecast.sure.Sublist (pick.events depth after.log) ∧ (pick.events depth after.log).Sublist forecast.possible := by
  obtain ⟨-, added, hlog, -, hsure, hpossible⟩ := h
  rw [hlog, nil_append]
  exact ⟨hsure, hpossible⟩

theorem grows_note {pick : Pick β} {before : Trail} (heap : Heap) {entry : Entry}
    (hbelow : entry.IsBelow before.depth) : Grows pick (.exactly (pick.event? before.depth entry).toList) before
    ⟨heap, before.depth, before.log ++ [entry]⟩ := by
  have hevents : pick.events before.depth [entry] = (pick.event? before.depth entry).toList := by
    rw [Pick.events, filterMap_cons]
    cases pick.event? before.depth entry <;> rfl
  refine ⟨rfl, [entry], rfl, by simpa using hbelow, ?_, ?_⟩
  · rw [hevents]
    exact .refl _
  · rw [hevents]
    exact .refl _

theorem grows_change (pick : Pick β) (before : Trail) (heap : Heap) : Grows pick .none before { before with heap } :=
  ⟨rfl, [], (append_nil _).symm, by simp, .refl _, .refl _⟩

/-- The law that records grow as foretold, whatever happens to the heap. -/
def growing (pick : Pick β) : Law β where
  keeps := Grows pick
  fails _ _ := True
  rest trail := grows_change pick trail trail.heap
  next := by
    rintro first second a b c ⟨hdepth, added, hlog, hbelow, hsure, hpossible⟩ ⟨hdepth', added', hlog', hbelow',
      hsure', hpossible'⟩
    rw [hdepth] at hbelow' hsure' hpossible'
    refine ⟨hdepth'.trans hdepth, added ++ added', ?_, ?_, ?_, ?_⟩
    · rw [hlog', hlog, List.append_assoc]
    · exact forall_mem_append.mpr ⟨hbelow, hbelow'⟩
    · rw [Pick.events_append]
      exact hsure.append hsure'
    · rw [Pick.events_append]
      exact hpossible.append hpossible'
  weaken := by
    rintro forecast wider a b hwithin ⟨hdepth, added, hlog, hbelow, hsure, hpossible⟩
    exact ⟨hdepth, added, hlog, hbelow, hwithin.sure.trans hsure, hpossible.trans hwithin.possible⟩
  stop _ := trivial
  late _ _ := trivial
  allows _ _ := True
  change {trail heap} _ := grows_change pick trail heap
  object _ _ _ := trivial
  field _ _ _ _ := trivial
  call _ := trivial
  unmoved _ := trivial
  visits v := .exactly (pick.visit v).toList
  visited trail _ := grows_note trail.heap trivial

variable {pick : Pick β}

namespace Walker

theorem obeys_evaluated (expr : VertexId) (value : Value) : Obeys (growing pick) .none (do
    let left ← heap
    notify (·.note (.evaluated expr left))
    return value : WalkM (Recorded σ) Value) := by
  refine ⟨fun state => ?_⟩
  have hnote : Grows pick _ state.trail _ :=
    grows_note state.symbols.heap (show (Entry.evaluated expr state.symbols.heap).IsBelow _ from trivial)
  exact hnote

section
variable {site : Option VertexId} {path : CodePath} {m : WalkM (Recorded σ) Value}

theorem run_entered (state : WalkState (Recorded σ)) :
    (do
      notify (·.enter site path)
      let value ← m
      notify (·.leave)
      return value : WalkM (Recorded σ) Value).run state =
    match m.run { state with observed := state.observed.enter site path } with
    | (.ok value, left) => (.ok value, { left with observed := left.observed.leave })
    | (.error error, left) => (.error error, left) := by
  rw [run_bind]
  refine (run_bind ..).trans ?_
  generalize m.run _ = result
  obtain ⟨_ | value, left⟩ := result <;> rfl

theorem isBelow_cons {depth : Nat} {added : List Entry} (h : ∀ entry ∈ added, entry.IsBelow (depth + 1)) :
    ∀ entry ∈ Entry.walks depth site path :: added, entry.IsBelow depth := by
  refine forall_mem_cons.mpr ⟨Nat.le_refl _, fun entry hentry => ?_⟩
  have hentry := h entry hentry
  cases entry with
  | walks d => exact Nat.le_of_succ_le hentry
  | _ => trivial

/-- An attached path adds its beginning to the record, and behind it what its walk adds one deeper. -/
theorem obeys_enter {γ : Type} {other : Pick γ} {forecast : Forecast γ} {foretold : Forecast β}
    (h : Obeys (growing other) forecast m) (hevents : ∀ {depth added}, (∀ entry ∈ added, entry.IsBelow (depth + 1)) →
      forecast.sure.Sublist (other.events (depth + 1) added) →
      (other.events (depth + 1) added).Sublist forecast.possible →
      foretold.sure.Sublist (pick.events depth (.walks depth site path :: added)) ∧
        (pick.events depth (.walks depth site path :: added)).Sublist foretold.possible) :
    Obeys (growing pick) foretold (do
      notify (·.enter site path)
      let value ← m
      notify (·.leave)
      return value) := by
  refine ⟨fun state => ?_⟩
  have hrun := h.run { state with observed := state.observed.enter site path }
  rw [run_entered]
  generalize m.run { state with observed := state.observed.enter site path } = result at hrun
  obtain ⟨_ | value, left⟩ := result
  · trivial
  · obtain ⟨hdepth, added, hlog, hbelow, hsure, hpossible⟩ := hrun
    refine ⟨?_, .walks state.observed.depth site path :: added, ?_, isBelow_cons hbelow,
      hevents hbelow hsure hpossible⟩
    · show left.observed.depth - 1 = state.observed.depth
      have hleft : left.observed.depth = state.observed.depth + 1 := hdepth
      rw [hleft, Nat.add_sub_cancel]
    · show left.observed.log = _
      have hleft : left.observed.log = (state.observed.log ++ [.walks state.observed.depth site path]) ++ added := hlog
      rw [hleft, List.append_assoc]
      rfl

/-- Where only the beginnings of paths count, an attached path counts once. -/
theorem obeys_entered (hvisit : ∀ v, pick.visit v = none) {γ : Type} {other : Pick γ} {forecast : Forecast γ}
    (h : Obeys (growing other) forecast m) :
    Obeys (growing pick) (.exactly (pick.walk site path).toList) (do
      notify (·.enter site path)
      let value ← m
      notify (·.leave)
      return value) := by
  refine obeys_enter h fun {depth added} hbelow _ _ => ?_
  have hevents : pick.events depth (.walks depth site path :: added) = (pick.walk site path).toList := by
    rw [← singleton_append, Pick.events_append, Pick.events_of_below hvisit (Nat.lt_succ_self _) hbelow,
      append_nil, Pick.events, filterMap_cons, Pick.event?, if_pos rfl]
    cases pick.walk site path <;> rfl
  exact ⟨hevents ▸ .refl _, hevents ▸ .refl _⟩

/-- Where only vertices count, an attached path counts for what is foretold of it. -/
theorem obeys_entered_of_visits (hwalk : ∀ site path, pick.walk site path = none) {forecast : Forecast β}
    (h : Obeys (growing pick) forecast m) :
    Obeys (growing pick) forecast (do
      notify (·.enter site path)
      let value ← m
      notify (·.leave)
      return value) := by
  refine obeys_enter h fun {depth added} _ hsure hpossible => ?_
  have hevents : pick.events depth (.walks depth site path :: added) = pick.events (depth + 1) added := by
    rw [Pick.events_of_visits hwalk (depth + 1) depth added, Pick.events, filterMap_cons, Pick.event?, if_pos rfl,
      hwalk]
    rfl
  exact ⟨hevents ▸ hsure, hevents ▸ hpossible⟩

end

/-! ## Paths that begin -/

section
variable {walker : Walker σ}

/-- What counts of a task where only static initializers do. -/
def beginnings (pick : Pick β) (site : Option VertexId) : Task → Forecast β
  | .eval .. => .none
  | .invoke path _ _ => .exactly (pick.walk site path).toList

/-- Where only static initializers count, an expression counts for nothing and an attached path once. -/
theorem obeys_beginnings (walker : Walker σ) (hvisit : ∀ v, pick.visit v = none)
    (hsite : ∀ expr path, pick.walk (some expr) path = none) (nesting : Nat) (site : Option VertexId) (task : Task) :
    Obeys (growing pick) (beginnings pick site task) (walker.recorder nesting site task) := by
  induction nesting generalizing site task with
  | zero => cases task <;> exact .fail _
  | succ nesting ih =>
    cases task with
    | eval sites expr =>
      rw [recorder]
      have hinvoke : ∀ path this args,
          Obeys (growing pick) .none (walker.recorder nesting (some expr) (.invoke path this args)) := by
        intro path this args
        have hpath := ih (some expr) (.invoke path this args)
        rwa [beginnings, hsite] at hpath
      have hidle : (siteForecast (fun _ => (.none : Forecast β)) sites expr).sure = [] := by rw [siteForecast_none]; rfl
      have hmain := obeys_evalExpression (fun init => ih (some expr) (.eval none init)) walker.records_recorded
        (fun part _ => ih (some expr) (.eval sites part)) (fun path _ => hinvoke path) (fun _ => hidle)
        (fun _ _ _ => trivial)
      have hquiet :
          Obeys (growing pick) .none
          (walker.recorded.evalExpression (walker.recorder nesting (some expr)) sites expr) := by
        rwa [← evaluation_none walker.recorded sites expr]
      exact hquiet.after fun value => obeys_evaluated expr value
    | invoke path this args =>
      rw [recorder]
      have hinits : ∀ init ∈ path.staticInits, Obeys (growing pick) (.exactly (pick.walk none init.2.2).toList)
          (walker.recorder nesting none (.invoke init.2.2 none [])) := fun init _ => ih none (.invoke init.2.2 none [])
      have hstep : ∀ v ∈ path.ids, Obeys (growing pick) (passage (growing pick) walker.recorded (fun _ => .none)
          (fun init => .exactly (pick.walk none init.2.2).toList) path v)
          (walker.recorded.step (walker.recorder nesting none) path v) := by
        intro v _
        refine obeys_step (fun init => ih none (.eval none init)) walker.records_recorded hinits
          (fun part _ => ih none (.eval (some path) part)) (.refl _) (.inr ?_)
        have hvisits : (growing pick).visits v = .none := by
          show Forecast.exactly (pick.visit v).toList = _
          rw [hvisit]
          rfl
        rw [passage, hvisits, Forecast.ofAll_none, Forecast.append_none, Forecast.none_append]
        exact Forecast.none_within_maybe _
      exact obeys_entered hvisit
        (obeys_invokePath (fun init => ih none (.eval none init)) walker.records_recorded hinits hstep this args)

end

end Walker

/-! ## A class with a static block and a call -/

/-- A class with a static block, and a method that calls another one. -/
def callingOnce : String :=
  "class A { static Integer x; static { x = 1; } static Integer n() { return x; } static void m() { Integer y = n(); } }"

/-- A method has one path with one expansion, of which a test holds. -/
def expandsOnce (test : CodeGraph → CodePath → Bool) (graph : CodeGraph) (method : VertexId) : Bool :=
  let expander := Expander.ofGraph graph bareSettings {}
  let bound := (graph.withLabel .method).length + 1
  match expander.forwardPaths method with
  | [path] =>
    match expander.expansionsWithin bound [method] { path } with
    | [strand] => expander.forksWithin bound [method] { path } == 0 && test graph strand.path
    | _ => false
  | _ => false

theorem exists_expanded {text : String} {test : CodeGraph → CodePath → Bool}
    (h : (Build.treeOfChars text.toList).toOption.any (anyMethod (expandsOnce test)) = true) :
    ∃ graph path expanded, Build.IsGraphOf bareSettings [("A", text)] graph ∧
    Path.forward graph path.method = .ok [path] ∧
      (((Expander.ofGraph graph bareSettings {}).expandPath path).run { registry := { limit := .unlimited } }).1 =
      .ok [expanded] ∧
      test graph expanded = true := by
  obtain ⟨graph, method, hgraph, -, htest⟩ := exists_graph h
  rw [expandsOnce] at htest
  split at htest
  case h_2 => cases htest
  case h_1 path hpaths =>
    have hmem : path ∈ (Expander.ofGraph graph bareSettings {}).forwardPaths method := by simp [hpaths]
    obtain ⟨vertices, rfl⟩ := Expander.eq_of_mem_forwardPaths hmem
    have hbound : (Expander.ofGraph graph bareSettings {}).idleCount [method] < (graph.withLabel .method).length + 1 :=
      Nat.lt_succ_of_le (length_filter_le ..)
    rw [Expander.expansionsWithin_eq _ hbound, Expander.forksWithin_eq _ hbound] at htest
    split at htest
    case h_2 => cases htest
    case h_1 strand hstrand =>
      obtain ⟨hforks, htest⟩ := by simpa only [Bool.and_eq_true, beq_iff_eq] using htest
      have hasks :=
        Expander.asks_expandPath (Expander.sound_ofGraph hgraph.isBuilt bareSettings {}) { method, vertices }
      have hrun := hasks.result_eq (valid_start graph .unlimited)
      rw [hforks, Registry.outcome, if_pos (by decide), hstrand] at hrun
      exact ⟨graph, { method, vertices }, strand.path, hgraph,
        (Expander.forward_of_mem_forwardPaths hmem).trans (congrArg _ hpaths), hrun, htest⟩

/-- The path has a static initializer and an attached call and is walked to its end. -/
def walksOnce (graph : CodeGraph) (path : CodePath) : Bool :=
  let walker : Walker Unit := ⟨Program.ofGraph graph, .silent, 100⟩
  path.staticInits.length == 1 && path.invocations.length == 1 && (walker.walkWithin 20 path [] ()).1.isOk

theorem walksOnce_callingOnce :
    (Build.treeOfChars callingOnce.toList).toOption.any (anyMethod (expandsOnce walksOnce)) = true :=
  Build.any_of_toList_eq String.toList_ofList (by decide +kernel)

theorem exists_of_isOk {ε α : Type} {result : Except ε α} (h : result.isOk = true) : ∃ a, result = .ok a := by
  cases result with
  | error => cases h
  | ok a => exact ⟨a, rfl⟩

/-- The walk along the expansion of the method that calls the other one. -/
theorem exists_walk : ∃ graph path expanded outcome, Build.IsGraphOf bareSettings [("A", callingOnce)] graph ∧
    Path.forward graph path.method = .ok [path] ∧
    (((Expander.ofGraph graph bareSettings {}).expandPath path).run { registry := { limit := .unlimited } }).1 =
    .ok [expanded] ∧
    expanded.staticInits.length = 1 ∧ expanded.invocations.length = 1 ∧
    ((⟨Program.ofGraph graph, .silent, 100⟩ : Walker Unit).walkWithin 20 expanded [] ()).1 = .ok outcome := by
  obtain ⟨graph, path, expanded, hgraph, hforward, hrun, htest⟩ := exists_expanded walksOnce_callingOnce
  obtain ⟨⟨hinits, hcalls⟩, hwalk⟩ := by simpa only [walksOnce, Bool.and_eq_true, beq_iff_eq] using htest
  obtain ⟨outcome, houtcome⟩ := exists_of_isOk hwalk
  exact ⟨graph, path, expanded, outcome, hgraph, hforward, hrun, hinits, hcalls, houtcome⟩

end ApexPaths
