import ApexPaths.Pipeline
import ApexPaths.Proofs.Expansion.Built

/-!
Methods expanded side by side come to what they come to one after the other. Every worker owes a number
of forks and of turns until its expansion is finished. A turn pays a part of both, so the forks that were
counted and those that are owed make the same total throughout. If the total fits under the limit no
worker can be refused; if it does not, the workers cannot all be finished. The turns that are owed run
out, whatever the order.
-/

namespace ApexPaths
set_option autoImplicit false

open List

/-! ## One after the other -/

namespace Expander

variable (expander : Expander)

/-- The forks that the expansion of a method asks for. -/
def methodForks (method : VertexId) : Nat :=
  ((expander.forwardPaths method).map fun path => expander.forks [path.method] { path }).sum

/-- A method with the expansions of its forward paths. -/
def methodExpansion (method : VertexId) : MethodExpansion where
  method
  paths := (expander.forwardPaths method).flatMap fun path => (expander.expansions [path.method] { path }).map (·.path)

variable {expander}

theorem asks_expandMethods (sound : expander.Sound) (methods : List VertexId)
    (hmethods : ∀ method ∈ methods, expander.graph.is method .method = true) :
    Asks expander.graph (expander.expandMethods methods) (methods.map expander.methodForks).sum
      (methods.map expander.methodExpansion) := by
  refine .mapM methods fun method hmethod => ?_
  have hpaths := asks_pathsOf (sound.forward_eq (hmethods method hmethod))
  have hexpand : Asks expander.graph (expander.expandMethod method) (expander.methodForks method)
      (expander.methodExpansion method).paths :=
    hpaths.after (.flatMapM _ fun path _ => asks_expandPath sound path)
  exact hexpand.map (MethodExpansion.mk method)

end Expander

/-! ## What a worker owes -/

/-- What is left of the work of a worker: turns to take and forks to ask for until an expansion is finished. -/
structure Due where
  turns : Nat
  forks : Nat
  expansion : MethodExpansion

namespace Worker

/-- What a worker owes: its turns, its forks, and the expansion with which it ends. -/
inductive Owes (expander : Expander) : Worker → Due → Prop where
  | nothing (expansion : MethodExpansion) : Owes expander (.finished expansion) ⟨0, 0, expansion⟩
  | turn {worker next : Worker} {turns first rest : Nat} {expansion : MethodExpansion} (busy : worker.isBusy = true)
    (advance : Asks expander.graph (worker.advance expander) first next)
    (owes : Owes expander next ⟨turns, rest, expansion⟩) :
    Owes expander worker ⟨turns + 1, first + rest, expansion⟩

variable {expander : Expander}

theorem Owes.error?_eq {worker : Worker} {due : Due} (owes : worker.Owes expander due) : worker.error? = none := by
  cases owes with
  | nothing expansion => rfl
  | turn busy advance owes =>
    cases worker with
    | failed error => cases busy
    | _ => rfl

theorem owes_running {length : Nat} {stack : List Expander.Frame} {count : Nat} {paths : List CodePath}
    (run : Expander.Runs expander length stack count paths) {method : VertexId} {seeds found : List CodePath}
    {turns rest : Nat}
    {expansion : MethodExpansion}
    (onward : Owes expander (next method seeds (found ++ paths)) ⟨turns, rest, expansion⟩) :
    ∃ turns, Owes expander (.running method stack seeds found) ⟨turns, count + rest, expansion⟩ := by
  induction run with
  | finished step => exact ⟨_, .turn rfl (step.before (Asks.pure _)) onward⟩
  | moved step run ih =>
    obtain ⟨turns, hrest⟩ := ih onward
    rw [Nat.add_assoc]
    exact ⟨_, .turn rfl (step.before (Asks.pure _)) hrest⟩

theorem exists_owes_next (sound : expander.Sound) (method : VertexId) (seeds found : List CodePath) :
    ∃ turns, Owes expander (next method seeds found)
    ⟨turns, (seeds.map fun path => expander.forks [path.method] { path }).sum,
    ⟨method, found ++ seeds.flatMap fun path => (expander.expansions [path.method] { path }).map (·.path)⟩⟩ := by
  induction seeds generalizing found with
  | nil =>
    rw [flatMap_nil, append_nil]
    exact ⟨0, .nothing _⟩
  | cons seed seeds ih =>
    obtain ⟨length, hrun⟩ := Expander.exists_runs sound seed
    obtain ⟨turns, honward⟩ := ih (found ++ (expander.expansions [seed.method] { path := seed }).map (·.path))
    rw [List.append_assoc] at honward
    exact owes_running hrun honward

theorem exists_owes_waiting (sound : expander.Sound) {method : VertexId}
    (hmethod : expander.graph.is method .method = true) : ∃ turns,
    Owes expander (.waiting method) ⟨turns, expander.methodForks method, expander.methodExpansion method⟩ := by
  obtain ⟨turns, howes⟩ := exists_owes_next sound method (expander.forwardPaths method) []
  have hpaths := Expander.asks_pathsOf (sound.forward_eq hmethod)
  have hturn : Owes expander (.waiting method) ⟨_, 0 + _, _⟩ := .turn rfl (hpaths.map _) howes
  rw [Nat.zero_add] at hturn
  exact ⟨_, hturn⟩

end Worker

/-! ## The accounts of a team -/

/-- A worker that owes its due, or was refused at the limit and takes no more turns. -/
inductive Worker.Stands (expander : Expander) (limit : Limit) : Worker → Due → Prop where
  | owes {worker : Worker} {due : Due} (owes : worker.Owes expander due) : Worker.Stands expander limit worker due
  | refused (forks : Nat) (expansion : MethodExpansion) :
    Worker.Stands expander limit (.failed limit.failure) ⟨0, forks, expansion⟩

variable {roster : List (Worker × Due)}

namespace Team

/-- The turns of a schedule that a worker had a use for. -/
def busyTurns (expander : Expander) (team : Team) : List Nat → Nat
  | [] => 0
  | index :: schedule =>
    (if team.workers[index]?.any Worker.isBusy then 1 else 0) + busyTurns expander (team.turn expander index) schedule

/-- The turns that all workers owe. -/
def turnsOwed (roster : List (Worker × Due)) : Nat := (roster.map (·.2.turns)).sum

/-- The forks that all workers owe. -/
def forksOwed (roster : List (Worker × Due)) : Nat := (roster.map (·.2.forks)).sum

theorem turnsOwed_split (before after : List (Worker × Due)) (worker : Worker) (due : Due) :
    turnsOwed (before ++ (worker, due) :: after) = turnsOwed before + (due.turns + turnsOwed after) := by
  simp [turnsOwed]

theorem forksOwed_split (before after : List (Worker × Due)) (worker : Worker) (due : Due) :
    forksOwed (before ++ (worker, due) :: after) = forksOwed before + (due.forks + forksOwed after) := by
  simp [forksOwed]

/-- The workers of a team with what they owe. The total is what was counted and is owed, until a worker was refused. -/
structure Accounts (expander : Expander) (limit : Limit) (total : Nat) (team : Team) (roster : List (Worker × Due)) :
    Prop where
  valid : team.state.Valid expander.graph
  limit_eq : team.state.registry.limit = limit
  workers_eq : team.workers = roster.map (·.1)
  stands : ∀ entry ∈ roster, entry.1.Stands expander limit entry.2
  balanced : (∀ entry ∈ roster, entry.1.error? = none) → team.state.registry.forks + forksOwed roster = total
  exceeded : ∀ entry ∈ roster, ∀ error, entry.1.error? = some error → limit.capacity < total

variable {expander : Expander} {limit : Limit} {total : Nat}

/-! ### Turns -/

theorem turn_idle {team : Team} {index : Nat} (h : team.workers[index]?.any Worker.isBusy = false) :
    team.turn expander index = team := by
  rw [turn]
  cases hworker : team.workers[index]? with
  | none => rfl
  | some worker =>
    rw [hworker] at h
    have hset : team.workers.set index worker = team.workers := by
      obtain ⟨hlt, rfl⟩ := List.getElem?_eq_some_iff.mp hworker
      exact set_getElem_self hlt
    cases worker with
    | waiting method => cases h
    | running method stack seeds found => cases h
    | finished expansion => exact congrArg (Team.mk · team.state) hset
    | failed error => exact congrArg (Team.mk · team.state) hset

theorem exists_split {workers : List Worker} (heq : workers = roster.map (·.1)) {index : Nat}
    {worker : Worker} (h : workers[index]? = some worker) : ∃ before due after,
    roster = before ++ (worker, due) :: after ∧ ∀ changed due,
    workers.set index changed = (before ++ (changed, due) :: after).map (·.1) := by
  subst heq
  rw [List.getElem?_map] at h
  obtain ⟨⟨worker, due⟩, hentry, rfl⟩ := Option.map_eq_some_iff.mp h
  obtain ⟨hlt, hget⟩ := List.getElem?_eq_some_iff.mp hentry
  refine ⟨roster.take index, due, roster.drop (index + 1), ?_, fun changed due => ?_⟩
  · rw [← hget, getElem_cons_drop, take_append_drop]
  · rw [set_eq_take_append_cons_drop, if_pos (by simpa using hlt)]
    simp [map_take, map_drop]

section
variable {team : Team} {before after : List (Worker × Due)} {worker next : Worker} {turns first rest : Nat}
    {expansion : MethodExpansion} {workers : List Worker} {state : ExpansionState}

section
variable (accounts :
    Accounts expander limit total team (before ++ (worker, ⟨turns + 1, first + rest, expansion⟩) :: after))
include accounts

theorem Accounts.paid
    (herror : worker.error? = none) (owes : next.Owes expander ⟨turns, rest, expansion⟩)
    (hworkers : workers = (before ++ (next, ⟨turns, rest, expansion⟩) :: after).map (·.1))
    (hvalid : state.Valid expander.graph)
    (hlimit : state.registry.limit = team.state.registry.limit)
    (hforks : state.registry.forks = team.state.registry.forks + first) :
    Accounts expander limit total { workers, state } (before ++ (next, ⟨turns, rest, expansion⟩) :: after) := by
  obtain ⟨-, hbound, -, hstands, hbalanced, hexceeded⟩ := accounts
  simp only [forall_mem_append, forall_mem_cons] at hstands hbalanced hexceeded
  constructor
  case valid => exact hvalid
  case limit_eq => exact hlimit.trans hbound
  case workers_eq => exact hworkers
  case stands =>
    simp only [forall_mem_append, forall_mem_cons]
    exact ⟨hstands.1, .owes owes, hstands.2.2⟩
  case balanced =>
    simp only [forall_mem_append, forall_mem_cons]
    rintro ⟨hbefore, -, hafter⟩
    have htotal := hbalanced ⟨hbefore, herror, hafter⟩
    simp only [forksOwed_split] at htotal ⊢
    omega
  case exceeded =>
    simp only [forall_mem_append, forall_mem_cons]
    exact ⟨hexceeded.1, fun error h => by simp [owes.error?_eq] at h, hexceeded.2.2⟩

/-- A worker that is refused owes no more turns. -/
theorem Accounts.refused
    (hfull : ¬ team.state.registry.forks + first ≤ limit.capacity)
    (hworkers : workers = (before ++ (.failed limit.failure, ⟨0, first + rest, expansion⟩) :: after).map (·.1))
    (hvalid : state.Valid expander.graph) (hlimit : state.registry.limit = team.state.registry.limit) :
    Accounts expander limit total { workers, state }
    (before ++ (.failed limit.failure, ⟨0, first + rest, expansion⟩) :: after) := by
  -- More was owed than is left under the limit, unless an earlier refusal shows this already.
  have hless : limit.capacity < total := by
    by_cases hnone : ∀ entry ∈ before ++ (worker, ⟨turns + 1, first + rest, expansion⟩) :: after, entry.1.error? = none
    · have htotal := accounts.balanced hnone
      simp only [forksOwed_split] at htotal
      omega
    · push Not at hnone
      obtain ⟨entry, hentry, hsome⟩ := hnone
      obtain ⟨error, herror⟩ := Option.ne_none_iff_exists'.mp hsome
      exact accounts.exceeded entry hentry error herror
  have hstands := accounts.stands
  simp only [forall_mem_append, forall_mem_cons] at hstands
  constructor
  case valid => exact hvalid
  case limit_eq => exact hlimit.trans accounts.limit_eq
  case workers_eq => exact hworkers
  case stands =>
    simp only [forall_mem_append, forall_mem_cons]
    exact ⟨hstands.1, .refused _ _, hstands.2.2⟩
  case balanced =>
    intro hnone
    cases hnone (.failed limit.failure, ⟨0, first + rest, expansion⟩) (by simp)
  case exceeded => exact fun _ _ _ _ => hless

end

end

/-- One turn keeps the accounts and pays a turn if a busy worker took it. -/
theorem Accounts.turn {team : Team} {roster : List (Worker × Due)}
    (accounts : Accounts expander limit total team roster) (index : Nat) : ∃ later,
    Accounts expander limit total (team.turn expander index) later ∧
      later.map (·.2.expansion) = roster.map (·.2.expansion) ∧
      (if team.workers[index]?.any Worker.isBusy then 1 else 0) + turnsOwed later ≤ turnsOwed roster := by
  cases hbusy : team.workers[index]?.any Worker.isBusy with
  | false =>
    rw [turn_idle hbusy]
    exact ⟨roster, accounts, rfl, by simp⟩
  | true =>
    obtain ⟨worker, hworker, hbusy⟩ := (Option.any_eq_true _ _).mp hbusy
    obtain ⟨before, due, after, rfl, hset⟩ := exists_split accounts.workers_eq hworker
    cases accounts.stands (worker, due) (by simp) with
    | refused => cases hbusy
    | owes owes =>
    have herror := owes.error?_eq
    cases owes with
    | nothing => cases hbusy
    | @turn _ next turns first rest expansion _ advance owes =>
    obtain ⟨state, hvalid, hlimit, hrun⟩ := advance team.state accounts.valid
    rw [accounts.limit_eq] at hrun
    rw [Team.turn, hworker]
    simp only
    split at hrun
    case isTrue hfits =>
      obtain ⟨hrun, hforks⟩ := hrun
      rw [hrun]
      refine ⟨_, accounts.paid herror owes (hset _ _) hvalid hlimit hforks, by simp, ?_⟩
      simp only [turnsOwed_split, if_true]
      omega
    case isFalse hfull =>
      rw [hrun]
      refine ⟨_, accounts.refused hfull (hset _ _) hvalid hlimit, by simp, ?_⟩
      simp only [turnsOwed_split, if_true]
      omega

/-- A schedule keeps the accounts; by induction on its turns. -/
theorem Accounts.run {team : Team} (accounts : Accounts expander limit total team roster)
    (schedule : List Nat) : ∃ later, Accounts expander limit total (team.run expander schedule) later ∧
      later.map (·.2.expansion) = roster.map (·.2.expansion) ∧
      team.busyTurns expander schedule + turnsOwed later ≤ turnsOwed roster := by
  induction schedule generalizing team roster with
  | nil => exact ⟨roster, accounts, rfl, by simp [busyTurns]⟩
  | cons index schedule ih =>
    obtain ⟨middle, hturn, hexpansions, hturns⟩ := accounts.turn index
    obtain ⟨later, hrun, hexpansions', hturns'⟩ := ih hturn
    refine ⟨later, hrun, hexpansions'.trans hexpansions, ?_⟩
    rw [busyTurns]
    omega

/-! ### Starts and ends -/

theorem exists_accounts (sound : expander.Sound) {methods : List VertexId}
    (hmethods : ∀ method ∈ methods, expander.graph.is method .method = true) {state : ExpansionState}
    (valid : state.Valid expander.graph)
    (hstart : state.registry.forks = 0) : ∃ roster,
    Accounts expander state.registry.limit (methods.map expander.methodForks).sum (Team.start methods state) roster ∧
    roster.map (·.2.expansion) = methods.map expander.methodExpansion := by
  have howes := fun method hmethod => Worker.exists_owes_waiting sound (hmethods method hmethod)
  choose! turns howes using howes
  refine ⟨methods.map fun method =>
    (.waiting method, ⟨turns method, expander.methodForks method, expander.methodExpansion method⟩), ?_, by simp⟩
  constructor
  case valid => exact valid
  case limit_eq => rfl
  case workers_eq => simp [Team.start]
  case stands =>
    rw [forall_mem_map]
    exact fun method hmethod => .owes (howes method hmethod)
  case balanced => simp [Team.start, hstart, forksOwed, Function.comp_def]
  case exceeded => simp [Worker.error?]

theorem Accounts.error_eq {team : Team} (accounts : Accounts expander limit total team roster)
    {error : EngineError} (h : .failed error ∈ team.workers) : error = limit.failure ∧ limit.capacity < total := by
  rw [accounts.workers_eq] at h
  obtain ⟨⟨worker, due⟩, hentry, rfl⟩ := mem_map.mp h
  refine ⟨?_, accounts.exceeded _ hentry error rfl⟩
  cases accounts.stands _ hentry with
  | owes owes => cases owes.error?_eq
  | refused => rfl

theorem Accounts.all_finished {team : Team} (accounts : Accounts expander limit total team roster)
    (hnone : ∀ worker ∈ team.workers, worker.error? = none) (hidle : ∀ worker ∈ team.workers, worker.isBusy = false) :
    ∀ entry ∈ roster, entry.1.expansion? = some entry.2.expansion ∧ entry.2.forks = 0 := by
  rw [accounts.workers_eq, forall_mem_map] at hnone hidle
  intro entry hentry
  obtain ⟨worker, due⟩ := entry
  cases accounts.stands _ hentry with
  | refused => cases hnone _ hentry
  | owes owes =>
    cases owes with
    | nothing expansion => exact ⟨rfl, rfl⟩
    | turn busy => cases busy.symm.trans (hidle _ hentry)

/-- When all have finished, the total alone decides. -/
theorem Accounts.outcome_eq {team : Team} (accounts : Accounts expander limit total team roster)
    {outcome : Except EngineError (List MethodExpansion)} (h : team.outcome? = some outcome) :
    outcome = if total ≤ limit.capacity then .ok (roster.map (·.2.expansion)) else .error limit.failure := by
  rw [outcome?] at h
  split at h
  case h_1 error hfailed =>
    obtain ⟨worker, hworker, herror⟩ := List.exists_of_findSome?_eq_some hfailed
    cases worker with
    | failed error =>
      cases herror
      obtain ⟨rfl, hless⟩ := accounts.error_eq hworker
      rw [if_neg (Nat.not_le.mpr hless), ← Option.some.inj h]
    | _ => cases herror
  case h_2 hnone =>
    split at h
    · cases h
    · rename_i hidle
      have hdone := accounts.all_finished (List.findSome?_eq_none_iff.mp hnone) (by simpa using hidle)
      have hforks : forksOwed roster = 0 :=
        List.sum_eq_zero_iff_forall_eq_nat.mpr (List.forall_mem_map.mpr fun entry hentry => (hdone entry hentry).2)
      have hexpansions : team.workers.filterMap Worker.expansion? = roster.map (·.2.expansion) := by
        rw [accounts.workers_eq, List.filterMap_map]
        exact List.filterMap_eq_map_iff_forall_eq_some.mpr fun entry hentry => (hdone entry hentry).1
      have htotal := accounts.balanced (by simpa [accounts.workers_eq] using hnone)
      have hcounted := accounts.valid.counted
      rw [accounts.limit_eq] at hcounted
      rw [if_pos (by omega), ← hexpansions, Option.some.inj h]

theorem exists_busy {team : Team} (h : team.outcome? = none) : ∃ worker ∈ team.workers, worker.isBusy = true := by
  rw [outcome?] at h
  split at h
  · cases h
  split at h
  · exact any_eq_true.mp ‹_›
  · cases h

end Team

/-! ## Pipelines -/

namespace Pipeline

/-- The graph was built, and the paths that are kept belong to it. -/
structure Ready (pipeline : Pipeline) : Prop where
  built : Build.IsBuilt pipeline.graph
  cached : pipeline.cache.Holds pipeline.graph

theorem ready_of_isGraphOf {config : Settings} {sources : List (String × String)} {graph : CodeGraph}
    (h : Build.IsGraphOf config sources graph) (settings : Settings) : Ready { settings, graph } :=
  ⟨h.isBuilt, by simp [PathCache.Holds]⟩

/-- All forks that the expansion of some methods asks for. -/
def totalForks (pipeline : Pipeline) (methods : List VertexId) (options : ExpansionOptions) : Nat :=
  (methods.map (pipeline.expander options).methodForks).sum

/-- The expansions of all methods if their forks can be counted within the limit, else the failure at the limit. -/
def verdict (pipeline : Pipeline) (methods : List VertexId) (options : ExpansionOptions) :
    Except EngineError (List MethodExpansion) :=
  let limit := pipeline.settings.expansionLimit
  if pipeline.totalForks methods options ≤ maxCount ∧ limit.allows (pipeline.totalForks methods options) = true then
    .ok (methods.map (pipeline.expander options).methodExpansion)
  else .error (.expansionLimit (limit.max?.getD maxCount))

variable {pipeline : Pipeline}

theorem Ready.sound (ready : pipeline.Ready) (options : ExpansionOptions) : (pipeline.expander options).Sound :=
  Expander.sound_ofGraph ready.built pipeline.settings options

theorem Ready.valid_start (ready : pipeline.Ready) (limit : Limit) : (pipeline.start limit).Valid pipeline.graph :=
  ⟨ready.cached, Nat.zero_le _⟩

theorem verdict_eq (methods : List VertexId) (options : ExpansionOptions) : pipeline.verdict methods options =
    if pipeline.totalForks methods options ≤ pipeline.settings.expansionLimit.capacity then
      .ok (methods.map (pipeline.expander options).methodExpansion)
    else .error pipeline.settings.expansionLimit.failure := by
  simp only [verdict, ← Limit.le_capacity_iff]
  rfl

section
variable (ready : pipeline.Ready) (options : ExpansionOptions) {methods : List VertexId}
  (hmethods : ∀ method ∈ methods, pipeline.graph.is method .method = true)
include ready hmethods

theorem expandMethods_unlimited (h : pipeline.totalForks methods options ≤ maxCount) : ∃ after,
    ((pipeline.expander options).expandMethods methods).run (pipeline.start .unlimited) =
      (.ok (methods.map (pipeline.expander options).methodExpansion), after) ∧
    after.registry.forks = pipeline.totalForks methods options := by
  obtain ⟨after, -, -, hrun⟩ :=
    Expander.asks_expandMethods (ready.sound options) methods hmethods _ (ready.valid_start .unlimited)
  have hfits : (pipeline.start .unlimited).registry.forks + (methods.map (pipeline.expander options).methodForks).sum ≤
      (pipeline.start .unlimited).registry.limit.capacity := by
    rw [← totalForks]
    simpa [start, Limit.capacity, Limit.unlimited] using h
  rw [if_pos hfits] at hrun
  exact ⟨after, hrun.1, hrun.2.trans (Nat.zero_add _)⟩

theorem expandAll_eq : (pipeline.expandAll methods options).1 = pipeline.verdict methods options := by
  have hasks := Expander.asks_expandMethods (ready.sound options) methods hmethods
  show (((pipeline.expander options).expandMethods methods).run (pipeline.start pipeline.settings.expansionLimit)).1 = _
  rw [hasks.result_eq (ready.valid_start _), Registry.outcome, verdict_eq, totalForks]
  simp only [start, Nat.zero_add]

theorem exists_accounts : ∃ roster, Team.Accounts (pipeline.expander options) pipeline.settings.expansionLimit
    (pipeline.totalForks methods options) (pipeline.team methods) roster ∧
    roster.map (·.2.expansion) = methods.map (pipeline.expander options).methodExpansion :=
  Team.exists_accounts (ready.sound options) hmethods (ready.valid_start pipeline.settings.expansionLimit) rfl

end

/-- Over a graph that was built, methods that are expanded side by side come to the same outcome in every order of their
turns, which is that of the methods one after the other; the count of forks stays within the limit throughout. The
outcome only depends on whether the limit allows all the forks that are counted without a limit. -/
theorem expandAll_scheduling (ready : pipeline.Ready) (options : ExpansionOptions) {methods : List VertexId}
    (hmethods : ∀ method ∈ methods, pipeline.graph.is method .method = true) :
    (pipeline.totalForks methods options ≤ maxCount → ∃ after,
      ((pipeline.expander options).expandMethods methods).run (pipeline.start .unlimited) =
        (.ok (methods.map (pipeline.expander options).methodExpansion), after) ∧
      after.registry.forks = pipeline.totalForks methods options) ∧
    (pipeline.expandAll methods options).1 = pipeline.verdict methods options ∧
    (∃ bound, ∀ schedule, (pipeline.team methods).busyTurns (pipeline.expander options) schedule ≤ bound) ∧
    ∀ schedule, let team := pipeline.expandTogether methods options schedule
      pipeline.settings.expansionLimit.allows team.state.registry.forks = true ∧
      (∀ outcome, team.outcome? = some outcome → outcome = pipeline.verdict methods options) ∧
      (team.outcome? = none → ∃ worker ∈ team.workers, worker.isBusy = true) ∧
      ∀ error, .failed error ∈ team.workers → pipeline.verdict methods options = .error error := by
  obtain ⟨roster, haccounts, hexpansions⟩ := exists_accounts ready options hmethods
  refine ⟨expandMethods_unlimited ready options hmethods, expandAll_eq ready options hmethods,
    ⟨Team.turnsOwed roster, fun schedule => ?_⟩, fun schedule => ?_⟩
  · obtain ⟨later, -, -, hturns⟩ := haccounts.run schedule
    exact Nat.le_trans (Nat.le_add_right ..) hturns
  · obtain ⟨later, hlater, hsame, -⟩ := haccounts.run schedule
    rw [hexpansions] at hsame
    refine ⟨?_, fun outcome houtcome => ?_, Team.exists_busy, fun error herror => ?_⟩
    · have hcounted := hlater.valid.counted
      rw [hlater.limit_eq] at hcounted
      exact (Limit.le_capacity_iff.mp hcounted).2
    · rw [hlater.outcome_eq houtcome, hsame, verdict_eq]
    · obtain ⟨rfl, hless⟩ := hlater.error_eq herror
      rw [verdict_eq, if_neg (Nat.not_le.mpr hless)]

/-- Two workers for the method that calls twice ask for three forks each: a limit of five refuses one of them in every
order, and a limit of six none. -/
theorem callingTwice_expandAll : ∃ graph method, Build.IsGraphOf bareSettings [("A", callingTwice)] graph ∧
    graph.is method .method = true ∧
    (∀ schedule,
    (expandTogether { settings := { bareSettings with pathExpansionLimit := 5 }, graph } [method, method]
    {} schedule).state.registry.forks ≤ 5) ∧
    (∀ schedule outcome,
    (expandTogether { settings := { bareSettings with pathExpansionLimit := 5 }, graph } [method, method]
    {} schedule).outcome? = some outcome → outcome = .error (.expansionLimit 5)) ∧
    ∃ expansions,
    (expandAll { settings := { bareSettings with pathExpansionLimit := 6 }, graph } [method, method] {}).1 =
    .ok expansions ∧ expansions.map (·.paths.length) = [4, 4] := by
  obtain ⟨graph, path, hgraph, hforward, hcount, hforks, -⟩ := exists_fourfold
  have hmethod := (Expander.eq_of_forward hforward).1
  have hmethods : ∀ method ∈ [path.method, path.method], graph.is method .method = true := by simp [hmethod]
  have hpaths : (Expander.ofGraph graph bareSettings {}).forwardPaths path.method = [path] := by
    show (Path.forward graph path.method).toOption.getD [] = _
    rw [hforward]
    rfl
  have htotal : ∀ most, totalForks { settings := { bareSettings with pathExpansionLimit := most }, graph }
      [path.method, path.method] {} = 6 := by
    intro most
    show ([path.method, path.method].map (Expander.ofGraph graph bareSettings {}).methodForks).sum = 6
    simp [Expander.methodForks, hpaths, hforks]
  obtain ⟨-, -, -, hfive⟩ :=
    expandAll_scheduling (ready_of_isGraphOf hgraph { bareSettings with pathExpansionLimit := 5 }) {} hmethods
  obtain ⟨-, hsix, -⟩ :=
    expandAll_scheduling (ready_of_isGraphOf hgraph { bareSettings with pathExpansionLimit := 6 }) {} hmethods
  refine ⟨graph, path.method, hgraph, hmethod, fun schedule => of_decide_eq_true (hfive schedule).1,
    fun schedule outcome houtcome => ?_, _, hsix.trans (if_pos ?_), ?_⟩
  · refine ((hfive schedule).2.1 outcome houtcome).trans (if_neg ?_)
    rw [htotal]
    show ¬(6 ≤ maxCount ∧ (Limit.ofInt 5).allows 6 = true)
    decide
  · rw [htotal]
    show 6 ≤ maxCount ∧ (Limit.ofInt 6).allows 6 = true
    decide
  · show ([path.method, path.method].map (Expander.ofGraph graph bareSettings {}).methodExpansion).map
      (·.paths.length) = [4, 4]
    simp [Expander.methodExpansion, hpaths, hcount]

end Pipeline

end ApexPaths
