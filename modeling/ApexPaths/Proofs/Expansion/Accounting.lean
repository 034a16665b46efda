import ApexPaths.Expansion.Expander
import Mathlib.Algebra.BigOperators.Group.List.Basic
import Mathlib.Algebra.GroupWithZero.Nat
import Mathlib.Data.List.Induction

/-!
Workers that share a registry. Each worker has calls of its own to make; a call is one step, and the workers take
their turns in any order. At every moment the count of forks is the sum of what was accepted since the last reset.
A call is refused exactly if the sum with its forks is past the limit or past the largest count, and then it leaves
the count as it is; so the count never passes the limit, not even between two calls.
-/

namespace ApexPaths
set_option autoImplicit false

open List

/-! ## Calls -/

/-- A call on a registry: count some forks or one, or start over. -/
inductive ForkCall where
  | forks (count : Nat)
  | fork
  | reset
  deriving DecidableEq

/-- The forks that a call asks for, if it asks for any. -/
def ForkCall.count? : ForkCall → Option Nat
  | .forks count => some count
  | .fork => some 1
  | .reset => none

namespace Registry

/-- A call is answered by the count after it, or by the error with which it is refused; a reset is not answered. -/
def call (registry : Registry) (call : ForkCall) : Except EngineError (Option Nat) × Registry :=
  match call.count? with
  | none => (.ok none, registry.reset)
  | some count =>
    match registry.countForks count with
    | .ok after => (.ok (some after.forks), after)
    | .error error => (.error error, registry)

end Registry

/-- A call that was made: who made it, how it was answered, and the count after it. -/
structure Called where
  worker : Nat
  call : ForkCall
  answer : Except EngineError (Option Nat)
  forks : Nat

namespace Called

def isReset (called : Called) : Bool := called.call == .reset

/-- The forks that a call was granted. -/
def accepted (called : Called) : Nat :=
  match called.answer with
  | .ok _ => called.call.count?.getD 0
  | .error _ => 0

/-- The calls after the last reset. -/
def sinceReset (log : List Called) : List Called := (log.reverse.takeWhile (!·.isReset)).reverse

/-- The forks that were accepted since the last reset. -/
def total (log : List Called) : Nat := ((sinceReset log).map accepted).sum

theorem total_concat (log : List Called) (called : Called) :
    total (log ++ [called]) = if called.isReset then 0 else total log + called.accepted := by
  rw [total, sinceReset, reverse_append, reverse_singleton, singleton_append, takeWhile_cons]
  cases h : called.isReset <;> simp [total, sinceReset]

/-- A call made when the forks accepted since the last reset were so many. -/
structure Follows (limit : Limit) (sum : Nat) (called : Called) : Prop where
  refused_iff : (∃ error, called.answer = .error error) ↔ ∃ count, called.call.count? = some count ∧ 0 < count ∧
    (maxCount < sum + count ∨ ∃ most, limit.max? = some most ∧ most < sum + count)
  refused : ∀ error, called.answer = .error error → error = .expansionLimit (limit.max?.getD maxCount) ∧
    called.forks = sum
  counted : ∀ answer, called.answer = .ok answer → ∀ count, called.call.count? = some count →
    answer = some (sum + count) ∧ called.forks = sum + count
  restarted : called.call = .reset → called.answer = .ok none ∧ called.forks = 0

end Called

/-! ## One call -/

namespace Registry

variable (registry : Registry)

theorem countForks_eq (count : Nat) : registry.countForks count =
    if 0 < count ∧
      (maxCount < registry.forks + count ∨ ∃ most, registry.limit.max? = some most ∧ most < registry.forks + count)
    then .error (.expansionLimit (registry.limit.max?.getD maxCount))
    else .ok { registry with forks := registry.forks + count } := by
  rw [countForks, forksAfter?, Limit.allows]
  by_cases hzero : count = 0
  · simp [hzero]
  · rw [if_neg hzero]
    cases hmax : registry.limit.max? <;> grind

def called (worker : Nat) (call : ForkCall) : Called :=
  ⟨worker, call, (registry.call call).1, (registry.call call).2.forks⟩

theorem limit_call (call : ForkCall) : (registry.call call).2.limit = registry.limit := by
  cases call <;> grind [Registry.call, countForks_eq, ForkCall.count?, reset]

theorem forks_called (worker : Nat) (call : ForkCall) : (registry.called worker call).forks =
    if (registry.called worker call).isReset then 0 else registry.forks + (registry.called worker call).accepted := by
  cases call <;> grind [called, Registry.call, countForks_eq, ForkCall.count?, Called.isReset, Called.accepted, reset]

theorem follows_called (worker : Nat) (call : ForkCall) :
    (registry.called worker call).Follows registry.limit registry.forks := by
  cases hcount : call.count? with
  | none =>
    have hcall : registry.call call = (.ok none, registry.reset) := by rw [Registry.call, hcount]
    constructor <;> simp [called, hcall, hcount, reset]
  | some count =>
    have hreset : call ≠ .reset := by rintro rfl; cases hcount
    by_cases hpast : 0 < count ∧
      (maxCount < registry.forks + count ∨ ∃ most, registry.limit.max? = some most ∧ most < registry.forks + count)
    · have hcall : registry.call call = (.error (.expansionLimit (registry.limit.max?.getD maxCount)), registry) := by
        rw [Registry.call, hcount]
        simp only [countForks_eq, if_pos hpast]
      constructor <;> simp [called, hcall, hcount, hreset, hpast]
    · have hcall : registry.call call =
          (.ok (some (registry.forks + count)), { registry with forks := registry.forks + count }) := by
        rw [Registry.call, hcount]
        simp only [countForks_eq, if_neg hpast]
      constructor <;> simp [called, hcall, hcount, hreset, hpast]

/-- Neither the largest count nor the limit is passed. -/
structure Within : Prop where
  counted : registry.forks ≤ maxCount
  allowed : ∀ most, registry.limit.max? = some most → registry.forks ≤ most

variable {registry}

theorem Within.call (within : registry.Within) (call : ForkCall) : (registry.call call).2.Within := by
  obtain ⟨hcounted, hallowed⟩ := within
  cases call <;> constructor <;> grind [Registry.call, countForks_eq, ForkCall.count?, reset]

end Registry

/-! ## Workers that take turns -/

/-- A registry with the calls that each worker has still to make, and those that were made. -/
structure Crew where
  registry : Registry
  pending : List (List ForkCall)
  log : List Called := []

namespace Crew

/-- A crew that has not begun. -/
def start (limit : Limit) (programs : List (List ForkCall)) : Crew where
  registry := { limit }
  pending := programs

/-- A worker makes its next call. A worker that has none left does nothing. -/
def turn (crew : Crew) (worker : Nat) : Crew :=
  match crew.pending[worker]? with
  | some (call :: rest) =>
    { registry := (crew.registry.call call).2
      pending := crew.pending.set worker rest
      log := crew.log ++ [crew.registry.called worker call] }
  | _ => crew

/-- The workers take their turns in the order of a schedule. -/
def run (crew : Crew) (schedule : List Nat) : Crew := schedule.foldl turn crew

/-- The calls of one worker, in the order in which it made them. -/
def made (crew : Crew) (worker : Nat) : List ForkCall := (crew.log.filter (·.worker == worker)).map (·.call)

/-- The books are in order. -/
structure Balanced (limit : Limit) (programs : List (List ForkCall)) (crew : Crew) : Prop where
  limit_eq : crew.registry.limit = limit
  forks_eq : crew.registry.forks = Called.total crew.log
  within : crew.registry.Within
  follows : ∀ before called, before ++ [called] <+: crew.log → called.Follows limit (Called.total before)
  length_eq : crew.pending.length = programs.length
  pending : ∀ worker (hworker : worker < programs.length),
    ∃ rest, crew.pending[worker]? = some rest ∧ crew.made worker ++ rest = programs[worker]

variable {limit : Limit} {programs : List (List ForkCall)}

theorem balanced_start : (start limit programs).Balanced limit programs where
  limit_eq := rfl
  forks_eq := rfl
  within := ⟨Nat.zero_le _, fun _ _ => Nat.zero_le _⟩
  follows before called h := by
    have hnil := prefix_nil.mp h
    simp at hnil
  length_eq := rfl
  pending worker hworker := ⟨programs[worker], List.getElem?_eq_getElem hworker, rfl⟩

/-- A turn of one worker keeps the books: by the answer that it gets. -/
theorem Balanced.turn {crew : Crew} (balanced : crew.Balanced limit programs) (worker : Nat) :
    (crew.turn worker).Balanced limit programs := by
  rw [Crew.turn]
  split
  case h_2 => exact balanced
  case h_1 call rest hcall =>
    have hlength : worker < crew.pending.length := (List.getElem?_eq_some_iff.mp hcall).1
    refine ⟨?_, ?_, balanced.within.call call, fun before called h => ?_, ?_, fun other hother => ?_⟩
    · rw [Registry.limit_call, balanced.limit_eq]
    · rw [Called.total_concat, ← balanced.forks_eq]
      exact crew.registry.forks_called worker call
    · obtain hlast | hbefore := prefix_concat_iff.mp h
      · obtain ⟨rfl, hcalled⟩ := append_inj' hlast rfl
        rw [singleton_inj.mp hcalled, ← balanced.forks_eq, ← balanced.limit_eq]
        exact crew.registry.follows_called worker call
      · exact balanced.follows before called hbefore
    · rw [length_set, balanced.length_eq]
    · obtain ⟨left, hleft, hmade⟩ := balanced.pending other hother
      by_cases hsame : worker = other
      · subst hsame
        obtain rfl : call :: rest = left := Option.some.inj (hcall.symm.trans hleft)
        refine ⟨rest, List.getElem?_set_self hlength, ?_⟩
        rw [← hmade]
        simp [made, Registry.called]
      · refine ⟨left, (List.getElem?_set_ne hsame).trans hleft, ?_⟩
        rw [← hmade]
        simp [made, Registry.called, hsame]

/-- So does a whole schedule, turn by turn. -/
theorem Balanced.run {crew : Crew} (balanced : crew.Balanced limit programs) (schedule : List Nat) :
    (crew.run schedule).Balanced limit programs := by
  induction schedule generalizing crew with
  | nil => exact balanced
  | cons worker schedule ih => exact ih (balanced.turn worker)

/-! ## The account -/

/-- Whatever the limit, the calls of the workers and the order of their turns: the count is the sum of what was
accepted since the last reset, and neither the limit nor the largest count is passed. Each call was answered by
that sum as it stood, and each worker made its own calls in their order. -/
theorem forks_exact (limit : Limit) (programs : List (List ForkCall)) (schedule : List Nat) :
    let crew := (start limit programs).run schedule
    crew.registry.forks = Called.total crew.log ∧
      (crew.registry.forks ≤ maxCount ∧ ∀ most, limit.max? = some most → crew.registry.forks ≤ most) ∧
      (∀ before called, before ++ [called] <+: crew.log → called.Follows limit (Called.total before)) ∧
      ∀ worker (hworker : worker < programs.length),
        ∃ rest, crew.pending[worker]? = some rest ∧ crew.made worker ++ rest = programs[worker] := by
  intro crew
  have balanced : crew.Balanced limit programs := balanced_start.run schedule
  refine ⟨balanced.forks_eq, ⟨balanced.within.counted, fun most hmost => ?_⟩, balanced.follows, balanced.pending⟩
  exact balanced.within.allowed most (balanced.limit_eq ▸ hmost)

/-- A batch that does not fit is refused as a whole, and a smaller one after it is still accepted. -/
example : ((start ⟨some 3⟩ [[.forks 2, .fork], [.forks 2]]).run [0, 1, 0]).log.map (·.forks) = [2, 2, 3] := by decide

end Crew

end ApexPaths
