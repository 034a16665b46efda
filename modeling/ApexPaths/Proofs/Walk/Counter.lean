import ApexPaths.Proofs.Walk.Blocks
import Mathlib.Data.List.Perm.Subperm

/-!
The values of a loop counter. They are those that the counter takes from its start by its step while the condition
holds, all of them and in order, and they are known unless they are too many or the counter leaves the integers of
64 bits.
-/

namespace ApexPaths.Counter
set_option autoImplicit false

open List

/-! ## The loop that collects the values -/

/-- Runs of that loop, with the number of its rounds. It ends at `stop`; it gives up where it is full and where the next
value does not fit into 64 bits. -/
inductive Collects (stop step : Int) (maxValues : Nat) : List Int → Int → Nat → Option (List Int) → Prop where
  | ended {taken : List Int} {current : Int} (h : ¬current < stop) :
      Collects stop step maxValues taken current 0 (some taken)
  | full {taken : List Int} {current : Int} (h : current < stop) (hfull : maxValues ≤ taken.length) :
    Collects stop step maxValues taken current 0 none
  | leaves {taken : List Int} {current : Int} (h : current < stop) (hroom : taken.length < maxValues)
    (hnext : Text.inInt64? (current + step) = none) : Collects stop step maxValues taken current 0 none
  | round {taken : List Int} {current next : Int} {rounds : Nat} {result : Option (List Int)} (h : current < stop)
    (hroom : taken.length < maxValues) (hnext : Text.inInt64? (current + step) = some next)
    (hrest : Collects stop step maxValues (taken ++ [current]) next rounds result) :
    Collects stop step maxValues taken current (rounds + 1) result

/-- The loop makes at most as many rounds as there is room for values. -/
theorem exists_collects {stop step : Int} {maxValues : Nat} (room : Nat) (taken : List Int) (current : Int)
    (hroom : taken.length + room = maxValues) :
    ∃ rounds ≤ room,
    Collects stop step maxValues taken current rounds ((valuesBelow stop step room current).map (taken ++ ·)) := by
  induction room generalizing taken current with
  | zero =>
    rw [valuesBelow]
    split
    · exact ⟨0, Nat.le_refl 0, .full ‹_› (by omega)⟩
    · refine ⟨0, Nat.le_refl 0, ?_⟩
      rw [Option.map_some, append_nil]
      exact .ended ‹_›
  | succ room ih =>
    rw [valuesBelow]
    split
    · rename_i hbelow
      cases hnext : Text.inInt64? (current + step) with
      | none => exact ⟨0, Nat.zero_le _, .leaves hbelow (by omega) hnext⟩
      | some next =>
        obtain ⟨rounds, hrounds, hrest⟩ := ih (taken ++ [current]) next (by simp; omega)
        refine ⟨rounds + 1, by omega, .round hbelow (by omega) hnext ?_⟩
        have hmap : ∀ values : Option (List Int),
            Option.map (taken ++ ·) (values.bind fun values => some (current :: values)) =
            values.map (taken ++ [current] ++ ·) := by
          intro values
          cases values <;> simp
        exact (hmap _).symm ▸ hrest
    · refine ⟨0, Nat.zero_le _, ?_⟩
      rw [Option.map_some, append_nil]
      exact .ended ‹_›

/-! ## Progressions -/

def InWord (n : Int) : Prop := Text.minInt64 ≤ n ∧ n ≤ Text.maxInt64

theorem inInt64?_eq_some_iff {n m : Int} : Text.inInt64? n = some m ↔ InWord n ∧ n = m := by
  unfold Text.inInt64? InWord
  split <;> simp [*]

/-- A counter comes to a value. -/
def Reached (start step value : Int) : Prop := ∃ k : Nat, value = start + k * step

theorem reached_start (start step : Int) : Reached start step start := ⟨0, by simp⟩

theorem reached_iff {start step value : Int} :
    Reached start step value ↔ value = start ∨ Reached (start + step) step value := by
  constructor
  · rintro ⟨k, rfl⟩
    cases k with
    | zero => exact .inl (by simp)
    | succ k => exact .inr ⟨k, by rw [Int.natCast_succ, Int.add_mul]; omega⟩
  · rintro (rfl | ⟨k, rfl⟩)
    · exact reached_start ..
    · exact ⟨k + 1, by rw [Int.natCast_succ, Int.add_mul]; omega⟩

section
variable {start step value : Int} (hstep : 0 < step)
include hstep

theorem Reached.le (h : Reached start step value) : start ≤ value := by
  obtain ⟨k, rfl⟩ := h
  have hk := Int.mul_nonneg (Int.natCast_nonneg k) (Int.le_of_lt hstep)
  omega

theorem Reached.step_le {other : Int} (h : Reached start step value) (hother : Reached start step other)
    (hlt : value < other) : value + step ≤ other := by
  obtain ⟨k, rfl⟩ := h
  obtain ⟨j, rfl⟩ := hother
  have hless : k < j := by
    refine Nat.lt_of_not_le fun hge => ?_
    have hmul := Int.mul_le_mul_of_nonneg_right (Int.ofNat_le.mpr hge) (Int.le_of_lt hstep)
    omega
  have hmul := Int.mul_le_mul_of_nonneg_right (Int.ofNat_le.mpr hless) (Int.le_of_lt hstep)
  rw [Int.natCast_succ, Int.add_mul] at hmul
  omega

variable {stop : Int}

/-- What is collected is every value reached below the end. -/
theorem valuesBelow_eq_some {room : Nat} {values : List Int} (h : valuesBelow stop step room start = some values) :
    values.Pairwise (· < ·) ∧ (∀ value, value ∈ values ↔ Reached start step value ∧ value < stop) ∧
    values.length ≤ room ∧ ∀ value ∈ values, InWord (value + step) := by
  have hended : ∀ {start : Int}, ¬start < stop → ∀ value, value ∈ ([] : List Int) ↔ Reached start step value ∧
      value < stop := by
    intro start hend value
    refine iff_of_false not_mem_nil fun hvalue => ?_
    have hle := hvalue.1.le hstep
    omega
  induction room generalizing start values with
  | zero =>
    rw [valuesBelow] at h
    split at h
    · cases h
    · cases h
      exact ⟨.nil, hended ‹_›, Nat.le_refl 0, nofun⟩
  | succ room ih =>
    rw [valuesBelow] at h
    split at h
    · rename_i hbelow
      obtain ⟨next, hnext, h⟩ := Option.bind_eq_some_iff.mp h
      obtain ⟨later, hlater, h⟩ := Option.bind_eq_some_iff.mp h
      cases h
      obtain ⟨hword, rfl⟩ := inInt64?_eq_some_iff.mp hnext
      obtain ⟨hsorted, hmem, hlength, hnexts⟩ := ih hlater
      have hfirst : ∀ value ∈ later, start < value := by
        intro value hvalue
        have hle := ((hmem value).mp hvalue).1.le hstep
        omega
      refine ⟨.cons hfirst hsorted, fun value => ?_, Nat.succ_le_succ hlength, forall_mem_cons.mpr ⟨hword, hnexts⟩⟩
      rw [mem_cons, hmem, @reached_iff start, or_and_right]
      refine or_congr_left ⟨fun he => ⟨he, he ▸ hbelow⟩, And.left⟩
    · cases h
      exact ⟨.nil, hended ‹_›, Nat.zero_le _, nofun⟩

theorem exists_valuesBelow {room : Nat}
    (hcount : ∀ values : List Int, values.Nodup → (∀ value ∈ values, Reached start step value ∧ value < stop) →
    values.length ≤ room)
    (hword : ∀ value, Reached start step value → value < stop → InWord (value + step)) :
    ∃ values, valuesBelow stop step room start = some values := by
  induction room generalizing start with
  | zero =>
    rw [valuesBelow]
    split
    · have hone := hcount [start] (nodup_singleton _) (forall_mem_singleton.mpr ⟨reached_start .., ‹_›⟩)
      exact absurd hone (Nat.not_succ_le_zero 0)
    · exact ⟨[], rfl⟩
  | succ room ih =>
    rw [valuesBelow]
    split
    · rename_i hbelow
      have hnext := inInt64?_eq_some_iff.mpr ⟨hword start (reached_start ..) hbelow, rfl⟩
      have hlater : ∀ {value}, Reached (start + step) step value → Reached start step value :=
        fun h => reached_iff.mpr (.inr h)
      obtain ⟨values, hvalues⟩ : ∃ values, valuesBelow stop step room (start + step) = some values := by
        refine ih (fun values hnodup hall => ?_) fun value hvalue => hword value (hlater hvalue)
        have hfirst : start ∉ values := by
          intro hmem
          have hle := (hall start hmem).1.le hstep
          omega
        have hcons := hcount (start :: values) (nodup_cons.mpr ⟨hfirst, hnodup⟩)
          (forall_mem_cons.mpr ⟨⟨reached_start .., hbelow⟩, fun value hvalue =>
          ⟨hlater (hall value hvalue).1, (hall value hvalue).2⟩⟩)
        exact Nat.le_of_succ_le_succ hcons
      exact ⟨start :: values, by rw [hnext]; simp [hvalues]⟩
    · exact ⟨[], rfl⟩

end

/-! ## Loops that count up -/

section
variable (graph : CodeGraph) (frame : Frame)

/-- An expression of which an integer is known: a literal, or the name of a local variable that holds it. -/
inductive IsKnown (expr : VertexId) (n : Int) : Prop where
  | literal {text : String} (label : graph.label? expr = some .literalExpression)
    (written : graph.text? expr (.fact .value) = some text) (read : Text.int64? text = some n)
  | held {name : String} {local_ : Variable} (label : graph.label? expr = some .variableExpression)
      (named : graph.name? expr = some name) (plain : graph.isUnqualified expr = true)
      (found : frame.lookup? name = some local_) (holds : local_.value.int? = some n)

/-- An update of the counter: `i++`, `++i`, or `i += k` with a positive literal. -/
inductive Advances (counter : String) (update : VertexId) : Int → Prop where
  | increment {target : VertexId} (label : graph.label? update = some .postfixExpression ∨
      graph.label? update = some .prefixExpression) (operator : graph.text? update (.fact .operator) = some "++")
      (operand : graph.childAt? update 0 = some target)
    (plain : isPlainVariable graph target counter = true) : Advances counter update 1
  | addition {target added : VertexId} {text : String} {step : Int}
      (label : graph.label? update = some .assignmentExpression) (operator : graph.text? update (.fact .operator) =
      some "+=") (left : graph.childAt? update 0 = some target)
    (plain : isPlainVariable graph target counter = true) (right : graph.childAt? update 1 = some added)
    (literal : graph.label? added = some .literalExpression) (written : graph.text? added (.fact .value) = some text)
    (read : Text.int64? text = some step) (positive : 0 < step) : Advances counter update step

/-- A `for` loop whose counter holds `start` and is compared to a known bound, which it may reach if that is
inclusive. -/
structure CountsUp (loop condition : VertexId) (counter : String) (start : Int) (inclusive : Bool)
    (bound step : Int) : Prop where
  begins : ∃ local_, frame.lookup? counter = some local_ ∧ local_.value.int? = some start
  inWord : InWord start ∧ InWord bound
  compares : ∃ test left right, graph.childAt? condition 0 = some test ∧ graph.label? test = some .booleanExpression ∧
    graph.text? test (.fact .operator) = some (if inclusive then "<=" else "<") ∧
    graph.childAt? test 0 = some left ∧ isPlainVariable graph left counter = true ∧
    graph.childAt? test 1 = some right ∧ IsKnown graph frame right bound
  updates : ∃ statement update, graph.loopUpdate? loop = some statement ∧ graph.childAt? statement 0 = some update ∧
    Advances graph counter update step

end

variable {graph : CodeGraph} {frame : Frame}

theorem IsKnown.bound?_eq {expr : VertexId} {n : Int} (h : IsKnown graph frame expr n) :
    bound? graph frame expr = some n := by
  cases h with
  | literal label written read =>
    simp [bound?, CodeGraph.labelOf_eq label, literalInt?, graph.is_iff.mpr label, written, read]
  | @held name local_ label named plain found holds =>
    have hname : isPlainVariable graph expr name = true := by
      simp [isPlainVariable, graph.is_iff.mpr label, named, plain, Text.eqIgnoringCase]
    simp [bound?, CodeGraph.labelOf_eq label, named, hname, variableInt?, found, holds]

theorem Advances.step?_eq {counter : String} {update : VertexId} {step : Int} (h : Advances graph counter update step) :
    step? graph update counter = some step ∧ 0 < step := by
  cases h with
  | increment label operator operand plain =>
    refine ⟨?_, Int.zero_lt_one⟩
    rcases label with label | label
    all_goals simp [step?, operator, operand, plain, CodeGraph.labelOf_eq label]
  | addition label operator left plain right literal written read positive =>
    refine ⟨?_, positive⟩
    simp [step?, operator, left, plain, CodeGraph.labelOf_eq label, right, literalInt?, graph.is_iff.mpr literal,
      written, read, positive]

/-- The first value past a bound. -/
def behind (inclusive : Bool) (bound : Int) : Int := if inclusive then bound + 1 else bound

/-- The values that a counter takes: those that it reaches while the condition holds. -/
def Takes (start step : Int) (inclusive : Bool) (bound value : Int) : Prop :=
  Reached start step value ∧ if inclusive then value ≤ bound else value < bound

theorem takes_iff {start step : Int} {inclusive : Bool} {bound value : Int} :
    Takes start step inclusive bound value ↔ Reached start step value ∧ value < behind inclusive bound := by
  cases inclusive
  · rfl
  · exact and_congr_right' Int.lt_add_one_iff.symm

theorem stop?_eq_some_iff {inclusive : Bool} {bound stop : Int} :
    stop? inclusive bound = some stop ↔ (inclusive = true → InWord (bound + 1)) ∧ stop = behind inclusive bound := by
  cases inclusive
  · simp [stop?, behind, eq_comm]
  · rw [stop?, if_pos rfl, inInt64?_eq_some_iff]
    simp [behind, eq_comm]

section
variable {loop condition : VertexId} {counter : String} {start : Int} {inclusive : Bool} {bound step : Int}
  (h : CountsUp graph frame loop condition counter start inclusive bound step)
include h

theorem CountsUp.values?_eq (maxValues : Nat) : values? graph maxValues frame loop condition counter =
    (stop? inclusive bound).bind fun stop => valuesBelow stop step maxValues start := by
  obtain ⟨local_, hlocal, hstart⟩ := h.begins
  obtain ⟨test, left, right, htest, hlabel, hoperator, hleft, hplain, hright, hknown⟩ := h.compares
  obtain ⟨statement, update, hstatement, hupdate, hadvances⟩ := h.updates
  have hlimit : limit? graph frame condition counter = some (inclusive, bound) := by
    have hfilter : (some test).filter (graph.is · .booleanExpression) = some test :=
      Option.filter_some_pos (graph.is_iff.mpr hlabel)
    rw [limit?, htest, hfilter]
    cases inclusive
    all_goals simp [show graph.text? test (.fact .operator) = _ from hoperator, hleft, hplain, hright, hknown.bound?_eq]
  simp [values?, variableInt?, hlocal, hstart, hlimit, hstatement, hupdate, hadvances.step?_eq.1]

/-- The loop ends, at most one round for each value that there is room for. If it finds values, they are those that
the counter takes, in order and not too many. It finds them if and only if they are not too many, the bound can be
passed and the value after the last one fits. -/
theorem values?_exact (maxValues : Nat) :
    (∀ stop, stop? inclusive bound = some stop → ∃ rounds ≤ maxValues,
      Collects stop step maxValues [] start rounds (values? graph maxValues frame loop condition counter)) ∧
    (∀ values, values? graph maxValues frame loop condition counter = some values →
      values.Pairwise (· < ·) ∧ (∀ value, value ∈ values ↔ Takes start step inclusive bound value) ∧
      values.length ≤ maxValues) ∧
    ((∃ values, values? graph maxValues frame loop condition counter = some values) ↔
      (∀ values : List Int, values.Nodup → (∀ value ∈ values, Takes start step inclusive bound value) →
      values.length ≤ maxValues) ∧
      (inclusive = true → InWord (bound + 1)) ∧
      ∀ last, Takes start step inclusive bound last → (∀ value, Takes start step inclusive bound value → value ≤ last) →
        InWord (last + step)) := by
  rw [h.values?_eq]
  obtain ⟨_, _, _, _, hadvances⟩ := h.updates
  have hstep := hadvances.step?_eq.2
  have hsome : ∀ {values}, ((stop? inclusive bound).bind fun stop => valuesBelow stop step maxValues start) =
    some values → (inclusive = true → InWord (bound + 1)) ∧
    valuesBelow (behind inclusive bound) step maxValues start = some values := by
    intro values hvalues
    obtain ⟨stop, hstop, hvalues⟩ := Option.bind_eq_some_iff.mp hvalues
    obtain ⟨hpass, rfl⟩ := stop?_eq_some_iff.mp hstop
    exact ⟨hpass, hvalues⟩
  refine ⟨fun stop hstop => ?_, fun values hvalues => ?_, fun hvalues => ?_, fun hfits => ?_⟩
  · obtain ⟨rounds, hrounds, hcollects⟩ := @exists_collects stop step maxValues maxValues [] start (Nat.zero_add _)
    refine ⟨rounds, hrounds, ?_⟩
    simpa [hstop] using hcollects
  · obtain ⟨hsorted, hmem, hlength, -⟩ := valuesBelow_eq_some hstep (hsome hvalues).2
    exact ⟨hsorted, fun value => (hmem value).trans takes_iff.symm, hlength⟩
  · obtain ⟨values, hvalues⟩ := hvalues
    obtain ⟨hpass, hvalues⟩ := hsome hvalues
    obtain ⟨-, hmem, hlength, hnext⟩ := valuesBelow_eq_some hstep hvalues
    refine ⟨fun others hnodup hothers => ?_, hpass, fun last hlast _ =>
      hnext last ((hmem last).mpr (takes_iff.mp hlast))⟩
    have hsubset : others ⊆ values := fun value hvalue => (hmem value).mpr (takes_iff.mp (hothers value hvalue))
    exact (hnodup.subperm hsubset).length_le.trans hlength
  · obtain ⟨hcount, hpass, hlast⟩ := hfits
    rw [stop?_eq_some_iff.mpr ⟨hpass, rfl⟩]
    refine exists_valuesBelow hstep (fun values hnodup hall => hcount values hnodup fun value hvalue =>
      takes_iff.mpr (hall value hvalue)) fun value hvalue hbelow => ?_
    -- Either the next value is below the end, which fits, or the value is the last one.
    by_cases hmore : value + step < behind inclusive bound
    · have hend : behind inclusive bound ≤ Text.maxInt64 := by
        cases inclusive
        · exact h.inWord.2.2
        · exact (hpass rfl).2
      have hle := hvalue.le hstep
      have hlow := h.inWord.1.1
      exact ⟨by omega, by omega⟩
    · refine hlast value (takes_iff.mpr ⟨hvalue, hbelow⟩) fun other hother => ?_
      obtain ⟨hreached, hless⟩ := takes_iff.mp hother
      refine Int.not_lt.mp fun hgreater => hmore ?_
      exact Int.lt_of_le_of_lt (hvalue.step_le hstep hreached hgreater) hless

end

/-! ## A loop from one to seven -/

def countingUp : String := "class A { void m() { for (Integer i = 1; I <= 7; i += 3) { } } }"

def countingFrame : Frame :=
  { blocks := [{ kind := .forLoopStatement, vars := VariableMap.declare [] "i" "Integer" (.ofInt 1) }] }

/-- The loop is vertex 3 of its graph, the condition 7 and the update 12. Three values are known, but not two of
the three. -/
def readsCountingUp (graph : CodeGraph) : Bool :=
  decide (graph.childAt? 7 0 = some 8 ∧ graph.label? 8 = some .booleanExpression ∧
    graph.text? 8 (.fact .operator) = some "<=" ∧ graph.childAt? 8 0 = some 9 ∧ isPlainVariable graph 9 "i" = true ∧
    graph.childAt? 8 1 = some 11 ∧ graph.label? 11 = some .literalExpression ∧
    graph.text? 11 (.fact .value) = some "7" ∧
    graph.loopUpdate? 3 = some 12 ∧ graph.childAt? 12 0 = some 13 ∧ graph.label? 13 = some .assignmentExpression ∧
    graph.text? 13 (.fact .operator) = some "+=" ∧ graph.childAt? 13 0 = some 14 ∧ isPlainVariable graph 14 "i" = true ∧
    graph.childAt? 13 1 = some 16 ∧ graph.label? 16 = some .literalExpression ∧
    graph.text? 16 (.fact .value) = some "3" ∧
    values? graph 3 countingFrame 3 7 "i" = some [1, 4, 7] ∧ values? graph 2 countingFrame 3 7 "i" = none)

theorem countsUp_of_reads {graph : CodeGraph} (h : readsCountingUp graph = true) :
    CountsUp graph countingFrame 3 7 "i" 1 true 7 3 ∧ values? graph 3 countingFrame 3 7 "i" = some [1, 4, 7] ∧
      values? graph 2 countingFrame 3 7 "i" = none := by
  obtain ⟨htest, hlabel, hoperator, hleft, hplain, hright, hliteral, hbound, hupdate, hchild, hassigns, hadds,
    htarget, hcounter, hadded, hstep, hwritten, hthree, htwo⟩ := of_decide_eq_true h
  refine ⟨⟨?_, ?_, ?_, ?_⟩, hthree, htwo⟩
  · have hbegins : (countingFrame.lookup? "i").bind (·.value.int?) = some 1 := by decide
    exact Option.bind_eq_some_iff.mp hbegins
  · unfold InWord
    decide
  · exact ⟨8, 9, 11, htest, hlabel, hoperator, hleft, hplain, hright, .literal hliteral hbound (by decide)⟩
  · exact ⟨12, 13, hupdate, hchild, .addition hassigns hadds htarget hcounter hadded hstep hwritten (by decide)
      (by decide)⟩

/-- A loop that counts `1`, `4` and `7`. -/
theorem countingUp_values : ∃ graph, Build.IsGraphOf bareSettings [("A", countingUp)] graph ∧
    CountsUp graph countingFrame 3 7 "i" 1 true 7 3 ∧ values? graph 3 countingFrame 3 7 "i" = some [1, 4, 7] ∧
    values? graph 2 countingFrame 3 7 "i" = none ∧
    (∀ stop, stop? true 7 = some stop → ∃ rounds ≤ 3,
    Collects stop 3 3 [] 1 rounds (values? graph 3 countingFrame 3 7 "i")) ∧
    (∀ values, values? graph 3 countingFrame 3 7 "i" = some values →
      values.Pairwise (· < ·) ∧ (∀ value, value ∈ values ↔ Takes 1 3 true 7 value) ∧ values.length ≤ 3) ∧
    ((∃ values, values? graph 3 countingFrame 3 7 "i" = some values) ↔
      (∀ values : List Int, values.Nodup → (∀ value ∈ values, Takes 1 3 true 7 value) → values.length ≤ 3) ∧
      (true = true → InWord (7 + 1)) ∧
      ∀ last, Takes 1 3 true 7 last → (∀ value, Takes 1 3 true 7 value → value ≤ last) → InWord (last + 3)) := by
  have hbuilds : buildsTo readsCountingUp [("A", countingUp)] = true := by decide +kernel
  obtain ⟨graph, hgraph, hreads⟩ := exists_graphOf hbuilds
  obtain ⟨hcounts, hthree, htwo⟩ := countsUp_of_reads hreads
  exact ⟨graph, hgraph, hcounts, hthree, htwo, values?_exact hcounts 3⟩

end ApexPaths.Counter
