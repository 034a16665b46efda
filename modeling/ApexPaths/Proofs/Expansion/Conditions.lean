import ApexPaths.Proofs.Expansion.Facts
import ApexPaths.Proofs.Walk.Sites

/-!
What conditions prove. A condition is read off the graph as a term of negations, conjunctions and disjunctions over
tests for null, Boolean variables and anything else. The facts that are recorded for an outcome are those of the
tests that must have come out in one way for it, and each is true of the variable that was tested, whatever the
variables hold and whatever the other parts of the condition come to. Which test a fact is of is not kept, only the
name of the variable in lower case.
-/

namespace ApexPaths
set_option autoImplicit false

open List Program

/-! ## Conditions -/

/-- A local variable or a parameter, as it is named where it is tested. -/
structure Tested where
  name : String
  declared : Declared
  deriving DecidableEq, Repr

/-- A condition as a formula over what it tests. -/
inductive Condition where
  | negation (operand : Condition)
  | conjunction (left right : Condition)
  | disjunction (left right : Condition)
  /-- A comparison of a variable with `null`, for equality or not. -/
  | nullTest (tested : Tested) (equals : Bool)
  /-- A variable that is itself the condition. -/
  | flag (tested : Tested)
  /-- Any other expression. -/
  | leaf (expr : VertexId)
  deriving DecidableEq, Repr

/-- What a variable holds. -/
inductive Holding where
  | null
  | truth (value : Bool)
  | other
  deriving DecidableEq, Repr

/-- A fact is true of what the variable holds. A reset is no fact. -/
def ConstraintKind.HoldsOf : ConstraintKind → Holding → Prop
  | .isNull, holding => holding = .null
  | .notNull, holding => holding ≠ .null
  | .isTrue, holding => holding = .truth true
  | .isFalse, holding => holding = .truth false
  | .reset, _ => False

namespace Condition

/-- The value of a condition, if its evaluation ends with one. The right operand is left out where the left one
decides. -/
def value? (holding : Declared → Holding) (leaves : VertexId → Option Bool) : Condition → Option Bool
  | negation operand => (value? holding leaves operand).map (!·)
  | conjunction left right =>
    (value? holding leaves left).bind fun holds => if holds then value? holding leaves right else some false
  | disjunction left right =>
    (value? holding leaves left).bind fun holds => if holds then some true else value? holding leaves right
  | nullTest tested equals => some ((holding tested.declared == .null) == equals)
  | flag tested =>
    match holding tested.declared with
    | .truth value => some value
    | _ => none
  | leaf expr => leaves expr

def tests : Condition → List Tested
  | negation operand => operand.tests
  | conjunction left right | disjunction left right => left.tests ++ right.tests
  | nullTest tested _ | flag tested => [tested]
  | leaf _ => []

/-- The tests that must have come out in one way for an outcome, and what they say of their variables. -/
def facts (constrainer : Constrainer) : Condition → Bool → List (Tested × ConstraintKind)
  | negation operand, outcome => operand.facts constrainer !outcome
  | conjunction left right, true => left.facts constrainer true ++ right.facts constrainer true
  | disjunction left right, false => left.facts constrainer false ++ right.facts constrainer false
  | nullTest tested equals, outcome =>
    if constrainer = .nullCheck then [(tested, if equals = outcome then .isNull else .notNull)] else []
  | flag tested, outcome =>
    if constrainer = .booleanVariable then [(tested, if outcome then .isTrue else .isFalse)] else []
  | _, _ => []

/-- A fact as it is recorded: of its variable only the name is kept. -/
def recorded (fact : Tested × ConstraintKind) : String × ConstraintKind := (Text.lower fact.1.name, fact.2)

variable {constrainer : Constrainer} {condition : Condition} {outcome : Bool}

theorem mem_tests_of_mem_facts : ∀ fact ∈ condition.facts constrainer outcome, fact.1 ∈ condition.tests := by
  induction condition generalizing outcome with
  | negation operand ih => exact ih
  | conjunction left right ihl ihr =>
    cases outcome with
    | false => simp [facts]
    | true =>
      exact forall_mem_append.mpr ⟨fun fact h => mem_append_left _ (ihl fact h), fun fact h =>
        mem_append_right _ (ihr fact h)⟩
  | disjunction left right ihl ihr =>
    cases outcome with
    | true => simp [facts]
    | false =>
      exact forall_mem_append.mpr ⟨fun fact h => mem_append_left _ (ihl fact h), fun fact h =>
        mem_append_right _ (ihr fact h)⟩
  | nullTest tested equals => cases constrainer <;> simp [facts, tests]
  | flag tested => cases constrainer <;> simp [facts, tests]
  | leaf expr => simp [facts]

/-- By induction on the condition, for both outcomes at once: a negation changes the outcome, and an operator has
facts only for the outcome that settles both operands. -/
theorem facts_hold {holding : Declared → Holding} {leaves : VertexId → Option Bool}
    (h : condition.value? holding leaves = some outcome) :
    ∀ fact ∈ condition.facts constrainer outcome, fact.2.HoldsOf (holding fact.1.declared) := by
  induction condition generalizing outcome with
  | negation operand ih =>
    obtain ⟨value, hvalue, rfl⟩ := Option.map_eq_some_iff.mp h
    rw [facts, Bool.not_not]
    exact ih hvalue
  | conjunction left right ihl ihr =>
    cases outcome with
    | false => simp [facts]
    | true =>
      obtain ⟨value, hleft, hright⟩ := Option.bind_eq_some_iff.mp h
      cases value with
      | false => cases hright
      | true => exact forall_mem_append.mpr ⟨ihl hleft, ihr hright⟩
  | disjunction left right ihl ihr =>
    cases outcome with
    | true => simp [facts]
    | false =>
      obtain ⟨value, hleft, hright⟩ := Option.bind_eq_some_iff.mp h
      cases value with
      | true => cases hright
      | false => exact forall_mem_append.mpr ⟨ihl hleft, ihr hright⟩
  | nullTest tested equals =>
    cases constrainer with
    | booleanVariable => simp [facts]
    | nullCheck =>
      have houtcome : ((holding tested.declared == .null) == equals) = outcome := Option.some.inj h
      subst houtcome
      cases equals <;> cases hheld : holding tested.declared <;> simp [facts, ConstraintKind.HoldsOf, hheld]
  | flag tested =>
    cases constrainer with
    | nullCheck => simp [facts]
    | booleanVariable =>
      rw [value?] at h
      split at h
      · rename_i value hheld
        obtain rfl := Option.some.inj h
        cases value <;> simp [facts, ConstraintKind.HoldsOf, hheld]
      · cases h
  | leaf expr => simp [facts]

end Condition

/-! ## Conditions in graphs -/

namespace Program

section
variable (program : Program)

/-- The local variable or parameter that an unqualified variable expression is for. -/
def tested? (expr : VertexId) : Option Tested := do
  if !program.graph.is expr .variableExpression || !program.graph.isUnqualified expr then none
  else
    let name ← program.graph.name? expr
    match (← program.variableBinding? name expr).declared with
    | .localVariable id => some ⟨name, .localVariable id⟩
    | .parameter id => some ⟨name, .parameter id⟩
    | _ => none

/-- The variable beside a literal `null`, on either side. -/
def besideNull? (expr : VertexId) : Option Tested := do
  let left ← program.graph.childAt? expr 0
  let right ← program.graph.childAt? expr 1
  match program.isNullLiteral left, program.isNullLiteral right with
  | false, true => program.tested? left
  | true, false => program.tested? right
  | _, _ => none

/-- The variable that an expression compares with `null`, and whether it does so for equality. -/
def nullTest? (expr : VertexId) : Option (Tested × Bool) :=
  if program.graph.is expr .booleanExpression then
    match program.graph.text? expr (.fact .operator) with
    | some "==" => (program.besideNull? expr).map (·, true)
    | some "!=" => (program.besideNull? expr).map (·, false)
    | _ => none
  else none

/-- The expression is a negation, a conjunction or a disjunction. -/
def IsLogic (expr : VertexId) : Prop :=
  (program.graph.labelOf expr = .prefixExpression ∧ program.graph.text? expr (.fact .operator) = some "!") ∨
    (program.graph.labelOf expr = .booleanExpression ∧
      (program.graph.text? expr (.fact .operator) = some "&&" ∨ program.graph.text? expr (.fact .operator) = some "||"))

/-- An expression is read as a condition. -/
inductive Reads : VertexId → Condition → Prop where
  | negation {expr operand : VertexId} {condition : Condition} (hlabel : program.graph.labelOf expr = .prefixExpression)
    (hoperator : program.graph.text? expr (.fact .operator) = some "!")
    (hchildren : program.graph.children expr = [operand])
    (h : Reads operand condition) : Reads expr (.negation condition)
  | conjunction {expr left right : VertexId} {first second : Condition}
      (hlabel : program.graph.labelOf expr = .booleanExpression)
    (hoperator : program.graph.text? expr (.fact .operator) = some "&&")
    (hchildren : program.graph.children expr = [left, right])
    (hleft : Reads left first) (hright : Reads right second) : Reads expr (.conjunction first second)
  | disjunction {expr left right : VertexId} {first second : Condition}
      (hlabel : program.graph.labelOf expr = .booleanExpression)
    (hoperator : program.graph.text? expr (.fact .operator) = some "||")
    (hchildren : program.graph.children expr = [left, right])
    (hleft : Reads left first) (hright : Reads right second) : Reads expr (.disjunction first second)
  | nullTest {expr : VertexId} {tested : Tested} {equals : Bool} (h : program.nullTest? expr = some (tested, equals)) :
    Reads expr (.nullTest tested equals)
  | flag {expr : VertexId} {tested : Tested} (h : program.tested? expr = some tested) : Reads expr (.flag tested)
  | leaf {expr : VertexId} (hlogic : ¬program.IsLogic expr) (hnull : program.nullTest? expr = none)
    (htested : program.tested? expr = none) : Reads expr (.leaf expr)

/-- The condition that is read off an expression, down to a depth. -/
def conditionWithin : Nat → VertexId → Condition
  | 0, expr => .leaf expr
  | n + 1, expr =>
    match program.graph.labelOf expr, program.graph.text? expr (.fact .operator), program.graph.children expr with
    | .prefixExpression, some "!", [operand] => .negation (conditionWithin n operand)
    | .booleanExpression, some "&&", [left, right] => .conjunction (conditionWithin n left) (conditionWithin n right)
    | .booleanExpression, some "||", [left, right] => .disjunction (conditionWithin n left) (conditionWithin n right)
    | _, _, _ =>
      match program.nullTest? expr, program.tested? expr with
      | some (tested, equals), _ => .nullTest tested equals
      | none, some tested => .flag tested
      | none, none => .leaf expr

end

variable {program : Program} {expr : VertexId}

theorem localName?_eq : program.localName? expr = (program.tested? expr).map fun tested => Text.lower tested.name := by
  rw [localName?, tested?]
  split
  · rfl
  cases program.graph.name? expr with
  | none => rfl
  | some name =>
    cases hbinding : program.variableBinding? name expr with
    | none => simp [hbinding]
    | some binding =>
      obtain ⟨type, declared⟩ := binding
      cases declared <;> simp [hbinding]

theorem besideNull?_eq {β : Type} (f : String → β) : (do
      let left ← program.graph.childAt? expr 0
      let right ← program.graph.childAt? expr 1
      let name ← match program.isNullLiteral left, program.isNullLiteral right with
        | false, true => program.localName? left
        | true, false => program.localName? right
        | _, _ => none
      return f name) = (program.besideNull? expr).map fun tested => f (Text.lower tested.name) := by
  rw [besideNull?]
  cases program.graph.childAt? expr 0 with
  | none => rfl
  | some left =>
    cases program.graph.childAt? expr 1 with
    | none => rfl
    | some right =>
      simp only [localName?_eq, Option.bind_eq_bind, Option.bind_some]
      cases program.isNullLiteral left <;> cases program.isNullLiteral right
      · rfl
      · cases program.tested? left <;> rfl
      · cases program.tested? right <;> rfl
      · rfl

theorem nullCheck?_eq (outcome : Bool) : program.nullCheck? expr outcome =
    (program.nullTest? expr).map fun test =>
    (Text.lower test.1.name, if test.2 = outcome then .isNull else .notNull) := by
  rw [nullCheck?, nullTest?]
  by_cases his : program.graph.is expr .booleanExpression = true
  · rw [if_pos his, if_neg (by simp [his])]
    have hsides : ∀ equals : Bool, _ = (program.besideNull? expr).map _ := fun equals =>
      besideNull?_eq fun name => (name, if equals = outcome then ConstraintKind.isNull else .notNull)
    split
    · rename_i hoperator
      rw [hoperator, Option.map_map]
      exact hsides true
    · rename_i hoperator
      rw [hoperator, Option.map_map]
      exact hsides false
    · rename_i hequal hunequal
      cases hoperator : program.graph.text? expr (.fact .operator) with
      | none => rfl
      | some operator =>
        have hneither : operator ≠ "==" ∧ operator ≠ "!=" :=
          ⟨fun heq => hequal (by rw [hoperator, heq]), fun heq => hunequal (by rw [hoperator, heq])⟩
        simp [hneither]
  · rw [if_neg his, if_pos (by simp [his])]
    rfl

theorem is_of_nullTest? {test : Tested × Bool} (h : program.nullTest? expr = some test) :
    program.graph.is expr .booleanExpression = true := by
  rw [nullTest?] at h
  split at h
  · assumption
  · cases h

theorem is_of_tested? {tested : Tested} (h : program.tested? expr = some tested) :
    program.graph.is expr .variableExpression = true := by
  rw [tested?] at h
  split at h
  · cases h
  · rename_i hnot
    simp only [Bool.or_eq_true, Bool.not_eq_true', not_or, Bool.not_eq_false] at hnot
    exact hnot.1

variable {constrainer : Constrainer} {outcome : Bool}

theorem leafFact?_eq_none (hnull : program.nullTest? expr = none) (htested : program.tested? expr = none) :
    program.leafFact? constrainer expr outcome = none := by
  cases constrainer with
  | nullCheck => rw [leafFact?, nullCheck?_eq, hnull, Option.map_none]
  | booleanVariable => rw [leafFact?, booleanVariable?, localName?_eq, htested, Option.map_none, Option.map_none]

theorem IsLogic.nullTest?_eq_none (h : program.IsLogic expr) : program.nullTest? expr = none := by
  rw [nullTest?]
  rcases h with ⟨hlabel, hoperator⟩ | ⟨-, hoperator | hoperator⟩ <;> simp [hoperator]

theorem nullTest?_eq_none (h : program.graph.labelOf expr ≠ .booleanExpression) : program.nullTest? expr = none :=
  Option.eq_none_iff_forall_ne_some.mpr fun _ htest => h (labelOf_of_is (is_of_nullTest? htest))

theorem tested?_eq_none (h : program.graph.labelOf expr ≠ .variableExpression) : program.tested? expr = none :=
  Option.eq_none_iff_forall_ne_some.mpr fun _ htested => h (labelOf_of_is (is_of_tested? htested))

theorem IsLogic.tested?_eq_none (h : program.IsLogic expr) : program.tested? expr = none := by
  refine Program.tested?_eq_none ?_
  rcases h with ⟨hlabel, -⟩ | ⟨hlabel, -⟩ <;> rw [hlabel] <;> decide

section
variable (constrainer) (outcome) (n : Nat)

theorem conditionFactsWithin_negation (hlabel : program.graph.labelOf expr = .prefixExpression)
    (hoperator : program.graph.text? expr (.fact .operator) = some "!") :
    program.conditionFactsWithin constrainer (n + 1) expr outcome =
      (program.graph.childAt? expr 0).toList.flatMap (program.conditionFactsWithin constrainer n · !outcome) := by
  conv_lhs => unfold conditionFactsWithin
  simp only [hlabel, hoperator]

theorem conditionFactsWithin_conjunction (hlabel : program.graph.labelOf expr = .booleanExpression)
    (hoperator : program.graph.text? expr (.fact .operator) = some "&&") :
    program.conditionFactsWithin constrainer (n + 1) expr outcome =
      if outcome then (program.graph.children expr).flatMap (program.conditionFactsWithin constrainer n · true)
        else [] := by
  have hlogic : program.IsLogic expr := .inr ⟨hlabel, .inl hoperator⟩
  have hnone : program.leafFact? constrainer expr outcome = none :=
    leafFact?_eq_none hlogic.nullTest?_eq_none hlogic.tested?_eq_none
  conv_lhs => unfold conditionFactsWithin
  cases outcome
  · simp [hlabel, hoperator, hnone]
  · simp [hlabel, hoperator]

theorem conditionFactsWithin_disjunction (hlabel : program.graph.labelOf expr = .booleanExpression)
    (hoperator : program.graph.text? expr (.fact .operator) = some "||") :
    program.conditionFactsWithin constrainer (n + 1) expr outcome =
      if outcome then []
        else (program.graph.children expr).flatMap (program.conditionFactsWithin constrainer n · false) := by
  have hlogic : program.IsLogic expr := .inr ⟨hlabel, .inr hoperator⟩
  have hnone : program.leafFact? constrainer expr outcome = none :=
    leafFact?_eq_none hlogic.nullTest?_eq_none hlogic.tested?_eq_none
  conv_lhs => unfold conditionFactsWithin
  cases outcome
  · simp [hlabel, hoperator]
  · simp [hlabel, hoperator, hnone]

theorem conditionFactsWithin_of_not_isLogic (h : ¬program.IsLogic expr) :
    program.conditionFactsWithin constrainer (n + 1) expr outcome =
    (program.leafFact? constrainer expr outcome).toList := by
  conv_lhs => unfold conditionFactsWithin
  dsimp only
  split
  · rename_i hlabel hoperator
    exact absurd (.inr ⟨hlabel, .inl hoperator⟩) h
  · rename_i hlabel hoperator
    exact absurd (.inr ⟨hlabel, .inr hoperator⟩) h
  · rename_i hlabel hoperator
    exact absurd (.inl ⟨hlabel, hoperator⟩) h
  · rfl

end

theorem exists_pred_of_child (forest : program.graph.IsForest) {expr child n : Nat}
    (hn : program.graph.vertexCount ≤ n + expr) (hchild : child ∈ program.graph.children expr) : ∃ m, n = m + 1 ∧
    program.graph.vertexCount ≤ m + child := by
  have hlt : expr < child := forest.lt_of_mem hchild
  have hcount : child < program.graph.vertexCount := Flow.lt_of_mem_children forest hchild
  exact ⟨n - 1, by omega, by omega⟩

/-- The facts that are recorded at an expression are those of its condition. -/
theorem Reads.conditionFactsWithin_eq (forest : program.graph.IsForest) {condition : Condition}
    (h : program.Reads expr condition) {n : Nat} (hn : program.graph.vertexCount ≤ n + expr) :
    program.conditionFactsWithin constrainer (n + 1) expr outcome =
    (condition.facts constrainer outcome).map Condition.recorded := by
  induction h generalizing n outcome with
  | negation hlabel hoperator hchildren _ ih =>
    obtain ⟨m, rfl, hm⟩ := exists_pred_of_child forest hn (hchildren ▸ mem_cons_self)
    rw [conditionFactsWithin_negation _ _ _ hlabel hoperator, CodeGraph.childAt?, hchildren]
    exact (flatMap_singleton ..).trans (ih hm)
  | conjunction hlabel hoperator hchildren _ _ ihl ihr =>
    obtain ⟨m, rfl, hm⟩ := exists_pred_of_child forest hn (hchildren ▸ mem_cons_self)
    obtain ⟨_, hk, hm'⟩ := exists_pred_of_child forest hn (hchildren ▸ mem_cons_of_mem _ mem_cons_self)
    cases hk
    rw [conditionFactsWithin_conjunction _ _ _ hlabel hoperator, hchildren]
    cases outcome
    · rfl
    · simp [Condition.facts, ihl hm, ihr hm']
  | disjunction hlabel hoperator hchildren _ _ ihl ihr =>
    obtain ⟨m, rfl, hm⟩ := exists_pred_of_child forest hn (hchildren ▸ mem_cons_self)
    obtain ⟨_, hk, hm'⟩ := exists_pred_of_child forest hn (hchildren ▸ mem_cons_of_mem _ mem_cons_self)
    cases hk
    rw [conditionFactsWithin_disjunction _ _ _ hlabel hoperator, hchildren]
    cases outcome
    · simp [Condition.facts, ihl hm, ihr hm']
    · rfl
  | nullTest h =>
    have hlogic : ¬program.IsLogic _ := fun hlogic => Option.some_ne_none _ (h.symm.trans hlogic.nullTest?_eq_none)
    have hlabel := labelOf_of_is (is_of_nullTest? h)
    have htested : program.tested? _ = none := tested?_eq_none (by rw [hlabel]; decide)
    rw [conditionFactsWithin_of_not_isLogic _ _ _ hlogic]
    cases constrainer with
    | nullCheck =>
      rw [leafFact?, nullCheck?_eq, h]
      rfl
    | booleanVariable =>
      rw [leafFact?, booleanVariable?, localName?_eq, htested]
      rfl
  | flag h =>
    have hlogic : ¬program.IsLogic _ := fun hlogic => Option.some_ne_none _ (h.symm.trans hlogic.tested?_eq_none)
    have hlabel := labelOf_of_is (is_of_tested? h)
    have hnull : program.nullTest? _ = none := nullTest?_eq_none (by rw [hlabel]; decide)
    rw [conditionFactsWithin_of_not_isLogic _ _ _ hlogic]
    cases constrainer with
    | nullCheck =>
      rw [leafFact?, nullCheck?_eq, hnull]
      rfl
    | booleanVariable =>
      rw [leafFact?, booleanVariable?, localName?_eq, h]
      rfl
  | leaf hlogic hnull htested =>
    rw [conditionFactsWithin_of_not_isLogic _ _ _ hlogic, leafFact?_eq_none hnull htested]
    rfl

theorem conditionWithin_of_not_isLogic (h : ¬program.IsLogic expr) (n : Nat) : program.conditionWithin (n + 1) expr =
    match program.nullTest? expr, program.tested? expr with
    | some (tested, equals), _ => .nullTest tested equals
    | none, some tested => .flag tested
    | none, none => .leaf expr := by
  conv_lhs => unfold conditionWithin
  split
  · rename_i hlabel hoperator _
    exact absurd (.inl ⟨hlabel, hoperator⟩) h
  · rename_i hlabel hoperator _
    exact absurd (.inr ⟨hlabel, .inl hoperator⟩) h
  · rename_i hlabel hoperator _
    exact absurd (.inr ⟨hlabel, .inr hoperator⟩) h
  · rfl

/-- Every expression of a graph is read as a condition. -/
theorem reads_conditionWithin (forest : program.graph.IsForest) (operands : program.graph.HasOperands) {n : Nat}
    (hn : program.graph.vertexCount ≤ n + expr) : program.Reads expr (program.conditionWithin (n + 1) expr) := by
  induction n using Nat.strongRecOn generalizing expr with
  | _ n ih =>
  have hchild : ∀ child ∈ program.graph.children expr, program.Reads child (program.conditionWithin n child) := by
    intro child hchild
    obtain ⟨m, rfl, hm⟩ := exists_pred_of_child forest hn hchild
    exact ih m (Nat.lt_succ_self m) hm
  by_cases hlogic : program.IsLogic expr
  · have hcount := (operands.operandsAt expr).count
    rcases hlogic with ⟨hlabel, hoperator⟩ | ⟨hlabel, hoperator | hoperator⟩
    · rw [hlabel] at hcount
      obtain ⟨operand, hchildren⟩ := length_eq_one_iff.mp (beq_iff_eq.mp hcount)
      have heq : program.conditionWithin (n + 1) expr = .negation (program.conditionWithin n operand) := by
        conv_lhs => unfold conditionWithin
        simp only [hlabel, hoperator, hchildren]
      rw [heq]
      exact .negation hlabel hoperator hchildren (hchild operand (by simp [hchildren]))
    · rw [hlabel] at hcount
      obtain ⟨left, right, hchildren⟩ := length_eq_two.mp (beq_iff_eq.mp hcount)
      have heq : program.conditionWithin (n + 1) expr = .conjunction (program.conditionWithin n left)
          (program.conditionWithin n right) := by
        conv_lhs => unfold conditionWithin
        simp only [hlabel, hoperator, hchildren]
      rw [heq]
      exact .conjunction hlabel hoperator hchildren (hchild left (by simp [hchildren]))
        (hchild right (by simp [hchildren]))
    · rw [hlabel] at hcount
      obtain ⟨left, right, hchildren⟩ := length_eq_two.mp (beq_iff_eq.mp hcount)
      have heq : program.conditionWithin (n + 1) expr = .disjunction (program.conditionWithin n left)
          (program.conditionWithin n right) := by
        conv_lhs => unfold conditionWithin
        simp only [hlabel, hoperator, hchildren]
      rw [heq]
      exact .disjunction hlabel hoperator hchildren (hchild left (by simp [hchildren]))
        (hchild right (by simp [hchildren]))
  · rw [conditionWithin_of_not_isLogic hlogic]
    cases hnull : program.nullTest? expr with
    | some test => exact .nullTest hnull
    | none =>
      cases htested : program.tested? expr with
      | some tested => exact .flag htested
      | none => exact .leaf hlogic hnull htested

/-- The facts that are recorded for an outcome of a condition are those of the tests that must have come out in one
way for it, in their order, each by the name of the variable in lower case. Whatever the variables hold and the
leaves come to, if the condition has this outcome each fact is true of the variable that was tested, and if the
variables of the condition have different names in lower case it is true of every variable of its name. -/
theorem conditionFacts_sound {config : Settings} {sources : List (String × String)} {graph : CodeGraph}
    (h : Build.IsGraphOf config sources graph) (constrainer : Constrainer) (expr : VertexId) (outcome : Bool) :
    (∃ condition, (Program.ofGraph graph).Reads expr condition) ∧
      ∀ condition, (Program.ofGraph graph).Reads expr condition →
        (Program.ofGraph graph).conditionFacts constrainer expr outcome =
          (condition.facts constrainer outcome).map (fun fact => (Text.lower fact.1.name, fact.2)) ∧
        ∀ holding leaves, condition.value? holding leaves = some outcome →
          (∀ fact ∈ condition.facts constrainer outcome, fact.2.HoldsOf (holding fact.1.declared)) ∧
          ((∀ x ∈ condition.tests, ∀ y ∈ condition.tests, Text.lower x.name = Text.lower y.name →
          x.declared = y.declared) → ∀ fact ∈ (Program.ofGraph graph).conditionFacts constrainer expr outcome,
          ∀ x ∈ condition.tests,
              Text.lower x.name = fact.1 → fact.2.HoldsOf (holding x.declared)) := by
  have forest : (ofGraph graph).graph.IsForest := h.wellPlaced.forest
  have hbound : (ofGraph graph).graph.vertexCount ≤ (ofGraph graph).graph.vertexCount + expr :=
    Nat.le_add_right ..
  refine ⟨⟨_, reads_conditionWithin forest h.hasOperands hbound⟩, fun condition hreads => ?_⟩
  have hfacts : (ofGraph graph).conditionFacts constrainer expr outcome =
      (condition.facts constrainer outcome).map Condition.recorded := hreads.conditionFactsWithin_eq forest hbound
  refine ⟨hfacts, fun holding leaves hvalue => ⟨Condition.facts_hold hvalue, fun hnames fact hfact x hx hname => ?_⟩⟩
  rw [hfacts] at hfact
  obtain ⟨test, htest, rfl⟩ := mem_map.mp hfact
  rw [hnames x hx test.1 (Condition.mem_tests_of_mem_facts test htest) hname]
  exact Condition.facts_hold hvalue test htest

/-! ## A refuted disjunction -/

def refutingBoth : String := "class A { void m(Object x, Boolean b) { if (!(x == null || !b)) { } } }"

/-- The condition of the method, over its two parameters. -/
def refutedDisjunction : Condition :=
  .negation (.disjunction (.nullTest ⟨"x", .parameter 2⟩ true) (.negation (.flag ⟨"b", .parameter 3⟩)))

def readsRefuted (graph : CodeGraph) (_ : VertexId) : Bool :=
  (ofGraph graph).conditionWithin (graph.vertexCount + 1) 8 == refutedDisjunction

theorem readsRefuted_refutingBoth :
    (Build.treeOfChars refutingBoth.toList).toOption.any (anyMethod readsRefuted) = true :=
  Build.any_of_toList_eq String.toList_ofList (by decide +kernel)

/-- Only the first parameter is not null, and the second one is true. -/
def bothRefuted : Declared → Holding
  | .parameter 3 => .truth true
  | .parameter 2 => .other
  | _ => .null

/-- Where the condition holds, both operands of the disjunction failed. -/
theorem refutingBoth_facts : ∃ graph, Build.IsGraphOf bareSettings [("A", refutingBoth)] graph ∧
    (Program.ofGraph graph).Reads 8 refutedDisjunction ∧ refutedDisjunction.value? bothRefuted (fun _ => none) =
    some true ∧
    (Program.ofGraph graph).conditionFacts .nullCheck 8 true = [("x", .notNull)] ∧
    (Program.ofGraph graph).conditionFacts .booleanVariable 8 true = [("b", .isTrue)] ∧
    ∀ constrainer, ∀ fact ∈ (Program.ofGraph graph).conditionFacts constrainer 8 true, ∀ x ∈ refutedDisjunction.tests,
      Text.lower x.name = fact.1 → fact.2.HoldsOf (bothRefuted x.declared) := by
  obtain ⟨graph, method, hgraph, -, htest⟩ := exists_graph readsRefuted_refutingBoth
  have hbound : (ofGraph graph).graph.vertexCount ≤ (ofGraph graph).graph.vertexCount + 8 :=
    Nat.le_add_right ..
  have hforest : (ofGraph graph).graph.IsForest := hgraph.wellPlaced.forest
  have hreads := reads_conditionWithin hforest hgraph.hasOperands hbound
  have hcondition : (ofGraph graph).conditionWithin ((ofGraph graph).graph.vertexCount + 1) 8 =
      refutedDisjunction :=
    beq_iff_eq.mp htest
  rw [hcondition] at hreads
  have hvalue : refutedDisjunction.value? bothRefuted (fun _ => none) = some true := by decide
  have hnames : ∀ x ∈ refutedDisjunction.tests, ∀ y ∈ refutedDisjunction.tests,
      Text.lower x.name = Text.lower y.name → x.declared = y.declared := by decide
  obtain ⟨-, hnull⟩ := conditionFacts_sound hgraph .nullCheck 8 true
  obtain ⟨-, hboolean⟩ := conditionFacts_sound hgraph .booleanVariable 8 true
  refine ⟨graph, hgraph, hreads, hvalue, (hnull _ hreads).1.trans (by decide),
    (hboolean _ hreads).1.trans (by decide), ?_⟩
  intro constrainer
  cases constrainer with
  | nullCheck => exact ((hnull _ hreads).2 _ _ hvalue).2 hnames
  | booleanVariable => exact ((hboolean _ hreads).2 _ _ hvalue).2 hnames

end Program

end ApexPaths
