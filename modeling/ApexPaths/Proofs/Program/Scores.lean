import ApexPaths.Program.Typing
import Mathlib.Algebra.GroupWithZero.Nat
import Mathlib.Data.List.Induction
import Mathlib.Data.List.Zip

/-!
How overloads are scored. Of the candidates that fit a call the first one of least cost is taken, where the cost is the
sum of what the arguments cost. What an argument costs is told from the text of the parameter's type, and from what the
text and its type arguments mean in the class of the method.
-/

namespace ApexPaths.Program
set_option autoImplicit false

open List

/-! ## The first of the least -/

section
variable {α : Type} {score? : α → Option Nat} {items : List α} {least : Nat} {chosen : α}

/-- The item has the score, no other item has a smaller one, and no earlier item has the same. -/
def IsFirstLeast (score? : α → Option Nat) (items : List α) (least : Nat) (chosen : α) : Prop :=
  score? chosen = some least ∧ ∃ before after, items = before ++ chosen :: after ∧
    (∀ item ∈ before, ∀ score ∈ score? item, least < score) ∧ ∀ item ∈ after, ∀ score ∈ score? item, least ≤ score

section
variable (h : IsFirstLeast score? items least chosen)
include h

theorem IsFirstLeast.mem : chosen ∈ items := by
  obtain ⟨-, before, after, rfl, -⟩ := h
  simp

theorem IsFirstLeast.le {item : α} (hitem : item ∈ items) {score : Nat}
    (hscore : score? item = some score) : least ≤ score := by
  obtain ⟨hchosen, before, after, rfl, hbefore, hafter⟩ := h
  rcases mem_append.mp hitem with hitem | hitem
  · exact Nat.le_of_lt (hbefore item hitem score hscore)
  · rcases mem_cons.mp hitem with rfl | hitem
    · exact Nat.le_of_eq (Option.some.inj (hchosen.symm.trans hscore))
    · exact hafter item hitem score hscore

theorem IsFirstLeast.concat {item : α}
    (hitem : ∀ score ∈ score? item, least ≤ score) : IsFirstLeast score? (items ++ [item]) least chosen := by
  obtain ⟨hchosen, before, after, rfl, hbefore, hafter⟩ := h
  refine ⟨hchosen, before, after ++ [item], by simp, hbefore, ?_⟩
  exact forall_mem_append.mpr ⟨hafter, by simpa using hitem⟩

end

/-- What is chosen so far: the first of the least, or nothing as long as nothing has a score. -/
def IsBest (score? : α → Option Nat) (items : List α) : Option (Nat × α) → Prop
  | none => ∀ item ∈ items, score? item = none
  | some (least, chosen) => IsFirstLeast score? items least chosen

theorem IsBest.lesser {best : Option (Nat × α)} (h : IsBest score? items best) (item : α) :
    IsBest score? (items ++ [item]) (lesser score? best item) := by
  fun_cases Program.lesser score? best item with
  | case1 =>
    have hnone : score? item = none := ‹_›
    cases best with
    | none => exact forall_mem_append.mpr ⟨h, by simpa using hnone⟩
    | some best => exact IsFirstLeast.concat h (by simp [hnone])
  | case2 score hscore =>
    refine ⟨hscore, items, [], rfl, fun other hother found hfound => ?_, by simp⟩
    exact nomatch (h other hother).symm.trans hfound
  | case3 score least chosen hscore hless =>
    refine ⟨hscore, items, [], rfl, fun other hother found hfound => ?_, by simp⟩
    exact Nat.lt_of_lt_of_le hless (IsFirstLeast.le h hother hfound)
  | case4 score least chosen hscore hless => exact IsFirstLeast.concat h (by simpa [hscore] using hless)

theorem isBest_foldl (score? : α → Option Nat) (items : List α) :
    IsBest score? items (items.foldl (lesser score?) none) := by
  induction items using List.reverseRecOn with
  | nil => simp [IsBest]
  | append_singleton items item ih =>
    rw [foldl_append, foldl_cons, foldl_nil]
    exact ih.lesser item

theorem firstLeast_eq_none_iff : firstLeast score? items = none ↔ ∀ item ∈ items, score? item = none := by
  have hbest := isBest_foldl score? items
  rw [firstLeast, Option.map_eq_none_iff]
  cases hfold : items.foldl (lesser score?) none with
  | none =>
    rw [hfold] at hbest
    exact iff_of_true rfl hbest
  | some best =>
    rw [hfold] at hbest
    have hleast : IsFirstLeast score? items best.1 best.2 := hbest
    exact iff_of_false (by simp) fun h => nomatch (h best.2 hleast.mem).symm.trans hleast.1

theorem exists_isFirstLeast (h : firstLeast score? items = some chosen) :
    ∃ least, IsFirstLeast score? items least chosen := by
  have hbest := isBest_foldl score? items
  obtain ⟨best, hfold, rfl⟩ := Option.map_eq_some_iff.mp h
  rw [hfold] at hbest
  exact ⟨best.1, hbest⟩

theorem mem_of_firstLeast (h : firstLeast score? items = some chosen) : chosen ∈ items :=
  (exists_isFirstLeast h).elim fun _ hleast => hleast.mem

end

/-! ## Costs -/

theorem total?_eq_some_iff {parts : List (Option Nat)} {total : Nat} :
    total? parts = some total ↔ (∀ part ∈ parts, part.isSome = true) ∧ (parts.map (·.getD 0)).sum = total := by
  induction parts generalizing total with
  | nil => simp [total?]
  | cons part parts ih =>
    cases part with
    | none => simp [total?]
    | some cost =>
      simp only [total?, Option.bind_eq_bind, Option.bind_some, Option.pure_def, Option.bind_eq_some_iff, ih,
        Option.some.injEq]
      constructor
      · rintro ⟨rest, ⟨hrest, rfl⟩, rfl⟩
        simpa using hrest
      · rintro ⟨hparts, rfl⟩
        exact ⟨_, ⟨fun part hpart => hparts part (mem_cons_of_mem _ hpart), rfl⟩, by simp⟩

variable (program : Program)

section
variable (args : List StaticType) (context : Option VertexId) (method : VertexId)

/-- The arguments of a call of a method, each with its parameter. -/
def passed : List (Parameter × StaticType) := (program.graph.parameters method).zip args

/-- What it costs to pass an argument of a call of a method. -/
def passingScore? (pair : Parameter × StaticType) : Option Nat :=
  program.parameterScore? pair.1.type (program.graph.enclosingType? method) pair.2 context

/-- The method has a parameter for every argument, and each fits. -/
def Eligible : Prop := (program.graph.parameters method).length = args.length ∧
  ∀ pair ∈ program.passed args method, (program.passingScore? context method pair).isSome = true

/-- What all arguments of a call of a method cost together. -/
def cost : Nat := ((program.passed args method).map fun pair => (program.passingScore? context method pair).getD 0).sum

variable {program args context method}

theorem callScore?_eq_some_iff {total : Nat} : program.callScore? args context method = some total ↔
    program.Eligible args context method ∧ program.cost args context method = total := by
  have hzip : (program.graph.parameters method).zipWith
      (fun param arg => program.parameterScore? param.type (program.graph.enclosingType? method) arg context) args =
      (program.passed args method).map (program.passingScore? context method) := by
    rw [passed, map_zip_eq_zipWith]
    rfl
  rw [callScore?]
  by_cases hlength : (program.graph.parameters method).length = args.length
  · simp only [hlength, bne_self_eq_false, Bool.false_eq_true, if_false, hzip, total?_eq_some_iff,
      forall_mem_map, Eligible, true_and, map_map, cost, Function.comp_def]
  · simp [hlength, Eligible]

/-- With one parameter and one argument the cost is that of the argument. -/
theorem callScore?_one {param : Parameter} {arg : StaticType} (h : program.graph.parameters method = [param]) :
    program.callScore? [arg] context method =
      program.parameterScore? param.type (program.graph.enclosingType? method) arg context := by
  simp only [callScore?, h, length_singleton, bne_self_eq_false, Bool.false_eq_true, if_false,
    zipWith_cons_cons, zipWith_nil_right, total?]
  cases program.parameterScore? param.type (program.graph.enclosingType? method) arg context <;> rfl

theorem callScore?_eq_none_iff : program.callScore? args context method = none ↔
    ¬program.Eligible args context method := by
  rw [Option.eq_none_iff_forall_ne_some]
  constructor
  · exact fun h heligible => h _ (callScore?_eq_some_iff.mpr ⟨heligible, rfl⟩)
  · exact fun h total htotal => h (callScore?_eq_some_iff.mp htotal).1

end

/-! ## What a parameter's type means -/

/-- A type means the same in two places: its text names one declaration or none in both, and so do its type
arguments. -/
structure MeansSame (here there : Option VertexId) (type : String) : Prop where
  whole : program.lookup? here (TypeName.canonical type) = program.lookup? there (TypeName.canonical type)
  parts : ∀ part ∈ (TypeName.splitGeneric (TypeName.canonical type)).2,
    program.lookup? here (TypeName.canonical part) = program.lookup? there (TypeName.canonical part)

variable {program} {here there : Option VertexId} {type : String}

theorem subtypeScore?_congr (h : program.lookup? here type = program.lookup? there type) (sub : String)
    (context : Option VertexId) : program.subtypeScore? sub context type here =
    program.subtypeScore? sub context type there := by
  simp only [subtypeScore?, h]

theorem elementScore?_congr {part : String}
    (h : program.lookup? here (TypeName.canonical part) = program.lookup? there (TypeName.canonical part))
    (arg : String) (context : Option VertexId) :
    program.elementScore? arg context part here = program.elementScore? arg context part there := by
  simp only [elementScore?, subtypeScore?_congr h]

/-- A value of a type that is written as the parameter's costs nothing. -/
theorem typeScore?_self (type : String) (context here : Option VertexId) :
    program.typeScore? type context type here = some 0 := by
  simp [typeScore?, Text.eqIgnoringCase]

theorem zipWith_congr_of_mem {α β γ : Type} {f g : α → β → γ} (as : List α) {bs : List β}
    (h : ∀ a, ∀ b ∈ bs, f a b = g a b) : as.zipWith f bs = as.zipWith g bs := by
  induction bs generalizing as with
  | nil => simp
  | cons b bs ih =>
    obtain ⟨hfirst, hrest⟩ : (∀ a, f a b = g a b) ∧ ∀ a, ∀ b ∈ bs, f a b = g a b :=
      ⟨fun a => h a b mem_cons_self, fun a c hc => h a c (mem_cons_of_mem _ hc)⟩
    cases as with
    | nil => rfl
    | cons a as => rw [zipWith_cons_cons, zipWith_cons_cons, hfirst, ih as hrest]

/-- Where a type means the same, passing an argument to it costs the same. -/
theorem parameterScore?_congr (h : program.MeansSame here there type) (arg : StaticType) (context : Option VertexId) :
    program.parameterScore? type here arg context = program.parameterScore? type there arg context := by
  cases arg with
  | unknown => rfl
  | null => simp only [parameterScore?, h.whole]
  | known arg =>
    have hparts := fun parts : List String => zipWith_congr_of_mem parts fun a part hpart =>
      elementScore?_congr (h.parts part hpart) a context
    simp only [parameterScore?, typeScore?, subtypeScore?_congr h.whole, hparts]

end ApexPaths.Program
