import ApexPaths.Proofs.Walk.Parts
import Mathlib.Data.List.Flatten
import Mathlib.Data.List.Perm.Basic

/-!
What is evaluated lies among the expressions of a vertex, in the same order. The subtree of an expression in post-order
contains the subtrees of its parts one after the other, and the evaluated expressions of a vertex contain
those of its parts.

Subtrees in post-order. A subtree has every vertex once, and the evaluated expressions of a vertex lie in its
subtree. Other expressions and what is left of some subtrees split them if they have the same computed expressions.
-/

namespace ApexPaths
set_option autoImplicit false

open List

namespace CodeGraph

variable {graph : CodeGraph}

/-! ## Post-orders -/

/-- Lists that are laid out level by level, each vertex after those that come next, do not depend on a bound that
is large enough. -/
theorem eq_of_levels {next : Nat → List Nat} {laid : Nat → Nat → List Nat} {count : Nat} (hzero : ∀ v, laid 0 v = [v])
    (hsucc : ∀ n v, laid (n + 1) v = (next v).flatMap (laid n) ++ [v]) (hlast : ∀ v, count ≤ v → next v = [])
    (hlt : ∀ v, ∀ w ∈ next v, v < w) (n m : Nat) (v : Nat) (hn : count ≤ v + n) (hm : count ≤ v + m) : laid n v =
    laid m v := by
  have hend : ∀ k v : Nat, count ≤ v → laid k v = [v] := by
    intro k v hv
    cases k with
    | zero => exact hzero v
    | succ k =>
      rw [hsucc, hlast v hv]
      rfl
  induction n generalizing m v with
  | zero => rw [hend 0 v hn, hend m v hn]
  | succ n ih =>
    by_cases hv : count ≤ v
    · rw [hend _ v hv, hend _ v hv]
    · obtain ⟨m, rfl⟩ : ∃ k, m = k + 1 := Nat.exists_eq_add_one.mpr (by omega)
      rw [hsucc, hsucc]
      congr 1
      refine flatMap_congr fun w hw => ?_
      have hnext := hlt v w hw
      exact ih m w (by omega) (by omega)

section
variable (forest : graph.IsForest)
include forest

theorem postOrderWithin_congr (n m : Nat) (v : Nat) (hn : graph.vertexCount ≤ v + n) (hm : graph.vertexCount ≤ v + m) :
    graph.postOrderWithin n v = graph.postOrderWithin m v :=
  eq_of_levels (fun _ => rfl) (fun _ _ => rfl) (fun _ hv => graph.children_of_vertexCount_le hv)
  (fun _ _ hc => forest.lt_of_mem hc) n m v hn hm

theorem postOrder_eq (v : VertexId) : graph.postOrder v = (graph.children v).flatMap graph.postOrder ++ [v] := by
  have hwithin : graph.postOrder v = graph.postOrderWithin (graph.vertexCount + 1) v :=
    postOrderWithin_congr forest _ _ v (Nat.le_add_left ..) (by omega)
  rw [hwithin]
  rfl

end

/-- The subtrees of some vertices lie in those of others, in the same order. -/
def Covers (graph : CodeGraph) (tops vertices : List VertexId) : Prop :=
  (vertices.flatMap graph.postOrder).Sublist (tops.flatMap graph.postOrder)

namespace Covers

variable {tops vertices tops' vertices' : List VertexId}

theorem of_sublist (h : vertices.Sublist tops) : graph.Covers tops vertices := h.flatMap _

theorem trans (h : graph.Covers tops vertices) (h' : graph.Covers vertices vertices') : graph.Covers tops vertices' :=
  List.Sublist.trans h' h

theorem append (h : graph.Covers tops vertices) (h' : graph.Covers tops' vertices') :
    graph.Covers (tops ++ tops') (vertices ++ vertices') := by
  rw [Covers, flatMap_append, flatMap_append]
  exact List.Sublist.append h h'

theorem flatMap {f : VertexId → List VertexId} (h : ∀ top ∈ tops, graph.Covers [top] (f top)) :
    graph.Covers tops (tops.flatMap f) := by
  rw [Covers, flatMap_assoc]
  refine .flatMap_right _ fun top htop => ?_
  have hone := h top htop
  rwa [Covers, flatMap_singleton] at hone

theorem map {f : VertexId → VertexId} (h : ∀ top ∈ tops, graph.Covers [top] [f top]) :
    graph.Covers tops (tops.map f) := by
  rw [map_eq_flatMap]
  exact flatMap h

theorem children (forest : graph.IsForest) (top : VertexId) : graph.Covers [top] (graph.children top) := by
  rw [Covers, flatMap_singleton, postOrder_eq forest]
  exact sublist_append_left ..

theorem of_sublist_children (forest : graph.IsForest) {top : VertexId} (h : vertices.Sublist (graph.children top)) :
    graph.Covers [top] vertices := (children forest top).trans (of_sublist h)

end Covers

/-! ## Children by number -/

theorem childAt?_sublist (top : VertexId) (index : Nat) :
    (graph.childAt? top index).toList.Sublist (graph.children top) := by
  rw [childAt?]
  cases h : (graph.children top)[index]? with
  | none => exact nil_sublist _
  | some child => exact singleton_sublist.mpr (mem_of_getElem? h)

theorem two_sublist {top first second : VertexId} (hfirst : graph.childAt? top 0 = some first)
    (hsecond : graph.childAt? top 1 = some second) : [first, second].Sublist (graph.children top) := by
  rw [childAt?] at hfirst hsecond
  cases hchildren : graph.children top with
  | nil => simp [hchildren] at hfirst
  | cons a rest =>
    cases rest with
    | nil => simp [hchildren] at hsecond
    | cons b rest =>
      obtain rfl : a = first := by simpa [hchildren] using hfirst
      obtain rfl : b = second := by simpa [hchildren] using hsecond
      exact ((nil_sublist rest).cons_cons _).cons_cons _

theorem three_sublist {top first second third : VertexId} (hfirst : graph.childAt? top 0 = some first)
    (hsecond : graph.childAt? top 1 = some second) (hthird : graph.childAt? top 2 = some third) :
    [first, second, third].Sublist (graph.children top) := by
  rw [childAt?] at hfirst hsecond hthird
  cases hchildren : graph.children top with
  | nil => simp [hchildren] at hfirst
  | cons a rest =>
    cases rest with
    | nil => simp [hchildren] at hsecond
    | cons b rest =>
      cases rest with
      | nil => simp [hchildren] at hthird
      | cons c rest =>
        obtain rfl : a = first := by simpa [hchildren] using hfirst
        obtain rfl : b = second := by simpa [hchildren] using hsecond
        obtain rfl : c = third := by simpa [hchildren] using hthird
        exact (((nil_sublist rest).cons_cons _).cons_cons _).cons_cons _

end CodeGraph

/-! ## Parts -/

namespace Walker

open CodeGraph

variable {σ : Type} {walker : Walker σ}

theorem exists_of_operands? {expr left right : VertexId} (h : walker.operands? expr = some (left, right)) :
    walker.graph.childAt? expr 0 = some left ∧ walker.graph.childAt? expr 1 = some right := by
  obtain ⟨first, hfirst, h⟩ := Option.bind_eq_some_iff.mp h
  obtain ⟨second, hsecond, h⟩ := Option.bind_eq_some_iff.mp h
  cases h
  exact ⟨hfirst, hsecond⟩

theorem operandParts_sublist (expr : VertexId) : (walker.operandParts expr).Sublist (walker.graph.children expr) := by
  rw [operandParts]
  cases h : walker.operands? expr with
  | none => exact nil_sublist _
  | some operands =>
    obtain ⟨hleft, hright⟩ := exists_of_operands? h
    exact two_sublist hleft hright

theorem filter_toList_sublist {α : Type} (p : α → Bool) (found : Option α) :
    (found.filter p).toList.Sublist found.toList := by
  cases found with
  | none => exact .refl _
  | some a =>
    rw [Option.filter_some]
    split
    · exact .refl _
    · exact nil_sublist _

theorem qualifierParts_sublist (expr : VertexId) : (walker.qualifierParts expr).Sublist (walker.graph.children expr) :=
  (filter_toList_sublist ..).trans (childAt?_sublist expr 0)

theorem callParts_sublist (expr : VertexId) :
    (walker.receiverParts expr ++ walker.graph.arguments expr).Sublist (walker.graph.children expr) := by
  rw [receiverParts, receiver?, arguments]
  split
  · conv_rhs => rw [← take_append_drop 1 (walker.graph.children expr)]
    refine List.Sublist.append ((filter_toList_sublist ..).trans ?_) (.refl _)
    rw [childAt?]
    cases walker.graph.children expr with
    | nil => exact .refl _
    | cons first rest => exact .refl _
  · exact .refl _

section
variable (forest : walker.graph.IsForest)
include forest

theorem covers_placeParts (target : VertexId) : walker.graph.Covers [target] (walker.placeParts target) := by
  rw [placeParts]
  split
  · exact .of_sublist_children forest (qualifierParts_sublist target)
  · exact .of_sublist_children forest (operandParts_sublist target)
  · exact .of_sublist (nil_sublist _)

theorem covers_fieldPart (arg : VertexId) : walker.graph.Covers [arg] [walker.fieldPart arg] := by
  rw [fieldPart]
  cases h : walker.fieldArgument? arg with
  | none => exact .of_sublist (.refl _)
  | some field =>
    obtain ⟨-, -, h⟩ := Option.bind_eq_some_iff.mp h
    obtain ⟨target, -, h⟩ := Option.bind_eq_some_iff.mp h
    obtain ⟨name, -, h⟩ := Option.bind_eq_some_iff.mp h
    obtain ⟨value, hvalue, h⟩ := Option.bind_eq_some_iff.mp h
    cases h
    exact .of_sublist_children forest (singleton_sublist.mpr (mem_of_getElem? hvalue))

theorem covers_creationParts (expr : VertexId) :
    walker.graph.Covers (walker.graph.children expr) (walker.creationParts expr) := by
  have hargs : (walker.graph.arguments expr).Sublist (walker.graph.children expr) := by
    rw [arguments]
    split
    · exact drop_sublist ..
    · exact .refl _
  rw [creationParts]
  split
  · exact .of_sublist (nil_sublist _)
  split
  · exact .of_sublist hargs
  · exact (Covers.of_sublist hargs).trans (.map fun arg _ => covers_fieldPart forest arg)

theorem covers_writtenEntries (expr : VertexId) :
    walker.graph.Covers (walker.graph.children expr) ((walker.writtenEntries expr).flatMap fun entry =>
    [entry.1, entry.2]) := by
  have hentries : walker.graph.Covers (walker.graph.children expr)
      (walker.graph.childrenWithLabel expr .mapEntryNode) :=
    .of_sublist filter_sublist
  refine hentries.trans ?_
  rw [writtenEntries, filterMap_eq_flatMap_toList, flatMap_assoc]
  refine .flatMap fun entry _ => ?_
  cases hfirst : walker.graph.childAt? entry 0 with
  | none => exact .of_sublist (nil_sublist _)
  | some first =>
    cases hsecond : walker.graph.childAt? entry 1 with
    | none => exact .of_sublist (nil_sublist _)
    | some second => exact .of_sublist_children forest (two_sublist hfirst hsecond)

theorem covers_unary (expr : VertexId) : walker.graph.Covers (walker.graph.children expr)
    ((walker.graph.childAt? expr 0).elim [] fun operand => if walker.isStep expr then walker.placeParts operand
    else [operand]) := by
  have hfirst : (walker.graph.childAt? expr 0).toList.Sublist (walker.graph.children expr) := childAt?_sublist expr 0
  cases hoperand : walker.graph.childAt? expr 0 with
  | none => exact .of_sublist (nil_sublist _)
  | some operand =>
    rw [hoperand] at hfirst
    rw [Option.elim_some]
    split
    · exact (Covers.of_sublist hfirst).trans (covers_placeParts forest operand)
    · exact .of_sublist hfirst

theorem covers_assignment (expr : VertexId) : walker.graph.Covers (walker.graph.children expr)
    ((walker.operands? expr).elim [] fun operands => walker.placeParts operands.1 ++ [operands.2]) := by
  cases hoperands : walker.operands? expr with
  | none => exact .of_sublist (nil_sublist _)
  | some operands =>
    obtain ⟨htarget, hsource⟩ := exists_of_operands? hoperands
    have hplace := (covers_placeParts forest operands.1).append (.of_sublist (.refl [operands.2]))
    exact (Covers.of_sublist (two_sublist htarget hsource)).trans hplace

omit forest in
theorem choiceParts_sublist (all : Bool) (expr : VertexId) :
    ((walker.choice? expr).elim [] fun choice => choice.1 :: if all then choice.2 else []).Sublist
    (walker.graph.children expr) := by
  cases hchoice : walker.choice? expr with
  | none => exact nil_sublist _
  | some choice =>
    obtain ⟨⟨condition, yes⟩, hoperands, hchoice⟩ := Option.bind_eq_some_iff.mp hchoice
    obtain ⟨no, hno, hchoice⟩ := Option.bind_eq_some_iff.mp hchoice
    cases hchoice
    obtain ⟨hcondition, hyes⟩ := exists_of_operands? hoperands
    refine List.Sublist.trans ?_ (three_sublist hcondition hyes hno)
    cases all with
    | true => exact .refl _
    | false => exact (nil_sublist [yes, no]).cons_cons condition

/-- The parts of an expression lie below it, apart from each other and in order. -/
theorem covers_parts (all : Bool) (expr : VertexId) :
    walker.graph.Covers (walker.graph.children expr) (walker.parts all expr) := by
  rw [parts]
  split
  case h_1 => exact .of_sublist (qualifierParts_sublist expr)
  case h_2 | h_3 | h_4 => exact .of_sublist (callParts_sublist expr)
  case h_5 => exact covers_creationParts forest expr
  case h_6 | h_7 => exact .of_sublist (.refl _)
  case h_8 => exact covers_writtenEntries forest expr
  case h_9 | h_10 => exact .of_sublist (operandParts_sublist expr)
  case h_11 =>
    split
    · exact .of_sublist ((take_sublist ..).trans (operandParts_sublist expr))
    · exact .of_sublist (operandParts_sublist expr)
  case h_12 | h_13 => exact covers_unary forest expr
  case h_14 => exact covers_assignment forest expr
  case h_15 => exact .of_sublist (choiceParts_sublist all expr)
  case h_16 | h_17 => exact .of_sublist (childAt?_sublist expr 0)
  case h_18 => exact .of_sublist (nil_sublist _)

/-- The subtrees of the parts, then the expression, come in this order in its own subtree. -/
theorem parts_sublist_postOrder (all : Bool) (expr : VertexId) :
    ((walker.parts all expr).flatMap walker.graph.postOrder ++ [expr]).Sublist (walker.graph.postOrder expr) := by
  rw [postOrder_eq forest expr]
  exact List.Sublist.append_right (covers_parts forest all expr) _

/-- The parts of a vertex lie in what it evaluates, in the same order. -/
theorem covers_vertexParts (v : VertexId) : walker.graph.Covers (walker.graph.evaluatedRoots v)
    (walker.vertexParts v) := by
  have hfirst : walker.graph.Covers (walker.graph.children v) (walker.graph.childAt? v 0).toList :=
    .of_sublist (childAt?_sublist v 0)
  rw [vertexParts, evaluatedRoots]
  cases hlabel : walker.graph.labelOf v
  case variableDeclarationStatements =>
    dsimp only
    split
    · exact .of_sublist (nil_sublist _)
    · have hdeclared : (walker.graph.childrenWithLabel v .variableDeclaration).Sublist (walker.graph.children v) :=
        filter_sublist
      rw [filterMap_eq_flatMap_toList]
      exact (Covers.of_sublist hdeclared).trans (.flatMap fun declaration _ =>
        .of_sublist_children forest (childAt?_sublist declaration 0))
  case expressionStatement =>
    dsimp only
    split
    · exact .of_sublist (nil_sublist _)
    · exact hfirst
  case returnStatement | standardCondition => exact hfirst
  case forEachStatement =>
    dsimp only
    rw [iterable?, hlabel]
    exact .of_sublist (.refl _)
  case throwStatement => exact .of_sublist filter_sublist
  case dmlInsertStatement | dmlUpdateStatement | dmlUpsertStatement | dmlDeleteStatement | dmlUndeleteStatement |
      dmlMergeStatement =>
    exact .of_sublist filter_sublist
  all_goals exact .of_sublist (.refl _)

/-- The subtrees of what is evaluated at a vertex come in this order among its evaluated expressions. -/
theorem vertexParts_sublist (v : VertexId) :
    ((walker.vertexParts v).flatMap walker.graph.postOrder).Sublist (walker.graph.evaluatedExpressions v) :=
    covers_vertexParts forest v

end

end Walker

/-! ## Expressions that are computed -/

namespace NodeKind

/-- The kinds that are evaluated and not only looked up. -/
def isComputed (kind : NodeKind) : Bool := kind.isExpression && !kind.isPlainReference

theorem isExpression_of_mayEvaluate {kind child : NodeKind} (h : kind.mayEvaluate child = true)
    (hkind : kind.evaluates = true) (hmap : kind ≠ .newMapLiteralExpression) : child.isExpression = true := by
  cases kind <;> first | exact h | exact absurd rfl hmap | exact absurd hkind (by decide)

theorem mayHave_zero_of_isPlainReference {kind : NodeKind} (h : kind.isPlainReference = true) {n : Nat}
    (hn : kind.mayHave n = true) : n = 0 := by
  cases kind <;> first | exact beq_iff_eq.mp hn | exact absurd h (by decide)

end NodeKind

namespace CodeGraph

variable {graph : CodeGraph}

/-! ## Subtrees in post-order -/

/-- What holds of a vertex when it holds of all later ones holds of every vertex. -/
theorem descend {motive : Nat → Prop}
    (step : ∀ v : Nat, (∀ w : Nat, v < w → w < graph.vertexCount → motive w) → motive v) (v : Nat) : motive v := by
  obtain ⟨n, hn⟩ : ∃ n, graph.vertexCount ≤ v + n := ⟨graph.vertexCount, Nat.le_add_left ..⟩
  induction n generalizing v with
  | zero => exact step v fun w hvw hw => by omega
  | succ n ih => exact step v fun w hvw _ => ih w (by omega)

section
variable (forest : graph.IsForest)
include forest

theorem lt_of_mem_children {v c : Nat} (hc : c ∈ graph.children v) : c < graph.vertexCount :=
  lt_of_parent? (forest.parent_of_mem hc)

theorem mem_postOrder {v x : VertexId} : x ∈ graph.postOrder v ↔ x = v ∨ ∃ c ∈ graph.children v,
    x ∈ graph.postOrder c := by
  rw [postOrder_eq forest, mem_append, mem_flatMap, mem_singleton, or_comm]

theorem self_mem_postOrder (v : VertexId) : v ∈ graph.postOrder v := (mem_postOrder forest).mpr (.inl rfl)

theorem below_of_mem_postOrder {v x : Nat} (hv : v < graph.vertexCount) (h : x ∈ graph.postOrder v) :
    graph.Below v x := by
  induction v using graph.descend with
  | step v ih =>
    rcases (mem_postOrder forest).mp h with rfl | ⟨c, hc, hx⟩
    · exact .refl hv
    · have hlt := lt_of_mem_children forest hc
      exact (ih c (forest.lt_of_mem hc) hlt hlt hx).of_child forest hc

theorem postOrder_trans {a b c : Nat} (hab : a ∈ graph.postOrder b) (hbc : b ∈ graph.postOrder c) :
    a ∈ graph.postOrder c := by
  induction c using graph.descend with
  | step c ih =>
    rcases (mem_postOrder forest).mp hbc with rfl | ⟨child, hchild, hb⟩
    · exact hab
    · exact (mem_postOrder forest).mpr
        (.inr ⟨child, hchild, ih child (forest.lt_of_mem hchild) (lt_of_mem_children forest hchild) hb⟩)

theorem nodup_postOrder (v : Nat) : (graph.postOrder v).Nodup := by
  induction v using graph.descend with
  | step v ih =>
    have hparts := nodup_subtrees forest (p := v) ((graph.children v).map fun c => (c, graph.postOrder c))
      (by simpa [Function.comp_def] using forest.nodup_children v) (by simp)
      (forall_mem_map.mpr fun c hc x hx => below_of_mem_postOrder forest (lt_of_mem_children forest hc) hx)
      (forall_mem_map.mpr fun c hc => ih c (forest.lt_of_mem hc) (lt_of_mem_children forest hc))
    rw [flatMap_map] at hparts
    rw [postOrder_eq forest]
    exact (perm_append_singleton ..).nodup_iff.mpr hparts

theorem evaluatedExpressions_sublist (v : VertexId) : (graph.evaluatedExpressions v).Sublist (graph.postOrder v) := by
  have hchildren : ∀ {roots : List VertexId}, roots.Sublist (graph.children v) →
      (roots.flatMap graph.postOrder).Sublist (graph.postOrder v) := by
    intro roots hroots
    rw [postOrder_eq forest]
    exact (hroots.flatMap _).trans (sublist_append_left ..)
  rw [evaluatedExpressions, evaluatedRoots]
  split
  case h_6 => exact hchildren (childAt?_sublist v 1)
  case h_7 =>
    split
    · exact hchildren (.refl _)
    · split
      · rw [flatMap_singleton]
      · exact nil_sublist _
  all_goals exact hchildren (.refl _)

theorem nodup_evaluatedExpressions (v : VertexId) : (graph.evaluatedExpressions v).Nodup :=
  (evaluatedExpressions_sublist forest v).nodup (nodup_postOrder forest v)

end

/-! ## What stands for subtrees -/

/-- The two lists have the same computed expressions. -/
def SameComputed (graph : CodeGraph) (found expected : List VertexId) : Prop :=
  (found.filter fun v => (graph.labelOf v).isComputed).Perm (expected.filter fun v => (graph.labelOf v).isComputed)

namespace SameComputed

variable {first second third first' second' : List VertexId}

theorem of_perm (h : first.Perm second) : graph.SameComputed first second := h.filter _

theorem trans (h : graph.SameComputed first second) (h' : graph.SameComputed second third) :
    graph.SameComputed first third :=
  List.Perm.trans h h'

theorem append (h : graph.SameComputed first second) (h' : graph.SameComputed first' second') :
    graph.SameComputed (first ++ first') (second ++ second') := by
  rw [SameComputed, filter_append, filter_append]
  exact List.Perm.append h h'

theorem flatMap {items : List VertexId} {f g : VertexId → List VertexId}
    (h : ∀ item ∈ items, graph.SameComputed (f item) (g item)) :
    graph.SameComputed (items.flatMap f) (items.flatMap g) := by
  rw [SameComputed, filter_flatMap, filter_flatMap]
  exact .flatMap_left _ h

theorem drop {v : VertexId} (h : (graph.labelOf v).isComputed = false) : graph.SameComputed first (first ++ [v]) := by
  rw [SameComputed, filter_append, filter_cons_of_neg (by simp [h]), filter_nil, append_nil]

theorem mem_iff (h : graph.SameComputed first second) {v : VertexId} (hv : (graph.labelOf v).isComputed = true) :
    v ∈ first ↔ v ∈ second := by
  have hmem := List.Perm.mem_iff h (a := v)
  rwa [mem_filter, mem_filter, and_iff_left hv, and_iff_left hv] at hmem

end SameComputed

/-- The subtrees of some vertices are those of other expressions and what is left of them. -/
structure Splits (graph : CodeGraph) (tops parts rest : List VertexId) : Prop where
  same : graph.SameComputed (parts.flatMap graph.postOrder ++ rest) (tops.flatMap graph.postOrder)
  isExpression : ∀ part ∈ parts, (graph.labelOf part).isExpression = true

namespace Splits

variable {tops parts rest tops' parts' rest' : List VertexId}

theorem refl (h : ∀ top ∈ tops, (graph.labelOf top).isExpression = true) : graph.Splits tops tops [] :=
  ⟨.of_perm (by rw [append_nil]), h⟩

theorem all (tops : List VertexId) : graph.Splits tops [] (tops.flatMap graph.postOrder) :=
  ⟨.of_perm (.refl _), by simp⟩

theorem append (h : graph.Splits tops parts rest) (h' : graph.Splits tops' parts' rest') :
    graph.Splits (tops ++ tops') (parts ++ parts') (rest ++ rest') := by
  refine ⟨?_, forall_mem_append.mpr ⟨h.isExpression, h'.isExpression⟩⟩
  have hperm : ((parts ++ parts').flatMap graph.postOrder ++ (rest ++ rest')).Perm
      ((parts.flatMap graph.postOrder ++ rest) ++ (parts'.flatMap graph.postOrder ++ rest')) := by
    rw [flatMap_append, List.append_assoc, List.append_assoc]
    refine List.Perm.append_left _ ?_
    rw [← List.append_assoc, ← List.append_assoc]
    exact perm_append_comm.append_right _
  rw [show (tops ++ tops').flatMap graph.postOrder = tops.flatMap graph.postOrder ++
    tops'.flatMap graph.postOrder from flatMap_append]
  exact (SameComputed.of_perm hperm).trans (h.same.append h'.same)

theorem flatMap {f g : VertexId → List VertexId} (h : ∀ top ∈ tops, graph.Splits [top] (f top) (g top)) :
    graph.Splits tops (tops.flatMap f) (tops.flatMap g) := by
  induction tops with
  | nil => exact .refl (by simp)
  | cons top tops ih =>
    obtain ⟨htop, htops⟩ := forall_mem_cons.mp h
    exact htop.append (ih htops)

variable (forest : graph.IsForest) {top : VertexId}
include forest

theorem inside (h : graph.Splits (graph.children top) parts rest) : graph.Splits [top] parts (rest ++ [top]) := by
  refine ⟨?_, h.isExpression⟩
  rw [flatMap_singleton, postOrder_eq forest, ← List.append_assoc]
  exact h.same.append (.of_perm (.refl _))

theorem inside_idle (h : graph.Splits (graph.children top) parts rest) (htop : (graph.labelOf top).isComputed = false) :
    graph.Splits [top] parts rest := by
  refine ⟨?_, h.isExpression⟩
  rw [flatMap_singleton, postOrder_eq forest]
  exact h.same.trans (.drop htop)

theorem plain (operands : graph.HasOperands) (htop : (graph.labelOf top).isPlainReference = true) :
    graph.Splits [top] [] [] := by
  have hchildren : graph.children top = [] :=
    length_eq_zero_iff.mp (NodeKind.mayHave_zero_of_isPlainReference htop (operands.operandsAt top).count)
  refine inside_idle forest ?_ (by simp [NodeKind.isComputed, htop])
  rw [hchildren]
  exact .refl (by simp)

end Splits

end CodeGraph

end ApexPaths
