import ApexPaths.Proofs.Walk.Blocks
import Mathlib.Data.List.Sort

/-!
Local variables by their places. A subtree is listed in the order of the numbers, so the search for the latest
declaration before a place finds the one with the greatest number, in whatever list it is looked for.

The order of declarations, and what a name is bound to among them. Of the statements that declare variables directly
under a scope around a vertex of a route exactly those with smaller numbers were passed before it. So the declarations
that the open blocks hold, from the outermost block to the innermost, stand in the order of their numbers.
-/

namespace ApexPaths
set_option autoImplicit false

open List

/-! ## The latest of some numbers -/

theorem find?_reverse_congr {l l' : List Nat} {p p' : Nat → Bool} (h : l.Pairwise (· < ·)) (h' : l'.Pairwise (· < ·))
    (hmatches : ∀ a, a ∈ l ∧ p a = true ↔ a ∈ l' ∧ p' a = true) : l.reverse.find? p = l'.reverse.find? p' := by
  have hfilter : l.filter p = l'.filter p' :=
    (h.filter p).eq_of_mem_iff (h'.filter p') fun a => by simpa only [mem_filter] using hmatches a
  rw [← List.head?_filter, ← List.head?_filter, filter_reverse, filter_reverse, hfilter]

theorem mem_takeWhile_ne_iff {l : List Nat} {stop a : Nat} (h : l.Pairwise (· < ·)) (hstop : stop ∈ l) :
    a ∈ l.takeWhile (· != stop) ↔ a ∈ l ∧ a < stop := by
  obtain ⟨before, after, rfl⟩ := append_of_mem hstop
  obtain ⟨-, hafter, hbefore⟩ := pairwise_append.mp h
  have hless : ∀ b ∈ before, b < stop := fun b hb => hbefore b hb stop mem_cons_self
  have htake : (before ++ stop :: after).takeWhile (· != stop) = before := by
    rw [takeWhile_append_of_pos fun b hb => by simpa using Nat.ne_of_lt (hless b hb), takeWhile_cons_of_neg (by simp),
      append_nil]
  rw [htake]
  refine ⟨fun ha => ⟨mem_append_left _ ha, hless a ha⟩, fun ⟨ha, hlt⟩ => ?_⟩
  rcases mem_append.mp ha with ha | ha
  · exact ha
  · rcases mem_cons.mp ha with rfl | ha
    · exact absurd hlt (Nat.lt_irrefl _)
    · have := (pairwise_cons.mp hafter).1 a ha
      omega

/-! ## Subtrees -/

namespace CodeGraph

/-- A vertex is among the children of its parent. -/
def ListsChildren (graph : CodeGraph) : Prop := ∀ {v p : Nat}, graph.parent? v = some p → v ∈ graph.children p

section
variable {graph : CodeGraph} (forest : graph.IsForest) (lists : graph.ListsChildren)
include forest lists

theorem exists_child_of_mem_line {s v : Nat} (hv : v < graph.vertexCount) (hs : s ∈ graph.line v) (hne : s ≠ v) :
    ∃ c : Nat, c ∈ graph.line v ∧ c ∈ graph.children s := by
  induction v using Nat.strongRecOn with
  | ind v ih =>
    rcases line_eq_cases forest hv with ⟨hline, -⟩ | ⟨p, hp, hlt, hline⟩
    · rw [hline, mem_singleton] at hs
      exact absurd hs hne
    · rw [hline] at hs ⊢
      by_cases he : s = p
      · exact ⟨v, mem_cons_self, he ▸ lists hp⟩
      · obtain ⟨c, hc, hchild⟩ := ih p hlt (Nat.lt_trans hlt hv) ((mem_cons.mp hs).resolve_left hne) he
        exact ⟨c, mem_cons_of_mem _ hc, hchild⟩

theorem mem_descendantsWithin {n top v : Nat} (htop : top < graph.vertexCount) (hn : graph.vertexCount ≤ top + n) :
    v ∈ graph.descendantsWithin n top ↔ graph.Below top v := by
  induction n generalizing top with
  | zero => omega
  | succ n ih =>
    rw [descendantsWithin, mem_cons, mem_flatMap]
    constructor
    · rintro (rfl | ⟨c, hc, hv⟩)
      · exact .refl htop
      · have hlt := forest.lt_of_mem hc
        exact .of_child forest hc ((ih (lt_of_parent? (forest.parent_of_mem hc)) (Nat.le_trans hn (by omega))).mp hv)
    · intro hbelow
      by_cases hv : top = v
      · exact .inl hv.symm
      · obtain ⟨c, hc, hchild⟩ := exists_child_of_mem_line forest lists hbelow.1 hbelow.2 hv
        have hlt := forest.lt_of_mem hchild
        exact .inr ⟨c, hchild, (ih (lt_of_parent? (forest.parent_of_mem hchild)) (Nat.le_trans hn (by omega))).mpr
          ⟨hbelow.1, hc⟩⟩

theorem pairwise_descendantsWithin (ordered : graph.Ordered) {n top : Nat} (htop : top < graph.vertexCount)
    (hn : graph.vertexCount ≤ top + n) : (graph.descendantsWithin n top).Pairwise (· < ·) := by
  induction n generalizing top with
  | zero => omega
  | succ n ih =>
    have hchild : ∀ {c : Nat}, c ∈ graph.children top → top < c ∧ c < graph.vertexCount ∧
        graph.vertexCount ≤ c + n := by
      intro c hc
      have hlt := forest.lt_of_mem hc
      exact ⟨hlt, lt_of_parent? (forest.parent_of_mem hc), by omega⟩
    have hbelow : ∀ {c v : Nat}, c ∈ graph.children top → v ∈ graph.descendantsWithin n c → graph.Below c v :=
      fun hc hv =>
      (mem_descendantsWithin forest lists (hchild hc).2.1 (hchild hc).2.2).mp hv
    rw [descendantsWithin, pairwise_cons, pairwise_flatMap]
    refine ⟨fun v hv => ?_, fun c hc => ih (hchild hc).2.1 (hchild hc).2.2, ?_⟩
    · obtain ⟨c, hc, hv⟩ := mem_flatMap.mp hv
      exact Nat.lt_of_lt_of_le (hchild hc).1 ((hbelow hc hv).le forest)
    · refine (ordered.ascending top).imp_of_mem fun hc hd hlt v hv w hw => ?_
      exact Nat.lt_of_lt_of_le (ordered.lt_of_siblings forest hc hd hlt (hbelow hc hv)) ((hbelow hd hw).le forest)

end

end CodeGraph

/-! ## The latest declaration before a place -/

namespace Program

variable {program : Program}

/-- A vertex of a method stands before a place, and its variable lives around the place. -/
structure Reaches (program : Program) (method place id : Nat) : Prop where
  below : program.graph.Below method id
  lt : id < place
  around : ∃ scope, program.localScope? id = some scope ∧ scope ∈ program.graph.ancestors place

/-- The local variable of a name is the last one of an ascending list that holds the variables of the name that
reach the place. -/
theorem localBinding?_eq (forest : program.graph.IsForest) (ordered : program.graph.Ordered)
    (lists : program.graph.ListsChildren) {method place : Nat} (hplace : program.graph.Below method place)
    {name : String} {l : List Nat} (hl : l.Pairwise (· < ·)) (hmem : ∀ id : Nat, program.hasName id name = true →
    (id ∈ l ↔ program.Reaches method place id)) :
    program.localBinding? method name place =
      (l.reverse.find? (program.hasName · name)).map fun id => ⟨program.typeOfDeclaration id, .localVariable id⟩ := by
  have hmethod : method < program.graph.vertexCount := Nat.lt_of_le_of_lt (hplace.le forest) hplace.1
  have hin : ∀ id : Nat, id ∈ program.graph.descendants method ↔ program.graph.Below method id := fun id =>
    CodeGraph.mem_descendantsWithin forest lists hmethod (by omega)
  have hsorted : (program.graph.descendants method).Pairwise (· < ·) :=
    CodeGraph.pairwise_descendantsWithin forest lists ordered hmethod (by omega)
  have hstop := (hin place).mpr hplace
  rw [localBinding?]
  refine congrArg _ (find?_reverse_congr (hsorted.sublist (takeWhile_sublist _)) hl fun id => ?_)
  rw [mem_takeWhile_ne_iff hsorted hstop, hin]
  constructor
  · rintro ⟨⟨hbelow, hlt⟩, hvisible⟩
    cases hscope : program.localScope? id with
    | none => simp [hscope] at hvisible
    | some scope =>
      have hvisible : program.hasName id name = true ∧ scope ∈ program.graph.ancestors place := by
        simpa [hscope] using hvisible
      exact ⟨(hmem id hvisible.1).mpr ⟨hbelow, hlt, scope, hscope, hvisible.2⟩, hvisible.1⟩
  · rintro ⟨hid, hname⟩
    obtain ⟨hbelow, hlt, scope, hscope, haround⟩ := (hmem id hname).mp hid
    exact ⟨⟨hbelow, hlt⟩, by simpa [hscope] using ⟨hname, haround⟩⟩

end Program

variable {u d s id : Nat}

/-! ## Declarations in a graph -/

namespace CodeGraph

/-- How a graph keeps declarations apart from everything else. -/
structure WellDeclared (graph : CodeGraph) : Prop where
  lists : graph.ListsChildren
  /-- Declarators are the parts of the statements that declare variables. -/
  declarator_iff : ∀ {p c : Nat}, c ∈ graph.children p →
    (graph.is c .variableDeclaration = true ↔ graph.declares p = true)

/-- The vertices of the variables that a vertex declares. -/
def declarations (graph : CodeGraph) (v : VertexId) : List VertexId :=
  if graph.declares v then graph.childrenWithLabel v .variableDeclaration
  else if graph.isBindingClause v && (graph.name? v).isSome then [v] else []

/-- What was declared in a scope when these vertices were passed. -/
def declarationsIn (graph : CodeGraph) (passed : List VertexId) (scope : VertexId) : List VertexId :=
  (passed.filter fun u => graph.home? u == some scope).flatMap graph.declarations

/-- What was declared in some scopes, given innermost first, from the outermost one on. -/
def history (graph : CodeGraph) (passed scopes : List VertexId) : List VertexId :=
  scopes.reverse.flatMap (graph.declarationsIn passed)

section
variable {graph : CodeGraph} (forest : graph.IsForest)
include forest

theorem eq_of_mem_line_of_mem_line {v : Nat} (huv : u ∈ graph.line v) (hvu : v ∈ graph.line u) : u = v :=
  Nat.le_antisymm (le_of_mem_line forest huv) (le_of_mem_line forest hvu)

theorem below_of_mem_declarations (hu : u < graph.vertexCount) (hd : d ∈ graph.declarations u) : graph.Below u d := by
  rw [declarations] at hd
  split at hd
  · have hchild := (mem_filter.mp hd).1
    exact .of_child forest hchild (.refl (lt_of_parent? (forest.parent_of_mem hchild)))
  · split at hd
    · rw [mem_singleton.mp hd]
      exact .refl hu
    · cases hd

omit forest in
theorem pairwise_declarations (ordered : graph.Ordered) (u : VertexId) : (graph.declarations u).Pairwise (· < ·) := by
  rw [declarations]
  split
  · exact (ordered.ascending u).filter _
  · split
    · exact pairwise_singleton ..
    · exact .nil

theorem pairwise_scopeLine {top v : Nat} (h : graph.Below top v) :
    (graph.scopeLine top v).Pairwise fun inner outer => outer ∈ graph.line inner ∧ outer ≠ inner := by
  induction v using Nat.strongRecOn with
  | ind v ih =>
    rw [scopeLine_eq forest h]
    by_cases hv : v = top
    · subst hv
      rw [scopeLineBefore_top]
      split <;> simp
    · obtain ⟨p, hp⟩ := h.parent_of_ne hv
      have hbelow := h.parent forest hv hp
      have hlt := forest.parent_lt hp
      have hrest := ih p hlt hbelow
      rw [scopeLineBefore_of_parent forest h.1 hp hv]
      split
      · refine pairwise_cons.mpr ⟨fun s hs => ?_, hrest⟩
        have hline := (mem_scopeLine forest hbelow hs).1
        have hle := le_of_mem_line forest hline
        refine ⟨?_, Nat.ne_of_lt (by omega)⟩
        rw [line_of_parent forest h.1 hp]
        exact mem_cons_of_mem _ hline
      · exact hrest

theorem mem_scopeLine_of_mem_line {top v : Nat} (h : graph.Below top v) (hs : s ∈ graph.line v)
    (hbelow : graph.Below top s) (hopens : graph.opens s = true) : s ∈ graph.scopeLine top v := by
  have hhead : ∀ w : Nat, graph.Below top w → graph.opens w = true → w ∈ graph.scopeLine top w := by
    intro w hw ho
    rw [scopeLine_eq forest hw, if_pos ho]
    exact mem_cons_self
  exact (scopeLine_suffix forest h hs hbelow).subset (hhead s hbelow hopens)

end

end CodeGraph

/-! ## What was passed -/

namespace Route

open CodeGraph

variable {graph : CodeGraph} {body : VertexId} {ids before after : List VertexId} {v : VertexId}

/-- A vertex of a route lies below no declaration but itself. -/
theorem eq_of_declares (forest : graph.IsForest) (declared : graph.WellDeclared) (route : Route graph body ids)
    (h : ids = before ++ v :: after) (hs : s ∈ graph.line v) (hbelow : graph.Below body s)
    (hdeclares : graph.declares s = true) : s = v := by
  induction before using List.reverseRecOn generalizing v after with
  | nil =>
    rcases route.first_or_follows h with ⟨-, rfl⟩ | ⟨_, _, hnil, -⟩
    · exact Nat.le_antisymm (le_of_mem_line forest hs) (hbelow.le forest)
    · simp at hnil
  | append_singleton earlier w ih =>
    rcases route.first_or_follows h with ⟨hnil, -⟩ | ⟨_, _, heq, hids, p, hp, hchild, -⟩
    · simp at hnil
    obtain ⟨rfl, hw⟩ := append_inj' heq rfl
    obtain rfl := (List.cons.inj hw).1
    rw [line_of_parent forest (route.below v (mem h)).1 (forest.parent_of_mem hchild)] at hs
    rcases mem_cons.mp hs with rfl | hup
    · rfl
    · have hsw := mem_line_trans forest (route.below w (mem hids)).1 hup hp
      obtain rfl := ih hids hsw
      obtain rfl := eq_of_mem_line_of_mem_line forest hup hp
      have hdeclarator := (declared.declarator_iff hchild).mpr hdeclares
      rw [(route.passes v (mem h)).not_declarator] at hdeclarator
      cases hdeclarator

/-- A declaration of an open block is passed where it stands before the vertex. -/
theorem mem_iff_lt (placed : Build.WellPlaced graph) (declared : graph.WellDeclared) (route : Route graph body ids)
    (h : ids = before ++ v :: after) (hs : s ∈ graph.line v) (hne : s ≠ v) (hbelow : graph.Below body s)
    (hu : u ∈ graph.children s) (hdeclares : graph.declares u = true) : u ∈ before ↔ u < v := by
  have forest := placed.forest
  have hparent := forest.parent_of_mem hu
  induction before using List.reverseRecOn generalizing v after with
  | nil =>
    rcases route.first_or_follows h with ⟨-, rfl⟩ | ⟨_, _, hnil, -⟩
    · exact absurd (Nat.le_antisymm (le_of_mem_line forest hs) (hbelow.le forest)) hne
    · simp at hnil
  | append_singleton earlier w ih =>
    rcases route.first_or_follows h with ⟨hnil, -⟩ | ⟨_, _, heq, hids, p, hp, hchild, horder⟩
    · simp at hnil
    obtain ⟨rfl, hw⟩ := append_inj' heq rfl
    obtain rfl := (List.cons.inj hw).1
    have hv := (route.below v (mem h)).1
    have hwlt := (route.below w (mem hids)).1
    have hup : s ∈ graph.line p := by
      rw [line_of_parent forest hv (forest.parent_of_mem hchild)] at hs
      exact (mem_cons.mp hs).resolve_left hne
    have hsw := mem_line_trans forest hwlt hup hp
    rw [mem_append, mem_singleton]
    by_cases hself : s = w
    · -- Control goes from the scope to the first thing inside it.
      obtain rfl := hself
      obtain rfl := eq_of_mem_line_of_mem_line forest hup hp
      have hnot : u ∉ earlier := fun hmem => route.not_mem_line forest hids hmem <| by
        rw [line_of_parent forest (lt_of_parent? hparent) hparent]
        exact mem_cons_of_mem _ mem_cons_self
      have hlt := forest.lt_of_mem hu
      refine iff_of_false (fun hor => hor.elim hnot (Nat.ne_of_gt hlt)) fun hless => ?_
      obtain ⟨c, hc, hcchild, -⟩ := (horder u hu hdeclares).mp hless
      have h1 := le_of_mem_line forest hc
      have h2 := forest.lt_of_mem hcchild
      omega
    · obtain ⟨c, hc, hcchild⟩ := exists_child_of_mem_line forest declared.lists hwlt hsw hself
      have hcparent := forest.parent_of_mem hcchild
      have hle := le_of_mem_line forest hc
      have hsame : u = w → u = c := fun he =>
        eq_of_mem_line forest hparent hcparent hwlt (he ▸ mem_cons_self) hc
      have hside : u ≠ c → (u < c ↔ u < w) :=
        fun huc => placed.ordered.lt_iff_of_siblings forest hcchild hu huc ⟨hwlt, hc⟩
      have hbefore : u ∈ earlier ↔ u < w := ih hids hsw hself
      rw [hbefore]
      by_cases hscope : s = p
      · obtain rfl := hscope
        rw [horder u hu hdeclares]
        have honly : (∃ c' : Nat, c' ∈ graph.line w ∧ c' ∈ graph.children s ∧ u ≤ c') ↔ u ≤ c := by
          refine ⟨?_, fun hle => ⟨c, hc, hcchild, hle⟩⟩
          rintro ⟨c', hc', hchild', hle'⟩
          obtain rfl := eq_of_mem_line forest (forest.parent_of_mem hchild') hcparent hwlt hc' hc
          exact hle'
        rw [honly]
        by_cases huc : u = c
        · omega
        · have := hside huc
          have : u ≠ w := fun he => huc (hsame he)
          omega
      · -- The vertex lies beside the declaration, under the same child of the scope as the one before it.
        obtain ⟨c', hc', hchild'⟩ :=
          exists_child_of_mem_line forest declared.lists (Nat.lt_of_le_of_lt (le_of_mem_line forest hp) hwlt) hup hscope
        obtain rfl :=
          eq_of_mem_line forest (forest.parent_of_mem hchild') hcparent hwlt (mem_line_trans forest hwlt hc' hp) hc
        have hcv : c' ∈ graph.line v := by
          rw [line_of_parent forest hv (forest.parent_of_mem hchild)]
          exact mem_cons_of_mem _ hc'
        have huc : u ≠ c' := by
          rintro rfl
          have hbelowu : graph.Below body u :=
            Below.trans forest hbelow (Below.of_child forest hu (Below.refl (lt_of_parent? hparent)))
          obtain rfl := route.eq_of_declares forest declared h hcv hbelowu hdeclares
          have h1 := le_of_mem_line forest hc'
          have h2 := forest.lt_of_mem hchild
          omega
        have := hside huc
        have := placed.ordered.lt_iff_of_siblings forest hcchild hu huc ⟨hv, hcv⟩
        have : u ≠ w := fun he => huc (hsame he)
        omega

section
variable (placed : Build.WellPlaced graph) (declared : graph.WellDeclared) (route : Route graph body ids)
  (h : ids = before ++ v :: after)
include placed declared route h

theorem lt_of_mem_declarationsIn {c : Nat} (hbelow : graph.Below body s) (hc : c ∈ graph.line v)
    (hchild : c ∈ graph.children s) (hd : d ∈ graph.declarationsIn before s) : d < c := by
  have forest := placed.forest
  have hv := (route.below v (mem h)).1
  obtain ⟨u, hu, hdecl⟩ := mem_flatMap.mp hd
  obtain ⟨hmem, hhome⟩ := mem_filter.mp hu
  have hhome : graph.home? u = some s := by simpa using hhome
  have hids : u ∈ ids := by
    rw [h]
    exact mem_append_left _ hmem
  have hbelowu := below_of_mem_declarations forest (route.below u hids).1 hdecl
  rw [home?] at hhome
  split at hhome
  · rename_i hdeclares
    have huchild := declared.lists hhome
    have hs : s ∈ graph.line v := mem_line_trans forest hv (by
      rw [line_of_parent forest (lt_of_parent? (forest.parent_of_mem hchild)) (forest.parent_of_mem hchild)]
      exact mem_cons_of_mem _ mem_cons_self) hc
    have hlt := forest.lt_of_mem hchild
    have hle := le_of_mem_line forest hc
    have hbefore := (route.mem_iff_lt placed declared h hs (by omega) hbelow huchild hdeclares).mp hmem
    have hne : u ≠ c := by
      rintro rfl
      obtain rfl := route.eq_of_declares forest declared h hc (route.below u hids) hdeclares
      exact Nat.lt_irrefl _ hbefore
    have huc := (placed.ordered.lt_iff_of_siblings forest hchild huchild hne ⟨hv, hc⟩).mpr hbefore
    exact placed.ordered.lt_of_siblings forest huchild hchild huc hbelowu
  · rename_i hdeclares
    split at hhome
    · cases hhome
      rw [declarations, if_neg hdeclares] at hdecl
      split at hdecl
      · rw [mem_singleton.mp hdecl]
        exact forest.lt_of_mem hchild
      · cases hdecl
    · cases hhome

omit declared in
theorem declarationsIn_self : graph.declarationsIn before v = [] := by
  have forest := placed.forest
  rw [declarationsIn, filter_eq_nil_iff.mpr fun u hu hhome => ?_]
  · rfl
  have hnot := route.not_mem_line forest h hu
  have hhome : graph.home? u = some v := by simpa using hhome
  rw [home?] at hhome
  split at hhome
  · rw [line_of_parent forest (lt_of_parent? hhome) hhome] at hnot
    exact hnot (mem_cons_of_mem _ mem_cons_self)
  · split at hhome
    · cases hhome
      exact hnot mem_cons_self
    · cases hhome

end

theorem pairwise_declarationsIn (placed : Build.WellPlaced graph) (declared : graph.WellDeclared)
    (route : Route graph body ids) (h : ids = before ++ after) (hbelow : graph.Below body s) :
    (graph.declarationsIn before s).Pairwise (· < ·) := by
  have forest := placed.forest
  induction before using List.reverseRecOn generalizing after with
  | nil => exact .nil
  | append_singleton earlier u ih =>
    have hids : ids = earlier ++ u :: after := by simpa using h
    have hu := (route.below u (mem hids)).1
    have hearlier := ih hids
    rw [declarationsIn, filter_append, flatMap_append]
    refine pairwise_append.mpr ⟨hearlier, ?_, fun d hd d' hd' => ?_⟩
    · by_cases hhome : graph.home? u = some s
      · simpa [hhome] using pairwise_declarations placed.ordered u
      · simp [hhome]
    · obtain ⟨u', hu', hdecl⟩ := mem_flatMap.mp hd'
      obtain ⟨hone, hhome⟩ := mem_filter.mp hu'
      obtain rfl := mem_singleton.mp hone
      have hhome : graph.home? u' = some s := by simpa using hhome
      have hle := (below_of_mem_declarations forest hu hdecl).le forest
      rw [home?] at hhome
      split at hhome
      · have hlt := route.lt_of_mem_declarationsIn placed declared hids hbelow mem_cons_self (declared.lists hhome) hd
        exact Nat.lt_of_lt_of_le hlt hle
      · split at hhome
        · cases hhome
          have hnone := route.declarationsIn_self placed hids
          rw [declarationsIn] at hnone
          rw [hnone] at hd
          cases hd
        · cases hhome

section
variable (placed : Build.WellPlaced graph) (declared : graph.WellDeclared) (route : Route graph body ids)
  (h : ids = before ++ v :: after)
include placed declared route h

theorem lt_of_mem_history (hd : d ∈ graph.history before (graph.scopeLine body v)) : d < v := by
  have forest := placed.forest
  have hbelow := route.below v (mem h)
  obtain ⟨s, hs, hdecl⟩ := mem_flatMap.mp hd
  obtain ⟨hline, hbelows, -⟩ := mem_scopeLine forest hbelow (mem_reverse.mp hs)
  by_cases hne : s = v
  · subst hne
    rw [route.declarationsIn_self placed h] at hdecl
    cases hdecl
  · obtain ⟨c, hc, hchild⟩ := exists_child_of_mem_line forest declared.lists hbelow.1 hline hne
    have hlt := route.lt_of_mem_declarationsIn placed declared h hbelows hc hchild hdecl
    have hle := le_of_mem_line forest hc
    omega

theorem pairwise_history : (graph.history before (graph.scopeLine body v)).Pairwise (· < ·) := by
  have forest := placed.forest
  have hbelow := route.below v (mem h)
  rw [history, pairwise_flatMap]
  constructor
  · intro s hs
    exact route.pairwise_declarationsIn placed declared h (mem_scopeLine forest hbelow (mem_reverse.mp hs)).2.1
  · rw [pairwise_reverse]
    refine (pairwise_scopeLine forest hbelow).imp_of_mem ?_
    rintro inner outer hinner houter ⟨hline, hne⟩ d hd d' hd'
    obtain ⟨hinnerv, hbelowi, -⟩ := mem_scopeLine forest hbelow hinner
    obtain ⟨-, hbelowo, -⟩ := mem_scopeLine forest hbelow houter
    obtain ⟨c, hc, hchild⟩ := exists_child_of_mem_line forest declared.lists hbelowi.1 hline hne
    have hlt := route.lt_of_mem_declarationsIn placed declared h hbelowo (mem_line_trans forest hbelow.1 hc hinnerv)
      hchild hd
    have hle := le_of_mem_line forest hc
    -- What is declared in the inner scope does not stand before the scope.
    obtain ⟨u, hu, hdecl⟩ := mem_flatMap.mp hd'
    obtain ⟨hmem, hhome⟩ := mem_filter.mp hu
    have hids : u ∈ ids := by
      rw [h]
      exact mem_append_left _ hmem
    have hled := (below_of_mem_declarations forest (route.below u hids).1 hdecl).le forest
    have hhome : graph.home? u = some inner := by simpa using hhome
    rw [home?] at hhome
    have hdinner : d < inner := Nat.lt_of_lt_of_le hlt hle
    split at hhome
    · exact Nat.lt_of_lt_of_le (Nat.lt_trans hdinner (forest.parent_lt hhome)) hled
    · split at hhome
      · cases hhome
        exact Nat.lt_of_lt_of_le hdinner hled
      · cases hhome

end

end Route

/-!
## What a name is bound to

The declarations that the open blocks hold where an expression is evaluated are those that stand before the place
in the method and whose variables live around the place; only a declaration around the place itself is not made
yet.
-/

/-! ## Places of evaluation -/

/-- The place lies in the initializer of a variable of the name, or in the collection over which a loop with such a
variable runs. -/
def Program.InOwnDeclaration (program : Program) (name : String) (place : VertexId) : Prop :=
  ∃ around ∈ program.graph.line place,
    (program.graph.is around .variableDeclaration = true ∧ program.hasName around name = true) ∨
      ∃ loop statement, program.graph.iterable? loop = some around ∧ program.graph.loopVariable? loop = some statement ∧
        ∃ declarator ∈ program.graph.childrenWithLabel statement .variableDeclaration,
        program.hasName declarator name = true

namespace CodeGraph

/-- The vertex is part of an expression. -/
def IsPart (graph : CodeGraph) (v : VertexId) : Prop := ∃ label, graph.label? v = some label ∧ label.isPart = true

/-- A place in what a vertex evaluates, when the vertex itself has declared some variables. -/
structure EvaluatesAt (graph : CodeGraph) (v : Nat) (done : List VertexId) (place : Nat) : Prop where
  below : graph.Below v place
  part : ∀ w : Nat, w ∈ graph.line place → w ∈ graph.line v ∨ graph.IsPart w
  source : (graph.declares v = false ∧ done = [] ∧ ∃ root : Nat, root ∈ graph.evaluatedRoots v ∧
    root ∈ graph.line place) ∨ ∃ declarator todo, graph.declares v = true ∧ graph.declarations v = done ++
    declarator :: todo ∧ declarator ∈ graph.line place

section
variable {graph : CodeGraph}

theorem not_opens_of_isPart {v : VertexId} (h : graph.IsPart v) : graph.opens v = false := by
  obtain ⟨label, hlabel, hpart⟩ := h
  rw [opens, scope?, hlabel]
  cases label <;> first | rfl | exact absurd hpart (by decide)

theorem opens_of_isBindingClause {v : VertexId} (h : graph.isBindingClause v = true) : graph.opens v = true := by
  rcases Bool.or_eq_true_iff.mp h with hv | hv <;> simp [opens, scope?, graph.is_iff.mp hv, NodeKind.opensScope]

theorem not_opens_of_declares {v : VertexId} (h : graph.declares v = true) : graph.opens v = false := by
  simp [opens, scope?, graph.is_iff.mp h, NodeKind.opensScope]

theorem forEach_of_opens {v root : VertexId} (h : graph.opens v = true) (hroot : root ∈ graph.evaluatedRoots v) :
    graph.label? v = some .forEachStatement ∧ graph.iterable? v = some root := by
  obtain ⟨kind, hscope⟩ := Option.isSome_iff_exists.mp h
  obtain ⟨hlabel, hkind⟩ := Option.filter_eq_some_iff.mp hscope
  rw [evaluatedRoots, labelOf_eq hlabel] at hroot
  cases kind
  case forEachStatement =>
    refine ⟨hlabel, ?_⟩
    rw [iterable?, labelOf_eq hlabel]
    exact Option.mem_toList.mp hroot
  all_goals first
    | exact absurd hkind (by decide)
    | simp [NodeKind.isDml, NodeKind.isExpression] at hroot

theorem mem_history {passed scopes : List VertexId} {s u id : VertexId} (hs : s ∈ scopes) (hu : u ∈ passed)
    (hhome : graph.home? u = some s) (hid : id ∈ graph.declarations u) : id ∈ graph.history passed scopes := by
  refine mem_flatMap.mpr ⟨s, mem_reverse.mpr hs, mem_flatMap.mpr ⟨u, ?_, hid⟩⟩
  exact mem_filter.mpr ⟨hu, by simpa using hhome⟩

theorem declarations_of_declares {v : VertexId} (h : graph.declares v = true) :
    graph.declarations v = graph.childrenWithLabel v .variableDeclaration := if_pos h

end

end CodeGraph

/-! ## Declarations in reach -/

namespace Route

open CodeGraph

variable {program : Program} {method body : Nat} {ids before after done : List VertexId} {v place : Nat} {name : String}

section
variable (placed : Build.WellPlaced program.graph) (declared : program.graph.WellDeclared)
    (route : Route program.graph body ids) (h : ids = before ++ v :: after)
    (evaluates : program.graph.EvaluatesAt v done place)
include placed declared route h evaluates

omit route h declared in
theorem lt_of_mem_done (hd : d ∈ done) : d ∈ program.graph.childrenWithLabel v .variableDeclaration ∧
    program.graph.declares v = true ∧ d < place := by
  rcases evaluates.source with ⟨-, rfl, -⟩ | ⟨declarator, todo, hdeclares, hdeclarations, hline⟩
  · cases hd
  · have hsorted := pairwise_declarations placed.ordered v
    rw [hdeclarations] at hsorted
    have hlt : d < declarator := (pairwise_append.mp hsorted).2.2 d hd declarator mem_cons_self
    rw [← declarations_of_declares hdeclares, hdeclarations]
    exact ⟨mem_append_left _ hd, hdeclares, Nat.lt_of_lt_of_le hlt (le_of_mem_line placed.forest hline)⟩

theorem pairwise_history_append :
    (program.graph.history before (program.graph.scopeLine body v) ++ done).Pairwise (· < ·) := by
  refine pairwise_append.mpr ⟨route.pairwise_history placed declared h, ?_, fun d hd d' hd' => ?_⟩
  · rcases evaluates.source with ⟨-, rfl, -⟩ | ⟨declarator, todo, -, hdeclarations, -⟩
    · exact .nil
    · have hsorted := pairwise_declarations placed.ordered v
      rw [hdeclarations] at hsorted
      exact (pairwise_append.mp hsorted).1
  · have hchild := (mem_filter.mp (lt_of_mem_done placed evaluates hd').1).1
    exact Nat.lt_trans (route.lt_of_mem_history placed declared h hd) (placed.forest.lt_of_mem hchild)

/-- And what stands there reaches the use. -/
theorem reaches_of_mem (hmethod : program.graph.Below method body)
    (hid : id ∈ program.graph.history before (program.graph.scopeLine body v) ++ done) :
    program.Reaches method place id := by
  have forest := placed.forest
  have hv := route.below v (mem h)
  have haround : ∀ {s : Nat}, s ∈ program.graph.line v → s < place → s ∈ program.graph.ancestors place := fun hs hlt =>
    (mem_cons.mp (mem_line_trans forest evaluates.below.1 hs evaluates.below.2)).resolve_left (Nat.ne_of_lt hlt)
  have hdeclarator : ∀ {u : Nat}, id ∈ program.graph.childrenWithLabel u .variableDeclaration → program.localScope? id =
      program.graph.parent? u := by
    intro u hmem
    obtain ⟨hchild, hlabel⟩ := mem_filter.mp hmem
    rw [Program.localScope?, program.graph.is_iff.mp hlabel]
    simp only [forest.parent_of_mem hchild, Option.bind_some]
  rcases mem_append.mp hid with hid | hid
  · have hlt := Nat.lt_of_lt_of_le (route.lt_of_mem_history placed declared h hid) (evaluates.below.le forest)
    obtain ⟨s, hs, hin⟩ := mem_flatMap.mp hid
    obtain ⟨u, hu, hdecl⟩ := mem_flatMap.mp hin
    obtain ⟨hmem, hhome⟩ := mem_filter.mp hu
    have hhome : program.graph.home? u = some s := by simpa using hhome
    have hline := (mem_scopeLine forest hv (mem_reverse.mp hs)).1
    have hbelowu := route.below u (by rw [h]; exact mem_append_left _ hmem)
    have hbelow := below_of_mem_declarations forest hbelowu.1 hdecl
    refine ⟨.trans forest hmethod (.trans forest hbelowu hbelow), hlt, s, ?_, ?_⟩
    · rw [home?] at hhome
      split at hhome
      · rename_i hdeclares
        rw [declarations_of_declares hdeclares] at hdecl
        rw [hdeclarator hdecl, hhome]
      · rename_i hdeclares
        split at hhome
        · rename_i hclause
          cases hhome
          rw [declarations, if_neg hdeclares] at hdecl
          split at hdecl
          · obtain rfl := mem_singleton.mp hdecl
            rw [Program.localScope?]
            rcases Bool.or_eq_true_iff.mp hclause with hk | hk <;> rw [program.graph.is_iff.mp hk]
          · cases hdecl
        · cases hhome
    · refine haround hline (Nat.lt_of_le_of_lt ?_ hlt)
      rw [home?] at hhome
      split at hhome
      · exact Nat.le_trans (Nat.le_of_lt (forest.parent_lt hhome)) (hbelow.le forest)
      · split at hhome
        · cases hhome
          exact hbelow.le forest
        · cases hhome
  · obtain ⟨hmem, hdeclares, hlt⟩ := lt_of_mem_done placed evaluates hid
    have hchild := (mem_filter.mp hmem).1
    have hlabel := program.graph.is_iff.mp hdeclares
    have hne : v ≠ body := by
      rintro rfl
      exact absurd route.isBlock (by simp [hlabel])
    obtain ⟨s, hs⟩ := hv.parent_of_ne hne
    have hsv := forest.parent_lt hs
    have hbelow : program.graph.Below v id :=
      .of_child forest hchild (.refl (lt_of_parent? (forest.parent_of_mem hchild)))
    refine ⟨.trans forest hmethod (.trans forest hv hbelow), hlt, s, (hdeclarator hmem).trans hs, haround ?_ ?_⟩
    · rw [line_of_parent forest hv.1 hs]
      exact mem_cons_of_mem _ mem_cons_self
    · exact Nat.lt_of_lt_of_le hsv (evaluates.below.le forest)

theorem scope_of_opens (hmethod : program.graph.is method .method = true) (hbody : body ∈ program.graph.children method)
    (hs : s ∈ program.graph.line place) (hopens : program.graph.opens s = true) (hup : method ∈ program.graph.line s) :
    s ∈ program.graph.line v ∧ program.graph.Below body s ∧ s ∈ program.graph.scopeLine body v := by
  have forest := placed.forest
  have hv := route.below v (mem h)
  have hplace := evaluates.below
  have hsv : s ∈ program.graph.line v := (evaluates.part s hs).resolve_right fun hpart => by
    rw [not_opens_of_isPart hpart] at hopens
    cases hopens
  have hne : method ≠ s := by
    rintro rfl
    simp [opens, scope?, program.graph.is_iff.mp hmethod, NodeKind.opensScope] at hopens
  have hslt : s < program.graph.vertexCount := Nat.lt_of_le_of_lt (le_of_mem_line forest hsv) hv.1
  obtain ⟨c, hc, hchild⟩ := exists_child_of_mem_line forest declared.lists hslt hup hne
  obtain rfl := eq_of_mem_line forest (forest.parent_of_mem hchild) (forest.parent_of_mem hbody) hplace.1
    (mem_line_trans forest hplace.1 hc hs) (Below.trans forest hv hplace).2
  exact ⟨hsv, ⟨hslt, hc⟩, mem_scopeLine_of_mem_line forest hv hsv ⟨hslt, hc⟩ hopens⟩

omit route h declared in
theorem mem_done_of_lt (hown : ¬program.InOwnDeclaration name place) (hname : program.hasName id name = true)
    (hdeclares : program.graph.declares v = true) (hid : id ∈ program.graph.childrenWithLabel v .variableDeclaration)
    (hlt : id < place) : id ∈ done := by
  have forest := placed.forest
  obtain ⟨hchild, hdeclarator⟩ := mem_filter.mp hid
  rcases evaluates.source with ⟨hnot, -⟩ | ⟨declarator, todo, -, hdeclarations, hline⟩
  · rw [hdeclares] at hnot
    cases hnot
  have hsorted := pairwise_declarations placed.ordered v
  rw [hdeclarations] at hsorted
  rw [← declarations_of_declares hdeclares, hdeclarations] at hid
  have hmember : declarator ∈ program.graph.childrenWithLabel v .variableDeclaration := by
    rw [← declarations_of_declares hdeclares, hdeclarations]
    exact mem_append_right _ mem_cons_self
  have hne : id ≠ declarator := by
    rintro rfl
    exact hown ⟨id, hline, .inl ⟨hdeclarator, hname⟩⟩
  have hless :=
    (placed.ordered.lt_iff_of_siblings forest (mem_filter.mp hmember).1 hchild hne ⟨evaluates.below.1, hline⟩).mpr hlt
  rcases mem_append.mp hid with hmem | hmem
  · exact hmem
  · have hgreater : declarator < id := (pairwise_cons.mp (pairwise_append.mp hsorted).2.1).1 id
      ((mem_cons.mp hmem).resolve_left hne)
    exact absurd hless (Nat.lt_asymm hgreater)

omit route h declared in
theorem inOwnDeclaration_of_loop (hopens : program.graph.opens v = true) (hname : program.hasName id name = true)
    (hu : u ∈ program.graph.children v) (hdeclares : program.graph.declares u = true)
    (hid : id ∈ program.graph.childrenWithLabel u .variableDeclaration) : program.InOwnDeclaration name place := by
  rcases evaluates.source with ⟨-, -, root, hroot, hrootline⟩ | ⟨_, _, hdeclaresv, -⟩
  · obtain ⟨hforEach, hiterable⟩ := forEach_of_opens hopens hroot
    refine ⟨root, hrootline, .inr ⟨v, u, hiterable, ?_, id, hid, hname⟩⟩
    rw [loopVariable?, labelOf_eq hforEach]
    refine (List.head?_eq_getElem? (l := program.graph.children v)).symm.trans ?_
    rcases placed.places v u hu hdeclares with hblock | ⟨-, hhead⟩
    · rw [hforEach] at hblock
      cases hblock
    · exact hhead
  · rw [not_opens_of_declares hdeclaresv] at hopens
    cases hopens

section
variable (hmethod : program.graph.is method .method = true)
include hmethod

section
variable (hbody : body ∈ program.graph.children method)
include hbody

/-- A declaration that reaches a use stands in the history of its scopes. -/
theorem mem_of_reaches_declarator
    (hown : ¬program.InOwnDeclaration name place) (hname : program.hasName id name = true)
    (hdeclarator : program.graph.is id .variableDeclaration = true) (hreaches : program.Reaches method place id) :
    id ∈ program.graph.history before (program.graph.scopeLine body v) ++ done := by
  have forest := placed.forest
  have hv := route.below v (mem h)
  have hplace := evaluates.below
  have hlabel := program.graph.is_iff.mp hdeclarator
  have hmethodLabel := program.graph.is_iff.mp hmethod
  obtain ⟨hbelow, hlt, s, hscope, haround⟩ := hreaches
  rw [Program.localScope?, hlabel] at hscope
  obtain ⟨u, hu, hs⟩ := Option.bind_eq_some_iff.mp hscope
  have hchild := declared.lists hu
  have hdeclares := (declared.declarator_iff hchild).mp hdeclarator
  have huchild := declared.lists hs
  have hopens : program.graph.opens s = true := placed.places.scope?_isSome huchild hdeclares
  have hmem : id ∈ program.graph.childrenWithLabel u .variableDeclaration := mem_filter.mpr ⟨hchild, hdeclarator⟩
  have hup : method ∈ program.graph.line s := by
    have hline := hbelow.2
    rw [line_of_parent forest (lt_of_parent? hu) hu] at hline
    rcases mem_cons.mp hline with rfl | hline
    · rw [hmethodLabel] at hlabel
      cases hlabel
    rw [line_of_parent forest (lt_of_parent? hs) hs] at hline
    rcases mem_cons.mp hline with rfl | hline
    · rw [program.graph.is_iff.mp hdeclares] at hmethodLabel
      cases hmethodLabel
    · exact hline
  obtain ⟨hsv, hbelows, hsline⟩ :=
    route.scope_of_opens placed declared h evaluates hmethod hbody (mem_cons_of_mem _ haround) hopens hup
  by_cases hself : s = v
  · obtain rfl := hself
    exact absurd (inOwnDeclaration_of_loop placed evaluates hopens hname huchild hdeclares hmem) hown
  obtain ⟨c, hc, hcchild⟩ := exists_child_of_mem_line forest declared.lists hv.1 hsv hself
  have hcplace : program.graph.Below c place := ⟨hplace.1, mem_line_trans forest hplace.1 hc hplace.2⟩
  by_cases huc : u = c
  · -- The vertex itself declares the variable.
    obtain rfl := huc
    have hbelowu : program.graph.Below body u :=
      .trans forest hbelows (.of_child forest huchild (.refl (lt_of_parent? hs)))
    obtain rfl := route.eq_of_declares forest declared h hc hbelowu hdeclares
    exact mem_append_right _ (mem_done_of_lt placed evaluates hown hname hdeclares hmem hlt)
  · have hless :=
      (placed.ordered.lt_iff_of_siblings forest hcchild huchild huc hcplace).mpr
      (Nat.lt_trans (forest.parent_lt hu) hlt)
    have hpassed := (route.mem_iff_lt placed declared h hsv hself hbelows huchild hdeclares).mpr
      (Nat.lt_of_lt_of_le hless (le_of_mem_line forest hc))
    rw [← declarations_of_declares hdeclares] at hmem
    exact mem_append_left _ (mem_history hsline hpassed ((if_pos hdeclares).trans hs) hmem)

theorem mem_of_reaches_clause (hname : program.hasName id name = true)
    (hclause : program.graph.isBindingClause id = true) (hline : id ∈ program.graph.line place)
    (hup : method ∈ program.graph.line id) :
    id ∈ program.graph.history before (program.graph.scopeLine body v) ++ done := by
  have hopens := opens_of_isBindingClause hclause
  obtain ⟨hsv, hbelows, hsline⟩ := route.scope_of_opens placed declared h evaluates hmethod hbody hline hopens hup
  have hdeclares : program.graph.declares id = false := by
    rcases Bool.or_eq_true_iff.mp hclause with hk | hk <;>
      simp [CodeGraph.declares, CodeGraph.is, program.graph.is_iff.mp hk]
  have hne : id ≠ v := by
    rintro rfl
    rcases evaluates.source with ⟨-, -, root, hroot, -⟩ | ⟨_, _, hdeclaresv, -⟩
    · have hforEach := (forEach_of_opens hopens hroot).1
      rcases Bool.or_eq_true_iff.mp hclause with hk | hk <;> simp [CodeGraph.is, hforEach] at hk
    · rw [hdeclares] at hdeclaresv
      cases hdeclaresv
  have hnamed : (program.graph.name? id).isSome = true := by
    rw [Program.hasName] at hname
    cases hn : program.graph.name? id <;> simp_all
  have hpassed := (route.mem_of_mem_line placed.forest h hsv hbelows).resolve_left hne
  exact mem_append_left _
    (mem_history hsline hpassed (by simp [home?, hdeclares, hclause])
    (by simp [declarations, hdeclares, hclause, hnamed]))

/-- What reaches the place is held by the open blocks, or it is declared around the place. -/
theorem mem_of_reaches
    (hown : ¬program.InOwnDeclaration name place) (hname : program.hasName id name = true)
    (hreaches : program.Reaches method place id) : id ∈
    program.graph.history before (program.graph.scopeLine body v) ++ done := by
  obtain ⟨s, hscope, haround⟩ := hreaches.around
  rw [Program.localScope?] at hscope
  split at hscope
  · rename_i hlabel
    exact route.mem_of_reaches_declarator placed declared h evaluates hmethod hbody hown hname
      (program.graph.is_iff.mpr hlabel) hreaches
  · rename_i hlabel
    cases hscope
    exact route.mem_of_reaches_clause placed declared h evaluates hmethod hbody hname
      (by simp [isBindingClause, CodeGraph.is, hlabel]) (mem_cons_of_mem _ haround) hreaches.below.2
  · rename_i hlabel
    cases hscope
    exact route.mem_of_reaches_clause placed declared h evaluates hmethod hbody hname
      (by simp [isBindingClause, CodeGraph.is, hlabel]) (mem_cons_of_mem _ haround) hreaches.below.2
  · cases hscope

end

end

end

end Route

end ApexPaths
