import ApexPaths.Build.Basic
import ApexPaths.Proofs.Build.Completion
import ApexPaths.Proofs.Result

/-!
Misuse of statements in source trees: code that follows an exit of its block, jumps outside of loops,
and `if` chains without a last block. Completion keeps the first two as they are and leaves the third
in static blocks only. In a completed tree all three stand in methods.
-/

set_option autoImplicit false

namespace ApexPaths.Source.Tree

open List

variable {completed : Bool} {tree : Tree}

/-! ## Tests of nodes -/

/-- Some node passes a test, among those that are reached through the kinds that `enters` accepts. -/
def Has (enters : NodeKind → Bool) (test : Tree → Prop) (tree : Tree) : Prop :=
  ∃ node ∈ tree.nodesWhere enters, test node

theorem has_iff {enters : NodeKind → Bool} {test : Tree → Prop} {tree : Tree} : tree.Has enters test ↔
    test tree ∨ enters tree.kind = true ∧ ∃ child ∈ tree.children, child.Has enters test := by
  constructor
  · rintro ⟨node, hnode, htest⟩
    rcases mem_nodesWhere.mp hnode with rfl | ⟨henters, child, hchild, hnode⟩
    · exact .inl htest
    · exact .inr ⟨henters, child, hchild, node, hnode, htest⟩
  · rintro (htest | ⟨henters, child, hchild, node, hnode, htest⟩)
    · exact ⟨tree, mem_nodesWhere.mpr (.inl rfl), htest⟩
    · exact ⟨node, mem_nodesWhere.mpr (.inr ⟨henters, child, hchild, hnode⟩), htest⟩

/-- A statement of the block follows an exit of the same block. -/
def IsDead (block : Tree) : Prop :=
  block.kind = .blockStatement ∧
    ∃ before exit next after, block.children = before ++ exit :: next :: after ∧ exit.kind.isExit = true

def IsJump (node : Tree) : Prop := node.kind = .breakStatement ∨ node.kind = .continueStatement

/-- An if-else whose last part is no block, so that an else is missing. -/
def IsOpenIf (node : Tree) : Prop :=
  node.kind = .ifElseBlockStatement ∧ ∀ last ∈ node.children.getLast?, last.kind ≠ .blockStatement

def HasDeadCode (tree : Tree) : Prop := tree.Has (fun _ => true) IsDead

/-- A jump stands outside every loop. -/
def HasStrayJump (tree : Tree) : Prop := tree.Has (fun kind => !kind.isLoop) IsJump

def HasOpenIf (tree : Tree) : Prop := tree.Has (fun _ => true) IsOpenIf

/-- Some static block holds an `if` chain without a last block. -/
def HasOpenStaticIf (tree : Tree) : Prop := ∃ node ∈ tree.nodes, node.kind = .staticBlock ∧ node.HasOpenIf

/-- A test of statements, which may look everywhere outside of loops. -/
structure TestsStatements (enters : NodeKind → Bool) (test : Tree → Prop) : Prop where
  enters_of_not_loop : ∀ kind : NodeKind, kind.isLoop = false → enters kind = true
  isStatement : ∀ tree, test tree → tree.kind.isStatement = true

theorem testsStatements_dead : TestsStatements (fun _ => true) IsDead :=
  ⟨fun _ _ => rfl, fun _ h => h.1 ▸ rfl⟩

theorem testsStatements_jump : TestsStatements (fun kind => !kind.isLoop) IsJump := by
  refine ⟨fun kind h => by simp [h], fun tree h => ?_⟩
  rcases h with h | h <;> rw [h] <;> rfl

theorem testsStatements_openIf : TestsStatements (fun _ => true) IsOpenIf :=
  ⟨fun _ _ => rfl, fun _ h => h.1 ▸ rfl⟩

theorem isStatement_eq_false {tree : Tree} (h : tree.kind.isPart = true ∨ tree.kind.isTypeDeclaration = true) :
    tree.kind.isStatement = false := by
  cases hk : tree.kind <;> rw [hk] at h <;> first | rfl | exact absurd h (by decide)

section
variable {enters : NodeKind → Bool} {test : Tree → Prop} (tests : TestsStatements enters test)
include tests

theorem TestsStatements.has_iff {tree : Tree} (hkind : tree.kind.isStatement = false) :
    tree.Has enters test ↔ ∃ child ∈ tree.children, child.Has enters test := by
  have hloop : tree.kind.isLoop = false := by
    cases hk : tree.kind <;> rw [hk] at hkind <;> first | rfl | exact absurd hkind (by decide)
  rw [Tree.has_iff, tests.enters_of_not_loop tree.kind hloop]
  constructor
  · rintro (h | h)
    · rw [tests.isStatement tree h] at hkind
      exact absurd hkind (by simp)
    · exact h.2
  · exact fun h => .inr ⟨rfl, h⟩

theorem TestsStatements.not_has_of_isPart (h : tree.Well completed)
    (hkind : tree.kind.isPart = true) : ¬tree.Has enters test := by
  induction tree using induct with
  | step tree ih =>
    have hstatement := isStatement_eq_false (.inl hkind)
    rw [tests.has_iff hstatement]
    rintro ⟨child, hchild, hhas⟩
    exact ih child hchild (h.child hchild)
      (NodeKind.isPart_of_mayHold (h.formed.holds.mayHold child hchild) (.inl hkind)) hhas

end

/-! ## Completed types -/

/-- Members without code in them: fields, and properties without their accessors. -/
def IsPlainMember (tree : Tree) : Prop :=
  (tree.kind = .fieldDeclarationStatements ∨ tree.kind = .propertyDeclaration) ∧
    ∀ child ∈ tree.children, child.kind.isPart = true

/-- A completed type has types, methods and plain members in it. -/
theorem Well.members (h : tree.Well true) (hkind : tree.kind.isTypeDeclaration = true) :
    ∀ child ∈ tree.children, child.kind.isTypeDeclaration = true ∨ child.kind = .method ∨ child.IsPlainMember := by
  intro child hchild
  have hmember : child.kind.isMember = true ∧ child.kind ≠ .staticBlock := by
    have hholds := h.formed.holds
    cases hk : tree.kind <;> rw [hk] at hholds hkind
    case userClass | userInterface => exact ⟨(hholds child hchild).1, (hholds child hchild).2 rfl⟩
    case userEnum =>
      rw [show tree.children = [] from hholds] at hchild
      exact absurd hchild not_mem_nil
    case userTrigger =>
      obtain ⟨body, he, hbody⟩ := hholds
      rw [he, mem_singleton] at hchild
      have hmethod : child.kind = .method := hchild ▸ hbody
      exact ⟨hmethod ▸ rfl, by simp [hmethod]⟩
    all_goals exact absurd hkind (by decide)
  have hwell := (h.child hchild).formed.holds
  obtain ⟨hkind, hne⟩ := hmember
  cases hk : child.kind <;> rw [hk] at hwell hkind hne
  case method => exact .inr (.inl rfl)
  case fieldDeclarationStatements =>
    exact .inr (.inr ⟨.inl hk, fun part hpart => NodeKind.isPart_of_isOperand (hwell part hpart)⟩)
  case propertyDeclaration => exact .inr (.inr ⟨.inr hk, fun accessor ha => absurd (hwell accessor ha).2 (by simp)⟩)
  all_goals first | exact .inl rfl | exact absurd rfl hne | exact absurd hkind (by decide)

theorem IsPlainMember.not_method (h : tree.IsPlainMember) (hwell : tree.Well completed) :
    ∀ node ∈ tree.nodes, node.kind ≠ .method := by
  intro node hnode e
  rcases mem_nodes.mp hnode with rfl | ⟨child, hchild, hnode⟩
  · rcases h.1 with hk | hk <;> rw [hk] at e <;> exact absurd e (by decide)
  · have hpart := (hwell.child hchild).isPart (h.2 child hchild) node hnode
    rw [e] at hpart
    exact absurd hpart (by decide)

theorem eq_of_method_mem_nodes {method node : Tree} (h : method.Well completed) (hkind : method.kind = .method)
    (hnode : node ∈ method.nodes) (hmethod : node.kind = .method) : node = method := by
  rcases mem_nodes.mp hnode with rfl | ⟨child, hchild, hnode⟩
  · rfl
  · have hholds := h.formed.holds
    rw [hkind] at hholds
    obtain ⟨params, found, he, hparams, hfound⟩ := hholds
    have hinner : child.kind.isInner = true := by
      rw [he, mem_append, Option.mem_toList] at hchild
      rcases hchild with hchild | hchild
      · exact hparams child hchild ▸ rfl
      · exact hfound child hchild ▸ rfl
    have hnode := (h.child hchild).isInner hinner node hnode
    rw [hmethod] at hnode
    exact absurd hnode (by decide)

section
variable {enters : NodeKind → Bool} {test : Tree → Prop} (tests : TestsStatements enters test)
include tests

theorem TestsStatements.not_has_plainMember (h : tree.IsPlainMember)
    (hwell : tree.Well completed) : ¬tree.Has enters test := by
  have hstatement : tree.kind.isStatement = false := by
    rcases h.1 with hk | hk <;> rw [hk] <;> rfl
  rw [tests.has_iff hstatement]
  rintro ⟨child, hchild, hhas⟩
  exact tests.not_has_of_isPart (hwell.child hchild) (h.2 child hchild) hhas

/-- What is looked for in statements stands in some method of the type. -/
theorem TestsStatements.has_iff_method (h : tree.Well true) (hkind : tree.kind.isTypeDeclaration = true) :
    tree.Has enters test ↔ ∃ method ∈ tree.nodes, method.kind = .method ∧ method.Has enters test := by
  induction tree using induct with
  | step tree ih =>
    have hstatement := isStatement_eq_false (.inr hkind)
    rw [tests.has_iff hstatement]
    constructor
    · rintro ⟨child, hchild, hhas⟩
      have hwell := h.child hchild
      rcases h.members hkind child hchild with hk | hk | hk
      · obtain ⟨method, hmem, hmethod⟩ := (ih child hchild hwell hk).mp hhas
        exact ⟨method, mem_nodes.mpr (.inr ⟨child, hchild, hmem⟩), hmethod⟩
      · exact ⟨child, mem_nodes.mpr (.inr ⟨child, hchild, child.self_mem_nodes⟩), hk, hhas⟩
      · exact absurd hhas (tests.not_has_plainMember hk hwell)
    · rintro ⟨method, hmem, hmethod, hhas⟩
      rcases mem_nodes.mp hmem with rfl | ⟨child, hchild, hmem⟩
      · rw [hmethod] at hkind
        exact absurd hkind (by decide)
      · have hwell := h.child hchild
        refine ⟨child, hchild, ?_⟩
        rcases h.members hkind child hchild with hk | hk | hk
        · exact (ih child hchild hwell hk).mpr ⟨method, hmem, hmethod, hhas⟩
        · exact eq_of_method_mem_nodes hwell hk hmem hmethod ▸ hhas
        · exact absurd hmethod (hk.not_method hwell method hmem)

end

end ApexPaths.Source.Tree

namespace ApexPaths.Build

open Source List Tree

variable {tree : Tree}

/-! ## The check for code that cannot run -/

/-- A statement is unreachable if it comes after one that leaves the block. -/
theorem afterExit?_isSome_iff (children : List Tree) : (afterExit? children).isSome = true ↔
    ∃ before exit next after, children = before ++ exit :: next :: after ∧ exit.kind.isExit = true := by
  induction children with
  | nil => simp [afterExit?]
  | cons first rest ih =>
    cases rest with
    | nil =>
      simp only [afterExit?, Option.isSome_none, Bool.false_eq_true, false_iff]
      rintro ⟨before, exit, next, after, he, -⟩
      have hlength := congrArg List.length he
      simp only [length_append, length_cons, length_nil] at hlength
      omega
    | cons second rest =>
      rw [afterExit?]
      split
      · rename_i hexit
        exact iff_of_true rfl ⟨[], first, second, rest, rfl, hexit⟩
      · rename_i hexit
        rw [ih]
        constructor
        · rintro ⟨before, exit, next, after, he, h⟩
          exact ⟨first :: before, exit, next, after, by rw [he, cons_append], h⟩
        · rintro ⟨before, exit, next, after, he, h⟩
          cases before with
          | nil =>
            obtain ⟨rfl, -⟩ := List.cons.inj he
            exact absurd h hexit
          | cons b before => exact ⟨before, exit, next, after, (List.cons.inj he).2, h⟩

theorem firstUnreachable?_isSome_iff (trees : List Tree) :
    (firstUnreachable? trees).isSome = true ↔ ∃ tree ∈ trees, (unreachable? tree).isSome = true := by
  induction trees with
  | nil => simp [firstUnreachable?]
  | cons tree rest ih => simp [firstUnreachable?, ih]

theorem unreachable?_isSome_iff (tree : Tree) : (unreachable? tree).isSome = true ↔ tree.HasDeadCode := by
  induction tree using induct with
  | step tree ih =>
    obtain ⟨kind, span, props, children⟩ := tree
    have hchildren : (firstUnreachable? children).isSome = true ↔ ∃ child ∈ children, child.HasDeadCode := by
      rw [firstUnreachable?_isSome_iff]
      exact ⟨fun ⟨child, hc, h⟩ => ⟨child, hc, (ih child hc).mp h⟩, fun ⟨child, hc, h⟩ =>
        ⟨child, hc, (ih child hc).mpr h⟩⟩
    rw [unreachable?, Tree.HasDeadCode, has_iff, Tree.IsDead]
    by_cases hk : kind = .blockStatement
    · simp [hk, hchildren, afterExit?_isSome_iff, Tree.HasDeadCode]
    · simp [hk, hchildren, Tree.HasDeadCode]

/-- A check refuses code that cannot run, and lets everything else pass. -/
def Refuses (unit : String) (dead : Prop) (check : Except EngineError Unit) : Prop :=
  (dead → ∃ owner method line column, check = .error (.unreachable owner method unit line column)) ∧
  (¬dead → check = .ok ())

theorem Refuses.andThen {unit : String} {first second : Prop} {check next : Except EngineError Unit}
    (h : Refuses unit first check) (hnext : Refuses unit second next) :
    Refuses unit (first ∨ second) (check >>= fun _ => next) := by
  by_cases hfirst : first
  · obtain ⟨owner, method, line, column, he⟩ := h.1 hfirst
    rw [he]
    exact ⟨fun _ => ⟨owner, method, line, column, rfl⟩, fun hnone => absurd (.inl hfirst) hnone⟩
  · rw [h.2 hfirst]
    exact ⟨fun hdead => hnext.1 (hdead.resolve_left hfirst), fun hnone => hnext.2 fun hsecond => hnone (.inr hsecond)⟩

theorem refuses_checkMethod (unit : String) (scopes : ScopeStack) {method : Tree} (hkind : method.kind = .method) :
    Refuses unit method.HasDeadCode (checkMethod unit scopes method) := by
  have hiff : method.HasDeadCode ↔ (firstUnreachable? method.children).isSome = true := by
    rw [Tree.HasDeadCode, testsStatements_dead.has_iff (hkind ▸ rfl), firstUnreachable?_isSome_iff]
    simp only [unreachable?_isSome_iff, Tree.HasDeadCode]
  rw [hiff, checkMethod]
  cases firstUnreachable? method.children with
  | none => exact ⟨by simp, fun _ => rfl⟩
  | some statement => exact ⟨fun _ => ⟨_, _, _, _, rfl⟩, by simp⟩

theorem refuses_checkMembers (unit : String) (scopes : ScopeStack) {children : List Tree}
    (hmembers : ∀ child ∈ children, child.kind.isTypeDeclaration = true ∨ child.kind = .method ∨ child.IsPlainMember)
    (hwell : ∀ child ∈ children, child.Well true) (hnested : ∀ child ∈ children, child.kind.isTypeDeclaration = true →
      Refuses unit child.HasDeadCode (checkReachability unit scopes child)) :
    Refuses unit (∃ child ∈ children, child.HasDeadCode) (checkMembers unit scopes children) := by
  induction children with
  | nil => exact ⟨by simp, fun _ => rfl⟩
  | cons child rest ih =>
    obtain ⟨hchild, hmembers⟩ := forall_mem_cons.mp hmembers
    obtain ⟨hchildwell, hwell⟩ := forall_mem_cons.mp hwell
    obtain ⟨hchildnested, hnested⟩ := forall_mem_cons.mp hnested
    have hrest := ih hmembers hwell hnested
    have hcons : (∃ tree ∈ child :: rest, tree.HasDeadCode) ↔ child.HasDeadCode ∨ ∃ tree ∈ rest, tree.HasDeadCode :=
      by simp
    rw [checkMembers, hcons]
    rcases hchild with hk | hk | hk
    · rw [if_pos hk]
      exact (hchildnested hk).andThen hrest
    · rw [if_neg (by simp [hk, NodeKind.isTypeDeclaration]), if_pos (by simp [hk])]
      exact (refuses_checkMethod unit scopes hk).andThen hrest
    · have hplain : child.kind.isTypeDeclaration = false ∧ child.kind ≠ .method := by
        rcases hk.1 with e | e <;> rw [e] <;> decide
      rw [if_neg (by simp [hplain.1]), if_neg (by simpa using hplain.2)]
      have hnone : ¬child.HasDeadCode := testsStatements_dead.not_has_plainMember hk hchildwell
      rwa [or_iff_right hnone]

/-- The check refuses exactly the completed types with dead code, and says so. -/
theorem refuses_checkReachability (unit : String) (h : tree.Well true) (hkind : tree.kind.isTypeDeclaration = true)
    (scopes : ScopeStack) : Refuses unit tree.HasDeadCode (checkReachability unit scopes tree) := by
  induction tree using induct generalizing scopes with
  | step tree ih =>
    have hstatement := isStatement_eq_false (.inr hkind)
    have hiff := testsStatements_dead.has_iff hstatement
    rw [Tree.HasDeadCode, hiff]
    have hmembers := h.members hkind
    obtain ⟨kind, span, props, children⟩ := tree
    rw [checkReachability]
    exact refuses_checkMembers unit _ hmembers (fun child hchild => h.child hchild)
      fun child hchild hk => ih child hchild (h.child hchild) hk _

/-! ## Misuse after completion -/

/-- A test that fails on everything completion adds. -/
structure Quiet (enters : NodeKind → Bool) (test : Tree → Prop) : Prop extends Tree.TestsStatements enters test where
  not_implicit : ∀ span, ¬test (implicitBlock span)
  not_call : ∀ ordinal span, ¬test (staticBlockCall ordinal span)
  not_calls : ∀ span children, (∀ child ∈ children, child.kind = .expressionStatement) →
    ¬test { kind := .blockStatement, span, children }

/-- A test that completion of statements does not disturb. -/
structure Kept (enters : NodeKind → Bool) (test : Tree → Prop) : Prop extends Quiet enters test where
  complete_iff : ∀ tree, test (completeStatements tree) ↔ test tree

theorem exists_exit_iff (children : List Tree) :
    (∃ before exit next after, children = before ++ exit :: next :: after ∧ exit.kind.isExit = true) ↔
      ∃ before exit next after, children.map kind = before ++ exit :: next :: after ∧ exit.isExit = true := by
  constructor
  · rintro ⟨before, exit, next, after, rfl, hexit⟩
    exact ⟨before.map kind, exit.kind, next.kind, after.map kind, by simp, hexit⟩
  · rintro ⟨before, exit, next, after, he, hexit⟩
    obtain ⟨first, fromExit, rfl, -, hfromExit⟩ := map_eq_append_iff.mp he
    obtain ⟨e, fromNext, rfl, rfl, hfromNext⟩ := map_eq_cons_iff.mp hfromExit
    obtain ⟨n, rest, rfl, -, -⟩ := map_eq_cons_iff.mp hfromNext
    exact ⟨first, e, n, rest, rfl, hexit⟩

theorem isDead_congr {a b : Tree} (hkind : a.kind = b.kind)
    (hkinds : b.kind = .blockStatement → a.children.map kind = b.children.map kind) : a.IsDead ↔
    b.IsDead := by
  rw [Tree.IsDead, Tree.IsDead, hkind, exists_exit_iff, exists_exit_iff]
  exact and_congr_right fun hb => by rw [hkinds hb]

/-- Completing a tree neither adds nor removes dead code. -/
theorem kept_dead : Kept (fun _ => true) Tree.IsDead where
  toTestsStatements := testsStatements_dead
  complete_iff tree := by
    refine isDead_congr (completeStatements_kind tree) fun hkind => ?_
    rw [completeStatements_eq, missingBlocks_eq_nil (by simp [hkind]) (by simp [hkind, NodeKind.isLoop])]
    simp
  not_implicit span := by
    rintro ⟨-, before, exit, next, after, he, -⟩
    simp [implicitBlock] at he
  not_call ordinal span h := absurd h.1 (by simp [staticBlockCall])
  not_calls span children hchildren := by
    rintro ⟨-, before, exit, next, after, rfl, hexit⟩
    rw [hchildren exit (by simp)] at hexit
    exact absurd hexit (by decide)

theorem kept_jump : Kept (fun kind => !kind.isLoop) Tree.IsJump where
  toTestsStatements := testsStatements_jump
  complete_iff tree := by simp [Tree.IsJump]
  not_implicit span := by simp [Tree.IsJump, implicitBlock]
  not_call ordinal span := by simp [Tree.IsJump, staticBlockCall]
  not_calls span children _ := by simp [Tree.IsJump]

theorem quiet_openIf : Quiet (fun _ => true) Tree.IsOpenIf where
  toTestsStatements := testsStatements_openIf
  not_implicit span := by simp [Tree.IsOpenIf, implicitBlock]
  not_call ordinal span := by simp [Tree.IsOpenIf, staticBlockCall]
  not_calls span children _ := by simp [Tree.IsOpenIf]

section
variable {enters : NodeKind → Bool} {test : Tree → Prop} (quiet : Quiet enters test)
include quiet

theorem Quiet.not_has_implicit (span : Span) : ¬(implicitBlock span).Has enters test := by
  rw [has_iff]
  simpa [implicitBlock] using quiet.not_implicit span

theorem Quiet.has_staticBlockMethod (h : tree.Well false) (hkind : tree.kind = .staticBlock) (ordinal : Nat) :
    (staticBlockMethod ordinal tree).Has enters test ↔ tree.Has enters test := by
  obtain ⟨body, he, -, -⟩ := staticBlock_children h hkind
  have hiff := quiet.has_iff (show tree.kind.isStatement = false from hkind ▸ rfl)
  rw [hiff, quiet.has_iff rfl, staticBlockMethod, he]
  rfl

theorem Quiet.not_has_staticBlockInvoker (span : Span) (blocks : List Span) :
    ¬(staticBlockInvoker span blocks).Has enters test := by
  have hcall : ∀ ordinal span, ¬(staticBlockCall ordinal span).Has enters test := by
    intro ordinal span hhas
    rcases has_iff.mp hhas with htest | ⟨-, child, hchild, hhas⟩
    · exact quiet.not_call ordinal span htest
    · have hwell := (well_staticBlockCall ordinal span).child hchild
      exact quiet.not_has_of_isPart hwell (mem_singleton.mp hchild ▸ rfl) hhas
  intro hhas
  obtain ⟨body, hbody, hhas⟩ := (quiet.has_iff rfl).mp hhas
  obtain rfl := mem_singleton.mp hbody
  rcases has_iff.mp hhas with htest | ⟨-, child, hchild, hhas⟩
  · refine quiet.not_calls span _ (fun child hchild => ?_) htest
    obtain ⟨i, hi, rfl⟩ := mem_mapIdx.mp hchild
    rfl
  · obtain ⟨i, hi, rfl⟩ := mem_mapIdx.mp hchild
    exact hcall _ _ hhas

theorem Quiet.has_completeType_iff (hkind : tree.kind.isTypeDeclaration = true) :
    (completeType tree).Has enters test ↔ ∃ member ∈ completeMembers 1 tree.children, member.Has enters test := by
  have hstatement := isStatement_eq_false (.inr hkind)
  rw [completeType_eq]
  refine (quiet.has_iff (by exact hstatement)).trans ?_
  constructor
  · rintro ⟨member, hmember, hhas⟩
    rcases mem_append.mp hmember with hmember | hmember
    · exact ⟨member, hmember, hhas⟩
    · split at hmember
      · exact absurd hmember not_mem_nil
      · rw [mem_singleton.mp hmember] at hhas
        exact absurd hhas (quiet.not_has_staticBlockInvoker _ _)
  · rintro ⟨member, hmember, hhas⟩
    exact ⟨member, mem_append_left _ hmember, hhas⟩

theorem Quiet.has_method_iff {method body : Tree} {params : List Tree} (hkind : method.kind = .method)
    (hchildren : method.children = params ++ [body]) (hparams : ∀ param ∈ params, param.kind = .parameter ∧
    param.children = []) :
    method.Has enters test ↔ body.Has enters test := by
  have hparam : ∀ param ∈ params, ¬param.Has enters test := by
    intro param hp
    rw [quiet.has_iff ((hparams param hp).1 ▸ rfl), (hparams param hp).2]
    simp
  rw [quiet.has_iff (hkind ▸ rfl), hchildren]
  constructor
  · rintro ⟨child, hchild, hhas⟩
    rcases mem_append.mp hchild with hchild | hchild
    · exact absurd hhas (hparam child hchild)
    · exact mem_singleton.mp hchild ▸ hhas
  · exact fun hhas => ⟨body, by simp, hhas⟩

theorem Quiet.not_has_bareProperty {property : Tree} (hkind : property.kind = .propertyDeclaration) :
    ¬({ property with children := [] } : Tree).Has enters test := by
  intro hhas
  obtain ⟨member, hmember, -⟩ := (quiet.has_iff (by rw [hkind]; rfl)).mp hhas
  exact absurd hmember not_mem_nil

end

section
variable {enters : NodeKind → Bool} {test : Tree → Prop} (kept : Kept enters test)
include kept

theorem Kept.has_completeStatements (tree : Tree) :
    (completeStatements tree).Has enters test ↔ tree.Has enters test := by
  induction tree using induct with
  | step tree ih =>
    rw [has_iff, @has_iff _ _ tree, kept.complete_iff, completeStatements_kind]
    refine or_congr_right (and_congr_right fun _ => ?_)
    rw [completeStatements_eq]
    constructor
    · rintro ⟨child, hchild, hhas⟩
      rcases mem_append.mp hchild with hchild | hchild
      · obtain ⟨source, hsource, rfl⟩ := mem_map.mp hchild
        exact ⟨source, hsource, (ih source hsource).mp hhas⟩
      · rcases missingBlocks_eq tree.kind tree.span (tree.children.map completeStatements) with he | he <;>
          rw [he] at hchild
        · exact absurd hchild not_mem_nil
        · rw [mem_singleton.mp hchild] at hhas
          exact absurd hhas (kept.not_has_implicit _)
    · rintro ⟨child, hchild, hhas⟩
      exact ⟨completeStatements child, mem_append_left _ (mem_map_of_mem hchild), (ih child hchild).mpr hhas⟩

theorem Kept.has_accessorMethod (property : Tree) {accessor : Tree} (h : accessor.Well false)
    (hkind : accessor.kind.isAccessor = true) :
    (∃ method ∈ accessorMethod? property accessor, method.Has enters test) ↔ accessor.Has enters test := by
  have hstatement : accessor.kind.isStatement = false := by
    simp only [NodeKind.isAccessor, Bool.or_eq_true, beq_iff_eq] at hkind
    rcases hkind with hkind | hkind <;> rw [hkind] <;> rfl
  obtain ⟨body, he, -⟩ := accessor_children h hkind
  have hbody : (accessor.children.getLast?.getD (implicitBlock accessor.span)).Has enters test ↔
      accessor.Has enters test := by
    rw [kept.has_iff hstatement, he]
    cases body with
    | none => simpa using kept.not_has_implicit accessor.span
    | some block => simp
  obtain ⟨method, params, hmethod, hk, hchildren, hparams⟩ := accessorMethod?_eq property hkind
  simp only [hmethod, Option.mem_def, Option.some.injEq, exists_eq_left']
  rw [kept.has_method_iff hk hchildren hparams, kept.has_completeStatements, hbody]

theorem Kept.has_completeMember {child : Tree} (h : child.Well false)
    (hnested : child.kind.isTypeDeclaration = true → ((completeType child).Has enters test ↔ child.Has enters test))
    (ordinal : Nat) :
    (∃ member ∈ completeMember ordinal child, member.Has enters test) ↔ child.Has enters test := by
  rw [completeMember]
  split
  · rename_i hk
    simpa using kept.has_staticBlockMethod h hk ordinal
  · rename_i hk
    have hholds := h.formed.holds
    rw [hk] at hholds
    have hplain := kept.not_has_bareProperty hk
    have hiff := kept.has_iff (show child.kind.isStatement = false from hk ▸ rfl)
    rw [hiff]
    simp only [mem_cons, or_and_right, exists_or, exists_eq_left, hplain, false_or, mem_filterMap]
    constructor
    · rintro ⟨method, ⟨accessor, haccessor, hmethod⟩, hhas⟩
      exact ⟨accessor, haccessor, (kept.has_accessorMethod child (h.child haccessor) (hholds accessor haccessor).1).mp
        ⟨method, hmethod, hhas⟩⟩
    · rintro ⟨accessor, haccessor, hhas⟩
      obtain ⟨method, hmethod, hhas⟩ :=
        (kept.has_accessorMethod child (h.child haccessor) (hholds accessor haccessor).1).mpr hhas
      exact ⟨method, ⟨accessor, haccessor, hmethod⟩, hhas⟩
  · simp only [mem_singleton, exists_eq_left]
    split
    · exact hnested ‹_›
    · exact kept.has_completeStatements child

theorem Kept.has_completeType (h : tree.Well false) (hkind : tree.kind.isTypeDeclaration = true)
    (hne : tree.kind ≠ .userTrigger) : (completeType tree).Has enters test ↔ tree.Has enters test := by
  induction tree using induct with
  | step tree ih =>
    have hstatement := isStatement_eq_false (.inr hkind)
    have hiff := kept.has_iff hstatement
    have hmembers := members_of_read h hkind hne
    rw [hiff, kept.has_completeType_iff hkind]
    exact exists_mem_completeMembers (fun child hchild ordinal => kept.has_completeMember (h.child hchild)
      (fun hk => ih child hchild (h.child hchild) hk (hmembers child hchild).2) ordinal) 1

theorem Kept.has_completeTrigger (h : tree.Well false) (hkind : tree.kind = .userTrigger) :
    (completeTrigger tree).Has enters test ↔ tree.Has enters test := by
  have hholds := h.formed.holds
  rw [hkind] at hholds
  obtain ⟨body, he, -⟩ := hholds
  have hstatement : tree.kind.isStatement = false := hkind ▸ rfl
  have hiff := kept.has_iff hstatement
  rw [hiff, completeTrigger, he]
  refine (kept.has_iff (by exact hstatement)).trans ?_
  simp only [mem_singleton, exists_eq_left]
  rw [kept.has_iff rfl]
  simpa [syntheticMethod] using kept.has_completeStatements body

/-- Completion of an accepted source keeps dead code and stray jumps. -/
theorem Kept.has_complete {root : Tree} (h : root.Well false) (hkind : root.kind.isTypeDeclaration = true) :
    (complete root).Has enters test ↔ root.Has enters test := by
  rw [complete]
  by_cases htrigger : root.kind = .userTrigger
  · rw [if_pos (by simp [htrigger])]
    exact kept.has_completeTrigger h htrigger
  · rw [if_neg (by simpa using htrigger), if_pos hkind]
    exact kept.has_completeType h hkind htrigger

end

/-! ## Chains without a last block -/

/-- Completed statements miss no else. -/
theorem not_hasOpenIf_completeStatements (tree : Tree) : ¬(completeStatements tree).HasOpenIf := by
  induction tree using induct with
  | step tree ih =>
    have hopen : ¬(completeStatements tree).IsOpenIf := by
      rintro ⟨hkind, hlast⟩
      rw [completeStatements_kind] at hkind
      rw [completeStatements_eq, hkind, missingBlocks] at hlast
      cases hend : (tree.children.map completeStatements).getLast? with
      | none => simp [hend, implicitBlock] at hlast
      | some last =>
        by_cases hblock : last.kind = .blockStatement
        · exact hlast last (by simp [hend, hblock]) hblock
        · simp [hend, hblock, implicitBlock] at hlast
    intro hhas
    rcases has_iff.mp hhas with htest | ⟨-, child, hchild, hhas⟩
    · exact hopen htest
    rw [completeStatements_eq] at hchild
    rcases mem_append.mp hchild with hchild | hchild
    · obtain ⟨source, hsource, rfl⟩ := mem_map.mp hchild
      exact ih source hsource hhas
    · rcases missingBlocks_eq tree.kind tree.span (tree.children.map completeStatements) with he | he <;>
        rw [he] at hchild
      · exact absurd hchild not_mem_nil
      · rw [mem_singleton.mp hchild] at hhas
        rcases has_iff.mp hhas with htest | ⟨-, child, hchild, -⟩
        · exact absurd htest.1 (by simp [implicitBlock])
        · simp [implicitBlock] at hchild

theorem hasOpenStaticIf_iff (hkind : tree.kind ≠ .staticBlock) :
    tree.HasOpenStaticIf ↔ ∃ child ∈ tree.children, child.HasOpenStaticIf := by
  constructor
  · rintro ⟨node, hnode, hstatic, hopen⟩
    rcases mem_nodes.mp hnode with rfl | ⟨child, hchild, hnode⟩
    · exact absurd hstatic hkind
    · exact ⟨child, hchild, node, hnode, hstatic, hopen⟩
  · rintro ⟨child, hchild, node, hnode, hstatic, hopen⟩
    exact ⟨node, mem_nodes.mpr (.inr ⟨child, hchild, hnode⟩), hstatic, hopen⟩

theorem not_hasOpenStaticIf_of_isInner (h : tree.Well false) (hkind : tree.kind.isInner = true) :
    ¬tree.HasOpenStaticIf := by
  rintro ⟨node, hnode, hstatic, -⟩
  have hinner := h.isInner hkind node hnode
  rw [hstatic] at hinner
  exact absurd hinner (by decide)

/-- Only a static block keeps an if without an else. -/
theorem hasOpenIf_completeMember {child : Tree} (hkind : child.kind.isMember = true) (h : child.Well false)
    (hnested : child.kind.isTypeDeclaration = true → ((completeType child).HasOpenIf ↔ child.HasOpenStaticIf))
    (ordinal : Nat) :
    (∃ member ∈ completeMember ordinal child, member.HasOpenIf) ↔ child.HasOpenStaticIf := by
  have hholds := h.formed.holds
  rw [completeMember]
  split
  · rename_i hk
    simp only [mem_singleton, exists_eq_left]
    refine (quiet_openIf.has_staticBlockMethod h hk ordinal).trans
      ⟨fun hopen => ⟨child, child.self_mem_nodes, hk, hopen⟩, ?_⟩
    rintro ⟨node, hnode, hstatic, hopen⟩
    rcases mem_nodes.mp hnode with rfl | ⟨body, hbody, hnode⟩
    · exact hopen
    · obtain ⟨block, he, hblock, hwell⟩ := staticBlock_children h hk
      rw [he, mem_singleton] at hbody
      subst hbody
      exact absurd ⟨node, hnode, hstatic, hopen⟩ (not_hasOpenStaticIf_of_isInner hwell (hblock ▸ rfl))
  · rename_i hk
    rw [hk] at hholds
    rw [hasOpenStaticIf_iff (by simp [hk])]
    refine iff_of_false ?_ ?_
    · rintro ⟨member, hmember, hopen⟩
      rcases mem_cons.mp hmember with rfl | hmember
      · exact quiet_openIf.not_has_bareProperty hk hopen
      · obtain ⟨accessor, haccessor, hmember⟩ := mem_filterMap.mp hmember
        obtain ⟨method, params, hmethod, hkind, hchildren, hparams⟩ :=
          accessorMethod?_eq child (hholds accessor haccessor).1
        cases hmethod.symm.trans hmember
        exact not_hasOpenIf_completeStatements _ ((quiet_openIf.has_method_iff hkind hchildren hparams).mp hopen)
    · rintro ⟨accessor, haccessor, node, hnode, hstatic, hopen⟩
      have hwell := h.child haccessor
      have haccess := (hholds accessor haccessor).1
      obtain ⟨body, he, hblock⟩ := accessor_children hwell haccess
      rcases mem_nodes.mp hnode with rfl | ⟨block, hb, hnode⟩
      · rw [hstatic] at haccess
        exact absurd haccess (by decide)
      · have hinner : block.kind.isInner = true := hblock block (by simpa [he] using hb) ▸ rfl
        exact not_hasOpenStaticIf_of_isInner (hwell.child hb) hinner ⟨node, hnode, hstatic, hopen⟩
  · rename_i hstatic hproperty
    simp only [mem_singleton, exists_eq_left]
    split
    · exact hnested ‹_›
    · rename_i htype
      refine iff_of_false (not_hasOpenIf_completeStatements child) ?_
      rw [hasOpenStaticIf_iff hstatic]
      rintro ⟨part, hpart, hopen⟩
      refine not_hasOpenStaticIf_of_isInner (h.child hpart) ?_ hopen
      cases hk : child.kind <;> rw [hk] at hholds hkind htype hstatic hproperty
      case method =>
        obtain ⟨params, body, he, hparams, hbody⟩ := hholds
        rw [he, mem_append, Option.mem_toList] at hpart
        rcases hpart with hpart | hpart
        · exact hparams part hpart ▸ rfl
        · exact hbody part hpart ▸ rfl
      case fieldDeclarationStatements => exact NodeKind.isInner_of_isOperand (hholds part hpart)
      all_goals first | exact absurd rfl htype | exact absurd rfl hstatic | exact absurd rfl hproperty
                      | exact absurd hkind (by decide)

theorem hasOpenIf_completeType (h : tree.Well false) (hkind : tree.kind.isTypeDeclaration = true)
    (hne : tree.kind ≠ .userTrigger) : (completeType tree).HasOpenIf ↔ tree.HasOpenStaticIf := by
  induction tree using induct with
  | step tree ih =>
    have hstatic : tree.kind ≠ .staticBlock := fun e => by
      rw [e] at hkind
      exact absurd hkind (by decide)
    have hmembers := members_of_read h hkind hne
    refine (quiet_openIf.has_completeType_iff hkind).trans ?_
    rw [hasOpenStaticIf_iff hstatic]
    exact exists_mem_completeMembers (fun child hchild ordinal =>
      hasOpenIf_completeMember (hmembers child hchild).1 (h.child hchild)
      (fun hk => ih child hchild (h.child hchild) hk (hmembers child hchild).2) ordinal) 1

/-- After completion an `if` chain lacks its last block only where it stands in a static block. -/
theorem hasOpenIf_complete {root : Tree} (h : root.Well false) (hkind : root.kind.isTypeDeclaration = true) :
    (complete root).HasOpenIf ↔ root.HasOpenStaticIf := by
  rw [complete]
  by_cases htrigger : root.kind = .userTrigger
  · rw [if_pos (by simp [htrigger])]
    have hholds := h.formed.holds
    rw [htrigger] at hholds
    obtain ⟨body, he, hb⟩ := hholds
    have hbody : body.kind.isInner = true := (show body.kind = .blockStatement from hb) ▸ rfl
    have hwell : body.Well false := h.child (by simp [he])
    rw [hasOpenStaticIf_iff (by simp [htrigger])]
    refine iff_of_false (fun hopen => ?_) ?_
    · obtain ⟨method, hmethod, hopen⟩ :=
        (quiet_openIf.has_iff (by rw [completeTrigger]; simp [put, htrigger]; rfl)).mp hopen
      rw [completeTrigger] at hmethod
      obtain rfl := mem_singleton.mp hmethod
      exact not_hasOpenIf_completeStatements _
        ((quiet_openIf.has_method_iff rfl (nil_append _).symm (by simp)).mp hopen)
    · rintro ⟨child, hchild, hopen⟩
      rw [he, mem_singleton] at hchild
      subst hchild
      exact not_hasOpenStaticIf_of_isInner hwell hbody hopen
  · rw [if_neg (by simpa using htrigger), if_pos hkind]
    exact hasOpenIf_completeType h hkind htrigger

end ApexPaths.Build
