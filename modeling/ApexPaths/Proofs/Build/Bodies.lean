import ApexPaths.Proofs.Build.Carrying
import ApexPaths.Proofs.Build.Misuse
import ApexPaths.Proofs.Flow.Laying

/-!
The bodies that a graph carries, as statements of control flow. Every well-shaped completed body has
such a statement, and the first fault of the statement tells the misuse in the tree: a stray jump where
the tree has one outside of loops, a missing block where some `if` chain is open.
-/

namespace ApexPaths.Build
set_option autoImplicit false

open Source CodeGraph ApexPaths.Flow List

variable {stray stray' openIf openIf' : Prop} {fault? : Bool → Option Flow.Fault} {ids : List VertexId}
variable {kinds : NodeKind → Bool}

/-! ## What faults tell -/

/-- A fault names a misuse that is there, and without a fault there is none. -/
def Tells (fault : Option Flow.Fault) (stray openIf : Prop) : Prop :=
  match fault with
  | none => ¬stray ∧ ¬openIf
  | some (.strayJump _) => stray
  | some (.missingElse _) => openIf

/-- Faults in order tell of misuse in either part. -/
theorem Tells.or {first second : Option Flow.Fault} (h : Tells first stray openIf)
    (h' : Tells second stray' openIf') : Tells (first.or second) (stray ∨ stray') (openIf ∨ openIf') := by
  cases first with
  | some fault =>
    cases fault with
    | strayJump id => exact .inl h
    | missingElse id => exact .inl h
  | none =>
    cases second with
    | none => exact ⟨not_or.mpr ⟨h.1, h'.1⟩, not_or.mpr ⟨h.2, h'.2⟩⟩
    | some fault =>
      cases fault with
      | strayJump id => exact .inr h'
      | missingElse id => exact .inr h'

/-- Faults of a part of a body, in a loop or not, against the misuse in it. -/
def Reports (fault? : Bool → Option Flow.Fault) (stray openIf : Prop) : Prop :=
  ∀ inLoop, Tells (fault? inLoop) (inLoop = false ∧ stray) openIf

theorem Reports.none (hstray : ¬stray) (hopen : ¬openIf) : Reports (fun _ => .none) stray openIf :=
  fun _ => ⟨fun h => hstray h.2, hopen⟩

theorem Reports.or {first second : Bool → Option Flow.Fault}
    (h : Reports first stray openIf) (h' : Reports second stray' openIf') :
    Reports (fun inLoop => (first inLoop).or (second inLoop)) (stray ∨ stray') (openIf ∨ openIf') := by
  intro inLoop
  have hor := (h inLoop).or (h' inLoop)
  rwa [← and_or_left] at hor

theorem Reports.congr (h : Reports fault? stray openIf)
    (hstray : stray ↔ stray') (hopen : openIf ↔ openIf') : Reports fault? stray' openIf' := by
  rwa [← hstray, ← hopen]

theorem Reports.inLoop {fault? : Bool → Option Flow.Fault} {stray openIf : Prop} (h : Reports fault? stray openIf) :
    Reports (fun _ => fault? true) False openIf := by
  intro inLoop
  have hloop := h true
  simp only [Bool.true_eq_false, false_and] at hloop
  simpa using hloop

/-! ## Parts that are carried -/

section
variable {graph : CodeGraph}

theorem Carries.label {tree : Tree} {id : VertexId} (h : Carries graph tree id) : graph.label? id = some tree.kind :=
  (carries_iff.mp h).1

theorem Carries.children {tree : Tree} {id : VertexId} (h : Carries graph tree id) :
    CarriesAll graph tree.children (graph.children id) := (carries_iff.mp h).2.2

theorem Carries.flag {tree : Tree} {id : VertexId} (h : Carries graph tree id) {k : FactKey}
    (hk : isSourceKey (.fact k) = true) : graph.flag id (.fact k) =
    ((tree.props.written (.fact k)).bind PropertyValue.flag?).getD false := by
  rw [graph.flag_eq, (carries_iff.mp h).2.1 _ hk]

theorem carriesAll_toList {tree : Option Tree} (h : CarriesAll graph tree.toList ids) :
    ∃ id : Option VertexId, ids = id.toList ∧ id.isSome = tree.isSome ∧ ∀ t ∈ tree, ∀ i ∈ id, Carries graph t i := by
  cases tree with
  | none => exact ⟨.none, h, rfl, by simp⟩
  | some t =>
    obtain ⟨id, more, rfl, hcarries, hmore⟩ := h
    obtain rfl : more = [] := hmore
    exact ⟨some id, rfl, rfl, by simpa using hcarries⟩

theorem CarriesAll.length_eq {trees : List Tree} (h : CarriesAll graph trees ids) :
    ids.length = trees.length := by
  induction trees generalizing ids with
  | nil =>
    rw [show ids = [] from h]
    rfl
  | cons tree rest ih =>
    obtain ⟨id, more, rfl, -, hrest⟩ := h
    simp [ih hrest]

/-- The first fault among parts in their order. -/
def firstFault? {α : Type} (fault? : α → Bool → Option Flow.Fault) (parts : List α) (inLoop : Bool) :
    Option Flow.Fault :=
  parts.foldr (fun part rest => (fault? part inLoop).or rest) none

theorem exists_parts {α : Type} {idOf : α → VertexId} {holds : α → Prop} {fault? : α → Bool → Option Flow.Fault}
    {trees : List Tree} (h : CarriesAll graph trees ids)
    (hpart : ∀ tree ∈ trees, ∀ id, Carries graph tree id →
      ∃ part, idOf part = id ∧ holds part ∧ Reports (fault? part) tree.HasStrayJump tree.HasOpenIf) :
    ∃ parts : List α, parts.map idOf = ids ∧ (∀ part ∈ parts, holds part) ∧
      Reports (firstFault? fault? parts) (∃ tree ∈ trees, tree.HasStrayJump) (∃ tree ∈ trees, tree.HasOpenIf) := by
  induction trees generalizing ids with
  | nil =>
    obtain rfl : ids = [] := h
    exact ⟨[], rfl, by simp, .none (by simp) (by simp)⟩
  | cons tree rest ih =>
    obtain ⟨id, more, rfl, htree, hrest⟩ := h
    obtain ⟨hfirst, hothers⟩ := forall_mem_cons.mp hpart
    obtain ⟨part, hid, hholds, hreports⟩ := hfirst id htree
    obtain ⟨parts, hids, hallhold, hallreport⟩ := ih hrest hothers
    refine ⟨part :: parts, by simp [hid, hids], forall_mem_cons.mpr ⟨hholds, hallhold⟩, ?_⟩
    exact (hreports.or hallreport).congr (by simp) (by simp)

theorem statementsHold_iff {body : List Statement} : statementsHold graph body ↔ ∀ s ∈ body, s.Holds graph := by
  induction body with
  | nil => simp [statementsHold]
  | cons s rest ih => simp [statementsHold, ih]

theorem sequenceFault?_eq (inLoop : Bool) (body : List Statement) :
    sequenceFault? inLoop body = firstFault? (fun s inLoop => s.fault? inLoop) body inLoop := by
  induction body with
  | nil => rfl
  | cons s rest ih => exact congrArg _ ih

theorem branchesHold_iff {branches : List Branch} :
    branchesHold graph branches ↔ ∀ b ∈ branches, branchesHold graph [b] := by
  induction branches with
  | nil => simp [branchesHold]
  | cons b rest ih =>
    obtain ⟨id, condition, body⟩ := b
    rw [forall_mem_cons, ← ih]
    simp only [branchesHold, and_true, and_assoc]

theorem branchesFault?_eq (inLoop : Bool) (branches : List Branch) :
    branchesFault? inLoop branches = firstFault? (fun b inLoop => branchesFault? inLoop [b]) branches inLoop := by
  induction branches with
  | nil => rfl
  | cons b rest ih =>
    obtain ⟨id, condition, body⟩ := b
    rw [branchesFault?, ih, firstFault?, firstFault?, foldr_cons]
    simp [branchesFault?]

theorem clausesHold_iff {clauses : List Clause} :
    clausesHold graph kinds clauses ↔ ∀ c ∈ clauses, clausesHold graph kinds [c] := by
  induction clauses with
  | nil => simp [clausesHold]
  | cons c rest ih =>
    obtain ⟨id, kind, cases, body⟩ := c
    rw [forall_mem_cons, ← ih]
    simp only [clausesHold, and_true, and_assoc]

theorem clausesFault?_eq (inLoop : Bool) (clauses : List Clause) :
    clausesFault? inLoop clauses = firstFault? (fun c inLoop => clausesFault? inLoop [c]) clauses inLoop := by
  induction clauses with
  | nil => rfl
  | cons c rest ih =>
    obtain ⟨id, kind, cases, body⟩ := c
    rw [clausesFault?, ih, firstFault?, firstFault?, foldr_cons]
    simp [clausesFault?]

end

/-! ## Models of trees -/

/-- A statement of the graph stands for a tree at a vertex, and its faults tell of the misuse in the tree. -/
abbrev IsModelled (graph : CodeGraph) (tree : Tree) (id : VertexId) : Prop :=
  ∃ s : Statement, s.id = id ∧ s.Holds graph ∧ Reports (fun inLoop => s.fault? inLoop) tree.HasStrayJump tree.HasOpenIf

/-- The statement, block, branch or clause of a tree at a vertex. -/
structure Modelled (graph : CodeGraph) (tree : Tree) (id : VertexId) : Prop where
  statement : tree.kind.isStatement = true → IsModelled graph tree id
  block : tree.kind = .blockStatement → ∃ b : Block, b.id = id ∧ b.Holds graph ∧
    Reports (fun inLoop => b.fault? inLoop) tree.HasStrayJump tree.HasOpenIf
  branch : tree.kind = .ifBlockStatement → ∃ b : Branch, b.id = id ∧ branchesHold graph [b] ∧
    Reports (fun inLoop => branchesFault? inLoop [b]) tree.HasStrayJump tree.HasOpenIf
  clause : ∀ kinds : NodeKind → Bool, kinds tree.kind = true →
    (tree.kind.isWhenBlock = true ∨ tree.kind = .catchBlockStatement) →
    ∃ c : Clause, c.id = id ∧ clausesHold graph kinds [c] ∧ (tree.kind = .catchBlockStatement → c.cases = []) ∧
      Reports (fun inLoop => clausesFault? inLoop [c]) tree.HasStrayJump tree.HasOpenIf

section
variable {graph : CodeGraph}

theorem hasStrayJump_iff {tree : Tree} (hloop : tree.kind.isLoop = false) (hjump : ¬tree.IsJump) :
    tree.HasStrayJump ↔ ∃ child ∈ tree.children, child.HasStrayJump := by
  rw [Tree.HasStrayJump, Tree.has_iff]
  simp [hloop, hjump, Tree.HasStrayJump]

theorem not_hasStrayJump_of_isLoop {tree : Tree} (hloop : tree.kind.isLoop = true) : ¬tree.HasStrayJump := by
  rw [Tree.HasStrayJump, Tree.has_iff]
  simp only [hloop, Bool.not_true, Bool.false_eq_true, false_and, or_false]
  rintro (e | e) <;> rw [e] at hloop <;> exact absurd hloop (by decide)

theorem hasOpenIf_iff {tree : Tree} (hkind : tree.kind ≠ .ifElseBlockStatement) :
    tree.HasOpenIf ↔ ∃ child ∈ tree.children, child.HasOpenIf := by
  rw [Tree.HasOpenIf, Tree.has_iff]
  simp [Tree.IsOpenIf, hkind, Tree.HasOpenIf]

theorem exists_optionBlock {tree : Option Tree} (h : CarriesAll graph tree.toList ids)
    (hkind : ∀ t ∈ tree, t.kind = .blockStatement) (hmodel : ∀ t ∈ tree, ∀ v, Carries graph t v → Modelled graph t v) :
    ∃ b : Option Block, b.toList.map Block.id = ids ∧ b.isSome = tree.isSome ∧ optionHolds graph b ∧
      Reports (fun inLoop => optionFault? inLoop b) (∃ t ∈ tree, t.HasStrayJump) (∃ t ∈ tree, t.HasOpenIf) := by
  cases tree with
  | none =>
    obtain rfl : ids = [] := h
    exact ⟨.none, rfl, rfl, trivial, .none (by simp) (by simp)⟩
  | some t =>
    obtain ⟨id, more, rfl, hcarries, hmore⟩ := h
    obtain rfl : more = [] := hmore
    obtain ⟨b, rfl, hholds, hreports⟩ := (hmodel t rfl id hcarries).block (hkind t rfl)
    exact ⟨some b, rfl, rfl, hholds, hreports.congr (by simp) (by simp)⟩

theorem exists_loopBlocks {blocks : List Tree} (h : CarriesAll graph blocks ids)
    (hblocks : Tree.LoopBlocks true blocks) (hmodel : ∀ t ∈ blocks, ∀ v, Carries graph t v → Modelled graph t v) :
    ∃ (body : Block) (skip : Option Block), ids = body.id :: skip.toList.map Block.id ∧ body.Holds graph ∧
      optionHolds graph skip ∧ LoopFlags graph body skip ∧
      Reports (fun _ => (body.fault? true).or (optionFault? true skip)) False (∃ t ∈ blocks, t.HasOpenIf) := by
  obtain ⟨tree, skipTree, rfl, hkind, hprops, hskip, -⟩ := hblocks
  obtain ⟨id, more, rfl, hbody, hmore⟩ := h
  obtain ⟨hfirst, hrest⟩ := forall_mem_cons.mp hmodel
  obtain ⟨body, rfl, hholds, hreports⟩ := (hfirst id hbody).block hkind
  obtain ⟨skip, hids, hsome, hskipholds, hskipreports⟩ := exists_optionBlock hmore (fun t ht => (hskip t ht).1)
    fun t ht => hrest t (Option.mem_toList.mpr ht)
  refine ⟨body, skip, by rw [hids], hholds, hskipholds, ⟨?_, ?_⟩, ?_⟩
  · rw [hbody.flag rfl, hprops]
    rfl
  · intro b hb
    obtain rfl : skip = some b := hb
    obtain ⟨t, rfl⟩ := Option.isSome_iff_exists.mp hsome.symm
    obtain ⟨i, rest, he, hcarries, hrest⟩ := hmore
    obtain rfl : b.id = i := by
      rw [he] at hids
      exact (List.cons.inj hids).1
    rw [hcarries.flag rfl, (hskip t rfl).2]
    rfl
  · exact (hreports.or hskipreports).inLoop.congr Iff.rfl (by simp)

theorem not_misuse_of_isPart {tree child : Tree} (hwell : tree.Well true) (hchild : child ∈ tree.children)
    (hpart : child.kind.isPart = true) : ¬child.HasStrayJump ∧ ¬child.HasOpenIf :=
  ⟨Tree.testsStatements_jump.not_has_of_isPart (hwell.child hchild) hpart,
    Tree.testsStatements_openIf.not_has_of_isPart (hwell.child hchild) hpart⟩

theorem isLoop_eq_false_of_isSimple {kind : NodeKind} (hkind : kind.isSimple = true) : kind.isLoop = false := by
  cases kind <;> first | rfl | exact absurd hkind (by decide)

theorem eq_of_isWhenBlock {kind : NodeKind} (hkind : kind.isWhenBlock = true) :
    kind = .valueWhenBlock ∨ kind = .typeWhenBlock ∨ kind = .elseWhenBlock := by
  cases kind <;> first | exact Bool.noConfusion hkind | simp

theorem not_hasOpenIf_of_isSimple {tree : Tree} (hwell : tree.Well true) (hkind : tree.kind.isSimple = true) :
    ¬tree.HasOpenIf := by
  have hne : tree.kind ≠ .ifElseBlockStatement := by
    intro e
    rw [e] at hkind
    exact absurd hkind (by decide)
  rw [hasOpenIf_iff hne]
  rintro ⟨child, hchild, hhas⟩
  exact (not_misuse_of_isPart hwell hchild
    (NodeKind.isPart_of_mayHold (hwell.formed.holds.mayHold child hchild) (.inr hkind))).2 hhas

/-- A node that is no loop, jump or `if` reports what its children do. -/
theorem Reports.ofChildren {tree : Tree}
    (h : Reports fault? (∃ child ∈ tree.children, child.HasStrayJump) (∃ child ∈ tree.children, child.HasOpenIf))
    (hloop : tree.kind.isLoop = false) (hjump : ¬tree.IsJump) (hkind : tree.kind ≠ .ifElseBlockStatement) :
    Reports fault? tree.HasStrayJump tree.HasOpenIf :=
  h.congr (hasStrayJump_iff hloop hjump).symm (hasOpenIf_iff hkind).symm

theorem Reports.ofLoop {tree : Tree}
    (h : Reports fault? False (∃ child ∈ tree.children, child.HasOpenIf)) (hloop : tree.kind.isLoop = true) :
    Reports fault? tree.HasStrayJump tree.HasOpenIf := by
  have hkind : tree.kind ≠ .ifElseBlockStatement := by
    intro e
    rw [e] at hloop
    exact absurd hloop (by decide)
  exact h.congr (by simp [not_hasStrayJump_of_isLoop hloop]) (hasOpenIf_iff hkind).symm

section
variable {tree : Tree} {id : VertexId} (hwell : tree.Well true) (hcarries : Carries graph tree id)
  (ih : ∀ child ∈ tree.children, ∀ v, Carries graph child v → Modelled graph child v)
include hwell hcarries

include ih in
theorem model_block (hkind : tree.kind = .blockStatement) : ∃ b : Block, b.id = id ∧ b.Holds graph ∧
    Reports (fun inLoop => b.fault? inLoop) tree.HasStrayJump tree.HasOpenIf := by
  have hholds := hwell.formed.holds
  rw [hkind] at hholds
  obtain ⟨body, hids, hbody, hreports⟩ := exists_parts hcarries.children
    fun child hchild v hv => (ih child hchild v hv).statement (hholds child hchild)
  refine ⟨.mk id body, rfl, ⟨by rw [hcarries.label, hkind], hids.symm, statementsHold_iff.mpr hbody⟩, ?_⟩
  simp only [Block.fault?, sequenceFault?_eq]
  exact hreports.ofChildren (by rw [hkind]; rfl) (by simp [Tree.IsJump, hkind]) (by simp [hkind])

/-- A statement without parts is modelled by itself. -/
theorem model_leaf (hkind : tree.kind.isSimple = true) : IsModelled graph tree id := by
  have hlabel := hcarries.label
  have hopen := not_hasOpenIf_of_isSimple hwell hkind
  by_cases hjump : tree.IsJump
  · have hstray : tree.HasStrayJump := Tree.has_iff.mpr (.inl hjump)
    have hreports : Reports (fun inLoop => if inLoop then Option.none else some (.strayJump id)) tree.HasStrayJump
        tree.HasOpenIf := by
      intro inLoop
      cases inLoop with
      | true => exact ⟨by simp, hopen⟩
      | false => exact ⟨rfl, hstray⟩
    rcases hjump with e | e <;> rw [e] at hlabel
    · exact ⟨.breaks id, rfl, hlabel, hreports⟩
    · exact ⟨.continues id, rfl, hlabel, hreports⟩
  · have hstray : ¬tree.HasStrayJump := by
      rw [hasStrayJump_iff (isLoop_eq_false_of_isSimple hkind) hjump]
      rintro ⟨child, hchild, hhas⟩
      exact (not_misuse_of_isPart hwell hchild
        (NodeKind.isPart_of_mayHold (hwell.formed.holds.mayHold child hchild) (.inr hkind))).1 hhas
    by_cases hexit : tree.kind = .returnStatement ∨ tree.kind = .throwStatement
    · refine ⟨.exit id, rfl, ?_, .none hstray hopen⟩
      rcases hexit with e | e <;> rw [e] at hlabel
      · exact .inl hlabel
      · exact .inr hlabel
    · refine ⟨.simple id, rfl, ⟨tree.kind, hlabel, hkind, ?_⟩, .none hstray hopen⟩
      rw [Tree.IsJump] at hjump
      cases hk : tree.kind <;> rw [hk] at hkind hexit hjump <;>
        first | rfl | exact absurd (.inl rfl) hexit | exact absurd (.inr rfl) hexit | exact absurd (.inl rfl) hjump
              | exact absurd (.inr rfl) hjump

section
include ih

theorem model_branch (hkind : tree.kind = .ifBlockStatement) : ∃ b : Branch, b.id = id ∧ branchesHold graph [b] ∧
    Reports (fun inLoop => branchesFault? inLoop [b]) tree.HasStrayJump tree.HasOpenIf := by
  have hholds := hwell.formed.holds
  rw [hkind] at hholds
  obtain ⟨test, body, he, htest, hbody⟩ := hholds
  obtain ⟨condition, more, hids, hcondition, blockId, rest, rfl, hblock, hrest⟩ := he ▸ hcarries.children
  obtain rfl : rest = [] := hrest
  obtain ⟨b, rfl, hb, hreports⟩ := (ih body (by simp [he]) blockId hblock).block hbody
  have hno : ¬test.HasStrayJump ∧ ¬test.HasOpenIf := not_misuse_of_isPart hwell (by simp [he]) (htest ▸ rfl)
  refine ⟨.mk id condition b, rfl,
    ⟨by rw [hcarries.label, hkind], hids, by rw [hcondition.label, htest], hb, trivial⟩, ?_⟩
  simp only [branchesFault?, Option.or_none]
  refine Reports.ofChildren ?_ (by rw [hkind]; rfl) (by simp [Tree.IsJump, hkind]) (by simp [hkind])
  exact hreports.congr (by simp [he, hno.1]) (by simp [he, hno.2])

/-- A clause is modelled by its cases and its body. -/
theorem exists_clause {cases : List Tree} {body : Tree} (he : tree.children = cases ++ [body])
    (hcases : ∀ case ∈ cases, case.kind.isOperand = true) (hbody : body.kind = .blockStatement)
    (hkind : tree.kind.isWhenBlock = true ∨ tree.kind = .catchBlockStatement)
    (hkinds : kinds tree.kind = true) : ∃ c : Clause, c.id = id ∧ clausesHold graph kinds [c] ∧
    c.cases.length = cases.length ∧
    Reports (fun inLoop => clausesFault? inLoop [c]) tree.HasStrayJump tree.HasOpenIf := by
  obtain ⟨before, after, hids, hbefore, blockId, rest, rfl, hblock, hrest⟩ :=
    carriesAll_append.mp (he ▸ hcarries.children)
  obtain rfl : rest = [] := hrest
  obtain ⟨b, rfl, hb, hreports⟩ := (ih body (by simp [he]) blockId hblock).block hbody
  have hno : ∀ case ∈ cases, ¬case.HasStrayJump ∧ ¬case.HasOpenIf := fun case hcase =>
    not_misuse_of_isPart hwell (by simp [he, hcase]) (NodeKind.isPart_of_isOperand (hcases case hcase))
  refine ⟨.mk id tree.kind before b, rfl, ⟨hcarries.label, hkinds, hids, hb, trivial⟩, hbefore.length_eq, ?_⟩
  simp only [clausesFault?, Option.or_none]
  obtain ⟨hloop, hjump, hif⟩ : tree.kind.isLoop = false ∧ ¬tree.IsJump ∧ tree.kind ≠ .ifElseBlockStatement := by
    rw [Tree.IsJump]
    rcases hkind with hwhen | hcatch
    · rcases eq_of_isWhenBlock hwhen with e | e | e <;> rw [e] <;> decide
    · rw [hcatch]
      decide
  refine Reports.ofChildren (hreports.congr ?_ ?_) hloop hjump hif
  all_goals
    rw [he]
    constructor
    · exact fun h => ⟨body, by simp, h⟩
    · rintro ⟨child, hchild, h⟩
      rcases mem_append.mp hchild with hcase | hlast
      · first | exact absurd h (hno child hcase).1 | exact absurd h (hno child hcase).2
      · rwa [mem_singleton.mp hlast] at h

/-- An `if` chain; its `else` block may have been completed. -/
theorem model_ifElse (hkind : tree.kind = .ifElseBlockStatement) : IsModelled graph tree id := by
  have hholds := hwell.formed.holds
  rw [hkind] at hholds
  obtain ⟨branches, otherwise, he, hne, hbranches, hotherwise⟩ := hholds
  obtain ⟨before, after, hids, hbefore, hafter⟩ := carriesAll_append.mp (he ▸ hcarries.children)
  obtain ⟨parts, rfl, hparts, hpartReports⟩ := exists_parts hbefore fun branch hbranch v hv =>
    (ih branch (by simp [he, hbranch]) v hv).branch (hbranches branch hbranch)
  obtain ⟨block, rfl, hsome, hblock, hblockReports⟩ := exists_optionBlock hafter hotherwise
    fun t ht => ih t (by simp [he, Option.mem_def.mp ht])
  have hnonempty : parts ≠ [] := by
    rintro rfl
    exact hne (length_eq_zero_iff.mp hbefore.length_eq.symm)
  refine ⟨.ifElse id parts block, rfl,
    ⟨by rw [hcarries.label, hkind], hnonempty, hids, branchesHold_iff.mpr hparts, hblock⟩, ?_⟩
  cases otherwise with
  | none =>
    obtain rfl : block = .none := by simpa using hsome
    have hopen : tree.HasOpenIf := by
      refine Tree.has_iff.mpr (.inl ⟨hkind, fun last hlast => ?_⟩)
      have hmem : last ∈ branches := by simpa [he] using mem_of_getLast? hlast
      simp [hbranches last hmem]
    exact fun inLoop => hopen
  | some t =>
    obtain ⟨b, rfl⟩ := Option.isSome_iff_exists.mp hsome
    have hclosed : ¬tree.IsOpenIf := fun h => h.2 t (by simp [he]) (hotherwise t rfl)
    have hjump : ¬tree.IsJump := by simp [Tree.IsJump, hkind]
    have hfault : ∀ inLoop, (Statement.ifElse id parts (some b)).fault? inLoop =
        (firstFault? (fun b inLoop => branchesFault? inLoop [b]) parts inLoop).or (optionFault? inLoop (some b)) := by
      intro inLoop
      rw [Statement.fault?, branchesFault?_eq]
      rfl
    simp only [hfault]
    refine (hpartReports.or hblockReports).congr ?_ ?_
    · rw [hasStrayJump_iff (by rw [hkind]; rfl) hjump, he]
      simp [or_and_right, exists_or]
    · rw [Tree.HasOpenIf, Tree.has_iff, he]
      simp [hclosed, or_and_right, exists_or, Tree.HasOpenIf]

theorem model_whileLoop (hkind : tree.kind = .whileLoopStatement) : IsModelled graph tree id := by
  have hholds := hwell.formed.holds
  rw [hkind] at hholds
  obtain ⟨test, blocks, he, htest, hblocks⟩ := hholds
  obtain ⟨condition, more, hids, hcondition, hmore⟩ := he ▸ hcarries.children
  obtain ⟨body, skip, rfl, hbody, hskip, hflags, hreports⟩ := exists_loopBlocks hmore hblocks
    fun t ht => ih t (by simp [he, ht])
  have hno : ¬test.HasStrayJump ∧ ¬test.HasOpenIf := not_misuse_of_isPart hwell (by simp [he]) (htest ▸ rfl)
  refine ⟨.whileLoop id condition body skip, rfl,
    ⟨by rw [hcarries.label, hkind], hids, by rw [hcondition.label, htest], hbody, hskip, hflags⟩, ?_⟩
  exact Reports.ofLoop (hreports.congr Iff.rfl (by simp [he, hno.2])) (by rw [hkind]; rfl)

theorem model_forEach (hkind : tree.kind = .forEachStatement) : IsModelled graph tree id := by
  have hholds := hwell.formed.holds
  rw [hkind] at hholds
  obtain ⟨variable_, iterable, blocks, he, hvariable, hiterable, hblocks⟩ := hholds
  obtain ⟨v, -, hids, hv, i, more, rfl, hi, hmore⟩ := he ▸ hcarries.children
  obtain ⟨body, skip, rfl, hbody, hskip, hflags, hreports⟩ := exists_loopBlocks hmore hblocks
    fun t ht => ih t (by simp [he, ht])
  have hnoVariable : ¬variable_.HasOpenIf :=
    not_hasOpenIf_of_isSimple (hwell.child (by simp [he])) (hvariable.kind_eq ▸ rfl)
  have hnoIterable : ¬iterable.HasStrayJump ∧ ¬iterable.HasOpenIf :=
    not_misuse_of_isPart hwell (by simp [he]) (NodeKind.isPart_of_isExpression hiterable)
  have hblock : graph.is i .blockStatement = false := by
    rw [CodeGraph.is, hi.label]
    cases hk : iterable.kind <;> rw [hk] at hiterable <;> first | rfl | exact absurd hiterable (by decide)
  refine ⟨.forEach id v i body skip, rfl,
    ⟨by rw [hcarries.label, hkind], hids, by rw [hv.label, hvariable.kind_eq], hblock, hbody, hskip, hflags⟩, ?_⟩
  exact Reports.ofLoop (hreports.congr Iff.rfl (by simp [he, hnoVariable, hnoIterable.2])) (by rw [hkind]; rfl)

theorem model_doLoop (hkind : tree.kind = .doLoopStatement) : IsModelled graph tree id := by
  have hholds := hwell.formed.holds
  rw [hkind] at hholds
  obtain ⟨body, test, he, hbody, htest⟩ := hholds
  obtain ⟨blockId, -, hids, hblock, condition, rest, rfl, hcondition, hrest⟩ := he ▸ hcarries.children
  obtain rfl : rest = [] := hrest
  obtain ⟨b, rfl, hb, hreports⟩ := (ih body (by simp [he]) blockId hblock).block hbody
  have hno : ¬test.HasStrayJump ∧ ¬test.HasOpenIf := not_misuse_of_isPart hwell (by simp [he]) (htest ▸ rfl)
  refine ⟨.doLoop id b condition, rfl, ⟨by rw [hcarries.label, hkind], hids, by rw [hcondition.label, htest], hb⟩, ?_⟩
  exact Reports.ofLoop (hreports.inLoop.congr Iff.rfl (by simp [he, hno.2])) (by rw [hkind]; rfl)

/-- A `for` loop, whichever of its parts are written. -/
theorem model_forLoop (hkind : tree.kind = .forLoopStatement) : IsModelled graph tree id := by
  have hholds := hwell.formed.holds
  rw [hkind] at hholds
  obtain ⟨init, test, update, blocks, he, hprops, hinit, htest, hupdate, hblocks⟩ := hholds
  obtain ⟨before, more, hids, hbefore, hmore⟩ := carriesAll_append.mp (he ▸ hcarries.children)
  obtain ⟨before, updates, rfl, hbefore, hupdates⟩ := carriesAll_append.mp hbefore
  obtain ⟨inits, tests, rfl, hinits, htests⟩ := carriesAll_append.mp hbefore
  obtain ⟨initId, rfl, hinitSome, hinits⟩ := carriesAll_toList hinits
  obtain ⟨testId, rfl, htestSome, htests⟩ := carriesAll_toList htests
  obtain ⟨updateId, rfl, hupdateSome, hupdates⟩ := carriesAll_toList hupdates
  obtain ⟨body, skip, rfl, hbody, hskip, hflags, hreports⟩ := exists_loopBlocks hmore hblocks
    fun t ht => ih t (by simp [he, ht])
  have hplain : ∀ {t : Tree} {v : VertexId}, Carries graph t v →
      t.kind = .variableDeclarationStatements ∨ t.kind = .expressionStatement → IsPlain graph v := by
    rintro t v hv (e | e) <;> exact ⟨t.kind, hv.label, e ▸ rfl, e ▸ rfl⟩
  refine ⟨.forLoop id initId testId updateId body skip, rfl,
    ⟨by rw [hcarries.label, hkind], hids, ?_, ?_, ?_, ?_, ?_, ?_, hbody, hskip, hflags⟩, ?_⟩
  · rw [hcarries.flag rfl, hprops, hinitSome]
    rfl
  · rw [hcarries.flag rfl, hprops, htestSome]
    rfl
  · rw [hcarries.flag rfl, hprops, hupdateSome]
    rfl
  · intro v hv
    obtain ⟨t, ht⟩ := Option.isSome_iff_exists.mp (hinitSome ▸ Option.isSome_of_mem hv)
    exact hplain (hinits t ht v hv) (hinit t ht)
  · intro v hv
    obtain ⟨t, ht⟩ := Option.isSome_iff_exists.mp (htestSome ▸ Option.isSome_of_mem hv)
    rw [(htests t ht v hv).label, htest t ht]
  · intro v hv
    obtain ⟨t, ht⟩ := Option.isSome_iff_exists.mp (hupdateSome ▸ Option.isSome_of_mem hv)
    exact hplain (hupdates t ht v hv) (.inr (hupdate t ht))
  · have hnoInit : ∀ t ∈ init, ¬t.HasOpenIf := by
      intro t ht
      refine not_hasOpenIf_of_isSimple (hwell.child (by simp [he, Option.mem_def.mp ht])) ?_
      rcases hinit t ht with e | e <;> exact e ▸ rfl
    have hnoTest : ∀ t ∈ test, ¬t.HasOpenIf := fun t ht =>
      (not_misuse_of_isPart hwell (by simp [he, Option.mem_def.mp ht]) (htest t ht ▸ rfl)).2
    have hnoUpdate : ∀ t ∈ update, ¬t.HasOpenIf := fun t ht =>
      not_hasOpenIf_of_isSimple (hwell.child (by simp [he, Option.mem_def.mp ht])) (hupdate t ht ▸ rfl)
    refine Reports.ofLoop (hreports.congr Iff.rfl ?_) (by rw [hkind]; rfl)
    rw [he]
    constructor
    · rintro ⟨t, ht, hopen⟩
      exact ⟨t, by simp [ht], hopen⟩
    · rintro ⟨t, ht, hopen⟩
      simp only [mem_append, Option.mem_toList] at ht
      rcases ht with ((ht | ht) | ht) | ht
      · exact absurd hopen (hnoInit t ht)
      · exact absurd hopen (hnoTest t ht)
      · exact absurd hopen (hnoUpdate t ht)
      · exact ⟨t, ht, hopen⟩

theorem model_switch (hkind : tree.kind = .switchStatement) : IsModelled graph tree id := by
  have hholds := hwell.formed.holds
  rw [hkind] at hholds
  obtain ⟨subject, whens, he, hsubject, hwhens⟩ := hholds
  obtain ⟨v, more, hids, hv, hmore⟩ := he ▸ hcarries.children
  obtain ⟨clauses, rfl, hclauses, hreports⟩ := exists_parts hmore fun clause hclause w hw => by
    obtain ⟨c, hid, hholds, -, hreports⟩ := (ih clause (by simp [he, hclause]) w hw).clause NodeKind.isWhenBlock
      (hwhens clause hclause) (.inl (hwhens clause hclause))
    exact ⟨c, hid, hholds, hreports⟩
  have hno : ¬subject.HasStrayJump ∧ ¬subject.HasOpenIf :=
    not_misuse_of_isPart hwell (by simp [he]) (NodeKind.isPart_of_isExpression hsubject)
  refine ⟨.switch id v clauses, rfl, ⟨by rw [hcarries.label, hkind], hids, ⟨_, hv.label, hsubject⟩,
    clausesHold_iff.mpr hclauses⟩, ?_⟩
  have hfault : ∀ inLoop, (Statement.switch id v clauses).fault? inLoop =
      firstFault? (fun c inLoop => clausesFault? inLoop [c]) clauses inLoop := by
    intro inLoop
    rw [Statement.fault?, clausesFault?_eq]
  simp only [hfault]
  refine Reports.ofChildren ?_ (by rw [hkind]; rfl) (by simp [Tree.IsJump, hkind]) (by simp [hkind])
  exact hreports.congr (by simp [he, hno.1]) (by simp [he, hno.2])

theorem model_tryCatch (hkind : tree.kind = .tryCatchFinallyBlockStatement) : IsModelled graph tree id := by
  have hholds := hwell.formed.holds
  rw [hkind] at hholds
  obtain ⟨body, catches, final, he, hprops, hbody, hcatches, hfinal⟩ := hholds
  obtain ⟨blockId, more, hids, hblock, hmore⟩ := he ▸ hcarries.children
  obtain ⟨handlers, finals, rfl, hhandlers, hfinals⟩ := carriesAll_append.mp hmore
  obtain ⟨b, rfl, hb, hreports⟩ := (ih body (by simp [he]) blockId hblock).block hbody
  obtain ⟨clauses, rfl, hclauses, hclauseReports⟩ := exists_parts hhandlers fun clause hclause w hw => by
    obtain ⟨c, hid, hholds, hcases, hreports⟩ :=
      (ih clause (by simp [he, hclause]) w hw).clause (· == .catchBlockStatement) (by simp [hcatches clause hclause])
      (.inr (hcatches clause hclause))
    exact ⟨c, hid, And.intro hholds (hcases (hcatches clause hclause)), hreports⟩
  obtain ⟨last, rfl, hsome, hlast, hlastReports⟩ := exists_optionBlock hfinals hfinal
    fun t ht => ih t (by simp [he, Option.mem_def.mp ht])
  refine ⟨.tryCatch id b clauses last, rfl, ⟨by rw [hcarries.label, hkind], hids, ?_, hb,
    clausesHold_iff.mpr fun c hc => (hclauses c hc).1, fun c hc => (hclauses c hc).2, hlast⟩, ?_⟩
  · rw [hcarries.flag rfl, hprops, hsome]
    rfl
  · have hfault : ∀ inLoop, (Statement.tryCatch id b clauses last).fault? inLoop =
        ((b.fault? inLoop).or (firstFault? (fun c inLoop => clausesFault? inLoop [c]) clauses inLoop)).or
          (optionFault? inLoop last) := by
      intro inLoop
      rw [Statement.fault?, clausesFault?_eq]
    simp only [hfault]
    refine Reports.ofChildren ?_ (by rw [hkind]; rfl) (by simp [Tree.IsJump, hkind]) (by simp [hkind])
    refine ((hreports.or hclauseReports).or hlastReports).congr ?_ ?_
    all_goals simp [he, or_and_right, exists_or, or_assoc]

theorem model_clause (hkinds : kinds tree.kind = true)
    (hkind : tree.kind.isWhenBlock = true ∨ tree.kind = .catchBlockStatement) :
    ∃ c : Clause, c.id = id ∧ clausesHold graph kinds [c] ∧ (tree.kind = .catchBlockStatement → c.cases = []) ∧
      Reports (fun inLoop => clausesFault? inLoop [c]) tree.HasStrayJump tree.HasOpenIf := by
  have hholds := hwell.formed.holds
  rcases hkind with hwhen | hcatch
  · obtain ⟨cases, body, he, hcases, hbody⟩ : ∃ cases body, tree.children = cases ++ [body] ∧
        (∀ case ∈ cases, case.kind.isOperand = true) ∧ body.kind = .blockStatement := by
      rcases eq_of_isWhenBlock hwhen with hk | hk | hk <;> rw [hk] at hholds <;> exact hholds
    obtain ⟨c, hid, hc, -, hreports⟩ := exists_clause hwell hcarries ih he hcases hbody (.inl hwhen) hkinds
    refine ⟨c, hid, hc, fun e => ?_, hreports⟩
    rw [e] at hwhen
    exact absurd hwhen (by decide)
  · rw [hcatch] at hholds
    obtain ⟨body, he, hbody⟩ := hholds
    obtain ⟨c, hid, hc, hlength, hreports⟩ :=
      exists_clause hwell hcarries ih (show _ = [] ++ [body] from he) (by simp) hbody (.inr hcatch) hkinds
    exact ⟨c, hid, hc, fun _ => length_eq_zero_iff.mp hlength, hreports⟩

theorem model_statement (hkind : tree.kind.isStatement = true) : IsModelled graph tree id := by
  by_cases hsimple : tree.kind.isSimple = true
  · exact model_leaf hwell hcarries hsimple
  cases hk : tree.kind
  case blockStatement =>
    obtain ⟨b, hid, hb, hreports⟩ := model_block hwell hcarries ih hk
    exact ⟨.nested b, hid, hb, hreports⟩
  case ifElseBlockStatement => exact model_ifElse hwell hcarries ih hk
  case whileLoopStatement => exact model_whileLoop hwell hcarries ih hk
  case forEachStatement => exact model_forEach hwell hcarries ih hk
  case forLoopStatement => exact model_forLoop hwell hcarries ih hk
  case doLoopStatement => exact model_doLoop hwell hcarries ih hk
  case switchStatement => exact model_switch hwell hcarries ih hk
  case tryCatchFinallyBlockStatement => exact model_tryCatch hwell hcarries ih hk
  all_goals
    rw [hk] at hkind hsimple
    first | exact absurd hkind (by decide) | exact absurd rfl hsimple

end

end

/-- Every well-shaped completed tree is modelled where it is carried. -/
theorem modelled {tree : Tree} (hwell : tree.Well true) {id : VertexId} (hcarries : Carries graph tree id) :
    Modelled graph tree id := by
  induction tree using Tree.induct generalizing id with
  | step tree ih =>
    have hchildren : ∀ child ∈ tree.children, ∀ v, Carries graph child v → Modelled graph child v :=
      fun child hchild v hv => ih child hchild (hwell.child hchild) hv
    exact {
      statement := model_statement hwell hcarries hchildren
      block := model_block hwell hcarries hchildren
      branch := model_branch hwell hcarries hchildren
      clause := fun _ => model_clause hwell hcarries hchildren }

end

end ApexPaths.Build
