import ApexPaths.Build.Implicit
import ApexPaths.Proofs.Source.Shape

/-!
Completion of source trees. It turns a well-shaped tree as it is read into a well-shaped completed one:
statements keep their kinds and gain the blocks they lack, static blocks and accessors become methods.
-/

namespace ApexPaths.Build
set_option autoImplicit false

open Source List

variable {kind : NodeKind} {tree : Tree} {props : PropertyMap} {children : List Tree} {accessor : Tree}

/-! ## Statements -/

theorem completeAll_eq_map (trees : List Tree) : completeAll trees = trees.map completeStatements := by
  induction trees with
  | nil => rfl
  | cons tree rest ih => rw [completeAll, ih, map_cons]

theorem completeStatements_eq (tree : Tree) : completeStatements tree =
    ⟨tree.kind, tree.span, tree.props,
      tree.children.map completeStatements ++
      missingBlocks tree.kind tree.span (tree.children.map completeStatements)⟩ := by
  obtain ⟨kind, span, props, children⟩ := tree
  rw [completeStatements, completeAll_eq_map]

@[simp] theorem completeStatements_kind (tree : Tree) : (completeStatements tree).kind = tree.kind := by
  rw [completeStatements_eq]

@[simp] theorem completeStatements_props (tree : Tree) : (completeStatements tree).props = tree.props := by
  rw [completeStatements_eq]

theorem well_implicitBlock (completed : Bool) (span : Span) : (implicitBlock span).Well completed := by
  refine Tree.well_iff.mpr ⟨.of_plain (by simp [implicitBlock]) ?_ rfl, by simp [implicitBlock]⟩
  simp [implicitBlock, Tree.Holds]

theorem missingBlocks_eq (kind : NodeKind) (span : Span) (children : List Tree) :
    missingBlocks kind span children = [] ∨ missingBlocks kind span children = [implicitBlock span] := by
  unfold missingBlocks
  split
  · split <;> simp
  · split
    · split <;> simp
    · simp
  · split
    · split <;> simp
    · simp
  · simp
  · simp

theorem missingBlocks_skip (kind : NodeKind) (span : Span) (children : List Tree) :
    ∃ skip : Option Tree, missingBlocks kind span children = skip.toList ∧
      ∀ block ∈ skip, block.kind = .blockStatement ∧ block.props = [(.fact .isImplicit, .flag true)] := by
  rcases missingBlocks_eq kind span children with h | h
  · exact ⟨none, h, by simp⟩
  · exact ⟨some (implicitBlock span), h, by simp [implicitBlock]⟩

theorem missingBlocks_eq_nil (hif : kind ≠ .ifElseBlockStatement) (hloop : kind.isLoop = false) (span : Span)
    (children : List Tree) : missingBlocks kind span children = [] := by
  cases kind <;> first | rfl | exact absurd rfl hif | exact absurd hloop (by decide)

theorem loopBlocks_complete {blocks missing : List Tree} (h : Tree.LoopBlocks false blocks)
    (hmissing : ∃ skip : Option Tree, missing = skip.toList ∧
      ∀ block ∈ skip, block.kind = .blockStatement ∧ block.props = [(.fact .isImplicit, .flag true)]) :
    Tree.LoopBlocks true (blocks.map completeStatements ++ missing) := by
  obtain ⟨body, skip, rfl, hkind, hprops, -, hnone⟩ := h
  obtain ⟨found, rfl, hfound⟩ := hmissing
  obtain rfl := hnone rfl
  exact ⟨completeStatements body, found, rfl, by simpa using hkind, by simpa using hprops, hfound, by simp⟩

theorem declaresOnly_complete (h : Tree.DeclaresOnly tree) : Tree.DeclaresOnly (completeStatements tree) := by
  refine ⟨by rw [completeStatements_kind, h.kind_eq], ?_⟩
  rw [completeStatements_eq, missingBlocks_eq_nil (by simp [h.kind_eq]) (by rw [h.kind_eq]; rfl), append_nil]
  refine forall_mem_map.mpr fun declaration hdeclaration => ?_
  obtain ⟨hkind, hbare⟩ := h.bare declaration hdeclaration
  rw [completeStatements_eq, hbare, missingBlocks_eq_nil (by simp [hkind]) (by rw [hkind]; rfl)]
  exact ⟨hkind, rfl⟩

/-- A node has its completed shape after its children were completed and a missing else was added. -/
theorem holds_complete (h : Tree.Holds false kind props children)
    (hkind : kind.isInner = true ∨ kind = .method ∨ kind = .fieldDeclarationStatements) (span : Span) :
    Tree.Holds true kind props
      (children.map completeStatements ++ missingBlocks kind span (children.map completeStatements)) := by
  have hskip := missingBlocks_skip kind span (children.map completeStatements)
  have hkept : ∀ test : NodeKind → Prop, (∀ child ∈ children, test child.kind) →
      ∀ child ∈ children.map completeStatements ++ [], test child.kind := by simp
  cases kind
  case ifElseBlockStatement =>
    obtain ⟨branches, otherwise, rfl, hne, hbranches, hotherwise⟩ := h
    obtain ⟨missing, hmissing, hblock⟩ := hskip
    cases otherwise with
    | none =>
      refine ⟨branches.map completeStatements, missing, ?_, by simpa using hne, by simpa using hbranches,
        fun block hb => (hblock block hb).1⟩
      rw [← hmissing]
      simp
    | some block =>
      refine ⟨branches.map completeStatements, some (completeStatements block), ?_, by simpa using hne,
        by simpa using hbranches, by simpa using hotherwise⟩
      have hlast : block.kind = .blockStatement := hotherwise block rfl
      simp [missingBlocks, hlast]
  case ifBlockStatement =>
    obtain ⟨test, body, rfl, ht, hb⟩ := h
    exact ⟨completeStatements test, completeStatements body, rfl, by simpa using ht, by simpa using hb⟩
  case whileLoopStatement =>
    obtain ⟨test, blocks, rfl, ht, hblocks⟩ := h
    exact ⟨completeStatements test, _, rfl, by simpa using ht, loopBlocks_complete hblocks hskip⟩
  case forEachStatement =>
    obtain ⟨variable_, iterable, blocks, rfl, hv, hi, hblocks⟩ := h
    exact ⟨completeStatements variable_, completeStatements iterable, _, rfl,
      declaresOnly_complete hv, by simpa using hi, loopBlocks_complete hblocks hskip⟩
  case forLoopStatement =>
    obtain ⟨init, test, update, blocks, rfl, hprops, hinit, ht, hupdate, hblocks⟩ := h
    refine ⟨init.map completeStatements, test.map completeStatements, update.map completeStatements, _, ?_, ?_,
      by simpa using hinit, by simpa using ht, by simpa using hupdate,
      loopBlocks_complete hblocks hskip⟩
    · cases init <;> cases test <;> cases update <;> simp
    · simpa using hprops
  case doLoopStatement =>
    obtain ⟨body, test, rfl, hb, ht⟩ := h
    exact ⟨completeStatements body, completeStatements test, rfl, by simpa using hb, by simpa using ht⟩
  case switchStatement =>
    obtain ⟨subject, whens, rfl, hs, hwhens⟩ := h
    exact ⟨completeStatements subject, whens.map completeStatements, by simp [missingBlocks], by simpa using hs,
      by simpa using hwhens⟩
  case valueWhenBlock | typeWhenBlock | elseWhenBlock =>
    obtain ⟨cases, body, rfl, hcases, hb⟩ := h
    exact ⟨cases.map completeStatements, completeStatements body, by simp [missingBlocks], by simpa using hcases,
      by simpa using hb⟩
  case tryCatchFinallyBlockStatement =>
    obtain ⟨body, catches, final, rfl, hprops, hb, hcatches, hfinal⟩ := h
    refine ⟨completeStatements body, catches.map completeStatements, final.map completeStatements,
      ?_, by simpa using hprops, by simpa using hb, by simpa using hcatches, by simpa using hfinal⟩
    cases final <;> simp [missingBlocks]
  case catchBlockStatement =>
    obtain ⟨body, rfl, hb⟩ := h
    exact ⟨completeStatements body, rfl, by simpa using hb⟩
  case method =>
    obtain ⟨params, body, rfl, hparams, hbody⟩ := h
    refine ⟨params.map completeStatements, body.map completeStatements, ?_, by simpa using hparams,
      by simpa using hbody⟩
    cases body <;> simp [missingBlocks]
  case blockStatement => exact hkept (·.isStatement = true) h
  case variableDeclarationStatements => exact hkept (· = .variableDeclaration) h
  all_goals first
    | exact hkept (·.isOperand = true) h
    | exact absurd hkind (by decide)

theorem apt_complete (h : Tree.Apt kind props children) (span : Span) :
    Tree.Apt kind props
    (children.map completeStatements ++ missingBlocks kind span (children.map completeStatements)) := by
  cases hidle : kind.evaluates with
  | false => exact .of_idle hidle
  | true =>
    have hif : kind ≠ .ifElseBlockStatement := by
      rintro rfl
      exact absurd hidle (by decide)
    have hloop : kind.isLoop = false := by cases kind <;> first | rfl | exact absurd hidle (by decide)
    rw [missingBlocks_eq_nil hif hloop, append_nil]
    refine ⟨by simpa using h.count, forall_mem_map.mpr fun child hchild => ?_, h.creates⟩
    rw [completeStatements_kind]
    exact h.parts child hchild

/-- Completing statements gives the completed shape everywhere. -/
theorem well_completeStatements (h : tree.Well false)
    (hkind : tree.kind.isInner = true ∨ tree.kind = .method ∨ tree.kind = .fieldDeclarationStatements) :
    (completeStatements tree).Well true := by
  induction tree using Tree.induct with
  | step tree ih =>
    have hchildren : ∀ child ∈ tree.children, child.kind.isInner = true := by
      rcases hkind with hkind | hkind | hkind
      · exact fun child hchild => NodeKind.isInner_of_mayHold (h.formed.holds.mayHold child hchild) hkind
      · have hholds := h.formed.holds
        rw [hkind] at hholds
        obtain ⟨params, body, he, hparams, hbody⟩ := hholds
        rw [he]
        exact forall_mem_append.mpr ⟨fun param hp => hparams param hp ▸ rfl,
          fun block hb => hbody block (Option.mem_toList.mp hb) ▸ rfl⟩
      · have hholds := h.formed.holds
        rw [hkind] at hholds
        exact fun child hchild => NodeKind.isInner_of_isOperand (hholds child hchild)
    rw [completeStatements_eq]
    refine Tree.well_iff.mpr ⟨⟨h.formed.freeKeys, holds_complete h.formed.holds hkind tree.span, h.formed.spells,
      apt_complete h.formed.apt tree.span⟩, ?_⟩
    refine forall_mem_append.mpr ⟨forall_mem_map.mpr fun child hchild => ?_, fun block hblock => ?_⟩
    · exact ih child hchild (h.child hchild) (.inl (hchildren child hchild))
    · rcases missingBlocks_eq tree.kind tree.span (tree.children.map completeStatements) with he | he
      · rw [he] at hblock
        exact absurd hblock not_mem_nil
      · rw [he, mem_singleton] at hblock
        exact hblock ▸ well_implicitBlock true _

/-! ## Methods -/

/-- A well-formed member that is no static block. -/
def IsMember (tree : Tree) : Prop := (tree.kind.isMember = true ∧ tree.kind ≠ .staticBlock) ∧ tree.Well true

theorem freeKeys_foldl_put {base : PropertyMap} (hbase : Tree.FreeKeys base) (h : Tree.FreeKeys props) :
    Tree.FreeKeys (props.foldl (fun all entry => all.put entry.1 entry.2) base) := by
  induction props generalizing base with
  | nil => exact hbase
  | cons entry rest ih =>
    obtain ⟨hentry, hrest⟩ := forall_mem_cons.mp h
    exact ih (hbase.put hentry) hrest

theorem isMember_syntheticMethod (name returnType : String) (span : Span) (syntheticKind : String) (props : PropertyMap)
    (params : List Tree) {body : Tree} (hprops : Tree.FreeKeys props)
    (hparams : ∀ param ∈ params, param.kind = .parameter ∧ param.Well true) (hkind : body.kind = .blockStatement)
    (hbody : body.Well true) :
    IsMember (syntheticMethod name returnType span syntheticKind props (params ++ [body])) := by
  refine ⟨⟨rfl, by simp [syntheticMethod]⟩,
    Tree.well_iff.mpr ⟨.of_plain (freeKeys_foldl_put (by simp) hprops) ?_ rfl, ?_⟩⟩
  · exact ⟨params, some body, rfl, fun param hparam => (hparams param hparam).1, by simpa using hkind⟩
  · exact forall_mem_append.mpr ⟨fun param hparam => (hparams param hparam).2, by simpa using hbody⟩

theorem staticBlock_children (h : tree.Well false) (hkind : tree.kind = .staticBlock) :
    ∃ body, tree.children = [body] ∧ body.kind = .blockStatement ∧ body.Well false := by
  have hholds := h.formed.holds
  rw [hkind] at hholds
  obtain ⟨body, he, hb⟩ := hholds
  exact ⟨body, he, hb, h.child (by simp [he])⟩

theorem isMember_staticBlockMethod (h : tree.Well false) (hkind : tree.kind = .staticBlock) (ordinal : Nat) :
    IsMember (staticBlockMethod ordinal tree) := by
  obtain ⟨body, he, hb, hwell⟩ := staticBlock_children h hkind
  rw [staticBlockMethod, he]
  exact isMember_syntheticMethod _ _ _ _ _ [] (by simp) (by simp) hb (hwell.mono (hb ▸ rfl))

theorem well_staticBlockCall (ordinal : Nat) (span : Span) : (staticBlockCall ordinal span).Well true := by
  have hreceiver : ({ kind := .emptyReferenceExpression, span } : Tree).Well true :=
    Tree.well_iff.mpr ⟨.of_untyped (by simp) (by simp [Tree.Holds]) ⟨rfl, by simp, NodeKind.noConfusion⟩ rfl, by simp⟩
  refine Tree.well_iff.mpr ⟨.of_untyped (by simp [staticBlockCall]) (by simp [staticBlockCall, Tree.Holds]; rfl)
    ⟨rfl, forall_mem_singleton.mpr rfl, NodeKind.noConfusion⟩ rfl, ?_⟩
  refine forall_mem_singleton.mpr (Tree.well_iff.mpr ⟨.of_untyped (by simp) (by simp [Tree.Holds]; rfl)
    ⟨rfl, forall_mem_singleton.mpr rfl, NodeKind.noConfusion⟩ rfl, ?_⟩)
  simpa using hreceiver

theorem isMember_staticBlockInvoker (span : Span) (blocks : List Span) : IsMember (staticBlockInvoker span blocks) := by
  refine isMember_syntheticMethod _ _ _ _ _ [] (by simp) (by simp) rfl ?_
  have hcalls : ∀ call ∈ blocks.mapIdx fun i blockSpan => staticBlockCall (i + 1) blockSpan,
      call.kind.isStatement = true ∧ call.Well true := by
    intro call hcall
    obtain ⟨i, hi, rfl⟩ := mem_mapIdx.mp hcall
    exact ⟨rfl, well_staticBlockCall _ _⟩
  exact Tree.well_iff.mpr ⟨.of_plain (by simp) (fun call hcall => (hcalls call hcall).1) rfl,
    fun call hcall => (hcalls call hcall).2⟩

theorem accessor_children (h : accessor.Well false) (hkind : accessor.kind.isAccessor = true) :
    ∃ body : Option Tree, accessor.children = body.toList ∧ ∀ block ∈ body, block.kind = .blockStatement := by
  have hholds := h.formed.holds
  simp only [NodeKind.isAccessor, Bool.or_eq_true, beq_iff_eq] at hkind
  rcases hkind with hkind | hkind <;> rw [hkind] at hholds <;> exact hholds

theorem accessor_body (h : accessor.Well false) (hkind : accessor.kind.isAccessor = true) :
    (accessor.children.getLast?.getD (implicitBlock accessor.span)).kind = .blockStatement ∧
      (accessor.children.getLast?.getD (implicitBlock accessor.span)).Well false := by
  obtain ⟨body, he, hb⟩ := accessor_children h hkind
  cases body with
  | none =>
    rw [he]
    exact ⟨rfl, well_implicitBlock false _⟩
  | some block =>
    have hblock : block.Well false := h.child (by simp [he])
    rw [he]
    exact ⟨hb block rfl, hblock⟩

/-- An accessor becomes a method with the completed body; a setter has a parameter. -/
theorem accessorMethod?_eq (property : Tree) (hkind : accessor.kind.isAccessor = true) :
    ∃ method params, accessorMethod? property accessor = some method ∧ method.kind = .method ∧
      method.children = params ++ [completeStatements (accessor.children.getLast?.getD (implicitBlock accessor.span))] ∧
      ∀ param ∈ params, param.kind = .parameter ∧ param.children = [] := by
  simp only [NodeKind.isAccessor, Bool.or_eq_true, beq_iff_eq] at hkind
  rcases hkind with hkind | hkind <;> simp only [accessorMethod?, hkind, Option.some.injEq]
  · exact ⟨_, [], rfl, rfl, rfl, by simp⟩
  · exact ⟨_, [_], rfl, rfl, rfl, by simp⟩

theorem isMember_accessorMethod {property method : Tree} (hproperty : Tree.Spells property.props)
    (h : accessor.Well false) (hkind : accessor.kind.isAccessor = true)
    (hmethod : accessorMethod? property accessor = some method) : IsMember method := by
  obtain ⟨hblock, hwell⟩ := accessor_body h hkind
  have hbody := well_completeStatements hwell (.inl (hblock ▸ rfl))
  simp only [NodeKind.isAccessor, Bool.or_eq_true, beq_iff_eq] at hkind
  rcases hkind with hkind | hkind <;> simp only [accessorMethod?, hkind, Option.some.injEq] at hmethod <;> subst hmethod
  · exact isMember_syntheticMethod _ _ _ _ _ [] (by simp) (by simp) (by simpa using hblock) hbody
  · refine isMember_syntheticMethod _ _ _ _ _ [_] (by simp) ?_ (by simpa using hblock) hbody
    -- The parameter has the type of the property.
    obtain ⟨name, type, -, -, htype, hwritten⟩ := hproperty
    have htext : (property.text? (.spelled .type)).getD "Object" = type := by rw [Tree.text?, htype, Option.getD_some]
    refine forall_mem_singleton.mpr
      ⟨rfl, Tree.well_iff.mpr ⟨⟨by simp, by simp [Tree.Holds], fun _ => ?_, .of_idle rfl⟩, by simp⟩⟩
    rw [htext]
    exact ⟨_, type, rfl, rfl, rfl, hwritten⟩

/-! ## Types and triggers -/

theorem completeType_eq (tree : Tree) : completeType tree = { tree with
    children := completeMembers 1 tree.children ++
      if ((tree.children.filter (·.kind == .staticBlock)).map (·.span)).isEmpty then []
      else [staticBlockInvoker tree.span ((tree.children.filter (·.kind == .staticBlock)).map (·.span))] } := by
  obtain ⟨kind, span, props, children⟩ := tree
  rw [completeType]

/-- What stands for a member in its completed type. -/
def completeMember (ordinal : Nat) (member : Tree) : List Tree :=
  match member.kind with
  | .staticBlock => [staticBlockMethod ordinal member]
  | .propertyDeclaration => { member with children := [] } :: member.children.filterMap (accessorMethod? member)
  | kind => [if kind.isTypeDeclaration then completeType member else completeStatements member]

theorem completeMembers_cons (ordinal : Nat) (member : Tree) (rest : List Tree) :
    completeMembers ordinal (member :: rest) = completeMember ordinal member ++
      completeMembers (if member.kind == .staticBlock then ordinal + 1 else ordinal) rest := by
  rw [completeMembers, completeMember]
  cases hk : member.kind <;> rfl

theorem exists_mem_completeMembers {P Q : Tree → Prop}
    (h : ∀ child ∈ children, ∀ ordinal, (∃ member ∈ completeMember ordinal child, P member) ↔ Q child) (ordinal : Nat) :
    (∃ member ∈ completeMembers ordinal children, P member) ↔ ∃ child ∈ children, Q child := by
  induction children generalizing ordinal with
  | nil => simp [completeMembers]
  | cons child rest ih =>
    obtain ⟨hchild, hrest⟩ := forall_mem_cons.mp h
    rw [completeMembers_cons]
    simp only [mem_append, mem_cons, or_and_right, exists_or, exists_eq_left, hchild ordinal, ih hrest]

theorem forall_mem_completeMembers {P : Tree → Prop}
    (h : ∀ child ∈ children, ∀ ordinal, ∀ member ∈ completeMember ordinal child, P member) (ordinal : Nat) :
    ∀ member ∈ completeMembers ordinal children, P member := by
  induction children generalizing ordinal with
  | nil => simp [completeMembers]
  | cons child rest ih =>
    obtain ⟨hchild, hrest⟩ := forall_mem_cons.mp h
    rw [completeMembers_cons]
    exact forall_mem_append.mpr ⟨hchild ordinal, ih hrest _⟩

/-- What stands for a member is a well-formed member and no static block. -/
theorem isMember_completeMember {child : Tree} (hkind : child.kind.isMember = true) (h : child.Well false)
    (hnested : child.kind.isTypeDeclaration = true → (completeType child).Well true) (ordinal : Nat) :
    ∀ member ∈ completeMember ordinal child, IsMember member := by
  have hother : child.kind = .method ∨ child.kind = .fieldDeclarationStatements →
      IsMember (completeStatements child) := by
    intro hk
    refine ⟨⟨by simpa using hkind, ?_⟩, well_completeStatements h (.inr hk)⟩
    rcases hk with hk | hk <;> simp [hk]
  have htype : child.kind.isTypeDeclaration = true → IsMember (completeType child) := by
    intro hk
    refine ⟨?_, hnested hk⟩
    rw [completeType_eq]
    refine ⟨hkind, fun e => ?_⟩
    rw [show child.kind = _ from e] at hk
    exact absurd hk (by decide)
  rw [completeMember]
  split
  · rename_i hk
    simpa using isMember_staticBlockMethod h hk ordinal
  · rename_i hk
    have hholds := h.formed.holds
    rw [hk] at hholds
    have hspells := h.formed.spells (by rw [hk]; rfl)
    refine forall_mem_cons.mpr
      ⟨⟨⟨hkind, by simp [hk]⟩,
      Tree.well_iff.mpr ⟨⟨h.formed.freeKeys, ?_, fun _ => hspells, .of_idle (by rw [hk]; rfl)⟩, by simp⟩⟩, ?_⟩
    · simp [hk, Tree.Holds]
    · intro method hmethod
      obtain ⟨accessor, haccessor, hmethod⟩ := mem_filterMap.mp hmethod
      exact isMember_accessorMethod hspells (h.child haccessor) (hholds accessor haccessor).1 hmethod
  · rename_i hstatic hproperty
    refine forall_mem_singleton.mpr ?_
    split
    · exact htype ‹_›
    · refine hother ?_
      cases hk : child.kind <;> simp_all [NodeKind.isMember, NodeKind.isTypeDeclaration]

theorem members_of_read (h : tree.Well false) (hkind : tree.kind.isTypeDeclaration = true)
    (hne : tree.kind ≠ .userTrigger) : ∀ child ∈ tree.children, child.kind.isMember = true ∧
    child.kind ≠ .userTrigger := by
  have hmembers : ∀ child ∈ tree.children, child.kind.isMember = true := by
    have hholds := h.formed.holds
    cases hk : tree.kind <;> rw [hk] at hholds hkind hne
    case userClass | userInterface => exact fun child hchild => (hholds child hchild).1
    case userEnum =>
      rw [show tree.children = [] from hholds]
      simp
    all_goals first | exact absurd rfl hne | exact absurd hkind (by decide)
  refine fun child hchild => ⟨hmembers child hchild, fun e => ?_⟩
  have hmember := hmembers child hchild
  rw [e] at hmember
  exact absurd hmember (by decide)

/-- A completed type is well-formed and complete. -/
theorem well_completeType (h : tree.Well false) (hkind : tree.kind.isTypeDeclaration = true)
    (hne : tree.kind ≠ .userTrigger) : (completeType tree).Well true := by
  induction tree using Tree.induct with
  | step tree ih =>
    have hstart := h.formed.holds
    have hmembers := members_of_read h hkind hne
    have hcompleted : ∀ member ∈ (completeType tree).children, IsMember member := by
      rw [completeType_eq]
      refine forall_mem_append.mpr ⟨?_, ?_⟩
      · refine forall_mem_completeMembers (fun child hchild ordinal => ?_) 1
        exact isMember_completeMember (hmembers child hchild).1 (h.child hchild)
          (fun hk => ih child hchild (h.child hchild) hk (hmembers child hchild).2) ordinal
      · split
        · simp
        · simpa using isMember_staticBlockInvoker _ _
    have hkind_eq : (completeType tree).kind = tree.kind := by rw [completeType_eq]
    refine Tree.well_iff.mpr ⟨.of_plain ?_ ?_ ?_, fun member hmember => (hcompleted member hmember).2⟩
    · rw [completeType_eq]
      exact h.formed.freeKeys
    · rw [hkind_eq]
      cases hk : tree.kind <;> rw [hk] at hstart hkind hne
      case userClass | userInterface =>
        exact fun member hmember => ⟨(hcompleted member hmember).1.1, fun _ => (hcompleted member hmember).1.2⟩
      case userEnum =>
        have hchildren : tree.children = [] := hstart
        rw [completeType_eq, hchildren]
        rfl
      all_goals first | exact absurd rfl hne | exact absurd hkind (by decide)
    · rw [hkind_eq]
      cases hk : tree.kind <;> rw [hk] at hkind <;> first | rfl | exact absurd hkind (by decide)

theorem well_completeTrigger (h : tree.Well false) (hkind : tree.kind = .userTrigger) :
    (completeTrigger tree).Well true := by
  have hholds := h.formed.holds
  rw [hkind] at hholds
  obtain ⟨body, he, hb⟩ := hholds
  have hbody : body.kind = .blockStatement := hb
  have hwell : body.Well false := h.child (by simp [he])
  have hinvoke := isMember_syntheticMethod Reserved.triggerInvoke "void" tree.span Reserved.kindTriggerInvoke
    [(.fact .isStatic, .flag false)] [] (by simp) (by simp) (by simpa using hbody)
    (well_completeStatements hwell (.inl (hbody ▸ rfl)))
  rw [completeTrigger, he]
  refine Tree.well_iff.mpr ⟨.of_plain (h.formed.freeKeys.put (by simp)) ?_ ?_, by simpa using hinvoke.2⟩
  · simp only [Tree.put, hkind]
    exact ⟨_, rfl, rfl⟩
  · simp only [Tree.put, hkind]
    rfl

/-- Completion of an accepted source gives a well-shaped completed tree that declares a type. -/
theorem well_complete {root : Tree} (h : root.Well false) (hkind : root.kind.isTypeDeclaration = true) :
    (complete root).Well true ∧ (complete root).kind = root.kind := by
  rw [complete]
  by_cases htrigger : root.kind = .userTrigger
  · rw [if_pos (by simp [htrigger])]
    exact ⟨well_completeTrigger h htrigger, rfl⟩
  · rw [if_neg (by simpa using htrigger), if_pos hkind]
    refine ⟨well_completeType h hkind htrigger, ?_⟩
    rw [completeType_eq]

end ApexPaths.Build
