import ApexPaths.Proofs.Build.Operands
import ApexPaths.Proofs.Program.Spelling
import ApexPaths.Proofs.Text.Decimal
import Mathlib.Data.List.Forall2

/-!
The static blocks of a class. Completion makes one method of each block, numbered in the order of the source, and after
all members the method that calls them. Their names start with an angle bracket, which no source can spell, so among the
methods of a class the made ones can be told from all others.
-/

namespace ApexPaths.Build
set_option autoImplicit false

open Source CodeGraph Tree List

variable {type : Tree} {v : VertexId}

/-! ## Reserved names -/

/-- A name that no source can spell, other than that of constructors. -/
def isReservedName (name : String) : Bool := name.toList.head? == some '<' && name != Reserved.constructorName

theorem toLower_of_isDigit {c : Char} (h : c.isDigit = true) : c.toLower = c := by
  delta Char.toLower
  refine dif_neg fun hupper => ?_
  have hdigit : c.toNat ≤ 57 := (Bool.and_eq_true_iff.mp h).2 |> of_decide_eq_true
  have hcapital : 65 ≤ c.toNat := hupper.1
  omega

theorem folded_staticBlock (ordinal : Nat) :
    Text.folded (Reserved.staticBlock ordinal) = "<staticblock".toList ++ ((toString ordinal).toList ++ ['>']) := by
  have hdigits : (toString ordinal).toList.map Char.toLower = (toString ordinal).toList :=
    (map_congr_left fun c hc => toLower_of_isDigit (Text.isDigit_of_mem_toString c hc)).trans (map_id _)
  rw [Text.folded, Reserved.staticBlock, String.toList_append, String.toList_append, map_append, map_append, hdigits,
    List.append_assoc]
  rfl

/-- The names of static blocks are told apart by their numbers, also without regard to case. -/
theorem eqIgnoringCase_staticBlock (i j : Nat) :
    Text.eqIgnoringCase (Reserved.staticBlock i) (Reserved.staticBlock j) = (i == j) := by
  rw [Text.eqIgnoringCase_eq, folded_staticBlock, folded_staticBlock, Bool.eq_iff_iff, beq_iff_eq, beq_iff_eq]
  refine ⟨fun h => ?_, fun h => by rw [h]⟩
  have hdigits := append_cancel_right (append_cancel_left h)
  simpa [Nat.toString_eq_ofList_toDigits] using congrArg (Nat.ofDigitChars 10 · 0) hdigits

theorem eqIgnoringCase_staticBlockInvoker (ordinal : Nat) :
    Text.eqIgnoringCase Reserved.staticBlockInvoker (Reserved.staticBlock ordinal) = false := by
  rw [Text.eqIgnoringCase_eq, folded_staticBlock, beq_eq_false_iff_ne]
  intro h
  have hrest : "invoker>".toList = (toString ordinal).toList ++ ['>'] := congrArg (List.drop 12) h
  have hmem : 'i' ∈ (toString ordinal).toList ++ ['>'] := hrest ▸ by decide
  rcases mem_append.mp hmem with hmem | hmem
  · exact absurd (Text.isDigit_of_mem_toString _ hmem) (by decide)
  · exact absurd hmem (by decide)

/-- What has the name of a static block in some case has a reserved name. -/
theorem isReservedName_of_eqIgnoringCase {name : String} {ordinal : Nat}
    (h : Text.eqIgnoringCase name (Reserved.staticBlock ordinal) = true) : isReservedName name = true := by
  rw [Text.eqIgnoringCase_eq, beq_iff_eq, folded_staticBlock] at h
  have hne : name ≠ Reserved.constructorName := by
    rintro rfl
    have hsecond : some 'i' = some 's' := congrArg (fun cs => cs[1]?) h
    exact absurd hsecond (by decide)
  rw [isReservedName, Bool.and_eq_true, beq_iff_eq, bne_iff_ne]
  refine ⟨?_, hne⟩
  rw [Text.folded] at h
  cases hchars : name.toList with
  | nil => rw [hchars] at h; cases h
  | cons c rest =>
    rw [hchars] at h
    have hlower : c.toLower = '<' := (List.cons.inj h).1
    have hfirst : c = '<' := Decidable.byContradiction fun hne => Text.toLower_ne (by decide) hne hlower
    rw [hfirst]
    rfl

theorem isReservedName_staticBlock (ordinal : Nat) : isReservedName (Reserved.staticBlock ordinal) = true :=
  isReservedName_of_eqIgnoringCase ((eqIgnoringCase_staticBlock ordinal ordinal).trans (beq_self_eq_true ordinal))

theorem not_isReservedName_of_isMethodName {name : String} (h : IsMethodName name) : isReservedName name = false := by
  rcases h with h | rfl
  · refine Bool.and_eq_false_iff.mpr (.inl ?_)
    rw [beq_eq_false_iff_ne]
    exact fun hhead => (h.plain '<' (mem_of_head? hhead)).2 (by decide)
  · rfl

theorem not_isReservedName_accessor (name : String) :
    isReservedName (Reserved.getter name) = false ∧ isReservedName (Reserved.setter name) = false := by
  simp [isReservedName, Reserved.getter, Reserved.setter, String.toList_append]

/-! ## The methods that are made -/

/-- The tree is a method that was made from a static block or an accessor. -/
def isMade (tree : Tree) : Bool :=
  tree.kind == .method && ((tree.props.written (.spelled .name)).bind PropertyValue.text?).any isReservedName

theorem isMade_staticBlockMethod (ordinal : Nat) (block : Tree) : isMade (staticBlockMethod ordinal block) = true :=
  isReservedName_staticBlock ordinal

theorem isMade_of_kind {tree : Tree} (h : tree.kind ≠ .method) : isMade tree = false := by
  rw [isMade, beq_eq_false_iff_ne.mpr h, Bool.false_and]

theorem not_isMade_accessorMethod {property accessor method : Tree}
    (h : accessorMethod? property accessor = some method) : isMade method = false := by
  rw [accessorMethod?] at h
  split at h
  · cases h
    exact (not_isReservedName_accessor _).1
  · cases h
    exact (not_isReservedName_accessor _).2
  · cases h

/-- A member becomes a made method if it is a static block. -/
theorem filter_completeMember {child : Tree} (h : child.Exact) (ordinal : Nat) :
    (completeMember ordinal child).filter isMade =
    if child.kind == .staticBlock then [staticBlockMethod ordinal child] else [] := by
  rw [completeMember]
  split
  · rename_i hkind
    rw [filter_singleton, isMade_staticBlockMethod, hkind]
    rfl
  · rename_i hkind
    have hproperty : isMade { child with children := [] } = false := isMade_of_kind (by simp [hkind])
    rw [filter_cons_of_neg (by simp [hproperty]), hkind]
    refine filter_eq_nil_iff.mpr fun method hmethod => ?_
    obtain ⟨accessor, -, hmethod⟩ := mem_filterMap.mp hmethod
    simp [not_isMade_accessorMethod hmethod]
  · rename_i hstatic hproperty
    have hother : isMade (if child.kind.isTypeDeclaration then completeType child else completeStatements child) =
        false := by
      split
      · rename_i htype
        refine isMade_of_kind fun e => ?_
        rw [completeType_eq] at e
        rw [show child.kind = .method from e] at htype
        cases htype
      · by_cases hmethod : child.kind = .method
        · rw [Exact, hmethod] at h
          obtain ⟨params, body, -, -, -, -, -, -, name, hname, hplain⟩ := h
          rw [isMade, completeStatements_props, hname]
          exact Bool.and_eq_false_iff.mpr (.inr (not_isReservedName_of_isMethodName hplain))
        · exact isMade_of_kind (by simpa using hmethod)
    rw [filter_singleton, hother, beq_eq_false_iff_ne.mpr hstatic]
    rfl

theorem filter_completeMembers {children : List Tree} (h : ∀ child ∈ children, child.Exact) (ordinal : Nat) :
    (completeMembers ordinal children).filter isMade =
      (children.filter (·.kind == .staticBlock)).mapIdx fun i block => staticBlockMethod (ordinal + i) block := by
  induction children generalizing ordinal with
  | nil => simp [completeMembers]
  | cons child rest ih =>
    obtain ⟨hchild, hrest⟩ := forall_mem_cons.mp h
    rw [completeMembers_cons, filter_append, filter_completeMember hchild, ih hrest, filter_cons]
    split
    · rw [mapIdx_cons, singleton_append]
      simp only [Nat.add_zero, Nat.add_assoc, Nat.add_comm 1]
    · rfl

/-- The static blocks of a class in the order of the source. -/
def staticBlocks (type : Tree) : List Tree := type.children.filter (·.kind == .staticBlock)

/-- The methods of static blocks, numbered from one. -/
def blockMethods (blocks : List Tree) : List Tree := blocks.mapIdx fun i block => staticBlockMethod (i + 1) block

theorem filter_children_completeType (h : type.Read) (hblocks : staticBlocks type ≠ []) :
    (completeType type).children.filter isMade =
      blockMethods (staticBlocks type) ++ [staticBlockInvoker type.span ((staticBlocks type).map (·.span))] := by
  have hexact : ∀ child ∈ type.children, child.Exact := fun child hchild =>
    h.2 child (Tree.mem_nodes.mpr (.inr ⟨child, hchild, child.self_mem_nodes⟩))
  have hspans : ((type.children.filter (·.kind == .staticBlock)).map (·.span)).isEmpty = false := by
    rw [isEmpty_map]
    exact isEmpty_eq_false_iff.mpr hblocks
  rw [completeType_eq, filter_append, filter_completeMembers hexact, hspans]
  simp only [Nat.add_comm 1, blockMethods, staticBlocks]
  rfl

/-! ## Classes among the nodes of a tree -/

theorem not_isTypeDeclaration_of_mem_nodes {completed : Bool} {tree : Tree} (h : tree.Well completed)
    (hkind : tree.kind.isTypeDeclaration = false) : ∀ node ∈ tree.nodes, node.kind.isTypeDeclaration = false := by
  induction tree using Tree.induct with
  | step tree ih =>
    intro node hnode
    rcases Tree.mem_nodes.mp hnode with rfl | ⟨child, hchild, hnode⟩
    · exact hkind
    · refine ih child hchild (h.child hchild) (Bool.eq_false_iff.mpr fun htype => ?_) node hnode
      rw [NodeKind.isTypeDeclaration_of_mayHold (h.formed.holds.mayHold child hchild) (.inl htype)] at hkind
      cases hkind

theorem isTypeDeclaration_completeMember (ordinal : Nat) (child : Tree) :
    ∀ member ∈ completeMember ordinal child, member.kind.isTypeDeclaration = child.kind.isTypeDeclaration := by
  rw [completeMember]
  split
  · rename_i hkind
    simp [hkind, staticBlockMethod, syntheticMethod, NodeKind.isTypeDeclaration]
  · rename_i hkind
    refine forall_mem_cons.mpr ⟨rfl, fun method hmethod => ?_⟩
    obtain ⟨accessor, -, hmethod⟩ := mem_filterMap.mp hmethod
    have hmade : method.kind = .method := by
      rw [accessorMethod?] at hmethod
      split at hmethod <;> first | (obtain rfl := Option.some.inj hmethod; rfl) | cases hmethod
    rw [hmade, hkind]
    rfl
  · refine forall_mem_singleton.mpr ?_
    split
    · rw [completeType_eq]
    · rw [completeStatements_kind]

variable {tree node : Tree}

theorem type_mem_completeMember_iff {child : Tree} (hmember : child.kind.isMember = true)
    (htrigger : child.kind ≠ .userTrigger) (h : child.Well false) (hnode : node.kind.isTypeDeclaration = true)
    (ordinal : Nat) :
    (∃ member ∈ completeMember ordinal child, node ∈ member.nodes) ↔
      child.kind.isTypeDeclaration = true ∧ node ∈ (completeType child).nodes := by
  cases htype : child.kind.isTypeDeclaration with
  | true =>
    have hone : completeMember ordinal child = [completeType child] := by
      rw [completeMember]
      split
      · rename_i hkind
        rw [hkind] at htype
        cases htype
      · rename_i hkind
        rw [hkind] at htype
        cases htype
      · rw [htype]
        rfl
    simp [hone]
  | false =>
    simp only [Bool.false_eq_true, false_and, iff_false]
    rintro ⟨member, hmem, hin⟩
    have hwell := (isMember_completeMember hmember h (fun hk => well_completeType h hk htrigger) ordinal member hmem).2
    have hnone :=
      not_isTypeDeclaration_of_mem_nodes hwell
      ((isTypeDeclaration_completeMember ordinal child member hmem).trans htype)
    rw [hnone node hin] at hnode
    cases hnode

/-- The types inside a completed type are its own, completed. -/
theorem type_mem_completeType_iff (h : tree.Well false) (hkind : tree.kind.isTypeDeclaration = true)
    (htrigger : tree.kind ≠ .userTrigger) (hnode : node.kind.isTypeDeclaration = true) : node ∈
    (completeType tree).nodes ↔
      ∃ type ∈ tree.nodes, type.kind.isTypeDeclaration = true ∧ completeType type = node := by
  induction tree using Tree.induct with
  | step tree ih =>
    have hmembers := members_of_read h hkind htrigger
    have hinvoker : ∀ blocks, node ∉ (staticBlockInvoker tree.span blocks).nodes := fun blocks hin => by
      rw [not_isTypeDeclaration_of_mem_nodes (isMember_staticBlockInvoker tree.span blocks).2 rfl node hin] at hnode
      cases hnode
    have hbelow : (∃ member ∈ (completeType tree).children, node ∈ member.nodes) ↔
        ∃ child ∈ tree.children, child.kind.isTypeDeclaration = true ∧ node ∈ (completeType child).nodes := by
      rw [completeType_eq, ← exists_mem_completeMembers (fun child hchild ordinal =>
        type_mem_completeMember_iff (hmembers child hchild).1 (hmembers child hchild).2 (h.child hchild) hnode
        ordinal) 1]
      simp only [mem_append, or_and_right, exists_or, or_iff_left_iff_imp]
      rintro ⟨member, hmember, hin⟩
      split at hmember
      · cases hmember
      · rw [mem_singleton.mp hmember] at hin
        exact absurd hin (hinvoker _)
    rw [Tree.mem_nodes, hbelow]
    constructor
    · rintro (rfl | ⟨child, hchild, htype, hin⟩)
      · exact ⟨tree, tree.self_mem_nodes, hkind, rfl⟩
      · obtain ⟨type, hmem, hfound⟩ := (ih child hchild (h.child hchild) htype (hmembers child hchild).2).mp hin
        exact ⟨type, Tree.mem_nodes.mpr (.inr ⟨child, hchild, hmem⟩), hfound⟩
    · rintro ⟨type, hmem, htype, rfl⟩
      rcases Tree.mem_nodes.mp hmem with rfl | ⟨child, hchild, hmem⟩
      · exact .inl rfl
      · have hchildType : child.kind.isTypeDeclaration = true := by
          cases hother : child.kind.isTypeDeclaration with
          | true => rfl
          | false => rw [not_isTypeDeclaration_of_mem_nodes (h.child hchild) hother type hmem] at htype; cases htype
        exact .inr ⟨child, hchild, hchildType,
          (ih child hchild (h.child hchild) hchildType (hmembers child hchild).2).mpr ⟨type, hmem, htype, rfl⟩⟩

theorem not_class_of_trigger {completed : Bool} (h : tree.Well completed) (hkind : tree.kind = .userTrigger) :
    ∀ node ∈ tree.nodes, node.kind ≠ .userClass := by
  intro node hnode hclass
  rcases Tree.mem_nodes.mp hnode with rfl | ⟨child, hchild, hin⟩
  · rw [hkind] at hclass
    cases hclass
  · have hmay := h.formed.holds.mayHold child hchild
    have hother : child.kind.isTypeDeclaration = false := by
      rw [hkind] at hmay
      generalize child.kind = kind at hmay
      cases kind <;> first | rfl | exact absurd hmay (by decide)
    have hnone := not_isTypeDeclaration_of_mem_nodes (h.child hchild) hother node hin
    rw [hclass] at hnone
    cases hnone

theorem class_mem_complete_iff {root : Tree} (h : root.Well false) (hkind : root.kind.isTypeDeclaration = true)
    (hnode : node.kind = .userClass) : node ∈ (complete root).nodes ↔
      ∃ type ∈ root.nodes, type.kind = .userClass ∧ completeType type = node := by
  by_cases htrigger : root.kind = .userTrigger
  · obtain ⟨hwell, hsame⟩ := well_complete h hkind
    refine iff_of_false (fun hin => not_class_of_trigger hwell (hsame.trans htrigger) node hin hnode) ?_
    rintro ⟨type, hmem, hclass, -⟩
    exact not_class_of_trigger h htrigger type hmem hclass
  · have hcomplete : complete root = completeType root := by
      rw [complete, if_neg (by simpa using htrigger), if_pos hkind]
    rw [hcomplete, type_mem_completeType_iff h hkind htrigger (by rw [hnode]; rfl)]
    refine exists_congr fun type => and_congr_right fun _ => and_congr_left ?_
    rintro rfl
    rw [completeType_eq] at hnode
    exact ⟨fun _ => hnode, fun hclass => by rw [hclass]; rfl⟩

/-! ## Classes in a graph -/

/-- The classes of some units and of the stubs, those inside others among them. -/
def classes (settings : Settings) (units : List CompilationUnit) : List Tree :=
  (allUnits settings units).flatMap fun unit => unit.root.nodes.filter (·.kind == .userClass)

theorem mem_classes_iff {settings : Settings} {units : List CompilationUnit} : type ∈ classes settings units ↔
    ∃ unit ∈ allUnits settings units, type ∈ unit.root.nodes ∧ type.kind = .userClass := by
  simp [classes]

section
variable {settings : Settings} {sources : List (String × String)} {units : List CompilationUnit} {graph : CodeGraph}
    {stats : Stats} (hparse : parseAll sources = .ok units)
include hparse

theorem read_of_mem_classes (h : type ∈ classes settings units) : type.Read := by
  obtain ⟨unit, hunit, hmem, -⟩ := mem_classes_iff.mp h
  obtain ⟨hwell, hexact⟩ := (read_allUnits settings hparse unit hunit).2
  exact ⟨fun node hnode => hwell node (Tree.nodes_trans hmem hnode), fun node hnode =>
    hexact node (Tree.nodes_trans hmem hnode)⟩

variable (hbuild : build settings units = .ok (graph, stats))
include hbuild

theorem exists_carries_class (h : type ∈ classes settings units) : ∃ v, Carries graph (completeType type) v := by
  have hread := well_of_parseAll hparse
  obtain ⟨unit, hunit, hmem, hclass⟩ := mem_classes_iff.mp h
  obtain ⟨hkind, hroot⟩ := read_allUnits settings hparse unit hunit
  obtain ⟨top, htop⟩ := (bears_typesGraph settings hread).carries _ (mem_map_of_mem hunit)
  have hnode : completeType type ∈ (complete unit.root).nodes :=
    (class_mem_complete_iff hroot.1 hkind (by rw [completeType_eq]; exact hclass)).mpr ⟨type, hmem, hclass, rfl⟩
  obtain ⟨v, hv⟩ := htop.node hnode
  exact ⟨v, hv.sameTree (sameTree_of_build hread hbuild)⟩

theorem exists_class_of_is (h : graph.is v .userClass = true) :
    ∃ type ∈ classes settings units, Carries graph (completeType type) v := by
  have hread := well_of_parseAll hparse
  have same := sameTree_of_build hread hbuild
  rw [same.is_eq] at h
  have hlabel := (typesGraph settings units).is_iff.mp h
  obtain ⟨root, hroot, node, hnode, hcarries⟩ :=
    (bears_typesGraph settings hread).exists_node (CodeGraph.lt_of_label? _ hlabel)
  obtain ⟨unit, hunit, rfl⟩ := mem_map.mp hroot
  obtain ⟨hkind, hroot⟩ := read_allUnits settings hparse unit hunit
  have hclass : node.kind = .userClass := Option.some.inj (hcarries.label.symm.trans hlabel)
  obtain ⟨type, hmem, htype, rfl⟩ := (class_mem_complete_iff hroot.1 hkind hclass).mp hnode
  exact ⟨type, mem_classes_iff.mpr ⟨unit, hunit, hmem, htype⟩, hcarries.sameTree same⟩

end

/-! ## Made methods in a graph -/

theorem carriesAll_iff {graph : CodeGraph} {trees : List Tree} {ids : List VertexId} :
    CarriesAll graph trees ids ↔ List.Forall₂ (Carries graph) trees ids := by
  induction trees generalizing ids with
  | nil => rw [CarriesAll, forall₂_nil_left_iff]
  | cons tree rest ih =>
    simp only [CarriesAll, ih, forall₂_cons_left_iff]
    constructor
    · rintro ⟨id, more, heq, htree, hrest⟩
      exact ⟨id, more, htree, hrest, heq⟩
    · rintro ⟨id, more, htree, hrest, heq⟩
      exact ⟨id, more, heq, htree, hrest⟩

def isMadeAt (graph : CodeGraph) (v : VertexId) : Bool := graph.is v .method && (graph.name? v).any isReservedName

theorem Carries.name?_eq {graph : CodeGraph} {tree : Tree} (h : Carries graph tree v) :
    graph.name? v = (tree.props.written (.spelled .name)).bind PropertyValue.text? := by
  rw [name?, CodeGraph.text?_eq, (carries_iff.mp h).2.1 (.spelled .name) rfl]

theorem Carries.isMadeAt_eq {graph : CodeGraph} {tree : Tree} (h : Carries graph tree v) :
    isMadeAt graph v = isMade tree := by
  rw [isMadeAt, isMade, h.name?_eq, CodeGraph.is, h.label]
  rfl

/-- The made methods of a class are those of its own static blocks, in their order, and the one that calls them. -/
theorem exists_made {graph : CodeGraph} (hread : type.Read) (hblocks : staticBlocks type ≠ [])
    (h : Carries graph (completeType type) v) : ∃ methods invoker, (graph.children v).filter (isMadeAt graph) =
    methods ++ [invoker] ∧ List.Forall₂ (Carries graph) (blockMethods (staticBlocks type)) methods ∧
      Carries graph (staticBlockInvoker type.span ((staticBlocks type).map (·.span))) invoker := by
  have hmade :=
    rel_filter (p := isMade) (q := isMadeAt graph) (fun tree id hcarries => by simp only [hcarries.isMadeAt_eq])
    (carriesAll_iff.mp h.children)
  rw [filter_children_completeType hread hblocks] at hmade
  obtain ⟨methods, last, heq, hmethods, invoker, rest, rfl, hinvoker, rfl⟩ :=
    carriesAll_append.mp (carriesAll_iff.mpr hmade)
  exact ⟨methods, invoker, heq, carriesAll_iff.mp hmethods, hinvoker⟩

end ApexPaths.Build
