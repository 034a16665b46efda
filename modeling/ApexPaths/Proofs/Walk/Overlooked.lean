import ApexPaths.Proofs.Walk.Covering

/-!
What evaluation overlooks. Of what is written by an assignment, or by `++` and `--`, only the parts are evaluated
that say where it is, and nothing at all where it is neither a variable nor an element. The creation of a record
that the program does not declare takes the assignments among its arguments for fields, and the creation of an
array leaves out its arguments. The parts of an expression and what it overlooks split what stands below it.
-/

namespace ApexPaths
set_option autoImplicit false

open List

variable {kind : NodeKind} {target arg v x op : VertexId}

/-! ## What an expression leaves out -/

namespace Walker

open CodeGraph

variable {σ : Type}

section
variable (walker : Walker σ)

/-- A place is not evaluated itself, and where it is neither a variable nor an element, nothing below it is. -/
def overlookedPlace (target : VertexId) : List VertexId :=
  (match walker.graph.labelOf target with
  | .variableExpression | .arrayLoadExpression => []
  | _ => (walker.graph.children target).flatMap walker.graph.postOrder) ++ [target]

/-- An argument that sets a field of a record is not evaluated itself, nor is the name of the field. -/
def overlookedField (arg : VertexId) : List VertexId :=
  if (walker.fieldArgument? arg).isSome then (walker.graph.childAt? arg 0).toList.flatMap walker.graph.postOrder ++
    [arg] else []

/-- What is not evaluated of the arguments of a creation. -/
def overlookedArguments (expr : VertexId) : List VertexId :=
  let type := TypeName.canonical (walker.createdSpelling expr)
  let args := walker.graph.arguments expr
  if isArray (walker.createdSpelling expr) then args.flatMap walker.graph.postOrder
  else if TypeName.isCollection type || (walker.program.lookup? (walker.graph.enclosingType? expr) type).isSome then []
  else args.flatMap walker.overlookedField

/-- What the evaluation of an expression leaves out of what stands below it. -/
def overlookedBy (expr : VertexId) : List VertexId :=
  match walker.graph.labelOf expr with
  | .assignmentExpression => (walker.operands? expr).elim [] fun operands => walker.overlookedPlace operands.1
  | .prefixExpression | .postfixExpression =>
    (walker.graph.childAt? expr 0).elim [] fun operand => if walker.isStep expr then walker.overlookedPlace operand
    else []
  | .newObjectExpression => walker.overlookedArguments expr
  | _ => []

/-- What the evaluation of a vertex leaves out. -/
def overlookedAt (v : VertexId) : List VertexId := (walker.graph.evaluatedExpressions v).flatMap walker.overlookedBy

/-- The expression leaves out operands by its meaning: `&&`, `||` or a choice. -/
def isLazy (expr : VertexId) : Bool :=
  match walker.graph.labelOf expr with
  | .booleanExpression => walker.isShortCircuit expr
  | .ternaryExpression => true
  | _ => false

end

variable {walker : Walker σ}

theorem childrenWithLabel_eq_children {graph : CodeGraph} {v : VertexId} {kind : NodeKind}
    (h : ∀ c ∈ graph.children v, graph.labelOf c = kind) (hkind : kind ≠ .blockStatement) :
    graph.childrenWithLabel v kind = graph.children v := by
  refine filter_eq_self.mpr fun c hc => ?_
  have hlabel := h c hc
  rw [labelOf] at hlabel
  rw [CodeGraph.is_iff]
  cases hfound : graph.label? c with
  | none =>
    rw [hfound] at hlabel
    exact absurd hlabel.symm hkind
  | some found =>
    rw [hfound] at hlabel
    exact congrArg some hlabel

section
variable (operands : walker.graph.HasOperands)
include operands

theorem isExpression_of_child {expr : VertexId} (hlabel : walker.graph.labelOf expr = kind)
    (hkind : kind.evaluates = true) (hmap : kind ≠ .newMapLiteralExpression) : ∀ c ∈ walker.graph.children expr,
    (walker.graph.labelOf c).isExpression = true := by
  intro c hc
  have hmay := (operands.operandsAt expr).parts c hc
  rw [hlabel] at hmay
  exact NodeKind.isExpression_of_mayEvaluate hmay hkind hmap

theorem length_children {expr : VertexId} (hlabel : walker.graph.labelOf expr = kind) :
    kind.mayHave (walker.graph.children expr).length = true := by
  rw [← hlabel]
  exact (operands.operandsAt expr).count

theorem exists_child {expr : VertexId} (hlabel : walker.graph.labelOf expr = kind)
    (hone : ∀ n, kind.mayHave n = (n == 1)) : ∃ c, walker.graph.children expr = [c] ∧
    walker.graph.childAt? expr 0 = some c := by
  have hlength := length_children operands hlabel
  rw [hone, beq_iff_eq] at hlength
  obtain ⟨c, hc⟩ := length_eq_one_iff.mp hlength
  exact ⟨c, hc, by rw [childAt?, hc]; rfl⟩

theorem exists_operands {expr : VertexId} (hlabel : walker.graph.labelOf expr = kind)
    (htwo : ∀ n, kind.mayHave n = (n == 2)) : ∃ left right, walker.graph.children expr = [left, right] ∧
    walker.operands? expr = some (left, right) := by
  have hlength := length_children operands hlabel
  rw [htwo, beq_iff_eq] at hlength
  obtain ⟨left, right, hchildren⟩ := length_eq_two.mp hlength
  exact ⟨left, right, hchildren, by simp [operands?, childAt?, hchildren]⟩

section
variable {expr : VertexId}

theorem splits_operands {kind : NodeKind} (hlabel : walker.graph.labelOf expr = kind)
    (htwo : ∀ n, kind.mayHave n = (n == 2)) (hkind : kind.evaluates = true) (hmap : kind ≠ .newMapLiteralExpression) :
    walker.graph.Splits (walker.graph.children expr) (walker.operandParts expr) [] := by
  obtain ⟨left, right, hchildren, hoperands⟩ := exists_operands operands hlabel htwo
  have hsame : walker.operandParts expr = walker.graph.children expr := by
    rw [operandParts, hoperands, hchildren]
    rfl
  rw [hsame]
  exact .refl (isExpression_of_child operands hlabel hkind hmap)

theorem splits_operand (hlabel : walker.graph.labelOf expr = kind) (hone : ∀ n, kind.mayHave n = (n == 1))
    (hkind : kind.evaluates = true) (hmap : kind ≠ .newMapLiteralExpression) :
    walker.graph.Splits (walker.graph.children expr) (walker.graph.childAt? expr 0).toList [] := by
  obtain ⟨operand, hchildren, hfirst⟩ := exists_child operands hlabel hone
  have hsame : (walker.graph.childAt? expr 0).toList = walker.graph.children expr := by rw [hfirst, hchildren]; rfl
  rw [hsame]
  exact .refl (isExpression_of_child operands hlabel hkind hmap)

theorem splits_none (hlabel : walker.graph.labelOf expr = kind) (hzero : ∀ n, kind.mayHave n = (n == 0)) :
    walker.graph.Splits (walker.graph.children expr) [] [] := by
  have hlength := length_children operands hlabel
  rw [hzero, beq_iff_eq, length_eq_zero_iff] at hlength
  rw [hlength]
  exact .refl (by simp)

variable (forest : walker.graph.IsForest)
include forest

theorem splits_holder {holder : VertexId} (hexpr : (walker.graph.labelOf holder).isExpression = true) :
    walker.graph.Splits [holder] ((some holder).filter fun holder =>
    !(walker.graph.labelOf holder).isPlainReference).toList [] := by
  rw [Option.filter_some]
  split
  · exact .refl (by simpa using hexpr)
  · rename_i hplain
    exact .plain forest operands (by simpa using hplain)

theorem splits_qualifier (hlabel : walker.graph.labelOf expr = .variableExpression) :
    walker.graph.Splits (walker.graph.children expr) (walker.qualifierParts expr) [] := by
  obtain ⟨qualifier, hchildren, hfirst⟩ := exists_child operands hlabel fun _ => rfl
  rw [qualifierParts, qualifier?, hfirst, hchildren]
  refine splits_holder operands forest ?_
  exact isExpression_of_child operands hlabel rfl (by decide) qualifier (by simp [hchildren])

theorem splits_call (hlabel : walker.graph.labelOf expr = .methodCallExpression ∨
    walker.graph.labelOf expr = .thisMethodCallExpression ∨ walker.graph.labelOf expr = .superMethodCallExpression) :
    walker.graph.Splits (walker.graph.children expr) (walker.receiverParts expr ++ walker.graph.arguments expr) [] := by
  have hexprs : ∀ c ∈ walker.graph.children expr, (walker.graph.labelOf c).isExpression = true := by
    rcases hlabel with hlabel | hlabel | hlabel <;> exact isExpression_of_child operands hlabel rfl (by decide)
  rw [receiverParts, receiver?, arguments]
  split
  · rw [childAt?]
    cases hchildren : walker.graph.children expr with
    | nil => exact .refl (by simp)
    | cons receiver args =>
      rw [hchildren] at hexprs
      obtain ⟨hreceiver, hargs⟩ := forall_mem_cons.mp hexprs
      exact (splits_holder operands forest hreceiver).append (.refl hargs)
  · exact .refl hexprs

theorem splits_place : walker.graph.Splits [target] (walker.placeParts target) (walker.overlookedPlace target) := by
  rw [placeParts, overlookedPlace]
  cases hlabel : walker.graph.labelOf target
  case variableExpression => exact (splits_qualifier operands forest hlabel).inside forest
  case arrayLoadExpression => exact (splits_operands operands hlabel (fun _ => rfl) rfl (by decide)).inside forest
  all_goals exact (Splits.all (walker.graph.children target)).inside forest

theorem splits_unary (hlabel : walker.graph.labelOf expr = kind) (hone : ∀ n, kind.mayHave n = (n == 1))
    (hkind : kind.evaluates = true) (hmap : kind ≠ .newMapLiteralExpression) :
    walker.graph.Splits (walker.graph.children expr) ((walker.graph.childAt? expr 0).elim [] fun operand =>
    if walker.isStep expr then walker.placeParts operand else [operand])
      ((walker.graph.childAt? expr 0).elim [] fun operand => if walker.isStep expr then walker.overlookedPlace operand
      else []) := by
  obtain ⟨operand, hchildren, hfirst⟩ := exists_child operands hlabel hone
  have hexprs := isExpression_of_child operands hlabel hkind hmap
  rw [hfirst, Option.elim_some, Option.elim_some]
  rw [hchildren] at hexprs ⊢
  split
  · exact splits_place operands forest
  · exact .refl hexprs

theorem splits_assignment (hlabel : walker.graph.labelOf expr = .assignmentExpression) :
    walker.graph.Splits (walker.graph.children expr) ((walker.operands? expr).elim [] fun operands =>
    walker.placeParts operands.1 ++ [operands.2])
    ((walker.operands? expr).elim [] fun operands => walker.overlookedPlace operands.1) := by
  obtain ⟨target, source, hchildren, hoperands⟩ := exists_operands operands hlabel fun _ => rfl
  have hsource : (walker.graph.labelOf source).isExpression = true :=
    isExpression_of_child operands hlabel rfl (by decide) source (by simp [hchildren])
  rw [hoperands, Option.elim_some, Option.elim_some, hchildren]
  have hplace : walker.graph.Splits [target] (walker.placeParts target) (walker.overlookedPlace target) :=
    splits_place operands forest
  have hboth := hplace.append (.refl (forall_mem_singleton.mpr hsource))
  rwa [append_nil] at hboth

omit operands forest in
theorem exists_of_fieldArgument? {entry : String × VertexId} (h : walker.fieldArgument? arg = some entry) :
    walker.graph.is arg .assignmentExpression = true ∧ ∃ target, walker.graph.childAt? arg 0 = some target ∧
      walker.graph.is target .variableExpression = true ∧ walker.graph.childAt? arg 1 = some entry.2 := by
  obtain ⟨_, hguard, h⟩ := Option.bind_eq_some_iff.mp h
  obtain ⟨target, htarget, h⟩ := Option.bind_eq_some_iff.mp h
  obtain ⟨hfirst, hvariable⟩ := Option.filter_eq_some_iff.mp htarget
  obtain ⟨name, -, h⟩ := Option.bind_eq_some_iff.mp h
  obtain ⟨value, hvalue, h⟩ := Option.bind_eq_some_iff.mp h
  cases h
  refine ⟨?_, target, hfirst, hvariable, hvalue⟩
  by_contra hnot
  rw [guard, if_neg hnot] at hguard
  cases hguard

omit operands forest in
theorem labelOf_eq_of_is (h : walker.graph.is v kind = true) : walker.graph.labelOf v = kind :=
  CodeGraph.labelOf_eq (walker.graph.is_iff.mp h)

theorem splits_field (hexpr : (walker.graph.labelOf arg).isExpression = true) :
    walker.graph.Splits [arg] [walker.fieldPart arg] (walker.overlookedField arg) := by
  rw [fieldPart, overlookedField]
  cases hfield : walker.fieldArgument? arg with
  | none => exact .refl (by simpa using hexpr)
  | some entry =>
    obtain ⟨hassigns, target, hfirst, -, hsecond⟩ := exists_of_fieldArgument? hfield
    have hlabel := labelOf_eq_of_is hassigns
    obtain ⟨left, right, hchildren, -⟩ := exists_operands operands hlabel fun _ => rfl
    rw [childAt?, hchildren] at hfirst hsecond
    obtain rfl : left = target := Option.some.inj hfirst
    obtain rfl : right = entry.2 := Option.some.inj hsecond
    have hright : (walker.graph.labelOf entry.2).isExpression = true :=
      isExpression_of_child operands hlabel rfl (by decide) entry.2 (by simp [hchildren])
    have hboth := (Splits.all [left]).append (Splits.refl (forall_mem_singleton.mpr hright))
    rw [append_nil, nil_append, show [left] ++ [entry.2] = walker.graph.children arg from hchildren.symm] at hboth
    rw [childAt?, hchildren]
    exact hboth.inside forest

theorem splits_creation (hlabel : walker.graph.labelOf expr = .newObjectExpression) :
    walker.graph.Splits (walker.graph.children expr) (walker.creationParts expr) (walker.overlookedArguments expr) := by
  have hexprs := isExpression_of_child operands hlabel rfl (by decide)
  have hargs : walker.graph.arguments expr = walker.graph.children expr := by
    rw [arguments, if_neg]
    intro hcall
    rw [labelOf_eq_of_is hcall] at hlabel
    cases hlabel
  rw [creationParts, overlookedArguments, hargs]
  split
  · exact .all _
  split
  · exact .refl hexprs
  · rw [map_eq_flatMap]
    exact .flatMap fun arg harg => splits_field operands forest (hexprs arg harg)

theorem splits_entries (hlabel : walker.graph.labelOf expr = .newMapLiteralExpression) :
    walker.graph.Splits (walker.graph.children expr) ((walker.writtenEntries expr).flatMap fun entry =>
    [entry.1, entry.2]) [] := by
  have hentries : ∀ entry ∈ walker.graph.children expr, walker.graph.labelOf entry = .mapEntryNode := by
    intro entry hentry
    have hmay := (operands.operandsAt expr).parts entry hentry
    rw [hlabel] at hmay
    exact beq_iff_eq.mp hmay
  rw [writtenEntries, childrenWithLabel_eq_children hentries (by decide), filterMap_eq_flatMap_toList, flatMap_assoc]
  have hnone : ((walker.graph.children expr).flatMap fun _ => ([] : List VertexId)) = [] :=
    flatMap_eq_nil_iff.mpr fun _ _ => rfl
  refine (congrArg (walker.graph.Splits _ _) hnone).mp (.flatMap fun entry hentry => ?_)
  obtain ⟨key, value, hchildren, hoperands⟩ := exists_operands operands (hentries entry hentry) fun _ => rfl
  obtain ⟨hkey, hvalue⟩ := exists_of_operands? hoperands
  rw [hkey, hvalue]
  refine Splits.inside_idle forest ?_ (by rw [hentries entry hentry]; rfl)
  rw [hchildren]
  refine .refl ?_
  rw [← hchildren]
  exact isExpression_of_child operands (hentries entry hentry) rfl (by decide)

/-- The parts of an expression and what it leaves out make up what stands below it. -/
theorem splits_parts (hexpr : (walker.graph.labelOf expr).isExpression = true) (hlazy : walker.isLazy expr = false) :
    walker.graph.Splits (walker.graph.children expr) (walker.parts true expr) (walker.overlookedBy expr) := by
  rw [isLazy] at hlazy
  rw [parts, overlookedBy]
  cases hlabel : walker.graph.labelOf expr
  case variableExpression => exact splits_qualifier operands forest hlabel
  case methodCallExpression => exact splits_call operands forest (.inl hlabel)
  case thisMethodCallExpression => exact splits_call operands forest (.inr (.inl hlabel))
  case superMethodCallExpression => exact splits_call operands forest (.inr (.inr hlabel))
  case newObjectExpression => exact splits_creation operands forest hlabel
  case newListLiteralExpression | newSetLiteralExpression =>
    exact .refl (isExpression_of_child operands hlabel rfl (by decide))
  case newMapLiteralExpression => exact splits_entries operands forest hlabel
  case binaryExpression | arrayLoadExpression => exact splits_operands operands hlabel (fun _ => rfl) rfl (by decide)
  case booleanExpression =>
    dsimp only
    rw [Bool.not_true, Bool.and_false, if_neg Bool.false_ne_true]
    exact splits_operands operands hlabel (fun _ => rfl) rfl (by decide)
  case prefixExpression | postfixExpression => exact splits_unary operands forest hlabel (fun _ => rfl) rfl (by decide)
  case assignmentExpression => exact splits_assignment operands forest hlabel
  case ternaryExpression =>
    rw [hlabel] at hlazy
    cases hlazy
  case castExpression | instanceOfExpression => exact splits_operand operands hlabel (fun _ => rfl) rfl (by decide)
  all_goals first
    | exact splits_none operands hlabel fun _ => rfl
    | rw [hlabel] at hexpr
      exact absurd hexpr (by decide)

/-! ## What a vertex evaluates -/

omit forest in
theorem splits_atMostOne (hlabel : walker.graph.labelOf v = kind) (hfew : ∀ n, kind.mayHave n = decide (n ≤ 1))
    (hkind : kind.evaluates = true) (hmap : kind ≠ .newMapLiteralExpression) :
    walker.graph.Splits (walker.graph.children v) (walker.graph.childAt? v 0).toList [] := by
  have hlength := length_children operands hlabel
  rw [hfew, decide_eq_true_eq] at hlength
  have hsame : (walker.graph.childAt? v 0).toList = walker.graph.children v := by
    rw [childAt?]
    cases hchildren : walker.graph.children v with
    | nil => rfl
    | cons c rest =>
      rw [hchildren, length_cons] at hlength
      rw [eq_nil_of_length_eq_zero (by omega : rest.length = 0)]
      rfl
  rw [hsame]
  exact .refl (isExpression_of_child operands hlabel hkind hmap)

theorem splits_declarations (hlabel : walker.graph.labelOf v = .variableDeclarationStatements) :
    walker.graph.Splits (walker.graph.children v)
      (if ((walker.graph.parent? v).filter (walker.graph.is · .forEachStatement)).isSome then []
      else (walker.graph.childrenWithLabel v .variableDeclaration).filterMap (walker.graph.childAt? · 0)) [] := by
  have hdeclared := (operands.operandsAt v).declares hlabel
  have hnone : ((walker.graph.children v).flatMap fun _ => ([] : List VertexId)) = [] :=
    flatMap_eq_nil_iff.mpr fun _ _ => rfl
  have hidle : ∀ declaration ∈ walker.graph.children v, (walker.graph.labelOf declaration).isComputed = false := by
    intro declaration hdeclaration
    rw [hdeclared declaration hdeclaration]
    rfl
  split
  · rename_i hloop
    obtain ⟨p, hp⟩ := Option.isSome_iff_exists.mp hloop
    obtain ⟨hparent, hforEach⟩ := Option.filter_eq_some_iff.mp hp
    have hbare := (operands.operandsAt p).elements (labelOf_eq_of_is hforEach) v (operands.mem_children hparent) hlabel
    have hall : walker.graph.Splits (walker.graph.children v) ((walker.graph.children v).flatMap fun _ => [])
        ((walker.graph.children v).flatMap fun _ => []) := by
      refine .flatMap fun declaration hdeclaration => Splits.inside_idle forest ?_ (hidle declaration hdeclaration)
      rw [hbare declaration hdeclaration]
      exact .refl (by simp)
    rwa [hnone] at hall
  · rw [childrenWithLabel_eq_children hdeclared (by decide), filterMap_eq_flatMap_toList]
    refine (congrArg (walker.graph.Splits _ _) hnone).mp (.flatMap fun declaration hdeclaration => ?_)
    exact (splits_atMostOne operands (hdeclared declaration hdeclaration) (fun _ => rfl) rfl (by decide)).inside_idle
      forest (hidle declaration hdeclaration)

/-- What is evaluated at a vertex makes up its evaluated expressions. -/
theorem splits_vertexParts (hupdate : walker.isUpdate v = false) :
    walker.graph.Splits (walker.graph.evaluatedRoots v) (walker.vertexParts v) [] := by
  have hexprs : ∀ {kind : NodeKind}, walker.graph.labelOf v = kind → kind.evaluates = true →
    kind ≠ .newMapLiteralExpression →
      walker.graph.Splits (walker.graph.children v) ((walker.graph.children v).filter fun c =>
      (walker.graph.labelOf c).isExpression) [] := by
    intro kind hlabel hkind hmap
    have hall := isExpression_of_child operands hlabel hkind hmap
    rw [filter_eq_self.mpr hall]
    exact .refl hall
  rw [vertexParts, evaluatedRoots]
  cases hlabel : walker.graph.labelOf v
  case variableDeclarationStatements => exact splits_declarations operands forest hlabel
  case expressionStatement =>
    rw [hupdate]
    exact splits_atMostOne operands hlabel (fun _ => rfl) rfl (by decide)
  case returnStatement => exact splits_atMostOne operands hlabel (fun _ => rfl) rfl (by decide)
  case standardCondition => exact splits_operand operands hlabel (fun _ => rfl) rfl (by decide)
  case forEachStatement =>
    dsimp only
    rw [iterable?, hlabel]
    exact .refl fun c hc => (operands.operandsAt v).iterable hlabel c (Option.mem_toList.mp hc)
  case throwStatement | dmlInsertStatement | dmlUpdateStatement | dmlUpsertStatement | dmlDeleteStatement |
      dmlUndeleteStatement | dmlMergeStatement => exact hexprs hlabel rfl (by decide)
  all_goals first
    | exact .refl (forall_mem_nil _)
    | exact .refl (forall_mem_singleton.mpr (by rw [hlabel]; rfl))

end

end

/-! ## What is left out below what is left out -/

section
variable (forest : walker.graph.IsForest)
include forest

theorem mem_postOrder_of_mem_children {c : VertexId} (hc : c ∈ walker.graph.children v)
    (hx : x ∈ walker.graph.postOrder c) : x ∈ walker.graph.postOrder v := (mem_postOrder forest).mpr (.inr ⟨c, hc, hx⟩)

theorem mem_subtrees_trans {tops : List VertexId} (hop : op ∈ tops.flatMap walker.graph.postOrder)
    (hx : x ∈ walker.graph.postOrder op) : x ∈ tops.flatMap walker.graph.postOrder := by
  obtain ⟨top, htop, hop⟩ := mem_flatMap.mp hop
  exact mem_flatMap.mpr ⟨top, htop, postOrder_trans forest hx hop⟩

theorem overlookedPlace_subset (h : x ∈ walker.overlookedPlace target) : x ∈ walker.graph.postOrder target := by
  rw [overlookedPlace] at h
  rcases mem_append.mp h with h | h
  · have hbelow : x ∈ (walker.graph.children target).flatMap walker.graph.postOrder := by
      split at h
      · cases h
      · cases h
      · exact h
    obtain ⟨c, hc, hx⟩ := mem_flatMap.mp hbelow
    exact mem_postOrder_of_mem_children forest hc hx
  · rw [mem_singleton.mp h]
    exact self_mem_postOrder forest target

theorem overlookedField_subset (h : x ∈ walker.overlookedField arg) : x ∈ walker.graph.postOrder arg := by
  rw [overlookedField] at h
  split at h
  · rcases mem_append.mp h with h | h
    · obtain ⟨target, htarget, hx⟩ := mem_flatMap.mp h
      exact mem_postOrder_of_mem_children forest (CodeGraph.mem_children_of_childAt? (Option.mem_toList.mp htarget)) hx
    · rw [mem_singleton.mp h]
      exact self_mem_postOrder forest arg
  · cases h

theorem overlookedBy_below {expr : VertexId} (h : x ∈ walker.overlookedBy expr) :
    ∃ c ∈ walker.graph.children expr, x ∈ walker.graph.postOrder c := by
  rw [overlookedBy] at h
  split at h
  · cases hoperands : walker.operands? expr with
    | none =>
      rw [hoperands] at h
      cases h
    | some operands =>
      rw [hoperands] at h
      exact ⟨operands.1, CodeGraph.mem_children_of_childAt? (exists_of_operands? hoperands).1,
        overlookedPlace_subset forest h⟩
  iterate 2
    · cases hoperand : walker.graph.childAt? expr 0 with
      | none =>
        rw [hoperand] at h
        cases h
      | some operand =>
        rw [hoperand, Option.elim_some] at h
        split at h
        · exact ⟨operand, CodeGraph.mem_children_of_childAt? hoperand, overlookedPlace_subset forest h⟩
        · cases h
  · rw [overlookedArguments] at h
    split at h
    · obtain ⟨arg, harg, hx⟩ := mem_flatMap.mp h
      exact ⟨arg, CodeGraph.mem_children_of_mem_arguments harg, hx⟩
    split at h
    · cases h
    · obtain ⟨arg, harg, hx⟩ := mem_flatMap.mp h
      exact ⟨arg, CodeGraph.mem_children_of_mem_arguments harg, overlookedField_subset forest hx⟩
  · cases h

theorem overlookedBy_subset {expr : VertexId} (h : x ∈ walker.overlookedBy expr) : x ∈ walker.graph.postOrder expr := by
  obtain ⟨c, hc, hx⟩ := overlookedBy_below forest h
  exact mem_postOrder_of_mem_children forest hc hx

theorem overlookedPlace_closed (hop : op ∈ walker.overlookedPlace target) (hx : x ∈ walker.overlookedBy op) :
    x ∈ walker.overlookedPlace target := by
  rw [overlookedPlace] at hop ⊢
  refine mem_append_left _ ?_
  rcases mem_append.mp hop with hop | hop
  · split at hop
    · cases hop
    · cases hop
    · exact mem_subtrees_trans forest hop (overlookedBy_subset forest hx)
  · rw [mem_singleton.mp hop] at hx
    -- Variables and elements leave nothing out themselves.
    split
    · rename_i hlabel
      rw [overlookedBy, hlabel] at hx
      cases hx
    · rename_i hlabel
      rw [overlookedBy, hlabel] at hx
      cases hx
    · exact mem_flatMap.mpr (overlookedBy_below forest hx)

theorem overlookedField_closed (hop : op ∈ walker.overlookedField arg) (hx : x ∈ walker.overlookedBy op) :
    x ∈ walker.overlookedField arg := by
  rw [overlookedField] at hop ⊢
  split at hop
  · rename_i hsome
    rw [if_pos hsome]
    refine mem_append_left _ ?_
    rcases mem_append.mp hop with hop | hop
    · exact mem_subtrees_trans forest hop (overlookedBy_subset forest hx)
    · rw [mem_singleton.mp hop, overlookedBy] at hx
      obtain ⟨entry, hentry⟩ := Option.isSome_iff_exists.mp hsome
      obtain ⟨hassigns, target, hfirst, -, hsecond⟩ := exists_of_fieldArgument? hentry
      rw [labelOf_eq_of_is hassigns] at hx
      rw [hfirst, Option.toList_some, flatMap_singleton]
      have hoperands : walker.operands? arg = some (target, entry.2) := by simp [operands?, hfirst, hsecond]
      rw [hoperands] at hx
      exact overlookedPlace_subset forest hx
  · cases hop

/-- What is left out below what an expression leaves out is left out by that expression as well. -/
theorem overlookedBy_closed {expr : VertexId} (hop : op ∈ walker.overlookedBy expr) (hx : x ∈ walker.overlookedBy op) :
    x ∈ walker.overlookedBy expr := by
  rw [overlookedBy] at hop ⊢
  cases hlabel : walker.graph.labelOf expr
  case assignmentExpression =>
    rw [hlabel] at hop
    dsimp only at hop ⊢
    cases hoperands : walker.operands? expr with
    | none =>
      rw [hoperands] at hop
      cases hop
    | some operands =>
      rw [hoperands] at hop
      exact overlookedPlace_closed forest hop hx
  case prefixExpression | postfixExpression =>
    rw [hlabel] at hop
    dsimp only at hop ⊢
    cases hoperand : walker.graph.childAt? expr 0 with
    | none =>
      rw [hoperand] at hop
      cases hop
    | some operand =>
      rw [hoperand, Option.elim_some] at hop
      rw [Option.elim_some]
      split at hop
      · rw [if_pos ‹_›]
        exact overlookedPlace_closed forest hop hx
      · cases hop
  case newObjectExpression =>
    rw [hlabel] at hop
    dsimp only at hop ⊢
    rw [overlookedArguments] at hop ⊢
    split at hop
    · rw [if_pos ‹_›]
      exact mem_subtrees_trans forest hop (overlookedBy_subset forest hx)
    rw [if_neg ‹_›]
    split at hop
    · cases hop
    · rw [if_neg ‹_›]
      obtain ⟨arg, harg, hop⟩ := mem_flatMap.mp hop
      exact mem_flatMap.mpr ⟨arg, harg, overlookedField_closed forest hop hx⟩
  all_goals
    rw [hlabel] at hop
    cases hop

omit forest in
theorem isComputed_of_mem_overlookedBy (hx : x ∈ walker.overlookedBy op) :
    (walker.graph.labelOf op).isComputed = true := by
  rw [overlookedBy] at hx
  cases hlabel : walker.graph.labelOf op <;> rw [hlabel] at hx <;> first | rfl | cases hx

end

end Walker

end ApexPaths
