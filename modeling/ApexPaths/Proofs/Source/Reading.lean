import ApexPaths.Proofs.Source.Shape
import ApexPaths.Proofs.Source.Yields
import ApexPaths.Source.Unit

/-!
Expressions as they are read: every tree that a reader of an expression yields is well shaped and of the kinds
that its place allows.
-/

set_option autoImplicit false

namespace ApexPaths

/-- Kinds of which more is known as they are read than in completed trees. -/
def NodeKind.isCounted : NodeKind → Bool
  | .forEachStatement | .tryCatchFinallyBlockStatement | .expressionStatement | .method | .literalExpression => true
  | _ => false

namespace Source.Tree

def literalTags : List String :=
  [Reserved.literalString, Reserved.literalInteger, Reserved.literalLong, Reserved.literalDecimal, Reserved.literalTrue,
    Reserved.literalFalse, Reserved.literalNull]

/-- A method has a plain name, or the one that stands for constructors. -/
def IsMethodName (name : String) : Prop := TypeName.IsName name.toList ∨ name = Reserved.constructorName

/-- What is known of a node as it is read, beside the kinds of its children. -/
def Exact (tree : Tree) : Prop :=
  match tree.kind with
  | .forEachStatement => ∀ declaration ∈ tree.children.head?, declaration.children.length = 1
  | .tryCatchFinallyBlockStatement => 2 ≤ tree.children.length
  | .expressionStatement => tree.children.length = 1
  | .method =>
    ∃ params body, tree.children = params ++ Option.toList body ∧ (∀ param ∈ params, param.kind = .parameter) ∧
      (∀ block ∈ body, block.kind = .blockStatement) ∧ tree.props.get? (.fact .arity) = some (.int params.length) ∧
      tree.props.get? (.fact .isAbstract) = some (.flag body.isNone) ∧
      tree.props.written (.fact .arity) = some (.int params.length) ∧
      ∃ name, tree.props.written (.spelled .name) = some (.text name) ∧ IsMethodName name
  | .literalExpression => ∃ tag ∈ literalTags, tree.props.written (.fact .literalType) = some (.text tag)
  | _ => True

theorem Exact.of_uncounted {tree : Tree} (h : tree.kind.isCounted = false) : tree.Exact := by
  rw [Exact]
  generalize tree.kind = kind at h
  cases kind <;> trivial

/-- The tree is well shaped, and exact at every node. -/
def Read (tree : Tree) : Prop := tree.Well false ∧ ∀ node ∈ tree.nodes, node.Exact

theorem read_iff {tree : Tree} : tree.Read ↔ tree.Formed false ∧ tree.Exact ∧ ∀ child ∈ tree.children, child.Read := by
  constructor
  · rintro ⟨hwell, hexact⟩
    refine ⟨hwell.formed, hexact tree tree.self_mem_nodes, fun child hchild =>
      ⟨hwell.child hchild, fun node hnode => ?_⟩⟩
    exact hexact node (mem_nodes.mpr (.inr ⟨child, hchild, hnode⟩))
  · rintro ⟨hformed, hexact, hchildren⟩
    refine ⟨well_iff.mpr ⟨hformed, fun child hchild => (hchildren child hchild).1⟩, fun node hnode => ?_⟩
    rcases mem_nodes.mp hnode with rfl | ⟨child, hchild, hnode⟩
    · exact hexact
    · exact (hchildren child hchild).2 node hnode

end Source.Tree

end ApexPaths

namespace ApexPaths.Source.Reader

open NodeKind

variable {kinds : NodeKind → Bool} {tree : Tree}

/-! ## Trees -/

/-- A well-shaped tree as it is read, of one of some kinds. -/
def Is (kinds : NodeKind → Bool) (tree : Tree) : Prop := kinds tree.kind = true ∧ tree.Read

theorem Is.imp {kinds' : NodeKind → Bool} (himp : ∀ kind, kinds kind = true → kinds' kind = true)
    (h : Is kinds tree) : Is kinds' tree := ⟨himp _ h.1, h.2⟩

theorem Is.operand (h : Is isExpression tree) : Is isOperand tree := by
  refine h.imp fun kind hk => ?_
  cases kind <;> first | rfl | exact hk

theorem Is.typed (hkind : kinds tree.kind = true) (hkeys : Tree.FreeKeys tree.props)
    (hcounted : tree.kind.isCounted = false) (hspells : Tree.Spells tree.props)
    (hholds : Tree.Holds false tree.kind tree.props tree.children)
    (hapt : Tree.Apt tree.kind tree.props tree.children) (hchildren : ∀ child ∈ tree.children, child.Read) :
    Is kinds tree :=
  ⟨hkind, Tree.read_iff.mpr ⟨⟨hkeys, hholds, fun _ => hspells, hapt⟩, .of_uncounted hcounted, hchildren⟩⟩

theorem Is.counted (hkind : kinds tree.kind = true) (hkeys : Tree.FreeKeys tree.props)
    (hplain : (tree.kind.isTyped || tree.kind.evaluates) = false)
    (hholds : Tree.Holds false tree.kind tree.props tree.children)
    (hexact : tree.Exact) (hchildren : ∀ child ∈ tree.children, child.Read) : Is kinds tree :=
  ⟨hkind, Tree.read_iff.mpr ⟨.of_plain hkeys hholds hplain, hexact, hchildren⟩⟩

theorem Is.node (hkind : kinds tree.kind = true) (hkeys : Tree.FreeKeys tree.props)
    (hplain : (tree.kind.isTyped || tree.kind.evaluates || tree.kind.isCounted) = false)
    (hholds : Tree.Holds false tree.kind tree.props tree.children) (hchildren : ∀ child ∈ tree.children, child.Read) :
    Is kinds tree :=
  .counted hkind hkeys (Bool.or_eq_false_iff.mp hplain).1 hholds
  (.of_uncounted (Bool.or_eq_false_iff.mp hplain).2) hchildren

/-- Parts of expressions and plain statements, without those that declare. -/
def isLeaf (kind : NodeKind) : Bool :=
  (kind.isPart || kind.isSimple && kind != .variableDeclarationStatements) && !kind.isTyped

theorem Is.operation (hkind : kinds tree.kind = true) (hkeys : Tree.FreeKeys tree.props)
    (hleaf : isLeaf tree.kind = true) (hapt : Tree.Apt tree.kind tree.props tree.children) (hexact : tree.Exact)
    (hchildren : ∀ child ∈ tree.children, Is isOperand child) : Is kinds tree := by
  refine ⟨hkind,
    Tree.read_iff.mpr ⟨.of_untyped hkeys ?_ hapt ?_, hexact, fun child hchild => (hchildren child hchild).2⟩⟩
  · have h : ∀ child ∈ tree.children, child.kind.isOperand = true := fun child hchild => (hchildren child hchild).1
    cases hk : tree.kind <;> first | exact h | exact absurd hleaf (by rw [hk]; decide)
  · simpa using (Bool.and_eq_true_iff.mp hleaf).2

/-- The numbers of children that a node of a kind may have as it is read. -/
def mayRead (kind : NodeKind) (n : Nat) : Bool := kind.mayHave n && (kind != .expressionStatement || n == 1)

theorem Is.leaf (hkind : kinds tree.kind = true) (hkeys : Tree.FreeKeys tree.props)
    (hleaf : (isLeaf tree.kind && tree.kind != .newObjectExpression && tree.kind != .newMapLiteralExpression &&
      tree.kind != .literalExpression) = true)
    (hcount : mayRead tree.kind tree.children.length = true) (hchildren : ∀ child ∈ tree.children,
    Is isExpression child) :
    Is kinds tree := by
  simp only [Bool.and_eq_true, bne_iff_ne, ne_eq] at hleaf
  obtain ⟨⟨⟨hleaf, hobject⟩, hmap⟩, hliteral⟩ := hleaf
  obtain ⟨hcount, hone⟩ := Bool.and_eq_true_iff.mp hcount
  refine .operation hkind hkeys hleaf ⟨hcount, fun child hchild => ?_, fun h => absurd h hobject⟩ ?_
    fun child hchild => (hchildren child hchild).operand
  · rw [mayEvaluate]
    · rw [(hchildren child hchild).1, Bool.or_true]
    · exact hmap
  · cases hcounted : tree.kind.isCounted with
    | false => exact .of_uncounted hcounted
    | true =>
      -- Of the counted kinds only expression statements hold operands, beside literals.
      have hk : tree.kind = .expressionStatement := by
        generalize tree.kind = kind at hleaf hcounted hliteral
        cases kind <;> first | rfl | exact absurd rfl hliteral | exact absurd hleaf (by decide)
                             | exact absurd hcounted (by decide)
      rw [Tree.Exact, hk]
      simpa [hk] using hone

/-! ## Names and types inside expressions -/

instance (n : Nat) : Steady (chainedNames n) := by
  induction n with
  | zero => exact inferInstanceAs (Steady (fail _))
  | succ n ih =>
    unfold chainedNames
    infer_instance

instance : Steady castHeader := by
  unfold castHeader
  infer_instance

/-! ## Expressions -/

theorem is_reference (start : Token) (names : List String) : Is isExpression (reference start names) := by
  rw [reference]
  split
  · exact .leaf rfl (by simp) rfl rfl (by simp)
  · exact .leaf rfl (by simp) rfl rfl (by simp)

theorem mem_literalTags {token : Token} {tag text : String} (h : literal? token = some (tag, text)) :
    tag ∈ Tree.literalTags := by
  have hword : ∀ {word : Bool} {tag' text' : String} {other : Option (String × String)}, tag' ∈ Tree.literalTags →
      (if word = true then some (tag', text') else other) = some (tag, text) → tag ∈ Tree.literalTags ∨
      other = some (tag, text) := by
    intro word tag' text' other htag hword
    cases word with
    | true => exact .inl ((Prod.mk.inj (Option.some.inj hword)).1 ▸ htag)
    | false => exact .inr hword
  unfold literal? at h
  split at h
  case h_5 =>
    refine (hword (by simp [Tree.literalTags]) h).elim id fun h => ?_
    refine (hword (by simp [Tree.literalTags]) h).elim id fun h => ?_
    exact (hword (by simp [Tree.literalTags]) h).elim id nofun
  all_goals
    obtain ⟨rfl, -⟩ := Prod.mk.inj (Option.some.inj h)
    simp [Tree.literalTags]

theorem is_literal (span : Span) {tag : String} (htag : tag ∈ Tree.literalTags) (text : String) :
    Is isExpression
      { kind := .literalExpression, span, props := [(.fact .literalType, .text tag), (.fact .value, .text text)] } :=
  .operation rfl (by simp) rfl ⟨rfl, by simp, noConfusion⟩ ⟨tag, htag, rfl⟩ (by simp)

theorem is_creation (span : Span) {ty : String} (hty : IsType ty) {args : List Tree}
    (hargs : ∀ arg ∈ args, Is isExpression arg) :
    Is isExpression
      { kind := .newObjectExpression, span, props := [(.spelled .type, .text ty)], children := args } := by
  refine .operation rfl (by simp) rfl ⟨rfl, fun arg harg => ?_, fun _ => ⟨ty, rfl, hty⟩⟩ trivial
    fun arg harg => (hargs arg harg).operand
  rw [mayEvaluate, (hargs arg harg).1, Bool.or_true]
  exact noConfusion

/-- The kinds of the entries that a collection is written with. -/
def entryKinds (isMap : Bool) : NodeKind → Bool := if isMap then (· == .mapEntryNode) else isExpression

theorem is_mapLiteral (span : Span) (ty : String) {entries : List Tree}
    (h : ∀ entry ∈ entries, Is (entryKinds true) entry) :
    Is isExpression
      { kind := .newMapLiteralExpression, span, props := [(.spelled .type, .text ty)], children := entries } :=
  .operation rfl (by simp) rfl ⟨rfl, fun entry hentry => (h entry hentry).1, noConfusion⟩ trivial
    fun entry hentry => (h entry hentry).imp fun kind hkind => by rw [eq_of_beq hkind]; rfl

section
variable {expr : Reader Tree} (h : Yields expr (Is isExpression))
include h

theorem yields_arguments : Yields (arguments expr) fun args => ∀ arg ∈ args, Is isExpression arg :=
  .after fun _ => .bind (.bounded (yields_itemsUntil h ")")) fun _ hargs => .after fun _ => .pure hargs

theorem yields_callOn (start : Token) (names : List String) (method : String) :
    Yields (callOn expr start names method) (Is isExpression) := by
  refine .bind (yields_arguments h) fun args hargs => .after fun span => .pure ?_
  exact .leaf rfl (by simp) rfl rfl (List.forall_mem_cons.mpr ⟨is_reference start names, hargs⟩)

theorem yields_nameChain : Yields (nameChain expr) (Is isExpression) := by
  refine .after fun start => .after fun first => .after fun names => .after fun called => ?_
  refine .ite (fun _ => yields_callOn h _ _ _) fun _ => .after fun dotted => .after fun next => ?_
  refine .ite (fun _ => .after fun _ => .after fun _ => .after fun span => .pure ?_) fun _ => ?_
  · exact .leaf rfl (by simp) rfl rfl (by simp)
  · refine .after fun dotted => .after fun next => .after fun called => .ite (fun _ => ?_) fun _ => .after fun span =>
      .pure ?_
    · exact .after fun _ => .after fun method => yields_callOn h _ _ _
    · exact .leaf rfl (by simp) rfl rfl (by simpa using is_reference _ _)

theorem yields_entry (isMap : Bool) : Yields (entry expr isMap) (Is (entryKinds isMap)) := by
  refine .after fun start => .bind h fun first hfirst => .ite (fun hmap => ?_) fun hmap => .pure ?_
  · refine .after fun _ => .bind h fun value hvalue => .after fun span => .pure ?_
    rw [entryKinds, if_pos hmap]
    exact .leaf rfl (by simp) rfl rfl (by simpa using ⟨hfirst, hvalue⟩)
  · rw [entryKinds, if_neg hmap]
    exact hfirst

theorem yields_construction : Yields (construction expr) (Is isExpression) := by
  refine .after fun start => .bind yields_typeName fun ty hty => .after fun sized => .ite (fun _ => ?_) fun _ =>
    .after fun called => ?_
  · refine .bind h fun _ _ => .after fun _ => .after fun span => .pure (is_creation span ?_ (by simp))
    rw [IsType, String.toList_append]
    exact .array hty
  refine .ite (fun _ => ?_) fun _ => ?_
  · exact .bind (yields_arguments h) fun args hargs => .after fun span => .pure (is_creation span hty hargs)
  · refine .after fun _ => .bind (.bounded (yields_itemsUntil (yields_entry h _) _)) fun entries hentries => ?_
    refine .after fun _ => .after fun span => .pure ?_
    split
    · rename_i hmap
      rw [hmap] at hentries
      exact is_mapLiteral span ty hentries
    · rename_i hmap
      rw [entryKinds, if_neg hmap] at hentries
      split
      · exact .leaf rfl (by simp) rfl rfl hentries
      · exact .leaf rfl (by simp) rfl rfl hentries

theorem yields_selfReference (start : Token) : Yields (selfReference expr start) (Is isExpression) := by
  refine .after fun _ => .after fun called => .ite (fun _ => ?_) fun _ => .after fun span => .pure ?_
  · refine .bind (yields_arguments h) fun args hargs => .after fun span => .pure ?_
    cases start.isWord "this" <;> exact .leaf rfl (by simp) rfl rfl hargs
  · cases start.isWord "this" <;> exact .leaf rfl (by simp) rfl rfl (by simp)

theorem yields_primary : Yields (primary expr) (Is isExpression) := by
  refine .after fun start => ?_
  split
  · rename_i hliteral
    exact .after fun _ => .after fun span => .pure (is_literal span (mem_literalTags hliteral) _)
  split
  · refine .after fun _ => .after fun span => .pure ?_
    exact .leaf rfl (by simp) rfl rfl (by simp)
  refine .after fun grouped => .ite (fun _ => ?_) fun _ => ?_
  · exact .bind h fun inner hinner => .after fun _ => .pure hinner
  refine .ite (fun _ => yields_selfReference h start) fun _ => .after fun next =>
    .ite (fun _ => yields_construction h) fun _ => ?_
  exact .ite (fun _ => yields_nameChain h) fun _ => .unexpected

theorem yields_postfixTail (start : Token) (n : Nat) : ∀ operand, Is isExpression operand →
    Yields (postfixTail expr start operand n) (Is isExpression) := by
  induction n with
  | zero => exact fun _ _ => .fail
  | succ n ih =>
    intro operand hoperand
    refine .after fun dotted => .after fun next => .ite (fun _ => ?_) fun _ => .after fun indexed =>
      .ite (fun _ => ?_) fun _ => ?_
    · refine .after fun _ => .after fun name => .after fun called => .ite (fun _ => ?_) fun _ => .after fun span =>
        ih _ ?_
      · refine .bind (yields_arguments h) fun args hargs => .after fun span => ih _ ?_
        exact .leaf rfl (by simp) rfl rfl (List.forall_mem_cons.mpr ⟨hoperand, hargs⟩)
      · exact .leaf rfl (by simp) rfl rfl (by simpa using hoperand)
    · refine .bind h fun index hindex => .after fun _ => .after fun span => ih _ ?_
      exact .leaf rfl (by simp) rfl rfl (by simpa using ⟨hoperand, hindex⟩)
    · refine .after fun op => ?_
      split
      · refine .after fun _ => .after fun span => ih _ ?_
        exact .leaf rfl (by simp) rfl rfl (by simpa using hoperand)
      · exact .pure hoperand

theorem yields_postfixExpression : Yields (postfixExpression expr) (Is isExpression) :=
  .after fun start => .bind (yields_primary h) fun operand hoperand => .bounded fun n =>
  yields_postfixTail h start n operand hoperand

/-! ## Operators -/

theorem yields_unaryOver (n : Nat) : Yields (unaryOver expr n) (Is isExpression) := by
  induction n with
  | zero => exact .fail
  | succ n ih =>
    refine .after fun start => .after fun op => ?_
    split
    · refine .after fun _ => .bind ih fun inner hinner => .after fun span => .pure ?_
      exact .leaf rfl (by simp) rfl rfl (by simpa using hinner)
    · refine .after fun grouped => .either Steady.yields Steady.yields fun cast _ => ?_
      cases cast with
      | none => exact h
      | some ty =>
        refine .bind ih fun inner hinner => .after fun span => .pure ?_
        exact .leaf rfl (by simp) rfl rfl (by simpa using hinner)

theorem yields_binaryTail (level : Level) (hlevel : level.kind = .booleanExpression ∨ level.kind = .binaryExpression)
    (start : Token) (n : Nat) : ∀ left, Is isExpression left →
    Yields (binaryTail level expr start left n) (Is isExpression) := by
  induction n with
  | zero => exact fun _ _ => .fail
  | succ n ih =>
    intro left hleft
    refine .after fun tested => .ite (fun _ => ?_) fun _ => .after fun op => ?_
    · refine .after fun _ => .after fun ty => .after fun span => ih _ ?_
      exact .leaf rfl (by simp) rfl rfl (by simpa using hleft)
    · split
      · refine .after fun _ => .bind h fun right hright => .after fun span => ih _ ?_
        have hchildren : ∀ tree ∈ [left, right], Is isExpression tree := by simpa using ⟨hleft, hright⟩
        rcases hlevel with hk | hk <;> rw [hk] <;> exact .leaf rfl (by simp) rfl rfl hchildren
      · exact .pure hleft

theorem yields_binaryOver : ∀ levels : List Level,
    (∀ level ∈ levels, level.kind = .booleanExpression ∨ level.kind = .binaryExpression) →
    Yields (binaryOver expr levels) (Is isExpression)
  | [], _ => h
  | level :: tighter, hlevels => by
    obtain ⟨hlevel, htighter⟩ := List.forall_mem_cons.mp hlevels
    have hoperand := yields_binaryOver tighter htighter
    exact .after fun start => .bind hoperand fun left hleft => .bounded fun n =>
      yields_binaryTail hoperand level hlevel start n left hleft

theorem yields_ternaryOver {operand : Reader Tree} (hoperand : Yields operand (Is isExpression)) (n : Nat) :
    Yields (ternaryOver expr operand n) (Is isExpression) := by
  induction n with
  | zero => exact .fail
  | succ n ih =>
    refine .after fun start => .bind hoperand fun condition hcondition => .after fun chosen => ?_
    refine .ite (fun _ => ?_) fun _ => .pure hcondition
    refine .bind h fun whenTrue htrue => .after fun _ => .bind ih fun whenFalse hfalse => .after fun span => .pure ?_
    exact .leaf rfl (by simp) rfl rfl (by simpa using ⟨hcondition, htrue, hfalse⟩)

theorem yields_unaryWith : Yields (unaryWith expr) (Is isExpression) :=
  .bounded (yields_unaryOver (yields_postfixExpression h))

theorem yields_expressionWith : Yields (expressionWith expr) (Is isExpression) := by
  have hbinary := yields_binaryOver (yields_unaryWith h) levels (by decide)
  refine .after fun start => .bind (.bounded (yields_ternaryOver h hbinary)) fun target htarget => .after fun op => ?_
  split
  · refine .after fun _ => .bind h fun value hvalue => .after fun span => .pure ?_
    exact .leaf rfl (by simp) rfl rfl (by simpa using ⟨htarget, hvalue⟩)
  · exact .pure htarget

end

theorem yields_expressionWithin (n : Nat) : Yields (expressionWithin n) (Is isExpression) := by
  induction n with
  | zero => exact .fail
  | succ n ih => exact yields_expressionWith ih

theorem yields_expression : Yields expression (Is isExpression) := .bounded yields_expressionWithin

theorem yields_unary : Yields unary (Is isExpression) := yields_unaryWith yields_expression

end ApexPaths.Source.Reader
