import ApexPaths.Proofs.Source.Reading

/-!
Statements, members and whole units as they are read: every tree of a source that is accepted is well
shaped. A single statement in place of a block is wrapped in one, so the bodies of branches and loops
are blocks throughout; only an `else` may be missing.
-/

set_option autoImplicit false

namespace ApexPaths.Source.Reader

open List NodeKind

variable {kind : NodeKind} {tree : Tree} {ty : String}

/-! ## Parts of statements -/

/-- A tree of exactly one kind. -/
abbrev IsKind (kind : NodeKind) : Tree → Prop := Is (· == kind)

theorem IsKind.kind_eq (h : IsKind kind tree) : tree.kind = kind := eq_of_beq h.1

/-- A block of statements without properties. -/
def IsBlock (tree : Tree) : Prop := IsKind .blockStatement tree ∧ tree.props = []

theorem IsBlock.loopBlocks (h : IsBlock tree) : Tree.LoopBlocks false [tree] :=
  ⟨tree, none, rfl, h.1.kind_eq, h.2, by simp, fun _ => rfl⟩

theorem Is.statement (hkind : kind.isStatement = true) (h : IsKind kind tree) :
    Is isStatement tree := ⟨h.kind_eq ▸ hkind, h.2⟩

theorem yields_localHeader (followers : List String) :
    Yields (localHeader followers) fun header => IsType header.1 := by
  refine .after fun _ => .bind yields_typeName fun ty hty => .after fun name => .after fun next => ?_
  exact .ite (fun _ => .pure hty) fun _ => .unexpected

theorem yields_typeCaseHeader : Yields typeCaseHeader fun header => IsType header.1 :=
  .bind yields_typeName fun _ hty => .after fun _ => .after fun _ => .ite (fun _ => .pure hty) fun _ => .unexpected

theorem spells_declarator (name : String) (hty : IsType ty) :
    Tree.Spells [(.spelled .name, .text name), (.spelled .type, .text ty)] := ⟨name, ty, rfl, rfl, rfl, hty⟩

theorem spells_clause (name : String) (hty : IsType ty) :
    Tree.Spells [(.spelled .type, .text ty), (.spelled .name, .text name)] := ⟨name, ty, rfl, rfl, rfl, hty⟩

theorem yields_declarators (kind : NodeKind) (hkind : kind = .variableDeclaration ∨ kind = .fieldDeclaration)
    (hty : IsType ty) (n : Nat) : ∀ start name, Yields (declarators kind ty start name n) fun trees => ∀ tree ∈ trees,
    IsKind kind tree := by
  induction n with
  | zero => exact fun _ _ => .fail
  | succ n ih =>
    intro start name
    have hdeclarator : ∀ span (initializer : Option Tree), (∀ tree ∈ initializer, Is isExpression tree) →
        IsKind kind { kind, span
                      props := [(.spelled .name, .text name), (.spelled .type, .text ty)]
                      children := initializer.toList } := by
      intro span initializer hinit
      have hinit : ∀ tree ∈ initializer.toList, Is isExpression tree :=
        fun tree htree => hinit tree (Option.mem_toList.mp htree)
      have hoperands : ∀ tree ∈ initializer.toList, tree.kind.isOperand = true :=
        fun tree htree => (hinit tree htree).operand.1
      have hcount : initializer.toList.length ≤ 1 := by cases initializer <;> simp
      refine .typed (by simp) (by simp) (by rcases hkind with rfl | rfl <;> rfl) (spells_declarator name hty) ?_ ?_
        fun tree htree => (hinit tree htree).2
      · rcases hkind with rfl | rfl <;> exact hoperands
      · rcases hkind with rfl | rfl
        · exact ⟨decide_eq_true hcount, fun tree htree => (hinit tree htree).1, noConfusion⟩
        · exact .of_idle rfl
    refine .after fun assigned => .ite (fun _ => .bind yields_expression fun value hvalue => .given ?_) fun _ =>
      .given ?_
    all_goals refine .after fun span => .after fun more =>
                .ite (fun _ => .after fun next => .after fun name => ?_) fun _ => .pure ?_
    · refine .bind (ih next name) fun rest hrest => .pure (forall_mem_cons.mpr ⟨hdeclarator _ (some value) ?_, hrest⟩)
      simpa using hvalue
    · simpa using hdeclarator span (some value) (by simpa using hvalue)
    · exact .bind (ih next name) fun rest hrest => .pure (forall_mem_cons.mpr ⟨hdeclarator _ none (by simp), hrest⟩)
    · simpa using hdeclarator span none (by simp)

theorem is_variableDeclarations (span : Span) (ty : String) {children : List Tree}
    (h : ∀ tree ∈ children, IsKind .variableDeclaration tree) : IsKind .variableDeclarationStatements
      { kind := .variableDeclarationStatements, span, props := [(.spelled .type, .text ty)], children } :=
  .node rfl (by simp) rfl (fun tree htree => (h tree htree).kind_eq) fun tree htree => (h tree htree).2

theorem yields_variableDeclarations (start : Token) (hty : IsType ty) (name : String) :
    Yields (variableDeclarations start ty name) (IsKind .variableDeclarationStatements) := by
  refine .bind (.bounded fun n => yields_declarators .variableDeclaration (.inl rfl) hty n start name)
    fun children hchildren => ?_
  exact .after fun span => .pure (is_variableDeclarations span ty hchildren)

theorem yields_condition : Yields condition (IsKind .standardCondition) :=
  .bind yields_expression fun expr hexpr => .pure (.leaf rfl (by simp) rfl rfl (by simpa using hexpr))

theorem yields_expressionPart : Yields expressionPart (IsKind .expressionStatement) :=
  .bind yields_expression fun expr hexpr => .pure (.leaf rfl (by simp) rfl rfl (by simpa using hexpr))

/-! ## Statements -/

section
variable {statement : Reader Tree} (h : Yields statement (Is isStatement))
include h

theorem yields_blockWith : Yields (blockWith statement) IsBlock := by
  refine .after fun start => .bind (.bounded (yields_itemsInBraces h)) fun children hchildren => .after fun span =>
    .pure ⟨?_, rfl⟩
  exact .node rfl (by simp) rfl (fun child hchild => (hchildren child hchild).1)
    fun child hchild => (hchildren child hchild).2

theorem yields_bodyWith : Yields (bodyWith statement) IsBlock := by
  refine .after fun opened => .ite (fun _ => yields_blockWith h) fun _ => .bind h fun inner hinner => .pure ⟨?_, rfl⟩
  exact .node rfl (by simp) rfl (by simpa [Tree.Holds] using hinner.1) (by simpa using hinner.2)

theorem yields_ifBranches (n : Nat) : Yields (ifBranches statement n) fun trees =>
    Tree.Holds false .ifElseBlockStatement [] trees ∧ ∀ tree ∈ trees, tree.Read := by
  induction n with
  | zero => exact .fail
  | succ n ih =>
    refine .after fun start => .after fun _ => .bind yields_condition fun test htest => .after fun _ => ?_
    refine .bind (yields_bodyWith h) fun body hbody => .after fun span => ?_
    have hbranch : IsKind .ifBlockStatement { kind := .ifBlockStatement, span, children := [test, body] } :=
      .node rfl (by simp) rfl ⟨test, body, rfl, htest.kind_eq, hbody.1.kind_eq⟩ (by simpa using ⟨htest.2, hbody.1.2⟩)
    refine .after fun more => .ite (fun _ => .after fun chained => .ite (fun _ => ?_) fun _ => ?_) fun _ => .pure ?_
    · refine .bind ih fun rest hrest => .pure ⟨?_, forall_mem_cons.mpr ⟨hbranch.2, hrest.2⟩⟩
      obtain ⟨branches, otherwise, rfl, -, hbranches, hotherwise⟩ := hrest.1
      exact ⟨_ :: branches, otherwise, rfl, cons_ne_nil _ _, forall_mem_cons.mpr ⟨rfl, hbranches⟩, hotherwise⟩
    · refine .bind (yields_bodyWith h) fun otherwise hotherwise =>
        .pure ⟨?_, by simpa using ⟨hbranch.2, hotherwise.1.2⟩⟩
      exact ⟨[_], some otherwise, rfl, cons_ne_nil _ _, by simp, by simpa using hotherwise.1.kind_eq⟩
    · exact ⟨⟨[_], none, rfl, cons_ne_nil _ _, by simp, by simp⟩, by simpa using hbranch.2⟩

theorem yields_ifStatement : Yields (ifStatement statement) (IsKind .ifElseBlockStatement) := by
  refine .after fun start => .bind (.bounded (yields_ifBranches h)) fun children hchildren =>
    .after fun span => .pure ?_
  exact .node rfl (by simp) rfl hchildren.1 hchildren.2

omit h in
theorem yields_whenCase : Yields whenCase (Is isOperand) := by
  refine .after fun start => .after fun next => .ite (fun _ => ?_) fun _ => ?_
  · exact .after fun name => .after fun span => .pure (.leaf rfl (by simp) rfl rfl (by simp))
  · refine .bind yields_unary fun value hvalue => .after fun span => .pure ?_
    exact .leaf rfl (by simp) rfl rfl (by simpa using hvalue)

theorem yields_whenBlock : Yields (whenBlock statement) (Is isWhenBlock) := by
  refine .after fun start => .after fun otherwise => .after fun next => .ite (fun _ => ?_) fun _ => ?_
  · refine .after fun _ => .bind (yields_blockWith h) fun body hbody => .after fun span => .pure ?_
    exact .node rfl (by simp) rfl ⟨[], body, rfl, by simp, hbody.1.kind_eq⟩ (by simpa using hbody.1.2)
  · refine .bind yields_typeCaseHeader.attempt fun header hheader => ?_
    split
    · refine .bind (yields_blockWith h) fun body hbody => .after fun span => .pure ?_
      exact .typed rfl (by simp) rfl (spells_clause _ (hheader _ rfl)) ⟨[], body, rfl, by simp, hbody.1.kind_eq⟩
        (.of_idle rfl) (by simpa using hbody.1.2)
    · refine .bind (.bounded (yields_commaSeparated yields_whenCase)) fun cases hcases => ?_
      refine .bind (yields_blockWith h) fun body hbody => .after fun span => .pure ?_
      refine .node rfl (by simp) rfl ⟨cases, body, rfl, fun case hcase => (hcases.2 case hcase).1, hbody.1.kind_eq⟩ ?_
      exact forall_mem_append.mpr ⟨fun case hcase => (hcases.2 case hcase).2, by simpa using hbody.1.2⟩

theorem yields_whenBlocks (n : Nat) : Yields (whenBlocks statement n) fun trees => ∀ tree ∈ trees,
    Is isWhenBlock tree := by
  induction n with
  | zero => exact .fail
  | succ n ih =>
    refine .after fun closed => .ite (fun _ => .pure (by simp)) fun _ =>
      .bind (yields_whenBlock h) fun first hfirst => ?_
    exact .bind ih fun rest hrest => .pure (forall_mem_cons.mpr ⟨hfirst, hrest⟩)

theorem yields_switchStatement : Yields (switchStatement statement) (IsKind .switchStatement) := by
  refine .after fun start => .after fun _ => .bind yields_expression fun subject hsubject => .after fun _ => ?_
  refine .bind (.bounded (yields_whenBlocks h)) fun whens hwhens => .after fun _ => .after fun span => .pure ?_
  refine .node rfl (by simp) rfl ⟨subject, whens, rfl, hsubject.1, fun clause hclause => (hwhens clause hclause).1⟩ ?_
  exact forall_mem_cons.mpr ⟨hsubject.2, fun clause hclause => (hwhens clause hclause).2⟩

theorem yields_forEachStatement (start header : Token) (hty : IsType ty) (name : String) :
    Yields (forEachStatement statement start header ty name) (IsKind .forEachStatement) := by
  refine .after fun span => .after fun _ => .bind yields_expression fun iterable hiterable => .after fun _ => ?_
  refine .bind (yields_bodyWith h) fun body hbody => .after fun whole => .pure ?_
  have hvariable : IsKind .variableDeclaration
      { kind := .variableDeclaration, span, props := [(.spelled .name, .text name), (.spelled .type, .text ty)] } :=
    .typed rfl (by simp) rfl (spells_declarator name hty) (by simp [Tree.Holds])
    ⟨rfl, by simp, noConfusion⟩ (by simp)
  have hdeclaration := is_variableDeclarations span ty (forall_mem_singleton.mpr hvariable)
  refine .counted rfl (by simp) rfl ⟨_, iterable, [body], rfl, ⟨rfl, by simp⟩, hiterable.1, hbody.loopBlocks⟩ ?_ ?_
  · exact fun declaration hfirst => Option.some.inj hfirst ▸ rfl
  simpa using ⟨hdeclaration.2, hiterable.2, hbody.1.2⟩

omit h in
theorem yields_loopInit (header : Token) : Yields (loopInit header) fun init => ∀ tree ∈ init,
    (tree.kind = .variableDeclarationStatements ∨ tree.kind = .expressionStatement) ∧ tree.Read := by
  refine .after fun missing => .ite (fun _ => .pure (by simp)) fun _ =>
    .bind (yields_localHeader _).attempt fun found hfound => ?_
  split
  · exact .bind (yields_variableDeclarations _ (hfound _ rfl) _) fun tree htree =>
      .pure (by simpa using ⟨.inl htree.kind_eq, htree.2⟩)
  · exact .bind yields_expressionPart fun tree htree => .pure (by simpa using ⟨.inr htree.kind_eq, htree.2⟩)

theorem yields_forLoopStatement (start header : Token) :
    Yields (forLoopStatement statement start header) (IsKind .forLoopStatement) := by
  refine .bind (yields_loopInit header) fun init hinit => .after fun _ => .after fun noTest => ?_
  have htests : Yields (some <$> condition) fun test => ∀ tree ∈ test, IsKind .standardCondition tree :=
    .map (yields_condition.imp fun tree htree => by simpa using htree)
  have hupdates : Yields (some <$> expressionPart) fun update => ∀ tree ∈ update, IsKind .expressionStatement tree :=
    .map (yields_expressionPart.imp fun tree htree => by simpa using htree)
  refine .either (.pure (by simp)) htests fun test htest => .after fun _ => .after fun noUpdate => ?_
  refine .either (.pure (by simp)) hupdates fun update hupdate => .after fun more =>
    .ite (fun _ => .unexpected) fun _ => ?_
  refine .after fun _ => .bind (yields_bodyWith h) fun body hbody => .after fun span => .pure ?_
  refine .node rfl (by simp) rfl ⟨init, test, update, [body], rfl, rfl, fun tree htree => (hinit tree htree).1,
    fun tree htree => (htest tree htree).kind_eq, fun tree htree => (hupdate tree htree).kind_eq, hbody.loopBlocks⟩ ?_
  simp only [forall_mem_append, Option.mem_toList, forall_mem_singleton]
  exact ⟨⟨⟨fun tree htree => (hinit tree htree).2, fun tree htree => (htest tree htree).2⟩,
    fun tree htree => (hupdate tree htree).2⟩, hbody.1.2⟩

theorem yields_forStatement : Yields (forStatement statement) (Is isStatement) := by
  refine .after fun start => .after fun _ => .after fun header =>
    .bind (yields_localHeader _).attempt fun found hfound => ?_
  split
  · exact (yields_forEachStatement h _ _ (hfound _ rfl) _).imp fun _ => .statement rfl
  · exact (yields_forLoopStatement h _ _).imp fun _ => .statement rfl

theorem yields_whileStatement : Yields (whileStatement statement) (IsKind .whileLoopStatement) := by
  refine .after fun start => .after fun _ => .bind yields_condition fun test htest => .after fun _ => ?_
  refine .bind (yields_bodyWith h) fun body hbody => .after fun span => .pure ?_
  exact .node rfl (by simp) rfl ⟨test, [body], rfl, htest.kind_eq, hbody.loopBlocks⟩
    (by simpa using ⟨htest.2, hbody.1.2⟩)

theorem yields_doStatement : Yields (doStatement statement) (IsKind .doLoopStatement) := by
  refine .after fun start => .bind (yields_blockWith h) fun body hbody => .after fun _ => .after fun _ => ?_
  refine .bind yields_condition fun test htest => .after fun _ => .after fun _ => .after fun span => .pure ?_
  exact .node rfl (by simp) rfl ⟨body, test, rfl, hbody.1.kind_eq, htest.kind_eq⟩
    (by simpa using ⟨hbody.1.2, htest.2⟩)

theorem yields_catchBlocks (n : Nat) : Yields (catchBlocks statement n) fun trees => ∀ tree ∈ trees,
    IsKind .catchBlockStatement tree := by
  induction n with
  | zero => exact .fail
  | succ n ih =>
    refine .after fun more => .ite (fun _ => ?_) fun _ => .pure (by simp)
    refine .after fun start => .after fun _ => .after fun _ => .bind yields_typeName fun ty hty => .after fun name =>
      .after fun _ => ?_
    refine .bind (yields_blockWith h) fun body hbody => .after fun span => .bind ih fun rest hrest => .pure ?_
    refine forall_mem_cons.mpr ⟨?_, hrest⟩
    exact .typed rfl (by simp) rfl (spells_clause name hty) ⟨body, rfl, hbody.1.kind_eq⟩ (.of_idle rfl)
      (by simpa using hbody.1.2)

theorem yields_tryStatement : Yields (tryStatement statement) (IsKind .tryCatchFinallyBlockStatement) := by
  refine .after fun start => .bind (yields_blockWith h) fun body hbody => ?_
  refine .bind (.bounded (yields_catchBlocks h)) fun catches hcatches => .after fun hasFinally => ?_
  have hbuilt : ∀ final : Option Tree, (∀ block ∈ final, IsBlock block) → catches ≠ [] ∨ final.isSome = true → ∀ span,
      IsKind .tryCatchFinallyBlockStatement
      { kind := .tryCatchFinallyBlockStatement, span, props := [(.fact .hasFinally, .flag final.isSome)],
        children := body :: catches ++ final.toList } := by
    intro final hfinal hhandles span
    refine .counted rfl (by simp) rfl ⟨body, catches, final, rfl, rfl, hbody.1.kind_eq,
      fun clause hclause => (hcatches clause hclause).kind_eq, fun block hblock =>
      (hfinal block hblock).1.kind_eq⟩ ?_ ?_
    · show 2 ≤ (body :: catches ++ final.toList).length
      rcases hhandles with hne | hsome
      · have hpos := length_pos_iff.mpr hne
        simp only [cons_append, length_cons, length_append]
        omega
      · obtain ⟨block, rfl⟩ := Option.isSome_iff_exists.mp hsome
        simp
    simp only [forall_mem_append, forall_mem_cons, Option.mem_toList]
    exact ⟨⟨hbody.1.2, fun clause hclause => (hcatches clause hclause).2⟩, fun block hblock =>
      (hfinal block hblock).1.2⟩
  refine .ite (fun hf => .bind (yields_blockWith h) fun block hblock => .given ?_) fun hf => .given ?_
  · refine .ite (fun _ => .unexpected) fun _ => .after fun span => .pure ?_
    rw [hf]
    exact hbuilt (some block) (by simpa using hblock) (.inr rfl) span
  · refine .ite (fun _ => .unexpected) fun hhandled => .after fun span => .pure ?_
    rw [Bool.eq_false_iff.mpr hf] at hhandled ⊢
    exact hbuilt none (by simp) (.inl (by simpa using hhandled)) span

end

theorem yields_returnStatement : Yields returnStatement (IsKind .returnStatement) := by
  refine .after fun start => .after fun ended => .ite (fun _ => .given ?_) fun _ =>
    .bind yields_expression fun value hvalue => .given ?_
  all_goals refine .after fun _ => .after fun span => .pure ?_
  · exact .leaf rfl (by simp) rfl rfl (by simp)
  · exact .leaf rfl (by simp) rfl rfl (by simpa using hvalue)

theorem yields_throwStatement : Yields throwStatement (IsKind .throwStatement) := by
  refine .after fun start => .bind yields_expression fun value hvalue => .after fun _ => .after fun span => .pure ?_
  exact .leaf rfl (by simp) rfl rfl (by simpa using hvalue)

theorem yields_jumpStatement : Yields jumpStatement (Is isStatement) := by
  refine .after fun start => .after fun _ => .after fun span => .pure ?_
  cases start.isWord "break" <;> exact .leaf rfl (by simp) rfl rfl (by simp)

theorem yields_recordOperation? : Yields recordOperation? fun found => ∀ kind ∈ found, kind.isDml = true := by
  refine .after fun token => .after fun next => ?_
  have hwords : ∀ word ∈ recordWords, word.2.isDml = true := by decide
  have hfound : ∀ kind ∈ (recordWords.find? fun word => token.isWord word.1).map (·.2), kind.isDml = true := by
    intro kind hkind
    obtain ⟨word, hword, rfl⟩ := Option.map_eq_some_iff.mp hkind
    exact hwords word (mem_of_find?_eq_some hword)
  split
  · exact .pure hfound
  · exact .pure hfound
  · exact .pure (by simp)

theorem yields_recordStatement (hkind : kind.isDml = true) :
    Yields (recordStatement kind) (Is isStatement) := by
  have hleaf : (isLeaf kind && kind != .newObjectExpression && kind != .newMapLiteralExpression && kind !=
    .literalExpression) = true ∧ kind.isSimple = true ∧ ∀ n, mayRead kind n = true := by
    cases kind <;> first | exact ⟨rfl, rfl, fun _ => rfl⟩ | exact absurd hkind (by decide)
  have hbuilt : ∀ span (field : List String) children, (∀ tree ∈ children, Is isExpression tree) →
    Is isStatement { kind, span, props := field.map fun name => (.spelled .name, .text name), children } :=
    fun span field children hchildren =>
    .leaf (by simp [isStatement, hleaf.2.1]) (by simp [Tree.FreeKeys]) hleaf.1 (hleaf.2.2 _) hchildren
  refine .after fun start => .after fun next => .after fun granted =>
    .ite (fun _ => .after fun _ => .after fun _ => ?_) fun _ => ?_
  all_goals
    refine .bind yields_expression fun operand hoperand => ?_
    have hone : ∀ tree ∈ [operand], Is isExpression tree := by simpa using hoperand
    refine .ite (fun _ => .bind yields_expression fun second hsecond => .given ?_) fun _ => .given ?_
  all_goals refine .after fun ended => .ite (fun _ => .after fun field => .given ?_) fun _ => .given ?_
  all_goals refine .after fun _ => .after fun span => .pure (hbuilt span _ _ ?_)
  all_goals first | exact hone | exact forall_mem_cons.mpr ⟨hoperand, by simpa using hsecond⟩

theorem yields_simpleStatement : Yields simpleStatement (Is isStatement) := by
  refine .after fun start => .bind (yields_localHeader _).attempt fun header hheader => ?_
  split
  · exact .bind (yields_variableDeclarations _ (hheader _ rfl) _) fun node hnode => .after fun _ =>
      .pure (hnode.statement rfl)
  · refine .bind yields_expression fun expr hexpr => .after fun _ => .after fun span => .pure ?_
    exact .leaf rfl (by simp) rfl rfl (by simpa using hexpr)

theorem yields_statementWith {statement : Reader Tree} (h : Yields statement (Is isStatement)) :
    Yields (statementWith statement) (Is isStatement) := by
  refine .after fun token => .after fun next => ?_
  refine .ite (fun _ => (yields_blockWith h).imp fun _ hb => hb.1.statement rfl) fun _ => ?_
  refine .ite (fun _ => (yields_ifStatement h).imp fun _ => .statement rfl) fun _ => ?_
  refine .ite (fun _ => yields_forStatement h) fun _ => ?_
  refine .ite (fun _ => (yields_whileStatement h).imp fun _ => .statement rfl) fun _ => ?_
  refine .ite (fun _ => (yields_doStatement h).imp fun _ => .statement rfl) fun _ => ?_
  refine .ite (fun _ => (yields_switchStatement h).imp fun _ => .statement rfl) fun _ => ?_
  refine .ite (fun _ => (yields_tryStatement h).imp fun _ => .statement rfl) fun _ => ?_
  refine .ite (fun _ => yields_returnStatement.imp fun _ => .statement rfl) fun _ => ?_
  refine .ite (fun _ => yields_throwStatement.imp fun _ => .statement rfl) fun _ => ?_
  refine .ite (fun _ => yields_jumpStatement) fun _ => .bind yields_recordOperation? fun found hfound => ?_
  cases found with
  | some kind => exact yields_recordStatement (hfound kind rfl)
  | none => exact yields_simpleStatement

theorem yields_statementWithin (n : Nat) : Yields (statementWithin n) (Is isStatement) := by
  induction n with
  | zero => exact .fail
  | succ n ih => exact yields_statementWith ih

theorem yields_statement : Yields statement (Is isStatement) := .bounded yields_statementWithin

theorem yields_block : Yields block IsBlock := yields_blockWith yields_statement

/-! ## Modifiers -/

instance (opening closing : String) (depth n : Nat) : Steady (skipBalanced opening closing depth n) := by
  induction n generalizing depth with
  | zero => exact inferInstanceAs (Steady (fail _))
  | succ n ih =>
    refine ⟨.after fun ended => .ite (fun _ => .unexpected) fun _ => .after fun token => ?_⟩
    refine .ite (fun _ => (ih _).yields) fun _ => .ite (fun _ => ?_) fun _ => (ih _).yields
    cases depth with
    | zero => exact .pure trivial
    | succ depth => exact (ih _).yields

instance (n : Nat) : Steady (modifiersWithin n) := by
  induction n with
  | zero => exact inferInstanceAs (Steady (fail _))
  | succ n ih =>
    refine ⟨.after fun token => ?_⟩
    split
    · exact .after fun _ => .after fun opened => .ite (fun _ => .after fun _ => ih.yields) fun _ => ih.yields
    · split
      · exact .after fun _ => .after fun words => .pure trivial
      · refine .after fun next => .ite (fun _ => ?_) fun _ => .pure trivial
        exact .after fun _ => .after fun _ => ih.yields

instance : Steady modifiers := by
  unfold modifiers
  infer_instance

/-! ## Members -/

theorem freeKeys_modifierProps (words : List String) : Tree.FreeKeys (modifierProps words) := by
  simp [modifierProps]

theorem yields_parameter : Yields parameter (IsKind .parameter) := by
  refine .after fun start => .after fun _ => .bind yields_typeName fun ty hty => .after fun name =>
    .after fun span => .pure ?_
  exact .typed rfl (by simp) rfl (spells_declarator name hty) (by simp [Tree.Holds]) (.of_idle rfl) (by simp)

theorem yields_optionalBlock : Yields optionalBlock fun body => ∃ found : Option Tree, body = found.toList ∧
    ∀ tree ∈ found, IsBlock tree := by
  refine .after fun opened => .ite (fun _ => .bind yields_block fun body hbody => .pure ?_) fun _ =>
    .after fun _ => .pure ?_
  · exact ⟨some body, rfl, by simpa using hbody⟩
  · exact ⟨none, rfl, by simp⟩

theorem yields_methodRest (start : Token) (words : List String) {name : String} (hname : Tree.IsMethodName name)
    (returnType : String) (isConstructor : Bool) : Yields (methodRest start words name returnType isConstructor)
    (IsKind .method) := by
  refine .after fun _ => .bind (.bounded (yields_itemsUntil yields_parameter _)) fun params hparams =>
    .after fun _ => ?_
  refine .bind yields_optionalBlock fun body hbody => .after fun span => .pure ?_
  obtain ⟨found, rfl, hfound⟩ := hbody
  have hkinds : (∀ param ∈ params, param.kind = .parameter) ∧ ∀ block ∈ found, block.kind = .blockStatement :=
    ⟨fun param hparam => (hparams param hparam).kind_eq, fun block hblock => (hfound block hblock).1.kind_eq⟩
  refine .counted rfl (.append (by simp) (freeKeys_modifierProps words)) rfl ⟨params, found, rfl, hkinds⟩
    ⟨params, found, rfl, hkinds.1, hkinds.2, rfl, ?_, rfl, name, rfl, hname⟩ ?_
  · cases found <;> rfl
  simp only [forall_mem_append, Option.mem_toList]
  exact ⟨fun param hparam => (hparams param hparam).2, fun block hblock => (hfound block hblock).1.2⟩

theorem yields_accessorKind : Yields accessorKind fun kind => kind.isAccessor = true := by
  refine .after fun getter => .ite (fun _ => .pure rfl) fun _ => .after fun setter => ?_
  exact .ite (fun _ => .pure rfl) fun _ => .unexpected

theorem yields_accessors (n : Nat) : Yields (accessors n) fun trees => ∀ tree ∈ trees, Is isAccessor tree := by
  induction n with
  | zero => exact .fail
  | succ n ih =>
    refine .after fun closed => .ite (fun _ => .pure (by simp)) fun _ => .after fun start => .after fun _ => ?_
    refine .bind yields_accessorKind fun kind hkind => .bind yields_optionalBlock fun body hbody =>
      .after fun span => ?_
    refine .bind ih fun rest hrest => .pure (forall_mem_cons.mpr ⟨?_, hrest⟩)
    obtain ⟨found, rfl, hfound⟩ := hbody
    have hholds : ∃ body : Option Tree, found.toList = body.toList ∧ ∀ block ∈ body, block.kind = .blockStatement :=
      ⟨found, rfl, fun block hblock => (hfound block hblock).1.kind_eq⟩
    refine .node hkind (by simp) ?_ ?_ fun block hblock => (hfound block (Option.mem_toList.mp hblock)).1.2
    all_goals
      simp only [isAccessor, Bool.or_eq_true, beq_iff_eq] at hkind
      rcases hkind with rfl | rfl <;> first | rfl | exact hholds

theorem yields_propertyRest (start : Token) (words : List String) (name : String) (hty : IsType ty) :
    Yields (propertyRest start words name ty) (IsKind .propertyDeclaration) := by
  refine .after fun _ => .bind (.bounded yields_accessors) fun children hchildren => .after fun _ =>
    .after fun span => .pure ?_
  refine .typed rfl ?_ rfl ⟨name, ty, rfl, rfl, rfl, hty⟩ (fun child hchild => ⟨(hchildren child hchild).1, rfl⟩)
    (.of_idle rfl) fun child hchild => (hchildren child hchild).2
  exact .append (.append (by simp) (freeKeys_modifierProps words)) (by simp)

theorem yields_fieldRest (start : Token) (words : List String) (name : String) (hty : IsType ty) :
    Yields (fieldRest start words name ty) (IsKind .fieldDeclarationStatements) := by
  refine .bind (.bounded fun n => yields_declarators .fieldDeclaration (.inr rfl) hty n start name)
    fun children hchildren => ?_
  refine .after fun _ => .after fun span => .pure ?_
  refine .node rfl ?_ rfl (fun child hchild => (hchildren child hchild).kind_eq ▸ rfl) fun child hchild =>
    (hchildren child hchild).2
  exact .cons (by simp) (freeKeys_modifierProps words)

theorem Is.member (hkind : kind.isMember = true) (h : IsKind kind tree) :
    Is isMember tree := ⟨h.kind_eq ▸ hkind, h.2⟩

theorem yields_plainMember (className : String) (start : Token) (words : List String) :
    Yields (plainMember className start words) (Is isMember) := by
  refine .after fun token => .ite (fun _ => .ite (fun _ => ?_) fun _ => .unexpected) fun _ => .after fun next => ?_
  · refine .bind yields_block fun body hbody => .after fun span => .pure ?_
    exact .node rfl (by simp) rfl ⟨body, rfl, hbody.1.kind_eq⟩ (by simpa using hbody.1.2)
  refine .ite (fun _ => .after fun _ => (yields_methodRest _ _ (.inr rfl) _ _).imp fun _ => .member rfl) fun _ => ?_
  refine .bind yields_typeName fun ty hty => .bind yields_identifier fun name hname => .after fun called => ?_
  refine .ite (fun _ => (yields_methodRest _ _ (.inl hname) _ _).imp fun _ => .member rfl) fun _ =>
    .after fun opened => ?_
  refine .ite (fun _ => (yields_propertyRest _ _ _ hty).imp fun _ => .member rfl) fun _ => ?_
  exact (yields_fieldRest _ _ _ hty).imp fun _ => .member rfl

/-! ## Types -/

/-- The types that may stand inside others: all but triggers. -/
def isNestable (kind : NodeKind) : Bool := kind.isTypeDeclaration && kind.isMember

section
variable {nested : Token → List String → Reader Tree} (h : ∀ start words, Yields (nested start words) (Is isNestable))
include h

theorem yields_memberWith (className : String) : Yields (memberWith nested className) (Is isMember) := by
  refine .after fun start => .after fun words => .after fun token => .after fun next => ?_
  refine .ite (fun _ => (h start words).imp fun tree htree => ?_) fun _ => yields_plainMember className start words
  exact htree.imp fun kind hkind => (Bool.and_eq_true_iff.mp hkind).2

theorem yields_interfaceMember (name : String) : Yields (interfaceMember nested name) (Is isMember) := by
  refine .bind (yields_memberWith h name) fun member hmember => .ite (fun _ => .pure hmember) fun _ => ?_
  intro cursor a cursor' _ ha
  cases ha

theorem yields_classRest (start : Token) (words : List String) :
    Yields (classRest nested start words) (Is isNestable) := by
  have hbuilt : ∀ span name (superclass interfaces : List String) children,
    (∀ tree ∈ children, Is isMember tree) → Is isNestable {
        kind := .userClass
        span
        props := (.spelled .name, .text name) :: modifierProps words ++
          [(.fact .isAbstract, .flag (words.contains "abstract"))] ++
          superclass.map (fun ty => (.spelled .superClassName, .text ty)) ++
          [(.spelled .interfaceNames, .texts interfaces)]
        children } := by
    intro span name superclass interfaces children hchildren
    refine .node rfl ?_ rfl (fun child hchild => ⟨(hchildren child hchild).1, by simp⟩) fun child hchild =>
      (hchildren child hchild).2
    refine .append (.append (.append (.cons (by simp) (freeKeys_modifierProps words)) ?_) ?_) ?_
    all_goals simp [Tree.FreeKeys]
  refine .after fun name => .after fun extended => .ite (fun _ => .after fun ty => .given ?_) fun _ => .given ?_
  all_goals
    refine .after fun implemented => .either Steady.yields Steady.yields fun interfaces _ => .after fun _ => ?_
    refine .bind (.bounded (yields_itemsInBraces (yields_memberWith h name))) fun children hchildren =>
      .after fun span => .pure ?_
    exact hbuilt span name _ interfaces children hchildren

theorem yields_interfaceRest (start : Token) (words : List String) :
    Yields (interfaceRest nested start words) (Is isNestable) := by
  refine .after fun name => .after fun extends_ => .either Steady.yields Steady.yields fun extended _ => ?_
  refine .after fun _ =>
    .bind (.bounded (yields_itemsInBraces (yields_interfaceMember h name))) fun children hchildren => ?_
  refine .after fun span => .pure ?_
  refine .node rfl ?_ rfl (fun child hchild => ⟨(hchildren child hchild).1, by simp⟩) fun child hchild =>
    (hchildren child hchild).2
  exact .append (.cons (by simp) (freeKeys_modifierProps words)) (by simp)

end

theorem yields_enumRest (start : Token) (words : List String) : Yields (enumRest start words) (Is isNestable) := by
  refine .after fun name => .after fun _ => .after fun values => .after fun _ => .after fun span => .pure ?_
  exact .node rfl (.append (by simp) (freeKeys_modifierProps words)) rfl rfl (by simp)

theorem yields_typeDeclarationWithin (n : Nat) :
    ∀ start words, Yields (typeDeclarationWithin n start words) (Is isNestable) := by
  induction n with
  | zero => exact fun _ _ => .fail
  | succ n ih =>
    intro start words
    refine .after fun isClass => .ite (fun _ => yields_classRest ih start words) fun _ => .after fun isInterface => ?_
    refine .ite (fun _ => yields_interfaceRest ih start words) fun _ => .after fun isEnum => ?_
    exact .ite (fun _ => yields_enumRest start words) fun _ => .unexpected

instance : Steady usage := by
  unfold usage
  infer_instance

theorem yields_trigger (start : Token) : Yields (trigger start) (IsKind .userTrigger) := by
  refine .after fun _ => .after fun name => .after fun _ => .after fun target => .after fun _ => .after fun usages => ?_
  refine .after fun _ => .bind yields_block fun body hbody => .after fun span => .pure ?_
  exact .node rfl (by simp) rfl ⟨body, rfl, hbody.1.kind_eq⟩ (by simpa using hbody.1.2)

theorem yields_compilationUnit : Yields compilationUnit (Is isTypeDeclaration) := by
  have htype : ∀ start words,
      Yields (bounded fun n => typeDeclarationWithin n start words) (Is isTypeDeclaration) :=
    fun start words => .bounded fun n => (yields_typeDeclarationWithin n start words).imp fun tree htree =>
      htree.imp fun kind hkind => (Bool.and_eq_true_iff.mp hkind).1
  have htrigger : ∀ start, Yields (trigger start) (Is isTypeDeclaration) :=
    fun start => (yields_trigger start).imp fun tree htree => ⟨htree.kind_eq ▸ rfl, htree.2⟩
  refine .after fun start => .after fun words => .after fun isTrigger => .either (htrigger start) (htype start words) ?_
  exact fun root hroot => .after fun ended => .ite (fun _ => .pure hroot) fun _ => .unexpected

end ApexPaths.Source.Reader

namespace ApexPaths.Source

open List

theorem read_of_parseTree {text : String} {root : Tree} (h : parseTree text = .ok root) :
    root.kind.isTypeDeclaration = true ∧ root.Read := by
  obtain ⟨⟨tokens, stop⟩, hscan, h⟩ := bind_eq_ok.mp h
  have h : parseTokens tokens stop = .ok root := h
  obtain ⟨⟨tree, cursor⟩, htree, h⟩ := bind_eq_ok.mp h
  cases h
  have hplain := isPlain_scan hscan
  exact (Reader.yields_compilationUnit _ _ _ ⟨hplain.1, hplain.2⟩ htree).1

variable {sources : List (String × String)} {units : List CompilationUnit}

theorem read_of_parseAll (h : parseAll sources = .ok units) :
    ∀ unit ∈ units, unit.root.kind.isTypeDeclaration = true ∧ unit.root.Read := by
  induction sources generalizing units with
  | nil =>
    cases h
    simp
  | cons source rest ih =>
    obtain ⟨unit, others, hunit, hothers, rfl⟩ := mapM_cons_eq_ok.mp h
    refine forall_mem_cons.mpr ⟨?_, ih hothers⟩
    cases htree : parseTree source.2 with
    | error fault => simp [parse, htree] at hunit
    | ok root =>
      simp only [parse, htree, Except.ok.injEq] at hunit
      subst hunit
      exact read_of_parseTree htree

theorem well_of_parseAll (h : parseAll sources = .ok units) :
    ∀ unit ∈ units, unit.root.kind.isTypeDeclaration = true ∧ unit.root.Well false :=
  fun unit hunit => (read_of_parseAll h unit hunit).imp_right And.left

theorem exists_unit {text : String} {test : Tree → Bool} (h : (parseTree text).toOption.any test = true)
    (name : String) : ∃ tree, parse name text = .ok ⟨name, tree⟩ ∧ test tree = true := by
  obtain ⟨tree, htree, htest⟩ := (Option.any_eq_true _ _).mp h
  refine ⟨tree, ?_, htest⟩
  rw [parse]
  cases hread : parseTree text with
  | error fault => simp [hread, Except.toOption] at htree
  | ok other =>
    obtain rfl : other = tree := by simpa [hread, Except.toOption] using htree
    rfl

/-!
## Regular trees

What the stages after reading rely on. In a tree that was read every statement has its parts at their places,
as many as its properties tell.
-/

namespace Tree

/-- The node and its children are as the later stages take them apart. -/
def Regular (tree : Tree) : Prop :=
  match tree.kind with
  | .ifElseBlockStatement =>
    ∃ branches otherwise, tree.children = branches ++ Option.toList otherwise ∧ branches ≠ [] ∧
      (∀ branch ∈ branches, branch.kind = .ifBlockStatement) ∧ ∀ block ∈ otherwise, block.kind = .blockStatement
  | .ifBlockStatement | .whileLoopStatement =>
    ∃ test body, tree.children = [test, body] ∧ test.kind = .standardCondition ∧ body.kind = .blockStatement
  | .doLoopStatement =>
    ∃ body test, tree.children = [body, test] ∧ body.kind = .blockStatement ∧ test.kind = .standardCondition
  | .forEachStatement =>
    ∃ declaration variable_ iterable body, tree.children = [declaration, iterable, body] ∧
      declaration.kind = .variableDeclarationStatements ∧ declaration.children = [variable_] ∧
      variable_.kind = .variableDeclaration ∧ iterable.kind.isExpression = true ∧ body.kind = .blockStatement
  | .forLoopStatement =>
    ∃ init test update body, tree.children = Option.toList init ++ Option.toList test ++
    Option.toList update ++ [body] ∧
    (∀ node ∈ init, node.kind = .variableDeclarationStatements ∨ node.kind = .expressionStatement) ∧
      (∀ node ∈ test, node.kind = .standardCondition) ∧ (∀ node ∈ update, node.kind = .expressionStatement) ∧
      body.kind = .blockStatement ∧ tree.props.get? (.fact .hasInit) = some (.flag init.isSome) ∧
      tree.props.get? (.fact .hasCondition) = some (.flag test.isSome) ∧
      tree.props.get? (.fact .hasUpdate) = some (.flag update.isSome)
  | .switchStatement =>
    ∃ subject whens, tree.children = subject :: whens ∧ subject.kind.isExpression = true ∧
      ∀ clause ∈ whens, clause.kind.isWhenBlock = true
  | .valueWhenBlock | .typeWhenBlock | .elseWhenBlock =>
    ∃ cases body, tree.children = cases ++ [body] ∧ body.kind = .blockStatement
  | .tryCatchFinallyBlockStatement =>
    ∃ body catches final, tree.children = body :: (catches ++ Option.toList final) ∧ body.kind = .blockStatement ∧
      (∀ clause ∈ catches, clause.kind = .catchBlockStatement) ∧ (∀ block ∈ final, block.kind = .blockStatement) ∧
      tree.props.get? (.fact .hasFinally) = some (.flag final.isSome) ∧ (catches ≠ [] ∨ final.isSome = true)
  | .catchBlockStatement | .staticBlock | .userTrigger => ∃ body, tree.children = [body] ∧ body.kind = .blockStatement
  | .standardCondition | .expressionStatement => ∃ expr, tree.children = [expr] ∧ expr.kind.isExpression = true
  | .method =>
    ∃ params body, tree.children = params ++ Option.toList body ∧ (∀ param ∈ params, param.kind = .parameter) ∧
      (∀ block ∈ body, block.kind = .blockStatement) ∧ tree.props.get? (.fact .arity) = some (.int params.length) ∧
      tree.props.get? (.fact .isAbstract) = some (.flag body.isNone)
  | .propertyGetter | .propertySetter =>
    ∃ body, tree.children = Option.toList body ∧ ∀ block ∈ body, block.kind = .blockStatement
  | .variableDeclarationStatements => ∀ child ∈ tree.children, child.kind = .variableDeclaration
  | _ => True

theorem LoopBlocks.eq_singleton {blocks : List Tree} (h : LoopBlocks false blocks) :
    ∃ body, blocks = [body] ∧ body.kind = .blockStatement := by
  obtain ⟨body, skip, rfl, hkind, -, -, hnone⟩ := h
  exact ⟨body, by rw [hnone rfl]; rfl, hkind⟩

theorem Apt.eq_singleton {kind : NodeKind} {props : PropertyMap} {children : List Tree} (h : Apt kind props children)
    (hcount : children.length = 1) (hexpression : ∀ child, kind.mayEvaluate child = child.isExpression) :
    ∃ expr, children = [expr] ∧ expr.kind.isExpression = true := by
  obtain ⟨expr, rfl⟩ := length_eq_one_iff.mp hcount
  exact ⟨expr, rfl, by rw [← hexpression]; exact h.parts expr mem_cons_self⟩

/-- An exact tree has the listed shape; by cases on its kind. -/
theorem regular_of_formed {tree : Tree} (hformed : tree.Formed false) (hexact : tree.Exact) : tree.Regular := by
  obtain ⟨-, hholds, -, hapt⟩ := hformed
  obtain ⟨kind, span, props, children⟩ := tree
  cases kind
  case ifElseBlockStatement | ifBlockStatement | doLoopStatement | switchStatement | catchBlockStatement | staticBlock |
      userTrigger | propertyGetter | propertySetter | variableDeclarationStatements => exact hholds
  case whileLoopStatement =>
    obtain ⟨test, blocks, hchildren, htest, hblocks⟩ := hholds
    obtain ⟨body, rfl, hbody⟩ := hblocks.eq_singleton
    exact ⟨test, body, hchildren, htest, hbody⟩
  case forEachStatement =>
    obtain ⟨declaration, iterable, blocks, rfl, hdeclares, hiterable, hblocks⟩ := hholds
    obtain ⟨body, rfl, hbody⟩ := hblocks.eq_singleton
    obtain ⟨variable_, hvariable⟩ := length_eq_one_iff.mp (hexact declaration rfl)
    have hkind := (hdeclares.bare variable_ (by simp [hvariable])).1
    exact ⟨declaration, variable_, iterable, body, rfl, hdeclares.kind_eq, hvariable, hkind, hiterable, hbody⟩
  case forLoopStatement =>
    obtain ⟨init, test, update, blocks, rfl, rfl, hinit, htest, hupdate, hblocks⟩ := hholds
    obtain ⟨body, rfl, hbody⟩ := hblocks.eq_singleton
    exact ⟨init, test, update, body, rfl, hinit, htest, hupdate, hbody, rfl, rfl, rfl⟩
  case valueWhenBlock | typeWhenBlock | elseWhenBlock =>
    obtain ⟨cases, body, hchildren, -, hbody⟩ := hholds
    exact ⟨cases, body, hchildren, hbody⟩
  case tryCatchFinallyBlockStatement =>
    obtain ⟨body, catches, final, rfl, rfl, hbody, hcatches, hfinal⟩ := hholds
    refine ⟨body, catches, final, rfl, hbody, hcatches, hfinal, rfl, ?_⟩
    have htwo : 2 ≤ (body :: (catches ++ final.toList)).length := hexact
    cases catches with
    | cons first rest => exact .inl (cons_ne_nil _ _)
    | nil =>
      cases final with
      | some block => exact .inr rfl
      | none => exact absurd htwo (by simp)
  case standardCondition => exact hapt.eq_singleton (beq_iff_eq.mp hapt.count) fun _ => rfl
  case expressionStatement => exact hapt.eq_singleton hexact fun _ => rfl
  case method =>
    obtain ⟨params, body, hchildren, hparams, hbody, harity, habstract, -⟩ := hexact
    exact ⟨params, body, hchildren, hparams, hbody, harity, habstract⟩
  all_goals trivial

end Tree

/-- Every node of the tree of an accepted source is regular. -/
theorem regular_of_parse {name text : String} {unit : CompilationUnit} (h : parse name text = .ok unit) :
    ∀ node ∈ unit.root.nodes, node.Regular := by
  cases htree : parseTree text with
  | error fault => simp [parse, htree] at h
  | ok root =>
    obtain rfl : ⟨name, root⟩ = unit := by simpa [parse, htree] using h
    obtain ⟨-, hwell, hexact⟩ := read_of_parseTree htree
    exact fun node hnode => Tree.regular_of_formed (hwell node hnode) (hexact node hnode)

/-- A loop without a head, around a `try` without handlers. -/
def tryingForever : String := "class A { void m() { for (;;) try { } finally { } } }"

theorem reads_tryingForever : (parseTree tryingForever).toOption.any (fun tree =>
    tree.nodes.any (·.kind == .forLoopStatement) && tree.nodes.any (·.kind == .tryCatchFinallyBlockStatement)) =
    true := by
  decide +kernel

/-- An endless loop around a `try`. -/
theorem tryingForever_regular : ∃ unit, parse "A" tryingForever = .ok unit ∧
    (unit.root.nodes.any (·.kind == .forLoopStatement) &&
    unit.root.nodes.any (·.kind == .tryCatchFinallyBlockStatement)) = true ∧
    ∀ node ∈ unit.root.nodes, node.Regular := by
  obtain ⟨tree, hparse, hkinds⟩ := exists_unit reads_tryingForever "A"
  exact ⟨⟨"A", tree⟩, hparse, hkinds, regular_of_parse hparse⟩

end ApexPaths.Source
