import ApexPaths.Proofs.Source.Ends
import ApexPaths.Proofs.Source.Yields

/-!
Every text is read to an end. Nested expressions and statements are read with the bound of the outer one less one,
so a token is taken before each of them; so it is before a loop comes around.
-/

set_option autoImplicit false

namespace ApexPaths.Source.Reader

/-! ## Names and operands -/

section
variable {all : List Token}

theorem ends_chainedNames (n : Nat) : Ends all n 0 (chainedNames n) fun _ => True := by
  induction n with
  | zero => exact .zero
  | succ n ih =>
    refine .after fun next => .after fun dotted => .after fun second => .ite (fun _ => .after fun _ => ?_) fun _ =>
      .pure trivial
    exact .take fun name => .bind ih fun names _ => .pure trivial

instance : Halts (bounded chainedNames) := .of_bounded fun _ => ends_chainedNames

variable {n : Nat} {expr : Reader Tree} (h : Ends all n 1 expr fun _ => True)
include h

theorem ends_arguments : Ends all (n + 1) 1 (arguments expr) fun _ => True :=
  .take fun _ => .bind (.bounded (ends_itemsUntil h ")")) fun _ _ => .after fun _ => .pure trivial

theorem ends_callOn (start : Token) (names : List String) (method : String) :
    Ends all (n + 1) 1 (callOn expr start names method) fun _ => True :=
  .bind (ends_arguments h) fun _ _ => .after fun _ => .pure trivial

theorem ends_nameChain : Ends all (n + 1) 1 (nameChain expr) fun _ => True := by
  have hcall : ∀ start names method, Ends all n 0 (callOn expr start names method) fun _ => True :=
    fun start names method => (ends_callOn h start names method).weaken (Nat.le_succ n) (Nat.zero_le 1)
  refine .after fun start => .take fun first => .after fun chained => .after fun called =>
    .ite (fun _ => hcall _ _ _) fun _ => ?_
  refine .after fun dotted => .after fun next => .ite (fun _ => ?_) fun _ => ?_
  · exact .after fun _ => .after fun _ => .after fun _ => .pure trivial
  refine .after fun dotted => .after fun next => .after fun second => .ite (fun _ => ?_) fun _ => ?_
  · exact .after fun _ => .after fun method => hcall _ _ _
  · exact .after fun _ => .pure trivial

theorem ends_entry (isMap : Bool) : Ends all n 1 (entry expr isMap) fun _ => True := by
  refine .after fun start => .bind h fun first _ => .ite (fun _ => .after fun _ => ?_) fun _ => .pure trivial
  exact .bind (h.weaken (Nat.sub_le n 1) (Nat.zero_le 1)) fun _ _ => .after fun _ => .pure trivial

theorem ends_construction : Ends all (n + 1) 1 (construction expr) fun _ => True := by
  have hexpr : Ends all n 0 expr fun _ => True := h.weaken (Nat.le_refl n) (Nat.zero_le 1)
  refine .take fun start => .after fun ty => .after fun sized => .ite (fun _ => .bind hexpr fun _ _ => ?_) fun _ => ?_
  · exact .after fun _ => .after fun _ => .pure trivial
  refine .after fun called => .ite (fun _ => ?_) fun _ => .after fun _ => ?_
  · exact .bind ((ends_arguments h).weaken (Nat.le_succ n) (Nat.zero_le 1)) fun _ _ => .after fun _ => .pure trivial
  · exact .bind (.bounded (ends_itemsUntil (ends_entry h _) closeBrace)) fun _ _ => .after fun _ => .after fun _ =>
      .pure trivial

theorem ends_selfReference (start : Token) (hne : start.kind ≠ .eof) :
    EndsAt all start (n + 1) 1 (selfReference expr start) fun _ => True := by
  refine .advance hne (.after fun called => .ite (fun _ => ?_) fun _ => .after fun _ => .pure trivial)
  exact .bind ((ends_arguments h).weaken (Nat.le_succ n) (Nat.zero_le 1)) fun _ _ => .after fun _ => .pure trivial

omit h in
theorem ne_eof_of_literal? {token : Token} {found : String × String} (h : literal? token = some found) :
    token.kind ≠ .eof := by
  intro heof
  rw [literal?, heof] at h
  simp [Token.isWord, heof] at h

theorem ends_primary : Ends all (n + 1) 1 (primary expr) fun _ => True := by
  refine .looking fun token _ => .peek ?_
  split
  · exact .advance (ne_eof_of_literal? ‹_›) (.after fun _ => .pure trivial)
  split
  · rename_i hquery
    exact .advance (fun heof => TokenKind.noConfusion (hquery.symm.trans heof)) (.after fun _ => .pure trivial)
  refine .eat (.bind (h.weaken (Nat.le_refl n) (Nat.zero_le 1)) fun _ _ => .after fun _ => .pure trivial)
    (.ite (absurd · Bool.false_ne_true) fun _ => ?_)
  refine .ite (fun hself => ends_selfReference h token ?_) fun _ => .ahead fun next => ?_
  · rcases (Bool.or_eq_true _ _).mp hself with hself | hself
    · exact Token.ne_eof_of_isWord hself
    · exact Token.ne_eof_of_isWord hself
  refine .ite (fun _ => .of_ends (ends_construction h)) fun _ => .ite (fun _ => .of_ends (ends_nameChain h)) fun _ => ?_
  exact .of_ends .unexpected

theorem ends_postfixTail (start : Token) (m : Nat) (hm : m ≤ n + 1) :
    ∀ operand, Ends all m 0 (postfixTail expr start operand m) fun _ => True := by
  induction m with
  | zero => exact fun _ => .zero
  | succ m ih =>
    intro operand
    have ih := ih (Nat.le_of_succ_le hm)
    refine .after fun dotted => .after fun next => .ite (fun _ => .after fun _ => .take fun name => ?_) fun _ =>
      .eat ?_ ?_
    · refine .after fun called => .ite (fun _ => ?_) fun _ => .after fun _ => ih _
      exact .bind ((ends_arguments h).weaken (Nat.le_of_succ_le hm) (Nat.zero_le 1)) fun _ _ => .after fun _ => ih _
    · exact .bind (h.weaken (Nat.le_of_succ_le_succ hm) (Nat.zero_le 1)) fun index _ => .after fun _ =>
        .after fun _ => ih _
    · refine .looking fun token _ => .checkAny ?_
      split
      · exact .advance (Token.ne_eof_of_find? ‹_›) (.after fun _ => ih _)
      · exact .of_ends (.pure trivial)

theorem ends_postfixExpression : Ends all (n + 1) 1 (postfixExpression expr) fun _ => True := by
  refine .after fun start => .bind (ends_primary h) fun operand _ => .bounded fun m hm => ?_
  exact ends_postfixTail h start m (Nat.le_succ_of_le hm) operand

end

/-! ## Operators -/

instance : Takes castHeader where
  ends _ _ := .after fun _ => .take fun _ => .after fun _ => .after fun _ => .ite (fun _ => .pure trivial) fun _ =>
    .unexpected

section
variable {all : List Token} {bound : Nat} {operand : Reader Tree} (h : Ends all bound 1 operand fun _ => True)
include h

theorem ends_unaryOver (n : Nat) (hn : n ≤ bound) : Ends all n 1 (unaryOver operand n) fun _ => True := by
  induction n with
  | zero => exact .zero
  | succ n ih =>
    have ih := (ih (Nat.le_of_succ_le hn)).weaken (Nat.le_refl n) (Nat.zero_le 1)
    have hoperand := h.weaken hn (Nat.le_refl 1)
    refine .looking fun token _ => .peek (.checkAny ?_)
    split
    · exact .advance (Token.ne_eof_of_find? ‹_›) (.bind ih fun _ _ => .after fun _ => .pure trivial)
    · refine .of_ends (.after fun opened => .ite (fun _ => .attempt (fun ty => ?_) hoperand) fun _ => .given hoperand)
      exact .bind ih fun _ _ => .after fun _ => .pure trivial

theorem ends_binaryTail (level : Level) (start : Token) (n : Nat) (hn : n ≤ bound) :
    ∀ left, Ends all n 0 (binaryTail level operand start left n) fun _ => True := by
  induction n with
  | zero => exact fun _ => .zero
  | succ n ih =>
    intro left
    have ih := ih (Nat.le_of_succ_le hn)
    refine .after fun tests => .ite (fun _ => .after fun _ => .take fun ty => .after fun _ => ih _) fun _ => ?_
    refine .after fun found => ?_
    split
    · exact .after fun _ => .bind (h.weaken hn (Nat.le_refl 1)) fun right _ => .after fun _ => ih _
    · exact .pure trivial

theorem ends_binaryOver (levels : List Level) : Ends all bound 1 (binaryOver operand levels) fun _ => True := by
  induction levels with
  | nil => exact h
  | cons level tighter ih =>
    refine .after fun start => .bind ih fun left _ => .bounded fun n hn => ?_
    exact ends_binaryTail ih level start n (Nat.le_trans hn (Nat.sub_le bound 1)) left

end

section
variable {all : List Token} {n : Nat} {expr : Reader Tree} (h : Ends all n 1 expr fun _ => True)
include h

theorem ends_ternaryOver {operand : Reader Tree} (hoperand : Ends all (n + 1) 1 operand fun _ => True) (m : Nat)
    (hm : m ≤ n + 1) : Ends all m 1 (ternaryOver expr operand m) fun _ => True := by
  induction m with
  | zero => exact .zero
  | succ m ih =>
    have ih := (ih (Nat.le_of_succ_le hm)).weaken (Nat.le_refl m) (Nat.zero_le 1)
    refine .after fun start => .bind (hoperand.weaken hm (Nat.le_refl 1)) fun condition _ => .after fun chooses => ?_
    refine .ite (fun _ => .bind (h.weaken (Nat.le_of_succ_le_succ hm) (Nat.zero_le 1)) fun whenTrue _ => ?_) fun _ =>
      .pure trivial
    exact .after fun _ => .bind ih fun whenFalse _ => .after fun _ => .pure trivial

theorem ends_unaryWith : Ends all (n + 1) 1 (unaryWith expr) fun _ => True :=
  .bounded (ends_unaryOver (ends_postfixExpression h))

theorem ends_expressionWith : Ends all (n + 1) 1 (expressionWith expr) fun _ => True := by
  have htarget := ends_ternaryOver h (ends_binaryOver (ends_unaryWith h) levels)
  refine .after fun start => .bind (.bounded htarget) fun target _ => .after fun found => ?_
  split
  · exact .after fun _ => .bind (h.weaken (Nat.le_refl n) (Nat.zero_le 1)) fun value _ => .after fun _ => .pure trivial
  · exact .pure trivial

end

theorem ends_expressionWithin {all : List Token} (n : Nat) : Ends all n 1 (expressionWithin n) fun _ => True := by
  induction n with
  | zero => exact .zero
  | succ n ih => exact ends_expressionWith ih

instance : Takes expression := .of_bounded fun _ => ends_expressionWithin

instance : Takes unary where
  ends all bound := (ends_unaryWith (Takes.ends all bound)).weaken (Nat.le_succ bound) (Nat.le_refl 1)

/-! ## Parts of statements -/

instance (followers : List String) : Takes (localHeader followers) where
  ends _ _ := .after fun _ => .take fun _ => .after fun _ => .after fun _ => .ite (fun _ => .pure trivial) fun _ =>
    .unexpected

instance : Takes typeCaseHeader where
  ends _ _ := .take fun _ => .after fun _ => .after fun _ => .ite (fun _ => .pure trivial) fun _ => .unexpected

theorem ends_declarators {all : List Token} (kind : NodeKind) (ty : String) (n : Nat) :
    ∀ start name, Ends all n 0 (declarators kind ty start name n) fun _ => True := by
  induction n with
  | zero => exact fun _ _ => .zero
  | succ n ih =>
    intro start name
    refine .after fun assigned => .ite (fun _ => .after fun value => .given ?_) fun _ => .given ?_
    all_goals refine .after fun span => .after fun more =>
                .ite (fun _ => .after fun next => .take fun name => ?_) fun _ => .pure trivial
    all_goals exact .bind (ih next name) fun rest _ => .pure trivial

instance (kind : NodeKind) (ty : String) (start : Token) (name : String) :
    Halts (bounded (declarators kind ty start name)) :=
  .of_bounded fun _ n => ends_declarators kind ty n start name

instance (start : Token) (ty name : String) : Halts (variableDeclarations start ty name) where
  ends _ _ := .after fun _ => .after fun _ => .pure trivial

instance : Takes condition where
  ends _ _ := .take fun _ => .pure trivial

instance : Takes expressionPart where
  ends _ _ := .take fun _ => .pure trivial

instance : Takes whenCase where
  ends _ _ := by
    refine .after fun start => .after fun next => .ite (fun _ => .take fun name => ?_) fun _ => .take fun value => ?_
    all_goals exact .after fun _ => .pure trivial

instance (header : Token) : Halts (loopInit header) where
  ends _ _ := by
    refine .after fun missing => .ite (fun _ => .pure trivial) fun _ => .after fun found => ?_
    split
    all_goals exact .after fun _ => .pure trivial

instance : Takes returnStatement where
  ends _ _ := by
    refine .take fun start => .after fun bare => .ite (fun _ => .given ?_) fun _ => .after fun value => .given ?_
    all_goals exact .after fun _ => .after fun _ => .pure trivial

instance : Takes throwStatement where
  ends _ _ := .after fun _ => .take fun _ => .after fun _ => .after fun _ => .pure trivial

instance : Takes jumpStatement where
  ends _ _ := .after fun _ => .take fun _ => .after fun _ => .pure trivial

instance : Halts recordOperation? where
  ends _ _ := by
    refine .after fun token => .after fun next => ?_
    split
    all_goals exact .pure trivial

instance (kind : NodeKind) : Takes (recordStatement kind) where
  ends all bound := by
    refine .after fun start => .after fun next => .after fun granted =>
      .ite (fun _ => .after fun _ => .after fun _ => ?_) fun _ => ?_
    all_goals refine .take fun operand => .ite (fun _ => .after fun second => .given ?_) fun _ => .given ?_
    all_goals refine .after fun ended => .ite (fun _ => .after fun field => .given ?_) fun _ => .given ?_
    all_goals exact .after fun _ => .after fun _ => .pure trivial

instance : Takes simpleStatement where
  ends _ _ := by
    refine .after fun start =>
      .attempt (fun header => ?_) (.take fun expr => .after fun _ => .after fun _ => .pure trivial)
    exact .after fun node => .after fun _ => .pure trivial

/-! ## Statements -/

section
variable {all : List Token} {n : Nat} {statement : Reader Tree} (h : Ends all n 1 statement fun _ => True)
include h

theorem ends_blockWith : Ends all (n + 1) 1 (blockWith statement) fun _ => True :=
  .take fun _ => .bind (.bounded (ends_itemsInBraces h)) fun _ _ => .after fun _ => .pure trivial

theorem ends_bodyWith : Ends all n 1 (bodyWith statement) fun _ => True := by
  refine .after fun opened => .ite (fun _ => (ends_blockWith h).weaken (Nat.le_succ n) (Nat.le_refl 1)) fun _ => ?_
  exact .bind h fun inner _ => .pure trivial

theorem ends_ifBranches (m : Nat) (hm : m ≤ n + 1) : Ends all m 1 (ifBranches statement m) fun _ => True := by
  induction m with
  | zero => exact .zero
  | succ m ih =>
    have ih := (ih (Nat.le_of_succ_le hm)).weaken (Nat.le_refl m) (Nat.zero_le 1)
    have hbody := (ends_bodyWith h).weaken (Nat.le_of_succ_le_succ hm) (Nat.zero_le 1)
    refine .take fun start => .after fun _ => .after fun test => .after fun _ => .bind hbody fun body _ =>
      .after fun span => ?_
    refine .after fun more => .ite (fun _ => .after fun chained => .ite (fun _ => ?_) fun _ => ?_) fun _ =>
      .pure trivial
    · exact .bind ih fun rest _ => .pure trivial
    · exact .bind hbody fun otherwise _ => .pure trivial

theorem ends_ifStatement : Ends all (n + 1) 1 (ifStatement statement) fun _ => True :=
  .after fun _ => .bind (.bounded (ends_ifBranches h)) fun _ _ => .after fun _ => .pure trivial

theorem ends_whenBlock : Ends all (n + 1) 1 (whenBlock statement) fun _ => True := by
  have hblock := (ends_blockWith h).weaken (Nat.le_succ n) (Nat.zero_le 1)
  refine .take fun start => .after fun otherwise => .after fun next => .ite (fun _ => .after fun _ => ?_) fun _ =>
    .after fun found => ?_
  · exact .bind hblock fun body _ => .after fun _ => .pure trivial
  split
  · exact .bind hblock fun body _ => .after fun _ => .pure trivial
  · exact .after fun cases => .bind hblock fun body _ => .after fun _ => .pure trivial

theorem ends_whenBlocks (m : Nat) (hm : m ≤ n + 1) : Ends all m 0 (whenBlocks statement m) fun _ => True := by
  induction m with
  | zero => exact .zero
  | succ m ih =>
    refine .after fun closed => .ite (fun _ => .pure trivial) fun _ => ?_
    exact .bind ((ends_whenBlock h).weaken hm (Nat.le_refl 1)) fun first _ =>
      .bind (ih (Nat.le_of_succ_le hm)) fun rest _ => .pure trivial

theorem ends_switchStatement : Ends all (n + 1) 1 (switchStatement statement) fun _ => True := by
  refine .take fun start => .after fun _ => .after fun subject => .after fun _ => ?_
  refine .bind (.bounded fun m hm => ends_whenBlocks h m (Nat.le_succ_of_le hm)) fun whens _ => ?_
  exact .after fun _ => .after fun _ => .pure trivial

theorem ends_forEachStatement (start header : Token) (ty name : String) :
    Ends all n 0 (forEachStatement statement start header ty name) fun _ => True := by
  refine .after fun span => .after fun _ => .after fun iterable => .after fun _ => ?_
  exact .bind ((ends_bodyWith h).weaken (Nat.le_refl n) (Nat.zero_le 1)) fun body _ => .after fun _ => .pure trivial

theorem ends_forLoopStatement (start header : Token) :
    Ends all n 0 (forLoopStatement statement start header) fun _ => True := by
  refine .after fun init => .after fun _ => .after fun noTest => .either fun test => ?_
  refine .after fun _ => .after fun noUpdate => .either fun update => .after fun more =>
    .ite (fun _ => .unexpected) fun _ => ?_
  exact .after fun _ => .bind ((ends_bodyWith h).weaken (Nat.le_refl n) (Nat.zero_le 1)) fun body _ => .after fun _ =>
    .pure trivial

theorem ends_forStatement : Ends all (n + 1) 1 (forStatement statement) fun _ => True := by
  refine .take fun start => .after fun _ => .after fun header => .after fun found => ?_
  split
  · exact ends_forEachStatement h _ _ _ _
  · exact ends_forLoopStatement h _ _

theorem ends_whileStatement : Ends all (n + 1) 1 (whileStatement statement) fun _ => True := by
  refine .take fun start => .after fun _ => .after fun test => .after fun _ => ?_
  exact .bind ((ends_bodyWith h).weaken (Nat.le_refl n) (Nat.zero_le 1)) fun body _ => .after fun _ => .pure trivial

theorem ends_doStatement : Ends all (n + 1) 1 (doStatement statement) fun _ => True := by
  refine .take fun start => .bind ((ends_blockWith h).weaken (Nat.le_succ n) (Nat.zero_le 1)) fun body _ => ?_
  exact .after fun _ => .after fun _ => .after fun _ => .after fun _ => .after fun _ => .after fun _ => .pure trivial

theorem ends_catchBlocks (m : Nat) (hm : m ≤ n + 1) : Ends all m 0 (catchBlocks statement m) fun _ => True := by
  induction m with
  | zero => exact .zero
  | succ m ih =>
    refine .after fun more => .ite (fun _ => .after fun start => .take fun _ => ?_) fun _ => .pure trivial
    refine .after fun _ => .after fun ty => .after fun name => .after fun _ => ?_
    refine .bind ((ends_blockWith h).weaken (Nat.le_of_succ_le hm) (Nat.zero_le 1)) fun body _ => .after fun span => ?_
    exact .bind (ih (Nat.le_of_succ_le hm)) fun rest _ => .pure trivial

theorem ends_tryStatement : Ends all (n + 1) 1 (tryStatement statement) fun _ => True := by
  have hblock := (ends_blockWith h).weaken (Nat.le_succ n) (Nat.zero_le 1)
  refine .take fun start => .bind hblock fun body _ => ?_
  refine .bind (.bounded fun m hm => ends_catchBlocks h m (Nat.le_succ_of_le hm)) fun catches _ =>
    .after fun hasFinally => ?_
  refine .ite (fun _ => .bind hblock fun final _ => .given ?_) fun _ => .given ?_
  all_goals exact .ite (fun _ => .unexpected) fun _ => .after fun _ => .pure trivial

theorem ends_statementWith : Ends all (n + 1) 1 (statementWith statement) fun _ => True := by
  refine .after fun token => .after fun next => .ite (fun _ => ends_blockWith h) fun _ => ?_
  refine .ite (fun _ => ends_ifStatement h) fun _ => .ite (fun _ => ends_forStatement h) fun _ => ?_
  refine .ite (fun _ => ends_whileStatement h) fun _ => .ite (fun _ => ends_doStatement h) fun _ => ?_
  refine .ite (fun _ => ends_switchStatement h) fun _ => .ite (fun _ => ends_tryStatement h) fun _ => ?_
  refine .ite (fun _ => Takes.ends _ _) fun _ => .ite (fun _ => Takes.ends _ _) fun _ =>
    .ite (fun _ => Takes.ends _ _) fun _ => ?_
  refine .after fun found => ?_
  split
  all_goals exact Takes.ends _ _

end

theorem ends_statementWithin {all : List Token} (n : Nat) : Ends all n 1 (statementWithin n) fun _ => True := by
  induction n with
  | zero => exact .zero
  | succ n ih => exact ends_statementWith ih

instance : Takes statement := .of_bounded fun _ => ends_statementWithin

instance : Takes block where
  ends all bound := (ends_blockWith (Takes.ends all bound)).weaken (Nat.le_succ bound) (Nat.le_refl 1)

/-! ## Modifiers -/

theorem ends_skipBalanced {all : List Token} (opening closing : String) (n : Nat) :
    ∀ depth, Ends all n 0 (skipBalanced opening closing depth n) fun _ => True := by
  induction n with
  | zero => exact fun _ => .zero
  | succ n ih =>
    intro depth
    refine .looking fun token _ =>
      .atEnd (.ite (fun _ => .of_ends .unexpected) fun hopen => .advance (by simpa using hopen) ?_)
    refine .ite (fun _ => ih _) fun _ => .ite (fun _ => ?_) fun _ => ih _
    cases depth with
    | zero => exact .pure trivial
    | succ depth => exact ih depth

instance (opening closing : String) (depth : Nat) : Halts (bounded (skipBalanced opening closing depth)) :=
  .of_bounded fun _ n => ends_skipBalanced opening closing n depth

theorem ends_modifiersWithin {all : List Token} (n : Nat) : Ends all n 0 (modifiersWithin n) fun _ => True := by
  induction n with
  | zero => exact .zero
  | succ n ih =>
    refine .looking fun token _ => .peek ?_
    split
    · rename_i hdecorator
      refine .advance (fun heof => TokenKind.noConfusion (hdecorator.symm.trans heof)) (.after fun opened => ?_)
      exact .ite (fun _ => .after fun _ => ih) fun _ => ih
    split
    · exact .advance (Token.ne_eof_of_isWord (List.find?_some ‹_›)) (.bind ih fun words _ => .pure trivial)
    refine .ahead fun next => .ite (fun hsharing => ?_) fun _ => .of_ends (.pure trivial)
    obtain ⟨word, -, hword⟩ := List.any_eq_true.mp (Bool.and_eq_true_iff.mp hsharing).1
    exact .advance (Token.ne_eof_of_isWord hword) (.after fun _ => ih)

instance : Halts modifiers := .of_bounded fun _ => ends_modifiersWithin

/-! ## Members -/

instance : Takes parameter where
  ends _ _ := .after fun _ => .after fun _ => .take fun _ => .after fun _ => .after fun _ => .pure trivial

instance : Takes optionalBlock where
  ends _ _ := .after fun _ => .ite (fun _ => .take fun _ => .pure trivial) fun _ => .take fun _ => .pure trivial

instance : Halts accessorKind where
  ends _ _ := by
    refine .after fun getter => .ite (fun _ => .pure trivial) fun _ => .after fun setter => ?_
    exact .ite (fun _ => .pure trivial) fun _ => .unexpected

theorem ends_accessors {all : List Token} (n : Nat) : Ends all n 0 (accessors n) fun _ => True := by
  induction n with
  | zero => exact .zero
  | succ n ih =>
    refine .after fun closed => .ite (fun _ => .pure trivial) fun _ => .after fun start => .after fun _ =>
      .after fun kind => ?_
    exact .take fun body => .after fun span => .bind ih fun rest _ => .pure trivial

instance : Halts (bounded accessors) := .of_bounded fun _ => ends_accessors

/-- The span of a tree starts at a token. -/
def StartsAt (token : Token) (tree : Tree) : Prop :=
  tree.span.startLine = token.line ∧ tree.span.startColumn = token.column

section
variable {all : List Token} {bound : Nat} (start : Token) (words : List String) (name type : String)

theorem ends_methodRest (isConstructor : Bool) :
    Ends all bound 1 (methodRest start words name type isConstructor) (StartsAt start) :=
  .take fun _ => .after fun _ => .after fun _ => .after fun _ => .bind (ends_spanFrom start) fun _ hspan => .pure hspan

theorem ends_propertyRest : Ends all bound 1 (propertyRest start words name type) (StartsAt start) :=
  .take fun _ => .after fun _ => .after fun _ => .bind (ends_spanFrom start) fun _ hspan => .pure hspan

theorem ends_fieldRest : Ends all bound 1 (fieldRest start words name type) (StartsAt start) :=
  .after fun _ => .take fun _ => .bind (ends_spanFrom start) fun _ hspan => .pure hspan

theorem ends_plainMember : Ends all bound 1 (plainMember name start words) (StartsAt start) := by
  refine .after fun token => .ite (fun _ => .ite (fun _ => ?_) fun _ => .unexpected) fun _ => .after fun next => ?_
  · exact .take fun body => .bind (ends_spanFrom start) fun span hspan => .pure hspan
  refine .ite (fun _ => .after fun _ => ends_methodRest _ _ _ _ _) fun _ => .after fun ty => .after fun member =>
    .after fun called => ?_
  refine .ite (fun _ => ends_methodRest _ _ _ _ _) fun _ => .after fun opened => .ite (fun _ => ?_) fun _ => ?_
  · exact ends_propertyRest _ _ _ _
  · exact ends_fieldRest _ _ _ _

end

/-! ## Types -/

section
variable {all : List Token} {n : Nat} {nested : Token → List String → Reader Tree}
variable (h : ∀ start words, Ends all n 1 (nested start words) (StartsAt start)) (start : Token) (words : List String)
include h

theorem ends_memberWith (className : String) :
    Ends all n 1 (memberWith nested className) fun tree => ∃ token ∈ all, StartsAt token tree := by
  refine .looking fun start hstart => .peek (.of_ends (.after fun words => .after fun token => .after fun next => ?_))
  have hmember : Ends all n 1 (plainMember className start words) (StartsAt start) := ends_plainMember _ _ _
  exact .ite (fun _ => (h start words).imp fun _ ht => ⟨start, hstart, ht⟩) fun _ => hmember.imp fun _ ht =>
    ⟨start, hstart, ht⟩

theorem ends_interfaceMember (name : String) : Ends all n 1 (interfaceMember nested name) fun _ => True := by
  refine .bind (ends_memberWith h name) fun member hmember => .ite (fun _ => .pure trivial) fun _ => ?_
  obtain ⟨token, htoken, hline, hcolumn⟩ := hmember
  exact fun _ _ _ => ⟨Cause.noConfusion, token, htoken, hline, hcolumn⟩

theorem ends_classRest : Ends all (n + 1) 1 (classRest nested start words) (StartsAt start) := by
  refine .take fun name => .after fun extended => .ite (fun _ => .after fun ty => .given ?_) fun _ => .given ?_
  all_goals
    refine .after fun implemented => .either fun interfaces => .after fun _ => ?_
    refine .bind (.bounded (ends_itemsInBraces (ends_memberWith h name))) fun children _ => ?_
    exact .bind (ends_spanFrom start) fun span hspan => .pure hspan

theorem ends_interfaceRest : Ends all (n + 1) 1 (interfaceRest nested start words) (StartsAt start) := by
  refine .take fun name => .after fun extended => .either fun interfaces => .after fun _ => ?_
  refine .bind (.bounded (ends_itemsInBraces (ends_interfaceMember h name))) fun children _ => ?_
  exact .bind (ends_spanFrom start) fun span hspan => .pure hspan

omit h in
theorem ends_enumRest : Ends all n 1 (enumRest start words) (StartsAt start) :=
  .take fun _ => .after fun _ => .after fun _ => .after fun _ => .bind (ends_spanFrom start) fun _ hspan => .pure hspan

end

theorem ends_typeDeclarationWithin {all : List Token} (n : Nat) :
    ∀ start words, Ends all n 1 (typeDeclarationWithin n start words) (StartsAt start) := by
  induction n with
  | zero => exact fun _ _ => .zero
  | succ n ih =>
    intro start words
    refine .after fun isClass => .ite (fun _ => ends_classRest ih start words) fun _ => .after fun isInterface => ?_
    refine .ite (fun _ => ends_interfaceRest ih start words) fun _ => .after fun isEnum => ?_
    exact .ite (fun _ => ends_enumRest start words) fun _ => .unexpected

instance (start : Token) (words : List String) : Takes (bounded fun n => typeDeclarationWithin n start words) :=
  .of_bounded fun _ n => (ends_typeDeclarationWithin n start words).imp fun _ _ => trivial

instance : Takes usage where
  ends _ _ := .take fun _ => .after fun _ => .pure trivial

instance (start : Token) : Takes (trigger start) where
  ends _ _ := by
    refine .take fun _ => .after fun name => .after fun _ => .after fun target => .after fun _ =>
      .after fun usages => ?_
    exact .after fun _ => .after fun body => .after fun span => .pure trivial

instance : Halts compilationUnit where
  ends _ _ := by
    refine .after fun start => .after fun words => .after fun isTrigger => .either fun root => .after fun ended => ?_
    exact .ite (fun _ => .pure trivial) fun _ => .unexpected

end ApexPaths.Source.Reader

namespace ApexPaths.Source

open List

theorem parseTokens_ends (tokens : List Token) {stop : Token} (hstop : stop.kind = .eof) :
    (∃ root, parseTokens tokens stop = .ok root) ∨ ∃ fault, parseTokens tokens stop = .error fault ∧
    fault.Among (tokens ++ [stop]) := by
  have hin : Cursor.Within (tokens ++ [stop]) { rest := tokens, stop } :=
    ⟨fun token htoken => mem_append_left _ htoken, mem_append_right _ (mem_singleton_self stop), hstop⟩
  have hunits : Reader.Halts Reader.compilationUnit := inferInstance
  have hended := hunits.ends _ _ _ hin (Nat.lt_succ_self tokens.length)
  rw [parseTokens]
  cases hunit : Reader.compilationUnit { rest := tokens, stop } with
  | ok found => exact .inl ⟨found.1, rfl⟩
  | error fault =>
    rw [hunit] at hended
    exact .inr ⟨fault, rfl, hended⟩

/-! ## Scanning -/

/-- A token takes a character, and a text without one is refused for a cause of its own. -/
def Scans : Except Cause (TokenKind × Nat) → Prop
  | .ok (_, n) => 0 < n
  | .error cause => cause ≠ .exhausted

theorem scans_integral {value : Option Int} {whole : List Char} (isLong : Bool) (hwhole : 0 < whole.length) :
    Scans (match value with
      | some n => .ok (if isLong then (.long n, whole.length + 1) else (.integer n, whole.length))
      | none => .error (.invalidNumber (String.ofList whole))) := by
  cases value with
  | none => exact Cause.noConfusion
  | some n =>
    cases isLong
    · exact hwhole
    · exact Nat.succ_pos _

theorem scans_number {c : Char} (rest : List Char) (h : c.isDigit = true) : Scans (number (c :: rest)) := by
  have hwhole : 0 < ((c :: rest).takeWhile Char.isDigit).length := by simp [takeWhile_cons_of_pos h]
  rw [number]
  split
  · dsimp only
    split
    · rw [length_append]
      exact Nat.add_pos_left (Nat.add_pos_left hwhole _) _
    · exact scans_integral _ hwhole
  · exact scans_integral _ hwhole

variable {cs : List Char}

theorem scans_lexeme (h : cs ≠ []) : Scans (lexeme cs) := by
  obtain ⟨c, rest, rfl⟩ := exists_cons_of_ne_nil h
  have hmarks : ∀ mark ∈ punctuation, 0 < mark.length := by decide
  simp only [lexeme]
  split
  · split
    · exact Nat.succ_pos _
    · exact Cause.noConfusion
  split
  · split
    · exact Cause.noConfusion
    · exact Nat.succ_pos _
  split
  · split
    · exact Nat.succ_pos _
    · exact Cause.noConfusion
  split
  · exact scans_number rest ‹_›
  split
  · exact length_pos_iff.mpr (isName_takeWhile ‹_›).ne_nil
  split
  · exact hmarks _ (mem_of_find?_eq_some ‹_›)
  · exact Cause.noConfusion

theorem ne_exhausted_of_skipLength {cause : Cause} (h : skipLength cs = .error cause) : cause ≠ .exhausted := by
  rw [skipLength.eq_def] at h
  split at h
  · cases h
  · split at h
    · cases h
    · cases h
      exact Cause.noConfusion
  · cases h
  · cases h

/-- With fuel for each character scanning does not run out of it. -/
theorem ne_exhausted_of_scanFrom {fuel : Nat} {place : Place} (hfuel : cs.length ≤ fuel) {fault : Fault}
    (h : scanFrom fuel place cs = .error fault) : fault.cause ≠ .exhausted := by
  fun_induction scanFrom fuel place cs with
  | case1 => cases h
  | case2 _ _ hne => exact absurd (length_eq_zero_iff.mp (Nat.le_zero.mp hfuel)) hne
  | case3 _ _ _ _ _ hskip =>
    cases h
    exact ne_exhausted_of_skipLength hskip
  | case4 _ _ cs _ n _ ih =>
    refine ih ?_ h
    rw [length_drop]
    omega
  | case5 _ _ _ hne _ _ hlexeme =>
    cases h
    have hscans := scans_lexeme hne
    rw [hlexeme] at hscans
    exact hscans
  | case6 _ fuel cs hne _ kind n hlexeme stop ih =>
    have hscans := scans_lexeme hne
    rw [hlexeme] at hscans
    have hpos : 0 < n := hscans
    have hleft : (cs.drop n).length ≤ fuel := by
      rw [length_drop]
      omega
    cases hrest : scanFrom fuel stop (cs.drop n) with
    | error fault =>
      rw [hrest] at h
      cases h
      exact ih hleft hrest
    | ok found =>
      rw [hrest] at h
      cases h

theorem tokenize_ends (unit text : String) :
    (∃ tokens stop, tokenize unit text = .ok (tokens ++ [stop]) ∧ stop.kind = .eof) ∨
      ∃ fault, tokenize unit text = .error ⟨unit, fault⟩ ∧ fault.cause ≠ .exhausted := by
  rw [tokenize, scan]
  cases hscan : scanFrom text.toList.length {} text.toList with
  | error fault => exact .inr ⟨fault, rfl, ne_exhausted_of_scanFrom (Nat.le_refl _) hscan⟩
  | ok found => exact .inl ⟨found.1, Token.endAt found.2, rfl, rfl⟩

/-- Every text is scanned to an end, and every list of tokens before an end mark is read to one: to a unit, or to a
fault at one of the tokens. -/
theorem parsing_ends :
    (∀ unit text, (∃ tokens stop, tokenize unit text = .ok (tokens ++ [stop]) ∧ stop.kind = .eof) ∨
      ∃ fault, tokenize unit text = .error ⟨unit, fault⟩ ∧ fault.cause ≠ .exhausted) ∧
    ∀ tokens stop, stop.kind = .eof → (∃ root, parseTokens tokens stop = .ok root) ∨
      ∃ fault, parseTokens tokens stop = .error fault ∧ fault.cause ≠ .exhausted ∧
        ∃ token ∈ tokens ++ [stop], fault.line = token.line ∧ fault.column = token.column := by
  refine ⟨tokenize_ends, fun tokens stop hstop => ?_⟩
  rcases parseTokens_ends tokens hstop with hroot | ⟨fault, hfault, hamong⟩
  · exact .inl hroot
  · exact .inr ⟨fault, hfault, hamong.ne_exhausted, hamong.place⟩

def unclosedOperand : List Token :=
  [⟨.identifier "class", 1, 1, 1, 6⟩, ⟨.identifier "A", 1, 7, 1, 8⟩, ⟨.punct openBrace, 1, 9, 1, 10⟩,
   ⟨.identifier "T", 1, 11, 1, 12⟩, ⟨.identifier "x", 1, 13, 1, 14⟩, ⟨.punct "=", 1, 15, 1, 16⟩,
   ⟨.punct "(", 1, 17, 1, 18⟩, ⟨.identifier "b", 1, 18, 1, 19⟩]

/-- What might be a cast is tried again as an operand, which has no end. -/
theorem unclosedOperand_refused : (Token.endAt ⟨1, 19⟩).kind = .eof ∧ ∃ fault,
    parseTokens unclosedOperand (Token.endAt ⟨1, 19⟩) = .error fault ∧ fault.cause ≠ .exhausted ∧
      ∃ token ∈ unclosedOperand ++ [Token.endAt ⟨1, 19⟩], fault.line = token.line ∧ fault.column = token.column := by
  refine ⟨rfl, ?_⟩
  have hnone : (parseTokens unclosedOperand (Token.endAt ⟨1, 19⟩)).toOption.isNone = true := by decide +kernel
  rcases parsing_ends.2 unclosedOperand (Token.endAt ⟨1, 19⟩) rfl with ⟨root, hroot⟩ | hfault
  · rw [hroot] at hnone
    cases hnone
  · exact hfault

end ApexPaths.Source
