import ApexPaths.Proofs.Source.Spans
import Mathlib.Data.List.Chain

/-!
Every tree of a source that is accepted is nested. Each production is read from its first token on: its parts stand one
behind the other where they were read, and the node spans them all. A reader that begins with a token says so, since a
span ends with the last token that was taken.
-/

set_option autoImplicit false

namespace ApexPaths.Source.Reader

/-- The reader takes a token for a tree, which stands where it was read. -/
def Spans (read : Reader Tree) : Prop := ∀ low begun, Lays low begun read true (Between low)

/-- Behind some token, the trees stand one behind the other where they were read. -/
def Aligns (read : Reader (List Tree)) : Prop := ∀ low, Lays low true read true (Row low)

theorem Spans.within {read : Reader Tree} (h : Spans read) {first low : Place} {begun : Bool} (hle : first ≤ low) :
    Lays low begun read true (Between first) := (h low begun).imp fun _ _ _ ht => ht.lower hle

/-! ## Repetitions -/

section
variable {item : Reader Tree} (h : Spans item)
include h

theorem aligns_commaSeparated (n : Nat) : Aligns (commaSeparated item n) := by
  induction n with
  | zero => exact fun _ => .fail
  | succ n ih =>
    refine fun low => .bind (h low true) fun mid first _ hfirst => .after fun more => .ite (fun _ => ?_) fun _ =>
      .done hfirst.row
    exact .bind (ih mid) fun _ rest _ hrest => .done (.cons hfirst hrest)

theorem aligns_itemsUntil (close : String) (n : Nat) : Aligns (itemsUntil close item n) := by
  induction n with
  | zero => exact fun _ => .fail
  | succ n ih =>
    refine fun low => .after fun closed => .ite (fun _ => .done (.nil (le_refl low))) fun _ =>
      .bind (h low true) fun mid first _ hfirst => ?_
    refine .after fun more => .ite (fun _ => ?_) fun _ => .done hfirst.row
    exact .bind (ih mid) fun _ rest _ hrest => .done (.cons hfirst hrest)

theorem aligns_itemsInBraces (n : Nat) : Aligns (itemsInBraces item n) := by
  induction n with
  | zero => exact fun _ => .fail
  | succ n ih =>
    refine fun low => .after fun closed => .ite (fun _ => .done (.nil (le_refl low))) fun _ => .after fun ended =>
      .ite (fun _ => .unexpected) fun _ => ?_
    refine .after fun skipped => .ite (fun _ => ih low) fun _ => .bind (h low true) fun mid first _ hfirst => ?_
    exact .bind (ih mid) fun _ rest _ hrest => .done (.cons hfirst hrest)

end

/-! ## Names and types -/

section
variable {α : Type} {item : Reader α} [h : Onward item]

instance (n : Nat) : Onward (commaSeparated item n) := by
  induction n with
  | zero => exact inferInstanceAs (Onward (fail _))
  | succ n ih =>
    rw [commaSeparated]
    infer_instance

instance (close : String) (n : Nat) : Onward (itemsUntil close item n) := by
  induction n with
  | zero => exact inferInstanceAs (Onward (fail _))
  | succ n ih =>
    rw [itemsUntil]
    infer_instance

end

instance (n : Nat) : Onward (dottedWords n) := by
  induction n with
  | zero => exact inferInstanceAs (Onward (fail _))
  | succ n ih =>
    rw [dottedWords]
    infer_instance

instance (n : Nat) : Onward (arrayMarks n) := by
  induction n with
  | zero => exact inferInstanceAs (Onward (fail _))
  | succ n ih =>
    rw [arrayMarks]
    infer_instance

instance (n : Nat) : Onward (typeNameWithin n) := by
  induction n with
  | zero => exact inferInstanceAs (Onward (fail _))
  | succ n ih =>
    rw [typeNameWithin]
    unfold typeNameWith
    infer_instance

instance : Onward typeName := inferInstanceAs (Onward (bounded _))

instance (n : Nat) : Onward (chainedNames n) := by
  induction n with
  | zero => exact inferInstanceAs (Onward (fail _))
  | succ n ih =>
    rw [chainedNames]
    infer_instance

instance : Onward castHeader := by
  unfold castHeader
  infer_instance

/-! ## Names and operands -/

theorem between_reference {start : Token} (hle : start.start ≤ start.finish) (names : List String) :
    Between start.start start.finish (reference start names) := by
  unfold reference
  split
  · exact .node (le_refl _) (le_refl _) (.nil hle)
  · exact .node (le_refl _) (le_refl _) (.nil hle)

section
variable {expr : Reader Tree} (h : Spans expr)
include h

theorem lays_arguments (low : Place) (begun : Bool) : Lays low begun (arguments expr) true (Row low) :=
  .take fun _ => .bind (.bounded fun n => aligns_itemsUntil h ")" n low) fun _ _ _ hargs => .take fun _ => .done hargs

theorem lays_callOn {start : Token} {first : Place} (hfirst : first ≤ start.start) (hle : start.start ≤ start.finish)
    (names : List String) (method : String) : Lays start.finish true (callOn expr start names method) true
    (Between first) :=
  .bind (lays_arguments h start.finish true) fun _ _ _ hargs => .node hfirst (.cons (between_reference hle names) hargs)

theorem spans_nameChain : Spans (nameChain expr) := by
  refine fun low begun => .looking fun start hstart => .peek (.identifier fun first hle => .after fun chained => ?_)
  refine .after fun called => .ite (fun _ => lays_callOn h hstart hle _ _) fun _ => ?_
  refine .after fun dotted => .after fun next =>
    .ite (fun _ => .after fun _ => .after fun _ => .node hstart (.nil hle)) fun _ => ?_
  refine .after fun dotted => .after fun next => .after fun second => .ite (fun _ => ?_) fun _ => ?_
  · exact .after fun _ => .after fun method => lays_callOn h hstart hle _ _
  · exact .node hstart (between_reference hle _).row

theorem spans_entry (isMap : Bool) : Spans (entry expr isMap) := by
  refine fun low begun => .peek fun start hstart => .bind (h start.start false) fun mid first _ hfirst =>
    .ite (fun _ => ?_) fun _ => ?_
  · exact .take fun _ => .bind (h mid true) fun _ value _ hvalue => .node hstart (.cons hfirst hvalue.row)
  · exact .done (hfirst.lower hstart)

theorem spans_construction : Spans (construction expr) := by
  refine fun low begun => .expectWord fun start hstart => .after fun ty => .after fun sized =>
    .ite (fun _ => ?_) fun _ => ?_
  · exact .bind (h start.start true) fun mid _ hmid _ => .after fun _ => .node hstart (.nil hmid)
  refine .after fun called => .ite (fun _ => ?_) fun _ => .after fun _ => ?_
  · exact .bind (lays_arguments h start.start true) fun _ _ _ hargs => .node hstart hargs
  · exact .bind (.bounded fun n => aligns_itemsUntil (spans_entry h _) closeBrace n start.start)
      fun _ entries _ hentries =>
      .after fun _ => .node hstart hentries

theorem laysAt_selfReference {start : Token} {first : Place} (hfirst : first ≤ start.start) (hne : start.kind ≠ .eof) :
    LaysAt start (selfReference expr start) true (Between first) := by
  refine .begin hne (.after fun called => .ite (fun _ => ?_) fun _ => .node hfirst (.nil (le_refl _)))
  exact .bind (lays_arguments h start.start true) fun _ _ _ hargs => .node hfirst hargs

theorem spans_primary : Spans (primary expr) := by
  refine fun low begun => .looking fun token hle => .peek ?_
  split
  · exact .begin (ne_eof_of_literal? ‹_›) (.node hle (.nil (le_refl _)))
  split
  · rename_i hquery
    exact .begin (fun heof => TokenKind.noConfusion (hquery.symm.trans heof)) (.node hle (.nil (le_refl _)))
  refine .eat (fun hspan => .bind (h token.finish true) fun mid inner _ hinner => .after fun _ => ?_)
    (.ite (absurd · Bool.false_ne_true) fun _ => ?_)
  · exact .done (hinner.lower (hle.trans hspan))
  refine .ite (fun hself => laysAt_selfReference h hle ?_) fun _ => .ahead fun next => ?_
  · rcases (Bool.or_eq_true _ _).mp hself with hself | hself
    · exact Token.ne_eof_of_isWord hself
    · exact Token.ne_eof_of_isWord hself
  refine .ite (fun _ => .of_lays ((spans_construction h).within hle)) fun _ => ?_
  exact .ite (fun _ => .of_lays ((spans_nameChain h).within hle)) fun _ => .unexpected

theorem lays_postfixTail (start : Token) (n : Nat) :
    ∀ low operand, Between start.start low operand →
    Lays low true (postfixTail expr start operand n) true (Between start.start) := by
  induction n with
  | zero => exact fun _ _ _ => .fail
  | succ n ih =>
    intro low operand hoperand
    refine .after fun dotted => .after fun next => .ite (fun _ => .after fun _ => .after fun name => ?_) fun _ => ?_
    · refine .after fun called =>
        .ite (fun _ => .bind (lays_arguments h low true) fun mid args _ hargs => ?_) fun _ => ?_
      · exact .spanFrom fun _ hspan hstop => ih _ _ (.spanned hspan hstop (.cons hoperand hargs))
      · exact .spanFrom fun _ hspan hstop => ih _ _ (.spanned hspan hstop hoperand.row)
    refine .after fun opened => .ite (fun _ => .bind (h low true) fun mid index _ hindex => .after fun _ => ?_)
      fun _ => .after fun found => ?_
    · exact .spanFrom fun _ hspan hstop => ih _ _ (.spanned hspan hstop (.cons hoperand hindex.row))
    split
    · exact .after fun _ => .spanFrom fun _ hspan hstop => ih _ _ (.spanned hspan hstop hoperand.row)
    · exact .done hoperand

theorem spans_postfixExpression : Spans (postfixExpression expr) := by
  refine fun low begun => .peek fun start hstart =>
    .bind (spans_primary h start.start false) fun mid operand _ hoperand => ?_
  exact .bounded fun n => (lays_postfixTail h start n mid operand hoperand).imp fun _ _ _ ht => ht.lower hstart

end

/-! ## Operators -/

section
variable {operand : Reader Tree} (h : Spans operand)
include h

theorem spans_unaryOver (n : Nat) : Spans (unaryOver operand n) := by
  induction n with
  | zero => exact fun _ _ => .fail
  | succ n ih =>
    refine fun low begun => .looking fun start hstart => .peek (.checkAny ?_)
    split
    · exact .begin (Token.ne_eof_of_find? ‹_›) (.bind (ih start.start true) fun _ inner _ hinner =>
        .node hstart hinner.row)
    · refine .of_lays (.after fun opened => .ite (fun _ => .attempt (fun ty => ?_) (h.within hstart)) fun _ =>
        .given (h.within hstart))
      exact .bind (ih start.start true) fun _ inner _ hinner => .node hstart hinner.row

theorem lays_binaryTail (level : Level) (start : Token) (n : Nat) :
    ∀ low left, Between start.start low left →
    Lays low true (binaryTail level operand start left n) true (Between start.start) := by
  induction n with
  | zero => exact fun _ _ _ => .fail
  | succ n ih =>
    intro low left hleft
    refine .after fun tests => .ite (fun _ => .after fun _ => .after fun ty => ?_) fun _ => .after fun found => ?_
    · exact .spanFrom fun _ hspan hstop => ih _ _ (.spanned hspan hstop hleft.row)
    split
    · refine .after fun _ => .bind (h low true) fun mid right _ hright => ?_
      exact .spanFrom fun _ hspan hstop => ih _ _ (.spanned hspan hstop (.cons hleft hright.row))
    · exact .done hleft

theorem spans_binaryOver (levels : List Level) : Spans (binaryOver operand levels) := by
  induction levels with
  | nil => exact h
  | cons level tighter ih =>
    refine fun low begun => .peek fun start hstart => .bind (ih start.start false) fun mid left _ hleft =>
      .bounded fun n => ?_
    exact (lays_binaryTail ih level start n mid left hleft).imp fun _ _ _ ht => ht.lower hstart

end

section
variable {expr : Reader Tree} (h : Spans expr)
include h

theorem spans_ternaryOver {operand : Reader Tree} (hoperand : Spans operand) (n : Nat) :
    Spans (ternaryOver expr operand n) := by
  induction n with
  | zero => exact fun _ _ => .fail
  | succ n ih =>
    refine fun low begun => .peek fun start hstart =>
      .bind (hoperand start.start false) fun mid condition _ hcondition => .after fun chooses => ?_
    refine .ite (fun _ => .bind (h mid true) fun high whenTrue _ htrue => ?_) fun _ => .done (hcondition.lower hstart)
    exact .after fun _ => .bind (ih high true) fun _ whenFalse _ hfalse =>
      .node hstart (.cons hcondition (.cons htrue hfalse.row))

theorem spans_unaryWith : Spans (unaryWith expr) :=
  fun low begun => .bounded fun n => spans_unaryOver (spans_postfixExpression h) n low begun

theorem spans_expressionWith : Spans (expressionWith expr) := by
  have htarget : ∀ n, Spans (ternaryOver expr (binaryOver (unaryWith expr) levels) n) :=
    spans_ternaryOver h (spans_binaryOver (spans_unaryWith h) levels)
  refine fun low begun => .peek fun start hstart =>
    .bind (.bounded fun n => htarget n start.start false) fun mid target _ ht => ?_
  refine .after fun found => ?_
  split
  · exact .after fun _ => .bind (h mid true) fun _ value _ hvalue => .node hstart (.cons ht hvalue.row)
  · exact .done (ht.lower hstart)

end

theorem spans_expression : Spans expression := by
  have hwithin : ∀ n, Spans (expressionWithin n) := by
    intro n
    induction n with
    | zero => exact fun _ _ => .fail
    | succ n ih => exact spans_expressionWith ih
  exact fun low begun => .bounded fun n => hwithin n low begun

theorem spans_unary : Spans unary := spans_unaryWith spans_expression

/-! ## Parts of statements -/

instance (followers : List String) : Onward (localHeader followers) := by
  unfold localHeader
  infer_instance

instance : Onward typeCaseHeader := by
  unfold typeCaseHeader
  infer_instance

theorem lays_declarators (kind : NodeKind) (ty : String) (n : Nat) : ∀ low start name, start.start ≤ low →
    Lays low true (declarators kind ty start name n) true (Row start.start) := by
  induction n with
  | zero => exact fun _ _ _ _ => .fail
  | succ n ih =>
    intro low start name hle
    refine .after fun assigned => .ite (fun _ => .bind (spans_expression low true) fun mid value _ hvalue =>
      have hrow := (hvalue.lower hle).row
      .given ?_) fun _ =>
        have hrow := Row.nil hle
        .given ?_
    all_goals
      refine .spanFrom fun span hspan hstop => .after fun more =>
        .ite (fun _ => .peek fun next hnext => .take fun name => ?_) fun _ => ?_
      · exact .bind (ih next.start next name (le_refl _)) fun _ rest _ hrest =>
          .done (.cons (.spanned hspan hstop hrow) (hrest.lower hnext))
      · exact .done (Between.spanned hspan hstop hrow).row

theorem lays_variableDeclarations {start : Token} {first low : Place} (hfirst : first ≤ start.start)
    (hle : start.start ≤ low) (ty name : String) : Lays low true (variableDeclarations start ty name) true
    (Between first) :=
  .bind (.bounded fun n => lays_declarators .variableDeclaration ty n low start name hle) fun _ _ _ hchildren =>
  .node hfirst hchildren

theorem spans_condition : Spans condition :=
  fun low begun => .bind (spans_expression low begun) fun _ _ _ hexpr => .done hexpr.wrap

theorem spans_expressionPart : Spans expressionPart :=
  fun low begun => .bind (spans_expression low begun) fun _ _ _ hexpr => .done hexpr.wrap

theorem spans_whenCase : Spans whenCase := by
  refine fun low begun => .peek fun start hstart => .after fun next => .ite (fun _ => .take fun name => ?_) fun _ => ?_
  · exact .node hstart (.nil (le_refl _))
  · exact .bind (spans_unary start.start false) fun _ value _ hvalue => .node hstart hvalue.row

theorem lays_none (low : Place) : Lays low true (pure none : Reader (Option Tree)) true fun mid found =>
    Row low mid found.toList :=
  .pure (.nil (le_refl low))

theorem lays_some {read : Reader Tree} (h : Spans read) (low : Place) :
    Lays low true (some <$> read) true fun mid found => Row low mid found.toList :=
  .map ((h low true).imp fun _ _ _ ht => ht.row)

theorem lays_loopInit (header : Token) :
    Lays header.start false (loopInit header) false fun mid found => Row header.start mid found.toList := by
  refine .after fun missing => .ite (fun _ => .pure (.nil (le_refl _))) fun _ => .attempt (fun found => ?_) ?_
  · exact .bind (lays_variableDeclarations (le_refl _) (le_refl _) _ _) fun _ _ _ ht => .done ht.row
  · exact .bind (spans_expressionPart header.start false) fun _ _ _ ht => .done ht.row

theorem spans_returnStatement : Spans returnStatement := by
  refine fun low begun => .expectWord fun start hstart => .after fun bare => .ite (fun _ => .given ?_) fun _ => ?_
  · exact .after fun _ => .node hstart (.nil (le_refl _))
  · exact .bind (spans_expression start.start true) fun _ value _ hvalue =>
      .given (.after fun _ => .node hstart hvalue.row)

theorem spans_throwStatement : Spans throwStatement := by
  refine fun low begun => .advance fun start hstart =>
    .bind (spans_expression start.start false) fun _ value _ hvalue => ?_
  exact .after fun _ => .node hstart hvalue.row

theorem spans_jumpStatement : Spans jumpStatement :=
  fun _ _ => .advance fun _ hstart => .take fun _ => .node hstart (.nil (le_refl _))

instance : Onward recordOperation? := by
  refine .bind inferInstance fun token => .bind inferInstance fun next => ?_
  split <;> infer_instance

theorem spans_recordStatement (kind : NodeKind) : Spans (recordStatement kind) := by
  refine fun low begun => .advance fun start hstart => .after fun next => .after fun granted =>
    .ite (fun _ => .after fun _ => .after fun _ => ?_) fun _ => ?_
  all_goals
    refine .bind (spans_expression start.start false) fun mid operand _ hoperand =>
      .ite (fun _ => .bind (spans_expression mid true) fun high second _ hsecond =>
      have hrow := Row.cons hoperand hsecond.row
      .given ?_) fun _ =>
        have hrow := hoperand.row
        .given ?_
  all_goals refine .after fun ended => .ite (fun _ => .after fun field => .given ?_) fun _ => .given ?_
  all_goals exact .after fun _ => .node hstart hrow

theorem spans_simpleStatement : Spans simpleStatement := by
  refine fun low begun => .peek fun start hstart => .attempt (fun header => ?_) ?_
  · exact .bind (lays_variableDeclarations hstart (le_refl _) _ _) fun _ node _ hnode => .after fun _ => .done hnode
  · exact .bind (spans_expression start.start false) fun _ expr _ hexpr => .after fun _ => .node hstart hexpr.row

/-! ## Statements -/

section
variable {statement : Reader Tree} (h : Spans statement)
include h

theorem spans_blockWith : Spans (blockWith statement) := fun _ _ =>
  .expect fun start hstart => .bind (.bounded fun n => aligns_itemsInBraces h n start.start) fun _ _ _ hchildren =>
  .node hstart hchildren

theorem spans_bodyWith : Spans (bodyWith statement) := by
  refine fun low begun => .after fun opened => .ite (fun _ => spans_blockWith h low begun) fun _ => ?_
  exact .bind (h low begun) fun _ inner _ hinner => .done hinner.wrap

theorem lays_ifBranches (n : Nat) : ∀ low begun, Lays low begun (ifBranches statement n) true (Row low) := by
  induction n with
  | zero => exact fun _ _ => .fail
  | succ n ih =>
    refine fun low begun => .expectWord fun start hstart => .after fun _ =>
      .bind (spans_condition start.start true) fun mid test _ htest => ?_
    refine .after fun _ => .bind (spans_bodyWith h mid true) fun high body _ hbody =>
      .spanFrom fun span hspan hstop => ?_
    have hbranch : Between low span.stop { kind := .ifBlockStatement, span, children := [test, body] } :=
      (Between.spanned hspan hstop (.cons htest hbody.row)).lower hstart
    refine .after fun more => .ite (fun _ => .after fun chained => .ite (fun _ => ?_) fun _ => ?_) fun _ =>
      .done hbranch.row
    · exact .bind (ih span.stop true) fun _ rest _ hrest => .done (.cons hbranch hrest)
    · exact .bind (spans_bodyWith h span.stop true) fun _ otherwise _ hother => .done (.cons hbranch hother.row)

theorem spans_ifStatement : Spans (ifStatement statement) := fun _ _ =>
  .peek fun start hstart => .bind (.bounded fun n => lays_ifBranches h n start.start false) fun _ _ _ hchildren =>
  .node hstart hchildren

theorem spans_whenBlock : Spans (whenBlock statement) := by
  refine fun low begun => .expectWord fun start hstart => .after fun otherwise => .after fun next =>
    .ite (fun _ => .after fun _ => ?_) fun _ =>
    .attempt (fun header => ?_) ?_
  · exact .bind (spans_blockWith h start.start true) fun _ body _ hbody => .node hstart hbody.row
  · exact .bind (spans_blockWith h start.start true) fun _ body _ hbody => .node hstart hbody.row
  · refine .bind (.bounded fun n => aligns_commaSeparated spans_whenCase n start.start) fun mid cases _ hcases => ?_
    exact .bind (spans_blockWith h mid true) fun _ body _ hbody => .node hstart (hcases.append hbody.row)

theorem aligns_whenBlocks (n : Nat) : Aligns (whenBlocks statement n) := by
  induction n with
  | zero => exact fun _ => .fail
  | succ n ih =>
    refine fun low => .after fun closed => .ite (fun _ => .done (.nil (le_refl low))) fun _ => ?_
    exact .bind (spans_whenBlock h low true) fun mid first _ hfirst => .bind (ih mid) fun _ rest _ hrest =>
      .done (.cons hfirst hrest)

theorem spans_switchStatement : Spans (switchStatement statement) := by
  refine fun low begun => .expectWord fun start hstart => .after fun _ =>
    .bind (spans_expression start.start true) fun mid subject _ hsubject => ?_
  exact .after fun _ => .bind (.bounded fun n => aligns_whenBlocks h n mid) fun _ whens _ hwhens =>
    .after fun _ => .node hstart (.cons hsubject hwhens)

theorem lays_forEachStatement {start header : Token} {first low : Place} (hfirst : first ≤ start.start)
    (hhead : start.start ≤ header.start) (hle : header.start ≤ low) (ty name : String) :
    Lays low true (forEachStatement statement start header ty name) true (Between first) := by
  refine .spanFrom fun span hspan hstop => .after fun _ =>
    .bind (spans_expression span.stop true) fun mid iterable _ hiterable => ?_
  refine .after fun _ => .bind (spans_bodyWith h mid true) fun high body _ hbody => .node hfirst ?_
  exact .cons (((Between.spanned hspan hstop (.nil hle)).wrap).lower hhead) (.cons hiterable hbody.row)

theorem lays_forLoopStatement {start header : Token} {first : Place} (hfirst : first ≤ start.start)
    (hhead : start.start ≤ header.start) : Lays header.start false (forLoopStatement statement start header) true
    (Between first) := by
  refine .bind (lays_loopInit header) fun mid init _ hinit => .take fun _ => .after fun noTest => ?_
  refine .either (lays_none mid) (lays_some spans_condition mid) fun high test _ htest => .after fun _ =>
    .after fun noUpdate => ?_
  refine .either (lays_none high) (lays_some spans_expressionPart high) fun top update _ hupdate =>
    .after fun more => ?_
  refine .ite (fun _ => .unexpected) fun _ => .after fun _ => .bind (spans_bodyWith h top true) fun _ body _ hbody => ?_
  exact .node hfirst ((((hinit.lower hhead).append htest).append hupdate).append hbody.row)

theorem spans_forStatement : Spans (forStatement statement) := by
  refine fun low begun => .expectWord fun start hstart => .after fun _ => .peek fun header hheader =>
    .attempt (fun found => ?_) ?_
  · exact lays_forEachStatement h hstart hheader (le_refl _) _ _
  · exact lays_forLoopStatement h hstart hheader

theorem spans_whileStatement : Spans (whileStatement statement) := by
  refine fun low begun => .expectWord fun start hstart => .after fun _ =>
    .bind (spans_condition start.start true) fun mid test _ htest => ?_
  exact .after fun _ => .bind (spans_bodyWith h mid true) fun _ body _ hbody => .node hstart (.cons htest hbody.row)

theorem spans_doStatement : Spans (doStatement statement) := by
  refine fun low begun => .expectWord fun start hstart =>
    .bind (spans_blockWith h start.start true) fun mid body _ hbody => ?_
  refine .after fun _ => .after fun _ => .bind (spans_condition mid true) fun high test _ htest => .after fun _ =>
    .after fun _ => ?_
  exact .node hstart (.cons hbody htest.row)

theorem aligns_catchBlocks (n : Nat) : Aligns (catchBlocks statement n) := by
  induction n with
  | zero => exact fun _ => .fail
  | succ n ih =>
    refine fun low => .after fun more => .ite (fun _ => .advance fun start hstart => .take fun _ => ?_) fun _ =>
      .done (.nil (le_refl low))
    refine .after fun _ => .after fun ty => .after fun name => .after fun _ =>
      .bind (spans_blockWith h start.start true) fun mid body _ hbody => ?_
    refine .spanFrom fun span hspan hstop => .bind (ih span.stop) fun _ rest _ hrest => .done ?_
    exact .cons ((Between.spanned hspan hstop hbody.row).lower hstart) hrest

theorem spans_tryStatement : Spans (tryStatement statement) := by
  refine fun low begun => .expectWord fun start hstart =>
    .bind (spans_blockWith h start.start true) fun mid body _ hbody => ?_
  refine .bind (.bounded fun n => aligns_catchBlocks h n mid) fun high catches _ hcatches => .after fun hasFinally => ?_
  have hhandled := Row.cons hbody hcatches
  refine .ite (fun _ => .bind (spans_blockWith h high true) fun top final _ hfinal =>
    have hrow := hhandled.append hfinal.row
    .given ?_) fun _ =>
      have hrow := hhandled.append (.nil (le_refl high))
      .given ?_
  all_goals exact .ite (fun _ => .unexpected) fun _ => .node hstart hrow

theorem spans_statementWith : Spans (statementWith statement) := by
  refine fun low begun => .after fun token => .after fun next => .ite (fun _ => spans_blockWith h low begun) fun _ => ?_
  refine .ite (fun _ => spans_ifStatement h low begun) fun _ =>
    .ite (fun _ => spans_forStatement h low begun) fun _ => ?_
  refine .ite (fun _ => spans_whileStatement h low begun) fun _ =>
    .ite (fun _ => spans_doStatement h low begun) fun _ => ?_
  refine .ite (fun _ => spans_switchStatement h low begun) fun _ =>
    .ite (fun _ => spans_tryStatement h low begun) fun _ => ?_
  refine .ite (fun _ => spans_returnStatement low begun) fun _ =>
    .ite (fun _ => spans_throwStatement low begun) fun _ => ?_
  refine .ite (fun _ => spans_jumpStatement low begun) fun _ => .after fun found => ?_
  split
  · exact spans_recordStatement _ low begun
  · exact spans_simpleStatement low begun

end

theorem spans_statement : Spans statement := by
  have hwithin : ∀ n, Spans (statementWithin n) := by
    intro n
    induction n with
    | zero => exact fun _ _ => .fail
    | succ n ih => exact spans_statementWith ih
  exact fun low begun => .bounded fun n => hwithin n low begun

theorem spans_block : Spans block := spans_blockWith spans_statement

/-! ## Members -/

instance («open» close : String) (depth n : Nat) : Onward (skipBalanced «open» close depth n) := by
  induction n generalizing depth with
  | zero => exact inferInstanceAs (Onward (fail _))
  | succ n ih =>
    refine .bind inferInstance fun ended => ?_
    split
    · infer_instance
    refine .bind inferInstance fun token => ?_
    split
    · exact ih (depth + 1)
    split
    · cases depth with
      | zero => exact inferInstanceAs (Onward (pure ()))
      | succ depth => exact ih depth
    · exact ih depth

instance (n : Nat) : Onward (modifiersWithin n) := by
  induction n with
  | zero => exact inferInstanceAs (Onward (fail _))
  | succ n ih =>
    refine .bind inferInstance fun token => ?_
    split
    · infer_instance
    split <;> infer_instance

instance : Onward modifiers := inferInstanceAs (Onward (bounded _))

instance : Onward accessorKind := by
  unfold accessorKind
  infer_instance

instance : Onward usage := by
  unfold usage
  infer_instance

theorem spans_parameter : Spans parameter := fun _ _ =>
  .peek fun _ hstart => .after fun _ => .take fun _ => .after fun _ => .node hstart (.nil (le_refl _))

theorem lays_optionalBlock (low : Place) (begun : Bool) : Lays low begun optionalBlock true (Row low) := by
  refine .after fun opened => .ite (fun _ => ?_) fun _ => .take fun _ => .done (.nil (le_refl low))
  exact .bind (spans_block low begun) fun _ body _ hbody => .done hbody.row

section
variable {start : Token} {first low : Place} {begun : Bool} (hfirst : first ≤ start.start) (hle : start.start ≤ low)
variable (words : List String) (name type : String)
include hfirst hle

theorem lays_methodRest (isConstructor : Bool) :
    Lays low begun (methodRest start words name type isConstructor) true (Between first) := by
  refine .take fun _ =>
    .bind (.bounded fun n => aligns_itemsUntil spans_parameter ")" n low) fun mid params _ hparams => .after fun _ => ?_
  exact .bind (lays_optionalBlock mid true) fun _ body _ hbody => .node hfirst ((hparams.append hbody).lower hle)

omit hfirst hle in
theorem aligns_accessors (n : Nat) : Aligns (accessors n) := by
  induction n with
  | zero => exact fun _ => .fail
  | succ n ih =>
    refine fun low => .after fun closed => .ite (fun _ => .done (.nil (le_refl low))) fun _ =>
      .peek fun start hstart => .after fun _ => ?_
    refine .after fun kind => .bind (lays_optionalBlock start.start false) fun mid body _ hbody =>
      .spanFrom fun span hspan hstop => ?_
    exact .bind (ih span.stop) fun _ rest _ hrest =>
      .done (.cons ((Between.spanned hspan hstop hbody).lower hstart) hrest)

theorem lays_propertyRest : Lays low begun (propertyRest start words name type) true (Between first) :=
  .take fun _ => .bind (.bounded fun n => aligns_accessors n low) fun _ _ _ hchildren => .after fun _ =>
  .node hfirst (hchildren.lower hle)

theorem lays_fieldRest : Lays low true (fieldRest start words name type) true (Between first) :=
  .bind (.bounded fun n => lays_declarators .fieldDeclaration type n low start name hle) fun _ _ _ hchildren =>
    .after fun _ => .node hfirst hchildren

end

section
variable {nested : Token → List String → Reader Tree}
variable (h : ∀ start words, Lays start.start false (nested start words) true (Between start.start)) (start : Token)
    (words : List String)

theorem lays_plainMember (className : String) :
    Lays start.start false (plainMember className start words) true (Between start.start) := by
  have hle := le_refl start.start
  refine .after fun token => .ite (fun _ => .ite (fun _ => ?_) fun _ => .unexpected) fun _ => .after fun next =>
    .ite (fun _ => ?_) fun _ => ?_
  · exact .bind (spans_block start.start false) fun _ body _ hbody => .node hle hbody.row
  · exact .after fun _ => lays_methodRest hle hle _ _ _ _
  refine .take fun ty => .after fun member => .after fun called =>
    .ite (fun _ => lays_methodRest hle hle _ _ _ _) fun _ => ?_
  exact .after fun opened => .ite (fun _ => lays_propertyRest hle hle _ _ _) fun _ => lays_fieldRest hle hle _ _ _

include h

theorem spans_memberWith (className : String) : Spans (memberWith nested className) := by
  refine fun low begun => .peek fun start hstart => .after fun words => .after fun token => .after fun next =>
    .ite (fun _ => ?_) fun _ => ?_
  · exact (h start words).imp fun _ _ _ ht => ht.lower hstart
  · exact (lays_plainMember start words className).imp fun _ _ _ ht => ht.lower hstart

theorem spans_interfaceMember (name : String) : Spans (interfaceMember nested name) := by
  refine fun low begun => .bind (spans_memberWith h name low begun) fun mid member _ hmember =>
    .ite (fun _ => .done hmember) fun _ => ?_
  intro cursor _ a cursor' ha
  cases ha

theorem lays_classRest : Lays start.start false (classRest nested start words) true (Between start.start) := by
  refine .take fun name => .after fun extended => .ite (fun _ => .after fun ty => .given ?_) fun _ => .given ?_
  all_goals
    refine .after fun implemented => .choice fun interfaces => .after fun _ => ?_
    exact .bind (.bounded fun n => aligns_itemsInBraces (spans_memberWith h name) n start.start) fun _ _ _ hchildren =>
      .node (le_refl _) hchildren

theorem lays_interfaceRest : Lays start.start false (interfaceRest nested start words) true (Between start.start) := by
  refine .take fun name => .after fun extended => .choice fun interfaces => .after fun _ => ?_
  exact .bind (.bounded fun n => aligns_itemsInBraces (spans_interfaceMember h name) n start.start)
    fun _ _ _ hchildren =>
    .node (le_refl _) hchildren

omit h in
theorem lays_enumRest : Lays start.start false (enumRest start words) true (Between start.start) :=
  .take fun _ => .after fun _ => .after fun _ => .after fun _ => .node (le_refl _) (.nil (le_refl _))

end

/-! ## Types -/

theorem lays_typeDeclarationWithin (n : Nat) :
    ∀ start words, Lays start.start false (typeDeclarationWithin n start words) true (Between start.start) := by
  induction n with
  | zero => exact fun _ _ => .fail
  | succ n ih =>
    intro start words
    refine .after fun isClass => .ite (fun _ => lays_classRest ih start words) fun _ => .after fun isInterface => ?_
    refine .ite (fun _ => lays_interfaceRest ih start words) fun _ => .after fun isEnum => ?_
    exact .ite (fun _ => lays_enumRest start words) fun _ => .unexpected

theorem lays_trigger (start : Token) : Lays start.start false (trigger start) true (Between start.start) := by
  refine .take fun _ => .after fun name => .after fun _ => .after fun target => .after fun _ => .after fun usages =>
    .after fun _ => ?_
  exact .bind (spans_block start.start true) fun _ body _ hbody => .node (le_refl _) hbody.row

theorem spans_compilationUnit : Spans compilationUnit := by
  refine fun low begun => .peek fun start hstart => .after fun words => .after fun isTrigger => ?_
  refine .either (lays_trigger start) (.bounded fun n => lays_typeDeclarationWithin n start words)
    fun _ root _ hroot => ?_
  exact .after fun ended => .ite (fun _ => .done (hroot.lower hstart)) fun _ => .unexpected

end ApexPaths.Source.Reader

namespace ApexPaths.Source

theorem nested_of_parseTree {text : String} {root : Tree} (h : parseTree text = .ok root) : root.Nested := by
  obtain ⟨⟨tokens, stop⟩, hscan, h⟩ := bind_eq_ok.mp h
  have h : parseTokens tokens stop = .ok root := h
  obtain ⟨⟨tree, cursor⟩, htree, h⟩ := bind_eq_ok.mp h
  cases h
  obtain ⟨⟨scanned, finish⟩, hscanned, hscan⟩ := bind_eq_ok.mp hscan
  cases hscan
  have hat : Cursor.At {} false { rest := tokens, stop := Token.endAt finish } :=
    ⟨inOrder_scanFrom hscanned, rfl, by simp, by simp⟩
  obtain ⟨_, _, _, hroot⟩ := Reader.spans_compilationUnit {} false _ hat _ _ htree
  exact hroot.nested

/-- In the tree of an accepted source every span ends where it starts or behind it, every child stands within its
parent, and of two neighbours the second starts where the first ends or behind it. -/
theorem spans_of_parse {name text : String} {unit : CompilationUnit} (h : parse name text = .ok unit) :
    ∀ node ∈ unit.root.nodes, node.span.start ≤ node.span.stop ∧
    (∀ child ∈ node.children, node.span.start ≤ child.span.start ∧ child.span.stop ≤ node.span.stop) ∧
    node.children.IsChain fun first second => first.span.stop ≤ second.span.start := by
  cases htree : parseTree text with
  | error fault => simp [parse, htree] at h
  | ok root =>
    obtain rfl : ⟨name, root⟩ = unit := by simpa [parse, htree] using h
    intro node hnode
    have hrow := nested_of_parseTree htree node hnode
    exact ⟨hrow.le, fun child hchild => hrow.within _ (List.mem_map_of_mem hchild), (List.isChain_map _).mp hrow.chain⟩

/-- Operands in parentheses, a call and a cast in the value of a field. -/
def operandsField : String := "class A { T x = (1 + (T) a.b(c))[0]; }"

theorem reads_operandsField : (parseTree operandsField).toOption.any (fun tree =>
    tree.nodes.any (·.kind == .arrayLoadExpression) && tree.nodes.any (·.kind == .castExpression)) = true := by
  decide +kernel

/-- A field whose value has a cast inside an array access. -/
theorem spans_operandsField : ∃ unit, parse "A" operandsField = .ok unit ∧
    (unit.root.nodes.any (·.kind == .arrayLoadExpression) && unit.root.nodes.any (·.kind == .castExpression)) = true ∧
    ∀ node ∈ unit.root.nodes, node.span.start ≤ node.span.stop ∧
      (∀ child ∈ node.children, node.span.start ≤ child.span.start ∧ child.span.stop ≤ node.span.stop) ∧
      node.children.IsChain fun first second => first.span.stop ≤ second.span.start := by
  obtain ⟨tree, hparse, hkinds⟩ := exists_unit reads_operandsField "A"
  exact ⟨⟨"A", tree⟩, hparse, hkinds, spans_of_parse hparse⟩

end ApexPaths.Source
