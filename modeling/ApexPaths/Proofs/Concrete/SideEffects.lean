import ApexPaths.Proofs.Concrete.Evaluation
import ApexPaths.Proofs.Concrete.Tracking

/-!
Side effects under conditions that are not known. The evaluation of an expression over local variables needs
nothing but the running method, always returns, and tracks every concrete evaluation. Where the operand that
decides is not known, all branches write into one frame, though each outcome runs one of them at most: what the
frame then says of a variable that a branch writes is right only if the outcomes agree.
-/

namespace ApexPaths
set_option autoImplicit false

open WalkM Concrete List CodeGraph

variable {σ : Type}

/-! ## Computations that return -/

/-- From every state with these running methods a computation returns, and something holds of its result and of the
running methods then. -/
structure Returns {α : Type} (frames : List Frame) (m : WalkM σ α) (post : α → List Frame → Prop) : Prop where
  run : ∀ state, state.symbols.frames = frames → ∃ a left, m.run state = (.ok a, left) ∧ post a left.symbols.frames

namespace Returns

variable {α β : Type} {frames : List Frame} {post : α → List Frame → Prop} {post' : β → List Frame → Prop}
    {top : Frame} {rest : List Frame}

theorem pure {a : α} (h : post a frames) : Returns frames (Pure.pure a : WalkM σ α) post :=
  ⟨fun state hframes => ⟨a, state, rfl, hframes ▸ h⟩⟩

theorem imp {m : WalkM σ α} {weaker : α → List Frame → Prop} (h : Returns frames m post)
    (himp : ∀ a left, post a left → weaker a left) : Returns frames m weaker := by
  refine ⟨fun state hframes => ?_⟩
  obtain ⟨a, left, hrun, hpost⟩ := h.run state hframes
  exact ⟨a, left, hrun, himp a _ hpost⟩

theorem bind {m : WalkM σ α} {f : α → WalkM σ β} (h : Returns frames m post)
    (hf : ∀ a next, post a next → Returns next (f a) post') : Returns frames (m >>= f) post' := by
  refine ⟨fun state hframes => ?_⟩
  obtain ⟨a, middle, hrun, hpost⟩ := h.run state hframes
  obtain ⟨b, left, hlast, hpost'⟩ := (hf a _ hpost).run middle rfl
  exact ⟨b, left, (Walker.run_bind_of_ok hrun).trans hlast, hpost'⟩

theorem symbols_bind {f : Symbols → WalkM σ α}
    (h : ∀ symbols : Symbols, symbols.frames = frames → Returns frames (f symbols) post) :
    Returns frames (symbols >>= f) post :=
  ⟨fun state hframes => (h state.symbols hframes).run state hframes⟩

theorem frame_bind {f : Frame → WalkM σ α} (h : Returns (top :: rest) (f top) post) :
    Returns (top :: rest) (frame >>= f) post := by
  refine ⟨fun state hframes => ?_⟩
  have hframe : (frame : WalkM σ Frame).run state = (.ok top, state) := by
    obtain ⟨⟨heap, statics, frames⟩, iterables, subjects, visited, observed⟩ := state
    obtain rfl : frames = top :: rest := hframes
    rfl
  rw [Walker.run_bind_of_ok hframe]
  exact h.run state hframes

theorem notify (f : σ → σ) : Returns frames (notify f : WalkM σ Unit) fun _ left => left = frames :=
  ⟨fun state hframes => ⟨(), { state with observed := f state.observed }, rfl, hframes⟩⟩

theorem mapFrame (g : Frame → Frame) : Returns (top :: rest)
    (modifySymbols (·.mapFrame g) : WalkM σ Unit) fun _ left => left = g top :: rest := by
  refine ⟨fun state hframes => ?_⟩
  obtain ⟨⟨heap, statics, frames⟩, iterables, subjects, visited, observed⟩ := state
  obtain rfl : frames = top :: rest := hframes
  exact ⟨(), _, rfl, rfl⟩

end Returns

/-! ## Expressions in a graph -/

/-- The vertex is a variable of that name without a qualifier. -/
def CodeGraph.isNameAt (graph : CodeGraph) (name : String) (v : VertexId) : Bool :=
  graph.is v .variableExpression && graph.isUnqualified v && graph.name? v == some name

/-- The vertex holds an expression over local variables. No path is attached to its names and assignments, as would
be to properties. -/
def Concrete.Expr.isAt (graph : CodeGraph) (sites : Option CodePath) : Expr → VertexId → Bool
  | .literal datum, v =>
    graph.is v .literalExpression && literalDatum? (graph.literalTag v) (graph.literalText v) == some datum
  | .read name, v => graph.isNameAt name v && (Walker.attached? sites v).isNone
  | .binary compares op left right, v =>
    graph.is v (if compares then .booleanExpression else .binaryExpression) && graph.text? v (.fact .operator) ==
    some op && !(compares && ["&&", "||"].contains op) && (graph.childAt? v 0).any (left.isAt graph sites) &&
    (graph.childAt? v 1).any (right.isAt graph sites)
  | .logical op left right, v =>
    graph.is v .booleanExpression && graph.text? v (.fact .operator) == some op && ["&&", "||"].contains op &&
      (graph.childAt? v 0).any (left.isAt graph sites) && (graph.childAt? v 1).any (right.isAt graph sites)
  | .unary op operand, v =>
    graph.is v .prefixExpression && graph.text? v (.fact .operator) == some op && !(["++", "--"].contains op) &&
      (graph.childAt? v 0).any (operand.isAt graph sites)
  | .choice condition yes no, v =>
    graph.is v .ternaryExpression && (graph.childAt? v 0).any (condition.isAt graph sites) &&
    (graph.childAt? v 1).any (yes.isAt graph sites) && (graph.childAt? v 2).any (no.isAt graph sites)
  | .assign sign name source, v =>
    graph.is v .assignmentExpression && Walker.compound? ((graph.text? v (.fact .operator)).getD "=") == sign &&
    (Walker.attached? sites v).isNone && (graph.childAt? v 0).any (graph.isNameAt name) &&
    (graph.childAt? v 1).any (source.isAt graph sites)
  | .step op isPostfix name, v =>
    graph.is v (if isPostfix then .postfixExpression else .prefixExpression) && graph.text? v (.fact .operator) ==
    some op && ["++", "--"].contains op && (graph.childAt? v 0).any (graph.isNameAt name)

theorem Concrete.Expr.isAt_read_iff {graph : CodeGraph} {sites : Option CodePath} {name : String} {v : VertexId} :
    (Expr.read name).isAt graph sites v = true ↔ graph.isNameAt name v = true ∧ Walker.attached? sites v = none := by
  rw [Expr.isAt, Bool.and_eq_true, Option.isNone_iff_eq_none]

theorem CodeGraph.labelOf_of_is {graph : CodeGraph} {v : VertexId} {label : NodeKind} (h : graph.is v label = true) :
    graph.labelOf v = label :=
  labelOf_eq (graph.is_iff.mp h)

theorem CodeGraph.isNameAt_iff {graph : CodeGraph} {name : String} {v : VertexId} : graph.isNameAt name v = true ↔
    graph.labelOf v = .variableExpression ∧ graph.is v .variableExpression ∧ graph.isUnqualified v = true ∧
    graph.name? v = some name := by
  rw [isNameAt, Bool.and_eq_true, Bool.and_eq_true, beq_iff_eq]
  exact ⟨fun ⟨⟨h, h'⟩, h''⟩ => ⟨labelOf_of_is h, h, h', h''⟩, fun ⟨_, h, h', h''⟩ => ⟨⟨h, h'⟩, h''⟩⟩

/-! ## Names -/

namespace Walker

variable {walker : Walker σ} {perform : Perform σ} {sites : Option CodePath} {top : Frame} {rest : List Frame}
    {name : String} {current : Variable}

theorem qualifier?_of_isNameAt {v : VertexId} (h : walker.graph.isNameAt name v = true) :
    walker.graph.qualifier? v = none ∨ ∃ qualifier, walker.graph.qualifier? v = some qualifier ∧
    walker.graph.labelOf qualifier = .emptyReferenceExpression := by
  obtain ⟨-, -, hunqualified, -⟩ := isNameAt_iff.mp h
  rw [isUnqualified] at hunqualified
  cases hqualifier : walker.graph.qualifier? v with
  | none => exact .inl rfl
  | some qualifier =>
    rw [hqualifier] at hunqualified
    exact .inr ⟨qualifier, rfl, labelOf_of_is hunqualified⟩

section
variable (hcurrent : top.lookup? name = some current)
include hcurrent

theorem returns_nameValue? (place : VertexId) :
    Returns (top :: rest) (walker.nameValue? perform name place) fun found left => found = some current.value ∧
    left = top :: rest := by
  refine .frame_bind (.symbols_bind fun symbols hframes => ?_)
  have hfound : symbols.lookup? name = some current.value := by
    rw [Symbols.lookup?, Symbols.frame?, hframes]
    show ((top.lookup? name).map (·.value) <|> _ <|> _) = _
    rw [hcurrent]
    rfl
  rw [hfound]
  exact .pure ⟨rfl, rfl⟩

theorem returns_readVariable {v : VertexId} (h : walker.graph.isNameAt name v = true) :
    Returns (top :: rest) (walker.readVariable perform sites v) fun value left => value = current.value ∧
    left = top :: rest := by
  have hread : Returns (top :: rest) (do
      return (← walker.nameValue? perform ((walker.graph.name? v).getD "") v).getD (walker.unknown v)) fun value left =>
        value = current.value ∧ left = top :: rest := by
    rw [(isNameAt_iff.mp h).2.2.2, Option.getD_some]
    refine (returns_nameValue? hcurrent v).bind fun found next hfound => ?_
    obtain ⟨rfl, rfl⟩ := hfound
    exact .pure ⟨rfl, rfl⟩
  rw [readVariable]
  rcases qualifier?_of_isNameAt h with hnone | ⟨qualifier, hsome, hempty⟩
  · rw [hnone]
    exact hread
  · rw [hsome]
    dsimp only
    rw [hempty]
    exact hread

theorem returns_placeOf {v : VertexId} (h : walker.graph.isNameAt name v = true) :
    Returns (top :: rest) (walker.placeOf perform sites v) fun place left => place = .variable name ∧
    left = top :: rest := by
  obtain ⟨hlabel, -, -, hname⟩ := isNameAt_iff.mp h
  have hplace : Returns (top :: rest) (walker.variablePlace perform ((walker.graph.name? v).getD "") v)
    fun place left =>
      place = .variable name ∧ left = top :: rest := by
    rw [hname, Option.getD_some]
    refine .frame_bind (.symbols_bind fun symbols _ => ?_)
    rw [if_pos (by rw [hcurrent]; rfl)]
    exact .pure ⟨rfl, rfl⟩
  rw [placeOf, hlabel]
  dsimp only
  rcases qualifier?_of_isNameAt h with hnone | ⟨qualifier, hsome, hempty⟩
  · rw [hnone]
    exact hplace
  · rw [hsome]
    dsimp only
    rw [hempty]
    exact hplace

theorem returns_read? :
    Returns (top :: rest) (Place.read? (.variable name) : WalkM σ (Option Value)) fun found left =>
    found = some current.value ∧ left = top :: rest := by
  refine .symbols_bind fun symbols hframes => .pure ⟨?_, rfl⟩
  rw [Symbols.frame?, hframes]
  show (top.lookup? name).map (·.value) = _
  rw [hcurrent]
  rfl

theorem returns_write (value : Value) :
    Returns (top :: rest) (Place.write value (.variable name) : WalkM σ Unit) fun _ left => ∃ next,
    left = next :: rest ∧ ∀ other, next.lookup? other = if Text.lower other =
      Text.lower name then some { current with value } else top.lookup? other := by
  obtain ⟨next, hassigned, hnext⟩ := Frame.exists_assign? value hcurrent
  refine (Returns.mapFrame _).imp fun _ left hleft => ⟨next, ?_, hnext⟩
  rw [hleft, hassigned]
  rfl

end
end Walker

/-! ## Operators -/

/-- All names of an expression are variables of the frame. -/
def Concrete.Expr.IsBound (expr : Expr) (frame : Frame) : Prop :=
  ∀ name ∈ expr.names, (frame.lookup? name).isSome = true

theorem Concrete.Expr.IsBound.of_subset {expr part : Expr} {frame : Frame} (h : expr.IsBound frame)
    (hsubset : part.names ⊆ expr.names) : part.IsBound frame := fun name hname => h name (hsubset hname)

theorem Concrete.Expr.IsBound.rewrites {expr : Expr} {names : List String} {top next : Frame} (h : expr.IsBound top)
    (hrewrites : Rewrites names top next) : expr.IsBound next :=
    fun name hname => (hrewrites.isSome_eq name).trans (h name hname)

/-- An expression was evaluated, beside its concrete evaluations. Only the running method is changed. -/
def Tracked (expr : Expr) (top : Frame) (rest : List Frame) (value : Value) (left : List Frame) : Prop :=
  ∃ next, left = next :: rest ∧ Tracks expr top value next

namespace Walker

variable {walker : Walker σ} {perform : Perform σ} {sites : Option CodePath} {top : Frame} {rest : List Frame}
    {v : VertexId}

/-- Wherever an expression stands, it is evaluated beside its concrete evaluations. -/
def Follows (walker : Walker σ) (perform : Perform σ) (sites : Option CodePath) (expr : Expr) : Prop :=
  ∀ {v top rest}, expr.isAt walker.graph sites v = true → expr.IsBound top →
  Returns (top :: rest) (perform (.eval sites v)) (Tracked expr top rest)

section
variable {left right operand condition yes no source : Expr} {op : String}

theorem operatorOf_eq {default : String} (h : walker.graph.text? v (.fact .operator) = some op) :
    walker.operatorOf v default = op := by
  rw [operatorOf, h]
  rfl

theorem operands?_of_children {first second : VertexId} (hfirst : walker.graph.childAt? v 0 = some first)
    (hsecond : walker.graph.childAt? v 1 = some second) : walker.operands? v = some (first, second) := by
  rw [operands?, hfirst, hsecond]
  rfl

theorem returns_binary (compares : Bool) (default : Value) {first second : VertexId}
    (hleft : Follows walker perform sites left) (hright : Follows walker perform sites right)
    (hfirst : left.isAt walker.graph sites first = true)
    (hsecond : right.isAt walker.graph sites second = true) (hbound : (Expr.binary compares op left right).IsBound top)
    (hdefault : default.content = .unknown) :
    Returns (top :: rest) (do
      let l ← perform (.eval sites first)
      return (Operator.combined? compares op l (← perform (.eval sites second))).getD default)
      (Tracked (.binary compares op left right) top rest) := by
  refine (hleft hfirst (hbound.of_subset (subset_append_left ..))).bind fun l next htracked => ?_
  obtain ⟨mid, rfl, hl⟩ := htracked
  refine (hright hsecond ((hbound.of_subset (subset_append_right ..)).rewrites hl.rewrites)).bind
    fun r next htracked => ?_
  obtain ⟨next, rfl, hr⟩ := htracked
  exact .pure ⟨next, rfl, hl.binary hr hdefault⟩

theorem returns_evalKind_binary {compares : Bool} (hleft : Follows walker perform sites left)
    (hright : Follows walker perform sites right)
    (h : (Expr.binary compares op left right).isAt walker.graph sites v = true)
    (hbound : (Expr.binary compares op left right).IsBound top) :
    Returns (top :: rest) (walker.evalKind perform sites v) (Tracked (.binary compares op left right) top rest) := by
  simp only [Expr.isAt, Bool.and_eq_true, beq_iff_eq, Option.any_eq_true] at h
  obtain ⟨⟨⟨⟨hkind, hop⟩, hnot⟩, first, hfirst, hfirstAt⟩, second, hsecond, hsecondAt⟩ := h
  rw [evalKind]
  cases compares with
  | false =>
    rw [labelOf_of_is hkind]
    show Returns _ (walker.evalBinary perform sites v) _
    rw [evalBinary, operands?_of_children hfirst hsecond, operatorOf_eq hop]
    exact returns_binary false (walker.unknown v) hleft hright hfirstAt hsecondAt hbound rfl
  | true =>
    rw [labelOf_of_is hkind]
    show Returns _ (walker.evalBoolean perform sites v) _
    rw [evalBoolean, operands?_of_children hfirst hsecond, operatorOf_eq hop]
    have hlogical : ¬(op = "&&" ∨ op = "||") := by simpa using hnot
    simp only [if_neg hlogical]
    exact returns_binary true (.unknown "Boolean") hleft hright hfirstAt hsecondAt hbound rfl

theorem returns_evalKind_logical (hleft : Follows walker perform sites left)
    (hright : Follows walker perform sites right) (h : (Expr.logical op left right).isAt walker.graph sites v = true)
    (hbound : (Expr.logical op left right).IsBound top) : Returns (top :: rest) (walker.evalKind perform sites v)
    (Tracked (.logical op left right) top rest) := by
  simp only [Expr.isAt, Bool.and_eq_true, beq_iff_eq, Option.any_eq_true] at h
  obtain ⟨⟨⟨⟨hkind, hop⟩, hlogical⟩, first, hfirst, hfirstAt⟩, second, hsecond, hsecondAt⟩ := h
  rw [evalKind, labelOf_of_is hkind]
  dsimp only
  rw [evalBoolean, operands?_of_children hfirst hsecond, operatorOf_eq hop]
  have hlogical : op = "&&" ∨ op = "||" := by simpa using hlogical
  simp only [if_pos hlogical]
  refine (hleft hfirstAt (hbound.of_subset (subset_append_left ..))).bind fun l next htracked => ?_
  obtain ⟨mid, rfl, hl⟩ := htracked
  cases hshort : Operator.shortCircuit? op l with
  | some decided => exact .pure ⟨mid, rfl, hl.logical_decided hshort⟩
  | none =>
    refine (hright hsecondAt ((hbound.of_subset (subset_append_right ..)).rewrites hl.rewrites)).bind
      fun r next htracked => ?_
    obtain ⟨next, rfl, hr⟩ := htracked
    exact .pure ⟨next, rfl, hl.logical_undecided hr rfl⟩

theorem returns_evalKind_unary (hoperand : Follows walker perform sites operand)
    (h : (Expr.unary op operand).isAt walker.graph sites v = true) (hbound : (Expr.unary op operand).IsBound top) :
    Returns (top :: rest) (walker.evalKind perform sites v) (Tracked (.unary op operand) top rest) := by
  simp only [Expr.isAt, Bool.and_eq_true, beq_iff_eq, Option.any_eq_true] at h
  obtain ⟨⟨⟨hkind, hop⟩, hnot⟩, child, hchild, hchildAt⟩ := h
  rw [evalKind, labelOf_of_is hkind]
  dsimp only
  rw [evalUnary, hchild]
  dsimp only
  rw [operatorOf_eq hop, if_neg (by simpa using hnot)]
  refine (hoperand hchildAt hbound).bind fun l next htracked => ?_
  obtain ⟨next, rfl, hl⟩ := htracked
  exact .pure ⟨next, rfl, hl.unary rfl⟩

theorem returns_sides (hyes : Follows walker perform sites yes) (hno : Follows walker perform sites no)
    {second third : VertexId} (hsecond : yes.isAt walker.graph sites second = true)
    (hthird : no.isAt walker.graph sites third = true) {mid : Frame} (hyesBound : yes.IsBound mid)
    (hnoBound : no.IsBound mid) (default : Value) :
    Returns (mid :: rest) (do
      let y ← perform (.eval sites second)
      let n ← perform (.eval sites third)
      return if y.sameContent n then y else default) fun value left => ∃ y between n next, left = next :: rest ∧
        Tracks yes mid y between ∧ Tracks no between n next ∧ value = if y.sameContent n then y else default := by
  refine (hyes hsecond hyesBound).bind fun y next htracked => ?_
  obtain ⟨between, rfl, hy⟩ := htracked
  refine (hno hthird (hnoBound.rewrites hy.rewrites)).bind fun n next htracked => ?_
  obtain ⟨next, rfl, hn⟩ := htracked
  exact .pure ⟨y, between, n, next, rfl, hy, hn, rfl⟩

/-- A ternary tracks the branch that is decided, else what both agree on. -/
theorem returns_evalKind_choice (hcondition : Follows walker perform sites condition)
    (hyes : Follows walker perform sites yes) (hno : Follows walker perform sites no)
    (h : (Expr.choice condition yes no).isAt walker.graph sites v = true)
    (hbound : (Expr.choice condition yes no).IsBound top) :
    Returns (top :: rest) (walker.evalKind perform sites v) (Tracked (.choice condition yes no) top rest) := by
  simp only [Expr.isAt, Bool.and_eq_true, Option.any_eq_true] at h
  obtain ⟨⟨⟨hkind, first, hfirst, hfirstAt⟩, second, hsecond, hsecondAt⟩, third, hthird, hthirdAt⟩ := h
  have hyesBound : yes.IsBound top := hbound.of_subset fun name hname => mem_append_right _ (mem_append_left _ hname)
  have hnoBound : no.IsBound top := hbound.of_subset fun name hname => mem_append_right _ (mem_append_right _ hname)
  rw [evalKind, labelOf_of_is hkind]
  dsimp only
  rw [evalTernary, operands?_of_children hfirst hsecond, hthird]
  refine (hcondition hfirstAt (hbound.of_subset (subset_append_left ..))).bind fun l next htracked => ?_
  obtain ⟨mid, rfl, hl⟩ := htracked
  cases hknown : l.bool? with
  | some known =>
    cases known with
    | true =>
      refine (hyes hsecondAt (hyesBound.rewrites hl.rewrites)).imp fun value left htracked => ?_
      obtain ⟨next, rfl, hside⟩ := htracked
      exact ⟨next, rfl, hl.choice_known hknown hside⟩
    | false =>
      refine (hno hthirdAt (hnoBound.rewrites hl.rewrites)).imp fun value left htracked => ?_
      obtain ⟨next, rfl, hside⟩ := htracked
      exact ⟨next, rfl, hl.choice_known hknown hside⟩
  | none =>
    refine (returns_sides hyes hno hsecondAt hthirdAt (hyesBound.rewrites hl.rewrites)
      (hnoBound.rewrites hl.rewrites) _).imp fun value left hsides => ?_
    obtain ⟨y, between, n, next, rfl, hy, hn, rfl⟩ := hsides
    exact ⟨next, rfl, hl.choice_unknown hy hn rfl⟩

end

/-! ## Writing -/

section
variable {op name : String} {source : Expr}

theorem exists_lookup? {expr : Expr} (hbound : expr.IsBound top) (hname : name ∈ expr.names) :
    ∃ current, top.lookup? name = some current :=
  Option.isSome_iff_exists.mp (hbound name hname)

/-- An assignment tracks what it leaves in the frame. -/
theorem returns_evalKind_assign {sign : Option String} (hsource : Follows walker perform sites source)
    (h : (Expr.assign sign name source).isAt walker.graph sites v = true)
    (hbound : (Expr.assign sign name source).IsBound top) :
    Returns (top :: rest) (walker.evalKind perform sites v) (Tracked (.assign sign name source) top rest) := by
  simp only [Expr.isAt, Bool.and_eq_true, beq_iff_eq, Option.any_eq_true, Option.isNone_iff_eq_none] at h
  obtain ⟨⟨⟨⟨hkind, hsign⟩, hunattached⟩, target, htarget, htargetAt⟩, child, hchild, hchildAt⟩ := h
  obtain ⟨old, hold⟩ := exists_lookup? hbound mem_cons_self
  rw [evalKind, labelOf_of_is hkind]
  dsimp only
  rw [evalAssignment, operands?_of_children htarget hchild]
  refine (returns_placeOf hold htargetAt).bind fun place next hplace => ?_
  obtain ⟨rfl, rfl⟩ := hplace
  refine (hsource hchildAt (hbound.of_subset (subset_cons_self ..))).bind fun given next htracked => ?_
  obtain ⟨mid, rfl, hgiven⟩ := htracked
  obtain ⟨current, hcurrent⟩ := exists_lookup? (hbound.rewrites hgiven.rewrites) mem_cons_self
  have hwrite : Returns (mid :: rest) (do
      Place.write (Tracks.assigned sign current.value given) (.variable name)
      return Tracks.assigned sign current.value given : WalkM σ Value)
        (Tracked (.assign sign name source) top rest) := by
    refine (returns_write hcurrent _).bind fun _ left hleft => ?_
    obtain ⟨next, rfl, hnext⟩ := hleft
    exact .pure ⟨next, rfl, hgiven.assign hcurrent hnext⟩
  rw [show walker.operatorOf v "=" = (walker.graph.text? v (.fact .operator)).getD "=" from rfl, hsign, hunattached]
  cases sign with
  | none => exact hwrite
  | some op =>
    refine (returns_read? hcurrent).bind fun found next hfound => ?_
    obtain ⟨rfl, rfl⟩ := hfound
    exact hwrite

theorem returns_evalKind_step {isPostfix : Bool} (h : (Expr.step op isPostfix name).isAt walker.graph sites v = true)
    (hbound : (Expr.step op isPostfix name).IsBound top) :
    Returns (top :: rest) (walker.evalKind perform sites v) (Tracked (.step op isPostfix name) top rest) := by
  simp only [Expr.isAt, Bool.and_eq_true, beq_iff_eq, Option.any_eq_true] at h
  obtain ⟨⟨⟨hkind, hop⟩, hstep⟩, target, htarget, htargetAt⟩ := h
  obtain ⟨current, hcurrent⟩ := exists_lookup? hbound (mem_singleton_self _)
  have hpostfix : walker.graph.is v .postfixExpression = isPostfix := by
    cases isPostfix with
    | true => exact hkind
    | false =>
      rw [is, walker.graph.is_iff.mp hkind]
      rfl
  have hunary : walker.evalKind perform sites v = walker.evalUnary perform sites v := by
    rw [evalKind, labelOf_of_is hkind]
    cases isPostfix <;> rfl
  rw [hunary, evalUnary, htarget]
  dsimp only
  rw [operatorOf_eq hop, if_pos (by simpa using hstep), hpostfix]
  refine (returns_placeOf hcurrent htargetAt).bind fun place next hplace => ?_
  obtain ⟨rfl, rfl⟩ := hplace
  refine (returns_read? hcurrent).bind fun found next hfound => ?_
  obtain ⟨rfl, rfl⟩ := hfound
  refine (Returns.notify _).bind fun _ next hnext => ?_
  obtain rfl := hnext
  refine (returns_write hcurrent _).bind fun _ left hleft => ?_
  obtain ⟨next, rfl, hnext⟩ := hleft
  exact .pure ⟨next, rfl, .step hcurrent rfl hnext⟩

end

/-! ## All expressions -/

theorem returns_evalExpression {expr : Expr}
    (h : Returns (top :: rest) (walker.evalKind perform sites v) (Tracked expr top rest)) :
    Returns (top :: rest) (walker.evalExpression perform sites v) (Tracked expr top rest) := by
  refine h.bind fun found next htracked => (Returns.notify _).bind fun _ left hleft => ?_
  obtain rfl := hleft
  obtain ⟨next, rfl, hfound⟩ := htracked
  refine .pure ⟨next, rfl, ?_⟩
  split
  · exact hfound
  · exact hfound.withOrigin v

theorem returns_evalKind_literal {datum : Datum} (h : (Expr.literal datum).isAt walker.graph sites v = true) :
    Returns (top :: rest) (walker.evalKind perform sites v) (Tracked (.literal datum) top rest) := by
  rw [Expr.isAt, Bool.and_eq_true, beq_iff_eq] at h
  rw [evalKind, labelOf_of_is h.1]
  exact .pure ⟨top, rfl, .literal (shows_literalValue h.2)⟩

theorem returns_evalKind_read {name : String} (h : (Expr.read name).isAt walker.graph sites v = true)
    (hbound : (Expr.read name).IsBound top) : Returns (top :: rest) (walker.evalKind perform sites v)
    (Tracked (.read name) top rest) := by
  rw [Expr.isAt_read_iff] at h
  obtain ⟨current, hcurrent⟩ := exists_lookup? hbound (mem_singleton_self _)
  rw [evalKind, (isNameAt_iff.mp h.1).1]
  dsimp only
  rw [evalVariable, h.2]
  refine (returns_readVariable hcurrent h.1).imp fun value left hvalue => ?_
  obtain ⟨rfl, rfl⟩ := hvalue
  exact ⟨top, rfl, .read hcurrent⟩

/-- With enough nesting every expression is evaluated beside its concrete evaluations. The induction is on the
expression: its operands are evaluated with one nesting less. -/
theorem follows_performWithin (walker : Walker σ) (sites : Option CodePath) (expr : Expr) {nesting : Nat}
    (hnesting : expr.depth ≤ nesting) : Follows walker (walker.performWithin nesting) sites expr := by
  induction expr generalizing nesting with
  | literal datum =>
    obtain ⟨nesting, rfl⟩ := Nat.exists_eq_add_of_le' hnesting
    exact fun h _ => returns_evalExpression (returns_evalKind_literal h)
  | read name =>
    obtain ⟨nesting, rfl⟩ := Nat.exists_eq_add_of_le' hnesting
    exact fun h hbound => returns_evalExpression (returns_evalKind_read h hbound)
  | binary compares op left right ihleft ihright =>
    obtain ⟨nesting, rfl⟩ := Nat.exists_eq_add_of_le' (Nat.le_trans (Nat.le_add_left 1 _) hnesting)
    obtain ⟨hleft, hright⟩ := Nat.max_le.mp (Nat.le_of_succ_le_succ hnesting)
    exact fun h hbound => returns_evalExpression (returns_evalKind_binary (ihleft hleft) (ihright hright) h hbound)
  | logical op left right ihleft ihright =>
    obtain ⟨nesting, rfl⟩ := Nat.exists_eq_add_of_le' (Nat.le_trans (Nat.le_add_left 1 _) hnesting)
    obtain ⟨hleft, hright⟩ := Nat.max_le.mp (Nat.le_of_succ_le_succ hnesting)
    exact fun h hbound => returns_evalExpression (returns_evalKind_logical (ihleft hleft) (ihright hright) h hbound)
  | unary op operand ih =>
    obtain ⟨nesting, rfl⟩ := Nat.exists_eq_add_of_le' (Nat.le_trans (Nat.le_add_left 1 _) hnesting)
    exact fun h hbound =>
      returns_evalExpression (returns_evalKind_unary (ih (Nat.le_of_succ_le_succ hnesting)) h hbound)
  | choice condition yes no ihcondition ihyes ihno =>
    obtain ⟨nesting, rfl⟩ := Nat.exists_eq_add_of_le' (Nat.le_trans (Nat.le_add_left 1 _) hnesting)
    obtain ⟨hcondition, hsides⟩ := Nat.max_le.mp (Nat.le_of_succ_le_succ hnesting)
    obtain ⟨hyes, hno⟩ := Nat.max_le.mp hsides
    exact fun h hbound =>
      returns_evalExpression (returns_evalKind_choice (ihcondition hcondition) (ihyes hyes) (ihno hno) h hbound)
  | assign sign name source ih =>
    obtain ⟨nesting, rfl⟩ := Nat.exists_eq_add_of_le' (Nat.le_trans (Nat.le_add_left 1 _) hnesting)
    exact fun h hbound =>
      returns_evalExpression (returns_evalKind_assign (ih (Nat.le_of_succ_le_succ hnesting)) h hbound)
  | step op isPostfix name =>
    obtain ⟨nesting, rfl⟩ := Nat.exists_eq_add_of_le' hnesting
    exact fun h hbound => returns_evalExpression (returns_evalKind_step h hbound)

/-! ## Operands that do not decide -/

section
variable {expr deciding : Expr} {branches : List (Bool × Expr)} {nesting : Nat} {operand : VertexId}
    {state middle : WalkState σ} {decision : Value}

/-- An undecided operation evaluates its open branches one after the other, and is known where they agree. -/
theorem exists_run_evalKind (hbranches : expr.branches? = some (deciding, branches))
    (hexpr : expr.isAt walker.graph sites v = true) (hbound : expr.IsBound top) (hnesting : expr.depth ≤ nesting + 1)
    (hframes : state.symbols.frames = top :: rest)
    (hoperand : walker.graph.childAt? v 0 = some operand)
    (hdecision : (walker.performWithin nesting (.eval sites operand)).run state = (.ok decision, middle))
    (hunknown : decision.bool? = none) :
    ∃ mid, Tracks deciding top decision mid ∧ ∃ found left,
    (walker.evalKind (walker.performWithin nesting) sites v).run state = (.ok found, left) ∧ ∃ next,
    left.symbols.frames = next :: rest ∧ TracksAll branches mid next := by
  have hfollows : ∀ {part : Expr}, part.depth + 1 ≤ nesting + 1 →
      Follows walker (walker.performWithin nesting) sites part :=
    fun hdepth => follows_performWithin walker sites _ (Nat.le_of_succ_le_succ hdepth)
  have hdecided : ∀ {part : Expr}, part.depth + 1 ≤ nesting + 1 → part.isAt walker.graph sites operand = true →
    part.IsBound top → ∃ mid, middle.symbols.frames = mid :: rest ∧ Tracks part top decision mid := by
    intro part hdepth hpart hpartBound
    obtain ⟨found, left, hrun, mid, hmid, htracks⟩ := (hfollows hdepth hpart hpartBound).run state hframes
    obtain ⟨hfound, rfl⟩ := Prod.mk.inj (hrun.symm.trans hdecision)
    obtain rfl := Except.ok.inj hfound
    exact ⟨mid, hmid, htracks⟩
  cases expr with
  | logical op left right =>
    obtain ⟨decides, hop', hboth⟩ := Option.map_eq_some_iff.mp hbranches
    obtain ⟨rfl, rfl⟩ := Prod.mk.inj hboth
    simp only [Expr.isAt, Bool.and_eq_true, beq_iff_eq, Option.any_eq_true] at hexpr
    obtain ⟨⟨⟨⟨hkind, hop⟩, hlogical⟩, first, hfirst, hfirstAt⟩, second, hsecond, hsecondAt⟩ := hexpr
    obtain rfl := Option.some.inj (hoperand.symm.trans hfirst)
    have hlogical : op = "&&" ∨ op = "||" := by simpa using hlogical
    have hleft : left.depth + 1 ≤ nesting + 1 := Nat.le_trans (Nat.succ_le_succ (Nat.le_max_left ..)) hnesting
    have hright : right.depth + 1 ≤ nesting + 1 := Nat.le_trans (Nat.succ_le_succ (Nat.le_max_right ..)) hnesting
    obtain ⟨mid, hmid, htracks⟩ := hdecided hleft hfirstAt (hbound.of_subset (subset_append_left ..))
    have hrightBound : right.IsBound mid := (hbound.of_subset (subset_append_right ..)).rewrites htracks.rewrites
    have hshort : Operator.shortCircuit? op decision = none := by
      rw [Operator.shortCircuit?_eq hop', hunknown, if_neg (by simp)]
    refine ⟨mid, htracks, ?_⟩
    rw [evalKind, labelOf_of_is hkind]
    dsimp only
    rw [evalBoolean, operands?_of_children hfirst hsecond, operatorOf_eq hop]
    simp only [if_pos hlogical]
    rw [run_bind_of_ok hdecision, hshort]
    refine (?_ : Returns (mid :: rest) _ fun _ left => ∃ next, left = next :: rest ∧
      TracksAll [(!decides, right)] mid next).run middle hmid
    refine (hfollows hright hsecondAt hrightBound).bind fun r next htracked => ?_
    obtain ⟨next, rfl, hr⟩ := htracked
    exact .pure ⟨next, rfl, r, next, hr, rfl⟩
  | choice condition yes no =>
    obtain ⟨rfl, rfl⟩ := Prod.mk.inj (Option.some.inj hbranches)
    simp only [Expr.isAt, Bool.and_eq_true, Option.any_eq_true] at hexpr
    obtain ⟨⟨⟨hkind, first, hfirst, hfirstAt⟩, second, hsecond, hsecondAt⟩, third, hthird, hthirdAt⟩ := hexpr
    obtain rfl := Option.some.inj (hoperand.symm.trans hfirst)
    obtain ⟨hcondition, hsides⟩ := Nat.max_le.mp (Nat.le_of_succ_le_succ hnesting)
    obtain ⟨hyes, hno⟩ := Nat.max_le.mp hsides
    obtain ⟨mid, hmid, htracks⟩ :=
      hdecided (Nat.succ_le_succ hcondition) hfirstAt (hbound.of_subset (subset_append_left ..))
    have hyesBound : yes.IsBound top := hbound.of_subset fun name hname => mem_append_right _ (mem_append_left _ hname)
    have hnoBound : no.IsBound top := hbound.of_subset fun name hname => mem_append_right _ (mem_append_right _ hname)
    refine ⟨mid, htracks, ?_⟩
    rw [evalKind, labelOf_of_is hkind]
    dsimp only
    rw [evalTernary, operands?_of_children hfirst hsecond, hthird]
    dsimp only
    rw [run_bind_of_ok hdecision, hunknown]
    refine (?_ : Returns (mid :: rest) _ fun _ left => ∃ next, left = next :: rest ∧
      TracksAll [(true, yes), (false, no)] mid next).run middle hmid
    refine (returns_sides (hfollows (Nat.succ_le_succ hyes)) (hfollows (Nat.succ_le_succ hno)) hsecondAt hthirdAt
      (hyesBound.rewrites htracks.rewrites) (hnoBound.rewrites htracks.rewrites) _).imp fun value left hboth => ?_
    obtain ⟨y, between, n, next, rfl, hy, hn, -⟩ := hboth
    exact ⟨next, rfl, y, between, hy, n, next, hn, rfl⟩
  | _ => cases hbranches

end

/-- Where the operand that decides has no known truth value, all branches are evaluated, and one frame is left for
both outcomes. A literal in it of a variable that is not doubtful is right in every outcome. A literal of a
variable that branches write is what the last of them leaves there; so it is right in both outcomes exactly if the
outcomes agree. Variables of which nothing right is known before are doubtful from the start. -/
theorem literal_of_undecided {walker : Walker σ} {sites : Option CodePath} {expr deciding : Expr}
    {branches : List (Bool × Expr)} (hbranches : expr.branches? = some (deciding, branches)) {v operand : VertexId}
    (hexpr : expr.isAt walker.graph sites v = true) (hoperand : walker.graph.childAt? v 0 = some operand)
    {nesting : Nat} (hnesting : expr.depth ≤ nesting + 1) {state middle : WalkState σ} {top : Frame}
    {rest : List Frame} (hframes : state.symbols.frames = top :: rest) (hbound : expr.IsBound top) {decision : Value}
    (hdecision : (walker.performWithin nesting (.eval sites operand)).run state = (.ok decision, middle))
    (hunknown : decision.bool? = none)
    {doubtful : List String} {data : Data} (hdata : ShowsBut doubtful top data) :
    ∃ value left next, (walker.performWithin (nesting + 1) (.eval sites v)).run state = (.ok value, left) ∧
      left.symbols.frames = next :: rest ∧
      ∀ name found literal, next.lookup? name = some found → found.value.literal? = some literal →
        (Text.lower name ∉ (expr.doubt doubtful).names → ∀ holds after, Outcome data deciding branches holds after →
          literal = (after (Text.lower name)).literal) ∧
        (Settles (deciding.doubt doubtful).names branches (Text.lower name) → ∀ after : Bool → Data,
          (∀ holds, Outcome data deciding branches holds (after holds)) →
          ((∀ holds, literal = (after holds (Text.lower name)).literal) ↔
          after true (Text.lower name) = after false (Text.lower name))) := by
  obtain ⟨mid, hdeciding, found, evaluated, hkind, next, hnext, hall⟩ :=
    exists_run_evalKind hbranches hexpr hbound hnesting hframes hoperand hdecision hunknown
  have hrun : ∃ value left, (walker.performWithin (nesting + 1) (.eval sites v)).run state = (.ok value, left) ∧
      left.symbols.frames = next :: rest := by
    rw [performWithin, evalExpression, run_bind_of_ok hkind]
    exact ⟨_, _, rfl, hnext⟩
  obtain ⟨value, left, hrun, hleft⟩ := hrun
  refine ⟨value, left, next, hrun, hleft, fun name found literal hfound hliteral =>
    ⟨fun hname holds after houtcome => ?_, ?_⟩⟩
  · obtain ⟨datum, between, hyields, hsame⟩ := houtcome.exists_yields
    have hmid := (hdeciding.shows hdata hyields).1
    rw [Expr.doubt_names hbranches] at hname
    exact ((hmid.changed hall.rewrites hsame) name found hfound hname).literal? hliteral
  rintro ⟨before, branch, later, hsplit, hlast, hdoubt⟩ after houtcomes
  have hbranch : literal = (after branch.1 (Text.lower name)).literal := by
    have hselected := Expr.lookup_branches hbranches hsplit
    generalize hafter : after branch.1 = left
    rw [hsplit] at hall
    cases hafter ▸ houtcomes branch.1 with
    | skips _ unselected => cases hselected.symm.trans unselected
    | takes decidingHas selected operandHas =>
      cases hselected.symm.trans selected
      exact (hall.shows_of_last (hdeciding.shows hdata decidingHas).1 operandHas hlast hdoubt hfound).literal? hliteral
  refine ⟨fun hboth => ?_, fun hagree holds => hbranch.trans (congrArg Datum.literal ?_)⟩
  · exact Datum.literal_injective ((hboth true).symm.trans (hboth false))
  · cases hfirst : branch.1 <;> cases holds <;> simp [hagree]

/-! ### A choice with an assignment on one side -/

/-- A method that assigns a parameter on one side of a choice. -/
def assigningAside : String := "class A { void m(Boolean b, Integer x, Integer y) { y = b ? (x = 1) : 2; } }"

def asideChoice : Expr := .choice (.read "b") (.assign none "x" (.literal (.integer 1))) (.literal (.integer 2))

/-- The truth value is not known, and the integer is zero. -/
def asideFrame : Frame := { parameters := [("b", ⟨"Boolean", .unknown "Boolean"⟩), ("x", ⟨"Integer", .ofInt 0⟩)] }

def asideState : WalkState Unit := { symbols := { frames := [asideFrame] }, observed := () }

def asideData : Data := fun key => if key = "x" then .integer 0 else .boolean false

/-- What the choice leaves, by the truth value of its condition. -/
def asideAfter (holds : Bool) : Data := if holds then Function.update asideData "x" (.integer 1) else asideData

/-- The choice stands at the vertex, its condition is not known, and the walk takes the integer for one afterwards. -/
def takesAside (graph : CodeGraph) (v : VertexId) : Bool :=
  let walker : Walker Unit := ⟨Program.ofGraph graph, .silent, 100⟩
  asideChoice.isAt graph none v && (match graph.childAt? v 0 with
    | some operand =>
      match (walker.performWithin 2 (.eval none operand)).run asideState with
      | (.ok decision, _) => decision.bool?.isNone
      | (.error _, _) => false
    | none => false) &&
    match (walker.performWithin 3 (.eval none v)).run asideState with
    | (.ok _, left) => left.symbols.frames.all fun frame => match (frame.lookup? "x").bind (·.value.literal?) with
      | some (.integer n) => n == 1
      | _ => false
    | (.error _, _) => false

theorem takesAside_assigningAside :
    (Build.treeOfChars assigningAside.toList).toOption.any
    (anyMethod fun graph _ => graph.ids.any (takesAside graph)) = true :=
  Build.any_of_toList_eq String.toList_ofList (by decide +kernel)

theorem exists_aside :
    ∃ graph v operand decision middle value left, Build.IsGraphOf bareSettings [("A", assigningAside)] graph ∧
    asideChoice.isAt graph none v = true ∧ graph.childAt? v 0 = some operand ∧
    (let walker : Walker Unit := ⟨Program.ofGraph graph, .silent, 100⟩
    (walker.performWithin 2 (.eval none operand)).run asideState = (.ok decision, middle) ∧ decision.bool? = none ∧
      (walker.performWithin 3 (.eval none v)).run asideState = (.ok value, left)) ∧
    ∀ frame ∈ left.symbols.frames, ∃ found, frame.lookup? "x" = some found ∧
    found.value.literal? = some (.integer 1) := by
  obtain ⟨graph, -, hgraph, -, htest⟩ := exists_graph takesAside_assigningAside
  obtain ⟨v, -, htest⟩ := any_eq_true.mp htest
  rw [takesAside, Bool.and_eq_true, Bool.and_eq_true] at htest
  obtain ⟨⟨hexpr, hdecision⟩, hvalue⟩ := htest
  split at hdecision
  case h_2 => cases hdecision
  case h_1 operand hoperand =>
    split at hdecision
    case h_2 => cases hdecision
    case h_1 decision middle hdecides =>
      split at hvalue
      case h_2 => cases hvalue
      case h_1 value left hrun =>
        refine ⟨graph, v, operand, decision, middle, value, left, hgraph, hexpr, hoperand,
          ⟨hdecides, Option.isNone_iff_eq_none.mp hdecision, hrun⟩, fun frame hframe => ?_⟩
        have hframe := all_eq_true.mp hvalue frame hframe
        split at hframe
        case h_2 => cases hframe
        case h_1 n hliteral =>
          obtain ⟨found, hfound, hliteral⟩ := Option.bind_eq_some_iff.mp hliteral
          exact ⟨found, hfound, eq_of_beq hframe ▸ hliteral⟩

theorem showsBut_aside : ShowsBut [] asideFrame asideData := by
  intro name found hfound _
  rw [Frame.lookup?, asideFrame, List.findSome?_nil, Option.orElse_eq_orElse, Option.orElse_eq_or, Option.none_or,
    VariableMap.get?] at hfound
  obtain ⟨entry, hentry, rfl⟩ := Option.map_eq_some_iff.mp hfound
  have hfits := List.find?_some hentry
  have hkey : entry.1 = Text.lower name := eq_of_beq hfits
  have hmem := mem_of_find?_eq_some hentry
  rcases mem_cons.mp hmem with rfl | hmem
  · exact Value.shows_unknown ..
  · obtain rfl := mem_singleton.mp hmem
    rw [← hkey]
    exact Value.shows_ofInt 0

/-- The assignment gives `x` one only if the condition holds, but the walk takes it for one whether it does or not. -/
theorem assigningAside_undecided : ∃ graph v operand decision middle value left next found,
    Build.IsGraphOf bareSettings [("A", assigningAside)] graph ∧ asideChoice.isAt graph none v = true ∧
    graph.childAt? v 0 = some operand ∧ asideChoice.depth ≤ 3 ∧ asideChoice.IsBound asideFrame ∧
    ShowsBut [] asideFrame asideData ∧
    (let walker : Walker Unit := ⟨Program.ofGraph graph, .silent, 100⟩
    (walker.performWithin 2 (.eval none operand)).run asideState = (.ok decision, middle) ∧ decision.bool? = none ∧
      (walker.performWithin 3 (.eval none v)).run asideState = (.ok value, left)) ∧
    left.symbols.frames = [next] ∧ next.lookup? "x" = some found ∧ found.value.literal? = some (.integer 1) ∧
    ∃ deciding branches, asideChoice.branches? = some (deciding, branches) ∧
    Settles (deciding.doubt []).names branches (Text.lower "x") ∧
    (∀ holds, Outcome asideData deciding branches holds (asideAfter holds)) ∧ asideAfter true "x" = .integer 1 ∧
      asideAfter false "x" = .integer 0 ∧ ¬∀ holds, Literal.integer 1 = (asideAfter holds "x").literal := by
  obtain ⟨graph, v, operand, decision, middle, value, left, hgraph, hexpr, hoperand, ⟨hdecides, hunknown, hrun⟩,
    hone⟩ := exists_aside
  have hlower : Text.lower "x" = "x" := by decide
  have hbound : asideChoice.IsBound asideFrame := by
    have hall : (asideChoice.names.all fun name => (asideFrame.lookup? name).isSome) = true := by decide
    exact all_eq_true.mp hall
  have hnesting : asideChoice.depth ≤ 2 + 1 := by decide
  let walker : Walker Unit := ⟨Program.ofGraph graph, .silent, 100⟩
  have houtcomes : ∀ holds,
    Outcome asideData (.read "b") [(true, .assign none "x" (.literal (.integer 1))),
    (false, .literal (.integer 2))] holds (asideAfter holds) := by
    have hassign : Yields asideData (.assign none "x" (.literal (.integer 1))) (.integer 1)
        (Function.update asideData (Text.lower "x") (.integer 1)) := .assign .literal rfl
    rw [hlower] at hassign
    intro holds
    cases holds with
    | true => exact .takes .read rfl hassign
    | false => exact .takes .read rfl .literal
  have hexpr' : asideChoice.isAt walker.graph none v = true := hexpr
  obtain ⟨value', left', next, hrun', hnext, hknown⟩ :=
    literal_of_undecided rfl hexpr' hoperand hnesting rfl hbound hdecides hunknown showsBut_aside
  obtain ⟨-, rfl⟩ := Prod.mk.inj (hrun.symm.trans hrun')
  obtain ⟨found, hfound, hliteral⟩ := hone next (by rw [hnext]; exact mem_cons_self)
  have hsettles : Settles ((Expr.read "b").doubt []).names [(true, .assign none "x" (.literal (.integer 1))),
    (false, .literal (.integer 2))] (Text.lower "x") := ⟨[], _, _,
    rfl, by simp [written, Expr.writes], by simp [written, Expr.doubt]⟩
  have hagree := ((hknown "x" found _ hfound hliteral).2 hsettles asideAfter houtcomes).mp
  rw [hlower] at hagree
  have htrue : asideAfter true "x" = .integer 1 := by rw [asideAfter, if_pos rfl, Function.update_self]
  have hfalse : asideAfter false "x" = .integer 0 := by rw [asideAfter, if_neg (by simp), asideData, if_pos rfl]
  refine ⟨graph, v, operand, decision, middle, value, left, next, found, hgraph, hexpr, hoperand, hnesting, hbound,
    showsBut_aside, ⟨hdecides, hunknown, hrun⟩, hnext, hfound, hliteral, _, _, rfl, hsettles, houtcomes, htrue,
    hfalse, fun hboth => ?_⟩
  have hsame := hagree hboth
  rw [htrue, hfalse] at hsame
  cases hsame

end Walker

end ApexPaths
