import ApexPaths.Proofs.Concrete.Data
import ApexPaths.Walk.Walker
import Mathlib.Logic.Function.Basic

/-!
Concrete evaluations of expressions over local variables, with assignments, `++` and `--` at any place, and the frames
of a walk beside them. A concrete evaluation evaluates only the operands that the truth values on its way select. A walk
may evaluate others too, and leave some out that it should evaluate; what the frame then says of a variable is doubtful
if such an operand writes the variable, or if a doubtful value was assigned to it. What the frame says of all other
variables is right.
-/

namespace ApexPaths
set_option autoImplicit false

open List Text

/-! ## Operators on data -/

namespace Datum

/-- Arithmetic is for integers; the other binary operators are left open. -/
def Computes (op : String) (a b c : Datum) : Prop :=
  op ∈ ["+", "-", "*", "/", "%"] → ∃ x y z, a = .integer x ∧ b = .integer y ∧ arithmetic? op x y = some z ∧
  c = .integer z

/-- What comes out of an operator that always needs both operands: a truth value if it compares them. -/
def Combines (compares : Bool) (op : String) (a b c : Datum) : Prop :=
  if compares then ∃ holds, Compares op a b holds ∧ c = .boolean holds else Computes op a b c

/-- What comes out of an operator before its operand; those that are not listed are left open. -/
def Turns (op : String) (a c : Datum) : Prop :=
  match op with
  | "!" => ∃ b, a = .boolean b ∧ c = .boolean !b
  | "-" => ∃ x, a = .integer x ∧ c = .integer (-x)
  | "+" => ∃ x, a = .integer x ∧ c = a
  | _ => True

/-- What an assignment gives a variable, which may compute it from what the variable had. -/
def Assigns (sign : Option String) (old given c : Datum) : Prop :=
  match sign with
  | some op => Computes op old given c
  | none => c = given

theorem literal_injective : Function.Injective literal := by
  intro a b h
  cases a <;> cases b <;> simp_all [literal, ← BitVec.toInt_inj]

end Datum

namespace Operator

variable {op : String} {left right operand : Value} {a b c : Datum}

theorem arithmetic?_eq_none (hop : op ∉ ["+", "-", "*", "/", "%"]) (x y : Int) :
    arithmetic? op (.integer x) (.integer y) = none := by
  have hnone : wordArithmetic? .word32 op x y = none := by
    unfold wordArithmetic?
    split <;> first | rfl | simp at hop
  rw [arithmetic?, hnone]
  rfl

theorem shows_of_computes (h : Datum.Computes op a b c) (hleft : left.Shows a) (hright : right.Shows b) :
    ∀ value ∈ binary? op left right, value.Shows c := by
  intro value hvalue
  by_cases hop : op ∈ ["+", "-", "*", "/", "%"]
  · obtain ⟨x, y, z, rfl, rfl, hz, rfl⟩ := h hop
    exact shows_of_binary? hleft hright hz value hvalue
  · have hplus : op ≠ "+" := fun hplus => hop (by simp [hplus])
    rw [binary?, if_neg fun htext => hplus htext.1] at hvalue
    obtain ⟨l, hl, hvalue⟩ := Option.bind_eq_some_iff.mp hvalue
    obtain ⟨r, hr, hvalue⟩ := Option.bind_eq_some_iff.mp hvalue
    obtain ⟨_, -, rfl⟩ := hleft.number? hl
    obtain ⟨_, -, rfl⟩ := hright.number? hr
    rw [arithmetic?_eq_none hop] at hvalue
    cases hvalue

theorem shows_of_turns (h : Datum.Turns op a c) (hoperand : operand.Shows a) :
    ∀ value ∈ unary? op operand, value.Shows c := by
  unfold Datum.Turns at h
  split at h
  · obtain ⟨b, rfl, rfl⟩ := h
    exact shows_of_not hoperand
  · obtain ⟨x, rfl, rfl⟩ := h
    exact shows_of_minus hoperand
  · obtain ⟨x, rfl, rfl⟩ := h
    intro value hvalue
    obtain ⟨number, hnumber, rfl⟩ := Option.map_eq_some_iff.mp hvalue
    obtain ⟨_, hx, rfl⟩ := hoperand.number? hnumber
    cases hx
    exact Value.shows_ofInt x
  · intro value hvalue
    unfold unary? at hvalue
    split at hvalue <;> contradiction

/-- The value of an operator that always needs both operands. -/
def combined? (compares : Bool) (op : String) (left right : Value) : Option Value :=
  if compares then compare? op left right else binary? op left right

theorem shows_of_combines {compares : Bool} (h : Datum.Combines compares op a b c) (hleft : left.Shows a)
    (hright : right.Shows b) : ∀ value ∈ combined? compares op left right, value.Shows c := by
  cases compares with
  | false => exact shows_of_computes h hleft hright
  | true =>
    obtain ⟨holds, hholds, rfl⟩ := h
    exact shows_of_compare? hleft hright hholds

end Operator

variable {datum : Datum}

namespace Concrete

/-! ## Expressions -/

/-- An expression over local variables. A name is spelled in any case. -/
inductive Expr where
  | literal (datum : Datum)
  | read (name : String)
  /-- An operator that always needs both operands; some compare them. -/
  | binary (compares : Bool) (op : String) (left right : Expr)
  /-- `&&` or `||`. -/
  | logical (op : String) (left right : Expr)
  | unary (op : String) (operand : Expr)
  | choice (condition yes no : Expr)
  /-- An assignment, which may compute the new datum with an operator. -/
  | assign (sign : Option String) (name : String) (source : Expr)
  /-- `++` or `--`, before or after a variable. -/
  | step (op : String) (isPostfix : Bool) (name : String)
  deriving DecidableEq, Repr

/-- The data of variables by their names in lower case. -/
abbrev Data := String → Datum

/-- A concrete evaluation from some data gives a datum and leaves other data. Operands are evaluated from left to
right, and a variable is read when its turn comes. -/
inductive Yields : Data → Expr → Datum → Data → Prop where
  | literal {data datum} : Yields data (.literal datum) datum data
  | read {data name} : Yields data (.read name) (data (lower name)) data
  | binary {data compares op left right a b c middle after} (leftHas : Yields data left a middle)
      (rightHas : Yields middle right b after) (result : Datum.Combines compares op a b c) :
      Yields data (.binary compares op left right) c after
  /-- The left side of `&&` or `||` decides; the right side is not evaluated. -/
  | decided {data op left right decides after} (deciding : Datum.deciding? op = some decides)
    (leftHas : Yields data left (.boolean decides) after) :
    Yields data (.logical op left right) (.boolean decides) after
  | undecided {data op left right decides holds middle after} (deciding : Datum.deciding? op = some decides)
    (leftHas : Yields data left (.boolean !decides) middle) (rightHas : Yields middle right (.boolean holds) after) :
    Yields data (.logical op left right) (.boolean holds) after
  | unary {data op operand a c after} (operandHas : Yields data operand a after) (result : Datum.Turns op a c) :
    Yields data (.unary op operand) c after
  | choice {data condition yes no holds datum middle after}
      (conditionHas : Yields data condition (.boolean holds) middle)
    (chosenHas : Yields middle (if holds then yes else no) datum after) :
    Yields data (.choice condition yes no) datum after
  | assign {data sign name source given datum middle} (sourceHas : Yields data source given middle)
    (result : Datum.Assigns sign (data (lower name)) given datum) :
    Yields data (.assign sign name source) datum (Function.update middle (lower name) datum)
  | step {data op sign isPostfix name x z} (performs : Datum.step? op = some sign)
      (found : data (lower name) = .integer x) (result : Datum.arithmetic? sign x 1 = some z) :
    Yields data (.step op isPostfix name) (.integer (if isPostfix then x else z))
    (Function.update data (lower name) (.integer z))

namespace Expr

/-- The variables that an expression may write, in lower case. -/
def writes : Expr → List String
  | .literal _ | .read _ => []
  | .binary _ _ left right | .logical _ left right => left.writes ++ right.writes
  | .unary _ operand => operand.writes
  | .choice condition yes no => condition.writes ++ (yes.writes ++ no.writes)
  | .assign _ name source => lower name :: source.writes
  | .step _ _ name => [lower name]

/-- The names of the variables in an expression. -/
def names : Expr → List String
  | .literal _ => []
  | .read name | .step _ _ name => [name]
  | .binary _ _ left right | .logical _ left right => left.names ++ right.names
  | .unary _ operand => operand.names
  | .choice condition yes no => condition.names ++ (yes.names ++ no.names)
  | .assign _ name source => name :: source.names

def depth : Expr → Nat
  | .literal _ | .read _ | .step .. => 1
  | .binary _ _ left right | .logical _ left right => max left.depth right.depth + 1
  | .unary _ operand => operand.depth + 1
  | .choice condition yes no => max condition.depth (max yes.depth no.depth) + 1
  | .assign _ _ source => source.depth + 1

end Expr

/-- What is doubtful after an evaluation: the variables by their names in lower case, and whether the value is. -/
structure Doubt where
  names : List String
  value : Bool

/-- What is doubtful after an evaluation if these variables are before it. Operands that are not always evaluated
make doubtful what they write. A doubtful value makes the variable doubtful that it is assigned to, and another
value ends the doubt. -/
def Expr.doubt (before : List String) : Expr → Doubt
  | .literal _ => ⟨before, false⟩
  | .read name | .step _ _ name => ⟨before, before.contains (lower name)⟩
  | .binary _ _ left right =>
    let first := left.doubt before
    let second := right.doubt first.names
    ⟨second.names, first.value || second.value⟩
  | .logical _ left right =>
    let first := left.doubt before
    ⟨first.names ++ right.writes, first.value || (right.doubt first.names).value⟩
  | .unary _ operand => operand.doubt before
  | .choice condition yes no =>
    let first := condition.doubt before
    ⟨first.names ++ (yes.writes ++ no.writes),
      first.value || (yes.doubt first.names).value || (no.doubt (first.names ++ yes.writes)).value⟩
  | .assign sign name source =>
    let key := lower name
    let first := source.doubt before
    -- A walk reads the variable after the source is evaluated.
    let doubtful := first.value || sign.isSome && (first.names.contains key || source.writes.contains key)
    ⟨if doubtful then key :: first.names else first.names.filter (· != key), doubtful⟩

/-- An expression leaves the variables that it does not write. -/
theorem Yields.eq_of_notMem {data after : Data} {expr : Expr} (h : Yields data expr datum after) :
    ∀ key ∉ expr.writes, after key = data key := by
  induction h with
  | literal | read => exact fun _ _ => rfl
  | binary _ _ _ ihleft ihright | undecided _ _ _ ihleft ihright =>
    intro key hkey
    rw [Expr.writes, mem_append, not_or] at hkey
    exact (ihright key hkey.2).trans (ihleft key hkey.1)
  | decided _ _ ih =>
    intro key hkey
    rw [Expr.writes, mem_append, not_or] at hkey
    exact ih key hkey.1
  | unary _ _ ih => exact ih
  | @choice _ _ _ _ holds _ _ _ _ _ ihcondition ihchosen =>
    intro key hkey
    rw [Expr.writes, mem_append, mem_append, not_or, not_or] at hkey
    obtain ⟨hcondition, hyes, hno⟩ := hkey
    exact (ihchosen key (by cases holds <;> assumption)).trans (ihcondition key hcondition)
  | assign _ _ ih =>
    intro key hkey
    rw [Expr.writes, mem_cons, not_or] at hkey
    exact (Function.update_of_ne hkey.1 ..).trans (ih key hkey.2)
  | step =>
    intro key hkey
    rw [Expr.writes, mem_singleton] at hkey
    exact Function.update_of_ne hkey ..

theorem Yields.eq_of_notMem_sides {data after : Data} {yes no : Expr} {holds : Bool}
    (h : Yields data (if holds then yes else no) datum after) : ∀ key ∉ yes.writes ++ no.writes,
    after key = data key := by
  intro key hkey
  rw [mem_append, not_or] at hkey
  exact h.eq_of_notMem key (by cases holds <;> simp [hkey])

/-! ## Outcomes -/

/-- The operand that decides, and the operands that are evaluated after it, each with the truth value that selects
it. -/
def Expr.branches? : Expr → Option (Expr × List (Bool × Expr))
  | .logical op left right => (Datum.deciding? op).map fun decides => (left, [(!decides, right)])
  | .choice condition yes no => some (condition, [(true, yes), (false, no)])
  | _ => none

/-- The variables that are written by branches, in lower case. -/
def written (branches : List (Bool × Expr)) : List String := branches.flatMap (·.2.writes)

/-- What is left where the operand that decides has this truth value, whatever else is known of it: of the branches
only the one is evaluated that it selects, if there is one. -/
inductive Outcome (data : Data) (deciding : Expr) (branches : List (Bool × Expr)) (holds : Bool) : Data → Prop where
  | skips {datum after} (decidingHas : Yields data deciding datum after) (unselected : branches.lookup holds = none) :
    Outcome data deciding branches holds after
  | takes {datum other operand middle after} (decidingHas : Yields data deciding datum middle)
    (selected : branches.lookup holds = some operand) (operandHas : Yields middle operand other after) :
    Outcome data deciding branches holds after

/-- Where all branches are evaluated one after the other, one of them is the last that may write the variable, and
what it leaves there is not doubtful. -/
def Settles (doubtful : List String) (branches : List (Bool × Expr)) (key : String) : Prop :=
  ∃ before branch rest, branches = before ++ branch :: rest ∧ key ∉ written rest ∧
    key ∉ (branch.2.doubt (doubtful ++ written before)).names

variable {deciding : Expr}

theorem Expr.doubt_names {expr : Expr} {branches : List (Bool × Expr)} (h : expr.branches? = some (deciding, branches))
    (before : List String) : (expr.doubt before).names = (deciding.doubt before).names ++ written branches := by
  cases expr with
  | logical op left right =>
    obtain ⟨decides, -, hboth⟩ := Option.map_eq_some_iff.mp h
    cases hboth
    simp [Expr.doubt, written]
  | choice condition yes no =>
    cases h
    simp [Expr.doubt, written]
  | _ => cases h

theorem Expr.lookup_branches {expr : Expr} {branches before rest : List (Bool × Expr)} {branch : Bool × Expr}
    (h : expr.branches? = some (deciding, branches)) (hsplit : branches = before ++ branch :: rest) :
    branches.lookup branch.1 = some branch.2 := by
  have hmem : branch ∈ branches := by rw [hsplit]; simp
  cases expr with
  | logical op left right =>
    obtain ⟨decides, -, hboth⟩ := Option.map_eq_some_iff.mp h
    cases hboth
    obtain rfl := mem_singleton.mp hmem
    simp
  | choice condition yes no =>
    cases h
    rcases mem_cons.mp hmem with rfl | hmem
    · rfl
    · obtain rfl := mem_singleton.mp hmem
      rfl
  | _ => cases h

/-- What an outcome leaves differs from what the operand that decides leaves only where branches write. -/
theorem Outcome.exists_yields {data after : Data} {branches : List (Bool × Expr)} {holds : Bool}
    (h : Outcome data deciding branches holds after) :
    ∃ datum middle, Yields data deciding datum middle ∧ ∀ key ∉ written branches, after key = middle key := by
  cases h with
  | skips decidingHas => exact ⟨_, after, decidingHas, fun _ _ => rfl⟩
  | takes decidingHas selected operandHas =>
    refine ⟨_, _, decidingHas, fun key hkey => operandHas.eq_of_notMem key fun hmem => hkey ?_⟩
    obtain ⟨before, rest, rfl, -⟩ := List.lookup_eq_some_iff.mp selected
    exact mem_flatMap.mpr ⟨_, mem_append_right _ mem_cons_self, hmem⟩

end Concrete

/-!
## Frames beside evaluations

For each form of expression: if the values of the operands and the frames between them track the concrete
evaluations of the operands, then the value and the last frame track those of the whole. Nothing here depends on
how a walk evaluates.
-/

/-! ## Variables that are assigned -/

section
variable {name : String} {current : Variable} (value : Value)

theorem VariableMap.exists_assign? {vars : VariableMap} (h : vars.get? name = some current) :
    ∃ after, vars.assign? name value = some after ∧
      ∀ other, after.get? other = if lower other = lower name then some { current with value }
      else vars.get? other := by
  refine ⟨_, by rw [assign?, h]; rfl, fun other => ?_⟩
  rw [get?, find?_assign]
  by_cases hname : lower other = lower name
  · rw [if_pos hname.symm, if_pos hname]
    rfl
  · rw [if_neg (Ne.symm hname), if_neg hname]
    rfl

theorem VariableMap.assign?_eq_none {vars : VariableMap} (h : vars.get? name = none) :
    vars.assign? name value = none := by
  rw [assign?, h]
  rfl

namespace Frame

/-- An assignment changes the innermost block that binds the variable. -/
theorem exists_assignBlocks? {blocks : List Block} (h : blocks.findSome? (·.vars.get? name) = some current) :
    ∃ after, assignBlocks? name value blocks = some after ∧ ∀ other, after.findSome? (·.vars.get? other) =
      if lower other = lower name then some { current with value }
        else blocks.findSome? (·.vars.get? other) := by
  induction blocks with
  | nil => cases h
  | cons block blocks ih =>
    rw [List.findSome?_cons] at h
    rw [assignBlocks?]
    cases hfound : block.vars.get? name with
    | some found =>
      rw [hfound] at h
      cases h
      obtain ⟨vars, hvars, hafter⟩ := VariableMap.exists_assign? value hfound
      rw [hvars]
      refine ⟨_, rfl, fun other => ?_⟩
      rw [List.findSome?_cons, List.findSome?_cons, hafter other]
      by_cases hname : lower other = lower name
      · rw [if_pos hname, if_pos hname]
      · rw [if_neg hname, if_neg hname]
    | none =>
      rw [hfound] at h
      obtain ⟨rest, hrest, hafter⟩ := ih h
      rw [VariableMap.assign?_eq_none value hfound, hrest]
      refine ⟨_, rfl, fun other => ?_⟩
      rw [List.findSome?_cons, List.findSome?_cons, hafter other]
      by_cases hname : lower other = lower name
      · have hother : block.vars.get? other = none := by rwa [VariableMap.get?, hname]
        rw [hother, if_pos hname]
      · rw [if_neg hname, if_neg hname]

theorem assignBlocks?_eq_none {blocks : List Block} (h : blocks.findSome? (·.vars.get? name) = none) :
    assignBlocks? name value blocks = none := by
  induction blocks with
  | nil => rfl
  | cons block blocks ih =>
    have hall := List.findSome?_eq_none_iff.mp h
    obtain ⟨hblock, hrest⟩ := forall_mem_cons.mp hall
    rw [assignBlocks?, VariableMap.assign?_eq_none value hblock, ih (List.findSome?_eq_none_iff.mpr hrest)]
    rfl

/-- The innermost variable of a name is given another value, and no other variable is. -/
theorem exists_assign? {frame : Frame} (h : frame.lookup? name = some current) :
    ∃ next, frame.assign? name value = some next ∧
      ∀ other, next.lookup? other = if lower other = lower name then some { current with value }
      else frame.lookup? other := by
  rw [lookup?] at h
  rw [assign?]
  cases hblocks : frame.blocks.findSome? (·.vars.get? name) with
  | some found =>
    rw [hblocks] at h
    cases h
    obtain ⟨blocks, hassigned, hafter⟩ := exists_assignBlocks? value hblocks
    rw [hassigned]
    refine ⟨_, rfl, fun other => ?_⟩
    rw [lookup?, lookup?, hafter other]
    by_cases hname : lower other = lower name
    · rw [if_pos hname, if_pos hname]
      rfl
    · rw [if_neg hname, if_neg hname]
  | none =>
    rw [hblocks] at h
    obtain ⟨parameters, hassigned, hafter⟩ := VariableMap.exists_assign? value h
    rw [assignBlocks?_eq_none value hblocks, hassigned]
    refine ⟨_, rfl, fun other => ?_⟩
    rw [lookup?, lookup?, hafter other]
    by_cases hname : lower other = lower name
    · have hother : frame.blocks.findSome? (·.vars.get? other) = none := by
        rw [← hblocks]
        simp only [VariableMap.get?, hname]
      rw [if_pos hname, if_pos hname, hother]
      rfl
    · rw [if_neg hname, if_neg hname]

end Frame
end

variable {default : Value}

namespace Concrete

/-! ## Frames beside data -/

/-- A later frame has the same variables, and but for the names, which are in lower case, they have the same values. -/
structure Rewrites (names : List String) (top next : Frame) : Prop where
  isSome_eq : ∀ name, (next.lookup? name).isSome = (top.lookup? name).isSome
  kept : ∀ name, lower name ∉ names → next.lookup? name = top.lookup? name

namespace Rewrites

variable {names more : List String} {top mid next : Frame}

theorem refl (names : List String) (top : Frame) : Rewrites names top top := ⟨fun _ => rfl, fun _ _ => rfl⟩

theorem trans (h : Rewrites names top mid) (h' : Rewrites more mid next) : Rewrites (names ++ more) top next where
  isSome_eq name := (h'.isSome_eq name).trans (h.isSome_eq name)
  kept name hname := by
    rw [mem_append, not_or] at hname
    exact (h'.kept name hname.2).trans (h.kept name hname.1)

theorem mono (h : Rewrites names top next) (hsubset : names ⊆ more) : Rewrites more top next :=
  ⟨h.isSome_eq, fun name hname => h.kept name fun hmem => hname (hsubset hmem)⟩

end Rewrites

/-- But for the doubtful variables, whose names are in lower case, a frame shows the data. -/
def ShowsBut (doubtful : List String) (frame : Frame) (data : Data) : Prop :=
  ∀ name found, frame.lookup? name = some found → lower name ∉ doubtful →
  found.value.Shows (data (lower name))

namespace ShowsBut

variable {doubtful more : List String} {top next : Frame} {data after : Data}

theorem mono (h : ShowsBut doubtful top data) (hsubset : doubtful ⊆ more) : ShowsBut more top data :=
  fun name found hfound hname => h name found hfound fun hmem => hname (hsubset hmem)

/-- Where frame and data change at some variables only, at most these become doubtful. -/
theorem changed (h : ShowsBut doubtful top data) (hframe : Rewrites more top next)
    (hdata : ∀ key ∉ more, after key = data key) : ShowsBut (doubtful ++ more) next after := by
  intro name found hfound hname
  rw [mem_append, not_or] at hname
  rw [hframe.kept name hname.2] at hfound
  rw [hdata _ hname.2]
  exact h name found hfound hname.1

end ShowsBut

/-- A walk gave an expression a value and left another frame. Beside every concrete evaluation from data that the
frame showed, the frame that was left shows the data after it and the value shows the datum, unless they are
doubtful. -/
structure Tracks (expr : Expr) (top : Frame) (value : Value) (next : Frame) : Prop where
  rewrites : Rewrites expr.writes top next
  shows : ∀ {doubtful data datum after}, ShowsBut doubtful top data → Yields data expr datum after →
    ShowsBut (expr.doubt doubtful).names next after ∧ ((expr.doubt doubtful).value = false → value.Shows datum)

namespace Tracks

variable {left right operand condition yes no source : Expr} {top mid between next : Frame} {value l r : Value}

theorem withOrigin {expr : Expr} (h : Tracks expr top value next) (origin : VertexId) :
    Tracks expr top (value.withOrigin origin) next where
  rewrites := h.rewrites
  shows hshows hyields := (h.shows hshows hyields).imp_right fun hvalue hdoubt => (hvalue hdoubt).withOrigin origin

theorem literal (h : value.Shows datum) : Tracks (.literal datum) top value top where
  rewrites := .refl _ top
  shows hshows hyields := by
    cases hyields
    exact ⟨hshows, fun _ => h⟩

theorem read {name : String} {current : Variable} (h : top.lookup? name = some current) :
    Tracks (.read name) top current.value top where
  rewrites := .refl _ top
  shows hshows hyields := by
    cases hyields
    refine ⟨hshows, fun hdoubt => hshows name current h ?_⟩
    simpa [Expr.doubt] using hdoubt

theorem binary {compares : Bool} {op : String} (hleft : Tracks left top l mid) (hright : Tracks right mid r next)
    (hdefault : default.content = .unknown) :
    Tracks (.binary compares op left right) top ((Operator.combined? compares op l r).getD default) next where
  rewrites := hleft.rewrites.trans hright.rewrites
  shows hshows hyields := by
    cases hyields with
    | binary leftHas rightHas result =>
      obtain ⟨hmid, hl⟩ := hleft.shows hshows leftHas
      obtain ⟨hnext, hr⟩ := hright.shows hmid rightHas
      refine ⟨hnext, fun hdoubt => ?_⟩
      obtain ⟨hfirst, hsecond⟩ := Bool.or_eq_false_iff.mp hdoubt
      exact Value.shows_getD (Operator.shows_of_combines result (hl hfirst) (hr hsecond)) hdefault

theorem unary {op : String} (h : Tracks operand top l next) (hdefault : default.content = .unknown) :
    Tracks (.unary op operand) top ((Operator.unary? op l).getD default) next where
  rewrites := h.rewrites
  shows hshows hyields := by
    cases hyields with
    | unary operandHas result =>
      obtain ⟨hnext, hvalue⟩ := h.shows hshows operandHas
      exact ⟨hnext, fun hdoubt => Value.shows_getD (Operator.shows_of_turns result (hvalue hdoubt)) hdefault⟩

/-! ### Operands that are not always evaluated -/

theorem logical_decided {op : String} (hleft : Tracks left top l next)
    (hvalue : Operator.shortCircuit? op l = some value) : Tracks (.logical op left right) top value next where
  rewrites := hleft.rewrites.mono (subset_append_left ..)
  shows hshows hyields := by
    cases hyields with
    | decided deciding leftHas =>
      obtain ⟨hnext, hl⟩ := hleft.shows hshows leftHas
      refine ⟨hnext.mono (subset_append_left ..), fun _ => ?_⟩
      exact Operator.shows_of_shortCircuit? deciding value hvalue
    | undecided deciding leftHas rightHas =>
      obtain ⟨hnext, hl⟩ := hleft.shows hshows leftHas
      refine ⟨hnext.changed (.refl _ next) rightHas.eq_of_notMem, fun hdoubt => ?_⟩
      obtain ⟨hfirst, -⟩ := Bool.or_eq_false_iff.mp hdoubt
      rw [Operator.shortCircuit?_eq_none deciding (hl hfirst)] at hvalue
      cases hvalue

theorem logical_undecided {op : String} (hleft : Tracks left top l mid) (hright : Tracks right mid r next)
    (hdefault : default.content = .unknown) :
    Tracks (.logical op left right) top ((Operator.logical? op l r).getD default) next where
  rewrites := hleft.rewrites.trans hright.rewrites
  shows hshows hyields := by
    cases hyields with
    | decided deciding leftHas =>
      obtain ⟨hmid, hl⟩ := hleft.shows hshows leftHas
      refine ⟨hmid.changed hright.rewrites fun _ _ => rfl, fun hdoubt => ?_⟩
      obtain ⟨hfirst, -⟩ := Bool.or_eq_false_iff.mp hdoubt
      exact Value.shows_getD (Operator.shows_of_logical?_left deciding (hl hfirst)) hdefault
    | undecided deciding leftHas rightHas =>
      obtain ⟨hmid, hl⟩ := hleft.shows hshows leftHas
      refine ⟨hmid.changed hright.rewrites rightHas.eq_of_notMem, fun hdoubt => ?_⟩
      obtain ⟨hfirst, hsecond⟩ := Bool.or_eq_false_iff.mp hdoubt
      exact Value.shows_getD
        (Operator.shows_of_logical?_right deciding (hl hfirst) ((hright.shows hmid rightHas).2 hsecond)) hdefault

/-- The walk knows the condition, rightly or not, and evaluates one side. -/
theorem choice_known {known : Bool} (hcondition : Tracks condition top l mid) (hknown : l.bool? = some known)
    (hside : Tracks (if known then yes else no) mid value next) : Tracks (.choice condition yes no) top value next := by
  have hside' : Rewrites (yes.writes ++ no.writes) mid next := hside.rewrites.mono (by cases known <;> simp)
  refine ⟨hcondition.rewrites.trans hside', fun hshows hyields => ?_⟩
  cases hyields with
  | choice conditionHas chosenHas =>
    obtain ⟨hmid, hl⟩ := hcondition.shows hshows conditionHas
    refine ⟨hmid.changed hside' chosenHas.eq_of_notMem_sides, fun hdoubt => ?_⟩
    obtain ⟨hsides, hno⟩ := Bool.or_eq_false_iff.mp hdoubt
    obtain ⟨hfirst, hyes⟩ := Bool.or_eq_false_iff.mp hsides
    obtain rfl := (hl hfirst).bool? hknown
    cases known with
    | true => exact (hside.shows hmid chosenHas).2 hyes
    | false => exact (hside.shows (hmid.mono (subset_append_left ..)) chosenHas).2 hno

/-- Both branches were evaluated: the value is known where they agree. -/
theorem choice_unknown (hcondition : Tracks condition top value mid) (hyes : Tracks yes mid l between)
    (hno : Tracks no between r next) (hdefault : default.content = .unknown) :
    Tracks (.choice condition yes no) top (if l.sameContent r then l else default) next := by
  have hsides := hyes.rewrites.trans hno.rewrites
  refine ⟨hcondition.rewrites.trans hsides, fun hshows hyields => ?_⟩
  cases hyields with
  | @choice _ _ _ _ holds _ _ _ conditionHas chosenHas =>
    obtain ⟨hmid, -⟩ := hcondition.shows hshows conditionHas
    refine ⟨hmid.changed hsides chosenHas.eq_of_notMem_sides, fun hdoubt => ?_⟩
    obtain ⟨hfirst, hsecond⟩ := Bool.or_eq_false_iff.mp hdoubt
    split
    case isFalse => exact .inl hdefault
    case isTrue hsame =>
      cases holds with
      | true => exact (hyes.shows hmid chosenHas).2 (Bool.or_eq_false_iff.mp hfirst).2
      | false =>
        have hbetween := hmid.changed hyes.rewrites fun _ _ => rfl
        exact .of_sameContent hsame ((hno.shows hbetween chosenHas).2 hsecond)

/-! ### Variables that are written -/

theorem showsBut_update {doubtful : List String} {data : Data} {name : String} {current : Variable} {isDoubtful : Bool}
    (hshows : ShowsBut doubtful mid data) (hnext : ∀ other, next.lookup? other =
      if lower other = lower name then some { current with value } else mid.lookup? other)
    (hvalue : isDoubtful = false → value.Shows datum) :
    ShowsBut (if isDoubtful then lower name :: doubtful else doubtful.filter (· != lower name)) next
      (Function.update data (lower name) datum) := by
  intro other found hfound hother
  rw [hnext other] at hfound
  by_cases hname : lower other = lower name
  · rw [if_pos hname] at hfound
    cases hfound
    rw [hname, Function.update_self]
    refine hvalue (Bool.eq_false_iff.mpr fun hdoubtful => hother ?_)
    rw [if_pos hdoubtful, hname]
    exact mem_cons_self
  · rw [if_neg hname] at hfound
    rw [Function.update_of_ne hname]
    refine hshows other found hfound fun hmem => hother ?_
    split
    · exact mem_cons_of_mem _ hmem
    · exact mem_filter.mpr ⟨hmem, bne_iff_ne.mpr hname⟩

theorem rewrites_update {names : List String} {name : String} {current : Variable}
    (hcurrent : mid.lookup? name = some current) (hnext : ∀ other, next.lookup? other = if lower other =
    lower name then some { current with value } else mid.lookup? other) (hname : lower name ∈ names) :
    Rewrites names mid next := by
  refine ⟨fun other => ?_, fun other hother => ?_⟩
  · rw [hnext other]
    split
    case isTrue hsame =>
      have hfound : mid.lookup? other = mid.lookup? name := by simp only [Frame.lookup?, VariableMap.get?, hsame]
      rw [hfound, hcurrent]
      rfl
    case isFalse => rfl
  · have hsame : lower other ≠ lower name := fun hsame => hother (hsame ▸ hname)
    rw [hnext other, if_neg hsame]

/-- The value that an assignment leaves, plain or with an operation. -/
def assigned (sign : Option String) (current given : Value) : Value :=
  match sign with
  | some op => (Operator.binary? op current given).getD (.unknown current.type)
  | none => given

theorem assign {sign : Option String} {name : String} {current : Variable} (hsource : Tracks source top value mid)
    (hcurrent : mid.lookup? name = some current) (hnext : ∀ other, next.lookup? other =
      if lower other = lower name then some { current with value := assigned sign current.value value }
        else mid.lookup? other) :
    Tracks (.assign sign name source) top (assigned sign current.value value) next where
  rewrites := (hsource.rewrites.trans (rewrites_update hcurrent hnext (mem_singleton_self _))).mono
    (by simp [Expr.writes])
  shows := by
    intro doubtful data datum after hshows hyields
    cases hyields with
    | assign sourceHas result =>
      obtain ⟨hmid, hgiven⟩ := hsource.shows hshows sourceHas
      have hvalue : ((Expr.assign sign name source).doubt doubtful).value = false →
          (assigned sign current.value value).Shows datum := by
        intro hdoubt
        obtain ⟨hfirst, hread⟩ := Bool.or_eq_false_iff.mp hdoubt
        cases sign with
        | none =>
          obtain rfl : datum = _ := result
          exact hgiven hfirst
        | some op =>
          obtain ⟨hknown, hunwritten⟩ := Bool.or_eq_false_iff.mp hread
          have hold := hmid name current hcurrent (by simpa using hknown)
          rw [sourceHas.eq_of_notMem _ (by simpa using hunwritten)] at hold
          exact Value.shows_getD (Operator.shows_of_computes result hold (hgiven hfirst)) rfl
      exact ⟨showsBut_update hmid hnext hvalue, hvalue⟩

theorem step {op name : String} {isPostfix : Bool} {current : Variable} (hcurrent : top.lookup? name = some current)
    (hvalue : value = (Operator.step? op current.value).getD (.unknown current.value.type))
    (hnext : ∀ other, next.lookup? other = if lower other = lower name then some { current with value }
    else top.lookup? other) :
    Tracks (.step op isPostfix name) top (if isPostfix then current.value else value) next where
  rewrites := rewrites_update hcurrent hnext (mem_singleton_self _)
  shows := by
    intro doubtful data datum after hshows hyields
    cases hyields with
    | step performs found result =>
      have hold : ((Expr.step op isPostfix name).doubt doubtful).value = false →
          current.value.Shows (data (lower name)) :=
        fun hdoubt => hshows name current hcurrent (by simpa [Expr.doubt] using hdoubt)
      rw [found] at hold
      have hstepped : ((Expr.step op isPostfix name).doubt doubtful).value = false → value.Shows (.integer _) :=
        fun hdoubt =>
        hvalue ▸ Value.shows_getD (Operator.shows_of_step? performs (hold hdoubt) result) rfl
      refine ⟨?_, fun hdoubt => ?_⟩
      · refine (showsBut_update hshows hnext hstepped).mono ?_
        split
        case isTrue hdoubt =>
          exact cons_subset.mpr ⟨contains_iff_mem.mp hdoubt, List.Subset.refl _⟩
        case isFalse => exact filter_sublist.subset
      · cases isPostfix with
        | true => exact hold hdoubt
        | false => exact hstepped hdoubt

end Tracks

/-! ## All branches -/

/-- A walk evaluated all branches, one after the other. -/
def TracksAll : List (Bool × Expr) → Frame → Frame → Prop
  | [], mid, next => next = mid
  | branch :: rest, mid, next => ∃ value between, Tracks branch.2 mid value between ∧ TracksAll rest between next

namespace TracksAll

variable {branches : List (Bool × Expr)} {mid next : Frame}

theorem rewrites (h : TracksAll branches mid next) : Rewrites (written branches) mid next := by
  induction branches generalizing mid with
  | nil =>
    obtain rfl : next = mid := h
    exact .refl _ next
  | cons branch rest ih =>
    obtain ⟨value, between, hfirst, hrest⟩ := h
    exact hfirst.rewrites.trans (ih hrest)

/-- The last branch that may write a variable leaves there what it would leave alone. The induction is on the
branches before it: what they write is doubtful to it. -/
theorem shows_of_last {before rest : List (Bool × Expr)} {branch : Bool × Expr} {doubtful : List String}
    {data after : Data} {name : String} {found : Variable} (h : TracksAll (before ++ branch :: rest) mid next)
    (hmid : ShowsBut doubtful mid data) (hyields : Yields data branch.2 datum after)
    (hrest : lower name ∉ written rest)
    (hdoubt : lower name ∉ (branch.2.doubt (doubtful ++ written before)).names)
    (hfound : next.lookup? name = some found) :
    found.value.Shows (after (lower name)) := by
  induction before generalizing mid doubtful with
  | nil =>
    obtain ⟨value, between, hfirst, hlater⟩ := h
    rw [written, flatMap_nil, append_nil] at hdoubt
    rw [hlater.rewrites.kept name hrest] at hfound
    exact (hfirst.shows hmid hyields).1 name found hfound hdoubt
  | cons first before ih =>
    obtain ⟨value, between, hfirst, hlater⟩ := h
    rw [written, flatMap_cons, ← List.append_assoc] at hdoubt
    exact ih hlater (hmid.changed hfirst.rewrites fun _ _ => rfl) hdoubt

end TracksAll

end Concrete

end ApexPaths
