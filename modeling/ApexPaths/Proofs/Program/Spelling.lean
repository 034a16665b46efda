import ApexPaths.Program.Typing
import ApexPaths.Proofs.Text.Case

/-!
Names in another case. What a program finds for a name it finds for every spelling of the name in another case of the
ASCII letters: variables, members, types, and what dotted names denote. So two references inside one method are of the
same variable if they are spelled and addressed alike, and no local variable of the name stands between them.
-/

namespace ApexPaths
set_option autoImplicit false

open List Text

/-! ## Texts without the case of ASCII letters -/

namespace Text

def folded (text : String) : List Char := text.toList.map Char.toLower

theorem eqIgnoringCase_eq (a b : String) : eqIgnoringCase a b = (folded a == folded b) := rfl

theorem lower_eq_of_folded {a b : String} (h : folded a = folded b) : lower a = lower b :=
  lower_eq_of_eqIgnoringCase (beq_iff_eq.mpr h)

theorem folded_joinStrings (sep : String) (parts : List String) :
    folded (joinStrings sep parts) = (folded sep).intercalate (parts.map folded) := by
  rw [joinStrings, folded, String.toList_intercalate, folded]
  induction parts with
  | nil => rfl
  | cons part parts ih =>
    cases parts with
    | nil => simp [List.intercalate, folded]
    | cons next rest =>
      rw [map_cons, map_cons, intercalate_cons_cons, map_append, map_append,
        ← map_cons, ih]
      simp [intercalate_cons_cons, folded]

end Text

theorem TypeName.folded_base (name : String) : folded (base name) = (splitGenericChars (folded name)).1 := by
  have hopens : (· != '<') ∘ Char.toLower = (· != '<') := funext (ask_toLower (· != '<') (by decide))
  have hcloses : (name.toList.map Char.toLower).getLast? = some '>' ↔ name.toList.getLast? = some '>' := by
    rw [List.getLast?_map]
    cases name.toList.getLast? with
    | none => rfl
    | some c => simpa using Iff.of_eq (ask_toLower (· = '>') (by decide) c)
  rw [base, splitGeneric, folded, String.toList_ofList, folded, splitGenericChars, splitGenericChars,
    takeWhile_map, dropWhile_map, hopens]
  cases name.toList.dropWhile (· != '<') with
  | nil => rfl
  | cons c inner =>
    simp only [map_cons, hcloses]
    split <;> rfl

/-! ## What a name finds -/

namespace Program

variable {program : Program}

section
variable {name name' : String} (h : folded name = folded name')
include h

theorem hasName_congr : (program.hasName · name) = (program.hasName · name') := by
  funext id
  simp only [hasName, eqIgnoringCase_eq, h]

theorem localBinding?_congr (method place : VertexId) :
    program.localBinding? method name place = program.localBinding? method name' place := by
  have hname : ∀ id, program.hasName id name = program.hasName id name' := congrFun (hasName_congr h)
  simp only [localBinding?, hname]

theorem parameterBinding?_congr (method : VertexId) :
    program.parameterBinding? method name = program.parameterBinding? method name' := by
  rw [parameterBinding?, parameterBinding?, hasName_congr h]

theorem memberBinding?_congr (type : VertexId) :
    program.memberBinding? type name = program.memberBinding? type name' := by
  have hname : ∀ id, program.hasName id name = program.hasName id name' := congrFun (hasName_congr h)
  have hmember : ∀ owner, program.memberVariable? owner name = program.memberVariable? owner name' := fun owner =>
    funext fun member => by simp only [memberVariable?, hname]
  simp only [memberBinding?, hmember]

theorem lookup?_congr (source : Option VertexId) : program.lookup? source name = program.lookup? source name' := by
  have hbase : lower (TypeName.base name) = lower (TypeName.base name') :=
    lower_eq_of_folded (by rw [TypeName.folded_base, TypeName.folded_base, h])
  have hname : referenceName name = referenceName name' := by
    unfold referenceName
    rw [hbase]
  rw [lookup?, lookup?, candidateNames, candidateNames, hname]

end

theorem memberChain?_congr (type : String) (context : Option VertexId) {names names' : List String}
    (h : names.map folded = names'.map folded) :
    program.memberChain? type context names = program.memberChain? type context names' := by
  induction names generalizing type context names' with
  | nil => rw [map_eq_nil_iff.mp (Eq.symm h)]
  | cons name names ih =>
    obtain ⟨name', names', rfl, hfirst, hrest⟩ := map_eq_cons_iff.mp (Eq.symm h)
    simp only [memberChain?, memberBinding?_congr hfirst, ih _ _ hrest.symm]

/-! ## Places in one method -/

/-- Two places lie in the same method and the same type. -/
structure Beside (program : Program) (place place' : VertexId) : Prop where
  method : program.graph.enclosingMethod? place = program.graph.enclosingMethod? place'
  type : program.graph.enclosingType? place = program.graph.enclosingType? place'

/-- At two places a name is of the same local variable, or of none. -/
def SameLocal (program : Program) (name : String) (place place' : VertexId) : Prop :=
  ∀ method ∈ program.graph.enclosingMethod? place, program.localBinding? method name place =
  program.localBinding? method name place'

section
variable {place place' : VertexId} (beside : program.Beside place place')
include beside

theorem variableBinding?_congr {name name' : String} (h : folded name = folded name')
    (hlocal : program.SameLocal name place place') : program.variableBinding? name place =
    program.variableBinding? name' place' := by
  have hmember : (program.memberBinding? · name) = (program.memberBinding? · name') := funext (memberBinding?_congr h)
  rw [variableBinding?, variableBinding?, ← beside.method, ← beside.type, hmember]
  cases hmethod : program.graph.enclosingMethod? place with
  | none => rfl
  | some method =>
    rw [Option.bind_some, Option.bind_some, hlocal method hmethod, localBinding?_congr h, parameterBinding?_congr h]

/-- Names that fold alike denote a receiver of one type. -/
theorem receiverType?_congr {names names' : List String} (h : names.map folded = names'.map folded)
    (hlocal : ∀ name ∈ names.head?, program.SameLocal name place place') :
    program.receiverType? names place = program.receiverType? names' place' := by
  have hreceiver : program.receiver names place = program.receiver names' place' := by
    cases names with
    | nil => rw [map_eq_nil_iff.mp (Eq.symm h), receiver, receiver]
    | cons first rest =>
      obtain ⟨first', rest', rfl, hfirst, hrest⟩ := map_eq_cons_iff.mp (Eq.symm h)
      have hvariable := variableBinding?_congr beside hfirst.symm (hlocal first rfl)
      have hlength : (first :: rest).length = (first' :: rest').length := by simpa using congrArg List.length h
      have hstart : ∀ split source, program.lookup? source (joinStrings "." ((first :: rest).take split)) =
          program.lookup? source (joinStrings "." ((first' :: rest').take split)) := fun split source =>
        lookup?_congr (by rw [folded_joinStrings, folded_joinStrings, map_take, map_take, h]) source
      have hmembers : ∀ split type, program.receiverOfType (first :: rest) split type =
          program.receiverOfType (first' :: rest') split type := by
        intro split type
        have hdrop : ((first :: rest).drop split).map folded = ((first' :: rest').drop split).map folded := by
          rw [map_drop, map_drop, h]
        rw [receiverOfType, receiverOfType]
        generalize (first :: rest).drop split = parts at hdrop
        generalize (first' :: rest').drop split = parts' at hdrop
        cases parts with
        | nil => rw [map_eq_nil_iff.mp (Eq.symm hdrop)]
        | cons part parts =>
          obtain ⟨part', parts', rfl, hpart, hparts⟩ := map_eq_cons_iff.mp (Eq.symm hdrop)
          simp only [memberBinding?_congr hpart, memberChain?_congr _ _ hparts]
      simp only [receiver, hvariable, beside.type, hlength, hstart, hmembers, memberChain?_congr _ _ hrest]
  rw [receiverType?, receiverType?, hreceiver, beside.type]

end

/-! ## References -/

/-- How a variable expression addresses what it names. -/
inductive Address where
  | plain
  | this
  | super
  | dotted (names : List String)
  | value (type : StaticType)
  deriving DecidableEq

/-- The addresses are equal up to the case of their names. -/
inductive Address.Alike : Address → Address → Prop
  | plain : Alike .plain .plain
  | this : Alike .this .this
  | super : Alike .super .super
  | dotted {names names' : List String} (h : names.map folded = names'.map folded) :
      Alike (.dotted names) (.dotted names')
  | value (type : StaticType) : Alike (.value type) (.value type)

/-- The name that a reference looks for among the variables of its method. -/
def Address.leading? (name : String) : Address → Option String
  | .plain => some name
  | .dotted names => names.head?
  | _ => none

/-- How a variable expression is addressed. Of another expression than dotted names only the type counts. -/
def address (program : Program) (expr : VertexId) : Address :=
  match program.graph.qualifier? expr with
  | none => .plain
  | some qualifier =>
    match program.graph.labelOf qualifier with
    | .emptyReferenceExpression => .plain
    | .thisVariableExpression => .this
    | .superVariableExpression => .super
    | .referenceExpression => .dotted (program.graph.texts qualifier (.spelled .names))
    | _ => .value (program.expressionType qualifier)

/-- The variable of a name that is addressed from a place. -/
def addressedBinding? (program : Program) (name : String) (place : VertexId) : Address → Option Binding
  | .plain => program.variableBinding? name place
  | .this => (program.graph.enclosingType? place).bind (program.memberBinding? · name)
  | .super => ((program.graph.enclosingType? place).bind program.superclass?).bind (program.memberBinding? · name)
  | .dotted names => (program.receiverType? names place).bind (program.memberBinding? · name)
  | .value type =>
    (type.known?.bind (program.lookup? (program.graph.enclosingType? place))).bind (program.memberBinding? · name)

/-- What a reference refers to is given by its name and its address. -/
theorem expressionBinding?_eq (expr : VertexId) : program.expressionBinding? expr =
    (program.graph.name? expr).bind fun name => program.addressedBinding? name expr (program.address expr) := by
  rw [expressionBinding?, bindingGiven?, address]
  refine congrArg _ (funext fun name => ?_)
  cases program.graph.qualifier? expr with
  | none => rfl
  | some qualifier =>
    dsimp only
    split <;> simp [addressedBinding?, Option.bind_assoc, *]

/-- Two references are spelled alike: their names and their addresses are equal up to case. -/
structure SpelledAlike (program : Program) (first second : VertexId) : Prop where
  name : ∃ name name', program.graph.name? first = some name ∧ program.graph.name? second = some name' ∧
    folded name = folded name'
  address : (program.address first).Alike (program.address second)

/-- The name that two references start with is of the same local variable at both, or of none. -/
def Unshadowed (program : Program) (first second : VertexId) : Prop :=
  ∀ name ∈ program.graph.name? first, ∀ leading ∈ (program.address first).leading? name,
  program.SameLocal leading first second

/-- References beside each other that are spelled alike are of the same variable, unless a local variable stands
between them. -/
theorem SpelledAlike.expressionBinding?_eq {first second : VertexId} (h : program.SpelledAlike first second)
    (beside : program.Beside first second) (unshadowed : program.Unshadowed first second) :
    program.expressionBinding? first = program.expressionBinding? second := by
  obtain ⟨name, name', hfirst, hsecond, hname⟩ := h.name
  have hlocal := unshadowed name hfirst
  have haddress := h.address
  have hmember : (program.memberBinding? · name) = (program.memberBinding? · name') :=
    funext (memberBinding?_congr hname)
  rw [Program.expressionBinding?_eq, Program.expressionBinding?_eq, hfirst, hsecond, Option.bind_some, Option.bind_some]
  generalize program.address first = address at hlocal haddress
  generalize program.address second = address' at haddress
  cases haddress with
  | plain => exact variableBinding?_congr beside hname (hlocal name rfl)
  | this => rw [addressedBinding?, addressedBinding?, beside.type, hmember]
  | super => rw [addressedBinding?, addressedBinding?, beside.type, hmember]
  | dotted hnames => rw [addressedBinding?, addressedBinding?, receiverType?_congr beside hnames hlocal, hmember]
  | value type => rw [addressedBinding?, addressedBinding?, beside.type, hmember]

end Program
end ApexPaths
