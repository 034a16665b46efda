import ApexPaths.Proofs.Path.Attached
import ApexPaths.Proofs.Walk.Covering
import ApexPaths.Proofs.Walk.Soundness
import Mathlib

/-!
Walks that end. The work that a task nests is lighter than the task: a class whose initialization it begins is not
begun again, an attached path is smaller than the path, an operand comes after its expression. Only the
initializers of the fields of a new object may lead back to where they were set off, if they create an object of
the same class again. Where no class does that, every walk ends.
-/

namespace ApexPaths
set_option autoImplicit false

open List

variable {σ : Type}

variable {path : CodePath}

namespace Walker

variable (walker : Walker σ)

/-! ## Creations -/

/-- An object of a type is created by an expression or by one below it. -/
def Creates (expr type : VertexId) : Prop :=
  ∃ part, (part = expr ∨ walker.graph.Inside expr part) ∧ walker.created? part = some type

/-- An initializer of the fields of a new object of a type creates an object of another one. -/
def Makes (type made : VertexId) : Prop :=
  ∃ owner ∈ walker.fieldOwners type, ∃ init ∈ walker.fieldInits owner false, walker.Creates init made

/-- The types of the objects that are created by an expression and by the initializers that this sets off. -/
def creations (expr : VertexId) : Set VertexId :=
  {made | ∃ type, walker.Creates expr type ∧ Relation.ReflTransGen walker.Makes type made}

variable {walker} {expr part type : VertexId}

theorem created?_lt (h : walker.created? expr = some type) : expr < walker.graph.vertexCount := by
  rw [created?] at h
  split at h
  · rename_i hnew
    cases hlabel : walker.graph.label? expr with
    | none =>
      rw [CodeGraph.labelOf, hlabel] at hnew
      cases hnew.1
    | some label => exact walker.graph.lt_of_label? hlabel
  · cases h

theorem exists_created (h : type ∈ walker.creations expr) : ∃ part, walker.created? part = some type := by
  obtain ⟨first, ⟨part, -, hpart⟩, hmakes⟩ := h
  rcases hmakes.cases_tail with rfl | ⟨before, -, _, -, _, -, made, -, hmade⟩
  · exact ⟨part, hpart⟩
  · exact ⟨made, hmade⟩

variable (walker) in
/-- The types of the objects that the vertices of the graph create. -/
def createdTypes : Finset VertexId :=
  (Finset.range walker.graph.vertexCount).image fun part => (walker.created? part).getD 0

theorem creations_subset (expr : VertexId) : walker.creations expr ⊆ walker.createdTypes := by
  intro made hmade
  obtain ⟨part, hpart⟩ := exists_created hmade
  exact Finset.mem_image.mpr ⟨part, Finset.mem_range.mpr (created?_lt hpart), by rw [hpart, Option.getD_some]⟩

theorem finite_creations (expr : VertexId) : (walker.creations expr).Finite :=
  walker.createdTypes.finite_toSet.subset (creations_subset expr)

theorem ncard_creations_le (expr : VertexId) : (walker.creations expr).ncard ≤ walker.graph.vertexCount := by
  calc (walker.creations expr).ncard
      ≤ (walker.createdTypes : Set VertexId).ncard :=
      Set.ncard_le_ncard (creations_subset expr) walker.createdTypes.finite_toSet
    _ = walker.createdTypes.card := Set.ncard_coe_finset _
    _ ≤ (Finset.range walker.graph.vertexCount).card := Finset.card_image_le
    _ = walker.graph.vertexCount := Finset.card_range _

theorem creations_of_inside (h : walker.graph.Inside expr part) : walker.creations part ⊆ walker.creations expr := by
  rintro made ⟨first, ⟨created, hbelow, hcreated⟩, hmakes⟩
  refine ⟨first, ⟨created, .inr ?_, hcreated⟩, hmakes⟩
  rcases hbelow with rfl | hbelow
  · exact h
  · exact h.trans hbelow

/-- An initializer that a creation sets off creates less, if no type is made again by the initializers of its own
fields. -/
theorem creations_ssubset (hfounded : ∀ type, ¬Relation.TransGen walker.Makes type type)
    (hcreated : walker.created? expr = some type) {owner init : VertexId} (howner : owner ∈ walker.fieldOwners type)
    (hinit : init ∈ walker.fieldInits owner false) :
    walker.creations init ⊂ walker.creations expr := by
  have hmakes : ∀ {made}, made ∈ walker.creations init → Relation.TransGen walker.Makes type made := by
    rintro made ⟨first, hfirst, hmakes⟩
    exact .head' ⟨owner, howner, init, hinit, hfirst⟩ hmakes
  have hself : walker.Creates expr type := ⟨expr, .inl rfl, hcreated⟩
  refine (Set.ssubset_iff_of_subset fun made hmade => ?_).mpr ⟨type, ⟨type, hself, .refl⟩, fun hagain =>
    hfounded type (hmakes hagain)⟩
  exact ⟨type, hself, (hmakes hmade).to_reflTransGen⟩

/-! ## Weights -/

/-- The classes among some keys of which the initialization is not begun. -/
def pending (keys : Finset String) (state : WalkState σ) : Set String :=
  {key | key ∈ keys ∧ ∃ owner, Text.lower owner = key ∧ state.symbols.statics.state owner = .uninitialized}

section
variable {keys : Finset String} {state next : WalkState σ}

theorem pending_subset (keys : Finset String) (state : WalkState σ) : pending keys state ⊆ keys := fun _ h => h.1

theorem pending_of_advances (h : state.Advances next) : pending keys next ⊆ pending keys state := by
  rintro key ⟨hkey, owner, rfl, hstate⟩
  exact ⟨hkey, owner, rfl, Decidable.byContradiction fun hbegun => h.begun owner hbegun hstate⟩

theorem ncard_pending_le (h : state.Advances next) : (pending keys next).ncard ≤ (pending keys state).ncard :=
  Set.ncard_le_ncard (pending_of_advances h) (keys.finite_toSet.subset (pending_subset keys state))

theorem ncard_pending_lt (h : state.Advances next) {owner : String} (hkey : Text.lower owner ∈ keys)
    (hbefore : state.symbols.statics.state owner = .uninitialized) (hafter : next.symbols.statics.state owner ≠
    .uninitialized) :
    (pending keys next).ncard < (pending keys state).ncard := by
  refine Set.ncard_lt_ncard ?_ (keys.finite_toSet.subset (pending_subset keys state))
  refine (Set.ssubset_iff_of_subset (pending_of_advances h)).mpr ⟨_, ⟨hkey, owner, rfl, hbefore⟩, ?_⟩
  rintro ⟨-, other, hother, hstate⟩
  exact hafter ((StaticScopes.state_congr _ hother).symm.trans hstate)

end

variable (walker)

/-- More than the weight of any expression apart from the classes and the paths that it may set off. -/
def ceiling : Nat := (walker.graph.vertexCount + 1) * (walker.graph.vertexCount + 1)

/-- The weight of an expression apart from the classes and the paths that it may set off: what it creates counts
first, and then how far down it is. -/
noncomputable def exprWeight (expr : VertexId) : Nat :=
  (walker.creations expr).ncard * (walker.graph.vertexCount + 1) + (walker.graph.vertexCount - expr)

/-- The weight of work: the pending classes count first, then the size of the path, which is below a bound. -/
noncomputable def weigh (keys : Finset String) (bound : Nat) (state : WalkState σ) (size rest : Nat) : Nat :=
  ((pending keys state).ncard * (bound + 1) + size) * (walker.ceiling + 1) + rest

/-- The size of the path of which the attached paths may run. -/
noncomputable def sizeOfSites : Option CodePath → Nat
  | none => 0
  | some path => sizeOf path

/-- How much a task has ahead of it. -/
noncomputable def weight (keys : Finset String) (bound : Nat) (state : WalkState σ) : Task → Nat
  | .eval sites expr => walker.weigh keys bound state (sizeOfSites sites) (walker.exprWeight expr)
  | .invoke path _ _ => walker.weigh keys bound state (sizeOf path) walker.ceiling

/-- A path is within a bound and initializes classes of some keys only. -/
structure Registered (keys : Finset String) (bound : Nat) (path : CodePath) : Prop where
  size : sizeOf path ≤ bound
  classes : ∀ key ∈ path.initializedClasses, key ∈ keys

/-- The classes that a task can initialize are among the keys. -/
def TaskRegistered (keys : Finset String) (bound : Nat) : Task → Prop
  | .eval sites _ => ∀ path ∈ sites, Registered keys bound path
  | .invoke path _ _ => Registered keys bound path

variable {walker}

theorem mul_add_lt_mul_add {first first' base rest rest' : Nat} (h : first' < first) (hrest : rest' < base) :
    first' * base + rest' < first * base + rest := by
  have hstep : (first' + 1) * base ≤ first * base := Nat.mul_le_mul_right base h
  rw [Nat.succ_mul] at hstep
  omega

theorem exprWeight_lt (expr : VertexId) : walker.exprWeight expr < walker.ceiling := by
  have hcard : (walker.creations expr).ncard ≤ walker.graph.vertexCount := ncard_creations_le expr
  have hmul := Nat.mul_le_mul_right (walker.graph.vertexCount + 1) hcard
  rw [exprWeight, ceiling, Nat.succ_mul]
  omega

theorem exprWeight_inside (forest : walker.graph.IsForest) (h : walker.graph.Inside expr part) :
    walker.exprWeight part < walker.exprWeight expr := by
  have hlt : ∀ {v w : Nat}, w ∈ walker.graph.children v → v < w ∧ w < walker.graph.vertexCount := fun hw =>
    ⟨forest.lt_of_mem hw, CodeGraph.lt_of_parent? (forest.parent_of_mem hw)⟩
  have hbelow : (expr : Nat) < part ∧ (part : Nat) < walker.graph.vertexCount := by
    induction h with
    | single hchild => exact hlt hchild
    | tail _ hchild ih => exact ⟨Nat.lt_trans ih.1 (hlt hchild).1, (hlt hchild).2⟩
  have hmul := Nat.mul_le_mul_right (walker.graph.vertexCount + 1)
    (Set.ncard_le_ncard (creations_of_inside h) (finite_creations expr))
  obtain ⟨hlt, hin⟩ := hbelow
  rw [exprWeight, exprWeight]
  exact Nat.add_lt_add_of_le_of_lt hmul (Nat.sub_lt_sub_left (hlt.trans hin) hlt)

theorem exprWeight_init (hfounded : ∀ type, ¬Relation.TransGen walker.Makes type type)
    (hcreated : walker.created? expr = some type) {owner init : VertexId} (howner : owner ∈ walker.fieldOwners type)
    (hinit : init ∈ walker.fieldInits owner false) :
    walker.exprWeight init < walker.exprWeight expr :=
  mul_add_lt_mul_add (Set.ncard_lt_ncard (creations_ssubset hfounded hcreated howner hinit) (finite_creations expr))
  (by omega)

section
variable {keys : Finset String} {bound : Nat} {state next : WalkState σ} {size size' rest rest' : Nat}

theorem weigh_le (h : state.Advances next) :
    walker.weigh keys bound next size rest ≤ walker.weigh keys bound state size rest := by
  have hcard : (pending keys next).ncard ≤ (pending keys state).ncard := ncard_pending_le h
  have hmul := Nat.mul_le_mul_right (bound + 1) hcard
  exact Nat.add_le_add_right (Nat.mul_le_mul_right _ (Nat.add_le_add_right hmul size)) rest

theorem weigh_of_pending (h : (pending keys next).ncard < (pending keys state).ncard) (hsize : size' ≤ bound)
    (hrest : rest' ≤ walker.ceiling) : walker.weigh keys bound next size' rest' <
    walker.weigh keys bound state size rest :=
  mul_add_lt_mul_add (mul_add_lt_mul_add h (Nat.lt_succ_of_le hsize)) (Nat.lt_succ_of_le hrest)

theorem weigh_of_size (h : size' < size) (hrest : rest' ≤ walker.ceiling) :
    walker.weigh keys bound state size' rest' < walker.weigh keys bound state size rest :=
  mul_add_lt_mul_add (Nat.add_lt_add_left h _) (Nat.lt_succ_of_le hrest)

theorem weigh_of_rest (hsize : size' ≤ size) (hrest : rest' < rest) :
    walker.weigh keys bound state size' rest' < walker.weigh keys bound state size rest :=
  Nat.add_lt_add_of_le_of_lt (Nat.mul_le_mul_right _ (Nat.add_le_add_left hsize _)) hrest

theorem weight_le (h : state.Advances next) (task : Task) :
    walker.weight keys bound next task ≤ walker.weight keys bound state task := by
  cases task <;> exact weigh_le h

theorem Registered.of_attached {sub : CodePath} (h : Registered keys bound path) (hsub : sub ∈ path.attached) :
    Registered keys bound sub ∧ sizeOf sub < sizeOf path := by
  rcases mem_append.mp hsub with hsub | hsub
  · obtain ⟨entry, hentry, rfl⟩ := mem_map.mp hsub
    have hlt := CodePath.sizeOf_invocation hentry
    refine ⟨⟨hlt.le.trans h.size, fun key hkey => h.classes key ?_⟩, hlt⟩
    rw [CodePath.initializedClasses_eq]
    exact mem_append_left _ (mem_flatMap.mpr ⟨entry, hentry, hkey⟩)
  · obtain ⟨entry, hentry, rfl⟩ := mem_map.mp hsub
    have hlt := CodePath.sizeOf_staticInit hentry
    refine ⟨⟨hlt.le.trans h.size, fun key hkey => h.classes key ?_⟩, hlt⟩
    rw [CodePath.initializedClasses_eq]
    exact mem_append_right _ (mem_flatMap.mpr ⟨entry, hentry, mem_cons_of_mem _ hkey⟩)

theorem Registered.init (h : Registered keys bound path) {init : String × Option VertexId × CodePath}
    (hinit : init ∈ path.staticInits) : Text.lower init.1 ∈ keys := by
  refine h.classes _ ?_
  rw [CodePath.initializedClasses_eq]
  exact mem_append_right _ (mem_flatMap.mpr ⟨init, hinit, mem_cons_self⟩)

end

end Walker

/-! ## Work that ends -/

/-- The duty never to run out of nesting. -/
def Duty.ending : Duty σ where
  valid _ _ := True
  grow _ _ := trivial
  fresh _ _ := trivial
  fails error := error ≠ .internal .exhausted
  granted h := h
  watch _ _ := True
  lasts _ _ := trivial

theorem watched_ending (visitor : Visitor σ) : Watched Duty.ending visitor :=
  ⟨fun _ => trivial, fun _ => trivial, fun _ => trivial, fun _ => trivial, fun _ => trivial⟩

theorem sound_ending (state : WalkState σ) : Sound Duty.ending state where
  heap _ _ _ _ _ _ := trivial
  statics _ _ _ _ := trivial
  frames _ _ := ⟨fun _ _ _ _ => trivial, fun _ _ => trivial⟩
  iterables _ _ _ _ := trivial
  subjects _ _ _ _ := trivial
  watch := trivial

namespace Walker

variable {walker : Walker σ} {keys : Finset String} {bound : Nat} (forest : walker.graph.IsForest)
  (hfounded : ∀ type, ¬Relation.TransGen walker.Makes type type) (hnames : ∀ type,
  Text.lower (walker.program.nameOf type) ∈ keys)

section
include forest hfounded hnames

/-- Nesting beyond the weight of a task is not exhausted by it. The induction is on the nesting: what a task nests
weighs less. -/
theorem ready_of_weight (nesting : Nat) (state : WalkState σ) (task : Task)
    (hregistered : TaskRegistered keys bound task) (hweight : walker.weight keys bound state task < nesting) :
    Ready .ending (walker.performWithin nesting) state task := by
  induction nesting generalizing state task with
  | zero => exact absurd hweight (Nat.not_lt_zero _)
  | succ nesting ih =>
    refine ⟨fun next hnext hadvances htask => ?_⟩
    have hlight : walker.weight keys bound next task ≤ nesting :=
      (weight_le hadvances task).trans (Nat.le_of_lt_succ hweight)
    -- Initializers of static fields run where a class is begun, so that fewer classes are pending.
    have hclasses : ∀ {size rest}, walker.weigh keys bound next size rest ≤ nesting →
        Initializes walker .ending (walker.performWithin nesting) (fun owner => Text.lower owner ∈ keys) next :=
        fun hlight =>
      ⟨hnames, fun {owner middle begun} hkey hmiddle huninitialized hbegun hstate init =>
      ih begun (.eval none init) nofun <|
        (weigh_of_pending ((ncard_pending_lt hbegun hkey huninitialized hstate).trans_le (ncard_pending_le hmiddle))
        (Nat.zero_le _) (exprWeight_lt init).le).trans_le hlight⟩
    cases task with
    | eval sites expr =>
      refine safe_evalExpression hnext ⟨fun {part} hpart => ?_, fun {site path} hattached this args => ?_,
        hclasses hlight, fun {type} hcreated owner howner init hinit => ?_, watched_ending _⟩
      · exact ih next (.eval sites part) hregistered
          ((weigh_of_rest le_rfl (exprWeight_inside forest hpart)).trans_le hlight)
      · obtain ⟨outer, rfl, hattached⟩ := Option.bind_eq_some_iff.mp hattached
        obtain ⟨entry, hentry, rfl⟩ := Option.map_eq_some_iff.mp hattached
        have hsub : entry.2 ∈ outer.attached := mem_append_left _ (mem_map_of_mem (mem_of_find?_eq_some hentry))
        obtain ⟨hregistered, hsmaller⟩ := (hregistered outer rfl).of_attached hsub
        exact ih next (.invoke entry.2 this args) hregistered ((weigh_of_size hsmaller le_rfl).trans_le hlight)
      · exact ih next (.eval none init) nofun
          ((weigh_of_rest (Nat.zero_le _) (exprWeight_init hfounded hcreated howner hinit)).trans_le hlight)
    | invoke path this args =>
      refine safe_invokePath hnext ⟨fun expr => ?_, hclasses hlight, fun init hinit => hregistered.init hinit,
        fun init hinit => ?_, watched_ending _⟩ htask.1 htask.2
      · refine ih next (.eval (some path) expr) (fun other hother => ?_)
          ((weigh_of_rest le_rfl (exprWeight_lt expr)).trans_le hlight)
        exact Option.some.inj hother ▸ hregistered
      · have hsub : init.2.2 ∈ path.attached := mem_append_right _ (mem_map_of_mem hinit)
        obtain ⟨hregistered, hsmaller⟩ := hregistered.of_attached hsub
        exact ih next (.invoke init.2.2 none []) hregistered ((weigh_of_size hsmaller le_rfl).trans_le hlight)

end

/-! ## Walks that end -/

/-- The classes of which the initialization may be begun in a walk along a path. -/
def initializable (walker : Walker σ) (path : CodePath) : Finset String :=
  (Text.lower "" :: walker.graph.ids.map fun type => Text.lower (walker.program.nameOf type)).toFinset ∪
  path.initializedClasses.toFinset

theorem mem_initializable (walker : Walker σ) (path : CodePath) (type : VertexId) :
    Text.lower (walker.program.nameOf type) ∈ walker.initializable path := by
  refine Finset.mem_union_left _ (mem_toFinset.mpr ?_)
  by_cases hlt : (type : Nat) < walker.graph.vertexCount
  · exact mem_cons_of_mem _ (mem_map.mpr ⟨type, mem_range.mpr hlt, rfl⟩)
  · have hnone : walker.graph.vertex? type = none := Array.getElem?_eq_none (Nat.not_lt.mp hlt)
    have hname : walker.program.nameOf type = "" := by
      show (walker.graph.definingType? type).getD "" = ""
      rw [CodeGraph.definingType?, CodeGraph.text?, hnone]
      rfl
    rw [hname]
    exact mem_cons_self

/-- More than the weight of any task of a walk along a path. -/
noncomputable def weightBound (walker : Walker σ) (path : CodePath) : Nat :=
  ((walker.initializable path).card * (sizeOf path + 1) + sizeOf path) * (walker.ceiling + 1) + walker.ceiling + 1

theorem weigh_lt_weightBound (path : CodePath) (state : WalkState σ) {size rest : Nat} (hsize : size ≤ sizeOf path)
    (hrest : rest ≤ walker.ceiling) : walker.weigh (walker.initializable path) (sizeOf path) state size rest <
    walker.weightBound path := by
  have hcard : (pending (walker.initializable path) state).ncard ≤ (walker.initializable path).card := by
    calc (pending (walker.initializable path) state).ncard
        ≤ (walker.initializable path : Set String).ncard :=
        Set.ncard_le_ncard (pending_subset _ state) (Finset.finite_toSet _)
      _ = (walker.initializable path).card := Set.ncard_coe_finset _
  exact Nat.lt_succ_of_le
    (Nat.add_le_add (Nat.mul_le_mul_right _ (Nat.add_le_add (Nat.mul_le_mul_right _ hcard) hsize)) hrest)

section
omit hnames
include forest hfounded

theorem ready_within {nesting : Nat} (hnesting : walker.weightBound path ≤ nesting) (state : WalkState σ) (task : Task)
    (hregistered : TaskRegistered (walker.initializable path) (sizeOf path) task) :
    Ready .ending (walker.performWithin nesting) state task := by
  have hnames := walker.mem_initializable path
  refine ready_of_weight forest hfounded hnames nesting state task hregistered (Nat.lt_of_lt_of_le ?_ hnesting)
  cases task with
  | eval sites expr =>
    refine weigh_lt_weightBound path state ?_ (exprWeight_lt expr).le
    cases sites with
    | none => exact Nat.zero_le _
    | some sub => exact (hregistered sub rfl).size
  | invoke sub this args => exact weigh_lt_weightBound path state hregistered.size le_rfl

theorem safe_walkPath_within {nesting : Nat} (hnesting : walker.weightBound path ≤ nesting) (state : WalkState σ) :
    Safe .ending state (walker.walkPath (walker.performWithin nesting) path) (Safe.GivesAny .ending) := by
  have hself : Registered (walker.initializable path) (sizeOf path) path :=
    ⟨le_rfl, fun key hkey => Finset.mem_union_right _ (mem_toFinset.mpr hkey)⟩
  have hready := fun state task => ready_within forest hfounded hnesting state task
  have hclasses : Initializes walker .ending (walker.performWithin nesting)
      (fun owner => Text.lower owner ∈ walker.initializable path) state :=
    ⟨walker.mem_initializable path, fun _ _ _ _ _ init => hready _ (.eval none init) nofun⟩
  refine safe_walkPath (sound_ending state) ⟨fun expr => hready _ (.eval (some path) expr) fun other hother =>
    Option.some.inj hother ▸ hself, hclasses, fun init hinit => hself.init hinit, fun init hinit => ?_,
    watched_ending _⟩ fun _ _ _ _ init _ => hready _ (.eval none init) nofun
  exact hready _ (.invoke init.2.2 none []) (hself.of_attached (mem_append_right _ (mem_map_of_mem hinit))).1

end

end Walker

/-- In a built graph where no class is made again by the initializers of its own fields, every walk ends: beyond
some nesting it has an outcome, from whatever static variables it starts and whatever the visitor does. -/
theorem walkWithin_ends {settings : Settings} {sources : List (String × String)} {graph : CodeGraph}
    (h : Build.IsGraphOf settings sources graph) {walker : Walker σ} (hwalker : walker.program = Program.ofGraph graph)
    (hfounded : ∀ type, ¬Relation.TransGen walker.Makes type type) (path : CodePath) :
    ∃ bound, ∀ nesting, bound ≤ nesting → ∀ statics observed, ∃ outcome,
    (walker.walkWithin nesting path statics observed).1 = .ok outcome := by
  obtain rfl : walker.graph = graph := by rw [Walker.graph, hwalker]; rfl
  refine ⟨walker.weightBound path, fun nesting hnesting statics observed => ?_⟩
  have hsafe :=
    (Walker.safe_walkPath_within h.wellPlaced.forest hfounded hnesting { symbols := { statics }, observed }).run
  have hupholds :=
    walker.journalWithin_upholds (.inherited statics) nesting path statics observed fun value hvalue ref hmentions =>
    .inr ⟨value, hvalue, hmentions⟩
  have hjournaled : (walker.walkWithin nesting path statics observed).1 =
      (walker.journalWithin nesting path statics observed).1 :=
    congrArg Prod.fst (walker.walkWithin_eq_journaled nesting path statics observed)
  generalize walker.journalWithin nesting path statics observed = run at hjournaled hupholds
  obtain ⟨error | outcome, journal⟩ := run
  · -- It could only fail for lack of nesting, which the nesting excludes.
    obtain rfl : error = .internal .exhausted := hupholds
    rw [Walker.walkWithin] at hjournaled
    generalize hrun : (walker.walkPath (walker.performWithin nesting) path).run { symbols := { statics }, observed } =
      result at hsafe
    obtain ⟨error | returned, left⟩ := result
    · rw [show (walker.walkPath (walker.performWithin nesting) path).run.run { symbols := { statics }, observed } =
        _ from hrun] at hjournaled
      exact absurd (Except.error.inj hjournaled) hsafe
    · rw [show (walker.walkPath (walker.performWithin nesting) path).run.run { symbols := { statics }, observed } =
        _ from hrun] at hjournaled
      cases hjournaled
  · exact ⟨outcome, hjournaled⟩

/-! ## A class that makes another one -/

theorem Walker.founded_of_lt {walker : Walker σ}
    (h : ∀ {expr type made : Nat}, walker.created? expr = some type → walker.Makes type made → type < made)
    (type : VertexId) :
    ¬Relation.TransGen walker.Makes type type := by
  have hmade : ∀ {first last : VertexId}, Relation.TransGen walker.Makes first last → ∃ expr,
      walker.created? expr = some last := by
    intro first last hmakes
    obtain ⟨_, -, -, -, -, -, part, -, hpart⟩ : ∃ before, _ ∧ walker.Makes before last :=
      Relation.TransGen.tail'_iff.mp hmakes
    exact ⟨part, hpart⟩
  have hlt : ∀ {last : VertexId}, Relation.TransGen walker.Makes type last →
    (∃ expr, walker.created? expr = some type) → (type : Nat) < last := by
    intro last hmakes ⟨expr, hexpr⟩
    induction hmakes with
    | single hmakes => exact h hexpr hmakes
    | tail hearlier hmakes ih =>
      obtain ⟨part, hpart⟩ := hmade hearlier
      exact ih.trans (h hpart hmakes)
  exact fun hround => Nat.lt_irrefl _ (hlt hround (hmade hround))

theorem CodeGraph.mem_postOrder_of_inside {graph : CodeGraph} (forest : graph.IsForest) {expr part : VertexId}
    (h : part = expr ∨ graph.Inside expr part) : part ∈ graph.postOrder expr := by
  rcases h with rfl | h
  · exact CodeGraph.self_mem_postOrder forest _
  · have hchild : ∀ {v w : VertexId}, w ∈ graph.children v → w ∈ graph.postOrder v := fun hw =>
      (CodeGraph.mem_postOrder forest).mpr (.inr ⟨_, hw, CodeGraph.self_mem_postOrder forest _⟩)
    induction h with
    | single hpart => exact hchild hpart
    | tail _ hpart ih => exact CodeGraph.postOrder_trans forest (hchild hpart) ih

/-- A class with a field that is initialized with a new object of an inner class, which has a field of its own. -/
def makingOther : String := "class A { B b = new B(); void m() { } class B { Integer x = 1; } }"

/-- All types that the initializers of the fields of a type create. -/
def Walker.made (walker : Walker σ) (type : VertexId) : List VertexId :=
  (walker.fieldOwners type).flatMap fun owner => (walker.fieldInits owner false).flatMap fun init =>
    (walker.graph.postOrder init).filterMap walker.created?

theorem Walker.mem_made {walker : Walker σ} (forest : walker.graph.IsForest) {type made : VertexId}
    (h : walker.Makes type made) : made ∈ walker.made type := by
  obtain ⟨owner, howner, init, hinit, part, hpart, hcreated⟩ := h
  exact mem_flatMap.mpr ⟨owner, howner, mem_flatMap.mpr ⟨init, hinit,
    mem_filterMap.mpr ⟨part, CodeGraph.mem_postOrder_of_inside forest hpart, hcreated⟩⟩⟩

/-- An object of the class of an instance method makes another one, and created types make later ones only. -/
def makesLater (graph : CodeGraph) (path : CodePath) : Bool :=
  let walker : Walker Unit := ⟨Program.ofGraph graph, .silent, 100⟩
  !graph.isStatic path.method && (graph.enclosingType? path.method).any (fun type => !(walker.made type).isEmpty) &&
    graph.ids.all fun expr => (walker.created? expr).all fun type => (walker.made type).all fun made =>
    decide ((type : Nat) < made)

theorem makesLater_makingOther :
    (Build.treeOfChars makingOther.toList).toOption.any (anyMethod (expandsOnce makesLater)) = true :=
  Build.any_of_toList_eq String.toList_ofList (by decide +kernel)

/-- A class makes another one, which makes none. -/
theorem makingOther_ends : ∃ graph path expanded, Build.IsGraphOf bareSettings [("A", makingOther)] graph ∧
    Path.forward graph path.method = .ok [path] ∧
    (((Expander.ofGraph graph bareSettings {}).expandPath path).run { registry := { limit := .unlimited } }).1 =
    .ok [expanded] ∧
    let walker : Walker Unit := ⟨Program.ofGraph graph, .silent, 100⟩
    (∃ type ∈ graph.enclosingType? expanded.method, walker.made type ≠ []) ∧
    (∀ type, ¬Relation.TransGen walker.Makes type type) ∧
    ∃ bound, ∀ nesting, bound ≤ nesting → ∀ statics observed, ∃ outcome,
    (walker.walkWithin nesting expanded statics observed).1 = .ok outcome := by
  obtain ⟨graph, path, expanded, hgraph, hforward, hrun, htest⟩ := exists_expanded makesLater_makingOther
  simp only [makesLater, Bool.and_eq_true, Bool.not_eq_true', Option.any_eq_true, all_eq_true, Option.all_eq_true,
    decide_eq_true_eq] at htest
  obtain ⟨⟨-, type, htype, hmade⟩, hlater⟩ := htest
  have hforest : (⟨Program.ofGraph graph, .silent, 100⟩ : Walker Unit).graph.IsForest := hgraph.wellPlaced.forest
  have hfounded : ∀ type, ¬Relation.TransGen (⟨Program.ofGraph graph, .silent, 100⟩ : Walker Unit).Makes type type :=
    Walker.founded_of_lt fun hcreated hmakes =>
      hlater _ (mem_range.mpr (Walker.created?_lt hcreated)) _ hcreated _ (Walker.mem_made hforest hmakes)
  exact ⟨graph, path, expanded, hgraph, hforward, hrun, ⟨type, htype, by simpa using hmade⟩, hfounded,
    walkWithin_ends hgraph rfl hfounded expanded⟩

end ApexPaths
