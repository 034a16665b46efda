import ApexPaths.Proofs.Library.Distinct
import ApexPaths.Proofs.Walk.Passing

/-!
Sets and maps during a walk. An expression that writes a set or a map out, or copies a collection into a set, takes
the items as they come. Everything else keeps the sets without equal items and the maps without equal keys, so that
the first heap of a walk that has a repetition comes from such an expression, and only its new object repeats an
item or a key.
-/

namespace ApexPaths
set_option autoImplicit false

open WalkM List

variable {σ : Type}

theorem HeapObject.distinct_of_isPlain {object : HeapObject} (h : object.isPlain = true) : object.Distinct := by
  cases object with
  | record => trivial
  | list => trivial
  | set element contents =>
    rw [HeapObject.Distinct, List.isEmpty_iff.mp h]
    exact .nil
  | map key value contents =>
    rw [HeapObject.Distinct, List.isEmpty_iff.mp h]
    exact .nil

/-- The heap before its last object. -/
def Heap.older (heap : Heap) : Heap := { objects := heap.objects.pop }

theorem Heap.older_allocate (heap : Heap) (object : HeapObject) : (heap.allocate object).2.older = heap := by
  rw [Heap.older, Heap.allocate, Array.pop_push]

/-- After the evaluation of an expression no set has equal items and no map equal keys. -/
def Entry.Distinct : Entry → Prop
  | .evaluated _ heap => heap.Distinct
  | .visited _ | .walks .. => True

variable {perform : Perform (Recorded σ)}

namespace Walker

/-- Only an expression that writes items out or copies them brings the first repetition, in the object that it makes. -/
def RepeatsFirst (walker : Walker σ) (log : List Entry) : Prop :=
  ∀ before expr heap after, log = before ++ .evaluated expr heap :: after → (∀ entry ∈ before, entry.Distinct) →
    heap.Distinct ∨ walker.creates expr = true ∧ heap.older.Distinct

theorem RepeatsFirst.append {walker : Walker σ} {log : List Entry} {entry : Entry} (h : walker.RepeatsFirst log)
    (hentry : (∀ entry ∈ log, entry.Distinct) → ∀ expr heap, entry = .evaluated expr heap →
      heap.Distinct ∨ walker.creates expr = true ∧ heap.older.Distinct) : walker.RepeatsFirst (log ++ [entry]) := by
  intro before expr heap after hlog hbefore
  rcases eq_nil_or_concat after with rfl | ⟨after, last, rfl⟩
  · obtain ⟨rfl, hlast⟩ := append_inj' hlog rfl
    exact hentry hbefore expr heap (List.cons.inj hlast).1
  · rw [concat_eq_append, ← cons_append, ← List.append_assoc] at hlog
    exact h before expr heap after (append_inj' hlog rfl).1 hbefore

/-- Besides, the heap has no repetition where none was recorded. -/
structure Guards (walker : Walker σ) (trail : Trail) : Prop where
  log : walker.RepeatsFirst trail.log
  heap : (∀ entry ∈ trail.log, entry.Distinct) → trail.heap.Distinct

namespace Guards

variable {walker : Walker σ} {trail : Trail}

theorem change (h : walker.Guards trail) {heap : Heap} (hheap : trail.heap.Distinct → heap.Distinct) :
    walker.Guards { trail with heap } := ⟨h.log, fun hlog => hheap (h.heap hlog)⟩

/-- The record goes on with the heap as it is, or with one more object from an expression that takes items as they
come. -/
theorem evaluated (h : walker.Guards trail) (expr : VertexId) {heap : Heap}
    (hheap : heap = trail.heap ∨ walker.creates expr = true ∧ heap.older = trail.heap) :
    walker.Guards { trail with heap, log := trail.log ++ [.evaluated expr heap] } := by
  refine ⟨h.log.append fun hlog other left heq => ?_, fun hlog => hlog _ (mem_append_right _ mem_cons_self)⟩
  cases heq
  rcases hheap with rfl | ⟨hcreates, holder⟩
  · exact .inl (h.heap hlog)
  · exact .inr ⟨hcreates, holder ▸ h.heap hlog⟩

theorem note (h : walker.Guards trail) {entry : Entry} {depth : Nat}
    (hentry : ∀ expr heap, entry ≠ .evaluated expr heap) : walker.Guards ⟨trail.heap, depth, trail.log ++ [entry]⟩ :=
  ⟨h.log.append fun _ expr heap heq => absurd heq (hentry expr heap), fun hlog =>
    h.heap fun entry hentry => hlog entry (mem_append_left _ hentry)⟩

end Guards

/-- The law that a walk goes on guarding its sets and maps. Nothing is foretold. -/
def guarding (walker : Walker σ) : Law Empty where
  keeps _ a b := walker.Guards a → walker.Guards b
  fails a b := walker.Guards a → walker.Guards b
  rest _ := id
  next h h' := h' ∘ h
  weaken _ h := h
  stop _ := id
  late h h' := h' ∘ h
  allows heap heap' := heap.Distinct → heap'.Distinct
  change h hguards := hguards.change h
  object _ _ hplain h := h.allocate (HeapObject.distinct_of_isPlain hplain)
  field _ _ _ _ h := h.setField _ _ _
  call hcall h := Library.distinct_invoke h hcall
  unmoved _ := id
  visits _ := .none
  visited _ _ h := h.note (by simp)

theorem forecast_eq_none (forecast : Forecast Empty) : forecast = .none := by
  obtain ⟨_ | ⟨event, _⟩, _ | ⟨event', _⟩⟩ := forecast
  · rfl
  · exact event'.elim
  · exact event.elim
  · exact event.elim

variable {walker : Walker σ}

theorem obeys_guarding {α : Type} {forecast forecast' : Forecast Empty} {m : WalkM (Recorded σ) α}
    (h : Obeys walker.guarding forecast m) : Obeys walker.guarding forecast' m := by
  rwa [forecast_eq_none forecast', ← forecast_eq_none forecast]

/-! ## Expressions -/

theorem guarding_note (expr : VertexId) (value : Value) : Obeys walker.guarding .none (do
    let left ← heap
    notify (·.note (.evaluated expr left))
    return value : WalkM (Recorded σ) Value) :=
  ⟨fun _ hguards => hguards.evaluated expr (.inl rfl)⟩

theorem exists_creation {sites : Option CodePath} {expr : VertexId}
    (hcreates : walker.recorded.creates expr = true)
    (hperform : ∀ part, Obeys walker.guarding .none (perform (.eval sites part))) :
    ∃ (α : Type) (operands : WalkM (Recorded σ) α) (make : α → Heap → Value × Heap),
      walker.recorded.evalKind perform sites expr = (operands >>= fun a => onHeap (make a)) ∧
      Obeys walker.guarding .none operands ∧ ∀ a heap, ∃ object, (make a heap).2 = (heap.allocate object).2 := by
  have hall : ∀ exprs, Obeys walker.guarding .none (evalAll perform sites exprs) :=
    fun exprs => obeys_guarding (obeys_evalAll fun part _ => hperform part)
  rw [evalKind]
  rw [creates] at hcreates
  generalize walker.recorded.graph.labelOf expr = label at hcreates ⊢
  cases label
  case newSetLiteralExpression => exact ⟨_, _, _, rfl, hall _, fun _ _ => ⟨_, rfl⟩⟩
  case newMapLiteralExpression =>
    have hentry : ∀ entry : VertexId × VertexId, Obeys walker.guarding .none (do
        return (← perform (.eval sites entry.1), ← perform (.eval sites entry.2))) :=
      fun entry => (hperform entry.1).after fun _ => (hperform entry.2).after fun _ => .pure _
    exact ⟨_, _, _, rfl, obeys_guarding (.mapM _ fun entry _ => hentry entry), fun _ _ => ⟨_, rfl⟩⟩
  case newObjectExpression =>
    simp only [isCopiedSet, Bool.and_eq_true, Bool.not_eq_true', beq_iff_eq] at hcreates
    obtain ⟨⟨⟨harray, hcollection⟩, -⟩, -⟩ := hcreates
    dsimp only
    rw [evalNew, ← createdSpelling]
    dsimp only
    rw [if_neg (by simp [harray]), if_pos hcollection]
    refine ⟨_, _, _, rfl, hall _, fun args heap => ?_⟩
    split
    · exact ⟨_, rfl⟩
    · exact ⟨_, rfl⟩
    · exact ⟨_, rfl⟩
  all_goals cases hcreates

theorem guarding_creation {expr : VertexId} (hcreates : walker.creates expr = true) {make : Heap → Value × Heap}
    (hmake : ∀ heap, ∃ object, (make heap).2 = (heap.allocate object).2) : Obeys walker.guarding .none (do
      let found ← onHeap make
      let value := if found.origin.isSome then found else found.withOrigin expr
      notify (walker.recorded.visitor.onExpression expr value)
      let left ← heap
      notify (·.note (.evaluated expr left))
      return value : WalkM (Recorded σ) Value) := by
  refine ⟨fun state hguards => ?_⟩
  obtain ⟨object, hobject⟩ := hmake state.symbols.heap
  exact hguards.evaluated expr (.inr ⟨hcreates, hobject ▸ Heap.older_allocate ..⟩)

/-! ## Walks -/

theorem guarding_step (hperform : ∀ task, Obeys walker.guarding .none (perform task))
    (path : CodePath) (v : VertexId) : Obeys walker.guarding .none (walker.recorded.step perform path v) :=
  obeys_step (fun init => hperform (.eval none init)) walker.records_recorded
    (fun init _ => hperform (.invoke init.2.2 none [])) (fun part _ => hperform (.eval (some path) part))
    (by rw [forecast_eq_none (passage ..)]; exact .refl _) (.inr (.refl _))

/-- By induction on the nesting: a repetition is first made where a creation is evaluated. -/
theorem guarding_recorder (walker : Walker σ) (nesting : Nat) (site : Option VertexId) (task : Task) :
    Obeys walker.guarding .none (walker.recorder nesting site task) := by
  induction nesting generalizing site task with
  | zero =>
    cases task <;> exact .fail _
  | succ nesting ih =>
    have hfield := fun init => ih none (.eval none init)
    have hrecords := walker.records_recorded
    cases task with
    | eval sites expr =>
      rw [recorder]
      by_cases hcreates : walker.creates expr = true
      · obtain ⟨α, operands, make, hkind, hoperands, hmake⟩ :=
          exists_creation (show walker.recorded.creates expr = true from hcreates) fun part =>
          ih (some expr) (.eval sites part)
        rw [evalExpression, hkind]
        simp only [bind_assoc, pure_bind]
        exact hoperands.after fun a => guarding_creation hcreates (hmake a)
      · have hidle : (siteForecast (fun _ => (.none : Forecast Empty)) sites expr).sure = [] := by
          rw [siteForecast_none]; rfl
        have hmain := obeys_evalExpression (fun init => ih (some expr) (.eval none init))
          walker.records_recorded (fun part _ => ih (some expr) (.eval sites part))
          (fun path _ this args => ih (some expr) (.invoke path this args)) (fun _ => hidle)
          (fun h => absurd h hcreates)
        have hquiet :
            Obeys walker.guarding .none
            (walker.recorded.evalExpression (walker.recorder nesting (some expr)) sites expr) :=
          obeys_guarding hmain
        exact hquiet.after fun value => guarding_note expr value
    | invoke path this args =>
      have hmain :
          Obeys walker.guarding .none (walker.recorded.invokePath (walker.recorder nesting none) path this args) :=
        obeys_guarding (obeys_invokePath hfield hrecords (fun init _ => ih none (.invoke init.2.2 none []))
          (fun v _ => guarding_step (ih none) path v) this args)
      have henter : Obeys walker.guarding .none (notify (·.enter site path) : WalkM (Recorded σ) Unit) :=
        ⟨fun _ hguards => hguards.note (by simp)⟩
      have hleave : Obeys walker.guarding .none (notify (·.leave) : WalkM (Recorded σ) Unit) :=
        ⟨fun _ hguards => ⟨hguards.log, hguards.heap⟩⟩
      rw [recorder]
      exact henter.after fun _ => hmain.after fun value => hleave.after fun _ => .pure value

/-- A walk repeats an item of a set or a key of a map first in an object that an expression makes of items as they come;
a walk that ends without such an expression leaves no repetition. -/
theorem walkWithin_distinct (walker : Walker σ) (nesting : Nat) (path : CodePath) (statics : StaticScopes)
    (observed : σ) : ∃ result record, walker.recordWithin nesting path statics observed = (result, record) ∧
      walker.walkWithin nesting path statics observed = (result, record.observed) ∧ walker.RepeatsFirst record.log ∧
      ∀ outcome, result = .ok outcome → (∀ entry ∈ record.log, entry.Distinct) → outcome.symbols.heap.Distinct := by
  refine ⟨(walker.recordWithin nesting path statics observed).1,
    (walker.recordWithin nesting path statics observed).2, rfl, walkWithin_eq_recorded .., ?_⟩
  have hinits : ∀ init ∈ path.staticInits,
      Obeys walker.guarding .none (walker.recorder nesting none (.invoke init.2.2 none [])) :=
    fun init _ => guarding_recorder walker nesting none (.invoke init.2.2 none [])
  have hsteps : ∀ v ∈ path.ids,
      Obeys walker.guarding .none (walker.recorded.step (walker.recorder nesting none) path v) :=
    fun v _ => guarding_step (guarding_recorder walker nesting none) path v
  have hmain :=
    (obeys_walkPath (fun init => guarding_recorder walker nesting none (.eval none init)) walker.records_recorded
    hinits hsteps).run { symbols := { statics }, observed := { observed } }
  have hstart : walker.Guards ⟨{}, 0, []⟩ :=
    ⟨fun _ _ _ _ hlog => absurd hlog.symm (by simp), fun _ _ hobject => absurd hobject (Array.not_mem_empty _)⟩
  generalize hrun : (walker.recorded.walkPath (walker.recorder nesting none) path).run
    { symbols := { statics }, observed := { observed } } = run at hmain
  obtain ⟨_ | returned, left⟩ := run
  · rw [recordWithin_of_run _ hrun]
    exact ⟨(hmain hstart).log, nofun⟩
  · rw [recordWithin_of_run _ hrun]
    refine ⟨(hmain hstart).log, ?_⟩
    rintro outcome ⟨⟩
    exact (hmain hstart).heap

end Walker

end ApexPaths
