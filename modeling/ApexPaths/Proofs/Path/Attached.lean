import ApexPaths.Path.Basic

/-!
The paths attached to a path: how deep they are nested, and which classes are initialized by them.
-/

namespace ApexPaths.CodePath
set_option autoImplicit false

open List

/-- The paths attached to a path, those of calls before those of initializers. -/
def attached (path : CodePath) : List CodePath := path.invocations.map (·.2) ++ path.staticInits.map (·.2.2)

/-- The classes in lower case that are initialized along a path and all paths attached to it at any depth, one
entry for each static initializer. -/
def initializedClasses (path : CodePath) : List String :=
  (path.invocations.attach.flatMap fun ⟨entry, h⟩ =>
    have := sizeOf_invocation h
    entry.2.initializedClasses) ++
  (path.staticInits.attach.flatMap fun ⟨entry, h⟩ =>
    have := sizeOf_staticInit h
    Text.lower entry.1 :: entry.2.2.initializedClasses)
termination_by sizeOf path

/-! ## One more attached path -/

theorem exists_insertByKey {α : Type} (key : Nat) (value : α) (entries : List (Nat × α)) :
    ∃ kept, kept.Sublist entries ∧ (insertByKey key value entries).Perm ((key, value) :: kept) := by
  induction entries with
  | nil => exact ⟨[], .refl [], .refl _⟩
  | cons entry rest ih =>
    obtain ⟨k, v⟩ := entry
    rw [insertByKey]
    split
    · exact ⟨(k, v) :: rest, .refl _, .refl _⟩
    split
    · exact ⟨rest, sublist_cons_self _ _, .refl _⟩
    · obtain ⟨kept, hkept, hperm⟩ := ih
      exact ⟨(k, v) :: kept, hkept.cons_cons _, (hperm.cons _).trans (.swap ..)⟩

theorem perm_insertByKey {α : Type} {key : Nat} (value : α) {entries : List (Nat × α)}
    (hfresh : key ∉ entries.map Prod.fst) : (insertByKey key value entries).Perm ((key, value) :: entries) := by
  induction entries with
  | nil => exact .refl _
  | cons entry rest ih =>
    obtain ⟨k, v⟩ := entry
    obtain ⟨hne, hrest⟩ : key ≠ k ∧ key ∉ rest.map Prod.fst := by simpa using hfresh
    rw [insertByKey]
    split
    · exact .refl _
    · exact ((ih hrest).cons _).trans (.swap ..)

variable {path sub : CodePath}

theorem attached_withInvocation_perm {anchor site : VertexId} (hfresh : site ∉ path.invocations.map Prod.fst) :
    (path.withInvocation anchor site sub).attached.Perm (sub :: path.attached) :=
  ((perm_insertByKey sub hfresh).map Prod.snd).append_right _

theorem attached_withStaticInit_perm {class_ : String} {anchor : Option VertexId} :
    (path.withStaticInit class_ anchor sub).attached.Perm (sub :: path.attached) := by
  rw [attached, withStaticInit, map_append, ← List.append_assoc]
  exact perm_append_singleton _ _

variable {other : CodePath}

theorem mem_attached_withInvocation {anchor site : VertexId}
    (h : other ∈ (path.withInvocation anchor site sub).attached) : other = sub ∨ other ∈ path.attached := by
  obtain ⟨kept, hkept, hperm⟩ := exists_insertByKey site sub path.invocations
  rcases mem_append.mp h with h | h
  · obtain ⟨entry, hentry, rfl⟩ := mem_map.mp h
    rcases mem_cons.mp (hperm.mem_iff.mp hentry) with rfl | hentry
    · exact .inl rfl
    · exact .inr (mem_append_left _ (mem_map_of_mem (hkept.mem hentry)))
  · exact .inr (mem_append_right _ h)

theorem mem_attached_withStaticInit {class_ : String} {anchor : Option VertexId}
    (h : other ∈ (path.withStaticInit class_ anchor sub).attached) : other = sub ∨ other ∈ path.attached := by
  simp only [attached, withStaticInit, map_append, mem_append, map_cons, map_nil,
    mem_singleton] at h ⊢
  rcases h with h | h | h
  · exact .inr (.inl h)
  · exact .inr (.inr h)
  · exact .inl h

/-! ## Depth -/

theorem foldl_max_le_iff {items : List Nat} {first bound : Nat} :
    items.foldl max first ≤ bound ↔ first ≤ bound ∧ ∀ item ∈ items, item ≤ bound := by
  induction items generalizing first with
  | nil => simp
  | cons item rest ih =>
    rw [foldl_cons, ih, Nat.max_le, forall_mem_cons, and_assoc]

theorem depth_le_iff {bound : Nat} : path.depth ≤ bound ↔ ∀ other ∈ path.attached, other.depth < bound := by
  rw [depth, foldl_max_le_iff]
  simp only [attached, forall_mem_append, forall_mem_map, mem_attach, forall_const, Subtype.forall,
    Nat.zero_le, true_and]
  rfl

theorem depth_lt_of_mem_attached (h : sub ∈ path.attached) : sub.depth < path.depth :=
  depth_le_iff.mp (Nat.le_refl _) sub h

theorem depth_mono (h : path.attached ⊆ other.attached) : path.depth ≤ other.depth :=
  depth_le_iff.mpr fun _ hsub => depth_lt_of_mem_attached (h hsub)

/-! ## Initialized classes -/

/-- The classes of a path are those of its attached paths and of its own initializers. -/
theorem initializedClasses_eq : path.initializedClasses =
    (path.invocations.flatMap fun entry => entry.2.initializedClasses) ++
      path.staticInits.flatMap fun entry => Text.lower entry.1 :: entry.2.2.initializedClasses := by
  rw [initializedClasses]
  congr 1
  · simp [flatMap_def, map_attach_eq_pmap]
  · simp [flatMap_def, map_attach_eq_pmap]

theorem sublist_flatMap {α β : Type} (f : α → List β) {first second : List α} (h : first.Sublist second) :
    (first.flatMap f).Sublist (second.flatMap f) := by
  induction h with
  | slnil => exact .refl _
  | cons a _ ih => exact ih.trans (sublist_append_right ..)
  | cons_cons a _ ih => exact ih.append_left (f a)

theorem initializedClasses_withInvocation (path sub : CodePath) (anchor site : VertexId) : ∃ kept : List String,
    kept.Sublist path.initializedClasses ∧
      (path.withInvocation anchor site sub).initializedClasses.Perm (sub.initializedClasses ++ kept) := by
  obtain ⟨kept, hkept, hperm⟩ := exists_insertByKey site sub path.invocations
  refine ⟨(kept.flatMap fun entry => entry.2.initializedClasses) ++
    path.staticInits.flatMap fun entry => Text.lower entry.1 :: entry.2.2.initializedClasses, ?_, ?_⟩
  · rw [initializedClasses_eq]
    exact (sublist_flatMap _ hkept).append (.refl _)
  · rw [initializedClasses_eq, ← List.append_assoc]
    exact (hperm.flatMap_right _).append_right _

theorem initializedClasses_withStaticInit (path sub : CodePath) (class_ : String) (anchor : Option VertexId) :
    (path.withStaticInit class_ anchor sub).initializedClasses =
      path.initializedClasses ++ Text.lower class_ :: sub.initializedClasses := by
  rw [initializedClasses_eq, initializedClasses_eq]
  simp [withStaticInit]

end ApexPaths.CodePath
