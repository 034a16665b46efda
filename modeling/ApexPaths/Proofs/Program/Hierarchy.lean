import ApexPaths.Proofs.Graph.History
import ApexPaths.Program.Basic
import ApexPaths.Proofs.Build.Supertypes
import Mathlib.Data.List.Perm.Subperm

/-!
The hierarchy of types. A way leads up from a type along direct supertypes. The search from a type lists exactly
the types to which ways lead, each once and with the length of a shortest way to it. The hierarchy may have cycles:
interfaces may implement each other in a circle.
-/

namespace ApexPaths.Program
set_option autoImplicit false

open List

variable {way : List VertexId} {sup : VertexId} {seen : List VertexId} {queue : List (VertexId × Nat)}
variable {distance : Nat} {sub : VertexId} {every : List VertexId}

/-! ## Ways -/

/-- A way up the hierarchy from a type to another one: the types passed after the first, the last one included. -/
inductive Way (program : Program) : VertexId → List VertexId → VertexId → Prop
  | here (type : VertexId) : Way program type [] type
  | up {sub direct sup : VertexId} {rest : List VertexId} (hdirect : direct ∈ program.supertypes sub)
      (hrest : Way program direct rest sup) : Way program sub (direct :: rest) sup

variable {program : Program}

theorem Way.trans {a b c : VertexId} {first second : List VertexId} (hfirst : program.Way a first b)
    (hsecond : program.Way b second c) : program.Way a (first ++ second) c := by
  induction hfirst with
  | here => exact hsecond
  | up hdirect _ ih => exact .up hdirect (ih hsecond)

theorem Way.eq_of_nil {a b : VertexId} (h : program.Way a [] b) : a = b := by
  cases h
  rfl

theorem Way.split {a b c : VertexId} (h : program.Way a way c) (hb : b ∈ way) :
    ∃ first second, way = first ++ second ∧ first ≠ [] ∧ program.Way a first b ∧ program.Way b second c := by
  induction h with
  | here => exact absurd hb not_mem_nil
  | @up sub direct sup rest hdirect hrest ih =>
    rcases mem_cons.mp hb with rfl | hb
    · exact ⟨[b], rest, rfl, by simp, .up hdirect (.here b), hrest⟩
    · obtain ⟨first, second, rfl, -, hfirst, hsecond⟩ := ih hb
      exact ⟨direct :: first, second, rfl, by simp, .up hdirect hfirst, hsecond⟩

/-- The length of a shortest way up from one type to another. -/
def IsDistance (program : Program) (sub sup : VertexId) (distance : Nat) : Prop :=
  (∃ way, program.Way sub way sup ∧ way.length = distance) ∧ ∀ way, program.Way sub way sup → distance ≤ way.length

/-! ## The search -/

variable (program) in
/-- The supertypes of a type that were not seen yet. -/
def fresh (type : VertexId) (seen : List VertexId) : List VertexId :=
  (program.supertypes type).eraseDups.filter (!seen.contains ·)

variable {type : VertexId}

theorem mem_fresh :
    sup ∈ program.fresh type seen ↔ sup ∈ program.supertypes type ∧ sup ∉ seen := by
  simp [fresh]

theorem nodup_fresh (type : VertexId) (seen : List VertexId) : (program.fresh type seen).Nodup :=
  (Build.nodup_eraseDups _).filter _

theorem climb_cons (n : Nat) (type : VertexId) (distance : Nat) (queue : List (VertexId × Nat)) (seen : List VertexId) :
    program.climb (n + 1) ((type, distance) :: queue) seen = (program.fresh type seen).map (·, distance + 1) ++
      program.climb n (queue ++ (program.fresh type seen).map (·, distance + 1)) (seen ++ program.fresh type seen) :=
      rfl

/-- What the search finds is reached by a way of the distance that it tells. -/
theorem exists_way_of_mem_climb {n : Nat} (h : (sup, distance) ∈ program.climb n queue seen) :
    ∃ entry ∈ queue, ∃ way, program.Way entry.1 way sup ∧ distance = entry.2 + way.length := by
  induction n generalizing queue seen with
  | zero => exact absurd h not_mem_nil
  | succ n ih =>
    cases queue with
    | nil => exact absurd h not_mem_nil
    | cons head queue =>
      obtain ⟨type, steps⟩ := head
      rw [climb_cons, mem_append] at h
      have hfound : ∀ entry ∈ (program.fresh type seen).map (·, steps + 1),
          entry.1 ∈ program.supertypes type ∧ entry.2 = steps + 1 := by
        intro entry hentry
        obtain ⟨direct, hdirect, rfl⟩ := mem_map.mp hentry
        exact ⟨(mem_fresh.mp hdirect).1, rfl⟩
      rcases h with h | h
      · obtain ⟨hdirect, hsteps⟩ := hfound _ h
        exact ⟨(type, steps), mem_cons_self, [sup], .up hdirect (.here sup), hsteps⟩
      · obtain ⟨entry, hentry, way, hway, hsteps⟩ := ih h
        rcases mem_append.mp hentry with hentry | hentry
        · exact ⟨entry, mem_cons_of_mem _ hentry, way, hway, hsteps⟩
        · obtain ⟨hdirect, hone⟩ := hfound _ hentry
          refine ⟨(type, steps), mem_cons_self, entry.1 :: way, .up hdirect hway, ?_⟩
          rw [hsteps, hone, length_cons]
          omega

theorem nodup_climb (n : Nat) (queue : List (VertexId × Nat)) (hseen : seen.Nodup) :
    (seen ++ (program.climb n queue seen).map Prod.fst).Nodup := by
  induction n generalizing queue seen with
  | zero => simpa [climb] using hseen
  | succ n ih =>
    cases queue with
    | nil => simpa [climb] using hseen
    | cons head queue =>
      obtain ⟨type, steps⟩ := head
      have hmore : (seen ++ program.fresh type seen).Nodup :=
        hseen.append (nodup_fresh type seen) fun sup hsup hfresh => (mem_fresh.mp hfresh).2 hsup
      have hrest := ih (queue ++ (program.fresh type seen).map (·, steps + 1)) hmore
      simpa [climb_cons, Function.comp_def] using hrest

/-- A search under way: the types in the queue are seen and those left behind have no unseen supertypes; the queue is in
the order of distance, and its distances differ by one at most. -/
structure Searching (program : Program) (queue : List (VertexId × Nat)) (seen : List VertexId) : Prop where
  seen_of_mem : ∀ entry ∈ queue, entry.1 ∈ seen
  closed : ∀ type ∈ seen, type ∉ queue.map Prod.fst → ∀ sup ∈ program.supertypes type, sup ∈ seen
  sorted : queue.Pairwise fun a b => a.2 ≤ b.2
  close : ∀ a ∈ queue, ∀ b ∈ queue, b.2 ≤ a.2 + 1

theorem searching_start (type : VertexId) : Searching program [(type, 0)] [type] where
  seen_of_mem := by simp
  closed := by simp
  sorted := pairwise_singleton _ _
  close := by simp

/-- One step of the search keeps its invariant. -/
theorem Searching.next {steps : Nat} {queue : List (VertexId × Nat)} {seen : List VertexId}
    (h : Searching program ((type, steps) :: queue) seen) :
    Searching program (queue ++ (program.fresh type seen).map (·, steps + 1)) (seen ++ program.fresh type seen) := by
  have hfirst : ∀ entry ∈ queue, steps ≤ entry.2 := fun entry hentry => (pairwise_cons.mp h.sorted).1 entry hentry
  have hlast : ∀ entry ∈ queue, entry.2 ≤ steps + 1 :=
    fun entry hentry => h.close _ mem_cons_self entry (mem_cons_of_mem _ hentry)
  have hfound : ∀ entry ∈ (program.fresh type seen).map (·, steps + 1),
      entry.1 ∈ program.fresh type seen ∧ entry.2 = steps + 1 := by
    intro entry hentry
    obtain ⟨direct, hdirect, rfl⟩ := mem_map.mp hentry
    exact ⟨hdirect, rfl⟩
  have hbounds : ∀ entry ∈ queue ++ (program.fresh type seen).map (·, steps + 1), steps ≤ entry.2 ∧
      entry.2 ≤ steps + 1 := by
    intro entry hentry
    rcases mem_append.mp hentry with hentry | hentry
    · exact ⟨hfirst entry hentry, hlast entry hentry⟩
    · rw [(hfound entry hentry).2]
      exact ⟨Nat.le_succ _, Nat.le_refl _⟩
  refine ⟨fun entry hentry => ?_, fun other hother hnot sup hsup => ?_, ?_, fun a ha b hb => ?_⟩
  · rcases mem_append.mp hentry with hentry | hentry
    · exact mem_append_left _ (h.seen_of_mem entry (mem_cons_of_mem _ hentry))
    · exact mem_append_right _ (hfound entry hentry).1
  · rw [map_append, mem_append, not_or] at hnot
    rw [mem_append] at hother ⊢
    by_cases hsame : other = type
    · subst hsame
      by_cases hseen : sup ∈ seen
      · exact .inl hseen
      · exact .inr (mem_fresh.mpr ⟨hsup, hseen⟩)
    · have hold : other ∈ seen := hother.resolve_right fun hfresh => hnot.2 (by simpa using hfresh)
      exact .inl (h.closed other hold (by simpa [hsame] using hnot.1) sup hsup)
  · refine pairwise_append.mpr ⟨(pairwise_cons.mp h.sorted).2, ?_, fun a ha b hb => ?_⟩
    · refine pairwise_of_forall_mem_list fun a ha b hb => ?_
      exact Nat.le_of_eq ((hfound a ha).2.trans (hfound b hb).2.symm)
    · rw [(hfound b hb).2]
      exact hlast a ha
  · have := hbounds a ha
    have := hbounds b hb
    omega

theorem Searching.exists_entry (h : Searching program queue seen) (hway : program.Way sub way sup) (hsub : sub ∈ seen)
    (hsup : sup ∉ seen) : ∃ entry ∈ queue, ∃ rest, program.Way entry.1 rest sup ∧ rest.length ≤ way.length := by
  induction hway with
  | here => exact absurd hsub hsup
  | @up sub direct sup rest hdirect hrest ih =>
    by_cases hqueued : sub ∈ queue.map Prod.fst
    · obtain ⟨entry, hentry, rfl⟩ := mem_map.mp hqueued
      exact ⟨entry, hentry, direct :: rest, .up hdirect hrest, Nat.le_refl _⟩
    · obtain ⟨entry, hentry, later, hlater, hlength⟩ := ih (h.closed sub hsub hqueued direct hdirect) hsup
      exact ⟨entry, hentry, later, hlater, Nat.le_succ_of_le hlength⟩

/-- The search stays among some types, and its bound covers the queue and what may still enter it. -/
structure Bounded (every : List VertexId) (n : Nat) (queue : List (VertexId × Nat)) (seen : List VertexId) : Prop where
  nodup : seen.Nodup
  inside : ∀ type ∈ seen, type ∈ every
  covers : queue.length + every.length ≤ n + seen.length

theorem Bounded.eq_nil
    (h : Bounded every 0 queue seen) : queue = [] := by
  have hle : seen.length ≤ every.length := (h.nodup.subperm h.inside).length_le
  have hcovers := h.covers
  exact eq_nil_of_length_eq_zero (by omega)

theorem Bounded.next {every : List VertexId} {n : Nat} {steps : Nat} {queue : List (VertexId × Nat)}
    {seen : List VertexId} (hclosed : ∀ type, ∀ sup ∈ program.supertypes type, sup ∈ every)
    (h : Bounded every (n + 1) ((type, steps) :: queue) seen) :
    Bounded every n (queue ++ (program.fresh type seen).map (·, steps + 1)) (seen ++ program.fresh type seen) where
  nodup := h.nodup.append (nodup_fresh type seen) fun _ hsup hfresh => (mem_fresh.mp hfresh).2 hsup
  inside := by
    intro type' htype'
    rcases mem_append.mp htype' with htype' | htype'
    · exact h.inside type' htype'
    · exact hclosed type type' (mem_fresh.mp htype').1
  covers := by
    have hcovers := h.covers
    simp only [length_append, length_map, length_cons] at hcovers ⊢
    omega

/-- What is reached by some way is found, at the shortest distance. -/
theorem exists_mem_climb {n : Nat}
    (h : Searching program queue seen) (hclosed : ∀ type, ∀ sup ∈ program.supertypes type, sup ∈ every)
    (hbounded : Bounded every n queue seen) {entry : VertexId × Nat} (hentry : entry ∈ queue)
    (hway : program.Way entry.1 way sup) (hsup : sup ∉ seen) :
    ∃ distance ≤ entry.2 + way.length, (sup, distance) ∈ program.climb n queue seen := by
  induction n generalizing queue seen entry way with
  | zero => exact absurd (hbounded.eq_nil ▸ hentry) not_mem_nil
  | succ n ih =>
    cases queue with
    | nil => exact absurd hentry not_mem_nil
    | cons head queue =>
      obtain ⟨type, steps⟩ := head
      rw [climb_cons]
      have hsteps : steps ≤ entry.2 := by
        rcases mem_cons.mp hentry with rfl | hentry
        · exact Nat.le_refl _
        · exact (pairwise_cons.mp h.sorted).1 entry hentry
      have hnonempty : 0 < way.length := by
        refine length_pos_iff.mpr fun hnil => hsup ?_
        subst hnil
        exact hway.eq_of_nil ▸ h.seen_of_mem entry hentry
      by_cases hfresh : sup ∈ program.fresh type seen
      · exact ⟨steps + 1, by omega, mem_append_left _ (mem_map_of_mem hfresh)⟩
      have hunseen : sup ∉ seen ++ program.fresh type seen := by simpa using ⟨hsup, hfresh⟩
      have hnext := h.next
      have hbounded' := hbounded.next hclosed
      rcases mem_cons.mp hentry with rfl | hentry
      · -- the way starts at the type that is taken; it goes on from a type that is in the queue afterwards
        cases hway with
        | here => exact absurd hnonempty (Nat.lt_irrefl 0)
        | @up _ direct _ rest hdirect hrest =>
          have hseen : direct ∈ seen ++ program.fresh type seen := by
            by_cases hold : direct ∈ seen
            · exact mem_append_left _ hold
            · exact mem_append_right _ (mem_fresh.mpr ⟨hdirect, hold⟩)
          obtain ⟨later, hlater, rest', hrest', hlength⟩ := hnext.exists_entry hrest hseen hunseen
          obtain ⟨distance, hdistance, hmem⟩ := ih hnext hbounded' hlater hrest' hunseen
          have hone : later.2 ≤ steps + 1 := by
            rcases mem_append.mp hlater with hlater | hlater
            · exact h.close _ mem_cons_self later (mem_cons_of_mem _ hlater)
            · obtain ⟨_, -, rfl⟩ := mem_map.mp hlater
              exact Nat.le_refl _
          refine ⟨distance, ?_, mem_append_right _ hmem⟩
          rw [length_cons]
          omega
      · obtain ⟨distance, hdistance, hmem⟩ := ih hnext hbounded' (mem_append_left _ hentry) hway hunseen
        exact ⟨distance, hdistance, mem_append_right _ hmem⟩

/-- Types come in the order of their distance. -/
theorem pairwise_climb (n : Nat) (h : Searching program queue seen) :
    (queue ++ program.climb n queue seen).Pairwise fun a b => a.2 ≤ b.2 := by
  induction n generalizing queue seen with
  | zero => simpa [climb] using h.sorted
  | succ n ih =>
    cases queue with
    | nil => exact .nil
    | cons head queue =>
      obtain ⟨type, steps⟩ := head
      have hrest := ih h.next
      rw [List.append_assoc] at hrest
      rw [climb_cons, cons_append]
      refine pairwise_cons.mpr ⟨fun entry hentry => ?_, hrest⟩
      have hfirst : ∀ entry ∈ queue ++ (program.fresh type seen).map (·, steps + 1), steps ≤ entry.2 := by
        intro entry hentry
        rcases mem_append.mp hentry with hentry | hentry
        · exact (pairwise_cons.mp h.sorted).1 entry hentry
        · obtain ⟨_, -, rfl⟩ := mem_map.mp hentry
          exact Nat.le_succ _
      rw [← List.append_assoc] at hentry
      rcases mem_append.mp hentry with hentry | hentry
      · exact hfirst entry hentry
      · obtain ⟨source, hsource, way, -, hdistance⟩ := exists_way_of_mem_climb hentry
        exact Nat.le_trans (hfirst source hsource) (hdistance ▸ Nat.le_add_right ..)

/-- The search as a loop without a bound: it takes the first type from the queue until the queue is empty. -/
inductive Searches (program : Program) : List (VertexId × Nat) → List VertexId → List (VertexId × Nat) → Prop
  | done (seen : List VertexId) : Searches program [] seen []
  | next {type : VertexId} {distance : Nat} {queue found : List (VertexId × Nat)} {seen : List VertexId}
      (hrest : Searches program (queue ++ (program.fresh type seen).map (·, distance + 1))
      (seen ++ program.fresh type seen) found) :
      Searches program ((type, distance) :: queue) seen ((program.fresh type seen).map (·, distance + 1) ++ found)

theorem searches_climb {n : Nat}
    (hclosed : ∀ type, ∀ sup ∈ program.supertypes type, sup ∈ every) (hbounded : Bounded every n queue seen) :
    program.Searches queue seen (program.climb n queue seen) := by
  induction n generalizing queue seen with
  | zero =>
    obtain rfl := hbounded.eq_nil
    exact .done seen
  | succ n ih =>
    cases queue with
    | nil => exact .done seen
    | cons head queue => exact .next (ih (hbounded.next hclosed))

/-! ## Supertypes at any distance -/

theorem exists_way_of_mem_ancestors (h : (sup, distance) ∈ program.ancestors sub) :
    ∃ way, program.Way sub way sup ∧ distance = way.length := by
  obtain ⟨entry, hentry, way, hway, hdistance⟩ := exists_way_of_mem_climb h
  obtain rfl := mem_singleton.mp hentry
  exact ⟨way, hway, by simpa using hdistance⟩

theorem nodup_hierarchy (program : Program) (type : VertexId) : (program.hierarchy type).Nodup :=
  nodup_climb _ _ (nodup_singleton type)

theorem ne_of_mem_ancestors {entry : VertexId × Nat} (h : entry ∈ program.ancestors sub) : entry.1 ≠ sub := by
  rintro rfl
  exact (nodup_cons.mp (program.nodup_hierarchy entry.1)).1 (mem_map_of_mem h)

theorem eq_of_mem_ancestors {a b : VertexId × Nat} (ha : a ∈ program.ancestors sub)
    (hb : b ∈ program.ancestors sub) (h : a.1 = b.1) : a = b :=
  inj_on_of_nodup_map (nodup_cons.mp (program.nodup_hierarchy sub)).2 ha hb h

theorem distance?_eq_some_iff_mem (hne : sub ≠ sup) :
    program.distance? sub sup = some distance ↔ (sup, distance) ∈ program.ancestors sub := by
  rw [distance?, if_neg hne, Option.map_eq_some_iff]
  constructor
  · rintro ⟨entry, hfind, rfl⟩
    have hname : entry.1 = sup := by simpa using List.find?_some hfind
    exact hname ▸ mem_of_find?_eq_some hfind
  · intro h
    have hfound : ((program.ancestors sub).find? (·.1 == sup)).isSome = true :=
      List.find?_isSome.mpr ⟨_, h, beq_self_eq_true sup⟩
    obtain ⟨entry, hfind⟩ := Option.isSome_iff_exists.mp hfound
    have hname : entry.1 = sup := by simpa using List.find?_some hfind
    exact ⟨entry, hfind, congrArg Prod.snd (eq_of_mem_ancestors (mem_of_find?_eq_some hfind) h hname)⟩

section
variable (inside : Build.LeadsInside program.graph)
include inside

theorem mem_every_of_mem_supertypes (start : VertexId) : ∀ type, ∀ sup ∈ program.supertypes type,
    sup ∈ start :: List.range program.graph.vertexCount := by
  intro type sup hsup
  refine mem_cons_of_mem _ (mem_range.mpr ?_)
  rcases mem_append.mp hsup with hsup | hsup
  · exact inside _ _ _ hsup
  · exact inside _ _ _ hsup

omit inside in
theorem bounded_start (start : VertexId) : Bounded (start :: List.range program.graph.vertexCount)
    (program.graph.vertexCount + 1) [(start, 0)] [start] where
  nodup := nodup_singleton start
  inside := by simp
  covers := by simp [Nat.add_comm]

theorem exists_mem_ancestors (hway : program.Way sub way sup) (hne : sup ≠ sub) :
    ∃ distance ≤ way.length, (sup, distance) ∈ program.ancestors sub := by
  obtain ⟨distance, hdistance, hmem⟩ := exists_mem_climb (searching_start sub) (mem_every_of_mem_supertypes inside sub)
    (bounded_start sub) mem_cons_self hway (by simpa using hne)
  exact ⟨distance, by simpa using hdistance, hmem⟩

theorem mem_ancestors_iff :
    sup ∈ (program.ancestors sub).map Prod.fst ↔ sup ≠ sub ∧ ∃ way, program.Way sub way sup := by
  constructor
  · intro h
    obtain ⟨entry, hentry, rfl⟩ := mem_map.mp h
    obtain ⟨way, hway, -⟩ := exists_way_of_mem_ancestors hentry
    exact ⟨ne_of_mem_ancestors hentry, way, hway⟩
  · rintro ⟨hne, way, hway⟩
    obtain ⟨distance, -, hmem⟩ := exists_mem_ancestors inside hway hne
    exact mem_map_of_mem hmem

/-- The distance of a supertype is the length of a shortest way to it. -/
theorem distance?_eq_some_iff :
    program.distance? sub sup = some distance ↔ program.IsDistance sub sup distance := by
  by_cases hsame : sub = sup
  · subst hsame
    simp only [distance?, if_true, Option.some.injEq]
    constructor
    · rintro rfl
      exact ⟨⟨[], .here sub, rfl⟩, fun _ _ => Nat.zero_le _⟩
    · exact fun ⟨_, hleast⟩ => (Nat.le_zero.mp (hleast [] (.here sub))).symm
  rw [distance?_eq_some_iff_mem hsame]
  constructor
  · intro h
    obtain ⟨way, hway, rfl⟩ := exists_way_of_mem_ancestors h
    refine ⟨⟨way, hway, rfl⟩, fun other hother => ?_⟩
    obtain ⟨least, hleast, hmem⟩ := exists_mem_ancestors inside hother (Ne.symm hsame)
    obtain rfl : least = way.length := congrArg Prod.snd (eq_of_mem_ancestors hmem h rfl)
    exact hleast
  · rintro ⟨⟨way, hway, rfl⟩, hleast⟩
    obtain ⟨distance, hdistance, hmem⟩ := exists_mem_ancestors inside hway (Ne.symm hsame)
    obtain ⟨other, hother, rfl⟩ := exists_way_of_mem_ancestors hmem
    rwa [Nat.le_antisymm (hleast other hother) hdistance]

theorem length_ancestors_lt (hway : program.Way sub way sup)
    (hback : ∀ way, ¬program.Way sup way sub) : (program.ancestors sup).length < (program.ancestors sub).length := by
  have hsubset : ∀ type ∈ program.hierarchy sup, type ∈ (program.ancestors sub).map Prod.fst := by
    intro type htype
    obtain ⟨further, hfurther⟩ : ∃ further, program.Way sup further type := by
      rcases mem_cons.mp htype with rfl | htype
      · exact ⟨[], .here type⟩
      · exact ((mem_ancestors_iff inside).mp htype).2
    refine (mem_ancestors_iff inside).mpr ⟨?_, _, hway.trans hfurther⟩
    rintro rfl
    exact hback further hfurther
  exact Nat.lt_of_succ_le (by simpa [hierarchy] using ((program.nodup_hierarchy sup).subperm hsubset).length_le)

end

/-! ## Graphs of histories -/

theorem mem_supertypes_ofHistory {history : List GraphChange} {sub direct : Nat} :
    direct ∈ (ofGraph (.ofHistory history)).supertypes sub ↔ ∃ before label after,
      history = before ++ .edge sub direct label :: after ∧ (label = .extensionOf ∨ label = .implementationOf) ∧
        sub < (CodeGraph.ofHistory before).vertexCount ∧ direct < (CodeGraph.ofHistory before).vertexCount := by
  have hedge : ∀ {change : GraphChange} {label}, label ≠ .child →
      (change.edge? = some (sub, label, direct) ↔ change = .edge sub direct label) := by
    intro change label hlabel
    cases change <;> simp [GraphChange.edge?]
    all_goals grind
  have hend : ∀ label, label ≠ .child → (direct ∈ (CodeGraph.ofHistory history).outNeighbors sub label ↔ ∃ before after,
      history = before ++ .edge sub direct label :: after ∧ sub < (CodeGraph.ofHistory before).vertexCount ∧
        direct < (CodeGraph.ofHistory before).vertexCount) := by
    intro label hlabel
    rw [CodeGraph.mem_outNeighbors_ofHistory]
    constructor
    · rintro ⟨before, change, after, hsplit, hchange, hends⟩
      exact ⟨before, after, (hedge hlabel).mp hchange ▸ hsplit, hends⟩
    · rintro ⟨before, after, hsplit, hends⟩
      exact ⟨before, _, after, hsplit, (hedge hlabel).mpr rfl, hends⟩
  refine mem_append.trans ?_
  rw [show (ofGraph (.ofHistory history)).graph = .ofHistory history from rfl, hend _ (by simp), hend _ (by simp)]
  grind

/-- In any graph that changes can make, whatever its edges of inheritance are, the search for the supertypes of a
type ends. It lists the types to which ways lead, but not the type itself, once each and in the order of distance.
The distance is the length of a shortest way, and missing without a way. -/
theorem search_exact (history : List GraphChange) (type : VertexId) :
    let program := ofGraph (.ofHistory history)
    (∀ sub direct, direct ∈ program.supertypes sub ↔ ∃ before label after,
      history = before ++ .edge sub direct label :: after ∧ (label = .extensionOf ∨ label = .implementationOf) ∧
        sub < (CodeGraph.ofHistory before).vertexCount ∧ direct < (CodeGraph.ofHistory before).vertexCount) ∧
    program.Searches [(type, 0)] [type] (program.ancestors type) ∧
    ((program.ancestors type).map Prod.fst).Nodup ∧
    ((program.ancestors type).Pairwise fun a b => a.2 ≤ b.2) ∧
    (∀ sup, sup ∈ (program.ancestors type).map Prod.fst ↔ sup ≠ type ∧ ∃ way, program.Way type way sup) ∧
    (∀ sup distance, (sup, distance) ∈ program.ancestors type ↔ sup ≠ type ∧ program.IsDistance type sup distance) ∧
    (∀ sup distance, program.distance? type sup = some distance ↔ program.IsDistance type sup distance) ∧
    (∀ sup, program.distance? type sup = none ↔ ∀ way, ¬program.Way type way sup) ∧
    program.hierarchy type = type :: (program.ancestors type).map Prod.fst := by
  intro program
  have inside : Build.LeadsInside program.graph :=
    Build.lasting_leadsInside.of_history (fun v l w hw => by simp [CodeGraph.outNeighbors, CodeGraph.vertex?] at hw)
    history
  have hdistance : ∀ sup distance, program.distance? type sup = some distance ↔ program.IsDistance type sup distance :=
    fun _ _ => distance?_eq_some_iff inside
  refine ⟨fun _ _ => mem_supertypes_ofHistory,
    searches_climb (mem_every_of_mem_supertypes inside type) (bounded_start type),
    (nodup_cons.mp (program.nodup_hierarchy type)).2, ?_, fun _ => mem_ancestors_iff inside, fun sup distance => ?_,
    hdistance,
    fun sup => ?_, rfl⟩
  · exact (pairwise_append.mp (pairwise_climb _ (searching_start type))).2.1
  · by_cases hsame : sup = type
    · exact ⟨fun hmem => absurd hsame (ne_of_mem_ancestors hmem), fun h => absurd hsame h.1⟩
    · rw [← distance?_eq_some_iff_mem (Ne.symm hsame), hdistance, and_iff_right hsame]
  · constructor
    · intro hnone way hway
      by_cases hsame : sup = type
      · simp [distance?, hsame] at hnone
      · obtain ⟨distance, -, hmem⟩ := exists_mem_ancestors inside hway hsame
        exact absurd ((distance?_eq_some_iff_mem (Ne.symm hsame)).mpr hmem) (by simp [hnone])
    · intro hway
      refine Option.eq_none_iff_forall_ne_some.mpr fun distance hsome => ?_
      obtain ⟨way, hfound, -⟩ := ((hdistance sup distance).mp hsome).1
      exact hway way hfound

end ApexPaths.Program
