import ApexPaths.Expansion.Facts
import Mathlib.Data.List.Induction
import Mathlib.Tactic.SplitIfs

/-!
Which contradictions along a path are noticed. One fact is kept of each variable, the latest one. It is given up
for a newer fact of either kind, about null or about truth. So a fact and a later opposite one are noticed if what
lies between them about the variable is one or the other again. A new value in between means that the two do not
contradict each other; a fact of the other kind in between hides that they do.
-/

namespace ApexPaths
set_option autoImplicit false

open List

/-! ## What is known of a variable -/

/-- The fact that is kept of a variable while a path is judged. -/
def keptFact? (known : List (String × ConstraintKind)) (name : String) : Option ConstraintKind :=
  (known.find? (·.1 == name)).map (·.2)

/-- What the latest constraint of a scope about a variable says, unless it gives the variable a new value. -/
def latestFact? (constraints : List Constraint) (scope : VertexId) (name : String) : Option ConstraintKind :=
  ((constraints.reverse.find? fun c => c.scope == scope && c.variableName == name).map (·.kind)).filter (· != .reset)

variable {known known' : List (String × ConstraintKind)} {constraints before between : List Constraint}
  {scope : VertexId} {name other : String} {kind : ConstraintKind} {c : Constraint}

theorem opposite?_ne_reset (kind : ConstraintKind) : kind.opposite? ≠ some .reset := by
  cases kind <;> decide

theorem ne_reset_of_opposite? {a b : ConstraintKind} (h : a.opposite? = some b) : a ≠ .reset := by
  rintro rfl
  exact nomatch h

theorem keptFact?_filter_ne (name other : String) : keptFact? (known.filter (·.1 != name)) other =
    if name = other then none else keptFact? known other := by
  simp only [keptFact?, List.find?_filter]
  split_ifs with h
  · subst h
    simp
  · refine congrArg (Option.map _) (congrArg (known.find? ·) (funext fun fact => ?_))
    by_cases hfact : fact.1 = other
    · simp [hfact, Ne.symm h]
    · simp [hfact]

theorem keptFact?_cons (fact : String × ConstraintKind) (name : String) : keptFact? (fact :: known) name =
    if fact.1 = name then some fact.2 else keptFact? known name := by
  by_cases h : fact.1 = name <;> simp [keptFact?, h]

theorem learn_eq_none_iff : learn known name kind = none ↔
    ∃ previous, keptFact? known name = some previous ∧ previous.opposite? = some kind := by
  unfold learn keptFact?
  by_cases hreset : kind = .reset
  · simp [hreset, opposite?_ne_reset]
  · cases hfind : known.find? (·.1 == name) with
    | none => simp [hreset]
    | some fact => simp [hreset]

theorem keptFact?_of_learn (h : learn known name kind = some known') : keptFact? known' other =
    if name = other then (if kind = .reset then none else some kind) else keptFact? known other := by
  have hknown : known' = if kind = .reset then known.filter (·.1 != name)
      else (name, kind) :: known.filter (·.1 != name) := by
    unfold learn at h
    split_ifs at h ⊢
    · exact (Option.some.inj h).symm
    · split at h
      · split_ifs at h
        exact (Option.some.inj h).symm
      · exact (Option.some.inj h).symm
  subst hknown
  split_ifs with hreset hname hname
  · simp [keptFact?_filter_ne, hname]
  · simp [keptFact?_filter_ne, hname]
  · simp [keptFact?_cons, hname]
  · simp [keptFact?_cons, keptFact?_filter_ne, hname]

theorem latestFact?_concat : latestFact? (constraints ++ [c]) scope name =
    if c.scope = scope ∧ c.variableName = name then (if c.kind = .reset then none else some c.kind)
    else latestFact? constraints scope name := by
  simp only [latestFact?, reverse_append, reverse_singleton, singleton_append, List.find?_cons]
  by_cases h : c.scope = scope ∧ c.variableName = name
  · by_cases hreset : c.kind = .reset <;> simp [h, hreset, Option.filter]
  · have hc : (c.scope == scope && c.variableName == name) = false := by simpa using h
    rw [if_neg h, hc]

theorem latestFact?_eq_some_of_forall (hkind : kind ≠ .reset) (hc : c.scope = scope ∧ c.variableName = name)
    (hckind : c.kind = kind)
    (h : ∀ d ∈ between, d.scope = scope → d.variableName = name → d.kind = kind) :
    latestFact? (before ++ c :: between) scope name = some kind := by
  induction between using List.reverseRecOn with
  | nil => simp [latestFact?_concat, hc, hckind, hkind]
  | append_singleton between d ih =>
    have ih := ih fun d hd => h d (mem_append_left _ hd)
    rw [← cons_append, ← List.append_assoc, latestFact?_concat]
    split_ifs with hd hreset
    · exact absurd ((h d (by simp) hd.1 hd.2).symm.trans hreset) hkind
    · exact congrArg some (h d (by simp) hd.1 hd.2)
    · exact ih

theorem exists_of_latestFact?_eq_some (h : latestFact? constraints scope name = some kind) :
    ∃ before c between, constraints = before ++ c :: between ∧ c.scope = scope ∧ c.variableName = name ∧ c.kind = kind ∧
      ∀ d ∈ between, d.scope = scope → d.variableName ≠ name := by
  induction constraints using List.reverseRecOn with
  | nil => exact nomatch h
  | append_singleton constraints d ih =>
    rw [latestFact?_concat] at h
    split_ifs at h with hd hreset
    · exact ⟨constraints, d, [], rfl, hd.1, hd.2, Option.some.inj h, by simp⟩
    · obtain ⟨before, c, between, rfl, hscope, hname, hkind, hbetween⟩ := ih h
      refine ⟨before, c, between ++ [d], by simp, hscope, hname, hkind, fun e he hescope hename => ?_⟩
      rcases mem_append.mp he with he | he
      · exact hbetween e he hescope hename
      · exact hd (mem_singleton.mp he ▸ ⟨hescope, hename⟩)

/-! ## Refused facts -/

theorem exists_split_cons {α : Type} {P : List α → α → Prop} {first : α} {rest : List α} :
    (∃ before x after, first :: rest = before ++ x :: after ∧ P before x) ↔
      P [] first ∨ ∃ before x after, rest = before ++ x :: after ∧ P (first :: before) x := by
  constructor
  · rintro ⟨before, x, after, h, hx⟩
    cases before with
    | nil => exact .inl ((List.cons.inj h).1 ▸ hx)
    | cons head before =>
      cases h
      exact .inr ⟨before, x, after, rfl, hx⟩
  · rintro (h | ⟨before, x, after, rfl, hx⟩)
    · exact ⟨[], first, rest, rfl, h⟩
    · exact ⟨first :: before, x, after, rfl, hx⟩

/-- The constraint is the opposite of what those before it say of its variable. -/
def Refuted (scope : VertexId) (before : List Constraint) (c : Constraint) : Prop :=
  c.scope = scope ∧ ∃ kind, latestFact? before scope c.variableName = some kind ∧ kind.opposite? = some c.kind

/-- A path is dropped if and only if some fact refutes the one that is kept at that moment. -/
theorem contradicts_iff (hknown : ∀ name, keptFact? known name = latestFact? before scope name) :
    contradicts known (constraints.filter (·.scope == scope)) = true ↔
      ∃ middle c after, constraints = middle ++ c :: after ∧ Refuted scope (before ++ middle) c := by
  induction constraints generalizing known before with
  | nil => simp [contradicts]
  | cons d rest ih =>
    rw [exists_split_cons (P := fun middle c => Refuted scope (before ++ middle) c)]
    rw [append_nil]
    by_cases hd : d.scope = scope
    · rw [filter_cons_of_pos (by simpa using hd), contradicts]
      cases hlearn : learn known d.variableName d.kind with
      | none =>
        obtain ⟨kind, hkept, hopposite⟩ := learn_eq_none_iff.mp hlearn
        exact iff_of_true rfl (.inl ⟨hd, kind, hknown _ ▸ hkept, hopposite⟩)
      | some learned =>
        have hnot : ¬ Refuted scope before d := fun ⟨_, kind, hlatest, hopposite⟩ => by
          simp [learn_eq_none_iff.mpr ⟨kind, (hknown _).trans hlatest, hopposite⟩] at hlearn
        rw [or_iff_right hnot]
        have hlearned : ∀ name, keptFact? learned name = latestFact? (before ++ [d]) scope name := fun name => by
          rw [keptFact?_of_learn hlearn, latestFact?_concat, hknown]
          simp only [hd, true_and]
        simpa only [List.append_assoc, singleton_append] using ih hlearned
    · have hnot : ¬ Refuted scope before d := fun h => hd h.1
      rw [filter_cons_of_neg (by simpa using hd), or_iff_right hnot]
      have hsame : ∀ name, keptFact? known name = latestFact? (before ++ [d]) scope name := fun name => by
        rw [latestFact?_concat, if_neg fun h => hd h.1, hknown]
      simpa only [List.append_assoc, singleton_append] using ih hsame

theorem refuted_of_opposite {first second : Constraint} (hfirst : first.scope = scope) (hsecond : second.scope = scope)
    (hname : second.variableName = first.variableName) (hopposite : first.kind.opposite? = some second.kind)
    (h : ∀ c ∈ between, c.scope = scope → c.variableName = first.variableName → c.kind = first.kind) :
    Refuted scope (before ++ first :: between) second :=
  ⟨hsecond, first.kind, hname ▸ latestFact?_eq_some_of_forall (ne_reset_of_opposite? hopposite) ⟨hfirst, rfl⟩ rfl h,
    hopposite⟩

/-! ## Contradictions of a path -/

/-- The constraint is about null, not about truth. -/
def ConstraintKind.isAboutNull : ConstraintKind → Bool
  | .isNull | .notNull => true
  | _ => false

theorem ConstraintKind.eq_or_eq_of_alike {a b c : ConstraintKind} (h : a.opposite? = some b) (hc : c ≠ .reset)
    (halike : a.isAboutNull = c.isAboutNull) : c = a ∨ c = b := by
  cases a <;> cases h <;> cases c <;> first | exact .inl rfl | exact .inr rfl | contradiction

/-- The second constraint says the same as the first. -/
def Constraint.repeats (first second : Constraint) : Bool :=
  second.scope == first.scope && second.variableName == first.variableName && second.kind == first.kind

/-- Two constraints of a scope: the second is the opposite of the first, about the same variable, which gets no new
value between them. -/
structure Contradiction (constraints : List Constraint) (scope : VertexId) (first : Constraint)
    (between : List Constraint) (second : Constraint) : Prop where
  split : ∃ before after, constraints = before ++ first :: (between ++ second :: after)
  firstOwn : first.scope = scope
  secondOwn : second.scope = scope
  variable_eq : second.variableName = first.variableName
  opposite : first.kind.opposite? = some second.kind
  steady : ∀ c ∈ between, c.scope = scope → c.variableName = first.variableName → c.kind ≠ .reset

/-- Every constraint of the scope about the variable of a pair of facts is of the kind of one of them. -/
def Unhidden (scope : VertexId) (first : Constraint) (between : List Constraint) (second : Constraint) : Prop :=
  ∀ c ∈ between, c.scope = scope → c.variableName = first.variableName → c.kind = first.kind ∨ c.kind = second.kind

/-- A fact is refuted exactly by an earlier one that no later one hides. -/
theorem exists_refuted_iff : (∃ before c after, constraints = before ++ c :: after ∧ Refuted scope before c) ↔
    ∃ first between second, Contradiction constraints scope first between second ∧
    Unhidden scope first between second := by
  constructor
  · rintro ⟨middle, second, after, rfl, hown, kind, hlatest, hopposite⟩
    obtain ⟨before, first, between, rfl, hscope, hname, rfl, hlast⟩ := exists_of_latestFact?_eq_some hlatest
    have hnothing : ∀ c ∈ between, c.scope = scope → c.variableName ≠ first.variableName :=
      fun c hc hcscope => hname ▸ hlast c hc hcscope
    exact ⟨first, between, second, ⟨⟨before, after, by simp⟩, hscope, hown, hname.symm, hopposite,
      fun c hc hcscope hcname => absurd hcname (hnothing c hc hcscope)⟩,
      fun c hc hcscope hcname => absurd hcname (hnothing c hc hcscope)⟩
  · rintro ⟨first, between, second, ⟨⟨before, after, rfl⟩, hfirst, hsecond, hname, hopposite, -⟩, hkinds⟩
    -- the earliest opposite of the first fact is refuted: one in between if there is any, else the second fact
    cases hfind : between.find? second.repeats with
    | some c =>
      obtain ⟨hc, earlier, later, rfl, hearlier⟩ := List.find?_eq_some_iff_append.mp hfind
      obtain ⟨⟨hscope, hcname⟩, hkind⟩ := by simpa [Constraint.repeats] using hc
      refine ⟨before ++ first :: earlier, c, later ++ second :: after, by simp, ?_⟩
      refine refuted_of_opposite hfirst (hscope.trans hsecond) (hcname.trans hname) (hkind ▸ hopposite) ?_
      refine fun d hd hdscope hdname => (hkinds d (by simp [hd]) hdscope hdname).resolve_right fun hdkind => ?_
      have hnot := hearlier d hd
      simp [Constraint.repeats, hdscope, hdname, hname, hdkind, hsecond] at hnot
    | none =>
      refine ⟨before ++ first :: between, second, after, by simp, ?_⟩
      refine refuted_of_opposite hfirst hsecond hname hopposite ?_
      refine fun d hd hdscope hdname => (hkinds d hd hdscope hdname).resolve_right fun hdkind => ?_
      have hnot := List.find?_eq_none.mp hfind d hd
      simp [Constraint.repeats, hdscope, hdname, hname, hdkind, hsecond] at hnot

namespace CodePath

variable (path : CodePath)

/-- Two constraints on the path that contradict each other, about a variable of the path's own method. -/
def Contradicts (first : Constraint) (between : List Constraint) (second : Constraint) : Prop :=
  Contradiction path.metadata.constraints path.method first between second

theorem isContradictory_iff_exists_refuted : path.isContradictory = true ↔
    ∃ before c after, path.metadata.constraints = before ++ c :: after ∧ Refuted path.method before c :=
  contradicts_iff (show ∀ name, keptFact? [] name = latestFact? [] path.method name from fun _ => rfl)

/-- The facts about each variable of the path's own method are all about null, or all about truth. -/
def Alike : Prop :=
  ∀ c ∈ path.metadata.constraints, ∀ d ∈ path.metadata.constraints, c.scope = path.method → d.scope = path.method →
    d.variableName = c.variableName → d.kind ≠ .reset → c.kind.isAboutNull = d.kind.isAboutNull

/-- Where the facts about each variable are alike, no contradiction is hidden: a path counts as contradictory
exactly if two of its constraints contradict each other. -/
theorem isContradictory_iff_of_alike (alike : path.Alike) : path.isContradictory = true ↔
    ∃ first between second, path.Contradicts first between second := by
  rw [isContradictory_iff_exists_refuted, exists_refuted_iff]
  refine exists_congr fun first => exists_congr fun between => exists_congr fun second =>
    and_iff_left_of_imp fun h => ?_
  obtain ⟨before, after, hsplit⟩ := h.split
  intro c hc hscope hname
  have hsteady := h.steady c hc hscope hname
  refine ConstraintKind.eq_or_eq_of_alike h.opposite hsteady (alike first ?_ c ?_ h.firstOwn hscope hname hsteady)
  · simp [hsplit]
  · simp [hsplit, hc]

/-- A path counts as contradictory exactly if two of its constraints contradict each other and those about their
variable that lie between them are of their kind: a fact about null hides a contradiction about truth, and the
other way. -/
theorem isContradictory_iff_unhidden : path.isContradictory = true ↔
    ∃ first between second, path.Contradicts first between second ∧ Unhidden path.method first between second :=
  path.isContradictory_iff_exists_refuted.trans exists_refuted_iff

/-- A variable is not null, then true, then null: the path is kept although it contradicts itself. -/
theorem isContradictory_hidden :
    let path : CodePath := { method := 0, vertices := [], metadata := { constraints :=
      [⟨0, "b", .notNull, 1⟩, ⟨0, "b", .isTrue, 2⟩, ⟨0, "b", .isNull, 3⟩] } }
    path.isContradictory = false ∧ path.Contradicts ⟨0, "b", .notNull, 1⟩ [⟨0, "b", .isTrue, 2⟩] ⟨0, "b", .isNull, 3⟩ :=
  ⟨by decide, ⟨[], [], rfl⟩, rfl, rfl, rfl, rfl, by simp⟩

end CodePath

end ApexPaths
