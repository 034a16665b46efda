import ApexPaths.Text.Case
import ApexPaths.Text.Split

/-!
Lower case of texts. What is in lower case stays as it is when it is mapped once more, and a text without full
stops gets none.
-/

namespace ApexPaths.Text
set_option autoImplicit false

open List

variable {n : Nat} {c : Char} {before cs : List Char}

/-! ## Full stops -/

theorem dot_lt_of_mem_lowerRuns : ∀ run ∈ lowerRuns, (46 : Int) < run.first + run.offset := by
  decide +kernel

theorem mapRuns_lowerRuns_ne_dot (h : n ≠ 46) : mapRuns lowerRuns n ≠ 46 := by
  rw [mapRuns]
  cases hfound : lowerRuns.find? (·.covers n) with
  | none => exact h
  | some run =>
    have hrun := dot_lt_of_mem_lowerRuns run (mem_of_find?_eq_some hfound)
    have hcovers := List.find?_some hfound
    simp only [CaseRun.covers, Bool.and_eq_true, decide_eq_true_eq] at hcovers
    show (n + run.offset).toNat ≠ 46
    omega

theorem ofNat_ne_dot (h : n ≠ 46) : Char.ofNat n ≠ '.' := by
  intro hdot
  by_cases hvalid : n.isValidChar
  · rw [Char.ofNat, dif_pos hvalid] at hdot
    exact h (congrArg Char.toNat hdot)
  · rw [Char.ofNat, dif_neg hvalid] at hdot
    exact absurd hdot (by decide)

theorem toNat_ne_dot (h : c ≠ '.') : c.toNat ≠ 46 := fun e => h (Char.toNat_inj.mp e)

theorem toLower_ne {d : Char} (hd : d.toNat < 97) (h : c ≠ d) : c.toLower ≠ d := by
  intro hlower
  delta Char.toLower at hlower
  split at hlower
  · rename_i hupper
    have hlow : 65 ≤ c.toNat := hupper.1
    have hhigh : c.toNat ≤ 90 := hupper.2
    have hsum : (c.val + 32).toNat = c.toNat + 32 := by
      rw [UInt32.toNat_add]
      exact Nat.mod_eq_of_lt (Nat.lt_of_le_of_lt (Nat.add_le_add_right hhigh 32) (by decide))
    have hnat : (c.val + 32).toNat = d.toNat := congrArg Char.toNat hlower
    omega
  · exact h hlower

theorem dot_notMem_lowerChar (h : c ≠ '.') : '.' ∉ lowerChar c := by
  rw [lowerChar]
  split
  · simpa using (toLower_ne (by decide) h).symm
  · split
    · decide
    · simpa using (ofNat_ne_dot (mapRuns_lowerRuns_ne_dot (toNat_ne_dot h))).symm

theorem dot_notMem_lowerFrom (h : '.' ∉ cs) : '.' ∉ lowerFrom before cs := by
  induction cs generalizing before with
  | nil => simp [lowerFrom]
  | cons c rest ih =>
    obtain ⟨hc, hrest⟩ := ne_and_not_mem_of_not_mem_cons h
    rw [lowerFrom]
    split
    · rw [mem_cons, not_or]
      exact ⟨by split <;> decide, ih hrest⟩
    · exact not_mem_append (dot_notMem_lowerChar hc.symm) (ih hrest)

theorem dot_notMem_lower {s : String} (h : '.' ∉ s.toList) : '.' ∉ (lower s).toList := by
  rw [lower, String.toList_ofList, lowerChars]
  split
  · intro hmem
    obtain ⟨c, hc, hdot⟩ := mem_map.mp hmem
    exact toLower_ne (d := '.') (by decide) (fun e => h (e ▸ hc)) hdot
  · exact dot_notMem_lowerFrom h

/-- What holds no full stop does not begin with a text that holds one. -/
theorem dropStart?_eq_none {start : List Char} (hstart : '.' ∈ start) (h : '.' ∉ cs) : dropStart? start cs = none := by
  induction start generalizing cs with
  | nil => cases hstart
  | cons c rest ih =>
    cases cs with
    | nil => rfl
    | cons d more =>
      rw [dropStart?]
      split
      · rename_i he
        subst he
        obtain ⟨hne, hmore⟩ := ne_and_not_mem_of_not_mem_cons h
        exact ih ((mem_cons.mp hstart).resolve_left hne) hmore
      · rfl

/-! ## The case of the ASCII letters -/

/-- A question that has the same answer for an ASCII letter in both cases has it for every character. -/
theorem ask_toLower {α : Type} (ask : Char → α)
    (h : ∀ n ∈ range' 65 26, ask (Char.ofNat n).toLower = ask (Char.ofNat n)) (c : Char) :
    ask c.toLower = ask c := by
  by_cases hletter : c.val ≥ 'A'.val ∧ c.val ≤ 'Z'.val
  · have hlow : 65 ≤ c.toNat := hletter.1
    have hhigh : c.toNat ≤ 90 := hletter.2
    have hc := h c.toNat (mem_range'_1.mpr ⟨hlow, by omega⟩)
    rwa [Char.ofNat_toNat] at hc
  · delta Char.toLower
    rw [dif_neg hletter]

theorem toLower_toLower (c : Char) : c.toLower.toLower = c.toLower := ask_toLower Char.toLower (by decide) c

theorem lowerChar_toLower (c : Char) : lowerChar c.toLower = lowerChar c := ask_toLower lowerChar (by decide) c

theorem startsCased_map_toLower (cs : List Char) : startsCased (cs.map Char.toLower) = startsCased cs := by
  have hignorable : isCaseIgnorable ∘ Char.toLower = isCaseIgnorable := funext (ask_toLower _ (by decide))
  rw [startsCased, startsCased, dropWhile_map, hignorable]
  cases cs.dropWhile isCaseIgnorable with
  | nil => rfl
  | cons c _ => exact ask_toLower isCased (by decide) c

theorem lowerFrom_map_toLower (before cs : List Char) :
    lowerFrom (before.map Char.toLower) (cs.map Char.toLower) = lowerFrom before cs := by
  induction cs generalizing before with
  | nil => rfl
  | cons c rest ih =>
    have hsigma : (c.toLower.toNat == 0x3A3) = (c.toNat == 0x3A3) := ask_toLower (·.toNat == 0x3A3) (by decide) c
    rw [map_cons, lowerFrom, lowerFrom, hsigma, lowerChar_toLower, startsCased_map_toLower, startsCased_map_toLower,
      ← map_cons, ih]

theorem lowerChars_map_toLower (cs : List Char) : lowerChars (cs.map Char.toLower) = lowerChars cs := by
  have hascii : (fun c : Char => decide (c.toNat < 0x80)) ∘ Char.toLower = fun c => decide (c.toNat < 0x80) :=
    funext (ask_toLower (fun c => decide (c.toNat < 0x80)) (by decide))
  have htwice : Char.toLower ∘ Char.toLower = Char.toLower := funext toLower_toLower
  rw [lowerChars, lowerChars, all_map, hascii, map_map, htwice, ← lowerFrom_map_toLower [] cs]
  rfl

/-- Texts that are equal up to the case of ASCII letters have the same lower case. -/
theorem lower_eq_of_eqIgnoringCase {a b : String} (h : eqIgnoringCase a b = true) : lower a = lower b := by
  rw [lower, lower, ← lowerChars_map_toLower a.toList, ← lowerChars_map_toLower b.toList, eq_of_beq h]

/-! ## Lower case twice -/

/-- A character that is in lower case, in every context. -/
def IsLower (c : Char) : Prop := lowerChar c = [c] ∧ c.toNat ≠ 0x3A3

instance (c : Char) : Decidable (IsLower c) := inferInstanceAs (Decidable (_ ∧ _))

theorem isLower_toLower (h : c.toNat < 0x80) : IsLower c.toLower := by
  have hbound : c.toLower.toNat < 0x80 := by rwa [ask_toLower (·.toNat < 0x80) (by decide)]
  exact ⟨by rw [lowerChar_toLower, lowerChar, if_pos h], by omega⟩

theorem image_lowerRuns : ∀ run ∈ lowerRuns, run.covers (304 - run.offset).toNat = false ∧
    ((run.first + run.offset).toNat = 107 ∧ run.first = run.last ∨ (128 : Int) ≤ run.first + run.offset) := by
  decide +kernel

theorem isLower_marks : IsLower (Char.ofNat 0x3C2) ∧ IsLower (Char.ofNat 0x3C3) ∧ IsLower (Char.ofNat 0x307) := by
  decide

theorem exists_covers_sigma : ∃ run ∈ lowerRuns, run.covers 0x3A3 = true := by
  decide

/-- What one run maps to is out of the reach of another: it lies elsewhere, or on the code points between those of
a run of every second one. -/
def CaseRun.misses (run other : CaseRun) : Bool :=
  Nat.blt (run.last + run.offset).toNat other.first || Nat.blt other.last (run.first + run.offset).toNat ||
    (other.step == 2 && (run.step == 2 || run.first == run.last) &&
    ((run.first + run.offset).toNat + other.first) % 2 == 1)

theorem misses_lowerRuns : (lowerRuns.all fun run => lowerRuns.all run.misses) = true := by
  decide +kernel

theorem covers_image {run other : CaseRun} (hrun : run ∈ lowerRuns) (hother : other ∈ lowerRuns)
    (hn : run.covers n = true) : other.covers (n + run.offset).toNat = false := by
  have hmisses := all_eq_true.mp (all_eq_true.mp misses_lowerRuns run hrun) other hother
  have hdot := dot_lt_of_mem_lowerRuns run hrun
  simp only [CaseRun.covers, Bool.and_eq_true, decide_eq_true_eq, beq_iff_eq] at hn
  obtain ⟨⟨hfirst, hlast⟩, hstep⟩ := hn
  simp only [CaseRun.misses, Bool.or_eq_true, Bool.and_eq_true, Nat.blt_eq, beq_iff_eq] at hmisses
  rw [Bool.eq_false_iff]
  intro hcovers
  simp only [CaseRun.covers, Bool.and_eq_true, decide_eq_true_eq, beq_iff_eq] at hcovers
  obtain ⟨⟨hfrom, hto⟩, hevery⟩ := hcovers
  rcases hmisses with (hbelow | habove) | ⟨⟨hother, hsingle⟩, hodd⟩
  · omega
  · omega
  · rw [hother] at hevery
    have heven : (n - run.first) % 2 = 0 := by
      rcases hsingle with htwo | hone
      · rwa [htwo] at hstep
      · rw [show n - run.first = 0 by omega]
    omega

theorem mapRuns_of_covers_eq_false (h : ∀ run ∈ lowerRuns, run.covers n = false) : mapRuns lowerRuns n = n := by
  rw [mapRuns, List.find?_eq_none.mpr fun run hrun => by rw [h run hrun]; exact Bool.false_ne_true]

theorem mapRuns_mapRuns (n : Nat) : mapRuns lowerRuns (mapRuns lowerRuns n) = mapRuns lowerRuns n := by
  cases hfound : lowerRuns.find? (·.covers n) with
  | none => rw [show mapRuns lowerRuns n = n by rw [mapRuns, hfound], mapRuns, hfound]
  | some run =>
    rw [show mapRuns lowerRuns n = (n + run.offset).toNat by rw [mapRuns, hfound]]
    have hcovers : run.covers n = true := by
      have h := List.find?_some hfound
      exact h
    exact mapRuns_of_covers_eq_false fun other hother => covers_image (mem_of_find?_eq_some hfound) hother hcovers

theorem toNat_ofNat_eq (h : n.isValidChar) : (Char.ofNat n).toNat = n := by
  rw [Char.ofNat, dif_pos h]
  rfl

/-- What the runs map to is in lower case. -/
theorem isLower_mapRuns (hascii : 128 ≤ n) (hdotted : n ≠ 0x130) (hsigma : n ≠ 0x3A3) :
    IsLower (Char.ofNat (mapRuns lowerRuns n)) := by
  have hsame := mapRuns_mapRuns n
  have himage : mapRuns lowerRuns n ≠ 0x130 ∧ mapRuns lowerRuns n ≠ 0x3A3 ∧
      (mapRuns lowerRuns n = 107 ∨ 128 ≤ mapRuns lowerRuns n) := by
    cases hfound : lowerRuns.find? (·.covers n) with
    | none =>
      rw [show mapRuns lowerRuns n = n by rw [mapRuns, hfound]]
      exact ⟨hdotted, hsigma, .inr hascii⟩
    | some run =>
      have hrun := mem_of_find?_eq_some hfound
      have hcovers : run.covers n = true := by
        have h := List.find?_some hfound
        exact h
      obtain ⟨hnever, hlow⟩ := image_lowerRuns run hrun
      have hdot := dot_lt_of_mem_lowerRuns run hrun
      have hbounds := hcovers
      simp only [CaseRun.covers, Bool.and_eq_true, decide_eq_true_eq] at hbounds
      rw [show mapRuns lowerRuns n = (n + run.offset).toNat by rw [mapRuns, hfound]]
      refine ⟨fun he => ?_, fun he => ?_, by omega⟩
      · rw [show (304 - run.offset).toNat = n by omega, hcovers] at hnever
        cases hnever
      · -- The capital sigma is itself covered, as no image is.
        obtain ⟨other, hother, hsigma⟩ := exists_covers_sigma
        rw [← he, covers_image hrun hother hcovers] at hsigma
        cases hsigma
  generalize mapRuns lowerRuns n = m at hsame himage
  obtain ⟨hdotted, hsigma, hlow⟩ := himage
  by_cases hvalid : m.isValidChar
  · have hnat := toNat_ofNat_eq hvalid
    rcases hlow with rfl | hlow
    · decide
    · refine ⟨?_, by rwa [hnat]⟩
      rw [lowerChar, hnat, if_neg (by omega), if_neg (by simpa using hdotted), hsame]
  · rw [Char.ofNat, dif_neg hvalid]
    decide

theorem isLower_of_mem_lowerFrom {d : Char} (h : d ∈ lowerFrom before cs) : IsLower d := by
  induction cs generalizing before with
  | nil => cases h
  | cons c rest ih =>
    rw [lowerFrom] at h
    split at h
    · rcases mem_cons.mp h with rfl | h
      · split
        · exact isLower_marks.1
        · exact isLower_marks.2.1
      · exact ih h
    · rename_i hsigma
      rcases mem_append.mp h with h | h
      · rw [lowerChar] at h
        split at h
        · rw [mem_singleton.mp h]
          exact isLower_toLower ‹_›
        · split at h
          · rcases mem_cons.mp h with rfl | h
            · decide
            · rw [mem_singleton.mp h]
              exact isLower_marks.2.2
          · rw [mem_singleton.mp h]
            exact isLower_mapRuns (by omega) (by simpa using ‹¬(c.toNat == 0x130) = true›) (by simpa using hsigma)
      · exact ih h

theorem isLower_of_mem_lowerChars {d : Char} (h : d ∈ lowerChars cs) : IsLower d := by
  rw [lowerChars] at h
  split at h
  · rename_i hascii
    obtain ⟨c, hc, rfl⟩ := mem_map.mp h
    exact isLower_toLower (by simpa using all_eq_true.mp hascii c hc)
  · exact isLower_of_mem_lowerFrom h

theorem lowerFrom_eq_self (h : ∀ c ∈ cs, IsLower c) : lowerFrom before cs = cs := by
  induction cs generalizing before with
  | nil => rfl
  | cons c rest ih =>
    obtain ⟨hc, hrest⟩ := forall_mem_cons.mp h
    rw [lowerFrom, if_neg (by simpa using hc.2), hc.1, ih hrest]
    rfl

theorem lowerChars_eq_self (h : ∀ c ∈ cs, IsLower c) : lowerChars cs = cs := by
  rw [lowerChars]
  split
  · rename_i hascii
    refine (map_congr_left fun c hc => ?_).trans (map_id cs)
    have hc' : c.toNat < 0x80 := by simpa using all_eq_true.mp hascii c hc
    have hsame := (h c hc).1
    rw [lowerChar, if_pos hc'] at hsame
    exact (List.cons.inj hsame).1
  · exact lowerFrom_eq_self h

theorem lower_lower (s : String) : lower (lower s) = lower s := by
  have hlower : ∀ c ∈ lowerChars s.toList, IsLower c := fun c => isLower_of_mem_lowerChars
  rw [lower, lower, String.toList_ofList, lowerChars_eq_self hlower]

end ApexPaths.Text
