import ApexPaths.Settings.Yaml
import ApexPaths.Proofs.Yaml.Records
import Mathlib.Data.List.Nodup
import Mathlib.Data.List.Perm.Basic

/-!
Settings as documents. A document may replace any of the fields of a preset, in any order; what is read is the
preset with just these replaced, and it is refused where a range check fails. Settings that were written are read
back as they are.
-/

namespace ApexPaths
set_option autoImplicit false

open List Yaml Document

/-! ## Fields by name -/

namespace Document

theorem field?_named (name : String) (fields : List (String × Document)) :
    field? name (named fields) = fields.lookup name := by
  induction fields with
  | nil => rfl
  | cons field fields ih =>
    obtain ⟨key, value⟩ := field
    rw [field?] at ih ⊢
    rw [named_cons, List.find?_cons, lookup_cons, ← ih]
    by_cases h : name = key
    · simp [text?, untagged, h]
    · simp [text?, untagged, beq_eq_false_iff_ne.mpr h, beq_eq_false_iff_ne.mpr (Ne.symm h)]

theorem get?_named (name : String) (fields : List (String × Document)) :
    get? name (named fields) = fields.lookup name := by
  induction fields with
  | nil => rfl
  | cons field fields ih =>
    obtain ⟨key, value⟩ := field
    rw [named_cons, get?, lookup_cons, ← ih]
    by_cases h : name = key
    · simp [h]
    · simp [beq_eq_false_iff_ne.mpr h, Ne.symm h]

theorem names?_named (fields : List (String × Document)) : names? (named fields) = some (fields.map (·.1)) := by
  induction fields with
  | nil => rfl
  | cons field fields ih =>
    rw [names?] at ih ⊢
    rw [named_cons, mapM_cons, ih]
    rfl

theorem lookup_eq_some_iff {fields : List (String × Document)} (hnodup : (fields.map (·.1)).Nodup) {name : String}
    {value : Document} : fields.lookup name = some value ↔ (name, value) ∈ fields := by
  induction fields with
  | nil => simp
  | cons field fields ih =>
    obtain ⟨key, first⟩ := field
    obtain ⟨hkey, hfields⟩ := nodup_cons.mp hnodup
    rw [lookup_cons]
    by_cases h : name = key
    · subst h
      have hnot : (name, value) ∉ fields := fun hmem => hkey (mem_map.mpr ⟨_, hmem, rfl⟩)
      simp [hnot, eq_comm]
    · simp [beq_eq_false_iff_ne.mpr h, h, ih hfields]

theorem lookup_perm {fields others : List (String × Document)} (hperm : fields.Perm others)
    (hnodup : (others.map (·.1)).Nodup) (name : String) : fields.lookup name = others.lookup name := by
  have hfields : (fields.map (·.1)).Nodup := (hperm.map (·.1)).nodup_iff.mpr hnodup
  ext value
  rw [lookup_eq_some_iff hfields, lookup_eq_some_iff hnodup, hperm.mem_iff]

end Document

/-! ## Overrides -/

/-- A value for one of the fields of the settings. -/
inductive Override where
  | pathExpansionLimit (value : Int)
  | stackDepthLimit (value : Int)
  | includeStandardLibrary (value : Bool)
  | maxLoopValues (value : Nat)
  | parallel (value : Bool)

namespace Override

/-- The field that an override is written as. -/
def name : Override → String
  | .pathExpansionLimit _ => "path_expansion_limit"
  | .stackDepthLimit _ => "stack_depth_limit"
  | .includeStandardLibrary _ => "include_standard_library"
  | .maxLoopValues _ => "max_for_loop_unroll_values"
  | .parallel _ => "parallel"

theorem name_mem (override : Override) : override.name ∈ Settings.fieldNames := by
  cases override <;> simp [name, Settings.fieldNames]

/-- The value that an override is written with. -/
def document : Override → Document
  | .pathExpansionLimit value => .int value
  | .stackDepthLimit value => .int value
  | .includeStandardLibrary value => .flag value
  | .maxLoopValues value => .int value
  | .parallel value => .flag value

def field (override : Override) : String × Document := (override.name, override.document)

/-- The value as it is spelled. -/
def word : Override → String
  | .pathExpansionLimit value => toString value
  | .stackDepthLimit value => toString value
  | .includeStandardLibrary value => flagWord value
  | .maxLoopValues value => toString value
  | .parallel value => flagWord value
where
  flagWord (flag : Bool) : String := if flag then "true" else "false"

/-- The value has the range of its field. -/
def Fits : Override → Prop
  | .pathExpansionLimit value => Text.minInt64 ≤ value ∧ value ≤ Text.maxInt64
  | .stackDepthLimit value => Text.minInt64 ≤ value ∧ value ≤ Text.maxInt64
  | .includeStandardLibrary _ => True
  | .maxLoopValues value => value < UInt64.size
  | .parallel _ => True

/-- Settings with one field replaced. -/
def put (override : Override) (settings : Settings) : Settings :=
  match override with
  | .pathExpansionLimit value => { settings with pathExpansionLimit := value }
  | .stackDepthLimit value => { settings with stackDepthLimit := value }
  | .includeStandardLibrary value => { settings with includeStandardLibrary := value }
  | .maxLoopValues value => { settings with maxLoopValues := value }
  | .parallel value => { settings with parallel := value }

/-! ### Patches -/

/-- A patch with one field given. -/
def onto (override : Override) (patch : SettingsPatch) : SettingsPatch :=
  match override with
  | .pathExpansionLimit value => { patch with pathExpansionLimit := some value }
  | .stackDepthLimit value => { patch with stackDepthLimit := some value }
  | .includeStandardLibrary value => { patch with includeStandardLibrary := some value }
  | .maxLoopValues value => { patch with maxLoopValues := some value }
  | .parallel value => { patch with parallel := some value }

theorem apply_foldr_onto (overrides : List Override) (settings : Settings) :
    settings.apply (overrides.foldr onto {}) = overrides.foldr put settings := by
  induction overrides with
  | nil => rfl
  | cons override overrides ih =>
    rw [foldr_cons, foldr_cons, ← ih]
    cases override <;> rfl

/-- A field of a patch is read from the first override of its name. An override of that name must say what it puts
into the patch, and one of another name must leave the field as it is. -/
theorem readField_foldr {α : Type} {overrides : List Override} (hfits : ∀ override ∈ overrides, override.Fits)
    (name : String) (read : Document → Option α) (get : SettingsPatch → Option α) (hempty : get {} = none)
    (honto : ∀ override : Override, override.Fits → ∀ patch,
      override.name = name ∧ optional? read override.document = some (get (override.onto patch)) ∨
      override.name ≠ name ∧ get (override.onto patch) = get patch) :
    readField name none (optional? read) (named (overrides.map field)) =
    some (get (overrides.foldr onto {})) := by
  rw [readField, field?_named]
  induction overrides with
  | nil => exact congrArg some hempty.symm
  | cons override overrides ih =>
    rw [map_cons, field, lookup_cons, foldr_cons]
    obtain ⟨hname, hread⟩ | ⟨hname, hget⟩ := honto override (hfits override mem_cons_self) (overrides.foldr onto {})
    · rw [hname, beq_self_eq_true]
      exact hread
    · rw [beq_eq_false_iff_ne.mpr (Ne.symm hname), hget]
      exact ih fun other hmem => hfits other (mem_cons_of_mem override hmem)

theorem optional?_int64 {value : Int} (h : Text.minInt64 ≤ value ∧ value ≤ Text.maxInt64) :
    optional? int64? (.int value) = some (some value) := by
  rw [Text.minInt64, Text.maxInt64] at h
  simp [optional?, int64?, intWithin?, untagged, h]

theorem optional?_nat64 {value : Nat} (h : value < UInt64.size) :
    optional? nat64? (.int value) = some (some value) := by
  rw [UInt64.size] at h
  have hmost : (value : Int) ≤ 18446744073709551615 := by omega
  simp [optional?, nat64?, intWithin?, untagged, hmost]

/-- Reading the fields of a patch brings back its overrides. -/
theorem ofFields?_overrides {overrides : List Override} (hfits : ∀ override ∈ overrides, override.Fits)
    (hnodup : (overrides.map name).Nodup) :
    SettingsPatch.ofFields? (named (overrides.map field)) = some (overrides.foldr onto {}) := by
  have hknown : onlyKeys Settings.fieldNames (named (overrides.map field)) = true := by
    have hnames : (overrides.map field).map (·.1) = overrides.map name := by rw [map_map]; rfl
    rw [onlyKeys, names?_named, hnames]
    simp only [hnodup, decide_true, Bool.and_true, all_eq_true, mem_map, contains_iff_mem]
    rintro _ ⟨override, -, rfl⟩
    exact override.name_mem
  have hexpansion :=
    readField_foldr hfits "path_expansion_limit" int64? SettingsPatch.pathExpansionLimit rfl fun
    | .pathExpansionLimit _, fits, _ => .inl ⟨rfl, optional?_int64 fits⟩
    | .stackDepthLimit _, _, _ | .includeStandardLibrary _, _, _ | .maxLoopValues _, _, _ | .parallel _, _, _ =>
      .inr ⟨by simp [name], rfl⟩
  have hdepth := readField_foldr hfits "stack_depth_limit" int64? SettingsPatch.stackDepthLimit rfl fun
    | .stackDepthLimit _, fits, _ => .inl ⟨rfl, optional?_int64 fits⟩
    | .pathExpansionLimit _, _, _ | .includeStandardLibrary _, _, _ | .maxLoopValues _, _, _ | .parallel _, _, _ =>
      .inr ⟨by simp [name], rfl⟩
  have hlibrary :=
    readField_foldr hfits "include_standard_library" flag? SettingsPatch.includeStandardLibrary rfl fun
    | .includeStandardLibrary _, _, _ => .inl ⟨rfl, rfl⟩
    | .pathExpansionLimit _, _, _ | .stackDepthLimit _, _, _ | .maxLoopValues _, _, _ | .parallel _, _, _ =>
      .inr ⟨by simp [name], rfl⟩
  have hvalues := readField_foldr hfits "max_for_loop_unroll_values" nat64? SettingsPatch.maxLoopValues rfl fun
    | .maxLoopValues _, fits, _ => .inl ⟨rfl, optional?_nat64 fits⟩
    | .pathExpansionLimit _, _, _ | .stackDepthLimit _, _, _ | .includeStandardLibrary _, _, _ | .parallel _, _, _ =>
      .inr ⟨by simp [name], rfl⟩
  have hparallel := readField_foldr hfits "parallel" flag? SettingsPatch.parallel rfl fun
    | .parallel _, _, _ => .inl ⟨rfl, rfl⟩
    | .pathExpansionLimit _, _, _ | .stackDepthLimit _, _, _ | .includeStandardLibrary _, _, _ | .maxLoopValues _,
        _, _ =>
      .inr ⟨by simp [name], rfl⟩
  simp [SettingsPatch.ofFields?, guard, hknown, hexpansion, hdepth, hlibrary, hvalues, hparallel]

end Override

/-! ## Documents -/

/-- A document of the first version: the name of a preset and overrides, if any. -/
structure SettingsDocument where
  preset : Option String := none
  overrides : Option (List Override) := none

namespace SettingsDocument

/-- The fields of a document in the order in which they are written. -/
def fields (document : SettingsDocument) : List (String × Document) :=
  ("version", .int 1) :: ((document.preset.map fun name => ("preset", .text name)).toList ++
    (document.overrides.map fun overrides => ("engine", .record (named (overrides.map Override.field)))).toList)

/-- The overrides are of different fields, and their numbers have 64 bits. -/
structure Proper (document : SettingsDocument) : Prop where
  fits : ∀ overrides, document.overrides = some overrides → ∀ override ∈ overrides, override.Fits
  distinct : ∀ overrides, document.overrides = some overrides → (overrides.map Override.name).Nodup

/-- The preset of the name, or the standard one if there is no name. -/
def preset? (document : SettingsDocument) : Option Preset := document.preset.elim (some .standard) Preset.ofName?

/-- The settings that a document describes on top of a preset. -/
def settings (document : SettingsDocument) (preset : Preset) : Settings :=
  (document.overrides.getD []).foldr Override.put (Settings.ofPreset preset)

variable {document : SettingsDocument}

theorem nodup_fields : (document.fields.map (·.1)).Nodup := by
  cases document with | mk preset overrides => cases preset <;> cases overrides <;> simp [fields]

/-- A proper document is read as its preset and the fields that it overrides. -/
theorem ofDocument_eq (proper : document.Proper) {fields : List (String × Document)}
    (hfields : fields.Perm document.fields) : SettingsFile.ofDocument (.record (named fields)) =
      .ok { version := 1, preset := document.preset, patch := document.overrides.map (·.foldr Override.onto {}) } := by
  have hlookup := lookup_perm hfields nodup_fields
  have hversion : fields.lookup "version" = some (.int 1) := hlookup "version"
  have hpreset : readField "preset" none (optional? text?) (named fields) =
      some document.preset := by
    rw [readField, field?_named, hlookup]
    cases document with | mk preset overrides => cases preset <;> cases overrides <;> rfl
  have hengine : readField "engine" none (optional? SettingsPatch.ofRecord?) (named fields) =
      some (document.overrides.map (·.foldr Override.onto {})) := by
    rw [readField, field?_named, hlookup]
    cases document with
    | mk preset overrides =>
      cases overrides with
      | none => cases preset <;> rfl
      | some overrides =>
        have hpatch := Override.ofFields?_overrides (proper.fits overrides rfl) (proper.distinct overrides rfl)
        have hrecord : optional? SettingsPatch.ofRecord? (.record (named (overrides.map Override.field))) =
            some (some (overrides.foldr Override.onto {})) := by
          show (SettingsPatch.ofFields? _).map some = _
          rw [hpatch]
          rfl
        cases preset <;> exact hrecord
  have hknown : onlyKeys ["version", "preset", "engine"] (named fields) = true := by
    rw [onlyKeys, names?_named]
    have hnames := hfields.map (·.1)
    simp only [hnames.nodup_iff.mpr nodup_fields, decide_true, Bool.and_true, hnames.all_eq]
    cases document with | mk preset overrides => cases preset <;> cases overrides <;> rfl
  have hget : get? "version" (named fields) = some (.int 1) := (get?_named _ _).trans hversion
  have hfield : field? "version" (named fields) = some (.int 1) := (field?_named _ _).trans hversion
  simp [SettingsFile.ofDocument, untagged, hget, hfield, hpreset, hengine, hknown, guard, nat32?,
    intWithin?]

/-- A text that is read as the document gives the settings it describes. -/
theorem ofYaml_eq (proper : document.Proper) {preset : Preset} (hpreset : document.preset? = some preset)
    {fields : List (String × Document)} (hfields : fields.Perm document.fields) {text : String}
    (htext : document? text = some (.record (named fields))) :
    Settings.ofYaml text = (document.settings preset).validate := by
  rw [Settings.ofYaml, htext]
  show ((SettingsFile.ofDocument _).bind _) = _
  rw [ofDocument_eq proper hfields]
  show SettingsFile.settings ⟨1, document.preset, document.overrides.map (·.foldr Override.onto {})⟩ = _
  have happly : (Settings.ofPreset preset).apply ((document.overrides.map (·.foldr Override.onto {})).getD {}) =
      document.settings preset := by
    rw [settings, ← Override.apply_foldr_onto]
    cases document.overrides <;> rfl
  rw [← happly]
  rw [preset?] at hpreset
  cases hname : document.preset with
  | none =>
    rw [hname] at hpreset
    cases hpreset
    rfl
  | some name =>
    rw [hname, Option.elim_some] at hpreset
    simp [SettingsFile.settings, hpreset]

end SettingsDocument

/-! ## Documents that are written -/

variable {override : Override}

namespace Override

theorem plainValue?_word (fits : override.Fits) : plainValue? override.word = some override.document := by
  cases override with
  | pathExpansionLimit value => exact plainValue?_toString fits.1 (Int.lt_of_le_of_lt fits.2 (by decide))
  | stackDepthLimit value => exact plainValue?_toString fits.1 (Int.lt_of_le_of_lt fits.2 (by decide))
  | includeStandardLibrary value => cases value <;> rfl
  | maxLoopValues value =>
    have hmin : Text.minInt64 ≤ (value : Int) := Int.le_trans (by decide) (Int.natCast_nonneg value)
    have hword : word (.maxLoopValues value) = toString (value : Int) := rfl
    rw [hword]
    exact plainValue?_toString hmin (Int.ofNat_lt.mpr fits)
  | parallel value => cases value <;> rfl

theorem isWord_word (override : Override) : isWord override.word.toList = true := by
  cases override with
  | pathExpansionLimit value => exact isWord_toString value
  | stackDepthLimit value => exact isWord_toString value
  | includeStandardLibrary value => cases value <;> decide
  | maxLoopValues value => exact isWord_toString value
  | parallel value => cases value <;> decide

def pair (override : Override) : String × String := (override.name, override.word)

theorem isKey_names : ∀ name ∈ ["version", "preset", "engine"] ++ Settings.fieldNames,
    isWord name.toList = true ∧ name.toList.length ≤ 1024 ∧ isLabel name = true := by decide

theorem isKey_name (override : Override) :
    isWord override.name.toList = true ∧ override.name.toList.length ≤ 1024 ∧
    isLabel override.name = true := isKey_names _ (mem_append_right _ override.name_mem)

theorem isField_pair (override : Override) : Yaml.IsField override.pair where
  key := override.isKey_name.1
  short := override.isKey_name.2.1
  value := isWord_word override

theorem isNamed_pair (fits : override.Fits) : Yaml.IsNamed override.pair where
  name := plainValue?_label override.isKey_name.2.2
  value := by rw [pair, plainValue?_word fits]; rfl

theorem fieldValue_pair (fits : override.Fits) : fieldValue override.pair = override.field := by
  rw [fieldValue, pair, plainValue?_word fits]
  rfl

end Override

namespace SettingsDocument

/-- The lines of a document, as entries of a mapping. -/
def entries (document : SettingsDocument) : List Yaml.Entry :=
  .field ("version", "1") :: ((document.preset.map fun name => Yaml.Entry.field ("preset", name)).toList ++
    match document.overrides with
    | some (first :: more) => [.block "engine" first.pair (more.map Override.pair)]
    | _ => [])

/-- The preset has a plain name, and there is an override if they are mentioned. -/
structure Plain (document : SettingsDocument) : Prop where
  name : ∀ name, document.preset = some name → isWord name.toList = true ∧ isLabel name = true
  overrides : document.overrides ≠ some []

variable {document : SettingsDocument}

theorem proper_entries (proper : document.Proper) (plain : document.Plain) :
    ∀ entry ∈ document.entries, entry.Proper ∧ entry.IsNamed := by
  intro entry hentry
  simp only [entries, mem_cons, mem_append, Option.mem_toList, Option.map_eq_some_iff] at hentry
  obtain rfl | ⟨name, hname, rfl⟩ | hengine := hentry
  · exact ⟨.field ⟨by decide, by decide, by decide⟩, .field ⟨plainValue?_label (by decide), rfl⟩⟩
  · obtain ⟨hword, hlabel⟩ := plain.name name hname
    obtain ⟨hkey, hshort, hpreset⟩ := Override.isKey_names "preset" (by simp)
    refine ⟨.field ⟨hkey, hshort, hword⟩, .field ⟨plainValue?_label hpreset, ?_⟩⟩
    rw [plainValue?_label hlabel]
    rfl
  · cases hoverrides : document.overrides with
    | none => simp [hoverrides] at hengine
    | some overrides =>
      cases overrides with
      | nil => exact absurd hoverrides plain.overrides
      | cons first more =>
        have hfits := proper.fits _ hoverrides
        have hdistinct := proper.distinct _ hoverrides
        simp only [hoverrides, mem_singleton] at hengine
        subst hengine
        obtain ⟨hkey, hshort, hlabel⟩ := Override.isKey_names "engine" (by simp)
        have hpairs : first.pair :: more.map Override.pair = (first :: more).map Override.pair := rfl
        refine ⟨.block hkey hshort ?_, .block (plainValue?_label hlabel) ?_ ?_⟩
        · rw [hpairs]
          exact forall_mem_map.mpr fun override _ => override.isField_pair
        · rw [hpairs]
          exact forall_mem_map.mpr fun override hmem => Override.isNamed_pair (hfits override hmem)
        · rw [hpairs, map_map]
          exact hdistinct

theorem map_entryValue (proper : document.Proper) (plain : document.Plain) :
    document.entries.map entryValue = document.fields := by
  obtain ⟨preset, overrides⟩ := document
  have hpreset : (preset.map fun name => Yaml.Entry.field ("preset", name)).toList.map entryValue =
      (preset.map fun name => ("preset", text name)).toList := by
    cases preset with
    | none => rfl
    | some name =>
      have hname := plainValue?_label (plain.name name rfl).2
      simp [entryValue, fieldValue, hname]
  rw [entries, fields, map_cons, map_append, hpreset]
  cases overrides with
  | none => rfl
  | some overrides =>
    cases overrides with
    | nil => exact absurd rfl plain.overrides
    | cons first more =>
      have hengine : entryValue (.block "engine" first.pair (more.map Override.pair)) =
          ("engine", .record (named ((first :: more).map Override.field))) := by
        rw [entryValue, ← map_cons, map_map]
        exact congrArg (fun fields => ("engine", record (named fields)))
          (map_congr_left fun override hmem => Override.fieldValue_pair (proper.fits _ rfl override hmem))
      simp only [map_singleton, hengine]
      rfl

theorem document?_entries (proper : document.Proper) (plain : document.Plain) {text : String}
    (htext : text.toList = Yaml.entriesText document.entries) :
    Yaml.document? text = some (.record (named document.fields)) := by
  have hentries := proper_entries proper plain
  have hfields := map_entryValue proper plain
  have hnodup : (document.entries.map fun entry => (Yaml.entryValue entry).1).Nodup := by
    have hnames : (document.fields.map (·.1)).Nodup := nodup_fields
    rwa [← hfields, map_map] at hnames
  rw [← hfields]
  exact Yaml.document?_entries htext (fun entry hmem => (hentries entry hmem).1)
    (fun entry hmem => (hentries entry hmem).2) hnodup

end SettingsDocument

/-! ## Settings that are written -/

namespace Settings

/-- The numbers have 64 bits. -/
structure Fits (settings : Settings) : Prop where
  expansion : Text.minInt64 ≤ settings.pathExpansionLimit ∧ settings.pathExpansionLimit ≤ Text.maxInt64
  depth : Text.minInt64 ≤ settings.stackDepthLimit ∧ settings.stackDepthLimit ≤ Text.maxInt64
  values : settings.maxLoopValues < UInt64.size

def document (settings : Settings) : SettingsDocument where
  overrides := some [.pathExpansionLimit settings.pathExpansionLimit, .stackDepthLimit settings.stackDepthLimit,
    .includeStandardLibrary settings.includeStandardLibrary, .maxLoopValues settings.maxLoopValues,
    .parallel settings.parallel]

variable {settings : Settings}

theorem proper_document (fits : settings.Fits) : settings.document.Proper where
  fits overrides hoverrides override hmem := by
    cases hoverrides
    simp only [mem_cons, not_mem_nil, or_false] at hmem
    obtain rfl | rfl | rfl | rfl | rfl := hmem
    · exact fits.expansion
    · exact fits.depth
    · trivial
    · exact fits.values
    · trivial
  distinct overrides hoverrides := by
    cases hoverrides
    simp [Override.name]

theorem toList_lines (fields : List (String × String)) :
    (SettingsPatch.lines fields).toList = fieldsText 2 fields [] := by
  induction fields with
  | nil => rfl
  | cons field fields ih =>
    rw [SettingsPatch.lines] at ih ⊢
    simp [ih, fieldsText, fieldText, List.replicate]

/-- The patch of the settings sets the fields that their document overrides. -/
theorem fields_toPatch (settings : Settings) :
    ∃ first more, settings.toPatch.fields = first :: more ∧
      settings.document.entries = [.field ("version", "1"), .block "engine" first more] :=
  ⟨_, _, rfl, rfl⟩

theorem toList_toYaml (settings : Settings) : settings.toYaml.toList = entriesText settings.document.entries := by
  obtain ⟨first, more, hfields, hentries⟩ := fields_toPatch settings
  have htext : settings.toYaml = "version: 1\nengine:\n" ++ SettingsPatch.lines (first :: more) := by
    simp only [toYaml, SettingsPatch.toYaml, hfields]
  rw [htext, hentries, String.toList_append, toList_lines]
  simp [entriesText, Yaml.Entry.text, fieldText, fieldsText]

theorem ofYaml_toYaml (fits : settings.Fits) : ofYaml settings.toYaml = settings.validate := by
  have proper := proper_document fits
  have plain : settings.document.Plain := ⟨(by rintro _ ⟨⟩), by simp [document]⟩
  exact SettingsDocument.ofYaml_eq proper rfl (List.Perm.refl _)
    (SettingsDocument.document?_entries proper plain (toList_toYaml settings))

/-- The range checks that settings have to pass. -/
structure Valid (settings : Settings) : Prop where
  expansion : settings.pathExpansionLimit ≠ 0
  depth : settings.stackDepthLimit ≠ 0
  values : 1 ≤ settings.maxLoopValues ∧ settings.maxLoopValues ≤ 10000

theorem validate_of_valid (valid : settings.Valid) : settings.validate = .ok settings := by
  have hvalues : ¬(settings.maxLoopValues = 0 ∨ 10000 < settings.maxLoopValues) := by
    have := valid.values
    omega
  rw [validate, checkLimit, if_neg valid.expansion, checkLimit, if_neg valid.depth, if_neg hvalues]
  rfl

theorem validate_of_not_valid (invalid : ¬settings.Valid) :
    ∃ field value least most hint, settings.validate = .error (.range field value least most hint) := by
  rw [validate, checkLimit, checkLimit]
  by_cases hexpansion : settings.pathExpansionLimit = 0
  · rw [if_pos hexpansion]
    exact ⟨_, _, _, _, _, rfl⟩
  by_cases hdepth : settings.stackDepthLimit = 0
  · rw [if_neg hexpansion, if_pos hdepth]
    exact ⟨_, _, _, _, _, rfl⟩
  · have hvalues : settings.maxLoopValues = 0 ∨ 10000 < settings.maxLoopValues := by
      by_contra h
      exact invalid ⟨hexpansion, hdepth, by omega⟩
    rw [if_neg hexpansion, if_neg hdepth, if_pos hvalues]
    exact ⟨_, _, _, _, _, rfl⟩

/-! ## Reading and writing -/

/-- Settings that are written are read back if they are valid, and refused as they would be without that. A
document is read as its preset with just the fields replaced that it gives, in any order, and then checked. -/
theorem ofYaml_exact :
    (∀ settings : Settings, settings.Fits → ofYaml settings.toYaml = settings.validate ∧
      (settings.Valid → ofYaml settings.toYaml = .ok settings) ∧
      (¬settings.Valid → ∃ field value least most hint,
      ofYaml settings.toYaml = .error (.range field value least most hint))) ∧
    ∀ (document : SettingsDocument) (preset : Preset) (fields : List (String × Document)) (text : String),
    document.Proper → document.preset? = some preset → fields.Perm document.fields →
    Yaml.document? text = some (.record (named fields)) → ofYaml text = (document.settings preset).validate := by
  refine ⟨fun settings fits => ?_, fun document preset fields text proper hpreset hfields htext => ?_⟩
  · rw [ofYaml_toYaml fits]
    exact ⟨rfl, validate_of_valid, validate_of_not_valid⟩
  · exact SettingsDocument.ofYaml_eq proper hpreset hfields htext

/-- Two fields of the strict preset are replaced, and it keeps its expansion limit. -/
theorem ofYaml_strict :
    ofYaml "version: 1\npreset: strict\nengine:\n  stack_depth_limit: 12\n  parallel: false\n" =
      .ok { pathExpansionLimit := 1000, stackDepthLimit := 12, parallel := false } := by
  let document : SettingsDocument :=
    { preset := some "strict", overrides := some [.stackDepthLimit 12, .parallel false] }
  have proper : document.Proper := by
    constructor
    · rintro _ ⟨⟩ override hmem
      simp only [mem_cons, not_mem_nil, or_false] at hmem
      obtain rfl | rfl := hmem
      · exact ⟨by decide, by decide⟩
      · trivial
    · rintro _ ⟨⟩
      decide
  have plain : document.Plain := by
    constructor
    · rintro _ ⟨⟩
      decide
    · rintro ⟨⟩
  have hlines : "version: 1\npreset: strict\nengine:\n  stack_depth_limit: 12\n  parallel: false\n".toList =
      entriesText document.entries := by
    rfl
  have htext := SettingsDocument.document?_entries proper plain hlines
  have hpreset : document.preset? = some .strict := by decide
  exact ofYaml_exact.2 document .strict _ _ proper hpreset (List.Perm.refl _) htext

end Settings

end ApexPaths
