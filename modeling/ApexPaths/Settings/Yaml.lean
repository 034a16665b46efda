import ApexPaths.Settings.Basic
import ApexPaths.Yaml.Value

/-!
Settings as documents: how settings and patches are read from nested values. An unknown field is an
error in a patch and is ignored in plain settings.
-/

namespace ApexPaths
set_option autoImplicit false

open Document

/-- The fields of the settings, in order. -/
def Settings.fieldNames : List String :=
  ["path_expansion_limit", "stack_depth_limit", "include_standard_library", "max_for_loop_unroll_values", "parallel"]

/-- Settings from a record, or from a list of the leading fields in order. -/
def Settings.ofDocument? : Document → Option Settings
  | .record fields => do
    guard (names? fields).isSome
    let d : Settings := {}
    return {
      pathExpansionLimit := ← readField "path_expansion_limit" d.pathExpansionLimit int64? fields
      stackDepthLimit := ← readField "stack_depth_limit" d.stackDepthLimit int64? fields
      includeStandardLibrary := ← readField "include_standard_library" d.includeStandardLibrary flag? fields
      maxLoopValues := ← readField "max_for_loop_unroll_values" d.maxLoopValues nat64? fields
      parallel := ← readField "parallel" d.parallel flag? fields }
  | .list items => do
    guard (items.length ≤ 5)
    let d : Settings := {}
    return {
      pathExpansionLimit := ← readItem 0 d.pathExpansionLimit int64? items
      stackDepthLimit := ← readItem 1 d.stackDepthLimit int64? items
      includeStandardLibrary := ← readItem 2 d.includeStandardLibrary flag? items
      maxLoopValues := ← readItem 3 d.maxLoopValues nat64? items
      parallel := ← readItem 4 d.parallel flag? items }
  | _ => none

def SettingsPatch.ofFields? (fields : List (Document × Document)) : Option SettingsPatch := do
  guard (onlyKeys Settings.fieldNames fields)
  return {
    pathExpansionLimit := ← readField "path_expansion_limit" none (optional? int64?) fields
    stackDepthLimit := ← readField "stack_depth_limit" none (optional? int64?) fields
    includeStandardLibrary := ← readField "include_standard_library" none (optional? flag?) fields
    maxLoopValues := ← readField "max_for_loop_unroll_values" none (optional? nat64?) fields
    parallel := ← readField "parallel" none (optional? flag?) fields }

/-- A patch from a record of known fields. -/
def SettingsPatch.ofRecord? (doc : Document) : Option SettingsPatch :=
  match doc.untagged with
  | .record fields => SettingsPatch.ofFields? fields
  | _ => none

/-- A patch from a record of known fields, or from a list of the leading fields in order. -/
def SettingsPatch.ofDocument? : Document → Option SettingsPatch
  | .record fields => SettingsPatch.ofFields? fields
  | .list items => do
    guard (items.length ≤ 5)
    return {
      pathExpansionLimit := ← readItem 0 none (optional? int64?) items
      stackDepthLimit := ← readItem 1 none (optional? int64?) items
      includeStandardLibrary := ← readItem 2 none (optional? flag?) items
      maxLoopValues := ← readItem 3 none (optional? nat64?) items
      parallel := ← readItem 4 none (optional? flag?) items }
  | _ => none

/-- A settings document: a version, and optionally a preset and a patch over it. -/
structure SettingsFile where
  version : Nat
  preset : Option String := none
  patch : Option SettingsPatch := none
  deriving DecidableEq, Repr

/-- The settings document of a record. A document without a version is told apart from a malformed one;
there the version counts only under a key without a tag. -/
def SettingsFile.ofDocument (doc : Document) : Except SettingsError SettingsFile :=
  match doc.untagged with
  | .record fields =>
    let file? : Option SettingsFile := do
      guard (onlyKeys ["version", "preset", "engine"] fields)
      return {
        version := ← (← field? "version" fields).nat32?
        preset := ← readField "preset" none (optional? text?) fields
        patch := ← readField "engine" none (optional? SettingsPatch.ofRecord?) fields }
    if (get? "version" fields).isNone then .error .missingVersion
    else match file? with
      | some file => .ok file
      | none => .error .malformed
  | _ => .error .missingVersion

/-- The settings that a document describes: only version 1 is known, the patch goes over the preset,
and the result is validated. -/
def SettingsFile.settings (file : SettingsFile) : Except SettingsError Settings := do
  if file.version ≠ 1 then throw (.unsupportedVersion file.version)
  let preset ← match file.preset with
    | none => pure Preset.standard
    | some name => match Preset.ofName? name with
      | some preset => pure preset
      | none => throw (.unknownPreset name)
  ((Settings.ofPreset preset).apply (file.patch.getD {})).validate

/-!
## Indented text

Reading takes any document of the format; writing gives one fixed layout.
-/

def Settings.ofYaml (text : String) : Except SettingsError Settings :=
  match Yaml.document? text with
  | none => .error .malformed
  | some doc => do (← SettingsFile.ofDocument doc).settings

/-- The fields that a patch sets, in order, each with the text of its value. -/
def SettingsPatch.fields (patch : SettingsPatch) : List (String × String) :=
  let flag (b : Bool) : String := if b then "true" else "false"
  let values := [patch.pathExpansionLimit.map toString, patch.stackDepthLimit.map toString,
    patch.includeStandardLibrary.map flag, patch.maxLoopValues.map toString, patch.parallel.map flag]
  (Settings.fieldNames.zip values).filterMap fun field => field.2.map (field.1, ·)

/-- The lines of the fields of a patch. -/
def SettingsPatch.lines (fields : List (String × String)) : String :=
  fields.foldr (fun field text => "  " ++ field.1 ++ ": " ++ field.2 ++ "\n" ++ text) ""

/-- A patch as a document of its own; a field that it does not set is left out. -/
def SettingsPatch.toYaml (patch : SettingsPatch) : String :=
  match patch.fields with
  | [] => "version: 1\nengine: \x7b\x7d\n"
  | fields => "version: 1\nengine:\n" ++ lines fields

/-- The settings as a document that sets every field. -/
def Settings.toYaml (settings : Settings) : String := settings.toPatch.toYaml

end ApexPaths
