import ApexPaths.Text.Case
import ApexPaths.Text.Integer

/-!
Settings of an analysis: two limits and a few switches. A preset gives a full set, a patch replaces
single fields, and `Settings.validate` refuses a limit of zero and an unroll bound outside 1 to 10000.
-/

namespace ApexPaths
set_option autoImplicit false

/-! ## Limits -/

/-- A bound on a count; `none` is no bound. -/
structure Limit where
  max? : Option Nat
  deriving DecidableEq, Repr, Inhabited

namespace Limit

def unlimited : Limit := ⟨none⟩

def ofInt (raw : Int) : Limit := if raw < 0 then unlimited else ⟨some raw.toNat⟩

def isUnlimited (limit : Limit) : Bool := limit.max?.isNone

def allows (limit : Limit) (count : Nat) : Bool :=
  match limit.max? with
  | some most => count ≤ most
  | none => true

end Limit

/-! ## Presets -/

inductive Preset where
  | standard
  | strict
  | unbounded
  deriving DecidableEq, Repr, Inhabited

namespace Preset

def name : Preset → String
  | .standard => "default"
  | .strict => "strict"
  | .unbounded => "unbounded"

def ofName? (text : String) : Option Preset :=
  match Text.lower text with
  | "default" => some .standard
  | "strict" => some .strict
  | "unbounded" => some .unbounded
  | _ => none

def expansionLimit : Preset → Int
  | .standard => 50000
  | .strict => 1000
  | .unbounded => -1

def depthLimit : Preset → Int
  | .standard => 450
  | .strict => 50
  | .unbounded => -1

end Preset

/-! ## Settings -/

/-- What an analysis is run with. -/
structure Settings where
  /-- Most forked paths of one expansion; negative for no bound. -/
  pathExpansionLimit : Int := Preset.expansionLimit .standard
  /-- Most nested calls of one expansion; negative for no bound. -/
  stackDepthLimit : Int := Preset.depthLimit .standard
  /-- Whether the stubs of the standard library are part of the graph. -/
  includeStandardLibrary : Bool := true
  /-- Most values that the counter of a `for` loop may take. -/
  maxLoopValues : Nat := 100
  /-- Whether independent methods may be expanded side by side. -/
  parallel : Bool := true
  deriving DecidableEq, Repr, Inhabited

/-- Replacements for some of the fields. -/
structure SettingsPatch where
  pathExpansionLimit : Option Int := none
  stackDepthLimit : Option Int := none
  includeStandardLibrary : Option Bool := none
  maxLoopValues : Option Nat := none
  parallel : Option Bool := none
  deriving DecidableEq, Repr, Inhabited

/-- Why settings are refused. -/
inductive SettingsError where
  | range (field : String) (value : Int) (least most : Int) (hint : String)
  | missingVersion
  | unsupportedVersion (found : Nat)
  | unknownPreset (name : String)
  /-- The document does not have the form of a settings document. -/
  | malformed
  deriving DecidableEq, Repr

namespace SettingsError

def message : SettingsError → String
  | .range field value least most hint =>
    "Invalid range for field '" ++ field ++ "': " ++ toString value ++ " not in " ++ toString least ++ "..=" ++
    toString most ++ ". " ++ hint
  | .missingVersion =>
    "Missing 'version' field in configuration file. Add 'version: 1' to the top of your YAML file."
  | .unsupportedVersion found =>
    "Unsupported configuration version " ++ toString found ++ ". Supported versions: 1"
  | .unknownPreset name => "Unknown preset '" ++ name ++ "'. Valid presets: default, strict, unbounded"
  | .malformed => "YAML parsing error"

end SettingsError

namespace Settings

def ofPreset (preset : Preset) : Settings :=
  { pathExpansionLimit := preset.expansionLimit, stackDepthLimit := preset.depthLimit }

section
variable (settings : Settings)

def expansionLimit : Limit := Limit.ofInt settings.pathExpansionLimit

def depthLimit : Limit := Limit.ofInt settings.stackDepthLimit

/-- The settings with the patched fields replaced. -/
def apply (patch : SettingsPatch) : Settings where
  pathExpansionLimit := patch.pathExpansionLimit.getD settings.pathExpansionLimit
  stackDepthLimit := patch.stackDepthLimit.getD settings.stackDepthLimit
  includeStandardLibrary := patch.includeStandardLibrary.getD settings.includeStandardLibrary
  maxLoopValues := patch.maxLoopValues.getD settings.maxLoopValues
  parallel := patch.parallel.getD settings.parallel

/-- The patch that sets every field to its value here. -/
def toPatch : SettingsPatch where
  pathExpansionLimit := some settings.pathExpansionLimit
  stackDepthLimit := some settings.stackDepthLimit
  includeStandardLibrary := some settings.includeStandardLibrary
  maxLoopValues := some settings.maxLoopValues
  parallel := some settings.parallel

end

/-- Limits may be negative, but not zero. -/
def checkLimit (field : String) (value : Int) : Except SettingsError Unit :=
  if value = 0 then .error (.range field value 1 Text.maxInt64 "Use a negative value for unlimited") else .ok ()

/-- The settings themselves, once every range check passes. -/
def validate (settings : Settings) : Except SettingsError Settings := do
  checkLimit "path_expansion_limit" settings.pathExpansionLimit
  checkLimit "stack_depth_limit" settings.stackDepthLimit
  if settings.maxLoopValues = 0 ∨ 10000 < settings.maxLoopValues then
    .error (.range "max_for_loop_unroll_values" settings.maxLoopValues 1 10000
      "Loop values beyond this bound become indeterminate")
  else .ok settings

end Settings

end ApexPaths
