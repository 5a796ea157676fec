import Dependents.Config.Basic
import Dependents.Json.Reader
import Dependents.Json.Record

/-! Settings in JSON. A file names only what it changes, and nothing that is no setting. -/
namespace Dependents

namespace ResolutionPolicy

def name : ResolutionPolicy → String
  | .strict => "strict"
  | .lenient => "lenient"

def ofName? : String → Option ResolutionPolicy
  | "strict" => some .strict
  | "lenient" => some .lenient
  | _ => none

/-- Reads a policy: its name, or an object with that name and nothing under it. -/
def ofJson? : Json → Option ResolutionPolicy
  | .string name => ofName? name
  | .object [(name, .null)] => ofName? name
  | _ => none

end ResolutionPolicy

namespace CacheMode

def toJson : CacheMode → Json
  | .off => .object [("mode", .string "off")]
  | .memory => .object [("mode", .string "memory")]
  | .disk dir => .object [("mode", .string "disk"), ("dir", .string dir.text)]

/-- Reads a cache mode out of an object, where the mode's name stands among the other fields. -/
def ofFields? (fields : List (String × Json)) : Option CacheMode := do
  match (← (← Json.slotOf fields "mode").required Json.asString?) with
  | "off" => return .off
  | "memory" => return .memory
  | "disk" => return .disk ⟨← (← Json.slotOf fields "dir").required Json.asString?⟩
  | _ => none

/-- Reads a cache mode: an object that names it, or an array that starts with its name. -/
def ofJson? : Json → Option CacheMode
  | .object fields => ofFields? fields
  | .array [.string "off"] => some .off
  | .array [.string "memory"] => some .memory
  | .array [.string "disk", .string dir] => some (.disk ⟨dir⟩)
  | _ => none

end CacheMode

namespace Config

def settings : List String :=
  ["include_extensions", "exclude_dirs", "resolution", "follow_links", "cache"]

def toJson (c : Config) : Json :=
  .object [("include_extensions", .array (c.includeExtensions.map .string)),
    ("exclude_dirs", .array (c.excludeDirs.map .string)),
    ("resolution", .string c.resolution.name), ("follow_links", .bool c.followLinks),
    ("cache", c.cache.toJson)]

def namesSettingsOnly : Json → Bool
  | .object fields => fields.all fun entry => settings.contains entry.1
  | _ => true

/-- Reads settings; what is left out is standard. -/
def ofJson? (value : Json) : Option Config :=
  if namesSettingsOnly value then
    match Json.slots? settings value with
    | some [includeExtensions, excludeDirs, resolution, followLinks, cache] => do
      return {
        includeExtensions :=
          ← includeExtensions.orElse standard.includeExtensions (Json.listOf? Json.asString?)
        excludeDirs := ← excludeDirs.orElse standard.excludeDirs (Json.listOf? Json.asString?)
        resolution := ← resolution.orElse standard.resolution ResolutionPolicy.ofJson?
        followLinks := ← followLinks.orElse standard.followLinks Json.asBool?
        cache := ← cache.orElse standard.cache CacheMode.ofJson? }
    | _ => none
  else none

def ofText (path : Path) (text : String) : Except AnalysisError Config :=
  match (Json.read? text).bind ofJson? with
  | none => .error (.config (.malformed path))
  | some config => do
    config.validate
    return config

end Config

end Dependents
