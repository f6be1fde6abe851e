/-
  HeaderReflection.Config.Reader

  Settings from a TOML document. Known keys change the defaults and are
  checked in a fixed order; each other key brings a warning, which names the
  known key that it may be a misspelling of.
-/
import HeaderReflection.Config
import HeaderReflection.EditDistance
import HeaderReflection.Toml.Document

namespace HeaderReflection

/-- The name of the configuration file that is looked for beside the headers. -/
def Config.fileName : Text :=
  ".reflectgen.toml".toList

/-! ## Keys -/

/-- The keys of a configuration file. -/
inductive ConfigKey
  | extension
  | generatedSuffix
  | sentinelCases
  | skipDirs
  deriving DecidableEq, Repr

namespace ConfigKey

/-- The key as it is written. -/
def spelling : ConfigKey → Text
  | extension => "extension".toList
  | generatedSuffix => "generated_suffix".toList
  | sentinelCases => "sentinel_cases".toList
  | skipDirs => "skip_dirs".toList

/-- All keys, in the order in which they are checked and suggested. -/
def all : List ConfigKey :=
  [extension, generatedSuffix, sentinelCases, skipDirs]

/-- Number of edits between a known key and a key as it is written. -/
def distance (written : Text) (k : ConfigKey) : Nat :=
  editDistance (Text.bytes written) (Text.bytes k.spelling)

/-- The first of the keys that are nearest to the written one. -/
def nearest (written : Text) : List ConfigKey → Option ConfigKey
  | [] => none
  | k :: ks =>
    match nearest written ks with
    | none => some k
    | some other => if distance written other < distance written k then some other else some k

/-- A misspelling has at most this many edits. -/
def maxEdits : Nat := 3

/-- The known key that the written one may be a misspelling of. -/
def suggestion (written : Text) : Option ConfigKey :=
  (nearest written all).filter fun k => distance written k ≤ maxEdits

end ConfigKey

/-! ## Errors and warnings -/

/-- Why a configuration is refused. -/
inductive ConfigError
  /-- The document is not TOML. -/
  | malformed
  /-- The value is no string, or an empty one. -/
  | notNonEmptyString (key : ConfigKey)
  /-- The value is no array, or has items that are no strings. -/
  | notStringArray (key : ConfigKey)
  deriving DecidableEq, Repr

/-- The sentence shown to the user. -/
def ConfigError.message : ConfigError → String
  | malformed => "TOML parse error"
  | notNonEmptyString k => "'" ++ String.ofList k.spelling ++ "' must be a non-empty string"
  | notStringArray k => "'" ++ String.ofList k.spelling ++ "' must be an array of strings"

/-- What is reported of a configuration that is used all the same. -/
inductive ConfigWarning
  /-- A key means nothing, but may be a misspelling. -/
  | unknownKey (key : Text) (suggestion : Option ConfigKey)
  /-- The file cannot be used, and the defaults take its place. -/
  | unusable
  deriving DecidableEq, Repr

/-- The sentence shown to the user. -/
def ConfigWarning.message : ConfigWarning → String
  | unknownKey _ suggestion =>
    "Unknown key in " ++ String.ofList Config.fileName ++
      match suggestion with
      | some k => ", did you mean '" ++ String.ofList k.spelling ++ "'?"
      | none =>
        " (known keys: "
          ++ ", ".intercalate (ConfigKey.all.map fun k => String.ofList k.spelling) ++ ")"
  | unusable => "Failed to load config, using defaults"

namespace Config

/-! ## Values -/

/-- A string that is not empty. -/
def nonEmptyString (key : ConfigKey) : Toml.Value → Except ConfigError Text
  | .string s => if s.isEmpty then .error (.notNonEmptyString key) else .ok s
  | _ => .error (.notNonEmptyString key)

/-- The string of a value. -/
def string? : Toml.Value → Option Text
  | .string s => some s
  | _ => none

/-- An array of strings. -/
def stringArray (key : ConfigKey) : Toml.Value → Except ConfigError (List Text)
  | .array items =>
    match items.mapM string? with
    | some texts => .ok texts
    | none => .error (.notStringArray key)
  | _ => .error (.notStringArray key)

/-- Changes a configuration by the value of a key, if the table has it. -/
def setFrom (t : Toml.Table) (key : ConfigKey)
    (set : Config → Toml.Value → Except ConfigError Config) (c : Config) :
    Except ConfigError Config :=
  match t.get? key.spelling with
  | some v => set c v
  | none => .ok c

/-! ## Tables -/

/-- The configuration that a table asks for. Points in front of the extension are dropped; sentinels
take the place of the default ones; directories to skip are added to the default ones. -/
def ofTable (t : Toml.Table) : Except ConfigError Config := do
  let c ← setFrom t .extension
    (fun c v => do
      let s ← nonEmptyString .extension v
      return { c with extension := s.dropWhile (· == '.') }) default
  let c ← setFrom t .generatedSuffix
    (fun c v => do return { c with generatedSuffix := ← nonEmptyString .generatedSuffix v }) c
  -- No sentinels at all is a choice too: then every case is reflected.
  let c ← setFrom t .sentinelCases
    (fun c v => do return { c with sentinels := ← stringArray .sentinelCases v }) c
  setFrom t .skipDirs
    (fun c v => do
      let names ← stringArray .skipDirs v
      return { c with skipDirs := c.skipDirs ++ names }) c

/-- Is the written key one of the known ones? -/
def isKnownKey (written : Text) : Bool :=
  ConfigKey.all.any fun k => k.spelling == written

/-- The warnings about a table's keys, in the order of the keys. -/
def warningsOf (t : Toml.Table) : List ConfigWarning :=
  (t.sortedKeys.filter fun key => !isKnownKey key).map fun key =>
    .unknownKey key (ConfigKey.suggestion key)

/-- The configuration that a document asks for, and the warnings about it. A document that is not
TOML brings none. -/
def read (document : Text) : List ConfigWarning × Except ConfigError Config :=
  match Toml.parse? document with
  | none => ([], .error .malformed)
  | some t => (warningsOf t, ofTable t)

end Config

end HeaderReflection
