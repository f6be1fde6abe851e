/-
  HeaderReflection.CommandLine

  The command line: its arguments, and what a run prints and changes.
-/
import HeaderReflection.Config.File
import HeaderReflection.Report

namespace HeaderReflection

namespace CommandLine

/-! ## Arguments -/

/-- What a run is asked to do. -/
structure Options where
  /-- A header, or a directory to walk. -/
  path : Path
  /-- The configuration file, if it is not the one beside the headers. -/
  config : Option Path
  /-- Print the companions and write nothing. -/
  dryRun : Bool
  /-- Print JSON. -/
  json : Bool
  deriving DecidableEq, Repr

/-- What the arguments ask for. -/
inductive Request
  | run (o : Options)
  | help
  | version
  /-- The arguments are wrong. -/
  | misuse
  deriving DecidableEq, Repr

/-- The arguments that have been read. -/
structure Parsed where
  path : Option Path
  config : Option Path
  dryRun : Bool
  json : Bool

/-- The request of all arguments. Without a path they are wrong. -/
def Parsed.finish (p : Parsed) : Request :=
  match p.path with
  | some path => .run ⟨path, p.config, p.dryRun, p.json⟩
  | none => .misuse

/-- Reads an argument that is no option: the path, once and not empty. -/
def Parsed.setPath (p : Parsed) (argument : Text) : Option Parsed :=
  if argument.isEmpty || p.path.isSome then none else some { p with path := some argument }

/-- Reads the value of the option for the configuration file, once and not empty. -/
def Parsed.setConfig (p : Parsed) (argument : Text) : Option Parsed :=
  if argument.isEmpty || p.config.isSome then none else some { p with config := some argument }

/-- Does the argument look like an option? A single hyphen does not. -/
def isOption (argument : Text) : Bool :=
  argument.head? == some '-' && 2 ≤ argument.length

/-- Reads the arguments behind two hyphens, none of which is an option. -/
def readPaths (p : Parsed) : List Text → Request
  | [] => p.finish
  | a :: rest =>
    match p.setPath a with
    | some p => readPaths p rest
    | none => .misuse

/-- What stands before and behind the first equals sign of a long option. -/
def splitValue (argument : Text) : Text × Option Text :=
  let name := argument.takeWhile (· != '=')
  (name, if name.length < argument.length then some (argument.drop (name.length + 1)) else none)

/-- Reads the arguments in turn; the first one that is wrong, or asks for help, decides. -/
def readArguments (p : Parsed) : List Text → Request
  | [] => p.finish
  | a :: rest =>
    if a == "--".toList then readPaths p rest
    else if !isOption a then
      match p.setPath a with
      | some p => readArguments p rest
      | none => .misuse
    else if a.take 2 == "--".toList then
      -- Only the option for the configuration file takes a value, here or in the next argument.
      match splitValue (a.drop 2), rest with
      | (name, some value), rest =>
        if name == "config".toList then
          match p.setConfig value with
          | some p => readArguments p rest
          | none => .misuse
        else .misuse
      | (name, none), rest =>
        if name == "dry-run".toList then
          if p.dryRun then .misuse else readArguments { p with dryRun := true } rest
        else if name == "json".toList then
          if p.json then .misuse else readArguments { p with json := true } rest
        else if name == "help".toList then .help
        else if name == "version".toList then .version
        else if name == "config".toList then
          match rest with
          | [] => .misuse
          | value :: rest =>
            if isOption value then .misuse
            else match p.setConfig value with
              | some p => readArguments p rest
              | none => .misuse
        else .misuse
    -- Of a group of short options the first one decides, since both end the reading.
    else if a.drop 1 |>.head? |> (· == some 'h') then .help
    else if a.drop 1 |>.head? |> (· == some 'V') then .version
    else .misuse

/-- The request that the arguments make. -/
def parse (arguments : List Text) : Request :=
  readArguments ⟨none, none, false, false⟩ arguments

/-! ## Runs -/

/-- What a run leaves behind besides the tree. -/
structure Result where
  exitCode : Nat
  output : Text
  errors : Text
  warnings : List ConfigWarning

/-- A line of output. -/
def line (s : Text) : Text :=
  s ++ ['\n']

/-- The last line of a run that failed. -/
def errorLine (e : RunError) : Text :=
  line ("Error: ".toList ++ e.message.toList)

/-- The directory whose configuration file is used: the path itself, or what it lies in. -/
def configDir (t : FileTree) (path : Path) : Path :=
  if t.isDir path then path
  else match path.parent? with
    | some p => if p.isEmpty then ['.'] else p
    | none => ['.']

/-- The configuration of a run, and the warnings about it. -/
def resolveConfig (t : FileTree) (o : Options) : List ConfigWarning × Except RunError Config :=
  match o.config with
  | some p => Config.load t p
  | none =>
    let (warnings, c) := Config.loadFor t (configDir t o.path)
    (warnings, .ok c)

/-- The headers of a run. -/
def headersOf (t : FileTree) (c : Config) (path : Path) : Except RunError (List Path) :=
  if t.isDir path then collectHeaders t c path else .ok [path]

/-- The previews of headers up to the first failure, and that failure. -/
def previews (t : FileTree) (c : Config) : List Path → List (Path × Option Text) × Option RunError
  | [] => ([], none)
  | h :: hs =>
    match previewFile t c h with
    | .error e => ([], some e)
    | .ok text =>
      let (rest, e) := previews t c hs
      ((h, text) :: rest, e)

/-- What a dry run prints for a header; with several headers each text has a title. -/
def previewText (titled : Bool) (input : Path) : Option Text → Text
  | some text =>
    (if titled then line ("==> ".toList ++ input ++ " <==".toList) else []) ++ text
  | none => []

/-- What a dry run says of a header without a companion. -/
def previewNotice (input : Path) : Option Text → Text
  | some _ => []
  | none => line ("Skipped ".toList ++ input)

/-- A run that prints the companions of headers and changes nothing. -/
def dryRun (t : FileTree) (c : Config) (json : Bool) (path : Path) : Nat × Text × Text :=
  match headersOf t c path with
  | .error e => (1, [], errorLine e)
  | .ok headers =>
    let (texts, failure) := previews t c headers
    let output :=
      if !json then texts.flatMap fun (h, text) => previewText (1 < headers.length) h text
      else if failure.isNone then
        line (Json.pretty 0 (.array (texts.map fun (h, text) => .ofPreview h text)))
      else []
    let notices := if json then [] else texts.flatMap fun (h, text) => previewNotice h text
    match failure with
    | none => (0, output, notices)
    | some e => (1, output, notices ++ errorLine e)

/-- The line about an outcome. -/
def outcomeLine : Outcome → Text
  | .generated _ output _ => line ("Generated ".toList ++ output)
  | .skipped input => line ("Skipped ".toList ++ input)

/-- The counts that follow the run over a directory. -/
def summary (outcomes : List Outcome) : Text :=
  let generated := outcomes.countP (·.isGenerated)
  line ('\n' :: (toString generated).toList ++ " generated, ".toList
    ++ (toString (outcomes.length - generated)).toList ++ " skipped".toList)

/-- A run that writes the companions of headers. -/
def generate (t : FileTree) (c : Config) (json : Bool) (path : Path) :
    (Nat × Text × Text) × FileTree :=
  let (result, t') :=
    if t.isDir path then generateDir t c path else generateFiles t c [path]
  match result with
  | .error e => ((1, [], errorLine e), t')
  | .ok outcomes =>
    if json then ((0, line (Json.pretty 0 (.array (outcomes.map (·.toJson)))), []), t')
    else ((0, outcomes.flatMap outcomeLine, if t.isDir path then summary outcomes else []), t')

/-- Does what the options ask for. -/
def runOptions (t : FileTree) (o : Options) : Result × FileTree :=
  match resolveConfig t o with
  | (warnings, .error e) => (⟨1, [], errorLine e, warnings⟩, t)
  | (warnings, .ok c) =>
    if o.dryRun then
      let (code, output, errors) := dryRun t c o.json o.path
      (⟨code, output, errors, warnings⟩, t)
    else
      let ((code, output, errors), t) := generate t c o.json o.path
      (⟨code, output, errors, warnings⟩, t)

/-- The text that explains the arguments. -/
def usage : Text :=
  ("Generate reflection companions for marked structs and enums\n\n"
    ++ "Usage: reflectgen [OPTIONS] <PATH>\n\n"
    ++ "Arguments:\n"
    ++ "  <PATH>  Header file, or directory to walk recursively\n\n"
    ++ "Options:\n"
    ++ "      --config <CONFIG>  Config file (default: .reflectgen.toml next to the input)\n"
    ++ "      --dry-run          Print generated text to stdout instead of writing files\n"
    ++ "      --json             Output as JSON instead of human-readable text\n"
    ++ "  -h, --help             Print help\n"
    ++ "  -V, --version          Print version\n").toList

/-- Does what the arguments ask for. -/
def run (t : FileTree) (arguments : List Text) : Result × FileTree :=
  match parse arguments with
  | .run o => runOptions t o
  | .help => (⟨0, usage, [], []⟩, t)
  | .version => (⟨0, line "reflectgen 0.1.0".toList, [], []⟩, t)
  | .misuse => (⟨2, [], [], []⟩, t)

end CommandLine

end HeaderReflection
