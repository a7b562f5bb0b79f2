import Innen.Config.Toml
import Innen.Hook.Settings
import Innen.Trace.Routes

/-!
# Persisted settings

Settings are kept in two files of JSON, one below the root and one of the user. A setter checks a key and its value, reads
the file as a map, puts the value in and writes the map back. The readers take the values that have the type they look
for. All but the setter of the file below the root take a byte order mark off before they read.
-/

namespace Innen.Config

open Common Hook

/-! ## The JSON library -/

/-- The byte order mark of UTF-8. -/
def bom : List UInt8 := [0xEF, 0xBB, 0xBF]

/-- Bytes without the byte order mark before them, if there is one. -/
def stripBomBytes (bytes : List UInt8) : List UInt8 := if bom.isPrefixOf bytes then bytes.drop 3 else bytes

/-- The JSON library. A number with a decimal point need not be read as it was before it was printed, and a byte order
mark is no JSON. -/
structure Library where
  /-- `from_slice`, to a value. -/
  fromSlice : List UInt8 → Except String Value
  /-- The error of a value that is no map. -/
  invalidType : Value → String
  /-- `to_string` of a map. -/
  print : Fields → List UInt8
  reparseFloat : UInt64 → UInt64
  sound_of_fromSlice : ∀ {bytes v}, fromSlice bytes = .ok v → Sound maxDepth v
  fromSlice_print : ∀ {fields}, Sound maxDepth (.object fields) →
    fromSlice (print fields ++ [10]) = .ok ((Value.object fields).mapFloats reparseFloat)
  fromSlice_bom : ∀ rest, ∃ e, fromSlice (bom ++ rest) = .error e

/-- `from_slice`, to a map. -/
def Library.fromSliceMap (L : Library) (bytes : List UInt8) : Except String Fields :=
  match L.fromSlice bytes with
  | .error e => .error e
  | .ok v => match v with
    | .object fields => .ok fields
    | v => .error (L.invalidType v)

/-! ## Errors -/

/-- `ConfigSetError`. -/
inductive ConfigSetError
  | unknownKey (key : String)
  | invalidBool
  | emptyValue (key : String)
  | notAbsolute (path : String)
  | relativeConfigHome (var path : String)
  | corruptGlobal (path detail : String)
  | noGlobalDir
  | io (detail : String)
deriving DecidableEq

/-- `RootResolutionError`. -/
inductive RootResolutionError
  | unconfigured
  | relativeEnvRoot (path : String)
  | relativeGlobalRoot (path : String)
  | relativeConfigHome (var path : String)
  | corruptConfig (path detail : String)
  | noGlobalDir
deriving DecidableEq

/-- The text of an error. -/
def RootResolutionError.message : RootResolutionError → String
  | .unconfigured => "knowledge base root is not configured; set --root, INNEN_ROOT, or register globally with " ++
      "'innen config set --global root <path>'"
  | .relativeEnvRoot path => "INNEN_ROOT must be an absolute path: " ++ path
  | .relativeGlobalRoot path => "'root' in global config must be an absolute path: " ++ path
  | .relativeConfigHome var path => var ++ " must be an absolute path: " ++ path
  | .corruptConfig path detail => "corrupt global config at " ++ path ++ ": " ++ detail
  | .noGlobalDir => "global configuration directory could not be determined; set HOME or XDG_CONFIG_HOME"

/-! ## Setters -/

/-- How a write ends. One that fails may leave anything in the file, or no file. -/
inductive Written
  | done
  | failed (detail : String) (left : Option (List UInt8))

/-- What the file system answers to a setter: errors of making the directory and of reading, and how the write ends. -/
structure Io where
  createDir : Option String
  read : Option String
  written : Written

/-- Read a file as a map, put a value in, and write it back. What cannot be parsed is up to `parse`. -/
def store (L : Library) (parse : List UInt8 → Except ConfigSetError Fields) (io : Io) (key : String) (stored : Value)
    (echo : String) (file : Option (List UInt8)) : Except ConfigSetError String × Option (List UInt8) :=
  match io.createDir, io.read with
  | some e, _ => (.error (.io e), file)
  | none, some e => (.error (.io e), file)
  | none, none =>
    match file.elim (.ok []) parse with
    | .error e => (.error e, file)
    | .ok map =>
      match io.written with
      | .failed e left => (.error (.io e), left)
      | .done => (.ok echo, some (L.print (Assoc.insert key stored map) ++ [10]))

/-- A key that a setter knows. -/
def isKey (key : String) : Bool := key = "root" || key = "format" || key = "rebuild_on_open"

/-- What the map of `machine.json` holds for the setter. -/
def machineMap (L : Library) (bytes : List UInt8) : Fields := (L.fromSliceMap bytes).toOption.getD []

/-- `set_machine_value`, on the file. -/
def setMachineValue (L : Library) (io : Io) (key value : String) (file : Option (List UInt8)) :
    Except ConfigSetError String × Option (List UInt8) :=
  if isKey key = false then (.error (.unknownKey key), file)
  else if key = "rebuild_on_open" ∧ asciiLower (trim value) ≠ "true" ∧ asciiLower (trim value) ≠ "false" then
    (.error .invalidBool, file)
  else if (key = "root" ∨ key = "format") ∧ trim value = "" then (.error (.emptyValue key), file)
  else
    let stored := if key = "rebuild_on_open" then .bool (asciiLower (trim value) = "true") else .string value
    let echo := if key = "rebuild_on_open" then asciiLower (trim value) else value
    store L (fun bytes => .ok (machineMap L bytes)) io key stored echo file

-- The variables of the environment.
variable (env : String → Option String)

/-- `Path::is_absolute`. -/
def isAbsolute (path : String) : Bool := startsWith path "/"

/-- The directory that a variable names, if it is not blank. -/
def configHome (var : String) : Option (Except RootResolutionError String) :=
  match env var with
  | some value =>
    let path := trim value
    if path = "" then none
    else if isAbsolute path = false then some (.error (.relativeConfigHome var path))
    else some (.ok path)
  | none => none

/-- `global_config_dir_with_env`. -/
def globalConfigDir : Except RootResolutionError String :=
  match configHome env "XDG_CONFIG_HOME" with
  | some home => home.map fun dir => Trace.joinText dir "innen"
  | none =>
    match configHome env "HOME" with
    | some home => home.map fun dir => Trace.joinText (Trace.joinText dir ".config") "innen"
    | none => .error .noGlobalDir

/-- `global_config_path_with_env`. -/
def globalConfigPath : Except RootResolutionError String :=
  (globalConfigDir env).map fun dir => Trace.joinText dir "config.json"

/-- The error of a setter or getter for a path that cannot be found. -/
def pathError : RootResolutionError → ConfigSetError
  | .noGlobalDir => .noGlobalDir
  | .relativeConfigHome var path => .relativeConfigHome var path
  | e => .corruptGlobal "" e.message

/-- `set_global_value_with_env`, on the file. -/
def setGlobalValue (L : Library) (io : Io) (key value : String) (file : Option (List UInt8)) :
    Except ConfigSetError String × Option (List UInt8) :=
  let normalized := trim value
  if isKey key = false then (.error (.unknownKey key), file)
  else if (key = "root" ∨ key = "format") ∧ normalized = "" then (.error (.emptyValue key), file)
  else if key = "rebuild_on_open" ∧ asciiLower normalized ≠ "true" ∧ asciiLower normalized ≠ "false" then
    (.error .invalidBool, file)
  else if key = "root" ∧ isAbsolute normalized = false then (.error (.notAbsolute normalized), file)
  else
    let stored := if key = "rebuild_on_open" then .bool (asciiLower normalized = "true") else .string normalized
    let echo := if key = "rebuild_on_open" then asciiLower normalized else normalized
    match globalConfigPath env with
    | .error e => (.error (pathError e), file)
    | .ok path =>
      store L (fun bytes => (L.fromSliceMap (stripBomBytes bytes)).mapError (.corruptGlobal path)) io key stored echo file

/-! ## Readers -/

/-- `parse_machine_bytes`. -/
def parseMachineBytes (L : Library) (bytes : List UInt8) : Layer :=
  match L.fromSlice (stripBomBytes bytes) with
  | .ok v =>
    match v.asObject? with
    | some obj => {
        root := nonempty ((Assoc.get? "root" obj).bind Value.asStr?) none
        format := nonempty ((Assoc.get? "format" obj).bind Value.asStr?) none
        rebuildOnOpen := (Assoc.get? "rebuild_on_open" obj).bind Value.asBool? }
    | none => .empty
  | .error _ => .empty

/-- The text of a truth value. -/
def boolText (b : Bool) : String := if b then "true" else "false"

/-- A value of a layer, as a setter echoes it. -/
def Layer.value (layer : Layer) (key : String) : Option String :=
  if key = "root" then layer.root
  else if key = "format" then layer.format
  else if key = "rebuild_on_open" then layer.rebuildOnOpen.map boolText
  else none

/-- `read_machine_layer`. -/
def readMachineLayer (L : Library) (file : Option (List UInt8)) : Layer := file.elim .empty (parseMachineBytes L)

/-- `get_global_value_with_env`, on the file. -/
def getGlobalValue (L : Library) (file : Option (List UInt8)) (key : String) : Except ConfigSetError (Option String) :=
  if isKey key = false then .error (.unknownKey key)
  else
    match globalConfigPath env with
    | .error .noGlobalDir => .ok none
    | .error e => .error (pathError e)
    | .ok path =>
      match file with
      | none => .ok none
      | some bytes =>
        match L.fromSlice (stripBomBytes bytes) with
        | .error e => .error (.corruptGlobal path e)
        | .ok v =>
          match v.asObject? with
          | none => .error (.corruptGlobal path "expected JSON object")
          | some obj =>
            if key = "rebuild_on_open" then .ok (((Assoc.get? key obj).bind Value.asBool?).map boolText)
            else .ok ((Assoc.get? key obj).bind Value.asStr?)

/-- `resolve_root_with_env`, on the file. -/
def resolveRoot (L : Library) (cliRoot : Option String) (file : Option (List UInt8)) : Except RootResolutionError String :=
  match cliRoot.filter (· ≠ "") with
  | some root => .ok root
  | none =>
    match ((env "INNEN_ROOT").map trim).filter (· ≠ "") with
    | some path => if isAbsolute path then .ok path else .error (.relativeEnvRoot path)
    | none =>
      match globalConfigPath env with
      | .error .noGlobalDir => .error .unconfigured
      | .error e => .error e
      | .ok configPath =>
        match file with
        | none => .error .unconfigured
        | some bytes =>
          match L.fromSlice (stripBomBytes bytes) with
          | .error e => .error (.corruptConfig configPath e)
          | .ok v =>
            match v.asObject? with
            | none => .error (.corruptConfig configPath "expected JSON object at root")
            | some obj =>
              match Assoc.get? "root" obj with
              | none => .error .unconfigured
              | some root =>
                match (root.asStr?.map trim).filter (· ≠ "") with
                | some path => if isAbsolute path then .ok path else .error (.relativeGlobalRoot path)
                | none => .error (.corruptConfig configPath "'root' value must be a non-empty string")

end Innen.Config
