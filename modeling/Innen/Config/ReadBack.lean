import Innen.Config.Persisted
import Innen.Hook.Files

/-!
# Settings are read back

A setter that puts a value in writes a file without a byte order mark, and the readers see the map that it had read with
the value in it. The map is the one they see before, unless the file below the root begins with a byte order mark: then
the setter takes it for empty (`settings_read_back_iff`).
-/

namespace Innen.Config

open Common Hook

/-! ## Runs of settings -/

/-- A setter, on its file. -/
abbrev Setter := Io → String → String → Option (List UInt8) → Except ConfigSetError String × Option (List UInt8)

/-- A setting, and what the file system answers to it. -/
structure Setting where
  key : String
  value : String
  io : Io

/-- The file, and what was echoed for the keys that were set, the last one first. -/
structure Run where
  file : Option (List UInt8)
  echoes : List (String × String)

/-- One setting. -/
def Run.step (set : Setter) (r : Run) (s : Setting) : Run :=
  let result := set s.io s.key s.value r.file
  ⟨result.2, match result.1 with
    | .ok echo => (s.key, echo) :: r.echoes
    | .error _ => r.echoes⟩

/-- Settings, one after another. -/
def run (set : Setter) (file : Option (List UInt8)) (settings : List Setting) : Run :=
  settings.foldl (Run.step set) ⟨file, []⟩

theorem run_nil (set : Setter) (file : Option (List UInt8)) : run set file [] = ⟨file, []⟩ := rfl

theorem run_concat (set : Setter) (file : Option (List UInt8)) (settings : List Setting) (s : Setting) :
    run set file (settings ++ [s]) = (run set file settings).step set s := by
  rw [run, List.foldl_append, List.foldl_cons, List.foldl_nil, ← run]

/-- What a reader finds after settings: of a key that was set, the value that was echoed for it last, of every other key,
what was there before. A setting that ends with an error leaves the file as it was. -/
structure ReadsBack {α : Type} (set : Setter) (read : Option (List UInt8) → String → α) (echoed : String → α)
    (file : Option (List UInt8)) (settings : List Setting) : Prop where
  values : ∀ key, read (run set file settings).file key =
    ((run set file settings).echoes.lookup key).elim (read file key) echoed
  refused : ∀ front s back, settings = front ++ s :: back → ∀ e,
    (set s.io s.key s.value (run set file front).file).1 = .error e →
      (set s.io s.key s.value (run set file front).file).2 = (run set file front).file

/-- What a setter does: a setting that reaches the write replaces the file, unless the write fails. -/
structure Setter.Spec (set : Setter) (reaches : Setting → Option (List UInt8) → Prop) (echo : Setting → String)
    (after : Setting → Option (List UInt8) → List UInt8) : Prop where
  refuse : ∀ s file, ¬reaches s file → ∃ e, set s.io s.key s.value file = (.error e, file)
  tear : ∀ s file e left, reaches s file → s.io.written = .failed e left →
    set s.io s.key s.value file = (.error (.io e), left)
  put : ∀ s file, reaches s file → s.io.written = .done →
    set s.io s.key s.value file = (.ok (echo s), some (after s file))

/-- A write that fails leaves the file as it was. -/
def Untorn (set : Setter) (reaches : Setting → Option (List UInt8) → Prop) (file : Option (List UInt8))
    (settings : List Setting) : Prop :=
  ∀ front s back, settings = front ++ s :: back → ∀ e left, s.io.written = .failed e left →
    reaches s (run set file front).file → left = (run set file front).file

section Spec

variable {set : Setter} {reaches : Setting → Option (List UInt8) → Prop} {echo : Setting → String}
  {after : Setting → Option (List UInt8) → List UInt8} {file : Option (List UInt8)} {settings : List Setting}

/-- Only a write that fails changes the file without a setting. -/
theorem Setter.Spec.refused_iff (spec : set.Spec reaches echo after) :
    (∀ front s back, settings = front ++ s :: back → ∀ e,
      (set s.io s.key s.value (run set file front).file).1 = .error e →
        (set s.io s.key s.value (run set file front).file).2 = (run set file front).file) ↔
      Untorn set reaches file settings := by
  constructor
  · intro h front s back hsplit e left hwritten hreaches
    have htear := spec.tear s _ e left hreaches hwritten
    have hsame := h front s back hsplit (.io e) (by rw [htear])
    rwa [htear] at hsame
  · intro h front s back hsplit e herror
    by_cases hreaches : reaches s (run set file front).file
    · rcases hwritten : s.io.written with _ | ⟨detail, left⟩
      · rw [spec.put s _ hreaches hwritten] at herror
        cases herror
      · rw [spec.tear s _ detail left hreaches hwritten]
        exact h front s back hsplit detail left hwritten hreaches
    · obtain ⟨e', he'⟩ := spec.refuse s _ hreaches
      rw [he']

/-- What holds before and is kept by settings that are put in holds after all settings. -/
theorem Setter.Spec.run_induction (spec : set.Spec reaches echo after) {P : Run → Prop}
    (huntorn : Untorn set reaches file settings) (hnil : P ⟨file, []⟩)
    (hput : ∀ r s, P r → reaches s r.file → s.io.written = .done →
      P ⟨some (after s r.file), (s.key, echo s) :: r.echoes⟩) : P (run set file settings) := by
  induction settings using List.reverseRecOn with
  | nil => exact hnil
  | append_singleton settings s ih =>
    have hbefore := ih fun front t back hsplit =>
      huntorn front t (back ++ [s]) (by rw [hsplit, List.append_assoc, List.cons_append])
    rw [run_concat, Run.step]
    by_cases hreaches : reaches s (run set file settings).file
    · rcases hwritten : s.io.written with _ | ⟨detail, left⟩
      · rw [spec.put s _ hreaches hwritten]
        exact hput _ s hbefore hreaches hwritten
      · rw [spec.tear s _ detail left hreaches hwritten]
        have hsame := huntorn settings s [] rfl detail left hwritten hreaches
        rw [hsame]
        exact hbefore
    · obtain ⟨e, he⟩ := spec.refuse s _ hreaches
      rw [he]
      exact hbefore

end Spec

/-! ## Reading and writing a file -/

theorem stripBomBytes_bom (rest : List UInt8) : stripBomBytes (bom ++ rest) = rest := by
  rw [stripBomBytes, if_pos (List.isPrefixOf_iff_prefix.mpr (List.prefix_append _ _))]
  rfl

theorem stripBomBytes_of_not {bytes : List UInt8} (h : ¬bom <+: bytes) : stripBomBytes bytes = bytes := by
  rw [stripBomBytes, if_neg (mt List.isPrefixOf_iff_prefix.mp h)]

variable (L : Library)

/-- What is JSON has no byte order mark. -/
theorem not_bom_of_fromSlice {bytes : List UInt8} {v : Value} (h : L.fromSlice bytes = .ok v) : ¬bom <+: bytes := by
  rintro ⟨rest, rfl⟩
  obtain ⟨e, he⟩ := L.fromSlice_bom rest
  rw [he] at h
  cases h

theorem fromSliceMap_eq_ok {bytes : List UInt8} {fields : Fields} :
    L.fromSliceMap bytes = .ok fields ↔ L.fromSlice bytes = .ok (.object fields) := by
  rw [Library.fromSliceMap]
  rcases L.fromSlice bytes with e | v
  · simp
  · cases v <;> simp

/-- What is stored with a value in it is read back. -/
theorem fromSlice_insert {map : Fields} (h : Sound maxDepth (.object map)) (key : String) {stored : Value}
    (hstored : ∀ n, Sound n stored) : L.fromSlice (L.print (Assoc.insert key stored map) ++ [10]) =
      .ok (.object (Value.mapFloatsFields L.reparseFloat (Assoc.insert key stored map))) := by
  have hset : Sound maxDepth ((Value.object map).set key stored) := Sound.set (n := 126) h (hstored 126)
  have hprint := L.fromSlice_print hset
  rwa [Value.mapFloats] at hprint

/-- What the readers see of a file of JSON: its map, if it is one. -/
def readerMap (bytes : List UInt8) : Fields :=
  ((L.fromSlice (stripBomBytes bytes)).toOption.bind Value.asObject?).getD []

theorem sound_machineMap (bytes : List UInt8) : Sound maxDepth (.object (machineMap L bytes)) := by
  rw [machineMap]
  rcases hmap : L.fromSliceMap bytes with e | fields
  · exact Sound.emptyObject 126
  · exact L.sound_of_fromSlice ((fromSliceMap_eq_ok L).mp hmap)

/-- The setter and the readers see the same map, but for the byte order mark. -/
theorem machineMap_eq_readerMap {bytes : List UInt8} (h : ¬bom <+: bytes) : machineMap L bytes = readerMap L bytes := by
  rw [machineMap, readerMap, stripBomBytes_of_not h, Library.fromSliceMap]
  rcases L.fromSlice bytes with e | v
  · rfl
  · cases v <;> rfl

/-- Behind a byte order mark, the setter sees no map. -/
theorem machineMap_bom {bytes : List UInt8} (h : bom <+: bytes) : machineMap L bytes = [] := by
  obtain ⟨rest, rfl⟩ := h
  obtain ⟨e, he⟩ := L.fromSlice_bom rest
  rw [machineMap, Library.fromSliceMap, he]
  rfl

/-! ## The file below the root -/

/-- The layer of a map. -/
def layerOf (obj : Fields) : Layer where
  root := nonempty ((Assoc.get? "root" obj).bind Value.asStr?) none
  format := nonempty ((Assoc.get? "format" obj).bind Value.asStr?) none
  rebuildOnOpen := (Assoc.get? "rebuild_on_open" obj).bind Value.asBool?

theorem parseMachineBytes_eq (bytes : List UInt8) : parseMachineBytes L bytes = layerOf (readerMap L bytes) := by
  rw [parseMachineBytes, readerMap]
  rcases L.fromSlice (stripBomBytes bytes) with e | v
  · rfl
  · dsimp only [Except.toOption, Option.bind_some]
    rcases v.asObject? with _ | obj <;> rfl

theorem readMachineLayer_eq (file : Option (List UInt8)) :
    readMachineLayer L file = layerOf (file.elim [] (readerMap L)) := by
  rcases file with _ | bytes
  · rfl
  · exact parseMachineBytes_eq L bytes

theorem asBool?_mapFloats (f : UInt64 → UInt64) (v : Value) : (v.mapFloats f).asBool? = v.asBool? := by
  cases v with
  | number n => cases n <;> simp [Value.mapFloats, Value.asBool?]
  | _ => simp [Value.mapFloats, Value.asBool?]

theorem get?_mapFloatsFields (f : UInt64 → UInt64) (fields : Fields) (key : String) :
    Assoc.get? key (Value.mapFloatsFields f fields) = (Assoc.get? key fields).map (Value.mapFloats f) := by
  rw [Value.mapFloatsFields_eq, Assoc.get?_map]

theorem bind_asStr?_mapFloats (f : UInt64 → UInt64) (v : Option Value) :
    (v.map (Value.mapFloats f)).bind Value.asStr? = v.bind Value.asStr? := by
  rcases v with _ | v
  · rfl
  · exact asStr?_mapFloats f v

theorem bind_asBool?_mapFloats (f : UInt64 → UInt64) (v : Option Value) :
    (v.map (Value.mapFloats f)).bind Value.asBool? = v.bind Value.asBool? := by
  rcases v with _ | v
  · rfl
  · exact asBool?_mapFloats f v

theorem layerOf_mapFloats (f : UInt64 → UInt64) (fields : Fields) :
    layerOf (Value.mapFloatsFields f fields) = layerOf fields := by
  simp only [layerOf, get?_mapFloatsFields, bind_asStr?_mapFloats, bind_asBool?_mapFloats]

theorem isKey_iff {key : String} : isKey key = true ↔ key = "root" ∨ key = "format" ∨ key = "rebuild_on_open" := by
  simp [isKey, or_assoc]

/-- A key and a value that `set_machine_value` accepts. -/
def ValidMachine (key value : String) : Prop :=
  key = "rebuild_on_open" ∧ (asciiLower (trim value) = "true" ∨ asciiLower (trim value) = "false") ∨
    (key = "root" ∨ key = "format") ∧ trim value ≠ ""

/-- What `set_machine_value` echoes. -/
def machineEcho (key value : String) : String := if key = "rebuild_on_open" then asciiLower (trim value) else value

/-- What `set_machine_value` stores. -/
def machineStored (key value : String) : Value :=
  if key = "rebuild_on_open" then .bool (asciiLower (trim value) = "true") else .string value

theorem setMachineValue_of_valid {key value : String} (h : ValidMachine key value) (io : Io) (file : Option (List UInt8)) :
    setMachineValue L io key value file = store L (fun bytes => .ok (machineMap L bytes)) io key
      (machineStored key value) (machineEcho key value) file := by
  rw [setMachineValue]
  rcases h with ⟨rfl, hbool⟩ | ⟨rfl | rfl, hne⟩
  · rw [if_neg (by decide), if_neg (fun h => hbool.elim h.2.1 h.2.2), if_neg (fun h => by simp at h)]
    rfl
  · rw [if_neg (by decide), if_neg (fun h => absurd h.1 (by decide)), if_neg (fun h => hne h.2)]
    rfl
  · rw [if_neg (by decide), if_neg (fun h => absurd h.1 (by decide)), if_neg (fun h => hne h.2)]
    rfl

theorem setMachineValue_of_not_valid {key value : String} (h : ¬ValidMachine key value) (io : Io)
    (file : Option (List UInt8)) : ∃ e, setMachineValue L io key value file = (.error e, file) := by
  rw [setMachineValue]
  by_cases hkey : isKey key = false
  · rw [if_pos hkey]
    exact ⟨_, rfl⟩
  rw [if_neg hkey]
  by_cases hbool : key = "rebuild_on_open" ∧ asciiLower (trim value) ≠ "true" ∧ asciiLower (trim value) ≠ "false"
  · rw [if_pos hbool]
    exact ⟨_, rfl⟩
  rw [if_neg hbool]
  by_cases hempty : (key = "root" ∨ key = "format") ∧ trim value = ""
  · rw [if_pos hempty]
    exact ⟨_, rfl⟩
  · refine absurd ?_ h
    rcases isKey_iff.mp (Bool.not_eq_false _ ▸ hkey) with rfl | rfl | rfl
    · exact .inr ⟨.inl rfl, fun hnil => hempty ⟨.inl rfl, hnil⟩⟩
    · exact .inr ⟨.inr rfl, fun hnil => hempty ⟨.inr rfl, hnil⟩⟩
    · refine .inl ⟨rfl, ?_⟩
      by_contra hneither
      exact hbool ⟨rfl, not_or.mp hneither⟩

/-- The file system lets a setter read the file. -/
def Io.Opens (io : Io) : Prop := io.createDir = none ∧ io.read = none

section Store

variable {parse : List UInt8 → Except ConfigSetError Fields} {io : Io} {file : Option (List UInt8)}

theorem store_refuse (h : ¬(io.Opens ∧ ∃ map, file.elim (.ok []) parse = .ok map)) (key : String) (stored : Value)
    (echo : String) : ∃ e, store L parse io key stored echo file = (.error e, file) := by
  rw [store]
  rcases hdir : io.createDir with _ | e
  · rcases hread : io.read with _ | e
    · dsimp only
      rcases hmap : file.elim (.ok []) parse with e | map
      · rw [hmap]
        exact ⟨_, rfl⟩
      · exact absurd ⟨⟨hdir, hread⟩, map, hmap⟩ h
    · exact ⟨_, rfl⟩
  · exact ⟨_, rfl⟩

theorem store_tear (hio : io.Opens) {map : Fields} (hmap : file.elim (.ok []) parse = .ok map) {e : String}
    {left : Option (List UInt8)} (hwritten : io.written = .failed e left) (key : String) (stored : Value)
    (echo : String) : store L parse io key stored echo file = (.error (.io e), left) := by
  simp only [store, hio.1, hio.2, hmap, hwritten]

theorem store_put (hio : io.Opens) {map : Fields} (hmap : file.elim (.ok []) parse = .ok map)
    (hwritten : io.written = .done) (key : String) (stored : Value) (echo : String) :
    store L parse io key stored echo file = (.ok echo, some (L.print (Assoc.insert key stored map) ++ [10])) := by
  simp only [store, hio.1, hio.2, hmap, hwritten]

end Store

/-- A setting of `machine.json` that reaches the write. -/
def MachineReaches (s : Setting) (_ : Option (List UInt8)) : Prop := ValidMachine s.key s.value ∧ s.io.Opens

/-- The file that a setting of `machine.json` writes. -/
def machineAfter (s : Setting) (file : Option (List UInt8)) : List UInt8 :=
  L.print (Assoc.insert s.key (machineStored s.key s.value) (file.elim [] (machineMap L))) ++ [10]

theorem setMachineValue_spec : Setter.Spec (setMachineValue L) MachineReaches
    (fun s => machineEcho s.key s.value) (machineAfter L) := by
  have hmap : ∀ file : Option (List UInt8), file.elim (.ok []) (fun bytes => .ok (machineMap L bytes)) =
      (.ok (file.elim [] (machineMap L)) : Except ConfigSetError Fields) := fun file => by cases file <;> rfl
  refine ⟨fun s file hnot => ?_, fun s file e left hreaches hwritten => ?_, fun s file hreaches hwritten => ?_⟩
  · by_cases hvalid : ValidMachine s.key s.value
    · rw [setMachineValue_of_valid L hvalid]
      exact store_refuse L (fun h => hnot ⟨hvalid, h.1⟩) _ _ _
    · exact setMachineValue_of_not_valid L hvalid _ _
  · rw [setMachineValue_of_valid L hreaches.1, store_tear L hreaches.2 (hmap file) hwritten]
  · rw [setMachineValue_of_valid L hreaches.1, store_put L hreaches.2 (hmap file) hwritten, machineAfter]

/-- The values of a layer. -/
theorem layerOf_value (map : Fields) (k : String) : (layerOf map).value k =
    if k = "root" ∨ k = "format" then nonempty ((Assoc.get? k map).bind Value.asStr?) none
    else if k = "rebuild_on_open" then ((Assoc.get? k map).bind Value.asBool?).map boolText
    else none := by
  rw [Layer.value, layerOf]
  by_cases hroot : k = "root"
  · rw [if_pos hroot, if_pos (.inl hroot), hroot]
  by_cases hformat : k = "format"
  · rw [if_neg hroot, if_pos hformat, if_pos (.inr hformat), hformat]
  by_cases hrebuild : k = "rebuild_on_open"
  · rw [if_neg hroot, if_neg hformat, if_pos hrebuild, if_neg (not_or.mpr ⟨hroot, hformat⟩), if_pos hrebuild, hrebuild]
  · rw [if_neg hroot, if_neg hformat, if_neg hrebuild, if_neg (not_or.mpr ⟨hroot, hformat⟩), if_neg hrebuild]

/-- The text of a truth value is the text that it was read from. -/
theorem boolText_of_text {text : String} (h : text = "true" ∨ text = "false") : boolText (text = "true") = text := by
  rcases h with rfl | rfl <;> rfl

theorem layerOf_insert {key value : String} (h : ValidMachine key value) (map : Fields) (k : String) :
    (layerOf (Assoc.insert key (machineStored key value) map)).value k =
      if k = key then some (machineEcho key value) else (layerOf map).value k := by
  rw [layerOf_value, layerOf_value, Assoc.get?_insert]
  by_cases hk : k = key
  · subst hk
    rw [if_pos rfl, if_pos rfl]
    rcases h with ⟨rfl, hbool⟩ | ⟨hname, hne⟩
    · rw [if_neg (by decide), if_pos rfl]
      exact congrArg some (boolText_of_text hbool)
    · have hrebuild : k ≠ "rebuild_on_open" := by rcases hname with rfl | rfl <;> decide
      have hvalue : value ≠ "" := fun heq => hne (by rw [heq]; rfl)
      rw [if_pos hname, machineStored, if_neg hrebuild, machineEcho, if_neg hrebuild]
      exact if_neg hvalue
  · rw [if_neg hk, if_neg hk]

/-- What is stored for a key can be read. -/
theorem sound_machineStored (key value : String) (n : ℕ) : Sound n (machineStored key value) := by
  rw [machineStored]
  split_ifs
  · exact ⟨Value.wf_bool _, .bool n _⟩
  · exact .string n value

theorem readerMap_after {map : Fields} (h : Sound maxDepth (.object map)) (key : String) {stored : Value}
    (hstored : ∀ n, Sound n stored) : ¬bom <+: L.print (Assoc.insert key stored map) ++ [10] ∧
      readerMap L (L.print (Assoc.insert key stored map) ++ [10]) =
        Value.mapFloatsFields L.reparseFloat (Assoc.insert key stored map) := by
  have hparse := fromSlice_insert L h key hstored
  have hclean := not_bom_of_fromSlice L hparse
  refine ⟨hclean, ?_⟩
  rw [readerMap, stripBomBytes_of_not hclean, hparse]
  rfl

/-- After settings, the values of the layer are those that were echoed last, and of the other keys those of the map that
the setter sees. -/
theorem machine_run {file : Option (List UInt8)} {settings : List Setting}
    (huntorn : Untorn (setMachineValue L) MachineReaches file settings) :
    run (setMachineValue L) file settings = ⟨file, []⟩ ∨
      (run (setMachineValue L) file settings).echoes ≠ [] ∧ ∀ k,
        (readMachineLayer L (run (setMachineValue L) file settings).file).value k =
          ((run (setMachineValue L) file settings).echoes.lookup k).elim
            ((layerOf (file.elim [] (machineMap L))).value k) some := by
  have hinv := (setMachineValue_spec L).run_induction (P := fun r => r = ⟨file, []⟩ ∨
    r.echoes ≠ [] ∧ (∃ bytes, r.file = some bytes ∧ ¬bom <+: bytes) ∧ ∀ k, (readMachineLayer L r.file).value k =
      (r.echoes.lookup k).elim ((layerOf (file.elim [] (machineMap L))).value k) some) huntorn (.inl rfl) ?_
  · rcases hinv with h | ⟨hne, -, hvalues⟩
    · exact .inl h
    · exact .inr ⟨hne, hvalues⟩
  · rintro r s hr ⟨hvalid, -⟩ -
    have hsound : Sound maxDepth (.object (r.file.elim [] (machineMap L))) := by
      rcases r.file with _ | bytes
      · exact Sound.emptyObject 126
      · exact sound_machineMap L bytes
    obtain ⟨hclean, hmap⟩ := readerMap_after L hsound s.key (sound_machineStored s.key s.value)
    refine .inr ⟨List.cons_ne_nil _ _, ⟨_, rfl, hclean⟩, fun k => ?_⟩
    rw [readMachineLayer_eq, Option.elim_some, machineAfter, hmap, layerOf_mapFloats, layerOf_insert hvalid,
      List.lookup_cons]
    by_cases hk : k = s.key
    · subst hk
      rw [if_pos rfl, beq_self_eq_true]
      rfl
    · rw [if_neg hk, beq_eq_false_iff_ne.mpr hk]
      dsimp only
      rcases hr with rfl | ⟨-, ⟨bytes, hbytes, hnot⟩, hvalues⟩
      · rfl
      · rw [← hvalues k, readMachineLayer_eq, hbytes, Option.elim_some, Option.elim_some,
          machineMap_eq_readerMap L hnot]

/-- A setting of `machine.json` that is put in. -/
def MachineAccepts (s : Setting) : Prop := ValidMachine s.key s.value ∧ s.io.Opens ∧ s.io.written = .done

/-- The keys that are echoed are those of the settings that are put in. -/
theorem machine_echoes (file : Option (List UInt8)) (settings : List Setting) (k : String) :
    ((run (setMachineValue L) file settings).echoes.lookup k).isSome ↔
      ∃ s ∈ settings, MachineAccepts s ∧ s.key = k := by
  induction settings using List.reverseRecOn with
  | nil => simp [run_nil]
  | append_singleton settings s ih =>
    have hsplit : (∃ t ∈ settings ++ [s], MachineAccepts t ∧ t.key = k) ↔
        (∃ t ∈ settings, MachineAccepts t ∧ t.key = k) ∨ MachineAccepts s ∧ s.key = k := by
      simp only [List.mem_append, List.mem_singleton, or_and_right, exists_or, exists_eq_left]
    have spec := setMachineValue_spec L
    rw [hsplit, ← ih, run_concat, Run.step]
    by_cases hreaches : MachineReaches s (run (setMachineValue L) file settings).file
    · rcases hwritten : s.io.written with _ | ⟨detail, left⟩
      · have haccepts : MachineAccepts s := ⟨hreaches.1, hreaches.2, hwritten⟩
        rw [spec.put s _ hreaches hwritten, List.lookup_cons]
        by_cases hk : k = s.key
        · subst hk
          rw [beq_self_eq_true]
          exact iff_of_true rfl (.inr ⟨haccepts, rfl⟩)
        · rw [beq_eq_false_iff_ne.mpr hk, or_iff_left fun h => hk h.2.symm]
      · have hrefuses : ¬(MachineAccepts s ∧ s.key = k) := by
          rintro ⟨⟨-, -, hdone⟩, -⟩
          rw [hwritten] at hdone
          cases hdone
        rw [spec.tear s _ detail left hreaches hwritten, or_iff_left hrefuses]
    · have hrefuses : ¬(MachineAccepts s ∧ s.key = k) := fun h => hreaches ⟨h.1.1, h.1.2.1⟩
      obtain ⟨e, he⟩ := spec.refuse s _ hreaches
      rw [he, or_iff_left hrefuses]

/-- The setter sees the map that the readers see, or it changes nothing that they find. -/
def MachineKept (file : Option (List UInt8)) (settings : List Setting) : Prop :=
  (∀ bytes ∈ file, ¬bom <+: bytes) ∨ (∀ s ∈ settings, ¬MachineAccepts s) ∨
    ∀ k, ((readMachineLayer L file).value k).isSome → ∃ s ∈ settings, MachineAccepts s ∧ s.key = k

theorem machine_values_iff {file : Option (List UInt8)} {settings : List Setting}
    (huntorn : Untorn (setMachineValue L) MachineReaches file settings) :
    (∀ k, (readMachineLayer L (run (setMachineValue L) file settings).file).value k =
      ((run (setMachineValue L) file settings).echoes.lookup k).elim ((readMachineLayer L file).value k) some) ↔
      MachineKept L file settings := by
  have hechoes := machine_echoes L file settings
  rcases machine_run L huntorn with hsame | ⟨hne, hvalues⟩
  · rw [hsame] at hechoes ⊢
    refine iff_of_true (fun k => rfl) (.inr (.inl fun s hs haccepts => ?_))
    exact Bool.false_ne_true ((hechoes s.key).mpr ⟨s, hs, haccepts, rfl⟩)
  · by_cases hclean : ∀ bytes ∈ file, ¬bom <+: bytes
    · refine iff_of_true (fun k => ?_) (.inl hclean)
      rw [hvalues, readMachineLayer_eq]
      rcases file with _ | bytes
      · rfl
      · rw [Option.elim_some, Option.elim_some, machineMap_eq_readerMap L (hclean bytes rfl)]
    · have hmap : file.elim [] (machineMap L) = [] := by
        push Not at hclean
        obtain ⟨bytes, rfl, hbom⟩ := hclean
        exact machineMap_bom L hbom
      have hsome : ¬∀ s ∈ settings, ¬MachineAccepts s := by
        intro hnone
        obtain ⟨⟨k, echo⟩, rest, hcons⟩ := List.exists_cons_of_ne_nil hne
        obtain ⟨s, hs, haccepts, -⟩ := (hechoes k).mp (by rw [hcons, List.lookup_cons, beq_self_eq_true]; rfl)
        exact hnone s hs haccepts
      rw [MachineKept, or_iff_right hclean, or_iff_right hsome]
      refine forall_congr' fun k => ?_
      have hempty : (layerOf []).value k = none := by
        rw [layerOf_value]
        split_ifs <;> rfl
      rw [hvalues, hmap, hempty, ← hechoes k]
      rcases (run (setMachineValue L) file settings).echoes.lookup k with _ | echo
      · rw [Option.elim_none, Option.elim_none, Option.isSome_none, Option.isSome_iff_ne_none]
        exact ⟨fun h hr => absurd h.symm hr, fun h => (not_not.mp fun hr => Bool.false_ne_true (h (Ne.symm hr)))⟩
      · exact iff_of_true rfl fun _ => rfl

/-- Settings of `machine.json` are read back iff no write is torn, and the setter sees what the readers see. -/
theorem machine_readsBack_iff (file : Option (List UInt8)) (settings : List Setting) :
    ReadsBack (setMachineValue L) (fun file k => (readMachineLayer L file).value k) some file settings ↔
      Untorn (setMachineValue L) MachineReaches file settings ∧ MachineKept L file settings := by
  have hrefused := @Setter.Spec.refused_iff _ _ _ _ file settings (setMachineValue_spec L)
  constructor
  · intro h
    have huntorn := hrefused.mp h.refused
    exact ⟨huntorn, (machine_values_iff L huntorn).mp h.values⟩
  · rintro ⟨huntorn, hkept⟩
    exact ⟨(machine_values_iff L huntorn).mpr hkept, hrefused.mpr huntorn⟩

/-! ## The file of the user -/

theorem trim_trim (s : String) : trim (trim s) = trim s := by
  have hkept : ∀ cs : List Char, cs.dropWhile isWhitespace = cs →
      (cs.rdropWhile isWhitespace).dropWhile isWhitespace = cs.rdropWhile isWhitespace := by
    intro cs hcs
    obtain ⟨rest, hrest⟩ := List.rdropWhile_prefix isWhitespace (l := cs)
    rcases hfront : cs.rdropWhile isWhitespace with _ | ⟨c, front⟩
    · rfl
    · rw [hfront, List.cons_append] at hrest
      have hc : isWhitespace c = false := by
        by_contra hwhite
        rw [← hrest, List.dropWhile_cons_of_pos (Bool.not_eq_false _ ▸ hwhite)] at hcs
        have hlen := congrArg List.length hcs
        have hle := (List.dropWhile_suffix isWhitespace (l := front ++ rest)).length_le
        rw [List.length_cons] at hlen
        omega
      exact List.dropWhile_cons_of_neg (by rw [hc]; exact Bool.false_ne_true)
  rw [trim, trim, String.toList_ofList, hkept _ (List.dropWhile_idempotent _ _), List.rdropWhile_idempotent]

variable (env : String → Option String)

/-- What the file of the user holds: a map, or something that is none. -/
def userMap (file : Option (List UInt8)) : Except String Fields :=
  file.elim (.ok []) fun bytes => L.fromSliceMap (stripBomBytes bytes)

theorem sound_userMap {file : Option (List UInt8)} {map : Fields} (h : userMap L file = .ok map) :
    Sound maxDepth (.object map) := by
  rcases file with _ | bytes
  · obtain rfl := Except.ok.inj h
    exact Sound.emptyObject 126
  · exact L.sound_of_fromSlice ((fromSliceMap_eq_ok L).mp h)

/-- A value of the map of the user. -/
def globalField (map : Fields) (key : String) : Option String :=
  if key = "rebuild_on_open" then ((Assoc.get? key map).bind Value.asBool?).map boolText
  else (Assoc.get? key map).bind Value.asStr?

theorem getGlobalValue_of_map {path : String} (hpath : globalConfigPath env = .ok path) {file : Option (List UInt8)}
    {map : Fields} (hmap : userMap L file = .ok map) (key : String) : getGlobalValue env L file key =
      if isKey key = false then .error (.unknownKey key) else .ok (globalField map key) := by
  rw [getGlobalValue, hpath]
  by_cases hkey : isKey key = false
  · rw [if_pos hkey, if_pos hkey]
  · rw [if_neg hkey, if_neg hkey, globalField]
    rcases file with _ | bytes
    · obtain rfl := Except.ok.inj hmap
      split_ifs <;> rfl
    · have hparse := (fromSliceMap_eq_ok L).mp hmap
      dsimp only
      rw [hparse]
      dsimp only [Value.asObject?]
      split_ifs <;> rfl

/-- The root that a map of the user names. -/
def rootOf (configPath : String) (map : Fields) : Except RootResolutionError String :=
  match Assoc.get? "root" map with
  | none => .error .unconfigured
  | some root =>
    match (root.asStr?.map trim).filter (· ≠ "") with
    | some path => if isAbsolute path then .ok path else .error (.relativeGlobalRoot path)
    | none => .error (.corruptConfig configPath "'root' value must be a non-empty string")

/-- Neither the command line nor the environment names a root. -/
def Unset (cliRoot : Option String) : Prop :=
  cliRoot.filter (· ≠ "") = none ∧ ((env "INNEN_ROOT").map trim).filter (· ≠ "") = none

theorem resolveRoot_of_map {path : String} (hpath : globalConfigPath env = .ok path) {cliRoot : Option String}
    (hunset : Unset env cliRoot) {file : Option (List UInt8)} {map : Fields} (hmap : userMap L file = .ok map) :
    resolveRoot env L cliRoot file = rootOf path map := by
  rw [resolveRoot, hunset.1, hunset.2, hpath]
  rcases file with _ | bytes
  · obtain rfl := Except.ok.inj hmap
    rfl
  · have hparse := (fromSliceMap_eq_ok L).mp hmap
    dsimp only
    rw [hparse]
    rfl

theorem rootOf_mapFloats (path : String) (f : UInt64 → UInt64) (map : Fields) :
    rootOf path (Value.mapFloatsFields f map) = rootOf path map := by
  rw [rootOf, rootOf, get?_mapFloatsFields]
  rcases Assoc.get? "root" map with _ | root
  · rfl
  · rw [Option.map_some]
    dsimp only
    rw [asStr?_mapFloats]

/-- A key and a value that `set_global_value` accepts. -/
def ValidGlobal (key value : String) : Prop :=
  key = "rebuild_on_open" ∧ (asciiLower (trim value) = "true" ∨ asciiLower (trim value) = "false") ∨
    key = "format" ∧ trim value ≠ "" ∨ key = "root" ∧ trim value ≠ "" ∧ isAbsolute (trim value) = true

/-- What `set_global_value` echoes. -/
def globalEcho (key value : String) : String :=
  if key = "rebuild_on_open" then asciiLower (trim value) else trim value

/-- What `set_global_value` stores. -/
def globalStored (key value : String) : Value :=
  if key = "rebuild_on_open" then .bool (asciiLower (trim value) = "true") else .string (trim value)

/-- How `set_global_value` reads the file. -/
def globalParse (path : String) (bytes : List UInt8) : Except ConfigSetError Fields :=
  (L.fromSliceMap (stripBomBytes bytes)).mapError (.corruptGlobal path)

theorem setGlobalValue_of_valid {key value : String} (h : ValidGlobal key value) {path : String}
    (hpath : globalConfigPath env = .ok path) (io : Io) (file : Option (List UInt8)) :
    setGlobalValue env L io key value file = store L (globalParse L path) io key (globalStored key value)
      (globalEcho key value) file := by
  rw [setGlobalValue, hpath]
  dsimp only
  rcases h with ⟨rfl, hbool⟩ | ⟨rfl, hne⟩ | ⟨rfl, hne, habsolute⟩
  · rw [if_neg (by decide), if_neg (fun h => by simp at h), if_neg (fun h => hbool.elim h.2.1 h.2.2),
      if_neg (fun h => absurd h.1 (by decide))]
    rfl
  · rw [if_neg (by decide), if_neg (fun h => hne h.2), if_neg (fun h => absurd h.1 (by decide)),
      if_neg (fun h => absurd h.1 (by decide))]
    rfl
  · rw [if_neg (by decide), if_neg (fun h => hne h.2), if_neg (fun h => absurd h.1 (by decide)),
      if_neg (fun h => absurd h.2 (by rw [habsolute]; decide))]
    rfl

theorem setGlobalValue_of_not_valid {key value : String}
    (h : ¬(ValidGlobal key value ∧ ∃ path, globalConfigPath env = .ok path)) (io : Io) (file : Option (List UInt8)) :
    ∃ e, setGlobalValue env L io key value file = (.error e, file) := by
  rw [setGlobalValue]
  dsimp only
  by_cases hkey : isKey key = false
  · rw [if_pos hkey]
    exact ⟨_, rfl⟩
  rw [if_neg hkey]
  by_cases hempty : (key = "root" ∨ key = "format") ∧ trim value = ""
  · rw [if_pos hempty]
    exact ⟨_, rfl⟩
  rw [if_neg hempty]
  by_cases hbool : key = "rebuild_on_open" ∧ asciiLower (trim value) ≠ "true" ∧ asciiLower (trim value) ≠ "false"
  · rw [if_pos hbool]
    exact ⟨_, rfl⟩
  rw [if_neg hbool]
  by_cases habsolute : key = "root" ∧ isAbsolute (trim value) = false
  · rw [if_pos habsolute]
    exact ⟨_, rfl⟩
  rw [if_neg habsolute]
  rcases hpath : globalConfigPath env with e | path
  · exact ⟨_, rfl⟩
  · refine absurd ⟨?_, path, hpath⟩ h
    rcases isKey_iff.mp (Bool.not_eq_false _ ▸ hkey) with rfl | rfl | rfl
    · refine .inr (.inr ⟨rfl, fun hnil => hempty ⟨.inl rfl, hnil⟩, ?_⟩)
      by_contra hrelative
      exact habsolute ⟨rfl, Bool.eq_false_iff.mpr hrelative⟩
    · exact .inr (.inl ⟨rfl, fun hnil => hempty ⟨.inr rfl, hnil⟩⟩)
    · refine .inl ⟨rfl, ?_⟩
      by_contra hneither
      exact hbool ⟨rfl, not_or.mp hneither⟩

/-- A setting of the file of the user that reaches the write. -/
def GlobalReaches (s : Setting) (file : Option (List UInt8)) : Prop :=
  (ValidGlobal s.key s.value ∧ ∃ path, globalConfigPath env = .ok path) ∧ s.io.Opens ∧ ∃ map, userMap L file = .ok map

/-- The file that a setting of the user writes. -/
def globalAfter (s : Setting) (file : Option (List UInt8)) : List UInt8 :=
  L.print (Assoc.insert s.key (globalStored s.key s.value) ((userMap L file).toOption.getD [])) ++ [10]

theorem globalParse_eq (path : String) (file : Option (List UInt8)) :
    file.elim (.ok []) (globalParse L path) = (userMap L file).mapError (.corruptGlobal path) := by
  rcases file with _ | bytes <;> rfl

theorem setGlobalValue_spec : Setter.Spec (setGlobalValue env L) (GlobalReaches L env)
    (fun s => globalEcho s.key s.value) (globalAfter L) := by
  refine ⟨fun s file hnot => ?_, fun s file e left hreaches hwritten => ?_, fun s file hreaches hwritten => ?_⟩
  · by_cases hvalid : ValidGlobal s.key s.value ∧ ∃ path, globalConfigPath env = .ok path
    · obtain ⟨path, hpath⟩ := hvalid.2
      rw [setGlobalValue_of_valid L env hvalid.1 hpath]
      refine store_refuse L (fun h => hnot ⟨hvalid, h.1, ?_⟩) _ _ _
      obtain ⟨map, hmap⟩ := h.2
      rw [globalParse_eq] at hmap
      rcases hread : userMap L file with e | map
      · rw [hread] at hmap
        cases hmap
      · exact ⟨map, rfl⟩
    · exact setGlobalValue_of_not_valid L env hvalid _ _
  · obtain ⟨⟨hvalid, path, hpath⟩, hopens, map, hmap⟩ := hreaches
    have hparse : file.elim (.ok []) (globalParse L path) = .ok map := by
      rw [globalParse_eq, hmap]
      rfl
    rw [setGlobalValue_of_valid L env hvalid hpath, store_tear L hopens hparse hwritten]
  · obtain ⟨⟨hvalid, path, hpath⟩, hopens, map, hmap⟩ := hreaches
    have hparse : file.elim (.ok []) (globalParse L path) = .ok map := by
      rw [globalParse_eq, hmap]
      rfl
    rw [setGlobalValue_of_valid L env hvalid hpath, store_put L hopens hparse hwritten, globalAfter, hmap]
    exact Prod.ext rfl rfl

theorem sound_globalStored (key value : String) (n : ℕ) : Sound n (globalStored key value) := by
  rw [globalStored]
  split_ifs
  · exact ⟨Value.wf_bool _, .bool n _⟩
  · exact .string n _

theorem userMap_after {map : Fields} (h : Sound maxDepth (.object map)) (key : String) {stored : Value}
    (hstored : ∀ n, Sound n stored) : userMap L (some (L.print (Assoc.insert key stored map) ++ [10])) =
      .ok (Value.mapFloatsFields L.reparseFloat (Assoc.insert key stored map)) := by
  have hparse := fromSlice_insert L h key hstored
  rw [userMap, Option.elim_some, stripBomBytes_of_not (not_bom_of_fromSlice L hparse)]
  exact (fromSliceMap_eq_ok L).mpr hparse

theorem globalField_mapFloats (f : UInt64 → UInt64) (map : Fields) (key : String) :
    globalField (Value.mapFloatsFields f map) key = globalField map key := by
  rw [globalField, globalField, get?_mapFloatsFields, bind_asStr?_mapFloats, bind_asBool?_mapFloats]

theorem globalField_insert {key value : String} (h : ValidGlobal key value) (map : Fields) (k : String) :
    globalField (Assoc.insert key (globalStored key value) map) k =
      if k = key then some (globalEcho key value) else globalField map k := by
  rw [globalField, globalField, Assoc.get?_insert]
  by_cases hk : k = key
  · subst hk
    rw [if_pos rfl, if_pos rfl, globalStored, globalEcho]
    by_cases hrebuild : k = "rebuild_on_open"
    · have hbool : asciiLower (trim value) = "true" ∨ asciiLower (trim value) = "false" := by
        rcases h with ⟨-, hbool⟩ | ⟨rfl, -⟩ | ⟨rfl, -⟩
        · exact hbool
        · exact absurd hrebuild (by decide)
        · exact absurd hrebuild (by decide)
      rw [if_pos hrebuild, if_pos hrebuild, if_pos hrebuild]
      exact congrArg some (boolText_of_text hbool)
    · rw [if_neg hrebuild, if_neg hrebuild, if_neg hrebuild]
      rfl
  · rw [if_neg hk, if_neg hk]

/-- A root that is set is the one that is found. -/
theorem rootOf_insert {value : String} (h : ValidGlobal "root" value) (path : String) (map : Fields) :
    rootOf path (Assoc.insert "root" (globalStored "root" value) map) = .ok (globalEcho "root" value) := by
  rcases h with ⟨hname, -⟩ | ⟨hname, -⟩ | ⟨-, hne, habsolute⟩
  · exact absurd hname (by decide)
  · exact absurd hname (by decide)
  · have hfilter : ((some (trim value)).filter fun s => decide (s ≠ "")) = some (trim value) := by
      rw [Option.filter_some, if_pos (decide_eq_true hne)]
    rw [rootOf, Assoc.get?_insert_self, globalStored, globalEcho, if_neg (by decide), if_neg (by decide)]
    dsimp only
    rw [Value.asStr?_string, Option.map_some, trim_trim, hfilter]
    exact if_pos habsolute

theorem rootOf_insert_of_ne {key : String} (h : key ≠ "root") (stored : Value) (path : String) (map : Fields) :
    rootOf path (Assoc.insert key stored map) = rootOf path map := by
  rw [rootOf, rootOf, Assoc.get?_insert_ne h.symm]

/-- Settings of the file of the user are read back, and so is the root, iff no write is torn. -/
theorem global_readsBack_iff (file : Option (List UInt8)) (settings : List Setting) :
    (ReadsBack (setGlobalValue env L) (getGlobalValue env L) (fun echo => .ok (some echo)) file settings ∧
      ∀ cliRoot, Unset env cliRoot → resolveRoot env L cliRoot (run (setGlobalValue env L) file settings).file =
        ((run (setGlobalValue env L) file settings).echoes.lookup "root").elim (resolveRoot env L cliRoot file) .ok) ↔
      Untorn (setGlobalValue env L) (GlobalReaches L env) file settings := by
  have spec := setGlobalValue_spec L env
  have hrefused := @Setter.Spec.refused_iff _ _ _ _ file settings spec
  constructor
  · exact fun h => hrefused.mp h.1.refused
  · intro huntorn
    have hinv := spec.run_induction (P := fun r =>
      (∀ k, getGlobalValue env L r.file k =
        (r.echoes.lookup k).elim (getGlobalValue env L file k) fun echo => .ok (some echo)) ∧
      ∀ cliRoot, Unset env cliRoot → resolveRoot env L cliRoot r.file =
        (r.echoes.lookup "root").elim (resolveRoot env L cliRoot file) .ok) huntorn
      ⟨fun _ => rfl, fun _ _ => rfl⟩ ?_
    · exact ⟨⟨hinv.1, hrefused.mpr huntorn⟩, hinv.2⟩
    · rintro r s ⟨hvalues, hroot⟩ ⟨⟨hvalid, path, hpath⟩, -, map, hmap⟩ -
      have hafter := userMap_after L (sound_userMap L hmap) s.key (sound_globalStored s.key s.value)
      have hfile : globalAfter L s r.file =
          L.print (Assoc.insert s.key (globalStored s.key s.value) map) ++ [10] := by
        rw [globalAfter, hmap]
        rfl
      refine ⟨fun k => ?_, fun cliRoot hunset => ?_⟩
      · have hget := hvalues k
        rw [getGlobalValue_of_map L env hpath hmap] at hget
        rw [hfile, getGlobalValue_of_map L env hpath hafter, globalField_mapFloats, globalField_insert hvalid,
          List.lookup_cons]
        by_cases hk : k = s.key
        · have hkey : isKey s.key = true := by
            rcases hvalid with ⟨h, -⟩ | ⟨h, -⟩ | ⟨h, -⟩ <;> rw [h] <;> decide
          rw [hk, hkey, if_neg (by decide), if_pos rfl, beq_self_eq_true]
          rfl
        · rw [if_neg hk, beq_eq_false_iff_ne.mpr hk]
          exact hget
      · have hbefore := hroot cliRoot hunset
        rw [resolveRoot_of_map L env hpath hunset hmap] at hbefore
        rw [hfile, resolveRoot_of_map L env hpath hunset hafter, rootOf_mapFloats, List.lookup_cons]
        by_cases hk : s.key = "root"
        · rw [hk] at hvalid ⊢
          rw [rootOf_insert hvalid, beq_self_eq_true]
          rfl
        · rw [rootOf_insert_of_ne hk, beq_eq_false_iff_ne.mpr (Ne.symm hk)]
          exact hbefore

/-! ## Both files -/

/-- Settings of `machine.json` are read back. -/
def MachineReadsBack (file : Option (List UInt8)) (settings : List Setting) : Prop :=
  ReadsBack (setMachineValue L) (fun file k => (readMachineLayer L file).value k) some file settings

/-- Settings of the file of the user are read back, and so is the root. -/
def GlobalReadsBack (file : Option (List UInt8)) (settings : List Setting) : Prop :=
  ReadsBack (setGlobalValue env L) (getGlobalValue env L) (fun echo => .ok (some echo)) file settings ∧
    ∀ cliRoot, Unset env cliRoot → resolveRoot env L cliRoot (run (setGlobalValue env L) file settings).file =
      ((run (setGlobalValue env L) file settings).echoes.lookup "root").elim (resolveRoot env L cliRoot file) .ok

/-- Settings are read back iff no write is torn, and the setter of `machine.json` loses no value behind a byte order
mark. -/
theorem settings_read_back_iff :
    (∀ file settings, MachineReadsBack L file settings ↔
      Untorn (setMachineValue L) MachineReaches file settings ∧ MachineKept L file settings) ∧
    ∀ file settings, GlobalReadsBack L env file settings ↔
      Untorn (setGlobalValue env L) (GlobalReaches L env) file settings :=
  ⟨machine_readsBack_iff L, global_readsBack_iff L env⟩

/-- Bytes without a newline at their end. -/
def dropNewline (bytes : List UInt8) : List UInt8 := if bytes.getLast? = some 10 then bytes.dropLast else bytes

theorem textBytes_object (fields : Fields) : ∃ rest, textBytes (.object fields) = 123 :: rest := by
  have hbrace : "\x7b".toByteArray.data.toList = [123] := by decide
  rw [textBytes, Value.toText, String.append_assoc, String.toByteArray_append, ByteArray.data_append,
    Array.toList_append, hbrace]
  exact ⟨_, rfl⟩

/-- A library that reads a file when it is the text of a value, with a newline behind it or without. -/
noncomputable def fileLibrary : Library where
  fromSlice bytes :=
    if bom <+: bytes then .error "expected value at line 1 column 1"
    else (Hook.textLibrary.parse (dropNewline bytes)).elim (.error "expected value at line 1 column 1") .ok
  invalidType _ := "invalid type: expected a map"
  print fields := textBytes (.object fields)
  reparseFloat bits := bits
  sound_of_fromSlice := by
    intro bytes v h
    split_ifs at h
    rcases hparse : Hook.textLibrary.parse (dropNewline bytes) with _ | w
    · rw [hparse] at h
      cases h
    · rw [hparse] at h
      obtain rfl := Except.ok.inj h
      exact ⟨Hook.textLibrary.wf_of_parse hparse, Hook.textLibrary.readable_of_parse hparse⟩
  fromSlice_print := by
    intro fields h
    obtain ⟨rest, hrest⟩ := textBytes_object fields
    have hclean : ¬bom <+: textBytes (.object fields) ++ [10] := by
      rw [hrest, List.cons_append, bom, List.cons_prefix_cons]
      exact fun h => absurd h.1 (by decide)
    have hdrop : dropNewline (textBytes (.object fields) ++ [10]) = textBytes (.object fields) := by
      rw [dropNewline, List.getLast?_concat, if_pos rfl, List.dropLast_concat]
    have hparse : Hook.textLibrary.parse (textBytes (.object fields)) =
        some ((Value.object fields).mapFloats fun bits => bits) := Hook.textLibrary.parse_pretty h.wf h.readable
    rw [if_neg hclean, hdrop, hparse]
    rfl
  fromSlice_bom rest := ⟨_, if_pos (List.prefix_append _ _)⟩

/-- A file with a byte order mark before it. -/
def markedFile : List UInt8 := bom ++ textBytes (.object [("format", .string "json")])

/-- A value is lost behind a byte order mark. -/
theorem marked_value_lost : ¬∀ (L : Library) (env : String → Option String) (file : Option (List UInt8))
    (settings : List Setting), MachineReadsBack L file settings ∧ GlobalReadsBack L env file settings := by
  intro h
  let s : Setting := ⟨"root", "/kb", ⟨none, none, .done⟩⟩
  have hvalid : MachineAccepts s := ⟨.inr ⟨.inl rfl, by decide⟩, ⟨rfl, rfl⟩, rfl⟩
  obtain ⟨-, hkept⟩ := (machine_readsBack_iff fileLibrary _ _).mp (h fileLibrary (fun _ => none) (some markedFile) [s]).1
  have hread : fileLibrary.fromSlice (textBytes (.object [("format", .string "json")])) =
      .ok (.object [("format", .string "json")]) := by
    have hclean : ¬bom <+: textBytes (.object [("format", .string "json")]) := by
      obtain ⟨rest, hrest⟩ := textBytes_object [("format", .string "json")]
      rw [hrest, bom, List.cons_prefix_cons]
      exact fun h => absurd h.1 (by decide)
    have hdrop : dropNewline (textBytes (.object [("format", .string "json")])) =
        textBytes (.object [("format", .string "json")]) := if_neg (by decide +kernel)
    have hsound : Sound maxDepth (.object [("format", .string "json")]) :=
      (Sound.emptyObject 126).set (Sound.string 126 "json")
    have hparse : Hook.textLibrary.parse (textBytes (.object [("format", .string "json")])) =
        some ((Value.object [("format", .string "json")]).mapFloats fun bits => bits) :=
      Hook.textLibrary.parse_pretty hsound.wf hsound.readable
    rw [fileLibrary]
    dsimp only
    rw [if_neg hclean, hdrop, hparse]
    rfl
  have hformat : (readMachineLayer fileLibrary (some markedFile)).value "format" = some "json" := by
    rw [readMachineLayer_eq, Option.elim_some, readerMap, markedFile, stripBomBytes_bom, hread]
    rfl
  rcases hkept with hclean | hnone | hset
  · exact hclean _ rfl (List.prefix_append _ _)
  · exact hnone s (List.mem_singleton_self _) hvalid
  · obtain ⟨t, ht, -, hkey⟩ := hset "format" (by rw [hformat]; rfl)
    rw [List.mem_singleton.mp ht] at hkey
    exact absurd hkey (by decide)

end Innen.Config
