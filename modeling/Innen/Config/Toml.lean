import Innen.Common.Text
import Mathlib.Data.Bool.AllAny

/-!
# Flat TOML

A line `key = "value"` is read by hand: what is behind a hash outside double quotes is a comment, and in double quotes a
backslash stands before a backslash or a double quote. The layered reader keeps a few keys of its sections, the
other one every key. Both give back a value that was escaped, whatever is in it and in the comment behind it
(`quoted_values_read`).
-/

namespace Innen.Config

open Common

/-! ## The two readers -/

/-- The characters of a line up to a hash outside double quotes, if there is one. -/
def untilComment : Bool → List Char → Option (List Char)
  | _, [] => none
  | true, ['\\'] => none
  | true, '\\' :: c :: rest => (untilComment true rest).map ('\\' :: c :: ·)
  | inQuotes, c :: rest =>
    if c = '"' then (untilComment (!inQuotes) rest).map (c :: ·)
    else if c = '#' ∧ inQuotes = false then some []
    else (untilComment inQuotes rest).map (c :: ·)

/-- `str::trim_end`. -/
def trimEnd (s : String) : String := String.ofList (s.toList.rdropWhile isWhitespace)

/-- `strip_comment`. -/
def stripComment (line : String) : String :=
  match untilComment false line.toList with
  | some front => trimEnd (String.ofList front)
  | none => line

/-- The loop of `unquote`. -/
def unescape : List Char → Option (List Char)
  | [] => some []
  | '\\' :: [] => none
  | '\\' :: c :: rest => if c = '\\' ∨ c = '"' then (unescape rest).map (c :: ·) else none
  | c :: rest => if c = '"' then none else (unescape rest).map (c :: ·)

/-- `unquote`. -/
def unquote (value : String) : Option String := do
  let inner ← stripEnd (← stripStart value "\"") "\""
  return String.ofList (← unescape inner.toList)

/-- The byte order mark, which a reader takes off the text. -/
def stripBom (text : String) : String := (stripStart text "\uFEFF").getD text

/-- Set a key, at its place if it is there already. -/
def setEntry (key value : String) : List (String × String) → List (String × String)
  | [] => [(key, value)]
  | entry :: rest => if entry.1 = key then (entry.1, value) :: rest else entry :: setEntry key value rest

/-- A line of `string_entries`. -/
def entryLine (out : List (String × String)) (raw : String) : List (String × String) :=
  let line := trim (stripComment raw)
  if line = "" ∨ startsWith line "[" then out
  else
    match splitOnce line "=" with
    | none => out
    | some (key, value) =>
      match unquote (trim value) with
      | none => out
      | some value => setEntry (trim key) value out

/-- `string_entries`. -/
def stringEntries (text : String) : List (String × String) := (lines (stripBom text)).foldl entryLine []

/-- `Section`. -/
inductive Section
  | core
  | index
  | other
deriving DecidableEq

/-- `Layer`. -/
structure Layer where
  root : Option String
  format : Option String
  rebuildOnOpen : Option Bool
deriving DecidableEq

/-- `Layer::default`. -/
def Layer.empty : Layer := ⟨none, none, none⟩

/-- What a text value sets: nothing if it is empty or no text. -/
def nonempty (value : Option String) (old : Option String) : Option String :=
  match value with
  | some s => if s = "" then old else some s
  | none => old

/-- The section that a header begins. -/
def headerSection (line : String) : Section :=
  if line.toList.getLast? = some ']' then
    let name := trim (String.ofList (line.toList.drop 1).dropLast)
    if name = "core" then .core else if name = "index" then .index else .other
  else .other

/-- A line of `parse_toml_text`. -/
def layerLine (state : Option Section × Layer) (raw : String) : Option Section × Layer :=
  let line := trim (stripComment raw)
  if line = "" then state
  else if startsWith line "[" then (some (headerSection line), state.2)
  else
    match splitOnce line "=" with
    | none => state
    | some (key, value) =>
      let layer := state.2
      if state.1 = some .core ∧ trim key = "root" then
        (state.1, { layer with root := nonempty (unquote (trim value)) layer.root })
      else if state.1 = some .core ∧ trim key = "format" then
        (state.1, { layer with format := nonempty (unquote (trim value)) layer.format })
      else if state.1 = some .index ∧ trim key = "rebuild_on_open" then
        if trim value = "true" then (state.1, { layer with rebuildOnOpen := some true })
        else if trim value = "false" then (state.1, { layer with rebuildOnOpen := some false })
        else state
      else state

/-- What `parse_toml_text` has read of a text: the section it is in, and the layer. -/
def readLayer (text : String) : Option Section × Layer := (lines (stripBom text)).foldl layerLine (none, .empty)

/-- `parse_toml_text`. -/
def parseTomlText (text : String) : Layer := (readLayer text).2

/-! ## Lines with a quoted value -/

/-- A value with its backslashes and double quotes escaped. -/
def escapeValue (cs : List Char) : List Char := cs.flatMap fun c => if c = '\\' ∨ c = '"' then ['\\', c] else [c]

/-- The line that sets a key to a value, with a comment behind it. -/
def quotedLine (key value comment : String) : String :=
  key ++ " = \"" ++ String.ofList (escapeValue value.toList) ++ "\" #" ++ comment

/-- A key as it stands in front of an equals sign. -/
structure FlatKey (key : String) : Prop where
  ne_empty : key ≠ ""
  trimmed : trim key = key
  chars : ∀ c ∈ key.toList, c ∉ ['=', '#', '"', '\n']
  first : key.toList.head? ≠ some '[' ∧ key.toList.head? ≠ some '\uFEFF'

theorem escapeValue_cons (c : Char) (cs : List Char) :
    escapeValue (c :: cs) = (if c = '\\' ∨ c = '"' then ['\\', c] else [c]) ++ escapeValue cs := List.flatMap_cons

theorem untilComment_quote (inQuotes : Bool) (rest : List Char) :
    untilComment inQuotes ('"' :: rest) = (untilComment (!inQuotes) rest).map ('"' :: ·) := by
  cases inQuotes <;> simp [untilComment]

theorem untilComment_plain {cs : List Char} (h : ∀ c ∈ cs, c ≠ '"' ∧ c ≠ '#') (rest : List Char) :
    untilComment false (cs ++ rest) = (untilComment false rest).map (cs ++ ·) := by
  induction cs with
  | nil => simp
  | cons c cs ih =>
    obtain ⟨hquote, hhash⟩ := h c List.mem_cons_self
    rw [List.cons_append, untilComment, ih fun d hd => h d (List.mem_cons_of_mem _ hd)]
    · simp [hquote, hhash, Function.comp_def]
    · simp
    · simp

/-- An escaped value is read to its closing double quote, and no hash in it begins a comment. -/
theorem untilComment_value (cs rest : List Char) :
    untilComment true (escapeValue cs ++ '"' :: rest) =
      (untilComment false rest).map fun front => escapeValue cs ++ '"' :: front := by
  induction cs with
  | nil => exact untilComment_quote true rest
  | cons c cs ih =>
    rw [escapeValue_cons]
    split_ifs with hescaped
    · rw [List.append_assoc, List.cons_append, List.singleton_append, untilComment, ih, Option.map_map]
      rfl
    · obtain ⟨hback, hquote⟩ := not_or.mp hescaped
      rw [List.append_assoc, List.singleton_append, untilComment, ih]
      · simp [hquote, Function.comp_def]
      · simp [hback]
      · simp [hback]

/-- An escaped value is read back. -/
theorem unescape_escapeValue (cs : List Char) : unescape (escapeValue cs) = some cs := by
  induction cs with
  | nil => rfl
  | cons c cs ih =>
    rw [escapeValue_cons]
    split_ifs with hescaped
    · rw [List.cons_append, List.singleton_append, unescape, if_pos hescaped, ih]
      rfl
    · obtain ⟨hback, hquote⟩ := not_or.mp hescaped
      rw [List.singleton_append, unescape, if_neg hquote, ih]
      · rfl
      · simp [hback]
      · simp [hback]

/-! ## Trimming and splitting -/

theorem splitOnce_eq {s : String} {front rest : List Char} (hs : s.toList = front ++ '=' :: rest)
    (hfront : '=' ∉ front) :
    splitOnce s "=" = some (String.ofList front, String.ofList rest) := by
  have hchars : ∀ front : List Char, '=' ∉ front →
      splitOnceChars ['='] (front ++ '=' :: rest) = some (front, rest) := by
    intro front hfront
    induction front with
    | nil => simp [splitOnceChars]
    | cons c front ih =>
      obtain ⟨hc, hfront⟩ := not_or.mp (List.mem_cons.not.mp hfront)
      rw [List.cons_append, splitOnceChars, ih hfront]
      simp [hc]
  rw [splitOnce, hs]
  exact congrArg (Option.map _) (hchars front hfront)

theorem FlatKey.exists_cons {key : String} (h : FlatKey key) :
    ∃ c cs, key.toList = c :: cs ∧ isWhitespace c = false := by
  obtain ⟨c, cs, hkey⟩ := List.exists_cons_of_ne_nil fun hnil => h.ne_empty (String.toList_eq_nil_iff.mp hnil)
  refine ⟨c, cs, hkey, Bool.eq_false_iff.mpr fun hblank => ?_⟩
  have htrim := congrArg (fun s => s.toList.length) h.trimmed
  simp only [trim, String.toList_ofList, hkey, List.dropWhile_cons_of_pos hblank] at htrim
  have hright := (List.rdropWhile_prefix isWhitespace (cs.dropWhile isWhitespace)).length_le
  have hleft := (List.dropWhile_suffix isWhitespace (l := cs)).length_le
  rw [htrim, List.length_cons] at hright
  omega

/-- A blank behind a key is trimmed. -/
theorem FlatKey.trim_blank {key : String} (h : FlatKey key) : trim (String.ofList (key.toList ++ [' '])) = key := by
  obtain ⟨c, cs, hkey, hc⟩ := h.exists_cons
  have htrim := h.trimmed
  rw [trim, hkey, List.dropWhile_cons_of_neg (by simp [hc])] at htrim
  rw [trim, String.toList_ofList, hkey, List.cons_append, List.dropWhile_cons_of_neg (by simp [hc]), ← List.cons_append,
    List.rdropWhile_concat_pos _ _ _ (by decide), htrim]

/-- A quoted value with a blank in front of it is trimmed to its quotes. -/
theorem trim_value (cs : List Char) :
    trim (String.ofList (' ' :: '"' :: (cs ++ ['"']))) = String.ofList ('"' :: (cs ++ ['"'])) := by
  have hinner : trim (String.ofList ('"' :: (cs ++ ['"']))) = String.ofList ('"' :: (cs ++ ['"'])) :=
    trim_of_ends (String.toList_ofList) (by decide) (by decide)
  rw [trim, String.toList_ofList, List.dropWhile_cons_of_pos (by decide)]
  rwa [trim, String.toList_ofList] at hinner

theorem unquote_value (value : String) :
    unquote (String.ofList ('"' :: (escapeValue value.toList ++ ['"']))) = some value := by
  have hstart : stripStart (String.ofList ('"' :: (escapeValue value.toList ++ ['"']))) "\"" =
      some (String.ofList (escapeValue value.toList ++ ['"'])) := by
    have hprefix : startsWith (String.ofList ('"' :: (escapeValue value.toList ++ ['"']))) "\"" = true := by
      simp [startsWith]
    rw [stripStart, if_pos hprefix, String.toList_ofList]
    rfl
  have hend : stripEnd (String.ofList (escapeValue value.toList ++ ['"'])) "\"" =
      some (String.ofList (escapeValue value.toList)) := by
    have hsuffix : "\"".toList.isSuffixOf (escapeValue value.toList ++ ['"']) = true :=
      List.isSuffixOf_iff_suffix.mpr ⟨_, rfl⟩
    have hlen : (String.ofList (escapeValue value.toList ++ ['"'])).length - "\"".length =
        (escapeValue value.toList).length := by
      rw [← String.length_toList, String.toList_ofList, List.length_append]
      rfl
    rw [stripEnd, hlen, String.toList_ofList (l := escapeValue value.toList ++ ['"']), if_pos hsuffix, List.take_left]
  simp only [unquote, hstart, hend, Option.bind_eq_bind, Option.bind_some, String.toList_ofList, unescape_escapeValue,
    Option.pure_def, String.ofList_toList]

/-! ## Reading a quoted line -/

/-- A quoted line without its comment. -/
def bareLine (key value : String) : String :=
  String.ofList (key.toList ++ [' '] ++ '=' :: ' ' :: '"' :: (escapeValue value.toList ++ ['"']))

theorem trim_stripComment_quotedLine {key : String} (h : FlatKey key) (value comment : String) :
    trim (stripComment (quotedLine key value comment)) = bareLine key value := by
  have hline : (quotedLine key value comment).toList = (key.toList ++ " = ".toList) ++
      '"' :: (escapeValue value.toList ++ '"' :: ([' '] ++ '#' :: comment.toList)) := by
    simp [quotedLine, String.toList_append]
  have hmiddle : ∀ c ∈ " = ".toList, c ≠ '"' ∧ c ≠ '#' := List.all_iff_forall_prop.mp (by decide)
  have hplain : ∀ c ∈ key.toList ++ " = ".toList, c ≠ '"' ∧ c ≠ '#' := by
    intro c hc
    rcases List.mem_append.mp hc with hc | hc
    · have hchars := h.chars c hc
      simp only [List.mem_cons, List.not_mem_nil, or_false, not_or] at hchars
      exact ⟨hchars.2.2.1, hchars.2.1⟩
    · exact hmiddle c hc
  have hcut : untilComment false (quotedLine key value comment).toList =
      some (key.toList ++ " = ".toList ++ '"' :: (escapeValue value.toList ++ '"' :: [' '])) := by
    rw [hline, untilComment_plain hplain, untilComment_quote, Bool.not_false, untilComment_value]
    rfl
  have hfront : key.toList ++ " = ".toList ++ '"' :: (escapeValue value.toList ++ '"' :: [' ']) =
      (key.toList ++ [' '] ++ '=' :: ' ' :: '"' :: (escapeValue value.toList ++ ['"'])) ++ [' '] := by
    simp
  have hstrip : stripComment (quotedLine key value comment) = bareLine key value := by
    rw [stripComment, hcut]
    dsimp only
    rw [hfront, trimEnd, String.toList_ofList, List.rdropWhile_concat_pos _ _ _ (by decide), bareLine]
    congr 1
    have hends : key.toList ++ [' '] ++ '=' :: ' ' :: '"' :: (escapeValue value.toList ++ ['"']) =
        (key.toList ++ [' '] ++ '=' :: ' ' :: '"' :: escapeValue value.toList) ++ ['"'] := by simp
    rw [hends, List.rdropWhile_concat_neg _ _ _ (by decide)]
  obtain ⟨c, cs, hkey, hc⟩ := h.exists_cons
  have hbare : (bareLine key value).toList =
      c :: ((cs ++ [' '] ++ '=' :: ' ' :: '"' :: escapeValue value.toList) ++ ['"']) := by
    rw [bareLine, String.toList_ofList, hkey]
    simp
  rw [hstrip, trim_of_ends hbare hc (by decide)]

/-- The first equals sign of a quoted line is the one behind its key. -/
theorem splitOnce_bareLine {key : String} (h : FlatKey key) (value : String) :
    splitOnce (bareLine key value) "=" = some (String.ofList (key.toList ++ [' ']),
      String.ofList (' ' :: '"' :: (escapeValue value.toList ++ ['"']))) := by
  refine splitOnce_eq String.toList_ofList fun hmem => ?_
  rcases List.mem_append.mp hmem with hmem | hmem
  · exact h.chars _ hmem (by decide)
  · exact absurd hmem (by decide)

theorem bareLine_head {key : String} (h : FlatKey key) (value : String) :
    bareLine key value ≠ "" ∧ startsWith (bareLine key value) "[" = false := by
  obtain ⟨c, cs, hkey, -⟩ := h.exists_cons
  have hfirst : c ≠ '[' := fun hc => h.first.1 (by rw [hkey, hc]; rfl)
  refine ⟨fun hempty => ?_, ?_⟩
  · have hlist := congrArg String.toList hempty
    rw [bareLine, String.toList_ofList, hkey] at hlist
    exact absurd hlist (by simp)
  · rw [startsWith, bareLine, String.toList_ofList, hkey]
    simp [List.isPrefixOf, Ne.symm hfirst]

/-- The flat reader sets the key to the value. -/
theorem entryLine_quotedLine {key : String} (h : FlatKey key) (value comment : String) (out : List (String × String)) :
    entryLine out (quotedLine key value comment) = setEntry key value out := by
  obtain ⟨hempty, hheader⟩ := bareLine_head h value
  simp only [entryLine, trim_stripComment_quotedLine h, hempty, hheader, splitOnce_bareLine h, trim_value,
    unquote_value, h.trim_blank, false_or, Bool.false_eq_true, if_false]

/-- So does the layered reader in its section, with the keys it knows. -/
theorem layerLine_quotedLine {key : String} (h : FlatKey key) {value : String} (hvalue : value ≠ "") (comment : String)
    {state : Option Section × Layer} (hcore : state.1 = some .core) :
    (key = "root" → (layerLine state (quotedLine key value comment)).2.root = some value) ∧
    (key = "format" → (layerLine state (quotedLine key value comment)).2.format = some value) := by
  obtain ⟨hempty, hheader⟩ := bareLine_head h value
  have hline : layerLine state (quotedLine key value comment) =
      if key = "root" then (some .core, { state.2 with root := some value })
      else if key = "format" then (some .core, { state.2 with format := some value }) else state := by
    simp only [layerLine, trim_stripComment_quotedLine h, hempty, hheader, splitOnce_bareLine h, trim_value,
      unquote_value, h.trim_blank, nonempty, hvalue, hcore, Bool.false_eq_true, if_false, true_and, reduceCtorEq,
      Option.some.injEq, false_and]
  rw [hline]
  refine ⟨fun hroot => ?_, fun hformat => ?_⟩
  · rw [if_pos hroot]
  · rw [if_neg (by rw [hformat]; decide), if_pos hformat]

theorem lookup_setEntry (key value : String) (out : List (String × String)) :
    (setEntry key value out).lookup key = some value := by
  induction out with
  | nil => simp [setEntry]
  | cons entry out ih =>
    rw [setEntry]
    split_ifs with hkey
    · rw [List.lookup_cons, beq_iff_eq.mpr hkey.symm]
    · rw [List.lookup_cons, beq_eq_false_iff_ne.mpr fun heq => hkey heq.symm]
      exact ih

/-! ## Reading a text -/

theorem toList_stripBom (s : String) :
    (stripBom s).toList = if s.toList.head? = some '\uFEFF' then s.toList.tail else s.toList := by
  rw [stripBom, stripStart]
  cases hs : s.toList with
  | nil => simp [startsWith, hs]
  | cons c cs =>
    by_cases hc : c = '\uFEFF'
    · rw [startsWith, hs, hc, if_pos (by simp), Option.getD_some, String.toList_ofList]
      rfl
    · rw [startsWith, hs, if_neg (by simpa using Ne.symm hc), Option.getD_none, hs, if_neg (by simpa using hc)]

/-- What stands behind a text does not change that its mark is taken off. -/
theorem stripBom_append {s t : String} (ht : t.toList.head? ≠ some '\uFEFF') : stripBom (s ++ t) = stripBom s ++ t := by
  apply String.toList_inj.mp
  rw [String.toList_append, toList_stripBom, toList_stripBom, String.toList_append]
  cases s.toList with
  | nil => rw [List.nil_append, if_neg ht, if_neg (by simp), List.nil_append]
  | cons c cs => split_ifs <;> simp_all

theorem terminated_stripBom {s : String} (h : Terminated '\n' s.toList) : Terminated '\n' (stripBom s).toList := by
  rw [toList_stripBom]
  split_ifs
  · cases hs : s.toList with
    | nil => exact terminated_nil '\n'
    | cons c cs => exact (hs ▸ h).of_cons
  · exact h

/-- A carriage return at the end of a quoted line is one of its comment. -/
theorem stripCr_quotedLine (key value comment : String) :
    ∃ kept, stripCr (quotedLine key value comment) = quotedLine key value kept := by
  have hline : ∀ comment, (quotedLine key value comment).toList = (quotedLine key value "").toList ++ comment.toList :=
    fun comment => by rw [quotedLine, quotedLine, String.toList_append, String.append_empty]
  have hhash : (quotedLine key value "").toList.getLast? = some '#' := by
    have hends : (quotedLine key value "").toList =
        (key ++ " = \"" ++ String.ofList (escapeValue value.toList) ++ "\" ").toList ++ ['#'] := by
      simp [quotedLine, String.toList_append]
    rw [hends, List.getLast?_concat]
  rw [stripCr]
  split_ifs with hlast
  · have hne : comment.toList ≠ [] := fun hnil => by
      rw [hline, hnil, List.append_nil, hhash] at hlast
      exact absurd hlast (by decide)
    refine ⟨String.ofList comment.toList.dropLast, ?_⟩
    rw [hline comment, List.dropLast_append_of_ne_nil hne]
    apply String.toList_inj.mp
    rw [hline (String.ofList comment.toList.dropLast), String.toList_ofList, String.toList_ofList]
  · exact ⟨comment, String.ofList_toList⟩

theorem newline_not_mem_quotedLine {key value comment : String} (hkey : FlatKey key) (hvalue : '\n' ∉ value.toList)
    (hcomment : '\n' ∉ comment.toList) : '\n' ∉ (quotedLine key value comment).toList := by
  have hescaped : '\n' ∉ escapeValue value.toList := by
    intro hmem
    obtain ⟨c, hc, hmem⟩ := List.mem_flatMap.mp hmem
    split_ifs at hmem with hback
    · rcases List.mem_cons.mp hmem with heq | hmem
      · exact absurd heq (by decide)
      · exact hvalue (List.mem_singleton.mp hmem ▸ hc)
    · exact hvalue (List.mem_singleton.mp hmem ▸ hc)
  have hnewline : '\n' ∉ key.toList := fun hmem => hkey.chars _ hmem (by decide)
  simp [quotedLine, String.toList_append, hescaped, hnewline, hcomment]

/-- A quoted line at the end of a text is its last line, with another comment at most. -/
theorem lines_quotedLine {key value comment ending : String} (hkey : FlatKey key) (hvalue : '\n' ∉ value.toList)
    (hcomment : '\n' ∉ comment.toList) (hending : ending = "" ∨ ending = "\n") :
    ∃ kept, lines (quotedLine key value comment ++ ending) = [quotedLine key value kept] := by
  have hnewline := newline_not_mem_quotedLine hkey hvalue hcomment
  rcases hending with rfl | rfl
  · have hne : quotedLine key value comment ≠ "" := fun hempty => by
      have hlength := congrArg String.length hempty
      simp [quotedLine, String.length_append] at hlength
    exact ⟨comment, by rw [String.append_empty, lines_of_not_mem hnewline hne]⟩
  · obtain ⟨kept, hkept⟩ := stripCr_quotedLine key value comment
    exact ⟨kept, by rw [lines_newline hnewline, hkept]⟩

/-- Behind whole lines, a quoted line sets its key to the value that was escaped, whatever the value and the comment
hold: in the flat reader always, and in the layered one in its section, for the keys that it knows and a value that is
not empty. -/
theorem quoted_values_read {before key value comment ending : String} (hbefore : Terminated '\n' before.toList)
    (hkey : FlatKey key) (hvalue : '\n' ∉ value.toList) (hcomment : '\n' ∉ comment.toList)
    (hending : ending = "" ∨ ending = "\n") :
    (stringEntries (before ++ (quotedLine key value comment ++ ending))).lookup key = some value ∧
    ((readLayer before).1 = some .core → value ≠ "" →
      (key = "root" → (parseTomlText (before ++ (quotedLine key value comment ++ ending))).root = some value) ∧
      (key = "format" → (parseTomlText (before ++ (quotedLine key value comment ++ ending))).format = some value)) := by
  obtain ⟨c, cs, hcons, -⟩ := hkey.exists_cons
  have hmark : (quotedLine key value comment ++ ending).toList.head? ≠ some '\uFEFF' := by
    have hfirst := hkey.first.2
    rw [hcons, List.head?_cons] at hfirst
    simpa [quotedLine, String.toList_append, hcons] using hfirst
  obtain ⟨kept, hkept⟩ := lines_quotedLine hkey hvalue hcomment hending
  have hlines : lines (stripBom (before ++ (quotedLine key value comment ++ ending))) =
      lines (stripBom before) ++ [quotedLine key value kept] := by
    rw [stripBom_append hmark, lines_append (terminated_stripBom hbefore), hkept]
  refine ⟨?_, fun hcore hne => ?_⟩
  · rw [stringEntries, hlines, List.foldl_append, List.foldl_cons, List.foldl_nil, entryLine_quotedLine hkey]
    exact lookup_setEntry key value _
  · rw [parseTomlText, readLayer, hlines, List.foldl_append, List.foldl_cons, List.foldl_nil]
    exact layerLine_quotedLine hkey hne kept hcore

/-- A root with a quote, a hash, an equals sign and a backslash at its end, in a section behind the byte order mark. -/
theorem quoted_values_read_root :
    (stringEntries ("\uFEFF[core]\n" ++ (quotedLine "root" "a\"#=\\" " \"x\" # y" ++ ""))).lookup "root" =
      some "a\"#=\\" ∧
    (parseTomlText ("\uFEFF[core]\n" ++ (quotedLine "root" "a\"#=\\" " \"x\" # y" ++ ""))).root =
      some "a\"#=\\" := by
  have hkey : FlatKey "root" := ⟨by decide, by decide, List.all_iff_forall_prop.mp (by decide), by decide⟩
  obtain ⟨hflat, hlayered⟩ :=
    @quoted_values_read "\uFEFF[core]\n" "root" "a\"#=\\" " \"x\" # y" "" (by decide) hkey (by decide) (by decide)
      (.inl rfl)
  exact ⟨hflat, (hlayered (by decide) (by decide)).1 rfl⟩

end Innen.Config
