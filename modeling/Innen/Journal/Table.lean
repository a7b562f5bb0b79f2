import Innen.Journal.Lines

/-!
# A platform that knows finitely many lines

A parser given by a table of lines, read up to JSON white space around them. Such a platform is lawful
as soon as no line of the table is blank or starts another one, so the laws of `Platform.Lawful` can be
met, and a run that touches finitely many lines can be computed.
-/

namespace Innen.Journal

open Innen.Common

/-- A text without the JSON white space around it. -/
def jsonTrim (l : String) : String :=
  String.ofList ((l.toList.dropWhile isJsonSpace).rdropWhile isJsonSpace)

/-- A line that parses as a value and, perhaps, as an entry. -/
structure KnownLine where
  text : String
  value : Json
  entry : Option JournalEntry

/-- The platform whose parsers know the lines of a table. -/
def tablePlatform (sha256Hex : ByteArray → String) (table : List KnownLine) : Platform where
  floatText _ := "0.0"
  parseValue l := (table.find? fun k => k.text = jsonTrim l).map (·.value)
  parseEntry l := (table.find? fun k => k.text = jsonTrim l).bind (·.entry)
  sha256Hex := sha256Hex

theorem rdropWhile_append_of_all {α : Type*} {p : α → Bool} {l w : List α} (h : ∀ c ∈ w, p c = true) :
    (l ++ w).rdropWhile p = l.rdropWhile p := by
  rw [List.rdropWhile, List.reverse_append, List.dropWhile_append_of_pos fun c hc => h c (List.mem_reverse.mp hc)]
  rfl

/-- In front of something that stays, dropping from the left stops there. -/
theorem dropWhile_append_cons {α : Type*} {p : α → Bool} {d : α} (hd : p d = false) (l r : List α) :
    (l ++ d :: r).dropWhile p = l.dropWhile p ++ d :: r := by
  induction l with
  | nil => rw [List.nil_append, List.dropWhile_cons_of_neg (by simp [hd]), List.dropWhile_nil, List.nil_append]
  | cons c l ih =>
    by_cases hc : p c = true
    · rw [List.cons_append, List.dropWhile_cons_of_pos hc, List.dropWhile_cons_of_pos hc, ih]
    · rw [List.cons_append, List.dropWhile_cons_of_neg hc, List.dropWhile_cons_of_neg hc, List.cons_append]

theorem rdropWhile_append_cons {α : Type*} {p : α → Bool} {d : α} (hd : p d = false) (l r : List α) :
    (l ++ d :: r).rdropWhile p = l ++ d :: r.rdropWhile p := by
  rw [List.rdropWhile, List.reverse_append, List.reverse_cons, List.append_assoc, List.singleton_append,
    dropWhile_append_cons hd, List.reverse_append, List.reverse_cons, List.reverse_reverse,
    List.append_assoc]
  rfl

theorem jsonTrim_padded {u l w : String} (hu : JsonSpace u) (hw : JsonSpace w) :
    jsonTrim (u ++ l ++ w) = jsonTrim l := by
  unfold jsonTrim
  rw [String.toList_append, String.toList_append, List.append_assoc,
    List.dropWhile_append_of_pos hu]
  congr 1
  by_cases hl : ∀ c ∈ l.toList, isJsonSpace c = true
  · have hw' : w.toList.dropWhile isJsonSpace = [] := List.dropWhile_eq_nil_iff.mpr hw
    rw [List.dropWhile_append_of_pos hl, hw', List.dropWhile_eq_nil_iff.mpr hl]
  · rw [List.dropWhile_append, if_neg, rdropWhile_append_of_all hw]
    rwa [List.isEmpty_iff, List.dropWhile_eq_nil_iff]

/-- A brace behind a text survives trimming. -/
theorem prefix_jsonTrim (l w : String) :
    ∃ r, (jsonTrim (l ++ "\x7b" ++ w)).toList = (jsonTrim l).toList ++ r ∧ r ≠ [] := by
  have hbrace : isJsonSpace '\x7b' = false := by decide
  have hsplit : (l ++ "\x7b" ++ w).toList = l.toList ++ '\x7b' :: w.toList := by
    rw [String.toList_append, String.toList_append, List.append_assoc]
    rfl
  refine ⟨(l.toList.dropWhile isJsonSpace).rtakeWhile isJsonSpace ++
    '\x7b' :: w.toList.rdropWhile isJsonSpace, ?_, by simp⟩
  unfold jsonTrim
  rw [String.toList_ofList, String.toList_ofList, hsplit, dropWhile_append_cons hbrace,
    rdropWhile_append_cons hbrace, ← List.append_assoc, List.rdropWhile_append_rtakeWhile]

/-- No line of the table is blank, and none starts another one. -/
def Separate (table : List KnownLine) : Prop :=
  (∀ k ∈ table, blank k.text = false) ∧
    ∀ k ∈ table, ∀ k' ∈ table, k.text.toList <+: k'.text.toList → k.text = k'.text

instance (table : List KnownLine) : Decidable (Separate table) := by
  unfold Separate
  infer_instance

theorem blank_jsonTrim {l : String} (h : blank l = true) : blank (jsonTrim l) = true := by
  refine List.all_eq_true.mpr fun c hc => List.all_eq_true.mp h c ?_
  rw [jsonTrim, String.toList_ofList] at hc
  exact (List.dropWhile_suffix _).subset ((List.rdropWhile_prefix _ _).subset hc)

theorem tablePlatform_lawful (sha256Hex : ByteArray → String) {table : List KnownLine}
    (h : Separate table) : (tablePlatform sha256Hex table).Lawful where
  float_oneLine := fun _ => show OneLine "0.0" by decide
  value_blank := by
    intro l hl
    have hnone : table.find? (fun k => k.text = jsonTrim l) = none := by
      refine List.find?_eq_none.mpr fun k hk heq => ?_
      have htext : k.text = jsonTrim l := by simpa using heq
      have := h.1 k hk
      rw [htext, blank_jsonTrim hl] at this
      exact Bool.noConfusion this
    simp [tablePlatform, hnone]
  value_padded := fun u l w hu hw => by simp only [tablePlatform, jsonTrim_padded hu hw]
  entry_padded := fun u l w hu hw => by simp only [tablePlatform, jsonTrim_padded hu hw]
  value_trailing := by
    intro l w hsome
    simp only [tablePlatform, Option.isSome_map] at hsome
    obtain ⟨k, hk⟩ := Option.isSome_iff_exists.mp hsome
    have hkmem := List.mem_of_find?_eq_some hk
    have hktext : k.text = jsonTrim l := by simpa using List.find?_some hk
    have hnone : table.find? (fun k => k.text = jsonTrim (l ++ "\x7b" ++ w)) = none := by
      refine List.find?_eq_none.mpr fun k' hk' heq => ?_
      have htext : k'.text = jsonTrim (l ++ "\x7b" ++ w) := by simpa using heq
      obtain ⟨r, hr, hne⟩ := prefix_jsonTrim l w
      rw [← htext, ← hktext] at hr
      have hsame := h.2 k hkmem k' hk' ⟨r, hr.symm⟩
      rw [hsame] at hr
      exact hne (List.append_right_eq_self.mp hr.symm)
    simp [tablePlatform, hnone]

/-! ## The lines of some entries -/

/-- The line of an entry, with what it parses as. -/
def knownEntry (entry : JournalEntry) : KnownLine where
  text := structText (fun _ => "0.0") entry.fields
  value := ⟨.mkObject entry.fields, Value.wf_mkObject (by
    simp only [JournalEntry.fields, List.forall_mem_cons, Value.wf_string, true_and]
    exact ⟨entry.payload.property, by simp⟩)⟩
  entry := some entry

/-- The platform that knows the lines of some entries. -/
def entryPlatform (sha256Hex : ByteArray → String) (entries : List JournalEntry) : Platform :=
  tablePlatform sha256Hex (entries.map knownEntry)

theorem jsonTrim_structText (floatText : UInt64 → String) (fields : Fields) :
    jsonTrim (structText floatText fields) = structText floatText fields := by
  have htext : (structText floatText fields).toList =
      '\x7b' :: ((Value.fieldsText floatText fields).toList ++ ['\x7d']) := by
    rw [structText, String.toList_append, String.toList_append]
    rfl
  rw [jsonTrim, htext, List.dropWhile_cons_of_neg (by decide), ← List.cons_append,
    List.rdropWhile_concat_neg _ _ _ (by decide), List.cons_append, ← htext, String.ofList_toList]

/-- The line of an entry begins with its id. -/
theorem structText_id (floatText : UInt64 → String) (entry : JournalEntry) :
    ∃ rest, structText floatText entry.fields = "\x7b\"id\":" ++ (quote entry.id ++ rest) := by
  have hquote : quote "id" = "\"id\"" := by decide
  have hhead : "\x7b\"id\":" = "\x7b" ++ ("\"id\"" ++ ":") := by decide
  rw [structText, JournalEntry.fields, Value.fieldsText, Value.toText, hquote, hhead]
  simp only [String.append_assoc]
  exact ⟨_, rfl⟩

/-- A line that starts with the line of an entry has its id. -/
theorem id_eq_of_starts {floatText : UInt64 → String} {entry entry' : JournalEntry}
    (h : (structText floatText entry.fields).toList <+: (structText floatText entry'.fields).toList) :
    entry.id = entry'.id := by
  obtain ⟨r, hr⟩ := h
  obtain ⟨rest, hrest⟩ := structText_id floatText entry
  obtain ⟨rest', hrest'⟩ := structText_id floatText entry'
  have hstart : structText floatText entry.fields ++ String.ofList r = structText floatText entry'.fields :=
    String.toList_inj.mp (by rw [String.toList_append, String.toList_ofList, hr])
  rw [hrest, hrest', String.append_assoc, String.append_right_inj, String.append_assoc] at hstart
  exact (quote_append_inj hstart).1

variable {sha256Hex : ByteArray → String} {entries : List JournalEntry}

theorem eq_of_id_eq (hids : (entries.map (·.id)).Nodup) {entry entry' : JournalEntry}
    (h : entry ∈ entries) (h' : entry' ∈ entries) (hid : entry.id = entry'.id) : entry = entry' :=
  List.inj_on_of_nodup_map hids h h' hid

/-- With different ids the platform is lawful. -/
theorem entryPlatform_lawful (hids : (entries.map (·.id)).Nodup) :
    (entryPlatform sha256Hex entries).Lawful := by
  refine tablePlatform_lawful sha256Hex ⟨fun k hk => ?_, fun k hk k' hk' hprefix => ?_⟩
  · obtain ⟨entry, -, rfl⟩ := List.mem_map.mp hk
    exact blank_entryText (P := entryPlatform sha256Hex entries) entry
  · obtain ⟨entry, hentry, rfl⟩ := List.mem_map.mp hk
    obtain ⟨entry', hentry', rfl⟩ := List.mem_map.mp hk'
    rw [eq_of_id_eq hids hentry hentry' (id_eq_of_starts hprefix)]

/-- It finds the line of each of its entries. -/
theorem find?_entryPlatform (hids : (entries.map (·.id)).Nodup) {entry : JournalEntry}
    (h : entry ∈ entries) :
    (entries.map knownEntry).find? (fun k => k.text = jsonTrim (knownEntry entry).text) =
      some (knownEntry entry) := by
  rcases hfind : (entries.map knownEntry).find?
    (fun k => k.text = jsonTrim (knownEntry entry).text) with _ | k
  · have hnone := List.find?_eq_none.mp hfind _ (List.mem_map_of_mem h)
    simp [knownEntry, jsonTrim_structText] at hnone
  · obtain ⟨entry', hentry', rfl⟩ := List.mem_map.mp (List.mem_of_find?_eq_some hfind)
    have htext : (knownEntry entry').text = (knownEntry entry).text := by
      simpa [knownEntry, jsonTrim_structText] using List.find?_some hfind
    have hid : entry'.id = entry.id := id_eq_of_starts (by
      rw [show structText (fun _ => "0.0") entry'.fields = _ from htext]
      exact List.prefix_refl _)
    rw [← eq_of_id_eq hids hentry' h hid] at hfind ⊢
    exact hfind

theorem parseEntry_entryPlatform (hids : (entries.map (·.id)).Nodup) {entry : JournalEntry}
    (h : entry ∈ entries) :
    (entryPlatform sha256Hex entries).parseEntry (entryText (entryPlatform sha256Hex entries) entry) =
      some entry := by
  change ((entries.map knownEntry).find? (fun k => k.text = jsonTrim (knownEntry entry).text)).bind _ = _
  rw [find?_entryPlatform hids h]
  rfl

theorem keepLine_entryPlatform (hids : (entries.map (·.id)).Nodup) {entry : JournalEntry}
    (h : entry ∈ entries) :
    keepLine (entryPlatform sha256Hex entries) (entryText (entryPlatform sha256Hex entries) entry) =
      true := by
  have hvalue : (entryPlatform sha256Hex entries).parseValue
      (entryText (entryPlatform sha256Hex entries) entry) = some (knownEntry entry).value := by
    change ((entries.map knownEntry).find? (fun k => k.text = jsonTrim (knownEntry entry).text)).map _ = _
    rw [find?_entryPlatform hids h]
    rfl
  rw [keepLine, hvalue]
  simp +decide [knownEntry, Value.get?_mkObject, JournalEntry.fields, Assoc.get?_cons]

/-- The file with the lines of its entries. -/
def entryFile (entries : List JournalEntry) : ByteArray :=
  textBytes (joinLines (entries.map fun entry => (knownEntry entry).text))

/-- The file of its entries is clean and reads back as these. -/
theorem open_entryFile (hids : (entries.map (·.id)).Nodup) :
    openFile (entryPlatform sha256Hex entries) (some (entryFile entries)) =
        .ok (some (entryFile entries), []) ∧
      readAll (entryPlatform sha256Hex entries) (some (entryFile entries)) = .ok entries := by
  have hlawful : (entryPlatform sha256Hex entries).Lawful := entryPlatform_lawful hids
  have hread : readToString (entryFile entries) = .ok (joinLines (entries.map
      (entryText (entryPlatform sha256Hex entries)))) := readToString_textBytes _
  constructor
  · have hbad : badLines (entryPlatform sha256Hex entries) (joinLines (entries.map
        (entryText (entryPlatform sha256Hex entries)))) = [] := by
      have hone : ∀ l ∈ entries.map (entryText (entryPlatform sha256Hex entries)), OneLine l := by
        intro l hl
        obtain ⟨entry, -, rfl⟩ := List.mem_map.mp hl
        exact oneLine_entryText hlawful entry
      rw [badLines, lines_joinLines fun l hl => (hone l hl).newline_not_mem]
      refine List.filter_eq_nil_iff.mpr fun l hl => ?_
      obtain ⟨text, htext, rfl⟩ := List.mem_map.mp hl
      obtain ⟨entry, hentry, rfl⟩ := List.mem_map.mp htext
      rw [stripCr_of_getLast? (hone _ htext).getLast?_ne, keepLine_entryPlatform hids hentry]
      simp
    simp only [openFile, bind, Except.bind, hread]
    rw [if_pos hbad]
  · rw [readAll_eq, contentOf, hread]
    simp only [Except.map]
    rw [entriesOf_eq, significant_joinLines hlawful, List.filterMap_map]
    have hparse : ∀ entry ∈ entries, ((entryPlatform sha256Hex entries).parseEntry ∘
        entryText (entryPlatform sha256Hex entries)) entry = some entry :=
      fun entry h => parseEntry_entryPlatform hids h
    rw [List.filterMap_congr hparse, List.filterMap_some]

/-! ## One concrete entry -/

/-- The payload `{"key":"theme"}`. -/
def themePayload : Json := ⟨.object [("key", .string "theme")], by
  simp [Assoc.Ascending]⟩

/-- The entry of setting a theme. -/
def themeEntry : JournalEntry where
  id := "e21f8fd4c06d6c62fcbf0dee46c1b11400190aa725ddd2b43174a7ac3315350a"
  observedUtc := "2026-01-01T00:00:00Z"
  op := "config.set"
  payload := themePayload

/-- Parsers and a hash that know this entry's line. -/
def themePlatform : Platform := entryPlatform (fun _ => themeEntry.id) [themeEntry]

end Innen.Journal
