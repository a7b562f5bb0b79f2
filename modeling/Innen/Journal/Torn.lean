import Innen.Common.Utf8
import Innen.Journal.Table
import Innen.Json.Braces

/-!
# A torn append

A crash in the middle of an append leaves the lines of earlier appends with a part of one more line
behind them. Opening the journal reads it as text, so it recovers only from a part that ends where a
character ends (`torn_append_recovers`). That such a part is moved to the quarantine, unless it is the
whole line, rests on the braces of JSON text: a line cut short leaves its first brace open.
-/

namespace Innen.Journal

open Innen.Common Innen.Braces

/-- What is used of the library functions on text that was cut short. -/
structure Platform.Closes (P : Platform) : Prop where
  /-- Numbers are printed without quotation marks and braces. -/
  float_plain : ∀ bits, Plain (P.floatText bits)
  /-- A JSON text closes every brace it opens. -/
  value_closed : ∀ l, (P.parseValue l).isSome → ((outside 0).scan l.toList).opened = 0

/-- The journal keeps the line of an entry and reads it back. -/
def ReadsBack (P : Platform) (entry : JournalEntry) : Prop :=
  keepLine P (entryText P entry) = true ∧ P.parseEntry (entryText P entry) = some entry

instance (P : Platform) (entry : JournalEntry) : Decidable (ReadsBack P entry) :=
  inferInstanceAs (Decidable (_ ∧ _))

/-- The bytes an append writes. -/
def lineBytes (P : Platform) (entry : JournalEntry) : ByteArray := textBytes (entryText P entry ++ "\n")

/-- The lines of earlier appends and behind them a part of one more line. -/
def crashed (P : Platform) (earlier : List JournalEntry) (torn : ByteArray) : ByteArray :=
  textBytes (joinLines (earlier.map (entryText P))) ++ torn

/-- Opening moves the torn bytes to the quarantine and leaves the earlier entries; a whole, valid line
stays and is read with them. -/
def Recovers (P : Platform) (earlier : List JournalEntry) (entry : JournalEntry) (torn : ByteArray) : Prop :=
  ∃ opened bad, openFile P (some (crashed P earlier torn)) = .ok (opened, bad) ∧
    if torn = textBytes (entryText P entry) ∧ keepLine P (entryText P entry) = true then
      bad = [] ∧ readAll P opened = .ok (earlier ++ (P.parseEntry (entryText P entry)).toList)
    else
      bad.map textBytes = (if torn = .empty then [] else [torn]) ∧ readAll P opened = .ok earlier

variable {P : Platform}

/-! ## Opening in terms of text -/

theorem textBytes_eq (s : String) : textBytes s = s.toByteArray := String.toUTF8_eq_toByteArray

theorem textBytes_inj {s t : String} : textBytes s = textBytes t ↔ s = t := by
  rw [textBytes_eq, textBytes_eq, String.toByteArray_inj]

/-- What opening a text gives, and what is read then. -/
theorem openFile_textBytes (hP : P.Lawful) (content : String) :
    ∃ opened, openFile P (some (textBytes content)) = .ok (opened, badLines P content) ∧
      readAll P opened = .ok (keptEntries P content) := by
  simp only [openFile, bind, Except.bind, readToString_textBytes]
  split
  · rename_i hbad
    refine ⟨_, by rw [hbad], ?_⟩
    rw [readAll_eq, contentOf, readToString_textBytes, keptEntries_of_badLines_nil hbad]
    rfl
  · refine ⟨_, rfl, ?_⟩
    rw [readAll_eq, contentOf, readToString_textBytes, ← entriesOf_rewrite hP]
    rfl

/-- Bytes that are no text cannot be opened. -/
theorem openFile_crashed_error (P : Platform) (earlier : List JournalEntry) {torn : ByteArray}
    (h : String.fromUTF8? torn = none) :
    ∃ e, openFile P (some (crashed P earlier torn)) = .error e := by
  have hread : String.fromUTF8? (crashed P earlier torn) = none := by
    rw [crashed, textBytes_eq, fromUTF8?_append, h]
    rfl
  simp only [openFile, readToString, hread, bind, Except.bind]
  exact ⟨_, rfl⟩

/-! ## The lines of a crashed journal -/

section Lines

variable (hP : P.Lawful) (earlier : List JournalEntry) {t : String} (ht : '\n' ∉ t.toList)

include hP ht

theorem lines_crashed : lines (joinLines (earlier.map (entryText P)) ++ t) =
    earlier.map (entryText P) ++ if t = "" then [] else [t] := by
  rw [lines_append (terminated_joinLines _), lines_entryTexts hP]
  congr 1
  split
  · rename_i hempty
    rw [hempty, lines_empty]
  · rename_i hne
    have hchars : t.toList ≠ [] := fun hnil => hne (String.toList_inj.mp hnil)
    have hlast : t.toList.getLast? ≠ some '\n' := fun hl => ht (List.mem_of_getLast? hl)
    simp [lines, linesOf, splitInclusive_of_not_mem ht hchars, stripEol, hlast]

theorem badLines_crashed : badLines P (joinLines (earlier.map (entryText P)) ++ t) =
    (earlier.map (entryText P)).filter (fun l => !keepLine P l) ++
      if t = "" ∨ keepLine P t = true then [] else [t] := by
  have hne : ∀ l ∈ earlier.map (entryText P), (decide (l ≠ "") && !keepLine P l) = !keepLine P l := by
    intro l hl
    obtain ⟨entry, -, rfl⟩ := List.mem_map.mp hl
    have hblank := blank_entryText (P := P) entry
    have : entryText P entry ≠ "" := by
      intro h
      rw [h] at hblank
      exact absurd hblank (by decide)
    simp [this]
  rw [badLines, lines_crashed hP earlier ht, List.filter_append, List.filter_congr hne]
  congr 1
  by_cases hempty : t = ""
  · simp [hempty]
  · by_cases hkeep : keepLine P t = true <;> simp [hempty, hkeep]

theorem keptEntries_crashed : keptEntries P (joinLines (earlier.map (entryText P)) ++ t) =
    ((earlier.map (entryText P)).filter (keepLine P)).filterMap P.parseEntry ++
      if keepLine P t = true then (P.parseEntry t).toList else [] := by
  have hlast : ((if t = "" then [] else [t]).filter fun l => !blank l).filter (keepLine P) =
      if keepLine P t = true then [t] else [] := by
    split
    · rename_i hempty
      have hno : keepLine P t = false := by
        rw [hempty, keepLine, hP.value_blank "" (by decide)]
      simp [hno]
    · by_cases hkeep : keepLine P t = true
      · simp [hkeep, blank_of_keepLine hP hkeep]
      · rw [Bool.not_eq_true] at hkeep
        rw [hkeep, List.filter_filter]
        simp [hkeep]
  have hfirst : (earlier.map (entryText P)).filter (fun l => !blank l) = earlier.map (entryText P) := by
    refine List.filter_eq_self.mpr fun l hl => ?_
    obtain ⟨entry, -, rfl⟩ := List.mem_map.mp hl
    simp [blank_entryText]
  rw [keptEntries, significant, lines_crashed hP earlier ht, List.filter_append, List.filter_append,
    List.filterMap_append, hlast, hfirst]
  congr 1
  split
  · rcases hparse : P.parseEntry t with _ | entry <;> simp [hparse]
  · rfl

end Lines

/-! ## Reading back -/

/-- A list that a partial map gives back is mapped element by element. -/
theorem eq_some_of_filterMap_eq_self {α : Type*} {f : α → Option α} {l : List α}
    (h : l.filterMap f = l) : ∀ x ∈ l, f x = some x := by
  induction l with
  | nil => exact fun x hx => absurd hx List.not_mem_nil
  | cons a rest ih =>
    rcases hf : f a with _ | b
    · -- one element less cannot be made up for
      have hshort : (rest.filterMap f).length ≤ rest.length := List.length_filterMap_le f rest
      rw [List.filterMap_cons_none hf] at h
      rw [h, List.length_cons] at hshort
      omega
    · rw [List.filterMap_cons_some hf, List.cons.injEq] at h
      obtain ⟨rfl, hrest⟩ := h
      intro x hx
      rcases List.mem_cons.mp hx with rfl | hx
      · exact hf
      · exact ih hrest x hx

/-- All entries read back iff none of their lines is bad and the kept ones give the entries. -/
theorem forall_readsBack_iff (earlier : List JournalEntry) : (∀ e ∈ earlier, ReadsBack P e) ↔
    (earlier.map (entryText P)).filter (fun l => !keepLine P l) = [] ∧
      ((earlier.map (entryText P)).filter (keepLine P)).filterMap P.parseEntry = earlier := by
  have hkept : (earlier.map (entryText P)).filter (fun l => !keepLine P l) = [] ↔
      ∀ e ∈ earlier, keepLine P (entryText P e) = true := by
    simp [List.filter_eq_nil_iff]
  rw [hkept]
  constructor
  · intro h
    refine ⟨fun e he => (h e he).1, ?_⟩
    rw [List.filter_eq_self.mpr (by simpa using fun e he => (h e he).1), List.filterMap_map,
      List.filterMap_congr (f := P.parseEntry ∘ entryText P) (g := some) fun e he => (h e he).2,
      List.filterMap_some]
  · rintro ⟨hkeep, hback⟩ e he
    rw [List.filter_eq_self.mpr (by simpa using hkeep), List.filterMap_map] at hback
    exact ⟨hkeep e he, eq_some_of_filterMap_eq_self hback e he⟩

/-! ## Recovery -/

/-- A line that is cut short is no line the journal keeps. -/
theorem keepLine_cut (hcloses : P.Closes) {entry : JournalEntry} {t r : String}
    (h : entryText P entry = t ++ r) (ht : t ≠ "") (hr : r ≠ "") : keepLine P t = false := by
  have hopen : 0 < ((outside 0).scan t.toList).opened := by
    refine @opened_of_cut _ hcloses.float_plain entry.fields _ r.toList ?_ ?_ ?_
    · rw [← String.toList_append, ← h, entryText]
    · exact fun hnil => ht (String.toList_inj.mp hnil)
    · exact fun hnil => hr (String.toList_inj.mp hnil)
  have hnone : P.parseValue t = none := by
    by_contra hsome
    have := hcloses.value_closed t (Option.isSome_iff_ne_none.mpr hsome)
    omega
  rw [keepLine, hnone]

/-- What is cut off a line starts with text again, and the newline is at its end. -/
theorem cut_line {l t : String} {torn rest : ByteArray} (h : textBytes (l ++ "\n") = torn ++ rest)
    (ht : String.fromUTF8? torn = some t) (hrest : rest ≠ .empty) : ∃ r, l = t ++ r := by
  rw [textBytes_eq] at h
  obtain ⟨r, hl, rfl⟩ := fromUTF8?_cut h ht
  have hchars : l.toList ++ ['\n'] = t.toList ++ r.toList := by
    rw [← String.toList_append, ← hl, String.toList_append]
    rfl
  have hr : r.toList ≠ [] := by
    intro hnil
    apply hrest
    rw [String.toList_inj.mp (hnil.trans String.toList_empty.symm)]
    rfl
  obtain ⟨init, last, hlast⟩ := (List.eq_nil_or_concat r.toList).resolve_left hr
  rw [hlast, List.concat_eq_append, ← List.append_assoc] at hchars
  refine ⟨String.ofList init, String.toList_inj.mp ?_⟩
  rw [String.toList_append, String.toList_ofList]
  exact List.append_inj_left' hchars rfl

/-- A journal that was cut at the end of a character is recovered iff the earlier lines read back. -/
theorem recovers_text (hP : P.Lawful) (hcloses : P.Closes) {earlier : List JournalEntry}
    {entry : JournalEntry} {t r : String} (hline : entryText P entry = t ++ r) :
    Recovers P earlier entry (textBytes t) ↔ ∀ e ∈ earlier, ReadsBack P e := by
  have hnewline : '\n' ∉ t.toList := by
    have hone := (oneLine_entryText hP entry).newline_not_mem
    rw [hline, String.toList_append, List.mem_append, not_or] at hone
    exact hone.1
  have hempty : textBytes t = .empty ↔ t = "" := textBytes_inj (t := "")
  have hblank : keepLine P "" = false := by rw [keepLine, hP.value_blank "" (by decide)]
  obtain ⟨opened, hopen, hread⟩ := openFile_textBytes hP (joinLines (earlier.map (entryText P)) ++ t)
  rw [badLines_crashed hP earlier hnewline, textBytes_append] at hopen
  rw [keptEntries_crashed hP earlier hnewline] at hread
  simp only [Recovers, crashed, hopen, Except.ok.injEq, Prod.mk.injEq, textBytes_inj, hempty]
  rw [forall_readsBack_iff]
  by_cases hkeep : keepLine P t = true
  · -- only the whole line can be one the journal keeps
    have hwhole : t = entryText P entry := by
      by_contra hne
      have ht : t ≠ "" := by
        rintro rfl
        rw [hblank] at hkeep
        exact absurd hkeep (by decide)
      have hr : r ≠ "" := by
        rintro rfl
        exact hne (by rw [hline, String.append_empty])
      rw [keepLine_cut hcloses hline ht hr] at hkeep
      exact absurd hkeep (by decide)
    have hnone : (if t = "" ∨ keepLine P t = true then [] else [t]) = [] := if_pos (.inr hkeep)
    rw [if_pos hkeep] at hread
    rw [hnone, List.append_nil]
    have hkeep' : keepLine P (entryText P entry) = true := hwhole ▸ hkeep
    constructor
    · rintro ⟨_, _, ⟨rfl, rfl⟩, h⟩
      rw [if_pos ⟨hwhole, hkeep'⟩, hread, hwhole] at h
      exact ⟨h.1, List.append_cancel_right (Except.ok.inj h.2)⟩
    · rintro ⟨hbad, hback⟩
      refine ⟨_, _, ⟨rfl, rfl⟩, ?_⟩
      rw [if_pos ⟨hwhole, hkeep'⟩, hread, hback, hwhole]
      exact ⟨hbad, rfl⟩
  · have hpart : ¬(t = entryText P entry ∧ keepLine P (entryText P entry) = true) := by
      rintro ⟨heq, hk⟩
      exact hkeep (heq ▸ hk)
    rw [if_neg hkeep, List.append_nil] at hread
    have htorn : ∀ bad : List String,
        (bad ++ if t = "" ∨ keepLine P t = true then [] else [t]).map textBytes =
          (if t = "" then [] else [textBytes t]) ↔ bad = [] := by
      intro bad
      by_cases ht : t = "" <;> simp [ht, hkeep]
    constructor
    · rintro ⟨_, _, ⟨rfl, rfl⟩, h⟩
      rw [if_neg hpart, hread, htorn] at h
      exact ⟨h.1, Except.ok.inj h.2⟩
    · rintro ⟨hbad, hback⟩
      refine ⟨_, _, ⟨rfl, rfl⟩, ?_⟩
      rw [if_neg hpart, hread, hback, htorn]
      exact ⟨hbad, rfl⟩

/-- The crash is recovered from iff the torn bytes are text and every earlier line reads back. -/
theorem torn_append_recovers (P : Platform) (hP : P.Lawful) (hcloses : P.Closes)
    (earlier : List JournalEntry) (entry : JournalEntry) (cut : ℕ) (hcut : cut < (lineBytes P entry).size) :
    Recovers P earlier entry ((lineBytes P entry).extract 0 cut) ↔
      (String.fromUTF8? ((lineBytes P entry).extract 0 cut)).isSome ∧ ∀ e ∈ earlier, ReadsBack P e := by
  have hsplit : (lineBytes P entry) =
      (lineBytes P entry).extract 0 cut ++ (lineBytes P entry).extract cut (lineBytes P entry).size := by
    rw [ByteArray.extract_append_extract, Nat.min_eq_left (Nat.zero_le _), Nat.max_eq_right hcut.le,
      ByteArray.extract_zero_size]
  have hlong : (lineBytes P entry).extract cut (lineBytes P entry).size ≠ .empty := by
    intro hempty
    have hsize := congrArg ByteArray.size hempty
    rw [ByteArray.size_extract] at hsize
    simp only [ByteArray.size_empty] at hsize
    omega
  generalize (lineBytes P entry).extract 0 cut = torn at hsplit ⊢
  rcases htext : String.fromUTF8? torn with _ | t
  · obtain ⟨e, herror⟩ := openFile_crashed_error P earlier htext
    simp [Recovers, herror]
  · obtain ⟨r, hline⟩ := cut_line hsplit htext hlong
    rw [eq_toByteArray_of_fromUTF8? htext, ← textBytes_eq, recovers_text hP hcloses hline]
    simp

/-! ## The platforms of finitely many lines -/

theorem level_jsonSpace {u : List Char} (hu : ∀ c ∈ u, isJsonSpace c = true) : Level (String.ofList u) := by
  refine Plain.level fun c hc => ?_
  rw [String.toList_ofList] at hc
  have hspace := hu c hc
  simp only [isJsonSpace, decide_eq_true_eq] at hspace
  rcases hspace with rfl | rfl | rfl | rfl <;> decide

/-- White space around a text does not change its braces. -/
theorem level_of_jsonTrim {l : String} (h : Level (jsonTrim l)) : Level l := by
  have hsplit : l = String.ofList (l.toList.takeWhile isJsonSpace) ++
      (jsonTrim l ++ String.ofList ((l.toList.dropWhile isJsonSpace).rtakeWhile isJsonSpace)) := by
    apply String.toList_inj.mp
    simp only [String.toList_append, String.toList_ofList, jsonTrim, List.rdropWhile_append_rtakeWhile,
      List.takeWhile_append_dropWhile]
  rw [hsplit]
  exact (level_jsonSpace fun c hc => List.mem_takeWhile_imp hc).append
    (h.append (level_jsonSpace fun c hc => List.mem_rtakeWhile_imp hc))

theorem tablePlatform_closes (sha256Hex : ByteArray → String) {table : List KnownLine}
    (h : ∀ k ∈ table, Level k.text) : (tablePlatform sha256Hex table).Closes where
  float_plain := fun _ => show Plain "0.0" by decide
  value_closed := by
    intro l hsome
    simp only [tablePlatform, Option.isSome_map] at hsome
    obtain ⟨k, hk⟩ := Option.isSome_iff_exists.mp hsome
    have htext : k.text = jsonTrim l := by simpa using List.find?_some hk
    have hlevel := level_of_jsonTrim (htext ▸ h k (List.mem_of_find?_eq_some hk))
    rw [(hlevel 0).2]
    rfl

theorem entryPlatform_closes (sha256Hex : ByteArray → String) (entries : List JournalEntry) :
    (entryPlatform sha256Hex entries).Closes := by
  refine tablePlatform_closes sha256Hex fun k hk => ?_
  obtain ⟨entry, -, rfl⟩ := List.mem_map.mp hk
  exact (Value.level_fieldsText fun e _ => e.2.level_toText fun _ => by decide).braced

/-! ## A cut inside a character -/

/-- The payload `{"key":"é"}`. -/
def accentPayload : Json := ⟨.object [("key", .string "é")], by simp [Assoc.Ascending]⟩

/-- The entry of setting it. -/
def accentEntry : JournalEntry where
  id := "1220d82481cfc6ac22e90e82a8e10d4a7871ef4f6c95df856957b78043848ee4"
  observedUtc := "2026-01-01T00:00:00Z"
  op := "config.set"
  payload := accentPayload

/-- Parsers and a hash that know this entry's line. -/
def accentPlatform : Platform := entryPlatform (fun _ => accentEntry.id) [accentEntry]

/-- The line of the entry before the accent. -/
def beforeAccent : String :=
  "\x7b\"id\":\"1220d82481cfc6ac22e90e82a8e10d4a7871ef4f6c95df856957b78043848ee4\",\"observed_utc\":\"2026-01-01T00:00:00Z\",\"op\":\"config.set\",\"payload\":\x7b\"key\":\""

theorem entryText_accent :
    entryText accentPlatform accentEntry ++ "\n" = beforeAccent ++ ("é" ++ "\"\x7d\x7d\n") := by
  decide +kernel

theorem fromUTF8?_beforeAccent :
    String.fromUTF8? ((lineBytes accentPlatform accentEntry).extract 0 (beforeAccent.toByteArray.size + 1)) =
      none := by
  have hfirst : ("é" ++ "\"\x7d\x7d\n").toByteArray.extract 0 1 = ⟨#[0xC3]⟩ := by decide +kernel
  rw [lineBytes, textBytes_eq, entryText_accent, String.toByteArray_append, extract_append_size, hfirst,
    fromUTF8?_append]
  decide +kernel

/-- An append that crashes there leaves a journal that cannot be opened. -/
theorem torn_inside_accent :
    accentEntry = newEntry accentPlatform "config.set" accentPayload "2026-01-01T00:00:00Z" ∧
    beforeAccent.toByteArray.size + 1 < (lineBytes accentPlatform accentEntry).size ∧
    ¬Recovers accentPlatform [] accentEntry
      ((lineBytes accentPlatform accentEntry).extract 0 (beforeAccent.toByteArray.size + 1)) := by
  refine ⟨rfl, by decide +kernel, ?_⟩
  rintro ⟨opened, bad, hopen, -⟩
  obtain ⟨e, herror⟩ := openFile_crashed_error accentPlatform [] fromUTF8?_beforeAccent
  rw [hopen] at herror
  cases herror

/-- Cut before the accent, the same line is recovered from. -/
theorem torn_append_recovers_accent :
    Recovers accentPlatform [accentEntry] accentEntry
      ((lineBytes accentPlatform accentEntry).extract 0 beforeAccent.toByteArray.size) := by
  have hids : ([accentEntry].map (·.id)).Nodup := by decide
  refine (torn_append_recovers accentPlatform (entryPlatform_lawful hids) (entryPlatform_closes _ _)
    [accentEntry] accentEntry _ ?_).mpr ⟨?_, ?_⟩
  · decide +kernel
  · rw [lineBytes, textBytes_eq, entryText_accent, String.toByteArray_append, ByteArray.extract_append_eq_left rfl,
      fromUTF8?_toByteArray]
    rfl
  · intro e he
    exact ⟨keepLine_entryPlatform hids he, parseEntry_entryPlatform hids he⟩

end Innen.Journal
