import Innen.Journal.Model

/-!
# What a journal file holds, line by line

White space lines are nothing to the journal, so a file is seen through its `significant` lines. Its
entries are those of the significant lines; an appended line continues the unfinished text of the file
and adds one significant line; a rewrite by a scan keeps the significant lines that pass the
quarantine predicate, up to a carriage return at their end, which no parser notices.
-/

namespace Innen.Journal

open Innen.Common

/-! ## Bytes and text -/

@[simp] theorem readToString_textBytes (s : String) : readToString (textBytes s) = .ok s := by
  unfold readToString textBytes String.fromUTF8?
  rw [String.toUTF8_eq_toByteArray, dif_pos s.isValidUTF8]
  rfl

theorem textBytes_append (s t : String) : textBytes (s ++ t) = textBytes s ++ textBytes t := by
  simp [textBytes, String.toByteArray_append]

/-- Only the bytes of a text are read as that text. -/
theorem readToString_eq_ok {bytes : ByteArray} {s : String} (h : readToString bytes = .ok s) :
    bytes = textBytes s := by
  unfold readToString String.fromUTF8? at h
  split at h
  · rename_i content hcontent
    split at hcontent
    · obtain rfl := Option.some.inj hcontent
      cases h
      rfl
    · simp at hcontent
  · simp at h

/-- Text appended to text reads as the text of both. -/
theorem readToString_append {bytes : ByteArray} {s : String} (h : readToString bytes = .ok s)
    (t : String) : readToString (bytes ++ textBytes t) = .ok (s ++ t) := by
  rw [readToString_eq_ok h, ← textBytes_append, readToString_textBytes]

/-! ## Significant lines -/

/-- The lines that are not only white space. -/
def significant (content : String) : List String := (lines content).filter fun l => !blank l

variable {P : Platform}

theorem entriesOf_eq (content : String) :
    entriesOf P content = (significant content).filterMap P.parseEntry := by
  unfold entriesOf significant
  rw [List.filterMap_filter]
  refine List.filterMap_congr fun l _ => ?_
  cases blank l <;> rfl

theorem blank_append (s t : String) : blank (s ++ t) = (blank s && blank t) := by
  simp [blank]

theorem blank_of_jsonSpace {s : String} (h : JsonSpace s) : blank s = true := by
  refine List.all_eq_true.mpr fun c hc => ?_
  have hspace := h c hc
  simp only [isJsonSpace, decide_eq_true_eq] at hspace
  rcases hspace with rfl | rfl | rfl | rfl <;> decide

/-- A line that passes the quarantine predicate is not only white space. -/
theorem blank_of_keepLine (hP : P.Lawful) {l : String} (h : keepLine P l = true) : blank l = false := by
  by_contra hblank
  rw [keepLine, hP.value_blank l (by simpa using hblank)] at h
  simp at h

theorem goodLines_eq (hP : P.Lawful) (content : String) :
    goodLines P content = (significant content).filter (keepLine P) := by
  unfold goodLines significant
  rw [List.filter_filter]
  refine List.filter_congr fun l _ => ?_
  rcases hkeep : keepLine P l with _ | _
  · simp
  · have hne : l ≠ "" := by
      rintro rfl
      exact absurd (blank_of_keepLine hP hkeep) (by decide)
    simp [hne, blank_of_keepLine hP hkeep]

/-- After a scan that finds nothing to move, all significant lines pass the predicate. -/
theorem keepLine_of_badLines_nil {content l : String} (h : badLines P content = [])
    (hl : l ∈ significant content) : keepLine P l = true := by
  obtain ⟨hmem, hblank⟩ := List.mem_filter.mp hl
  by_contra hbad
  have hne : l ≠ "" := by
    rintro rfl
    exact absurd hblank (by decide)
  have : l ∈ badLines P content := List.mem_filter.mpr ⟨hmem, by simp [hne, hbad]⟩
  rw [h] at this
  exact List.not_mem_nil this

/-! ## Carriage returns do not matter -/

/-- Two lines that the parsers cannot tell apart. -/
def SameLine (P : Platform) (l l' : String) : Prop :=
  P.parseValue l = P.parseValue l' ∧ P.parseEntry l = P.parseEntry l'

theorem SameLine.refl (l : String) : SameLine P l l := ⟨rfl, rfl⟩

theorem SameLine.trans {l l' l'' : String} (h : SameLine P l l') (h' : SameLine P l' l'') :
    SameLine P l l'' := ⟨h.1.trans h'.1, h.2.trans h'.2⟩

theorem SameLine.keepLine_eq {l l' : String} (h : SameLine P l l') : keepLine P l = keepLine P l' := by
  rw [keepLine, keepLine, h.1]

theorem sameLine_stripCr (hP : P.Lawful) (l : String) : SameLine P (stripCr l) l := by
  rcases stripCr_cases l with h | h
  · rw [h]
    exact .refl l
  · have hempty : JsonSpace "" := by decide
    have hcr : JsonSpace "\r" := by decide
    have hv := hP.value_padded "" (stripCr l) "\r" hempty hcr
    have he := hP.entry_padded "" (stripCr l) "\r" hempty hcr
    rw [String.empty_append, ← h] at hv he
    exact ⟨hv.symm, he.symm⟩

/-- White space before a line does not matter either. -/
theorem sameLine_indent (hP : P.Lawful) {u : String} (hu : JsonSpace u) (l : String) :
    SameLine P (u ++ l) l := by
  have hempty : JsonSpace "" := by decide
  have hv := hP.value_padded u l "" hu hempty
  have he := hP.entry_padded u l "" hu hempty
  rw [String.append_empty] at hv he
  exact ⟨hv, he⟩

/-! ## Appending and rewriting -/

/-- An appended line continues the unfinished text, if that is white space. -/
theorem significant_append {content l : String} (htail : JsonSpace (unfinished content))
    (hl : OneLine l) (hblank : blank l = false) :
    significant (content ++ (l ++ "\n")) = significant content ++ [unfinished content ++ l] := by
  have hlast : (unfinished content ++ l).toList.getLast? ≠ some '\r' := by
    rw [String.toList_append, List.getLast?_append]
    rcases hll : l.toList.getLast? with _ | c
    · rw [List.getLast?_eq_none_iff] at hll
      simp [blank, hll] at hblank
    · rw [Option.some_or, ← hll]
      exact hl.getLast?_ne
  have hunfinished : ((if unfinished content = "" then [] else [unfinished content]).filter
      fun l => !blank l) = [] := by
    split
    · rfl
    · simp [blank_of_jsonSpace htail]
  unfold significant
  rw [lines_append_newline content hl.newline_not_mem, stripCr_of_getLast? hlast,
    lines_eq_finished content, List.filter_append, List.filter_append, hunfinished]
  simp [blank_append, hblank]

/-- A rewrite keeps the lines that pass the predicate. -/
theorem significant_rewrite (hP : P.Lawful) (content : String) :
    significant (joinLines (goodLines P content)) =
      ((significant content).filter (keepLine P)).map stripCr := by
  have hno : ∀ l ∈ goodLines P content, '\n' ∉ l.toList :=
    fun l hl => newline_not_mem_of_mem_lines (List.mem_of_mem_filter hl)
  unfold significant
  rw [lines_joinLines hno, goodLines_eq hP]
  refine List.filter_eq_self.mpr fun l hl => ?_
  obtain ⟨l', hl', rfl⟩ := List.mem_map.mp hl
  have hkeep := (List.mem_filter.mp hl').2
  rw [← (sameLine_stripCr hP l').keepLine_eq] at hkeep
  simp [blank_of_keepLine hP hkeep]

/-- The text of an entry is one line. -/
theorem oneLine_entryText (hP : P.Lawful) (entry : JournalEntry) : OneLine (entryText P entry) :=
  oneLine_structText hP.float_oneLine _

/-- It begins with a brace. -/
theorem entryText_eq (entry : JournalEntry) : ∃ w, entryText P entry = "\x7b" ++ w :=
  ⟨_, by rw [entryText, structText, String.append_assoc]⟩

theorem blank_entryText (entry : JournalEntry) : blank (entryText P entry) = false := by
  obtain ⟨w, hw⟩ := entryText_eq (P := P) entry
  rw [hw, blank_append, show blank "\x7b" = false by decide]
  rfl

/-! ## Whole files -/

/-- Reading back is reading the text. -/
theorem readAll_eq (file : Option ByteArray) :
    readAll P file = (contentOf file).map (entriesOf P) := by
  rcases file with _ | bytes
  · rfl
  · simp only [readAll, contentOf]
    rcases readToString bytes with e | content <;> rfl

/-- The entries on the lines that pass the quarantine predicate. -/
def keptEntries (P : Platform) (content : String) : List JournalEntry :=
  ((significant content).filter (keepLine P)).filterMap P.parseEntry

/-- With no bad line, all entries are kept. -/
theorem keptEntries_of_badLines_nil {content : String} (h : badLines P content = []) :
    keptEntries P content = entriesOf P content := by
  rw [entriesOf_eq, keptEntries, List.filter_eq_self.mpr fun l hl => keepLine_of_badLines_nil h hl]

theorem entriesOf_rewrite (hP : P.Lawful) (content : String) :
    entriesOf P (joinLines (goodLines P content)) = keptEntries P content := by
  rw [entriesOf_eq, significant_rewrite hP, List.filterMap_map, keptEntries]
  exact List.filterMap_congr fun l _ => (sameLine_stripCr hP l).2

theorem badLines_rewrite (hP : P.Lawful) (content : String) :
    badLines P (joinLines (goodLines P content)) = [] := by
  have hno : ∀ l ∈ goodLines P content, '\n' ∉ l.toList :=
    fun l hl => newline_not_mem_of_mem_lines (List.mem_of_mem_filter hl)
  rw [badLines, lines_joinLines hno]
  refine List.filter_eq_nil_iff.mpr fun l hl => ?_
  obtain ⟨l', hl', rfl⟩ := List.mem_map.mp hl
  have hkeep : keepLine P (stripCr l') = true := by
    rw [(sameLine_stripCr hP l').keepLine_eq]
    have := (List.mem_filter.mp hl').2
    rw [Bool.and_eq_true] at this
    exact this.2
  simp [hkeep]

/-- Opening a journal leaves a text without bad lines that has the kept entries of the old text. -/
theorem openFile_spec (hP : P.Lawful) {file opened : Option ByteArray} {bad : List String}
    (h : openFile P file = .ok (opened, bad)) :
    ∃ content content', contentOf file = .ok content ∧ contentOf opened = .ok content' ∧
      badLines P content' = [] ∧ entriesOf P content' = keptEntries P content := by
  rcases file with _ | bytes
  · obtain ⟨rfl, -⟩ := Prod.mk.inj (Except.ok.inj h)
    exact ⟨"", "", rfl, rfl, rfl, rfl⟩
  · simp only [openFile, bind, Except.bind] at h
    rcases hread : readToString bytes with e | content <;> simp only [hread, reduceCtorEq] at h
    split at h
    · rename_i hbad
      obtain ⟨rfl, -⟩ := Prod.mk.inj (Except.ok.inj h)
      exact ⟨content, content, hread, hread, hbad, (keptEntries_of_badLines_nil hbad).symm⟩
    · obtain ⟨rfl, -⟩ := Prod.mk.inj (Except.ok.inj h)
      exact ⟨content, _, hread, readToString_textBytes _, badLines_rewrite hP content,
        entriesOf_rewrite hP content⟩

/-! ## Appending whole lines -/

theorem significant_of_terminated {s : String} (h : Terminated '\n' s.toList) (t : String) :
    significant (s ++ t) = significant s ++ significant t := by
  rw [significant, lines_append h, List.filter_append]
  rfl

/-- Entry lines written one after the other are read as these lines. -/
theorem lines_entryTexts (hP : P.Lawful) (entries : List JournalEntry) :
    lines (joinLines (entries.map (entryText P))) = entries.map (entryText P) := by
  have hone : ∀ l ∈ entries.map (entryText P), OneLine l := by
    intro l hl
    obtain ⟨entry, -, rfl⟩ := List.mem_map.mp hl
    exact oneLine_entryText hP entry
  rw [lines_joinLines fun l hl => (hone l hl).newline_not_mem]
  have hstrip : ∀ l ∈ entries.map (entryText P), stripCr l = id l :=
    fun l hl => stripCr_of_getLast? (hone l hl).getLast?_ne
  rw [List.map_congr_left hstrip, List.map_id]

/-- They are the significant lines. -/
theorem significant_joinLines (hP : P.Lawful) (entries : List JournalEntry) :
    significant (joinLines (entries.map (entryText P))) = entries.map (entryText P) := by
  rw [significant, lines_entryTexts hP]
  refine List.filter_eq_self.mpr fun l hl => ?_
  obtain ⟨entry, -, rfl⟩ := List.mem_map.mp hl
  simp [blank_entryText]

/-- The entries that appended lines give when the quarantine predicate keeps them. -/
def keptAppends (P : Platform) (entries : List JournalEntry) : List JournalEntry :=
  ((entries.map (entryText P)).filter (keepLine P)).filterMap P.parseEntry

/-- Behind a finished text, appended lines add what they give. -/
theorem keptEntries_append (hP : P.Lawful) {content : String} (hbad : badLines P content = [])
    (hdone : unfinished content = "") (entries : List JournalEntry) :
    keptEntries P (content ++ joinLines (entries.map (entryText P))) =
      entriesOf P content ++ keptAppends P entries := by
  have hterm : Terminated '\n' content.toList := by
    have hall := finished_append_unfinished content
    rw [hdone, String.append_empty] at hall
    exact hall ▸ terminated_finished content
  rw [keptEntries, significant_of_terminated hterm, significant_joinLines hP, List.filter_append,
    List.filterMap_append, ← keptEntries_of_badLines_nil hbad]
  rfl

/-- In a text without bad lines an unfinished line is one that is kept. -/
theorem keepLine_unfinished {content : String} (hbad : badLines P content = [])
    (hopen : unfinished content ≠ "") : keepLine P (unfinished content) = true := by
  have hmem : unfinished content ∈ lines content := by
    rw [lines_eq_finished content, if_neg hopen]
    simp
  by_contra hno
  have : unfinished content ∈ badLines P content :=
    List.mem_filter.mpr ⟨hmem, by simpa [hopen] using hno⟩
  rw [hbad] at this
  exact List.not_mem_nil this

/-- Behind an unfinished line, the first appended line and the unfinished one are lost together. -/
theorem keptEntries_append_unfinished (hP : P.Lawful) {content : String}
    (hbad : badLines P content = []) (hopen : unfinished content ≠ "") (entry : JournalEntry)
    (entries : List JournalEntry) :
    keptEntries P (content ++ joinLines ((entry :: entries).map (entryText P))) =
      entriesOf P (finished content) ++ keptAppends P entries := by
  have hone := oneLine_entryText hP entry
  have hkeep := keepLine_unfinished hbad hopen
  -- two values on one line are no value
  have hmerged : keepLine P (stripCr (unfinished content ++ entryText P entry)) = false := by
    obtain ⟨w, hw⟩ := entryText_eq entry
    have hvalue : (P.parseValue (unfinished content)).isSome := by
      rcases hp : P.parseValue (unfinished content) with _ | v
      · simp [keepLine, hp] at hkeep
      · rfl
    rw [(sameLine_stripCr hP _).keepLine_eq, keepLine, hw, ← String.append_assoc,
      hP.value_trailing _ _ hvalue]
  have hbadFinished : badLines P (finished content) = [] := by
    have hsub : (badLines P (finished content)).Sublist (badLines P content) := by
      unfold badLines
      rw [lines_eq_finished content]
      exact (List.sublist_append_left _ _).filter _
    rw [hbad] at hsub
    exact List.sublist_nil.mp hsub
  have hlines : content ++ joinLines ((entry :: entries).map (entryText P)) =
      (content ++ (entryText P entry ++ "\n")) ++ joinLines (entries.map (entryText P)) := by
    rw [List.map_cons, joinLines_cons]
    simp only [String.append_assoc]
  have hterm : Terminated '\n' (content ++ (entryText P entry ++ "\n")).toList := by
    rw [← String.append_assoc]
    exact terminated_append_newline _
  have hfirst : (significant (content ++ (entryText P entry ++ "\n"))).filter (keepLine P) =
      (significant (finished content)).filter (keepLine P) := by
    unfold significant
    rw [lines_append_newline content hone.newline_not_mem, List.filter_append, List.filter_append]
    have hnone : ((([stripCr (unfinished content ++ entryText P entry)]).filter fun l => !blank l).filter
        (keepLine P)) = [] := by
      refine List.filter_eq_nil_iff.mpr fun l hl => ?_
      rw [List.mem_singleton.mp (List.mem_of_mem_filter hl), hmerged]
      exact Bool.false_ne_true
    rw [hnone, List.append_nil]
  rw [hlines, keptEntries, significant_of_terminated hterm, significant_joinLines hP,
    List.filter_append, List.filterMap_append, hfirst, ← keptEntries_of_badLines_nil hbadFinished]
  rfl

/-- The entries of a text whose last line is unfinished. -/
theorem entriesOf_unfinished {content : String} (hblank : blank (unfinished content) = false) :
    entriesOf P content = entriesOf P (finished content) ++ (P.parseEntry (unfinished content)).toList := by
  have hne : unfinished content ≠ "" := by
    intro h
    rw [h] at hblank
    exact absurd hblank (by decide)
  have hlast : [unfinished content].filterMap (fun l => if blank l then none else P.parseEntry l) =
      (P.parseEntry (unfinished content)).toList := by
    rcases hp : P.parseEntry (unfinished content) with _ | e <;> simp [hblank, hp]
  rw [entriesOf, lines_eq_finished content, if_neg hne, List.filterMap_append, hlast]
  rfl

end Innen.Journal
