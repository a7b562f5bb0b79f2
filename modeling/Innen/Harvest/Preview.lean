import Innen.Harvest.Runs

/-!
# The dry run

`check` selects the same files as `run`. It scans a file as text and takes a file that it cannot read, or that is no
text, to be empty and so clean. A run leaves out a file that it cannot read and scans what can be made of its bytes.
The two agree as long as this makes no difference.
-/

namespace Innen.Harvest

open Innen.Common Innen.Credentials Innen.Journal

variable {T : Tools}

/-- The label of an entry's payload, the name of a harvested file. -/
def entryLabel (entry : JournalEntry) : Option String := (entry.payload.val.index "label").asStr?

@[simp] theorem entryLabel_fileEntry (T : Tools) (rel : String) (bytes : ByteArray) (observed appended : String) :
    entryLabel (fileEntry T rel bytes observed appended) = some rel := rfl

/-- What the dry run promises of a run: which files it appends and which it skips. -/
def Agrees (T : Tools) (W : World) (s : Store) : Prop :=
  (newEntries T W s).map entryLabel = (check T s.inbox s.cursorFile).newFiles.map some ∧
    (run T W s).2.paths = (check T s.inbox s.cursorFile).skipped

/-- A file is read, and is a text or has no credential in what can be made of its bytes. -/
def Plain (inbox : Inbox) (rel : String) : Prop :=
  ∃ bytes, inbox.read rel = some bytes ∧
    ((String.fromUTF8? bytes).isSome ∨ scanCredentials (fromUtf8Lossy bytes).toList = [])

/-! ## What is scanned -/

theorem scan_empty : scanCredentials ("" : String).toList = [] := by decide

theorem checkedText_of_text {inbox : Inbox} {rel text : String} {bytes : ByteArray} (hread : inbox.read rel = some bytes)
    (htext : String.fromUTF8? bytes = some text) : checkedText inbox rel = fromUtf8Lossy bytes := by
  rw [fromUtf8Lossy_of_text htext, checkedText, hread, Option.bind_some, htext, Option.getD_some]

theorem checkedText_of_no_text {inbox : Inbox} {rel : String} {bytes : ByteArray} (hread : inbox.read rel = some bytes)
    (htext : String.fromUTF8? bytes = none) : checkedText inbox rel = "" := by
  rw [checkedText, hread, Option.bind_some, htext, Option.getD_none]

theorem checkedText_of_unreadable {inbox : Inbox} {rel : String} (hread : inbox.read rel = none) :
    checkedText inbox rel = "" := by
  rw [checkedText, hread, Option.bind_none, Option.getD_none]

/-- A run does with a file what the dry run says exactly when the file is plain. -/
theorem plain_iff {inbox : Inbox} {rel : String} :
    (ingests inbox rel = decide (scanCredentials (checkedText inbox rel).toList = []) ∧
        skips inbox rel = !decide (scanCredentials (checkedText inbox rel).toList = [])) ↔ Plain inbox rel := by
  cases hread : inbox.read rel with
  | none =>
    have hingests : ingests inbox rel = false := by rw [ingests, hread, Option.any_none]
    have hnot : ¬Plain inbox rel := by
      rintro ⟨bytes, hbytes, -⟩
      exact absurd (hread.symm.trans hbytes) (Option.some_ne_none bytes).symm
    rw [checkedText_of_unreadable hread, hingests, scan_empty]
    exact iff_of_false (fun h => absurd h.1 (by decide)) hnot
  | some bytes =>
    have hingests : ingests inbox rel = decide (scanCredentials (fromUtf8Lossy bytes).toList = []) := by
      rw [ingests, hread, Option.any_some]
    have hskips : skips inbox rel = !decide (scanCredentials (fromUtf8Lossy bytes).toList = []) := by
      rw [skips, hread, Option.any_some]
    have hplain : Plain inbox rel ↔
        ((String.fromUTF8? bytes).isSome ∨ scanCredentials (fromUtf8Lossy bytes).toList = []) := by
      rw [Plain, hread]
      refine ⟨?_, fun h => ⟨bytes, rfl, h⟩⟩
      rintro ⟨bytes', hbytes, h⟩
      obtain rfl := Option.some.inj hbytes
      exact h
    rw [hingests, hskips, hplain]
    cases htext : String.fromUTF8? bytes with
    | some text =>
      rw [checkedText_of_text hread htext]
      exact iff_of_true ⟨rfl, rfl⟩ (.inl rfl)
    | none =>
      rw [checkedText_of_no_text hread htext, scan_empty]
      by_cases hclean : scanCredentials (fromUtf8Lossy bytes).toList = [] <;> simp [hclean]

/-! ## Agreement -/

theorem filter_eq_filter_iff {α : Type*} {p q : α → Bool} {l : List α} :
    l.filter p = l.filter q ↔ ∀ a ∈ l, p a = q a := by
  refine ⟨fun h a ha => ?_, List.filter_congr⟩
  have hmem : a ∈ l.filter p ↔ a ∈ l.filter q := by rw [h]
  rw [List.mem_filter, List.mem_filter, and_iff_right ha, and_iff_right ha] at hmem
  exact Bool.eq_iff_iff.mpr hmem

theorem map_entryLabel_of_records {inbox : Inbox} {names : List String} {entries : List JournalEntry}
    (h : List.Forall₂ (Records T inbox) names entries) : entries.map entryLabel = names.map some := by
  induction h with
  | nil => rfl
  | cons hentry _ ih =>
    obtain ⟨bytes, observed, appended, -, rfl⟩ := hentry
    rw [List.map_cons, List.map_cons, entryLabel_fileEntry, ih]

/-- Both select the same files, so they agree when they judge each of these alike. -/
theorem agrees_iff {W : World} (hopen : W.opens = true) (hW : ∀ i, W.appends i = true) (s : Store) :
    Agrees T W s ↔ ∀ rel ∈ (unconsumed T s.inbox s.cursorFile).1,
      ingests s.inbox rel = decide (scanCredentials (checkedText s.inbox rel).toList = []) ∧
        skips s.inbox rel = !decide (scanCredentials (checkedText s.inbox rel).toList = []) := by
  obtain ⟨hrecords, hpaths⟩ := run_all (T := T) hopen hW s
  rw [Agrees, map_entryLabel_of_records hrecords, hpaths,
    (List.map_injective_iff.mpr (Option.some_injective String)).eq_iff, check, filter_eq_filter_iff,
    filter_eq_filter_iff]
  exact forall₂_and.symm

/-- With a journal that does not fail, a run appends and skips what the dry run says exactly when every file to handle
is plain. -/
theorem check_agrees_iff (T : Tools) (W : World) (s : Store) (hopen : W.opens = true)
    (hW : ∀ i, W.appends i = true) :
    Agrees T W s ↔ ∀ rel ∈ (unconsumed T s.inbox s.cursorFile).1, Plain s.inbox rel := by
  rw [agrees_iff hopen hW]
  exact forall₂_congr fun rel _ => plain_iff

/-! ## Files that differ -/

/-- One file of the inbox, and no cursor. -/
def oneFile (bytes : ByteArray) : Store :=
  ⟨⟨[⟨"note.md".toUTF8, .file (some bytes)⟩], List.nodup_singleton _⟩, .absent, []⟩

/-- A byte that is no text, and an access key. -/
def keyBytes : ByteArray := ⟨#[0xFF]⟩ ++ "AKIA0123456789ABCDEF".toUTF8

/-- The dry run announces the file as new, and the run skips it. -/
theorem dry_run_disagrees : ¬Agrees plainTools calmWorld (oneFile keyBytes) := by
  rw [agrees_iff rfl fun _ => rfl]
  intro h
  have hholds : (oneFile keyBytes).inbox.Holds "note.md" keyBytes := ⟨List.mem_cons_self, by decide +kernel⟩
  have hpending : "note.md" ∈ (unconsumed plainTools (oneFile keyBytes).inbox (oneFile keyBytes).cursorFile).1 :=
    List.mem_filter.mpr ⟨hholds.listed, decide_eq_true (SortedSet.not_mem_empty _)⟩
  have htext : String.fromUTF8? keyBytes = none := by decide +kernel
  have hkey : scanCredentials (fromUtf8Lossy keyBytes).toList ≠ [] := by decide +kernel
  have hingests := (h _ hpending).1
  rw [checkedText_of_no_text hholds.read htext, scan_empty, ingests, hholds.read, Option.any_some,
    decide_eq_false hkey] at hingests
  exact absurd hingests (by decide)

/-- They agree on a text. -/
theorem dry_run_agrees_text :
    Agrees plainTools calmWorld (oneFile "text".toUTF8) ↔
      ∀ rel ∈ (unconsumed plainTools (oneFile "text".toUTF8).inbox .absent).1, Plain (oneFile "text".toUTF8).inbox rel :=
  check_agrees_iff plainTools calmWorld (oneFile "text".toUTF8) rfl fun _ => rfl

end Innen.Harvest
