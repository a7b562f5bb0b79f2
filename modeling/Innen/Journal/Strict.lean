import Innen.Common.Except
import Innen.Journal.Torn

/-!
# The strict reader of the journal

Edge requests read the journal without opening it and refuse it at the first line that is no entry.
Opening keeps lines by a weaker test, an object with a string `id` and `op`, so an opened journal passes
the strict reader, and every line of it is read back, iff the lines that pass the test are entries
(`open_agrees`). The lines themselves are never lost or reordered, and opening once is enough.
-/

namespace Innen.Journal

open Innen.Common

/-- Why the journal fails the strict reader. -/
inductive RelateRequestError where
  | journalRead (path detail : String)
  | invalidJournal (path : String) (line : ℕ) (detail : String)
deriving DecidableEq

/-- The text of an error (`Display`). -/
def RelateRequestError.text : RelateRequestError → String
  | .journalRead path detail => "cannot read graph journal " ++ path ++ ": " ++ detail
  | .invalidJournal path line detail =>
    "invalid graph journal " ++ path ++ " at line " ++ toString line ++ ": " ++ detail

/-- The detail of an I/O error, without the prefix of `Display`. -/
def JournalError.detail : JournalError → String
  | .io message => message
  | other => other.text

section Reader

variable (P : Platform) (entryError : String → String) (path : String)

/-- One numbered line of the strict reader; `entryError` is the message of the entry parser. -/
def strictLine (events : List Value) (e : String × ℕ) : Except RelateRequestError (List Value) :=
  if blank e.1 then .ok events
  else
    match P.parseEntry e.1 with
    | none => .error (.invalidJournal path (e.2 + 1) (entryError e.1))
    | some entry => .ok (events ++ [Value.mkObject [("op", .string entry.op),
        ("payload", entry.payload.val), ("observed_utc", .string entry.observedUtc)]])

/-- The events `validate_relate_request_strict` reads from the journal before it replays them. -/
def strictEvents (file : Option ByteArray) : Except RelateRequestError (List Value) :=
  match file with
  | none => .ok []
  | some bytes =>
    match readToString bytes with
    | .error e => .error (.journalRead path e.detail)
    | .ok content => (lines content).zipIdx.foldlM (strictLine P entryError path) []

end Reader

variable {P : Platform} {entryError : String → String} {path : String}

theorem strictLine_ok_iff {events : List Value} {e : String × ℕ} :
    (∃ events', strictLine P entryError path events e = .ok events') ↔
      (blank e.1 = false → (P.parseEntry e.1).isSome) := by
  unfold strictLine
  rcases hblank : blank e.1 with _ | _
  · rcases P.parseEntry e.1 with _ | entry <;> simp
  · simp

theorem foldlM_strictLine_ok_iff {es : List (String × ℕ)} {events : List Value} :
    (∃ events', es.foldlM (strictLine P entryError path) events = .ok events') ↔
      ∀ e ∈ es, blank e.1 = false → (P.parseEntry e.1).isSome := by
  induction es generalizing events with
  | nil => exact ⟨fun _ e he => absurd he List.not_mem_nil, fun _ => ⟨events, rfl⟩⟩
  | cons e rest ih =>
    rw [List.forall_mem_cons, ← @strictLine_ok_iff P entryError path events, List.foldlM_cons]
    simp only [bind_eq_ok]
    constructor
    · rintro ⟨events', next, hnext, hrest⟩
      exact ⟨⟨next, hnext⟩, ih.mp ⟨events', hrest⟩⟩
    · rintro ⟨⟨next, hnext⟩, hrest⟩
      obtain ⟨events', hevents⟩ := (@ih next).mpr hrest
      exact ⟨events', next, hnext, hevents⟩

/-- The strict reader accepts a text iff every line that is not blank is an entry. -/
theorem strictEvents_ok_iff (content : String) :
    (∃ events, strictEvents P entryError path (some (textBytes content)) = .ok events) ↔
      ∀ l ∈ significant content, (P.parseEntry l).isSome := by
  simp only [strictEvents, readToString_textBytes, foldlM_strictLine_ok_iff, significant,
    List.mem_filter]
  constructor
  · rintro h l ⟨hl, hblank⟩
    obtain ⟨n, hn⟩ := List.getElem?_of_mem hl
    exact h (l, n) (List.mem_zipIdx_iff_getElem?.mpr hn) (by simpa using hblank)
  · intro h e he hblank
    exact h e.1 ⟨List.mem_of_getElem? (List.mem_zipIdx_iff_getElem?.mp he), by simp [hblank]⟩

/-- A partial map that is defined on a whole list loses nothing of it. -/
theorem map_some_filterMap {α β : Type*} {f : α → Option β} {l : List α} (h : ∀ x ∈ l, (f x).isSome) :
    (l.filterMap f).map some = l.map f := by
  induction l with
  | nil => rfl
  | cons x rest ih =>
    obtain ⟨y, hy⟩ := Option.isSome_iff_exists.mp (h x List.mem_cons_self)
    rw [List.filterMap_cons_some hy, List.map_cons, List.map_cons, hy,
      ih fun x' hx' => h x' (List.mem_cons_of_mem x hx')]

/-- Reading back returns every line that is not blank iff all of these are entries. -/
theorem readAll_all_iff (content : String) :
    (∃ entries, readAll P (some (textBytes content)) = .ok entries ∧
      (significant content).map P.parseEntry = entries.map some) ↔
      ∀ l ∈ significant content, (P.parseEntry l).isSome := by
  have hread : readAll P (some (textBytes content)) = .ok (entriesOf P content) := by
    rw [readAll_eq, contentOf, readToString_textBytes]
    rfl
  rw [hread]
  constructor
  · rintro ⟨entries, -, hmap⟩ l hl
    have hmem : P.parseEntry l ∈ entries.map some := hmap ▸ List.mem_map_of_mem hl
    obtain ⟨entry, -, hentry⟩ := List.mem_map.mp hmem
    rw [← hentry]
    rfl
  · intro h
    refine ⟨_, rfl, ?_⟩
    rw [entriesOf_eq, map_some_filterMap h]

/-! ## Opening and reading -/

/-- The nonempty lines of a text. -/
def nonemptyLines (content : String) : List String := (lines content).filter (· ≠ "")

/-- Opening a text leaves the text `left`: its lines are divided into those kept and those moved, a
second opening changes nothing, and what is left is read back line by line, by both readers. -/
structure OpensWell (P : Platform) (entryError : String → String) (path : String)
    (content left : String) : Prop where
  divided : ∃ keep : String → Bool,
    openFile P (some (textBytes content)) =
      .ok (some (textBytes left), (nonemptyLines content).filter fun l => !keep l) ∧
    (left = content ∧ (nonemptyLines content).filter keep = nonemptyLines content ∨
      left = joinLines ((nonemptyLines content).filter keep))
  stable : openFile P (some (textBytes left)) = .ok (some (textBytes left), [])
  returned : ∃ entries, readAll P (some (textBytes left)) = .ok entries ∧
    (significant left).map P.parseEntry = entries.map some
  accepted : ∃ events, strictEvents P entryError path (some (textBytes left)) = .ok events

/-- What opening leaves of a text. -/
def leftBy (P : Platform) (content : String) : String :=
  if badLines P content = [] then content else joinLines (goodLines P content)

theorem openFile_leftBy (content : String) : openFile P (some (textBytes content)) =
    .ok (some (textBytes (leftBy P content)), badLines P content) := by
  simp only [openFile, bind, Except.bind, readToString_textBytes, leftBy]
  split
  · rename_i hbad
    rw [hbad]
  · rfl

theorem badLines_eq (content : String) :
    badLines P content = (nonemptyLines content).filter fun l => !keepLine P l := by
  rw [badLines, nonemptyLines, List.filter_filter]
  exact List.filter_congr fun l _ => Bool.and_comm _ _

theorem goodLines_eq_nonempty (content : String) :
    goodLines P content = (nonemptyLines content).filter (keepLine P) := by
  rw [goodLines, nonemptyLines, List.filter_filter]
  exact List.filter_congr fun l _ => Bool.and_comm _ _

theorem badLines_leftBy (hP : P.Lawful) (content : String) : badLines P (leftBy P content) = [] := by
  unfold leftBy
  split
  · assumption
  · exact badLines_rewrite hP content

/-- The significant lines left are the kept lines, up to a carriage return at their end. -/
theorem mem_significant_leftBy (hP : P.Lawful) {content : String} :
    (∀ l ∈ significant (leftBy P content), (P.parseEntry l).isSome) ↔
      ∀ l ∈ lines content, keepLine P l = true → (P.parseEntry l).isSome := by
  have hkept : ∀ l, (l ∈ lines content ∧ keepLine P l = true) ↔
      l ∈ (significant content).filter (keepLine P) := by
    intro l
    simp only [significant, List.mem_filter]
    constructor
    · rintro ⟨hl, hk⟩
      exact ⟨⟨hl, by simp [blank_of_keepLine hP hk]⟩, hk⟩
    · rintro ⟨⟨hl, -⟩, hk⟩
      exact ⟨hl, hk⟩
  have hall : (∀ l ∈ lines content, keepLine P l = true → (P.parseEntry l).isSome) ↔
      ∀ l ∈ (significant content).filter (keepLine P), (P.parseEntry l).isSome := by
    refine ⟨fun h l hl => ?_, fun h l hl hk => h l ((hkept l).mp (And.intro hl hk))⟩
    obtain ⟨hmem, hk⟩ := (hkept l).mpr hl
    exact h l hmem hk
  rw [hall, leftBy]
  split
  · rename_i hbad
    rw [List.filter_eq_self.mpr fun l hl => keepLine_of_badLines_nil hbad hl]
  · rw [significant_rewrite hP]
    simp only [List.forall_mem_map, (sameLine_stripCr hP _).2]

/-- An opened journal is well left only if the kept lines are entries. -/
theorem OpensWell.kept_parse {content left : String} (hP : P.Lawful)
    (h : OpensWell P entryError path content left) :
    ∀ l ∈ lines content, keepLine P l = true → (P.parseEntry l).isSome := by
  obtain ⟨keep, hopen, -⟩ := h.divided
  rw [openFile_leftBy] at hopen
  simp only [Except.ok.injEq, Prod.mk.injEq, Option.some.injEq, textBytes_inj] at hopen
  obtain ⟨rfl, -⟩ := hopen
  exact (mem_significant_leftBy hP).mp ((readAll_all_iff _).mp h.returned)

/-- Opening and both readers agree iff every line that opening keeps is an entry. -/
theorem open_agrees (P : Platform) (hP : P.Lawful) (entryError : String → String) (path content : String) :
    (∃ left, OpensWell P entryError path content left) ↔
      ∀ l ∈ lines content, keepLine P l = true → (P.parseEntry l).isSome := by
  refine ⟨fun ⟨_, h⟩ => h.kept_parse hP, fun h => ⟨leftBy P content, ?_⟩⟩
  have hparse := (mem_significant_leftBy hP).mpr h
  have hbad := badLines_leftBy hP content
  refine ⟨⟨keepLine P, ?_, ?_⟩, ?_, (readAll_all_iff _).mpr hparse, (strictEvents_ok_iff _).mpr hparse⟩
  · rw [openFile_leftBy, badLines_eq]
  · unfold leftBy
    split
    · rename_i hnone
      refine .inl ⟨rfl, List.filter_eq_self.mpr fun l hl => ?_⟩
      rw [badLines_eq, List.filter_eq_nil_iff] at hnone
      simpa using hnone l hl
    · exact .inr (by rw [goodLines_eq_nonempty])
  · rw [openFile_leftBy, hbad, leftBy, if_pos hbad]

/-- A journal of whole entries is left as it is, and both readers take all of it. -/
theorem open_agrees_theme : ∃ left, OpensWell themePlatform (fun _ => "") ".innen/journal.jsonl"
    (joinLines ([themeEntry].map (entryText themePlatform))) left := by
  have hids : ([themeEntry].map (·.id)).Nodup := by decide
  have hlawful : themePlatform.Lawful := entryPlatform_lawful hids
  refine (open_agrees themePlatform hlawful _ _ _).mpr fun l hl _ => ?_
  rw [lines_entryTexts hlawful] at hl
  obtain ⟨entry, hentry, rfl⟩ := List.mem_map.mp hl
  rw [show themePlatform.parseEntry (entryText themePlatform entry) = some entry from
    parseEntry_entryPlatform hids hentry]
  rfl

/-! ## A line that is kept and never read -/

/-- An object with an `id` and an `op` and nothing else. -/
def bareLine : KnownLine where
  text := "\x7b\"id\":\"x\",\"op\":\"y\"\x7d"
  value := ⟨.object [("id", .string "x"), ("op", .string "y")], by simp +decide⟩
  entry := none

/-- Parsers that know this line. -/
def barePlatform : Platform := tablePlatform (fun _ => "") [bareLine]

theorem bareLine_kept : barePlatform.Lawful ∧ keepLine barePlatform bareLine.text = true ∧
    ¬∃ left, OpensWell barePlatform (fun _ => "missing field \x60observed_utc\x60 at line 1 column 19")
      ".innen/journal.jsonl" (bareLine.text ++ "\n") left := by
  have hlawful : barePlatform.Lawful := tablePlatform_lawful _ (by decide)
  have hkeep : keepLine barePlatform bareLine.text = true := by decide
  refine ⟨hlawful, hkeep, fun ⟨left, hleft⟩ => ?_⟩
  have hparse := hleft.kept_parse hlawful bareLine.text (by decide) hkeep
  exact absurd hparse (by decide)

end Innen.Journal
