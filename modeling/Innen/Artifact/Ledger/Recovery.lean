import Innen.Artifact.Ledger.Directory
import Innen.Artifact.Ledger.Supersession
import Innen.Common.Transition
import Innen.Json.Readable

/-!
# Crash recovery of a ledger

The log is read strictly, and a manifest without a log cannot be read. So a ledger recovers from a crash unless the
crash stops the creation of the manifest or of the log, or the line of an entry half-way (`recovers_of_run_iff`). A
whole line whose newline is missing is read, but the next entry is put behind it on the same line. A temporary file
that is left behind only matters to a process of the same id.
-/

namespace Innen.Ledger

open Innen.Common

variable {C : Codec} {H : String → String} {d d' : Files} {i : Identity} {xs : List FileEvent} {p : ℕ}
  {s : State} {q : Request}

/-! ## Where a crash does no harm -/

/-- A write may stop at `n`: a manifest has not begun, a log is created, and of a line there is nothing or all of it,
its newline included. -/
def Write.Settled (n : ℕ) : Write → Prop
  | .create .manifest _ => n = 0
  | .create .events _ => 0 < n
  | .append _ bytes => n ≤ 1 ∨ bytes.size < n
  | _ => True

/-- The writes may stop at the `k`-th, there at `n`. -/
def Settled (ws : List Write) (k n : ℕ) : Prop := ∀ w ∈ ws[k]?, w.Settled n

/-- The writes of projections may stop anywhere. -/
theorem settled_of_derived {ws : List Write} (hws : ∀ w ∈ ws, w.Derived) (k n : ℕ) : Settled ws k n := by
  intro w hw
  have hderived := hws w (List.mem_of_getElem? hw)
  cases w with
  | create file bytes =>
    obtain ⟨f, p, rfl⟩ := hderived
    trivial
  | append file bytes => exact hderived.elim
  | rename file target => trivial

/-- A line that may stop leaves the lines before it, with or without it. -/
theorem Holds.part_append (h : Holds d i xs) {x : FileEvent} {n : ℕ} (hn : (appendWrite x).Settled n) :
    ∃ ys, Holds ((appendWrite x).part n d) i ys ∧ (ys = xs ∨ ys = xs ++ [x]) := by
  cases n with
  | zero => exact ⟨xs, h, .inl rfl⟩
  | succ n =>
    rcases hn with hn | hn
    · obtain rfl : n = 0 := by omega
      refine ⟨xs, ⟨h.manifest, ?_, h.legacyIndex⟩, .inl rfl⟩
      rw [appendWrite, Write.part, Write.perform, Function.update_self, h.events, Option.getD_some]
      simp
    · have hall : (eventText x ++ "\n").toByteArray.extract 0 n = (eventText x ++ "\n").toByteArray := by
        rw [← Nat.max_eq_left (Nat.le_of_lt_succ hn)]
        exact ByteArray.extract_zero_max_size
      refine ⟨xs ++ [x], ?_, .inr rfl⟩
      rw [appendWrite, Write.part, hall]
      exact h.append x

/-- A request that may stop where it does leaves the entries before it, with or without its own. -/
theorem Holds.stopped (hC : C.Lawful) (h : Holds d i xs) {x : FileEvent} {k n : ℕ}
    (hq : (stateOf i xs).entry H q = .ok (some x))
    (hsettled : Settled (course C H d p q).writes k n) :
    ∃ ys, Holds (stopped d (course C H d p q).writes k n) i ys ∧ (ys = xs ∨ ys = xs ++ [x]) := by
  rw [(h.readable hC).course_writes hq] at hsettled ⊢
  cases k with
  | zero => exact h.part_append (hsettled _ rfl)
  | succ k => exact ⟨xs ++ [x], (sameLedger_stopped project_derived _ k n).holds (h.append x), .inr rfl⟩

/-- A new ledger that may stop where it does is there, unless nothing is done yet. -/
theorem Bare.stopped (h : Bare d) {o : InitOptions} {ws : List Write} (hws : ∀ w ∈ ws, w.Derived) {k n : ℕ}
    (hsettled : Settled (createWrites o ++ ws) k n) :
    Ledger.stopped d (createWrites o ++ ws) k n = d ∨
      Holds (Ledger.stopped d (createWrites o ++ ws) k n) o.identity [] := by
  match k with
  | 0 =>
    obtain rfl : n = 0 := hsettled _ rfl
    exact .inl rfl
  | 1 =>
    have hn : 0 < n := hsettled _ rfl
    obtain ⟨n, rfl⟩ := Nat.exists_eq_succ_of_ne_zero hn.ne'
    refine .inr ⟨rfl, ?_, h.legacyIndex⟩
    change some (ByteArray.extract .empty 0 n) = _
    simp [logText, joinLines]
  | k + 2 => exact .inr ((sameLedger_stopped hws _ k n).holds (h.created o))

/-! ## Runs -/

/-- An operation by a process, which a crash may stop. -/
structure Step where
  request : Request
  pid : ℕ
  stop : Option (ℕ × ℕ)

/-- The directory after a step. -/
def stepFiles (C : Codec) (sha256Hex : String → String) (d : Files) (t : Step) : Files :=
  match t.stop with
  | none => (course C sha256Hex d t.pid t.request).done Write.perform d
  | some (k, n) => stopped d (course C sha256Hex d t.pid t.request).writes k n

/-- Every step is taken. -/
def fileStep (C : Codec) (sha256Hex : String → String) (d : Files) (t : Step) : Option Files :=
  some (stepFiles C sha256Hex d t)

/-- The condition on a step: it stops where that does no harm. -/
def SettledStep (C : Codec) (sha256Hex : String → String) (d : Files) (t : Step) : Prop :=
  ∀ k n, t.stop = some (k, n) → Settled (course C sha256Hex d t.pid t.request).writes k n

/-- The directory holds a ledger or nothing of one. -/
def Intact (d : Files) : Prop := Bare d ∨ ∃ i xs, Holds d i xs

theorem stepFiles_plain {t : Step} {r : Except LedgerError Unit}
    (h : course C H d t.pid t.request = .plain r) : stepFiles C H d t = d := by
  rw [stepFiles, h]
  cases t.stop <;> rfl

/-- A step that stops where that does no harm keeps the directory intact. -/
theorem Intact.step (hC : C.Lawful) (hs : Intact d) {t : Step} (ht : SettledStep C H d t) :
    Intact (stepFiles C H d t) := by
  rcases hs with hbare | ⟨i, xs, hholds⟩
  · rcases hbare.course_cases (C := C) (H := H) (p := t.pid) t.request with
      ⟨e, he⟩ | ⟨o, hq, ho⟩
    · rw [stepFiles_plain he]
      exact .inl hbare
    · rw [SettledStep, hq, hbare.course_init ho] at ht
      rw [stepFiles, hq, hbare.course_init ho]
      cases hstop : t.stop with
      | none => exact .inr ⟨_, _, hbare.create_done o⟩
      | some point =>
        obtain ⟨k, n⟩ := point
        rcases hbare.stopped project_derived (ht k n hstop) with hsame | hholds
        · refine .inl ?_
          rw [← hsame] at hbare
          exact hbare
        · exact .inr ⟨_, _, hholds⟩
  · have hread := hholds.readable hC
    cases hq : (stateOf i xs).entry H t.request with
    | error e =>
      obtain ⟨e', he'⟩ := hread.course_error (p := t.pid) hC hq
      rw [stepFiles_plain he']
      exact .inr ⟨i, xs, hholds⟩
    | ok y =>
      cases y with
      | none =>
        rw [stepFiles_plain (hread.course_none hC hq).2]
        exact .inr ⟨i, xs, hholds⟩
      | some x =>
        rw [stepFiles]
        cases hstop : t.stop with
        | none => exact .inr ⟨i, _, hholds.done hC hq⟩
        | some point =>
          obtain ⟨k, n⟩ := point
          obtain ⟨ys, hys, -⟩ := hholds.stopped hC hq (ht k n hstop)
          exact .inr ⟨i, ys, hys⟩

/-! ## Opening and repeating -/

/-- A request that is made again at another time. -/
def Request.at (now : String) : Request → Request
  | .init o => .init o
  | .add o file _ => .add o file now
  | .event x _ => .event x now

/-- After a crash in the middle of `q` a process opens the ledger with `o`, what is read then is what is read before
`q` or behind it, and the process performs `q` again. -/
structure Recovers (C : Codec) (sha256Hex : String → String) (d : Files) (q : Request) (pid : ℕ) (left : Files)
    (o : InitOptions) (pid' : ℕ) (now : String) : Prop where
  opened : (course C sha256Hex left pid' (.init o)).result = .ok ()
  read : ∃ s, readState C ((course C sha256Hex left pid' (.init o)).done Write.perform left) = .ok s ∧
    (readState C d = .ok s ∨ readState C ((course C sha256Hex d pid q).done Write.perform d) = .ok s)
  repeated : (course C sha256Hex ((course C sha256Hex left pid' (.init o)).done Write.perform left) pid' (q.at now)).result = .ok ()

/-- The options open the ledger that the operation works on, or they are those of the operation itself. -/
def OpensWith (C : Codec) (sha256Hex : String → String) (d : Files) (pid : ℕ) (o : InitOptions) : Request → Prop
  | .init o' => o = o'
  | _ => (course C sha256Hex d pid (.init o)).result = .ok ()

/-- Performing the request again writes the projections: it is not an `init` that finds a manifest. -/
def Projects (left : Files) : Request → Prop
  | .init _ => left .manifest = none
  | _ => True

/-- A receipt that can be added can be added again. -/
theorem newReceipt_again {s s' : State} {o : AddOptions} {file : FileAnswer} {now : String} {r : Receipt}
    (h : newReceipt H s o file now = .ok r) (hidentity : s'.identity = s.identity) (now' : String) :
    ∃ r', newReceipt H s' o file now' = .ok r' := by
  simp only [newReceipt, bind_eq_ok, failIf_eq_ok] at h ⊢
  obtain ⟨_, howner, _, hrole, _, hrelation, path, hpath, inDownloads, hin, _, hdownloads, _, hmatch, hash, hhash, -⟩ := h
  exact ⟨_, (), howner, (), hrole, (), hrelation, path, hpath, inDownloads, hin, (), hdownloads, (),
    hidentity.symm ▸ hmatch, hash, hhash, rfl⟩

/-- So can an event about the same receipts. -/
theorem newEvent_again {s s' : State} {x : LedgerEvent} {now : String} {e : EventRecord}
    (h : newEvent s x now = .ok e) (hidentity : s'.identity = s.identity) (hreceipts : s'.receipts = s.receipts)
    (now' : String) : ∃ e', newEvent s' x now' = .ok e' := by
  cases x with
  | note id note date =>
    simp only [newEvent, bind_eq_ok, hreceipts] at h ⊢
    obtain ⟨r, hr, -⟩ := h
    exact ⟨_, r, hr, rfl⟩
  | supersede id superseded date =>
    simp only [newEvent, bind_eq_ok, hreceipts, hidentity] at h ⊢
    obtain ⟨a, ha, b, hb, u, hu, -⟩ := h
    exact ⟨_, a, ha, b, hb, u, hu, rfl⟩
  | relocate id expected file date =>
    simp only [newEvent, bind_eq_ok, hreceipts] at h ⊢
    obtain ⟨r, hr, path, hpath, b, hb, u, hu, hash, hhash, v, hv, -⟩ := h
    exact ⟨_, r, hr, path, hpath, b, hb, u, hu, hash, hhash, v, hv, rfl⟩
  | reclassify id owner relation provenance date =>
    simp only [newEvent, bind_eq_ok, hreceipts, hidentity] at h ⊢
    obtain ⟨r, hr, u, hu, v, hv, w, hw, -⟩ := h
    exact ⟨_, r, hr, u, hu, v, hv, w, hw, rfl⟩

/-- A request with an entry has one when it is made again, before that entry or behind it. -/
theorem entry_again {s s' : State} {q : Request} {x : FileEvent} (h : s.entry H q = .ok (some x))
    (hs' : s' = s ∨ s' = s.push (some x)) (now : String) :
    ∃ x', s'.entry H (q.at now) = .ok (some x') := by
  have hidentity : s'.identity = s.identity := by rcases hs' with rfl | rfl <;> rfl
  cases q with
  | init o =>
    simp only [State.entry, bind_eq_ok] at h
    obtain ⟨u, -, h⟩ := h
    cases h
  | add o file now' =>
    simp only [State.entry, bind_eq_ok] at h
    obtain ⟨r, hr, -⟩ := h
    obtain ⟨r', hr'⟩ := newReceipt_again hr hidentity now
    exact ⟨r'.entry, by rw [Request.at, State.entry, hr']; rfl⟩
  | event y now' =>
    simp only [State.entry, bind_eq_ok] at h
    obtain ⟨e, he, hx⟩ := h
    obtain rfl := Option.some.inj (Except.ok.inj hx)
    have hreceipts : s'.receipts = s.receipts := by
      rcases hs' with rfl | rfl
      · rfl
      · simp [State.push, EventRecord.entry]
    obtain ⟨e', he'⟩ := newEvent_again he hidentity hreceipts now
    exact ⟨e'.entry, by rw [Request.at, State.entry, he']; rfl⟩

/-! ## Recovering -/

/-- Opening a ledger with its own options changes nothing. -/
theorem Readable.opened (hC : C.Lawful) (h : Readable C d s) {o : InitOptions} (ho : s.reopen o = .ok ()) :
    course C H d p (.init o) = .plain (.ok ()) := by rw [h.course_init hC, ho]

/-- Where the manifest is, opening writes nothing. -/
theorem opened_of_manifest {manifest : ByteArray} (h : d .manifest = some manifest) (o : InitOptions) :
    (course C H d p (.init o)).done Write.perform d = d := by
  rw [course]
  cases checkInit o with
  | error e => rfl
  | ok u =>
    dsimp only
    rw [h]
    rfl

/-- What cannot be read does not recover. -/
theorem not_recovers_of_unreadable {left : Files} {manifest : ByteArray} (hmanifest : left .manifest = some manifest)
    (hread : ∀ s, readState C left ≠ .ok s) {o : InitOptions} {p' : ℕ} {now : String} :
    ¬Recovers C H d q p left o p' now := by
  rintro ⟨-, ⟨s, hs, -⟩, -⟩
  rw [opened_of_manifest hmanifest] at hs
  exact hread s hs

/-- Where whole lines are left, the request can be performed again iff no temporary file is in the way. -/
theorem Holds.recovers_iff (hC : C.Lawful) (h : Holds d i xs) {x : FileEvent}
    (hq : (stateOf i xs).entry H q = .ok (some x)) {left : Files} {ys : List FileEvent}
    (hleft : Holds left i ys) (hys : ys = xs ∨ ys = xs ++ [x]) {o : InitOptions}
    (ho : (stateOf i xs).reopen o = .ok ()) {p' : ℕ} {now : String} :
    Recovers C H d q p left o p' now ↔ TempFree left p' := by
  have ho' : (stateOf i ys).reopen o = .ok () := ho
  have hopened := (hleft.readable hC).opened (H := H) (p := p') hC ho'
  have hdone : (course C H left p' (.init o)).done Write.perform left = left := by rw [hopened]; rfl
  have hstate : stateOf i ys = stateOf i xs ∨ stateOf i ys = (stateOf i xs).push (some x) := by
    rcases hys with rfl | rfl
    · exact .inl rfl
    · exact .inr (stateOf_append i xs x)
  obtain ⟨x', hx'⟩ := entry_again hq hstate now
  have hrepeat := hleft.course_result (p := p') hC hx'
  constructor
  · rintro ⟨-, -, hrepeated⟩
    rw [hdone] at hrepeated
    exact hrepeat.mp hrepeated
  · intro htemp
    refine ⟨by rw [hopened]; rfl, ⟨stateOf i ys, by rw [hdone, hleft.readState hC], ?_⟩, ?_⟩
    · rcases hys with rfl | rfl
      · exact .inl (h.readState hC)
      · exact .inr ((h.done hC hq).readState hC)
    · rw [hdone]
      exact hrepeat.mpr htemp

/-- An `init` that finds its ledger writes nothing, so it can be repeated. -/
theorem Holds.recovers_init (hC : C.Lawful) (h : Holds d i xs) {o : InitOptions}
    (hq : (stateOf i xs).entry H (.init o) = .ok none) {p' : ℕ} {now : String} :
    Recovers C H d (.init o) p d o p' now := by
  have hreopen : (stateOf i xs).reopen o = .ok () := by
    simp only [State.entry, bind_eq_ok] at hq
    obtain ⟨_, hr, -⟩ := hq
    exact hr
  have hopened := (h.readable hC).opened (H := H) (p := p') hC hreopen
  have hdone : (course C H d p' (.init o)).done Write.perform d = d := by rw [hopened]; rfl
  refine ⟨by rw [hopened]; rfl, ⟨_, by rw [hdone, h.readState hC], .inl (h.readState hC)⟩, ?_⟩
  rw [hdone, Request.at, hopened]
  rfl

/-- A line without its newline is read, but the next entry is put behind it. -/
theorem not_recovers_unterminated (hC : C.Lawful) {x : FileEvent}
    (hq : (stateOf i xs).entry H q = .ok (some x)) {left : Files}
    (hmanifest : left .manifest = some (manifestText i).toByteArray) (hlegacy : left .legacyIndex = none)
    (hevents : left .events = some (logText xs ++ eventText x).toByteArray) {o : InitOptions} {p' : ℕ}
    {now : String} : ¬Recovers C H d q p left o p' now := by
  rintro ⟨-, -, hrepeated⟩
  rw [opened_of_manifest hmanifest] at hrepeated
  obtain ⟨cs, hcs⟩ := eventText_toList x
  have hreadable : Readable C left (stateOf i (xs ++ [x])) := by
    refine ⟨hmanifest, hlegacy, ?_⟩
    have hline := readEvents_line (C := C) hcs (oneLine_eventText x) (.inl rfl)
    rw [String.append_empty, hC.event_roundTrip] at hline
    rw [readState_text hC hmanifest hevents, readEvents_logText_append hC, hline]
    rfl
  obtain ⟨x', hx'⟩ := entry_again hq (.inr (stateOf_append i xs x)) now
  obtain ⟨⟨s, hs⟩, -⟩ := project_result.mp (hreadable.project_of_result hx' hrepeated)
  have hnext : ((appendWrite x').perform left) .events =
      some (logText xs ++ (eventText x ++ eventText x' ++ "\n")).toByteArray := by
    rw [appendWrite, Write.perform, Function.update_self, hevents, Option.getD_some, ← String.toByteArray_append]
    simp only [String.append_assoc]
  have hjoined : (eventText x ++ eventText x').toList = '\x7b' :: (cs ++ (eventText x').toList) := by
    rw [String.toList_append, hcs]
    rfl
  obtain ⟨e, he⟩ := hC.event_trailing x x'
  rw [readState_text hC (d := (appendWrite x').perform left) hmanifest hnext, readEvents_logText_append hC,
    readEvents_line hjoined ((oneLine_eventText x).append (oneLine_eventText x')) (.inr rfl), he] at hs
  cases hs

/-- A part of a line at the end of the log is not read. -/
theorem not_read_torn (hC : C.Lawful) {x : FileEvent} {left : Files}
    (hmanifest : left .manifest = some (manifestText i).toByteArray) {t r : String}
    (hevents : left .events = some (logText xs ++ t).toByteArray) (hline : eventText x = t ++ r) (ht : t ≠ "")
    (hr : r ≠ "") (s : State) : readState C left ≠ .ok s := by
  intro hs
  obtain ⟨cs, hcs⟩ := eventText_toList x
  have hchars := congrArg String.toList hline
  rw [hcs, String.toList_append] at hchars
  have htext : ∃ ds, t.toList = '\x7b' :: ds := by
    cases htl : t.toList with
    | nil => exact absurd (String.toList_inj.mp htl) ht
    | cons c ds =>
      rw [htl, List.cons_append, List.cons.injEq] at hchars
      exact ⟨ds, by rw [hchars.1]⟩
  obtain ⟨ds, hds⟩ := htext
  have hone : OneLine t := by
    intro c hc
    refine oneLine_eventText x c ?_
    rw [hline, String.toList_append]
    exact List.mem_append_left _ hc
  have hread := readEvents_line (C := C) hds hone (.inl rfl)
  obtain ⟨e, he⟩ := hC.event_cut x t r hline hr
  rw [String.append_empty, he] at hread
  rw [readState_text hC hmanifest hevents, readEvents_logText_append hC, hread] at hs
  cases hs

/-- Bytes that are no text are not read. -/
theorem not_read_of_fromUTF8? {left : Files} {log : ByteArray} (hevents : left .events = some log)
    (h : String.fromUTF8? log = none) (s : State) : readState C left ≠ .ok s := by
  intro hs
  simp only [Ledger.readState, hevents, okOr_some, bind_eq_ok] at hs
  obtain ⟨_, -, _, -, log', hlog, _, htext, -⟩ := hs
  obtain rfl := Except.ok.inj hlog
  rw [h] at htext
  cases htext

/-- A line that stops half-way. -/
theorem Holds.part_line (h : Holds d i xs) {x : FileEvent} {m : ℕ} (hm : m ≤ (eventText x).toByteArray.size) :
    ((appendWrite x).part (m + 1) d) .events =
      some ((logText xs).toByteArray ++ (eventText x).toByteArray.extract 0 m) := by
  have hnone : "\n".toByteArray.extract (0 - (eventText x).toByteArray.size) (m - (eventText x).toByteArray.size) =
      .empty := by
    rw [ByteArray.extract_eq_empty_iff]
    omega
  rw [appendWrite, Write.part, Write.perform, Function.update_self, h.events, Option.getD_some,
    String.toByteArray_append, ByteArray.extract_append, hnone, ByteArray.append_empty]

/-- A part of a line at the end of the log: it is not read, or it is the whole line and nothing can follow it. -/
theorem Holds.not_recovers_torn (hC : C.Lawful) (h : Holds d i xs) {x : FileEvent}
    (hq : (stateOf i xs).entry H q = .ok (some x)) {n : ℕ} (hn : ¬(appendWrite x).Settled n)
    {o : InitOptions} {p' : ℕ} {now : String} :
    ¬Recovers C H d q p ((appendWrite x).part n d) o p' now := by
  have hbounds : ¬(n ≤ 1 ∨ (eventText x ++ "\n").toByteArray.size < n) := hn
  have hsize : (eventText x ++ "\n").toByteArray.size = (eventText x).toByteArray.size + 1 := by
    rw [String.toByteArray_append, ByteArray.size_append]
    rfl
  obtain ⟨m, rfl⟩ : ∃ m, n = m + 1 := ⟨n - 1, by omega⟩
  have hevents := h.part_line (x := x) (m := m) (by omega)
  have hmanifest : ((appendWrite x).part (m + 1) d) .manifest = some (manifestText i).toByteArray := h.manifest
  cases ht : String.fromUTF8? ((eventText x).toByteArray.extract 0 m) with
  | none =>
    refine not_recovers_of_unreadable hmanifest (not_read_of_fromUTF8? hevents ?_)
    rw [fromUTF8?_append, ht]
    rfl
  | some t =>
    have hcut : (eventText x).toByteArray = (eventText x).toByteArray.extract 0 m ++
        (eventText x).toByteArray.extract m (eventText x).toByteArray.size := by
      rw [← ByteArray.extract_eq_extract_append_extract m (Nat.zero_le _) (by omega), ByteArray.extract_zero_size]
    obtain ⟨r, hr, -⟩ := fromUTF8?_cut hcut ht
    have htorn := eq_toByteArray_of_fromUTF8? ht
    rw [htorn, ← String.toByteArray_append] at hevents
    by_cases hrest : r = ""
    · rw [hrest, String.append_empty] at hr
      rw [← hr] at hevents
      exact not_recovers_unterminated hC hq hmanifest h.legacyIndex hevents
    · refine not_recovers_of_unreadable hmanifest (not_read_torn hC hmanifest hevents hr ?_ hrest)
      rintro rfl
      have hempty := (ByteArray.extract_eq_empty_iff (b := (eventText x).toByteArray) (i := 0) (j := m)).mp htorn
      omega

/-- A manifest without a log cannot be read. -/
theorem not_read_of_no_log {left : Files} (hevents : left .events = none) (s : State) : readState C left ≠ .ok s := by
  intro hs
  simp only [Ledger.readState, hevents, okOr_none, bind_eq_ok] at hs
  obtain ⟨_, -, _, -, _, hlog, -⟩ := hs
  cases hlog

/-- What a crash of `init` leaves where it may not stop. -/
theorem Bare.stopped_unsettled (h : Bare d) {o : InitOptions} {ws : List Write} (hws : ∀ w ∈ ws, w.Derived) {k n : ℕ}
    (hn : ¬Settled (createWrites o ++ ws) k n) :
    ∃ manifest, (Ledger.stopped d (createWrites o ++ ws) k n) .manifest = some manifest ∧
      (Ledger.stopped d (createWrites o ++ ws) k n) .events = none := by
  match k with
  | 0 =>
    cases n with
    | zero =>
      refine absurd (fun w hw => ?_) hn
      obtain rfl := Option.some.inj hw
      rfl
    | succ n => exact ⟨_, rfl, h.events⟩
  | 1 =>
    cases n with
    | zero => exact ⟨_, rfl, h.events⟩
    | succ n =>
      refine absurd (fun w hw => ?_) hn
      obtain rfl := Option.some.inj hw
      exact Nat.succ_pos n
  | k + 2 => exact absurd (settled_of_derived hws k n) hn

/-- The claim for `init` on a directory without a ledger. -/
theorem Bare.recovers_iff (hC : C.Lawful) (h : Bare d) {o : InitOptions} (ho : checkInit o = .ok ())
    (k n p' : ℕ) (now : String) :
    Recovers C H d (.init o) p (Ledger.stopped d (course C H d p (.init o)).writes k n) o p' now ↔
      Settled (course C H d p (.init o)).writes k n ∧
        ((Ledger.stopped d (course C H d p (.init o)).writes k n) .manifest = none →
          TempFree (Ledger.stopped d (course C H d p (.init o)).writes k n) p') := by
  have hreopen : (stateOf o.identity []).reopen o = .ok () := by
    rw [State.reopen, ho]
    simp [stateOf, InitOptions.identity, failIf, bind, Except.bind]
  have hafter : Ledger.readState C ((course C H d p (.init o)).done Write.perform d) = .ok (stateOf o.identity []) := by
    rw [h.course_init ho]
    exact (h.create_done o).readState hC
  obtain ⟨left, hleft⟩ : ∃ left, left = Ledger.stopped d (course C H d p (.init o)).writes k n := ⟨_, rfl⟩
  by_cases hsettled : Settled (course C H d p (.init o)).writes k n
  · have hcases : left = d ∨ Holds left o.identity [] := by
      rw [h.course_init ho] at hsettled hleft
      rw [hleft]
      exact h.stopped project_derived hsettled
    rw [← hleft]
    rcases hcases with rfl | hholds
    · have hdone : Holds ((course C H left p' (.init o)).done Write.perform left) o.identity [] := by
        rw [h.course_init ho]
        exact h.create_done o
      have hresult : (course C H left p' (.init o)).result = .ok () ↔ TempFree left p' := by
        rw [h.course_init ho]
        exact h.create_result hC o
      constructor
      · exact fun hr => ⟨hsettled, fun _ => hresult.mp hr.opened⟩
      · rintro ⟨-, htemp⟩
        refine ⟨hresult.mpr (htemp h.manifest), ⟨_, hdone.readState hC, .inr hafter⟩, ?_⟩
        rw [Request.at, (hdone.readable hC).opened hC hreopen]
        rfl
    · have hopened := (hholds.readable hC).opened (H := H) (p := p') hC hreopen
      refine ⟨fun _ => ⟨hsettled, fun hnone => ?_⟩, fun _ => ⟨by rw [hopened]; rfl, ⟨_, ?_, .inr hafter⟩, ?_⟩⟩
      · rw [hholds.manifest] at hnone
        cases hnone
      · rw [hopened]
        exact hholds.readState hC
      · rw [hopened, Request.at]
        change (course C H left p' (.init o)).result = _
        rw [hopened]
        rfl
  · refine ⟨fun hr => absurd hr ?_, fun hr => absurd hr.1 hsettled⟩
    rw [h.course_init ho] at hsettled ⊢
    obtain ⟨manifest, hmanifest, hevents⟩ := h.stopped_unsettled project_derived hsettled
    exact not_recovers_of_unreadable hmanifest (not_read_of_no_log hevents)

/-! ## Every run -/

/-- After any run whose crashes do no harm, the ledger recovers from a crash of one more operation exactly when the
crash stops no write half-way that must not stop there, and no temporary file is in the way of the repetition. -/
theorem recovers_of_run_iff (hC : C.Lawful) {steps : List Step} {d : Files}
    (hrun : GuardedRun (fileStep C H) (SettledStep C H) noFiles steps d) {q : Request} {p : ℕ}
    (hok : (course C H d p q).result = .ok ()) {o : InitOptions} (ho : OpensWith C H d p o q)
    (k n p' : ℕ) (now : String) :
    Recovers C H d q p (stopped d (course C H d p q).writes k n) o p' now ↔
      Settled (course C H d p q).writes k n ∧
        (Projects (stopped d (course C H d p q).writes k n) q →
          TempFree (stopped d (course C H d p q).writes k n) p') := by
  have hintact : Intact d := hrun.invariant (fun hs hok hstep => Option.some.inj hstep ▸ hs.step hC hok)
    (.inl ⟨rfl, rfl, rfl, rfl, rfl⟩)
  rcases hintact with hbare | ⟨i, xs, hholds⟩
  · rcases hbare.course_cases (C := C) (H := H) (p := p) q with ⟨e, he⟩ | ⟨o', rfl, ho'⟩
    · rw [he] at hok
      cases hok
    · obtain rfl : o = o' := ho
      exact hbare.recovers_iff hC ho' k n p' now
  · have hread := hholds.readable hC
    cases hq : (stateOf i xs).entry H q with
    | error e =>
      obtain ⟨e', he'⟩ := hread.course_error (p := p) hC hq
      rw [he'] at hok
      cases hok
    | ok y =>
      cases y with
      | none =>
        obtain ⟨⟨o', rfl⟩, hcourse⟩ := hread.course_none (p := p) hC hq
        obtain rfl : o = o' := ho
        have hprojects : ¬Projects d (.init o) := fun hnone => by
          rw [Projects, hholds.manifest] at hnone
          cases hnone
        rw [hcourse]
        exact ⟨fun _ => ⟨fun w hw => (by cases hw), fun h => absurd h hprojects⟩, fun _ =>
          hholds.recovers_init hC hq⟩
      | some x =>
        have hinit : ∀ o', q ≠ .init o' := by
          rintro o' rfl
          simp only [State.entry, bind_eq_ok] at hq
          obtain ⟨_, -, hq⟩ := hq
          cases hq
        have hreopen : (stateOf i xs).reopen o = .ok () := by
          have hopens : (course C H d p (.init o)).result = .ok () := by
            cases q with
            | init o' => exact absurd rfl (hinit o')
            | add => exact ho
            | event => exact ho
          rwa [hread.course_init hC] at hopens
        have hprojects : ∀ left, Projects left q := by
          intro left
          cases q with
          | init o' => exact absurd rfl (hinit o')
          | add => trivial
          | event => trivial
        by_cases hsettled : Settled (course C H d p q).writes k n
        · obtain ⟨ys, hleft, hys⟩ := hholds.stopped hC hq hsettled
          rw [hholds.recovers_iff hC hq hleft hys hreopen]
          exact ⟨fun htemp => ⟨hsettled, fun _ => htemp⟩, fun h => h.2 (hprojects _)⟩
        · refine ⟨fun hr => absurd hr ?_, fun hr => absurd hr.1 hsettled⟩
          rw [hread.course_writes hq] at hsettled ⊢
          cases k with
          | zero =>
            refine hholds.not_recovers_torn hC hq fun hn => hsettled fun w hw => ?_
            obtain rfl := Option.some.inj hw
            exact hn
          | succ k => exact absurd (settled_of_derived project_derived k n) hsettled

/-! ## Parsers that know what is printed -/

theorem optional_inj {a b : Option String} (h : optional a = optional b) : a = b := by
  cases a <;> cases b <;> simp_all [optional]

theorem sourceKind_asStr_inj {a b : SourceKind} (h : a.asStr = b.asStr) : a = b := by
  revert h
  cases a <;> cases b <;> decide

theorem stage_asStr_inj {a b : LifecycleStage} (h : a.asStr = b.asStr) : a = b := by
  revert h
  cases a <;> cases b <;> decide

theorem receipt_fields_inj {a b : Receipt} (h : a.fields = b.fields) : a = b := by
  obtain ⟨⟩ := a
  obtain ⟨⟩ := b
  simp only [Receipt.fields, List.cons.injEq, Prod.mk.injEq, true_and, and_true, Value.string.injEq,
    Value.number.injEq, Number.posInt.injEq] at h
  obtain ⟨rfl, hdocument, rfl, rfl, rfl, hkind, rfl, hstage, rfl, rfl, rfl, hdate, hauthority, hevidence, hprovenance,
    hfrom, huntil⟩ := h
  rw [optional_inj hdocument, sourceKind_asStr_inj hkind, stage_asStr_inj hstage, optional_inj hdate,
    optional_inj hauthority, optional_inj hevidence, optional_inj hprovenance, optional_inj hfrom, optional_inj huntil]

theorem event_fields_inj {a b : EventRecord} (h : a.fields = b.fields) : a = b := by
  obtain ⟨⟩ := a
  obtain ⟨⟩ := b
  simp only [EventRecord.fields, List.cons.injEq, Prod.mk.injEq, true_and, and_true, Value.string.injEq,
    Value.number.injEq, Number.posInt.injEq] at h
  obtain ⟨rfl, rfl, rfl, rfl, hdate, hsupersedes, hpath, hsha, hnote, howner, hrelation, hprovenance⟩ := h
  rw [optional_inj hdate, optional_inj hsupersedes, optional_inj hpath, optional_inj hsha, optional_inj hnote,
    optional_inj howner, optional_inj hrelation, optional_inj hprovenance]

/-- An entry is told from its fields. -/
theorem fileEvent_fields_inj {a b : FileEvent} (h : a.fields = b.fields) : a = b := by
  obtain ⟨magic, receipt, event⟩ := a
  obtain ⟨magic', receipt', event'⟩ := b
  simp only [FileEvent.fields, List.cons.injEq, Prod.mk.injEq, true_and, and_true, Value.string.injEq] at h
  obtain ⟨rfl, hreceipt, hevent⟩ := h
  have hr : receipt = receipt' := by
    cases receipt <;> cases receipt' <;> simp at hreceipt
    · rfl
    · rw [receipt_fields_inj hreceipt]
  have he : event = event' := by
    cases event <;> cases event' <;> simp at hevent
    · rfl
    · rw [event_fields_inj hevent]
  rw [hr, he]

theorem floatless_optional (s : Option String) : (optional s).Floatless := by cases s <;> trivial

theorem floatless_fields (x : FileEvent) : Value.FloatlessFields x.fields := by
  obtain ⟨magic, receipt, event⟩ := x
  refine ⟨trivial, ?_, ?_, trivial⟩
  · cases receipt with
    | none => trivial
    | some r => simp [Value.Floatless, Value.FloatlessFields, Receipt.fields, floatless_optional]
  · cases event with
    | none => trivial
    | some e => simp [Value.Floatless, Value.FloatlessFields, EventRecord.fields, floatless_optional]

/-- A line that starts with the line of an entry is that line. -/
theorem eventText_append_inj {a b : FileEvent} {x y : String} (h : eventText a ++ x = eventText b ++ y) :
    a = b ∧ x = y := by
  obtain ⟨hfields, hxy⟩ := structText_append_inj (floatless_fields a) (floatless_fields b) h
  exact ⟨fileEvent_fields_inj hfields, hxy⟩

theorem eventText_ne_empty (x : FileEvent) : eventText x ≠ "" := by
  obtain ⟨cs, hcs⟩ := eventText_toList x
  intro h
  rw [h] at hcs
  cases hcs

/-- The items behind the first one. -/
theorem joined_inj {cs ds : List String} {rest : String} (hrest : ∀ t, rest ≠ itemStart ++ t)
    (h : String.join (cs.map fun c => itemStart ++ quote c) ++ rest =
      String.join (ds.map fun c => itemStart ++ quote c) ++ rest) : cs = ds := by
  induction cs generalizing ds with
  | nil =>
    cases ds with
    | nil => rfl
    | cons d ds =>
      rw [List.map_nil, List.map_cons, String.join_nil, String.join_cons, String.empty_append, String.append_assoc,
        String.append_assoc] at h
      exact absurd h (hrest _)
  | cons c cs ih =>
    cases ds with
    | nil =>
      rw [List.map_nil, List.map_cons, String.join_nil, String.join_cons, String.empty_append, String.append_assoc,
        String.append_assoc] at h
      exact absurd h.symm (hrest _)
    | cons d ds =>
      simp only [List.map_cons, String.join_cons, String.append_assoc, String.append_right_inj] at h
      obtain ⟨hc, hcs⟩ := quote_append_inj h
      rw [hc, ih hcs]

theorem prettyTexts_inj {cs ds : List String} (h : prettyTexts cs = prettyTexts ds) : cs = ds := by
  have hcons : ∀ (c : String) (cs : List String), prettyTexts (c :: cs) =
      "[\n    " ++ (quote c ++ (String.join (cs.map fun c => itemStart ++ quote c) ++ "\n  ]")) := by
    intro c cs
    rw [prettyTexts, String.append_assoc, String.append_assoc]
  have hne : ∀ (c : String) (cs : List String), prettyTexts (c :: cs) ≠ "[]" := by
    intro c cs heq
    have hchars := congrArg String.toList heq
    rw [hcons, String.toList_append] at hchars
    cases List.tail_eq_of_cons_eq hchars
  cases cs with
  | nil =>
    cases ds with
    | nil => rfl
    | cons d ds => exact absurd h.symm (hne d ds)
  | cons c cs =>
    cases ds with
    | nil => exact absurd h (hne c cs)
    | cons d ds =>
      rw [hcons, hcons, String.append_right_inj] at h
      obtain ⟨hc, hcs⟩ := quote_append_inj h
      have hend : ∀ t, "\n  ]" ≠ itemStart ++ t := by
        intro t heq
        have hchars := congrArg String.toList heq
        rw [String.toList_append] at hchars
        exact absurd (List.cons.inj hchars).1 (by decide)
      rw [hc, joined_inj hend hcs]

/-- Two literals in a text with fixed parts. -/
theorem literals_inj {a b c z p p' t t' l l' : String}
    (h : a ++ quote p ++ b ++ quote t ++ c ++ l ++ z = a ++ quote p' ++ b ++ quote t' ++ c ++ l' ++ z) :
    p = p' ∧ t = t' ∧ l = l' := by
  simp only [String.append_assoc, String.append_right_inj] at h
  obtain ⟨hp, hrest⟩ := quote_append_inj h
  rw [String.append_right_inj] at hrest
  obtain ⟨ht, hlast⟩ := quote_append_inj hrest
  rw [String.append_right_inj, String.append_left_inj] at hlast
  exact ⟨hp, ht, hlast⟩

/-- A ledger is told from its manifest. -/
theorem manifestText_inj {i j : Identity} (h : manifestText i = manifestText j) : i = j := by
  unfold manifestText at h
  obtain ⟨hid, htitle, hcategories⟩ := literals_inj h
  obtain ⟨⟩ := i
  obtain ⟨⟩ := j
  rw [Identity.mk.injEq]
  exact ⟨hid, htitle, prettyTexts_inj hcategories⟩

/-- Parsers that read what the ledger prints and nothing else. -/
noncomputable def printedCodec : Codec where
  parseManifest b := open Classical in
    if h : ∃ i, (manifestText i).toByteArray = b then .ok ⟨magic, h.choose⟩ else .error "EOF while parsing an object"
  parseEvent l := open Classical in
    if h : ∃ x, eventText x = l then .ok h.choose else .error "EOF while parsing an object"
  indexBytes s := (manifestText s.identity).toByteArray
  notFound := "No such file or directory (os error 2)"
  alreadyExists := "File exists (os error 17)"
  notText := "stream did not contain valid UTF-8"

theorem printedCodec_lawful : printedCodec.Lawful where
  manifest_roundTrip i := by
    have h : ∃ j, (manifestText j).toByteArray = (manifestText i).toByteArray := ⟨i, rfl⟩
    refine (dif_pos h).trans ?_
    rw [manifestText_inj (String.toByteArray_inj.mp h.choose_spec)]
  event_roundTrip x := by
    have h : ∃ y, eventText y = eventText x := ⟨x, rfl⟩
    have heq := eventText_append_inj (congrArg (· ++ "") h.choose_spec)
    refine (dif_pos h).trans ?_
    rw [heq.1]
  event_cut x l r hline hr := by
    refine ⟨_, dif_neg ?_⟩
    rintro ⟨y, rfl⟩
    rw [← String.append_empty (s := eventText x)] at hline
    exact hr (eventText_append_inj hline).2.symm
  event_trailing x y := by
    refine ⟨_, dif_neg ?_⟩
    rintro ⟨z, hz⟩
    rw [← String.append_empty (s := eventText z)] at hz
    exact eventText_ne_empty y (eventText_append_inj hz).2.symm

/-! ## A new archive -/

theorem bare_noFiles : Bare noFiles := ⟨rfl, rfl, rfl, rfl, rfl⟩

theorem archiveInit_created : (course printedCodec plainKey noFiles 1 (.init archiveInit)).result = .ok () := by
  rw [bare_noFiles.course_init rfl, bare_noFiles.create_result printedCodec_lawful]
  exact ⟨rfl, rfl⟩

/-- Stopped behind the log, the creation of an archive is recovered from. -/
theorem recovers_new_archive :
    Recovers printedCodec plainKey noFiles (.init archiveInit) 1
      (stopped noFiles (course printedCodec plainKey noFiles 1 (.init archiveInit)).writes 2 0) archiveInit 2
      "2026-01-01T00:00:00Z" := by
  have hwrites := congrArg Course.writes
    (bare_noFiles.course_init (C := printedCodec) (H := plainKey) (p := 1) (o := archiveInit) rfl)
  refine (recovers_of_run_iff printedCodec_lawful (.done noFiles) archiveInit_created rfl 2 0 2 _).mpr ⟨?_, ?_⟩
  · rw [hwrites]
    exact settled_of_derived project_derived 0 0
  · rw [hwrites]
    intro hnone
    have hderived := project_derived (C := printedCodec) (d := performAll Write.perform noFiles (createWrites archiveInit))
      (p := 1)
    have hholds := (sameLedger_stopped hderived _ 0 0).holds (bare_noFiles.created archiveInit)
    exact absurd (hholds.manifest.symm.trans hnone) (by simp)

/-- Stopped behind the first byte of the manifest, it is not. -/
theorem torn_manifest :
    (course printedCodec plainKey noFiles 1 (.init archiveInit)).result = .ok () ∧
      ¬Recovers printedCodec plainKey noFiles (.init archiveInit) 1
        (stopped noFiles (course printedCodec plainKey noFiles 1 (.init archiveInit)).writes 0 2) archiveInit 2
        "2026-01-01T00:00:00Z" := by
  refine ⟨archiveInit_created, fun h => ?_⟩
  have hsettled := ((bare_noFiles.recovers_iff printedCodec_lawful rfl 0 2 2 _).mp h).1
  rw [bare_noFiles.course_init rfl] at hsettled
  have hzero : 2 = 0 := hsettled _ rfl
  cases hzero

end Innen.Ledger
