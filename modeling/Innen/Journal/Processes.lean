import Innen.Journal.Lines
import Innen.Journal.Table
import Innen.Common.Transition
import Mathlib.Logic.Function.Basic

/-!
# Several processes on one journal

The journal is a directory entry that names an inode, and inodes hold bytes. An append opens the inode
the path names and later writes its whole line to that inode, without a lock. Opening the journal
takes the lock, reads the file and, when it finds bad lines, copies them to the quarantine, writes the
good ones to a temporary file and renames it over the path.

An append is safe when its write meets four conditions: the inode it opened is still the one the path
names, no process stands between a read that found bad lines and its rename, the file ends with a
newline (or with white space behind it), and the line is one that the readers accept. When all writes
of a run are safe, every append that returned is read back exactly once per call
(`appends_present`). Without that an append that returned is lost: `appendLost` interleaves one append
with one opening.
-/

namespace Innen.Journal

open Innen.Common

/-! ## The system -/

/-- Where a process stands. -/
inductive Pc where
  | idle
  /-- An append has opened the inode and not yet written its line. -/
  | appending (inode : ℕ) (entry : JournalEntry)
  /-- Opening: the lock is taken. -/
  | opening
  /-- The file was read and has bad lines. -/
  | scanned (content : String)
  /-- The bad lines are in the quarantine. -/
  | quarantined (content : String)
  /-- The temporary file holds the good lines. -/
  | written
  /-- The scan is over, the lock is still held. -/
  | leaving

/-- Between a read that found bad lines and the rename. -/
def Pc.rewriting : Pc → Bool
  | .scanned _ | .quarantined _ | .written => true
  | _ => false

/-- The file system, the lock and the processes. -/
structure State (Pid : Type) where
  /-- The content of each inode. -/
  inodes : ℕ → ByteArray
  /-- Inodes from here on are not in use. -/
  next : ℕ
  /-- What `journal.jsonl` names. -/
  path : Option ℕ
  /-- What `journal.jsonl.tmp` names. -/
  tmp : Option ℕ
  lock : Option Pid
  quarantine : List String
  pc : Pid → Pc
  /-- The appends that returned, in order. -/
  returned : List JournalEntry

variable {Pid : Type}

/-- The steps of `append` (`openAppend`, `write`) and of `open` (the others). -/
inductive Action (Pid : Type) where
  | openAppend (p : Pid) (op : String) (payload : Json) (now : String)
  | write (p : Pid)
  | takeLock (p : Pid)
  | readFile (p : Pid)
  | moveBadLines (p : Pid)
  | writeTmp (p : Pid)
  | rename (p : Pid)
  | release (p : Pid)

namespace State

/-- The file at the journal's path. -/
def file (s : State Pid) : Option ByteArray := s.path.map s.inodes

/-- A process goes to another place. -/
def goto [DecidableEq Pid] (s : State Pid) (p : Pid) (pc : Pc) : State Pid := { s with pc := Function.update s.pc p pc }

/-- All processes idle on a journal file. -/
def start (file : Option ByteArray) : State Pid :=
  { inodes := fun _ => file.getD .empty, next := 1, path := file.map fun _ => 0, tmp := none
    lock := none, quarantine := [], pc := fun _ => .idle, returned := [] }

end State

variable (P : Platform)

/-- Open the journal's inode for appending, creating an empty file when there is none. -/
def openForAppend [DecidableEq Pid] (s : State Pid) (p : Pid) (entry : JournalEntry) : State Pid :=
  match s.path with
  | some inode => s.goto p (.appending inode entry)
  | none =>
    { s with inodes := Function.update s.inodes s.next .empty, next := s.next + 1, path := some s.next
             pc := Function.update s.pc p (.appending s.next entry) }

/-- One step of one process, if it is enabled. -/
def step [DecidableEq Pid] (s : State Pid) : Action Pid → Option (State Pid)
  | .openAppend p op payload now =>
    match s.pc p, validate op payload.val with
    | .idle, .ok () => some (openForAppend s p (newEntry P op payload now))
    | _, _ => none
  | .write p =>
    match s.pc p with
    | .appending inode entry => some
        { s with
          inodes := Function.update s.inodes inode
            (s.inodes inode ++ textBytes (entryText P entry ++ "\n"))
          pc := Function.update s.pc p .idle
          returned := s.returned ++ [entry] }
    | _ => none
  | .takeLock p =>
    match s.pc p, s.lock with
    | .idle, none => some { s.goto p .opening with lock := some p }
    | _, _ => none
  | .readFile p =>
    match s.pc p with
    | .opening =>
      match s.file with
      | none => some (s.goto p .leaving)
      | some bytes =>
        match readToString bytes with
        | .error _ => some (s.goto p .leaving)
        | .ok content =>
          some (s.goto p (if badLines P content = [] then .leaving else .scanned content))
    | _ => none
  | .moveBadLines p =>
    match s.pc p with
    | .scanned content => some
        { s.goto p (.quarantined content) with quarantine := s.quarantine ++ badLines P content }
    | _ => none
  | .writeTmp p =>
    match s.pc p with
    | .quarantined content => some
        { s.goto p .written with
          -- `File::create` truncates a leftover temporary file
          inodes := Function.update s.inodes (s.tmp.getD s.next)
            (textBytes (joinLines (goodLines P content)))
          next := s.next + 1
          tmp := some (s.tmp.getD s.next) }
    | _ => none
  | .rename p =>
    match s.pc p with
    | .written => some { s.goto p .leaving with path := s.tmp, tmp := none }
    | _ => none
  | .release p =>
    match s.pc p with
    | .leaving => some { s.goto p .idle with lock := none }
    | _ => none

/-! ## Safe writes -/

/-- The readers accept the line of an entry. -/
def Readable (entry : JournalEntry) : Prop :=
  keepLine P (entryText P entry) = true ∧ (P.parseEntry (entryText P entry)).isSome

/-- The condition on a write: its inode is still the journal, no rewrite is under way, the file ends
with a newline or white space behind it, and the line is readable. -/
def Safe (s : State Pid) (a : Action Pid) : Prop :=
  ∀ p inode entry, a = .write p → s.pc p = .appending inode entry →
    s.path = some inode ∧ (∀ q, (s.pc q).rewriting = false) ∧
      (∀ content, readToString (s.inodes inode) = .ok content → JsonSpace (unfinished content)) ∧
      Readable P entry

/-! ## What the file holds -/

/-- The significant lines are some that give entries of the first file, then one per returned append. -/
def Holds (first : List JournalEntry) (returned : List JournalEntry) (content : String) : Prop :=
  ∃ old new, significant content = old ++ new ∧
    List.Forall₂ (fun l entry => SameLine P l (entryText P entry)) new returned ∧
    (old.filterMap P.parseEntry).Sublist first

variable {P}

/-- A safe write adds its line. -/
theorem Holds.append (hP : P.Lawful) {first returned : List JournalEntry} {content : String}
    (h : Holds P first returned content) (htail : JsonSpace (unfinished content))
    (entry : JournalEntry) :
    Holds P first (returned ++ [entry]) (content ++ (entryText P entry ++ "\n")) := by
  obtain ⟨old, new, hsig, hnew, hold⟩ := h
  refine ⟨old, new ++ [unfinished content ++ entryText P entry], ?_, ?_, hold⟩
  · rw [significant_append htail (oneLine_entryText hP entry) (blank_entryText entry), hsig,
      List.append_assoc]
  · exact List.rel_append hnew (.cons (sameLine_indent hP htail _) .nil)

/-- A rewrite keeps the lines of all returned appends. -/
theorem Holds.rewrite (hP : P.Lawful) {first returned : List JournalEntry} {content : String}
    (h : Holds P first returned content) (hread : ∀ entry ∈ returned, Readable P entry) :
    Holds P first returned (joinLines (goodLines P content)) := by
  obtain ⟨old, new, hsig, hnew, hold⟩ := h
  have hkept : new.filter (keepLine P) = new := by
    refine List.filter_eq_self.mpr fun l hl => ?_
    obtain ⟨i, hi, rfl⟩ := List.getElem_of_mem hl
    have hi' : i < returned.length := by rwa [← hnew.length_eq]
    have hsame := List.Forall₂.get hnew hi hi'
    simp only [List.get_eq_getElem] at hsame
    rw [hsame.keepLine_eq]
    exact (hread _ (List.getElem_mem hi')).1
  refine ⟨(old.filter (keepLine P)).map stripCr, new.map stripCr, ?_, ?_, ?_⟩
  · rw [significant_rewrite hP, hsig, List.filter_append, hkept, List.map_append]
  · rw [List.forall₂_map_left_iff]
    exact hnew.imp fun l entry hsame => (sameLine_stripCr hP l).trans hsame
  · have hparse : ((old.filter (keepLine P)).map stripCr).filterMap P.parseEntry =
        (old.filter (keepLine P)).filterMap P.parseEntry := by
      rw [List.filterMap_map]
      exact List.filterMap_congr fun l _ => (sameLine_stripCr hP l).2
    rw [hparse]
    exact (List.filter_sublist.filterMap P.parseEntry).trans hold

/-- One entry read back for each append, behind entries of the first file. -/
def Present (P : Platform) (first returned read : List JournalEntry) : Prop :=
  ∃ old new, read = old ++ new ∧ old.Sublist first ∧
    List.Forall₂ (fun entry r => P.parseEntry (entryText P entry) = some r) returned new

theorem Holds.present {first returned : List JournalEntry} {content : String}
    (h : Holds P first returned content) (hread : ∀ entry ∈ returned, Readable P entry) :
    Present P first returned (entriesOf P content) := by
  obtain ⟨old, new, hsig, hnew, hold⟩ := h
  refine ⟨old.filterMap P.parseEntry, new.filterMap P.parseEntry, ?_, hold, ?_⟩
  · rw [entriesOf_eq, hsig, List.filterMap_append]
  · clear hsig
    induction hnew with
    | nil => exact .nil
    | @cons l entry new returned hsame _ ih =>
      obtain ⟨r, hr⟩ := Option.isSome_iff_exists.mp (hread entry List.mem_cons_self).2
      rw [List.filterMap_cons_some (hsame.2.trans hr)]
      exact .cons hr (ih fun e he => hread e (List.mem_cons_of_mem entry he))

/-! ## The invariant -/

/-- The text of the file, empty when there is none. -/
def FileText (s : State Pid) (content : String) : Prop :=
  match s.file with
  | none => content = ""
  | some bytes => readToString bytes = .ok content

/-- The file a process has scanned is still there as it was read. -/
def Scanned (s : State Pid) (content : String) : Prop :=
  ∃ inode, s.path = some inode ∧ readToString (s.inodes inode) = .ok content

/-- What holds for a process at the place it stands. -/
def ProcInv (P : Platform) (s : State Pid) (q : Pid) : Pc → Prop
  | .idle | .appending _ _ => True
  | .opening | .leaving => s.lock = some q
  | .scanned content | .quarantined content => s.lock = some q ∧ Scanned s content
  | .written => s.lock = some q ∧ ∃ content tmp, Scanned s content ∧ s.tmp = some tmp ∧
      readToString (s.inodes tmp) = .ok (joinLines (goodLines P content))

/-- What holds in every state reached by safe writes. -/
structure Inv (P : Platform) (first : List JournalEntry) (s : State Pid) : Prop where
  holds : ∃ content, FileText s content ∧ Holds P first s.returned content
  readable : ∀ entry ∈ s.returned, Readable P entry
  proc : ∀ q, ProcInv P s q (s.pc q)
  path_lt : ∀ inode, s.path = some inode → inode < s.next
  tmp_lt : ∀ tmp, s.tmp = some tmp → tmp < s.next
  tmp_ne : ∀ tmp, s.tmp = some tmp → s.path ≠ some tmp

/-- The holder of the lock is the only process that opens the journal. -/
theorem ProcInv.lock_eq {s : State Pid} {q : Pid} {pc : Pc} (h : ProcInv P s q pc)
    (hpc : pc ≠ .idle) (happ : ∀ inode entry, pc ≠ .appending inode entry) : s.lock = some q := by
  cases pc with
  | idle => exact absurd rfl hpc
  | appending inode entry => exact absurd rfl (happ inode entry)
  | opening => exact h
  | leaving => exact h
  | scanned content => exact h.1
  | quarantined content => exact h.1
  | written => exact h.1

/-- Another process than the holder of the lock does not care about the lock or the files. -/
theorem ProcInv.of_not_holder {s s' : State Pid} {q : Pid} {pc : Pc} (h : ProcInv P s q pc)
    (hlock : s.lock ≠ some q) : ProcInv P s' q pc := by
  cases pc with
  | idle => trivial
  | appending inode entry => trivial
  | opening => exact absurd h hlock
  | leaving => exact absurd h hlock
  | scanned content => exact absurd h.1 hlock
  | quarantined content => exact absurd h.1 hlock
  | written => exact absurd h.1 hlock

/-- A step that leaves the lock and the files alone concerns no other process. -/
theorem ProcInv.congr {s s' : State Pid} {q : Pid} {pc : Pc} (h : ProcInv P s q pc)
    (hlock : s'.lock = s.lock) (hpath : s'.path = s.path) (htmp : s'.tmp = s.tmp)
    (hinodes : s'.inodes = s.inodes) : ProcInv P s' q pc := by
  have hscanned : ∀ content, Scanned s content → Scanned s' content := by
    rintro content ⟨inode, hinode, hread⟩
    exact ⟨inode, hpath.trans hinode, by rwa [hinodes]⟩
  cases pc with
  | idle => trivial
  | appending inode entry => trivial
  | opening => exact hlock.trans h
  | leaving => exact hlock.trans h
  | scanned content => exact ⟨hlock.trans h.1, hscanned content h.2⟩
  | quarantined content => exact ⟨hlock.trans h.1, hscanned content h.2⟩
  | written =>
    obtain ⟨hl, content, tmp, hscan, ht, hread⟩ := h
    exact ⟨hlock.trans hl, content, tmp, hscanned content hscan, htmp.trans ht, by rwa [hinodes]⟩

/-- The parts of the invariant that speak about the files only. -/
theorem Inv.of_same_files {first : List JournalEntry} {s s' : State Pid} (h : Inv P first s)
    (hpath : s'.path = s.path) (htmp : s'.tmp = s.tmp) (hinodes : s'.inodes = s.inodes)
    (hnext : s'.next = s.next) (hreturned : s'.returned = s.returned)
    (hproc : ∀ q, ProcInv P s' q (s'.pc q)) : Inv P first s' where
  holds := by
    obtain ⟨content, htext, hholds⟩ := h.holds
    refine ⟨content, ?_, hreturned ▸ hholds⟩
    unfold FileText State.file at htext ⊢
    rwa [hpath, hinodes]
  readable := hreturned ▸ h.readable
  proc := hproc
  path_lt := by rw [hpath, hnext]; exact h.path_lt
  tmp_lt := by rw [htmp, hnext]; exact h.tmp_lt
  tmp_ne := by rw [hpath, htmp]; exact h.tmp_ne

theorem inv_start {file : Option ByteArray} {content : String}
    (hfile : FileText (State.start file : State Pid) content) :
    Inv P (entriesOf P content) (State.start file : State Pid) where
  holds := ⟨content, hfile, significant content, [], by simp, .nil, by
    rw [entriesOf_eq]⟩
  readable := by simp [State.start]
  proc := fun q => trivial
  path_lt := by
    intro inode h
    rcases file with _ | bytes <;> simp [State.start] at h ⊢
    omega
  tmp_lt := by simp [State.start]
  tmp_ne := by simp [State.start]

variable [DecidableEq Pid]

/-- After a step of `p` the other processes stand where they stood; it is enough to look at `p` and, if
`p` does not hold the lock, at what the step leaves as it was. -/
theorem proc_update {s s' : State Pid} {p : Pid} {pc : Pc} (hpc : s'.pc = Function.update s.pc p pc)
    (hp : ProcInv P s' p pc) (hothers : ∀ q, q ≠ p → ProcInv P s' q (s.pc q)) (q : Pid) :
    ProcInv P s' q (s'.pc q) := by
  rw [hpc]
  by_cases hq : q = p
  · rw [hq, Function.update_self]
    exact hp
  · rw [Function.update_of_ne hq]
    exact hothers q hq

/-- The steps of the holder of the lock concern no other process. -/
theorem proc_of_holder {first : List JournalEntry} {s s' : State Pid} {p : Pid} {pc : Pc}
    (h : Inv P first s) (hlock : s.lock = some p) (hpc : s'.pc = Function.update s.pc p pc)
    (hp : ProcInv P s' p pc) (q : Pid) : ProcInv P s' q (s'.pc q) := by
  refine proc_update hpc hp (fun q hq => (h.proc q).of_not_holder ?_) q
  rw [hlock]
  exact fun heq => hq (Option.some.inj heq).symm

/-! ## One lemma per step -/

section Steps

variable {first : List JournalEntry} {s s' : State Pid} {p : Pid}

theorem inv_openAppend {op : String} {payload : Json} {now : String} (h : Inv P first s)
    (hstep : step P s (.openAppend p op payload now) = some s') : Inv P first s' := by
  simp only [step] at hstep
  split at hstep
  · obtain rfl := Option.some.inj hstep
    unfold openForAppend
    split
    · exact h.of_same_files rfl rfl rfl rfl rfl
        (proc_update rfl trivial fun q _ => (h.proc q).congr rfl rfl rfl rfl)
    · -- a new, empty inode: nobody has scanned a file that does not exist
      rename_i hnone
      have hscanned : ∀ content, ¬ Scanned s content := by
        rintro content ⟨inode, hinode, -⟩
        simp [hnone] at hinode
      refine ⟨?_, h.readable, proc_update rfl trivial fun q _ => ?_, ?_, ?_, ?_⟩
      · obtain ⟨content, htext, hholds⟩ := h.holds
        simp only [FileText, State.file, hnone, Option.map_none] at htext
        refine ⟨content, ?_, hholds⟩
        simp only [FileText, State.file, Option.map_some, Function.update_self, htext]
        exact readToString_textBytes ""
      · have hq := h.proc q
        rcases hpc : s.pc q with _ | _ | _ | content | content | _ | _ <;> rw [hpc] at hq
        · trivial
        · trivial
        · exact hq
        · exact absurd hq.2 (hscanned content)
        · exact absurd hq.2 (hscanned content)
        · obtain ⟨-, content, -, hscan, -⟩ := hq
          exact absurd hscan (hscanned content)
        · exact hq
      · intro inode heq
        obtain rfl := Option.some.inj heq
        exact Nat.lt_succ_self _
      · exact fun tmp htmp => Nat.lt_succ_of_lt (h.tmp_lt tmp htmp)
      · intro tmp htmp heq
        have hlt := h.tmp_lt tmp htmp
        rw [Option.some.inj heq] at hlt
        exact Nat.lt_irrefl _ hlt
  · simp at hstep

/-- A safe write appends its line to the file; a process that rewrites it would miss the line. -/
theorem inv_write (hP : P.Lawful) (h : Inv P first s) (hsafe : Safe P s (.write p))
    (hstep : step P s (.write p) = some s') : Inv P first s' := by
  simp only [step] at hstep
  split at hstep
  · rename_i inode entry hpc
    obtain rfl := Option.some.inj hstep
    obtain ⟨hpath, hquiet, htail, hread⟩ := hsafe p inode entry rfl hpc
    obtain ⟨content, htext, hholds⟩ := h.holds
    have htext : readToString (s.inodes inode) = .ok content := by
      simpa only [FileText, State.file, hpath, Option.map_some] using htext
    refine ⟨⟨content ++ (entryText P entry ++ "\n"), ?_, ?_⟩, ?_, ?_, h.path_lt, h.tmp_lt, h.tmp_ne⟩
    · simp only [FileText, State.file, hpath, Option.map_some, Function.update_self]
      exact readToString_append htext _
    · exact hholds.append hP (htail content htext) entry
    · intro e he
      rcases List.mem_append.mp he with he | he
      · exact h.readable e he
      · exact (List.mem_singleton.mp he) ▸ hread
    · refine proc_update rfl trivial fun q _ => ?_
      have hq := h.proc q
      have hnot := hquiet q
      rcases hpcq : s.pc q with _ | _ | _ | content | content | _ | _ <;> rw [hpcq] at hq hnot
      · trivial
      · trivial
      · exact hq
      · simp [Pc.rewriting] at hnot
      · simp [Pc.rewriting] at hnot
      · simp [Pc.rewriting] at hnot
      · exact hq
  · simp at hstep

theorem inv_takeLock (h : Inv P first s) (hstep : step P s (.takeLock p) = some s') :
    Inv P first s' := by
  simp only [step] at hstep
  split at hstep
  · rename_i hpc hlock
    obtain rfl := Option.some.inj hstep
    refine h.of_same_files rfl rfl rfl rfl rfl (proc_update rfl rfl fun q _ => ?_)
    exact (h.proc q).of_not_holder (by rw [hlock]; simp)
  · simp at hstep

theorem inv_readFile (h : Inv P first s) (hstep : step P s (.readFile p) = some s') :
    Inv P first s' := by
  simp only [step] at hstep
  split at hstep
  · rename_i hpc
    have hlock : s.lock = some p := by
      have := h.proc p
      rwa [hpc] at this
    have hleave : Inv P first (s.goto p .leaving) :=
      h.of_same_files rfl rfl rfl rfl rfl (proc_of_holder h hlock rfl hlock)
    split at hstep
    · exact Option.some.inj hstep ▸ hleave
    · rename_i bytes hfile
      split at hstep
      · exact Option.some.inj hstep ▸ hleave
      · rename_i content hread
        obtain rfl := Option.some.inj hstep
        split
        · exact hleave
        · obtain ⟨inode, hinode, rfl⟩ := Option.map_eq_some_iff.mp hfile
          exact h.of_same_files rfl rfl rfl rfl rfl
            (proc_of_holder h hlock rfl ⟨hlock, inode, hinode, hread⟩)
  · simp at hstep

theorem inv_moveBadLines (h : Inv P first s) (hstep : step P s (.moveBadLines p) = some s') :
    Inv P first s' := by
  simp only [step] at hstep
  split at hstep
  · rename_i content hpc
    have hp := h.proc p
    rw [hpc] at hp
    obtain rfl := Option.some.inj hstep
    exact h.of_same_files rfl rfl rfl rfl rfl (proc_of_holder h hp.1 rfl hp)
  · simp at hstep

/-- The temporary file is another inode than the journal. -/
theorem inv_writeTmp (h : Inv P first s) (hstep : step P s (.writeTmp p) = some s') :
    Inv P first s' := by
  simp only [step] at hstep
  split at hstep
  · rename_i content hpc
    have hp := h.proc p
    rw [hpc] at hp
    obtain ⟨hlock, inode, hinode, hread⟩ := hp
    obtain rfl := Option.some.inj hstep
    have hne : s.tmp.getD s.next ≠ inode := by
      rcases htmp : s.tmp with _ | tmp
      · exact (h.path_lt inode hinode).ne'
      · exact fun heq => h.tmp_ne tmp htmp (hinode.trans (congrArg some heq.symm))
    have hlt : s.tmp.getD s.next < s.next + 1 := by
      rcases htmp : s.tmp with _ | tmp
      · exact Nat.lt_succ_self _
      · exact Nat.lt_succ_of_lt (h.tmp_lt tmp htmp)
    have hkept : Function.update s.inodes (s.tmp.getD s.next)
        (textBytes (joinLines (goodLines P content))) inode = s.inodes inode :=
      Function.update_of_ne hne.symm _ _
    refine ⟨?_, h.readable, proc_of_holder h hlock rfl ⟨hlock, content, _, ⟨inode, hinode, ?_⟩, rfl, ?_⟩,
      fun i hi => Nat.lt_succ_of_lt (h.path_lt i hi), ?_, ?_⟩
    · obtain ⟨c, htext, hholds⟩ := h.holds
      refine ⟨c, ?_, hholds⟩
      simp only [FileText, State.file, State.goto, hinode, Option.map_some] at htext ⊢
      rwa [hkept]
    · simp only
      rwa [hkept]
    · simp only [Function.update_self]
      exact readToString_textBytes _
    · rintro tmp heq
      exact Option.some.inj heq ▸ hlt
    · rintro tmp heq hpath
      exact hne (Option.some.inj (heq.trans (hpath.symm.trans hinode)))
  · simp at hstep

/-- The rename makes the rewritten file the journal. -/
theorem inv_rename (hP : P.Lawful) (h : Inv P first s) (hstep : step P s (.rename p) = some s') :
    Inv P first s' := by
  simp only [step] at hstep
  split at hstep
  · rename_i hpc
    have hp := h.proc p
    rw [hpc] at hp
    obtain ⟨hlock, content, tmp, ⟨inode, hinode, hread⟩, htmp, hgood⟩ := hp
    obtain rfl := Option.some.inj hstep
    obtain ⟨c, htext, hholds⟩ := h.holds
    have hc : c = content := by
      simp only [FileText, State.file, hinode, Option.map_some] at htext
      exact Except.ok.inj (htext.symm.trans hread)
    refine ⟨⟨joinLines (goodLines P content), ?_, ?_⟩, h.readable, proc_of_holder h hlock rfl hlock,
      fun i hi => h.tmp_lt i hi, by simp, by simp⟩
    · simp only [FileText, State.file, State.goto, htmp, Option.map_some]
      exact hgood
    · exact (hc ▸ hholds).rewrite hP h.readable
  · simp at hstep

theorem inv_release (h : Inv P first s) (hstep : step P s (.release p) = some s') :
    Inv P first s' := by
  simp only [step] at hstep
  split at hstep
  · rename_i hpc
    have hlock : s.lock = some p := by
      have := h.proc p
      rwa [hpc] at this
    obtain rfl := Option.some.inj hstep
    exact h.of_same_files rfl rfl rfl rfl rfl (proc_of_holder h hlock rfl trivial)
  · simp at hstep

/-- Every step keeps the invariant, a write when it is safe. -/
theorem inv_step (hP : P.Lawful) {a : Action Pid} (h : Inv P first s) (hsafe : Safe P s a)
    (hstep : step P s a = some s') : Inv P first s' := by
  cases a with
  | openAppend p op payload now => exact inv_openAppend h hstep
  | write p => exact inv_write hP h hsafe hstep
  | takeLock p => exact inv_takeLock h hstep
  | readFile p => exact inv_readFile h hstep
  | moveBadLines p => exact inv_moveBadLines h hstep
  | writeTmp p => exact inv_writeTmp h hstep
  | rename p => exact inv_rename hP h hstep
  | release p => exact inv_release h hstep

end Steps

private theorem themeEntry_readable : Readable themePlatform themeEntry := by
  have hids : ([themeEntry].map (·.id)).Nodup := List.nodup_singleton _
  refine ⟨keepLine_entryPlatform hids List.mem_cons_self, ?_⟩
  unfold themePlatform
  rw [parseEntry_entryPlatform hids List.mem_cons_self]
  rfl

/-! ## Every append is present -/

/-- In every state reached by safe writes from a readable file, every append that returned is read back
by `read_all` exactly once per call, behind entries the file had at the start. -/
theorem appends_present (hP : P.Lawful) {file : Option ByteArray} {first : List JournalEntry}
    (hfirst : readAll P file = .ok first) {actions : List (Action Pid)} {s : State Pid}
    (hrun : GuardedRun (step P) (Safe P) (State.start file) actions s) :
    ∃ read, readAll P s.file = .ok read ∧ Present P first s.returned read := by
  have hstart : ∃ content, FileText (State.start file : State Pid) content ∧
      first = entriesOf P content := by
    rcases file with _ | bytes
    · exact ⟨"", rfl, (Except.ok.inj hfirst).symm⟩
    · rcases hread : readToString bytes with e | content
      · simp [readAll, hread, bind, Except.bind] at hfirst
      · simp only [readAll, hread, bind, Except.bind] at hfirst
        exact ⟨content, hread, (Except.ok.inj hfirst).symm⟩
  obtain ⟨content, htext, rfl⟩ := hstart
  have hinv := hrun.invariant (fun h hsafe hstep => inv_step hP h hsafe hstep) (inv_start htext)
  obtain ⟨c, htext, hholds⟩ := hinv.holds
  refine ⟨entriesOf P c, ?_, hholds.present hinv.readable⟩
  unfold FileText at htext
  rcases hfile : s.file with _ | bytes <;> simp only [hfile] at htext
  · rw [htext]
    rfl
  · simp only [readAll, htext, bind, Except.bind]

/-- One process appends to a journal that does not exist yet. -/
theorem appends_present_theme :
    ∃ (s : State ℕ) (read : List JournalEntry), s.returned = [themeEntry] ∧
      readAll themePlatform s.file = .ok read ∧ Present themePlatform [] s.returned read := by
  have hlawful : themePlatform.Lawful := entryPlatform_lawful (List.nodup_singleton _)
  have hsafe : ∀ s : State ℕ, Safe themePlatform s
      (.openAppend 1 "config.set" themePayload "2026-01-01T00:00:00Z") := by
    intro s p inode entry h
    cases h
  let opened : State ℕ := openForAppend (State.start none) 1 themeEntry
  have hwrite : Safe themePlatform opened (.write 1) := by
    intro p inode entry h hpc
    cases h
    obtain ⟨rfl, rfl⟩ := Pc.appending.inj (show Pc.appending 1 themeEntry = _ from hpc)
    refine ⟨rfl, fun q => ?_, fun content hcontent => ?_, themeEntry_readable⟩
    · by_cases hq : q = 1
      · subst hq
        rfl
      · have : opened.pc q = .idle := Function.update_of_ne hq _ _
        rw [this]
        rfl
    · have hempty : readToString (opened.inodes 1) = .ok "" := readToString_textBytes ""
      obtain rfl := Except.ok.inj (hempty.symm.trans hcontent)
      decide
  have hopen : step themePlatform (State.start none)
      (.openAppend 1 "config.set" themePayload "2026-01-01T00:00:00Z") = some opened := rfl
  have hstep : step themePlatform opened (.write 1) = some _ := rfl
  have hrun := GuardedRun.next (hsafe _) hopen (GuardedRun.next hwrite hstep (GuardedRun.done _))
  have hfirst : readAll themePlatform none = .ok [] := rfl
  obtain ⟨read, hread, hpresent⟩ := appends_present hlawful hfirst hrun
  exact ⟨_, read, rfl, hread, hpresent⟩

/-! ## An append that is lost -/

/-- Process 1 appends between the read and the rename of process 2. -/
def lostActions : List (Action ℕ) :=
  [.takeLock 2, .readFile 2, .openAppend 1 "config.set" themePayload "2026-01-01T00:00:00Z", .write 1,
    .moveBadLines 2, .writeTmp 2, .rename 2]

/-- The append returned, but a later `read_all` does not have it. -/
theorem append_lost :
    ∃ s, runActions (step themePlatform) (State.start (some (textBytes "x\n"))) lostActions = some s ∧
      s.returned = [themeEntry] ∧ Readable themePlatform themeEntry ∧
        readAll themePlatform s.file = .ok [] := by
  have hrun : ((runActions (step themePlatform) (State.start (some (textBytes "x\n")))
      lostActions).any fun s =>
        s.returned = [themeEntry] ∧ readAll themePlatform s.file = .ok []) = true := by
    decide +kernel
  obtain ⟨s, hs, h⟩ := (Option.any_eq_true _ _).mp hrun
  obtain ⟨hreturned, hread⟩ := of_decide_eq_true h
  exact ⟨s, hs, hreturned, themeEntry_readable, hread⟩

end Innen.Journal
