import Innen.Common.Transition
import Innen.Conversation.Checkpoint
import Mathlib.Logic.Function.Basic

/-!
# Several calls on one checkpoint log

`record_checkpoint` appends the line of a checkpoint and then its newline to the log, without a lock, and
each of the two may take several write calls. When every record begins at the start of a line and a crash
leaves nothing or the whole line of its record, all checkpoints are read back (`checkpoints_kept`).
Without that two lines grow together, or a torn line stays, and nothing is read
(`spliced_log_unreadable`).
-/

namespace Innen.Conversation

open Innen.Common

/-! ## The system -/

/-- Where a call of `record_checkpoint` stands. -/
inductive Writer where
  | idle
  /-- The log is open, and so many bytes of the record are written. -/
  | writing (written : ℕ)
  | returned
  /-- The process crashed, or a write failed. -/
  | crashed
deriving DecidableEq

/-- The log and the calls on it. -/
structure LogState (Call : Type) where
  file : Option ByteArray
  writer : Call → Writer

/-- The steps of a call; a write appends `n` bytes. -/
inductive LogAction (Call : Type) where
  | openLog (i : Call)
  | write (i : Call) (n : ℕ)
  | finish (i : Call)
  | crash (i : Call) (n : ℕ)

/-- The line of a checkpoint with its newline. -/
def recordBytes (c : Checkpoint) : ByteArray := (checkpointText c ++ "\n").toByteArray

/-- The size of the line. -/
def lineSize (c : Checkpoint) : ℕ := (checkpointText c).utf8ByteSize

/-- Where the piece ends that is being written: the line is written before the newline. -/
def pieceEnd (c : Checkpoint) (written : ℕ) : ℕ := if written < lineSize c then lineSize c else lineSize c + 1

namespace LogState

variable {Call : Type}

/-- The bytes of the log. -/
def bytes (s : LogState Call) : ByteArray := s.file.getD .empty

variable [DecidableEq Call]

/-- A call goes to another place. -/
def goto (s : LogState Call) (i : Call) (w : Writer) : LogState Call :=
  { s with writer := Function.update s.writer i w }

/-- A call appends a part of its record. -/
def append (s : LogState Call) (i : Call) (part : ByteArray) (w : Writer) : LogState Call :=
  { file := some (s.bytes ++ part), writer := Function.update s.writer i w }

end LogState

/-- No call has begun. -/
def LogState.start (Call : Type) (file : Option ByteArray) : LogState Call := ⟨file, fun _ => .idle⟩

variable {Call : Type} (checkpoint : Call → Checkpoint)

/-- One step of one call, if it is enabled; the calls record the checkpoints `checkpoint`. -/
def logStep [DecidableEq Call] (s : LogState Call) : LogAction Call → Option (LogState Call)
  | .openLog i =>
    match s.writer i with
    | .idle => some (s.append i .empty (.writing 0))
    | _ => none
  | .write i n =>
    match s.writer i with
    | .writing k =>
      if 0 < n ∧ k + n ≤ pieceEnd (checkpoint i) k then
        some (s.append i ((recordBytes (checkpoint i)).extract k (k + n)) (.writing (k + n)))
      else none
    | _ => none
  | .finish i =>
    match s.writer i with
    | .writing k => if k = lineSize (checkpoint i) + 1 then some (s.goto i .returned) else none
    | _ => none
  | .crash i n =>
    match s.writer i with
    | .writing k =>
      if k + n ≤ pieceEnd (checkpoint i) k then
        some (s.append i ((recordBytes (checkpoint i)).extract k (k + n)) .crashed)
      else none
    | _ => none

/-! ## Records that stay apart -/

/-- Nothing, or whole lines. -/
def AtLineStart (bytes : ByteArray) : Prop := bytes = .empty ∨ bytes.data.back? = some 10

/-- A record begins at the start of a line, and a crash leaves nothing or the whole line of its record. -/
def Apart (s : LogState Call) : LogAction Call → Prop
  | .write i _ => s.writer i = .writing 0 → AtLineStart s.bytes
  | .crash i n => ∀ k, s.writer i = .writing k →
      (k + n = 0 ∨ lineSize (checkpoint i) ≤ k + n) ∧ (k = 0 → n = 0 ∨ AtLineStart s.bytes)
  | _ => True

/-- The log holds the records of the calls `l`, and at its end the first bytes of one more record, if
`begun` says so. -/
structure LogShape (s : LogState Call) (l : List Call) (begun : Option (Call × ℕ)) : Prop where
  nodup : l.Nodup
  bytes : s.bytes = (joinLines ((l.map checkpoint).map checkpointText)).toByteArray ++
    begun.elim .empty fun e => (recordBytes (checkpoint e.1)).extract 0 e.2
  /-- These calls have written their record. -/
  whole : ∀ i ∈ l, s.writer i = .writing (lineSize (checkpoint i) + 1) ∨ s.writer i = .returned ∨
    s.writer i = .crashed
  returned : ∀ i, s.writer i = .returned → i ∈ l
  /-- A call that is writing has not begun, is done, or is the one at the end. -/
  writing : ∀ i k, s.writer i = .writing k →
    k = 0 ∨ i ∈ l ∧ k = lineSize (checkpoint i) + 1 ∨ begun = some (i, k)
  /-- A crash leaves no part of the line but the whole. -/
  begun : ∀ i k, begun = some (i, k) → i ∉ l ∧ 0 < k ∧ k ≤ lineSize (checkpoint i) ∧
    (s.writer i = .writing k ∨ s.writer i = .crashed ∧ k = lineSize (checkpoint i))

variable {checkpoint} {s s' : LogState Call} {l : List Call} {begun : Option (Call × ℕ)} {i : Call} {k n : ℕ}
  {w : Writer}

/-! ## The bytes of a record -/

theorem size_recordBytes (c : Checkpoint) : (recordBytes c).size = lineSize c + 1 := by
  have hone : "\n".utf8ByteSize = 1 := by decide
  rw [recordBytes, String.size_toByteArray, String.utf8ByteSize_append, hone]
  rfl

theorem lineSize_pos (c : Checkpoint) : 0 < lineSize c := by
  refine Nat.pos_of_ne_zero fun h => checkpointText_ne_empty c ?_
  exact String.utf8ByteSize_eq_zero_iff.mp h

theorem extract_line (c : Checkpoint) :
    (recordBytes c).extract 0 (lineSize c) = (checkpointText c).toByteArray := by
  have hsize : lineSize c = (checkpointText c).toByteArray.size := String.size_toByteArray.symm
  rw [recordBytes, String.toByteArray_append, ByteArray.extract_append_eq_left hsize]

theorem extract_newline (c : Checkpoint) :
    (recordBytes c).extract (lineSize c) (lineSize c + 1) = "\n".toByteArray := by
  have hone : "\n".toByteArray.size = 1 := by decide
  have hsize : lineSize c = (checkpointText c).toByteArray.size := String.size_toByteArray.symm
  rw [recordBytes, String.toByteArray_append, ByteArray.extract_append_eq_right hsize (by rw [hone, hsize])]

/-- Within the line the record has no newline. -/
theorem back?_part (a : ByteArray) (c : Checkpoint) (hpos : 0 < k) (hle : k ≤ lineSize c) :
    (a ++ (recordBytes c).extract 0 k).data.back? ≠ some 10 := by
  have hline : (10 : UInt8) ∉ (checkpointText c).toByteArray.data.toList :=
    newline_not_mem_toByteArray (oneLine_checkpointText c).newline_not_mem
  have hsize : (checkpointText c).toByteArray.size = lineSize c := String.size_toByteArray
  have hpart : (recordBytes c).extract 0 k = (checkpointText c).toByteArray.extract 0 k := by
    have hnone : "\n".toByteArray.extract (0 - lineSize c) (k - lineSize c) = .empty :=
      ByteArray.extract_eq_empty_iff.mpr (by omega)
    rw [recordBytes, String.toByteArray_append, ByteArray.extract_append, hsize, hnone, ByteArray.append_empty]
  rw [hpart]
  refine back?_append_extract_ne hline k (.inr fun hempty => ?_)
  have := ByteArray.extract_eq_empty_iff.mp hempty
  omega

/-- A record is complete with its newline. -/
theorem joinLines_record (cs : List Checkpoint) (c : Checkpoint) :
    (joinLines (cs.map checkpointText)).toByteArray ++ recordBytes c =
      (joinLines ((cs ++ [c]).map checkpointText)).toByteArray := by
  have hjoin : joinLines ((cs ++ [c]).map checkpointText) =
      joinLines (cs.map checkpointText) ++ (checkpointText c ++ "\n") := by
    unfold joinLines
    rw [List.map_append, List.foldl_append]
    simp [String.append_assoc]
  rw [hjoin, String.toByteArray_append, recordBytes]

/-! ## One step -/

/-- At the start of a line no record has begun. -/
theorem LogShape.begun_eq_none (h : LogShape checkpoint s l begun) (hstart : AtLineStart s.bytes) :
    begun = none := by
  rcases begun with _ | ⟨i, k⟩
  · rfl
  · obtain ⟨-, hpos, hle, -⟩ := h.begun i k rfl
    have hlast := back?_part (joinLines ((l.map checkpoint).map checkpointText)).toByteArray
      (checkpoint i) hpos hle
    rw [h.bytes] at hstart
    rcases hstart with hempty | hnewline
    · have hsize := congrArg ByteArray.size hempty
      have hrecord := size_recordBytes (checkpoint i)
      simp only [Option.elim_some, ByteArray.size_append, ByteArray.size_extract, ByteArray.size_empty] at hsize
      omega
    · exact absurd hnewline hlast

/-- A call that does not touch the file goes to another place. -/
theorem LogShape.goto [DecidableEq Call] (h : LogShape checkpoint s l begun) (hbytes : s'.bytes = s.bytes)
    (hwriter : s'.writer = Function.update s.writer i w) (hbegun : ∀ k, begun ≠ some (i, k))
    (hwhole : i ∈ l → w = .writing (lineSize (checkpoint i) + 1) ∨ w = .returned ∨ w = .crashed)
    (hreturned : w = .returned → i ∈ l)
    (hwriting : ∀ k, w = .writing k → k = 0 ∨ i ∈ l ∧ k = lineSize (checkpoint i) + 1) :
    LogShape checkpoint s' l begun where
  nodup := h.nodup
  bytes := hbytes.trans h.bytes
  whole := by
    intro j hj
    rw [hwriter]
    by_cases hij : j = i
    · subst hij
      rw [Function.update_self]
      exact hwhole hj
    · rw [Function.update_of_ne hij]
      exact h.whole j hj
  returned := by
    intro j hj
    rw [hwriter] at hj
    by_cases hij : j = i
    · subst hij
      rw [Function.update_self] at hj
      exact hreturned hj
    · rw [Function.update_of_ne hij] at hj
      exact h.returned j hj
  writing := by
    intro j k hj
    rw [hwriter] at hj
    by_cases hij : j = i
    · subst hij
      rw [Function.update_self] at hj
      exact (hwriting k hj).imp id .inl
    · rw [Function.update_of_ne hij] at hj
      exact h.writing j k hj
  begun := by
    intro j k hj
    have hij : j ≠ i := by
      rintro rfl
      exact hbegun k hj
    rw [hwriter, Function.update_of_ne hij]
    exact h.begun j k hj

/-- The record of a call is begun up to `k`, or it is to begin. -/
def NextPart (begun : Option (Call × ℕ)) (i : Call) (k : ℕ) : Prop :=
  begun = none ∧ k = 0 ∨ begun = some (i, k)

theorem LogShape.bytes_part (h : LogShape checkpoint s l begun) (hnext : NextPart begun i k)
    (hle : k ≤ n) :
    s.bytes ++ (recordBytes (checkpoint i)).extract k n =
      (joinLines ((l.map checkpoint).map checkpointText)).toByteArray ++
        (recordBytes (checkpoint i)).extract 0 n := by
  rw [h.bytes]
  rcases hnext with ⟨rfl, rfl⟩ | rfl
  · rw [Option.elim_none, ByteArray.append_empty]
  · rw [Option.elim_some, ByteArray.append_assoc, ByteArray.extract_append_extract, Nat.zero_min,
      Nat.max_eq_right hle]

/-- The line at the end grows. -/
theorem LogShape.grow [DecidableEq Call] (h : LogShape checkpoint s l begun) (hnext : NextPart begun i k)
    (hnot : i ∉ l) (hbytes : s'.bytes = s.bytes ++ (recordBytes (checkpoint i)).extract k (k + n))
    (hwriter : s'.writer = Function.update s.writer i w) (hpos : 0 < k + n)
    (hle : k + n ≤ lineSize (checkpoint i))
    (hw : w = .writing (k + n) ∨ w = .crashed ∧ k + n = lineSize (checkpoint i)) :
    LogShape checkpoint s' l (some (i, k + n)) where
  nodup := h.nodup
  bytes := hbytes.trans (h.bytes_part hnext (Nat.le_add_right k n))
  whole := by
    intro j hj
    have hij : j ≠ i := by
      rintro rfl
      exact hnot hj
    rw [hwriter, Function.update_of_ne hij]
    exact h.whole j hj
  returned := by
    intro j hj
    have hij : j ≠ i := by
      rintro rfl
      rw [hwriter, Function.update_self] at hj
      subst hj
      rcases hw with hw | ⟨hw, -⟩ <;> cases hw
    rw [hwriter, Function.update_of_ne hij] at hj
    exact h.returned j hj
  writing := by
    intro j m hj
    rw [hwriter] at hj
    by_cases hij : j = i
    · subst hij
      rw [Function.update_self] at hj
      subst hj
      rcases hw with hw | ⟨hw, -⟩
      · cases hw
        exact .inr (.inr rfl)
      · cases hw
    · rw [Function.update_of_ne hij] at hj
      rcases h.writing j m hj with hzero | hdone | hbegun
      · exact .inl hzero
      · exact .inr (.inl hdone)
      · -- only `i` has begun
        rcases hnext with ⟨hnone, -⟩ | hsome
        · rw [hnone] at hbegun
          cases hbegun
        · rw [hsome] at hbegun
          exact absurd (Prod.mk.inj (Option.some.inj hbegun)).1 (Ne.symm hij)
  begun := by
    intro j m hj
    obtain ⟨rfl, rfl⟩ := Prod.mk.inj (Option.some.inj hj)
    refine ⟨hnot, hpos, hle, ?_⟩
    rw [hwriter, Function.update_self]
    exact hw

/-- The newline completes a record. -/
theorem LogShape.close [DecidableEq Call] (h : LogShape checkpoint s l begun) (hnext : NextPart begun i k)
    (hnot : i ∉ l) (hbytes : s'.bytes = s.bytes ++ (recordBytes (checkpoint i)).extract k (k + n))
    (hwriter : s'.writer = Function.update s.writer i w) (hend : k + n = lineSize (checkpoint i) + 1)
    (hw : w = .writing (k + n) ∨ w = .crashed) : LogShape checkpoint s' (l ++ [i]) none where
  nodup := List.nodup_append.mpr ⟨h.nodup, List.nodup_singleton i, fun j hj j' hj' => by
    rintro rfl
    exact hnot (List.mem_singleton.mp hj' ▸ hj)⟩
  bytes := by
    have hall : (recordBytes (checkpoint i)).extract 0 (k + n) = recordBytes (checkpoint i) := by
      rw [hend, ← size_recordBytes, ByteArray.extract_zero_size]
    have hjoin := joinLines_record (l.map checkpoint) (checkpoint i)
    rw [hbytes, h.bytes_part hnext (Nat.le_add_right k n), hall, Option.elim_none, ByteArray.append_empty,
      List.map_append]
    exact hjoin
  whole := by
    intro j hj
    rw [hwriter]
    by_cases hij : j = i
    · subst hij
      rw [Function.update_self, ← hend]
      exact hw.imp id .inr
    · rw [Function.update_of_ne hij]
      exact h.whole j ((List.mem_append.mp hj).resolve_right fun hmem => hij (List.mem_singleton.mp hmem))
  returned := by
    intro j hj
    by_cases hij : j = i
    · exact List.mem_append_right l (List.mem_singleton.mpr hij)
    · rw [hwriter, Function.update_of_ne hij] at hj
      exact List.mem_append_left _ (h.returned j hj)
  writing := by
    intro j m hj
    rw [hwriter] at hj
    by_cases hij : j = i
    · subst hij
      rw [Function.update_self] at hj
      subst hj
      rcases hw with hw | hw
      · cases hw
        exact .inr (.inl ⟨List.mem_append_right l (List.mem_singleton.mpr rfl), hend⟩)
      · cases hw
    · rw [Function.update_of_ne hij] at hj
      rcases h.writing j m hj with hzero | ⟨hmem, hm⟩ | hbegun
      · exact .inl hzero
      · exact .inr (.inl ⟨List.mem_append_left _ hmem, hm⟩)
      · rcases hnext with ⟨hnone, -⟩ | hsome
        · rw [hnone] at hbegun
          cases hbegun
        · rw [hsome] at hbegun
          exact absurd (Prod.mk.inj (Option.some.inj hbegun)).1 (Ne.symm hij)
  begun := fun _ _ hj => absurd hj (by simp)

/-- A call that has written nothing is not among the recorded ones. -/
theorem LogShape.not_mem_of_writing (h : LogShape checkpoint s l begun) (hi : s.writer i = .writing k)
    (hk : k ≠ lineSize (checkpoint i) + 1) : i ∉ l := by
  intro hmem
  rcases h.whole i hmem with hw | hw | hw <;> rw [hi] at hw <;> cases hw
  exact hk rfl

/-- A part of a record, written or left by a crash. -/
theorem LogShape.part [DecidableEq Call] (h : LogShape checkpoint s l begun) (hi : s.writer i = .writing k)
    (hn : k + n ≤ pieceEnd (checkpoint i) k) (hstart : k = 0 → n = 0 ∨ AtLineStart s.bytes)
    (hw : w = .writing (k + n) ∨ w = .crashed ∧ (k + n = 0 ∨ lineSize (checkpoint i) ≤ k + n)) :
    ∃ l' begun', LogShape checkpoint (s.append i ((recordBytes (checkpoint i)).extract k (k + n)) w) l' begun' := by
  have hline := lineSize_pos (checkpoint i)
  unfold pieceEnd at hn
  rcases h.writing i k hi with rfl | ⟨hmem, rfl⟩ | rfl
  · have hnot : i ∉ l := h.not_mem_of_writing hi (by omega)
    rw [if_pos hline] at hn
    by_cases hzero : n = 0
    · subst hzero
      refine ⟨l, begun, h.goto ?_ rfl ?_ (fun hmem => absurd hmem hnot) ?_ ?_⟩
      · simp [LogState.append, LogState.bytes]
      · intro m hm
        obtain ⟨-, hpos, -, hwriter | ⟨hwriter, -⟩⟩ := h.begun i m hm <;> rw [hi] at hwriter <;> cases hwriter
        omega
      · rintro rfl
        rcases hw with hw | ⟨hw, -⟩ <;> cases hw
      · rintro m rfl
        rcases hw with hw | ⟨hw, -⟩ <;> cases hw
        exact .inl rfl
    · have hnone : begun = none := h.begun_eq_none ((hstart rfl).resolve_left hzero)
      refine ⟨l, _, h.grow (.inl ⟨hnone, rfl⟩) hnot rfl rfl (by omega) hn (hw.imp id ?_)⟩
      rintro ⟨hcrashed, hwhole⟩
      exact ⟨hcrashed, by omega⟩
  · rw [if_neg (by omega)] at hn
    obtain rfl : n = 0 := by omega
    refine ⟨l, begun, h.goto ?_ rfl ?_ ?_ (fun _ => hmem) ?_⟩
    · simp [LogState.append, LogState.bytes]
    · intro m hm
      exact absurd hmem (h.begun i m hm).1
    · exact fun _ => hw.imp id fun hcrashed => .inr hcrashed.1
    · rintro m rfl
      rcases hw with hw | ⟨hw, -⟩ <;> cases hw
      exact .inr ⟨hmem, rfl⟩
  · obtain ⟨hnot, hpos, hle, -⟩ := h.begun i k rfl
    by_cases hpart : k + n ≤ lineSize (checkpoint i)
    · refine ⟨l, _, h.grow (.inr rfl) hnot rfl rfl (by omega) hpart (hw.imp id ?_)⟩
      rintro ⟨hcrashed, hwhole⟩
      exact ⟨hcrashed, by omega⟩
    · have hend : k + n = lineSize (checkpoint i) + 1 := by
        split at hn <;> omega
      exact ⟨_, _, h.close (.inr rfl) hnot rfl rfl hend (hw.imp id And.left)⟩

/-- Steps that keep records apart keep the shape of the log. -/
theorem LogShape.step [DecidableEq Call] (h : LogShape checkpoint s l begun) {a : LogAction Call}
    (hok : Apart checkpoint s a) (hstep : logStep checkpoint s a = some s') :
    ∃ l' begun', LogShape checkpoint s' l' begun' := by
  cases a with
  | openLog i =>
    rcases hi : s.writer i with _ | k | _ | _ <;> simp only [logStep, hi, reduceCtorEq] at hstep
    obtain rfl := Option.some.inj hstep
    refine ⟨l, begun, h.goto (by simp [LogState.append, LogState.bytes]) rfl ?_ ?_ (by simp) ?_⟩
    · intro k hk
      obtain ⟨-, -, -, hw | ⟨hw, -⟩⟩ := h.begun i k hk <;> rw [hi] at hw <;> cases hw
    · intro hmem
      rcases h.whole i hmem with hw | hw | hw <;> rw [hi] at hw <;> cases hw
    · intro k hk
      cases hk
      exact .inl rfl
  | write i n =>
    rcases hi : s.writer i with _ | k | _ | _ <;> simp only [logStep, hi, reduceCtorEq] at hstep
    split at hstep
    · rename_i hn
      obtain rfl := Option.some.inj hstep
      refine h.part hi hn.2 (fun hk => .inr (hok (hk ▸ hi))) (.inl rfl)
    · cases hstep
  | finish i =>
    rcases hi : s.writer i with _ | k | _ | _ <;> simp only [logStep, hi, reduceCtorEq] at hstep
    split at hstep
    · rename_i hk
      obtain rfl := Option.some.inj hstep
      have hmem : i ∈ l := by
        rcases h.writing i k hi with hzero | ⟨hmem, -⟩ | hbegun
        · omega
        · exact hmem
        · have := (h.begun i k hbegun).2.2.1
          omega
      refine ⟨l, begun, h.goto rfl rfl ?_ (fun _ => .inr (.inl rfl)) (fun _ => hmem) (by simp)⟩
      intro m hm
      exact (h.begun i m hm).1 hmem
    · cases hstep
  | crash i n =>
    rcases hi : s.writer i with _ | k | _ | _ <;> simp only [logStep, hi, reduceCtorEq] at hstep
    split at hstep
    · rename_i hn
      obtain rfl := Option.some.inj hstep
      obtain ⟨hwhole, hstart⟩ := hok k hi
      exact h.part hi hn hstart (.inr ⟨rfl, hwhole⟩)
    · cases hstep

/-! ## Reading the log -/

/-- An empty log has its shape. -/
theorem logShape_start (file : Option ByteArray) (hfile : file.getD .empty = .empty) :
    LogShape checkpoint (.start Call file) [] none where
  nodup := .nil
  bytes := hfile
  whole := fun _ hi => absurd hi List.not_mem_nil
  returned := fun _ hi => nomatch hi
  writing := fun _ _ hi => nomatch hi
  begun := fun _ _ hi => nomatch hi

/-- The call has ended, or not begun. -/
def Writer.ended : Writer → Prop
  | .writing _ => False
  | _ => True

/-- After calls whose records stay apart, each checkpoint is read back once. -/
theorem checkpoints_kept [DecidableEq Call] {parseCheckpoint : String → Except String Checkpoint}
    (hparse : ∀ i, parseCheckpoint (checkpointText (checkpoint i)) = .ok (checkpoint i)) (path : String)
    {file : Option ByteArray} (hfile : file.getD .empty = .empty) {actions : List (LogAction Call)}
    (hrun : GuardedRun (logStep checkpoint) (Apart checkpoint) (.start Call file) actions s)
    (hended : ∀ i, (s.writer i).ended) :
    ∃ l : List Call, l.Nodup ∧ (∀ i, s.writer i = .returned → i ∈ l) ∧
      (∀ i ∈ l, s.writer i = .returned ∨ s.writer i = .crashed) ∧
      loadCheckpoints parseCheckpoint path s.file = .ok (l.map checkpoint) := by
  have hinv : ∀ {s a s'}, (∃ l begun, LogShape checkpoint s l begun) → Apart checkpoint s a →
      logStep checkpoint s a = some s' → ∃ l begun, LogShape checkpoint s' l begun := by
    rintro s a s' ⟨l, begun, h⟩ hok hstep
    exact h.step hok hstep
  obtain ⟨l, begun, h⟩ := hrun.invariant hinv ⟨[], none, logShape_start file hfile⟩
  have hwriting : ∀ i k, s.writer i ≠ .writing k := by
    intro i k hi
    have := hended i
    rw [hi] at this
    exact this
  rw [loadCheckpoints_getD]
  change ∃ l : List Call, l.Nodup ∧ _ ∧ _ ∧ loadCheckpoints parseCheckpoint path (some s.bytes) = _
  rw [h.bytes]
  have hparse' : ∀ (l : List Call), ∀ c ∈ l.map checkpoint, parseCheckpoint (checkpointText c) = .ok c := by
    intro l c hc
    obtain ⟨i, -, rfl⟩ := List.mem_map.mp hc
    exact hparse i
  have hends : ∀ i ∈ l, s.writer i = .returned ∨ s.writer i = .crashed :=
    fun i hi => (h.whole i hi).resolve_left (hwriting i _)
  rcases begun with _ | ⟨i, k⟩
  · refine ⟨l, h.nodup, h.returned, hends, ?_⟩
    rw [Option.elim_none, ByteArray.append_empty]
    exact loadCheckpoints_of_lines (hparse' l) path (lines_checkpointTexts _)
  · -- a crash left the last line without its newline
    obtain ⟨hnot, -, -, hi | ⟨hi, rfl⟩⟩ := h.begun i k rfl
    · exact absurd hi (hwriting i k)
    refine ⟨l ++ [i], ?_, ?_, ?_, ?_⟩
    · refine List.nodup_append.mpr ⟨h.nodup, List.nodup_singleton i, fun j hj j' hj' => ?_⟩
      rintro rfl
      exact hnot (List.mem_singleton.mp hj' ▸ hj)
    · exact fun j hj => List.mem_append_left _ (h.returned j hj)
    · intro j hj
      rcases List.mem_append.mp hj with hj | hj
      · exact hends j hj
      · exact List.mem_singleton.mp hj ▸ .inr hi
    · have hlines := lines_checkpointTexts_concat (l.map checkpoint) (checkpoint i)
      rw [Option.elim_some, extract_line, ← String.toByteArray_append]
      rw [← List.map_singleton (f := checkpoint), ← List.map_append] at hlines
      exact loadCheckpoints_of_lines (hparse' _) path hlines

/-! ## Records one after the other -/

@[simp] theorem LogState.append_writer_self [DecidableEq Call] (s : LogState Call) (i : Call) (part : ByteArray)
    (w : Writer) : (s.append i part w).writer i = w := Function.update_self ..

theorem logStep_openLog [DecidableEq Call] (hi : s.writer i = .idle) :
    logStep checkpoint s (.openLog i) = some (s.append i .empty (.writing 0)) := by
  simp [logStep, hi]

theorem logStep_write [DecidableEq Call] (hi : s.writer i = .writing k) (hn : 0 < n)
    (hle : k + n ≤ pieceEnd (checkpoint i) k) : logStep checkpoint s (.write i n) =
      some (s.append i ((recordBytes (checkpoint i)).extract k (k + n)) (.writing (k + n))) := by
  simp [logStep, hi, hn, hle]

theorem logStep_finish [DecidableEq Call] (hi : s.writer i = .writing (lineSize (checkpoint i) + 1)) :
    logStep checkpoint s (.finish i) = some (s.goto i .returned) := by
  simp [logStep, hi]

/-- The line and the newline in one write call each. -/
def recordActions (i : Call) (c : Checkpoint) : List (LogAction Call) :=
  [.openLog i, .write i (lineSize c), .write i 1, .finish i]

/-- A call that finds the log at the start of a line and is not disturbed. -/
theorem guardedRun_record [DecidableEq Call] (hi : s.writer i = .idle) (hstart : AtLineStart s.bytes) :
    ∃ s', GuardedRun (logStep checkpoint) (Apart checkpoint) s (recordActions i (checkpoint i)) s' ∧
      s'.writer = Function.update s.writer i .returned ∧ AtLineStart s'.bytes := by
  have hpos := lineSize_pos (checkpoint i)
  have hline : 0 + lineSize (checkpoint i) ≤ pieceEnd (checkpoint i) 0 := by
    rw [pieceEnd, if_pos hpos]
    omega
  have hnewline : 0 + lineSize (checkpoint i) + 1 ≤ pieceEnd (checkpoint i) (0 + lineSize (checkpoint i)) := by
    rw [pieceEnd, if_neg (by omega)]
    omega
  refine ⟨_, .next trivial (logStep_openLog hi) (.next ?_ (logStep_write (LogState.append_writer_self ..) hpos hline)
    (.next ?_ (logStep_write (LogState.append_writer_self ..) Nat.one_pos hnewline) (.next trivial
      (logStep_finish ?_) (.done _)))), ?_, ?_⟩
  · intro _
    simpa [LogState.append, LogState.bytes] using hstart
  · intro hwritten
    rw [LogState.append_writer_self] at hwritten
    have := Writer.writing.inj hwritten
    omega
  · rw [LogState.append_writer_self, Nat.zero_add]
  · simp [LogState.goto, LogState.append]
  · right
    simp only [LogState.goto, LogState.append, LogState.bytes, Option.getD_some, Nat.zero_add, extract_newline]
    rw [back?_append]
    rfl

/-! ## Records that do not stay apart -/

/-- Two calls write their lines, then their newlines. -/
def splicedActions (c : Checkpoint) : List (LogAction Bool) :=
  [.openLog true, .openLog false, .write true (lineSize c), .write false (lineSize c), .write true 1,
    .write false 1, .finish true, .finish false]

/-- Both calls return, and their lines have grown together. -/
theorem runActions_spliced (c : Checkpoint) :
    ∃ s, runActions (logStep fun _ : Bool => c) (.start Bool none) (splicedActions c) = some s ∧
      (∀ i, s.writer i = .returned) ∧
      s.file = some (checkpointText c ++ checkpointText c ++ "\n" ++ "\n").toByteArray := by
  have hpos := lineSize_pos c
  simp [splicedActions, runActions, logStep, LogState.start, LogState.append, LogState.goto, LogState.bytes,
    pieceEnd, hpos, Function.update, extract_line, extract_newline, String.toByteArray_append]

/-- One call returns, then the process of another crashes within the line. -/
def tornActions (c : Checkpoint) : List (LogAction Bool) :=
  [.openLog true, .write true (lineSize c), .write true 1, .finish true, .openLog false, .crash false 1]

/-- The first byte of the second line stays behind the first line. -/
theorem runActions_torn (c : Checkpoint) :
    ∃ s, runActions (logStep fun _ : Bool => c) (.start Bool none) (tornActions c) = some s ∧
      s.writer true = .returned ∧ s.writer false = .crashed ∧
      s.file = some (checkpointText c ++ "\n" ++ "\x7b").toByteArray := by
  have hpos := lineSize_pos c
  have hbrace : (recordBytes c).extract 0 1 = "\x7b".toByteArray := by
    have hone : 1 = "\x7b".toByteArray.size := by decide
    rw [recordBytes, checkpointText, structText, String.append_assoc, String.append_assoc,
      String.toByteArray_append, ByteArray.extract_append_eq_left hone]
  have hle : 1 ≤ lineSize c := hpos
  simp [tornActions, runActions, logStep, LogState.start, LogState.append, LogState.goto, LogState.bytes,
    pieceEnd, hpos, hle, Function.update, extract_line, extract_newline, hbrace, String.toByteArray_append]

/-- A line of two checkpoints makes the whole log unreadable. -/
theorem loadCheckpoints_spliced {parseCheckpoint : String → Except String Checkpoint} {c : Checkpoint}
    {m : String} (hreject : parseCheckpoint (checkpointText c ++ checkpointText c) = .error m) (path : String) :
    ∃ e, loadCheckpoints parseCheckpoint path
      (some (checkpointText c ++ checkpointText c ++ "\n" ++ "\n").toByteArray) = .error e := by
  have hone : OneLine (checkpointText c ++ checkpointText c) :=
    (oneLine_checkpointText c).append (oneLine_checkpointText c)
  have hlines : lines (checkpointText c ++ checkpointText c ++ "\n" ++ "\n") =
      [checkpointText c ++ checkpointText c, ""] := by
    rw [lines_append (terminated_append_newline _), lines_line hone.newline_not_mem hone.getLast?_ne]
    rfl
  have hchars : (checkpointText c ++ checkpointText c).toList = '\x7b' ::
      (((Value.fieldsText (fun _ => "") c.fields).toList ++ '\x7d' :: '\x7b' ::
        (Value.fieldsText (fun _ => "") c.fields).toList) ++ ['\x7d']) := by
    simp [checkpointText, structText, String.toList_append]
  have htrim := trim_of_ends hchars (by decide) (by decide)
  have hne : checkpointText c ++ checkpointText c ≠ "" := by
    intro hempty
    rw [hempty] at hchars
    cases hchars
  rw [loadCheckpoints, bufLines_toByteArray, hlines]
  simp [loadLine, htrim, hne, hreject, bind, Except.bind]

/-- So does the first byte of a line. -/
theorem loadCheckpoints_torn {parseCheckpoint : String → Except String Checkpoint} {c : Checkpoint} {m : String}
    (hparse : parseCheckpoint (checkpointText c) = .ok c) (hreject : parseCheckpoint "\x7b" = .error m)
    (path : String) :
    ∃ e, loadCheckpoints parseCheckpoint path (some (checkpointText c ++ "\n" ++ "\x7b").toByteArray) = .error e := by
  have hone := oneLine_checkpointText c
  have hlines : lines (checkpointText c ++ "\n" ++ "\x7b") = [checkpointText c, "\x7b"] := by
    rw [lines_append (terminated_append_newline _), lines_line hone.newline_not_mem hone.getLast?_ne]
    rfl
  have htrim : trim "\x7b" = "\x7b" := by decide
  rw [loadCheckpoints, bufLines_toByteArray, hlines]
  simp [loadLine, trim_checkpointText, checkpointText_ne_empty, hparse, htrim, hreject, bind, Except.bind]

/-- A checkpoint without details. -/
def smallCheckpoint : Checkpoint where
  session := "ses_1"
  source := .codex
  project := "/innen"
  status := .active
  objective := "park"
  completedWork := []
  currentEvidence := []
  blockers := []
  nextAction := "resume"
  verification := "none"
  updatedAt := "2026-09-18T00:00:00Z"

/-- A parser that knows its text. -/
def parseSmall (line : String) : Except String Checkpoint :=
  if line = checkpointText smallCheckpoint then .ok smallCheckpoint else .error "trailing characters"

theorem parseSmall_text : parseSmall (checkpointText smallCheckpoint) = .ok smallCheckpoint := if_pos rfl

/-- Two calls one after the other are both read back. -/
theorem checkpoints_kept_two : ∃ s : LogState Bool, (∀ i, s.writer i = .returned) ∧ ∃ l : List Bool, l.Nodup ∧
    (∀ i, s.writer i = .returned → i ∈ l) ∧ (∀ i ∈ l, s.writer i = .returned ∨ s.writer i = .crashed) ∧
      loadCheckpoints parseSmall "checkpoints.jsonl" s.file = .ok (l.map fun _ => smallCheckpoint) := by
  obtain ⟨s₁, hrun₁, hwriter₁, hstart₁⟩ := @guardedRun_record Bool (fun _ => smallCheckpoint)
    (.start Bool none) true _ rfl (.inl rfl)
  obtain ⟨s₂, hrun₂, hwriter₂, -⟩ := @guardedRun_record Bool (fun _ => smallCheckpoint) s₁ false _
    (by rw [hwriter₁]; rfl) hstart₁
  have hreturned : ∀ i, s₂.writer i = .returned := by
    intro i
    rw [hwriter₂, hwriter₁]
    cases i <;> rfl
  have hended : ∀ i, (s₂.writer i).ended := by
    intro i
    rw [hreturned i]
    trivial
  exact ⟨s₂, hreturned, checkpoints_kept (fun _ => parseSmall_text) _ rfl (hrun₁.append hrun₂) hended⟩

/-- Two lines that grew together hide both checkpoints, and a torn line hides the whole one before it. -/
theorem spliced_log_unreadable :
    (∃ s, runActions (logStep fun _ : Bool => smallCheckpoint) (.start Bool none)
        (splicedActions smallCheckpoint) = some s ∧ (∀ i, s.writer i = .returned) ∧
      ∃ e, loadCheckpoints parseSmall "checkpoints.jsonl" s.file = .error e) ∧
    ∃ s, runActions (logStep fun _ : Bool => smallCheckpoint) (.start Bool none)
        (tornActions smallCheckpoint) = some s ∧ s.writer true = .returned ∧ s.writer false = .crashed ∧
      ∃ e, loadCheckpoints parseSmall "checkpoints.jsonl" s.file = .error e := by
  have hdouble : checkpointText smallCheckpoint ++ checkpointText smallCheckpoint ≠
      checkpointText smallCheckpoint := by
    intro h
    have hsize := congrArg String.utf8ByteSize h
    have hpos := lineSize_pos smallCheckpoint
    rw [String.utf8ByteSize_append] at hsize
    unfold lineSize at hpos
    omega
  have hbrace : "\x7b" ≠ checkpointText smallCheckpoint := by
    intro h
    have hsize := congrArg String.utf8ByteSize h
    have hopen : "\x7b".utf8ByteSize = 1 := by decide
    have hclose : "\x7d".utf8ByteSize = 1 := by decide
    rw [checkpointText, structText, String.utf8ByteSize_append, String.utf8ByteSize_append, hopen, hclose] at hsize
    omega
  constructor
  · obtain ⟨s, hrun, hreturned, hfile⟩ := runActions_spliced smallCheckpoint
    refine ⟨s, hrun, hreturned, ?_⟩
    rw [hfile]
    exact loadCheckpoints_spliced (if_neg hdouble) _
  · obtain ⟨s, hrun, hreturned, hcrashed, hfile⟩ := runActions_torn smallCheckpoint
    refine ⟨s, hrun, hreturned, hcrashed, ?_⟩
    rw [hfile]
    exact loadCheckpoints_torn parseSmall_text (if_neg hbrace) _

end Innen.Conversation
