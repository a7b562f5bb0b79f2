import Innen.Common.Ledger
import Innen.Conversation.TaskState.Model

/-!
# The task state a transcript stands for

The purpose of the projection, told by a ledger of the writes: a call issues a write, a result answers the last write
with its call id, and a successful result with the items is a write of its own, confirmed as it is issued. The
reported state is honest when it is the newest confirmed write, or else a write without an answer.

The extractor keeps only the write confirmed last and the writes that wait. It follows the ledger as long as no
failing result carries the items of a write that waits or takes back the write that stands, and as long as no result
comes after the confirmation of a later write.
-/

namespace Innen.Conversation.Tasks

open Innen.Common Innen.Common.Ledger

/-! ## The ledger -/

abbrev Writes := List (Entry String Write)

/-- The write of an observation with items, by a tool. -/
def Observation.write (o : Observation) (tool : String) (items : List TaskItem) : Write :=
  ⟨o.line, tool, items, o.counts⟩

/-- The tool of a result: its own, or that of the write it answers. -/
def Observation.answeredTool (o : Observation) (L : Writes) : String :=
  if o.tool = "" then ((o.callId.bind fun id => waiting id L).map Write.tool).getD "" else o.tool

/-- A call issues its write. -/
def recordCall (L : Writes) (o : Observation) : Writes :=
  match o.items with
  | some items => if isTaskStateTool o.tool then ⟨o.callId, o.write o.tool items, .awaited⟩ :: L else L
  | none => L

/-- A failing result refuses the last write with its call id. -/
def recordFailure (L : Writes) (o : Observation) : Writes :=
  match o.callId with
  | some id => settle id .refused L
  | none => L

/-- A successful result with the items of a task-state tool issues a confirmed write; one without items confirms the
last write with its call id, if that waits. -/
def recordSuccess (L : Writes) (o : Observation) : Writes :=
  match o.items, o.callId with
  | some items, _ =>
    let tool := o.answeredTool L
    if isTaskStateTool tool then ⟨o.callId, o.write tool items, .confirmed⟩ :: L else L
  | none, some id => if (waiting id L).isSome then settle id .confirmed L else L
  | none, none => L

def record (L : Writes) (o : Observation) : Writes :=
  match o.origin with
  | .call => recordCall L o
  | .result => if o.failed then recordFailure L o else recordSuccess L o

/-- The observations of some events, each with its line. -/
def observed (parseJson : String → Option Value) (events : List Value) : List Observation :=
  events.zipIdx.flatMap fun e => observations parseJson (e.2 + 1) e.1

/-- A reported state is the newest confirmed write, or a write without an answer where none is confirmed. -/
structure Honest (L : Writes) (state : Option TaskState) : Prop where
  confirmed : state.filter (·.confirmed) = (standing L).map (·.intoState true)
  unconfirmed : ∀ st ∈ state, st.confirmed = false → ∃ e ∈ L, e.verdict = .awaited ∧ st = e.value.intoState false

/-! ## When the extractor follows it -/

/-- A failing result neither carries the items of a write that waits nor takes back the write that stands. -/
def FailureFits (L : Writes) (o : Observation) : Prop :=
  ∀ id ∈ o.callId, (o.items.isSome → waiting id L = none) ∧
    ∀ e ∈ last id L, e.verdict = .confirmed → ∃ n ∈ newer id L, n.verdict = .confirmed

/-- A result without items comes before a later write is confirmed. -/
def SuccessFits (L : Writes) (o : Observation) : Prop :=
  o.items = none → ∀ id ∈ o.callId, (waiting id L).isSome → ∀ n ∈ newer id L, n.verdict ≠ .confirmed

def Fits (L : Writes) (o : Observation) : Prop :=
  o.origin = .result → if o.failed then FailureFits L o else SuccessFits L o

instance (L : Writes) (o : Observation) : Decidable (FailureFits L o) := by unfold FailureFits; infer_instance
instance (L : Writes) (o : Observation) : Decidable (SuccessFits L o) := by unfold SuccessFits; infer_instance
instance (L : Writes) (o : Observation) : Decidable (Fits L o) := by unfold Fits; infer_instance

/-- Every observation fits the writes before it. -/
def FitsRun : Writes → List Observation → Prop
  | _, [] => True
  | L, o :: rest => Fits L o ∧ FitsRun (record L o) rest

instance decidableFitsRun : (L : Writes) → (os : List Observation) → Decidable (FitsRun L os)
  | _, [] => isTrue trivial
  | L, o :: rest =>
    have := decidableFitsRun (record L o) rest
    inferInstanceAs (Decidable (Fits L o ∧ FitsRun (record L o) rest))

/-! ## One step -/

/-- The extractor holds what the ledger says. -/
structure Follows (s : Extractor) (L : Writes) : Prop where
  confirmed : s.confirmed = standing L
  pending : ∀ id, s.pending.get? id = waiting id L
  unpaired : ∀ w ∈ s.unpaired, ∃ e ∈ L, e.key = none ∧ e.verdict = .awaited ∧ e.value = w

theorem Follows.empty : Follows .empty [] := ⟨rfl, fun _ => rfl, by simp [Extractor.empty]⟩

theorem get?_forget (s : Extractor) (id id' : String) :
    (s.forget id).pending.get? id' = if id' = id then none else s.pending.get? id' := by
  rw [Extractor.forget, SortedMap.get?_filterKeys]
  by_cases h : id' = id <;> simp [h]

/-- A settled call is forgotten. -/
theorem Follows.forget {s : Extractor} {L : Writes} (h : Follows s L) (id : String) {v : Verdict} (hv : v ≠ .awaited) :
    ∀ id', (s.forget id).pending.get? id' = waiting id' (settle id v L) := by
  intro id'
  rw [get?_forget]
  by_cases hid : id' = id
  · rw [if_pos hid, hid, waiting_settle_self hv]
  · rw [if_neg hid, waiting_settle_ne v hid, h.pending id']

theorem Follows.unpaired_cons {s : Extractor} {L : Writes} (h : Follows s L) (e' : Entry String Write) :
    ∀ w ∈ s.unpaired, ∃ e ∈ e' :: L, e.key = none ∧ e.verdict = .awaited ∧ e.value = w := by
  intro w hw
  obtain ⟨e, he, hrest⟩ := h.unpaired w hw
  exact ⟨e, List.mem_cons_of_mem _ he, hrest⟩

theorem Follows.unpaired_settle {s : Extractor} {L : Writes} (h : Follows s L) (id : String) (v : Verdict) :
    ∀ w ∈ s.unpaired, ∃ e ∈ settle id v L, e.key = none ∧ e.verdict = .awaited ∧ e.value = w := by
  intro w hw
  obtain ⟨e, he, hkey, hrest⟩ := h.unpaired w hw
  exact ⟨e, mem_settle he hkey, hkey, hrest⟩

theorem Follows.observeCall {s : Extractor} {L : Writes} (h : Follows s L) (o : Observation) :
    Follows (s.observeCall o) (recordCall L o) := by
  unfold Extractor.observeCall recordCall
  cases o.items with
  | none => exact h
  | some items =>
    dsimp only
    by_cases htool : isTaskStateTool o.tool
    · rw [if_pos htool, if_pos htool]
      cases hid : o.callId with
      | some id =>
        refine ⟨?_, fun id' => ?_, h.unpaired_cons _⟩
        · rw [standing_cons_ne (by simp), ← h.confirmed]
        · dsimp only
          rw [SortedMap.get?_insert]
          by_cases heq : id' = id
          · rw [if_pos heq, heq, waiting_cons_self rfl, if_pos rfl, Observation.write]
          · rw [if_neg heq, waiting_cons_ne (by simpa using Ne.symm heq), h.pending id']
      | none =>
        refine ⟨?_, fun id' => ?_, fun w hw => ?_⟩
        · rw [standing_cons_ne (by simp), ← h.confirmed]
        · rw [waiting_cons_ne (by simp), ← h.pending id']
        · obtain hw | hw := List.mem_append.mp hw
          · exact h.unpaired_cons _ w hw
          · exact ⟨_, List.mem_cons_self, rfl, rfl, (List.mem_singleton.mp hw).symm⟩
    · rw [if_neg htool, if_neg htool]
      exact h

theorem Follows.observeFailure {s : Extractor} {L : Writes} (h : Follows s L) {o : Observation} (hfail : o.failed = true)
    (hfits : FailureFits L o) : Follows (s.observeResult o) (recordFailure L o) := by
  unfold Extractor.observeResult recordFailure
  cases hid : o.callId with
  | none => cases o.items with
    | none => exact h
    | some items =>
      dsimp only
      rw [if_pos hfail]
      exact h
  | some id =>
    obtain ⟨hitems, hstands⟩ := hfits id hid
    have hstanding : s.confirmed = standing (settle id .refused L) := by
      rw [standing_settle_refused fun e he => hstands e he, h.confirmed]
    -- where nothing waits, the extractor has nothing to forget
    have hstill : waiting id L = none → Follows s (settle id .refused L) := by
      intro hnone
      refine ⟨hstanding, fun id' => ?_, h.unpaired_settle id .refused⟩
      by_cases heq : id' = id
      · rw [heq, waiting_settle_self (by simp), h.pending, hnone]
      · rw [waiting_settle_ne _ heq, h.pending]
    cases hsome : o.items with
    | some items =>
      dsimp only
      rw [if_pos hfail]
      exact hstill (hitems (by rw [hsome, Option.isSome_some]))
    | none =>
      dsimp only
      cases hw : s.pending.get? id with
      | none => exact hstill (by rw [← h.pending, hw])
      | some write =>
        dsimp only
        rw [if_pos hfail]
        exact ⟨hstanding, h.forget id (by simp), h.unpaired_settle id .refused⟩

theorem Follows.toolFor {s : Extractor} {L : Writes} (h : Follows s L) (o : Observation) :
    (if o.tool = "" then s.toolFor o.callId else o.tool) = o.answeredTool L := by
  have hget : s.pending.get? = fun id => waiting id L := funext h.pending
  rw [Extractor.toolFor, hget, Observation.answeredTool]

theorem Follows.observeSuccess {s : Extractor} {L : Writes} (h : Follows s L) {o : Observation}
    (hfail : o.failed = false) (hfits : SuccessFits L o) : Follows (s.observeResult o) (recordSuccess L o) := by
  have hnot : ¬o.failed = true := by rw [hfail]; exact Bool.false_ne_true
  unfold Extractor.observeResult recordSuccess
  cases hitems : o.items with
  | some items =>
    dsimp only
    rw [if_neg hnot, h.toolFor]
    by_cases htool : isTaskStateTool (o.answeredTool L)
    · rw [if_pos htool, if_pos htool]
      cases hid : o.callId with
      | none =>
        refine ⟨?_, fun id' => ?_, h.unpaired_cons _⟩
        · rw [standing_cons_confirmed rfl]
          rfl
        · rw [waiting_cons_ne (by simp), ← h.pending id']
          rfl
      | some id =>
        refine ⟨?_, fun id' => ?_, h.unpaired_cons _⟩
        · rw [standing_cons_confirmed rfl]
          rfl
        · refine (get?_forget s id id').trans ?_
          by_cases heq : id' = id
          · rw [if_pos heq, heq, waiting_cons_self rfl, if_neg (by simp)]
          · rw [if_neg heq, waiting_cons_ne (by simpa using Ne.symm heq), h.pending id']
    · rw [if_neg htool, if_neg htool]
      exact h
  | none =>
    cases hid : o.callId with
    | none => exact h
    | some id =>
      dsimp only
      rw [h.pending id]
      cases hw : waiting id L with
      | none => exact h
      | some write =>
        dsimp only
        rw [if_neg hnot, if_pos (by rw [Option.isSome_some])]
        obtain ⟨e, -, hlast, -, hvalue⟩ := exists_of_waiting hw
        refine ⟨?_, h.forget id (by simp), h.unpaired_settle id .confirmed⟩
        rw [standing_settle_confirmed hlast (hfits hitems id hid (by rw [hw, Option.isSome_some])), hvalue]

/-- The extractor follows the ledger over an observation that fits. -/
theorem Follows.step {s : Extractor} {L : Writes} (h : Follows s L) {o : Observation} (hfits : Fits L o) :
    Follows (s.step o) (record L o) := by
  unfold Extractor.step record
  cases horigin : o.origin with
  | call => exact h.observeCall o
  | result =>
    dsimp only
    have hresult := hfits horigin
    cases hfail : o.failed with
    | true =>
      rw [hfail, if_pos rfl] at hresult
      rw [if_pos rfl]
      exact h.observeFailure hfail hresult
    | false =>
      rw [hfail, if_neg Bool.false_ne_true] at hresult
      rw [if_neg Bool.false_ne_true]
      exact h.observeSuccess hfail hresult

/-! ## Whole transcripts -/

theorem Follows.run {s : Extractor} {L : Writes} (h : Follows s L) {os : List Observation} (hfits : FitsRun L os) :
    Follows (os.foldl Extractor.step s) (os.foldl record L) := by
  induction os generalizing s L with
  | nil => exact h
  | cons o rest ih => exact ih (h.step hfits.1) hfits.2

/-- The events are folded observation by observation. -/
theorem extractFrom_eq (parseJson : String → Option Value) (s : Extractor) (events : List Value) :
    extractFrom parseJson s events.zipIdx = (observed parseJson events).foldl Extractor.step s := by
  rw [extractFrom, observed, List.foldl_flatMap]
  rfl

theorem newest_mem {writes : List Write} {w : Write} (h : Extractor.newest writes = some w) : w ∈ writes := by
  suffices hall : ∀ (ws : List Write) (best : Option Write), ws.foldl
      (fun best w => if best.any fun b => w.line < b.line then best else some w) best = some w →
      best = some w ∨ w ∈ ws by
    obtain h | h := hall writes none h
    · cases h
    · exact h
  intro ws
  induction ws with
  | nil => exact fun best h => .inl h
  | cons w' ws ih =>
    intro best h
    obtain hbest | hmem := ih _ h
    · dsimp only at hbest
      split at hbest
      · exact .inl hbest
      · exact .inr (Option.some.inj hbest ▸ List.mem_cons_self)
    · exact .inr (List.mem_cons_of_mem _ hmem)

/-- An extractor that follows the ledger reports honestly. -/
theorem Follows.honest {s : Extractor} {L : Writes} (h : Follows s L) : Honest L s.finish := by
  unfold Extractor.finish
  cases hconf : s.confirmed with
  | some write =>
    refine ⟨?_, fun st hst hfalse => ?_⟩
    · rw [← h.confirmed, hconf]
      rfl
    · rw [← Option.some.inj hst] at hfalse
      cases hfalse
  | none =>
    dsimp only
    refine ⟨?_, fun st hst hfalse => ?_⟩
    · rw [← h.confirmed, hconf]
      cases Extractor.newest (s.pending.values ++ s.unpaired) <;> rfl
    · obtain ⟨w, hw, rfl⟩ := Option.map_eq_some_iff.mp hst
      obtain hmem | hmem := List.mem_append.mp (newest_mem hw)
      · obtain ⟨⟨id, w'⟩, hentry, rfl⟩ := List.mem_map.mp hmem
        have hget := h.pending id
        rw [(SortedMap.mem_entries_iff _).mp hentry] at hget
        obtain ⟨e, he, -, hawaited, hvalue⟩ := exists_of_waiting hget.symm
        exact ⟨e, he, hawaited, by rw [hvalue]⟩
      · obtain ⟨e, he, -, hawaited, hvalue⟩ := h.unpaired w hmem
        exact ⟨e, he, hawaited, by rw [hvalue]⟩

/-- Where every observation fits the writes before it, the reported task state is the newest confirmed write, and no
refused write is reported. -/
theorem extractEvents_honest (parseJson : String → Option Value) (events : List Value)
    (hfits : FitsRun [] (observed parseJson events)) :
    Honest ((observed parseJson events).foldl record []) (extractEvents parseJson events) := by
  rw [extractEvents, extractFrom_eq]
  exact (Follows.empty.run hfits).honest

/-! ## Fixtures -/

/-- A list with one task. -/
def oneTodo (content : String) : Value :=
  .mkObject [("todos", .array [.mkObject [("content", .string content), ("status", .string "pending")]])]

/-- A call that writes one task. -/
def writeCall (id content : String) : Value :=
  .mkObject [("role", .string "assistant"),
    ("content", .array [.mkObject [("type", .string "toolCall"), ("id", .string id), ("name", .string "todo_write"),
      ("arguments", oneTodo content)]])]

/-- A result of a call, with some details. -/
def writeResult (id : String) (isError : Bool) (details : Value) : Value :=
  .mkObject [("role", .string "toolResult"), ("toolCallId", .string id), ("toolName", .string "todo_write"),
    ("isError", .bool isError), ("details", details)]

/-- The second write is refused, so the first stands. -/
theorem extractEvents_honest_refused :
    FitsRun [] (observed (fun _ => none) [writeCall "c1" "draft", writeResult "c1" false .null, writeCall "c2" "review",
      writeResult "c2" true .null]) ∧
    Honest ((observed (fun _ => none) [writeCall "c1" "draft", writeResult "c1" false .null, writeCall "c2" "review",
      writeResult "c2" true .null]).foldl record [])
      (extractEvents (fun _ => none) [writeCall "c1" "draft", writeResult "c1" false .null, writeCall "c2" "review",
        writeResult "c2" true .null]) :=
  ⟨by decide +kernel, extractEvents_honest _ _ (by decide +kernel)⟩

/-- A failing result that echoes the items leaves its write waiting, and the refused write is reported. -/
theorem echoed_failure_reported :
    ¬∀ (parseJson : String → Option Value) (events : List Value),
      Honest ((observed parseJson events).foldl record []) (extractEvents parseJson events) := by
  intro h
  have hhonest := h (fun _ => none) [writeCall "c1" "draft", writeResult "c1" true (oneTodo "draft")]
  have hrefused : ∀ e ∈ (observed (fun _ => none)
      [writeCall "c1" "draft", writeResult "c1" true (oneTodo "draft")]).foldl record [], e.verdict ≠ .awaited := by
    decide +kernel
  have hstate : extractEvents (fun _ => none) [writeCall "c1" "draft", writeResult "c1" true (oneTodo "draft")] =
      some ⟨"todo_write", [⟨"draft", .pending, some "pending"⟩], 1, false, none⟩ := by
    decide +kernel
  obtain ⟨e, he, hawaited, -⟩ := hhonest.unconfirmed _ hstate rfl
  exact hrefused e he hawaited

end Innen.Conversation.Tasks
