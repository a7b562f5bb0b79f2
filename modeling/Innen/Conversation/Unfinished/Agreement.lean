import Innen.Conversation.Unfinished.Verdict

/-!
# Agreement of the tail with the transcript

The tail is the last lines of a transcript. Lines that it drops for their number are not reported, nor are those of a
window without a whole line, so the verdict is that of all lines iff the dropped lines decide nothing
(`tail_agrees_iff`).
-/

namespace Innen.Conversation.Unfinished

open Common

/-! ## Lines that are kept -/

/-- The whole lines in the window. -/
def windowLines (content : ByteArray) : List String :=
  let found := lines (fromUtf8Lossy (content.extract (content.size - window) content.size))
  if window < content.size then found.tail else found

/-- The newest lines of the window. -/
def keptLines (content : ByteArray) : List String := (windowLines content).drop ((windowLines content).length - maxLines)

/-- The lines of a file before those that are kept. -/
def droppedLines (content : ByteArray) : List String :=
  (fileLines content).take ((fileLines content).length - (keptLines content).length)

theorem boundedTailLines_eq (content : ByteArray) :
    boundedTailLines content = (keptLines content, decide (window < content.size)) := by
  have hroom : ([] : List String).length ≤ maxLines := Nat.zero_le _
  unfold boundedTailLines
  dsimp only
  have hpos : 0 < content.size - window ↔ window < content.size := tsub_pos_iff_lt
  rw [foldl_pushLine _ hroom, List.nil_append, keptLines, windowLines]
  simp only [hpos]

theorem dropped_append_kept (content : ByteArray) : droppedLines content ++ keptLines content = fileLines content := by
  have hsuffix := tailLines_suffix content
  rw [boundedTailLines_eq] at hsuffix
  dsimp only at hsuffix
  rw [droppedLines]
  exact List.suffix_iff_eq_append.mp hsuffix

/-- Of a file that fits into the window, the newest lines are kept. -/
theorem boundedTailLines_of_le {content : ByteArray} (h : content.size ≤ window) :
    boundedTailLines content = ((fileLines content).drop ((fileLines content).length - maxLines), false) := by
  rw [boundedTailLines_eq, keptLines, windowLines, Nat.sub_eq_zero_of_le h, ByteArray.extract_zero_size,
    if_neg (not_lt.mpr h), decide_eq_false (not_lt.mpr h), fileLines]

/-- Newlines are blank lines. -/
theorem lines_blank (n : ℕ) : lines (String.ofList (lossyOf (List.replicate n 10))) = List.replicate n "" := by
  induction n with
  | zero => exact lines_empty
  | succ n ih =>
    have hsplit := lines_lossy_newline [] (List.replicate n 10)
    rw [List.nil_append] at hsplit
    rw [List.replicate_succ, hsplit, ih, List.replicate_succ]
    rfl

/-! ## Reasons by code -/

/-- Lists whose parts are told apart by a property are equal iff their parts are. -/
theorem append_inj_of_forall {α : Type*} {p : α → Prop} [DecidablePred p] {a a' b b' : List α} (ha : ∀ r ∈ a, p r)
    (ha' : ∀ r ∈ a', p r) (hb : ∀ r ∈ b, ¬p r) (hb' : ∀ r ∈ b', ¬p r) : a ++ b = a' ++ b' ↔ a = a' ∧ b = b' := by
  constructor
  · intro h
    have hparts := congrArg (List.filter p) h
    have hself : ∀ {l : List α}, (∀ r ∈ l, p r) → l.filter p = l := fun hl =>
      List.filter_eq_self.mpr fun r hr => decide_eq_true (hl r hr)
    have hnil : ∀ {l : List α}, (∀ r ∈ l, ¬p r) → l.filter p = [] := fun hl =>
      List.filter_eq_nil_iff.mpr fun r hr hp => hl r hr (of_decide_eq_true hp)
    rw [List.filter_append, List.filter_append, hself ha, hself ha', hnil hb, hnil hb', List.append_nil,
      List.append_nil] at hparts
    subst hparts
    exact ⟨rfl, List.append_cancel_left h⟩
  · rintro ⟨rfl, rfl⟩
    rfl

/-- All reasons have one of some codes. -/
def CodesIn (codes : List String) (reasons : List Reason) : Prop := ∀ r ∈ reasons, r.code ∈ codes

theorem CodesIn.nil (codes : List String) : CodesIn codes [] := fun _ h => (List.not_mem_nil h).elim

theorem CodesIn.singleton {codes : List String} {r : Reason} (h : r.code ∈ codes) : CodesIn codes [r] := by
  intro r' hr'
  rwa [List.mem_singleton.mp hr']

theorem CodesIn.append {codes codes' : List String} {a b : List Reason} (ha : CodesIn codes a) (hb : CodesIn codes' b) :
    CodesIn (codes ++ codes') (a ++ b) := by
  intro r hr
  exact List.mem_append.mpr ((List.mem_append.mp hr).imp (ha r) (hb r))

theorem CodesIn.not_mem {codes : List String} {code : String} {reasons : List Reason} (h : CodesIn codes reasons)
    (hcode : code ∉ codes) : ∀ r ∈ reasons, r.code ≠ code := fun r hr heq => hcode (heq ▸ h r hr)

theorem CodesIn.ite {codes : List String} {b : Bool} {r : Reason} (h : r.code ∈ codes) :
    CodesIn codes (if b then [r] else []) := by
  cases b
  · exact .nil codes
  · exact .singleton h

/-- Reasons of different codes are told apart. -/
theorem append_inj_of_codes {codes codes' : List String} {a a' b b' : List Reason} (ha : CodesIn codes a)
    (ha' : CodesIn codes a') (hb : CodesIn codes' b) (hb' : CodesIn codes' b') (hne : ∀ code ∈ codes, code ∉ codes') :
    a ++ b = a' ++ b' ↔ a = a' ∧ b = b' :=
  append_inj_of_forall (p := fun r : Reason => r.code ∈ codes) ha ha' (fun r hr hcode => hne _ hcode (hb r hr))
    (fun r hr hcode => hne _ hcode (hb' r hr))

theorem codesIn_checkpointReasons (checkpoint : Option Checkpoint) :
    CodesIn ["checkpoint_active", "checkpoint_blocked"] (checkpointReasons checkpoint) := by
  rcases checkpoint with _ | cp
  · exact .nil _
  · rw [checkpointReasons]
    rcases cp.status <;> first | exact .nil _ | exact .singleton (by simp)

theorem codesIn_taskReasons (taskState : Option Tasks.TaskState) :
    CodesIn ["task_state_outstanding"] (taskReasons taskState) := by
  rcases taskState with _ | state
  · exact .nil _
  · rw [taskReasons]
    split_ifs
    · exact .singleton (by simp)
    · exact .nil _

theorem codesIn_endReasons (e : Option Ending) :
    CodesIn ["explicit_turn_completed", "interrupted_or_cancelled"] (endReasons e) := by
  rcases e with _ | _ | _
  · exact .nil _
  · exact .singleton (by simp)
  · exact .singleton (by simp)

/-- The verdict of reasons determines them, except for that of no reason. -/
theorem finish_inj {reasons reasons' : List Reason} (h : ∀ r ∈ reasons, r.code ≠ "recent_activity_uncheckpointed")
    (h' : ∀ r ∈ reasons', r.code ≠ "recent_activity_uncheckpointed") :
    finish reasons = finish reasons' ↔ reasons = reasons' := by
  refine ⟨fun heq => ?_, fun heq => heq ▸ rfl⟩
  have hfst := congrArg Prod.fst heq
  rw [finish, finish] at hfst
  dsimp only at hfst
  split_ifs at hfst with hnil hnil' hnil'
  · rw [hnil, hnil']
  · exact absurd rfl (h' _ (hfst ▸ List.mem_singleton_self _))
  · exact absurd rfl (h _ (hfst ▸ List.mem_singleton_self _))
  · exact hfst

/-- A verdict has the reasons it is given. -/
theorem mem_finish {reasons : List Reason} {r : Reason} (h : r ∈ reasons) : r ∈ (finish reasons).1 := by
  rw [finish]
  dsimp only
  rwa [if_neg (List.ne_nil_of_mem h)]

/-- A verdict has no other reasons, but for that of no reason. -/
theorem mem_of_mem_finish {reasons : List Reason} {r : Reason} (h : r ∈ (finish reasons).1) :
    r ∈ reasons ∨ r.code = "recent_activity_uncheckpointed" := by
  rw [finish] at h
  dsimp only at h
  split_ifs at h with hnil
  · exact .inr (by rw [List.mem_singleton.mp h])
  · exact .inl h

/-! ## Agreement -/

-- `parse` is `serde_json::from_str`.
variable (parse : String → Option Value)

/-- The reasons of lines, without that of a tail. -/
def lineReasons (source : Source) (ls : List String) : List Reason :=
  endReasons (turnEnd parse source ls) ++
    (((scan parse source ls).resolve source).trailingReasons ++
      ((scan parse source ls).resolve source).failureReasons)

theorem tailReasons_eq (source : Source) (ls : List String) : tailReasons parse source (ls, false) =
    lineReasons parse source ls := by
  rw [lineReasons, ← turnReasons_scan]
  by_cases hnil : ls = []
  · subst hnil
    rw [tailReasons, if_pos rfl]
    cases source <;> rfl
  · rw [tailReasons, if_neg hnil]
    simp only [Bool.false_eq_true, if_false, List.nil_append, List.append_assoc]

theorem resolve_talk (source : Source) (s : Signals) :
    (s.resolve source).lastUser = s.lastUser ∧ (s.resolve source).lastAssistant = s.lastAssistant := by
  cases source with
  | antigravity =>
    rw [Signals.resolve]
    rcases s.lastStepStatus with _ | ⟨status, i⟩
    · exact ⟨rfl, rfl⟩
    · dsimp only
      split_ifs <;> exact ⟨rfl, rfl⟩
  | claude =>
    rw [Signals.resolve]
    rcases s.lastAssistantStop with _ | ⟨stop, i⟩
    · exact ⟨rfl, rfl⟩
    · dsimp only
      split_ifs <;> exact ⟨rfl, rfl⟩
  | _ => exact ⟨rfl, rfl⟩

theorem trailingReasons_append_iff (source : Source) (dropped kept : List String) :
    ((scan parse source (dropped ++ kept)).resolve source).trailingReasons =
        ((scan parse source kept).resolve source).trailingReasons ↔
      TalkKept (fun l => (lineMarks parse source l).user) (fun l => (lineMarks parse source l).assistant) dropped
        kept := by
  rw [← unanswered_append_iff, Signals.trailingReasons, Signals.trailingReasons, ite_cons_nil_inj,
    (resolve_talk source _).1, (resolve_talk source _).1, (resolve_talk source _).2, (resolve_talk source _).2, scan_eq,
    scan_eq]
  rfl

theorem codesIn_trailingReasons (s : Signals) :
    CodesIn ["trailing_user_request_unanswered"] s.trailingReasons :=
  .ite (List.mem_singleton_self _)

theorem codesIn_failureReasons (s : Signals) : CodesIn ["unresolved_tool_failure"] s.failureReasons := by
  rw [Signals.failureReasons]
  split_ifs
  · exact .singleton (List.mem_singleton_self _)
  · exact .singleton (List.mem_singleton_self _)
  · exact .nil _

theorem codesIn_lineReasons (source : Source) (ls : List String) : CodesIn
    (["explicit_turn_completed", "interrupted_or_cancelled"] ++ (["trailing_user_request_unanswered"] ++
      ["unresolved_tool_failure"])) (lineReasons parse source ls) :=
  (codesIn_endReasons _).append ((codesIn_trailingReasons _).append (codesIn_failureReasons _))

/-- The dropped lines change no reason iff they change none of the three. -/
theorem lineReasons_append_iff (source : Source) (dropped kept : List String) :
    lineReasons parse source (dropped ++ kept) = lineReasons parse source kept ↔
      TurnKept parse source dropped kept ∧
        TalkKept (fun l => (lineMarks parse source l).user) (fun l => (lineMarks parse source l).assistant) dropped
          kept ∧
        FailureKept parse source dropped kept := by
  rw [lineReasons, lineReasons,
    append_inj_of_codes (codesIn_endReasons _) (codesIn_endReasons _)
      ((codesIn_trailingReasons _).append (codesIn_failureReasons _))
      ((codesIn_trailingReasons _).append (codesIn_failureReasons _)) (by decide),
    append_inj_of_codes (codesIn_trailingReasons _) (codesIn_trailingReasons _) (codesIn_failureReasons _)
      (codesIn_failureReasons _) (by decide),
    endReasons_inj, turnEnd_append_iff, trailingReasons_append_iff, failureReasons_append_iff]

/-! ## Agreement for Grok -/

/-- The dropped lines of a runtime stream do not change how the turn ended, nor whether a tool failed. -/
def RuntimeKept (dropped kept : List String) : Prop :=
  ((∃ l ∈ kept, isLoopStart parse l ∨ (turnOutcome parse l).isSome) ∨
      stillOpen (newestAt (isLoopStart parse) dropped) ((newest (turnOutcome parse) dropped).map Prod.snd) = false ∧
        ∀ found ∈ newest (turnOutcome parse) dropped, found.1 ≠ "error" ∧ found.1 ≠ "success") ∧
    ((∃ l ∈ kept, isToolOutcome parse "error" l ∨ isToolOutcome parse "success" l) ∨
      stillOpen (newestAt (isToolOutcome parse "error") dropped) (newestAt (isToolOutcome parse "success") dropped) =
        false)

/-- The reason of an outcome. -/
def outcomeReasons (outcome : String) : List Reason :=
  if outcome = "error" then [⟨"interrupted_or_cancelled", "last turn ended with an error outcome"⟩]
  else if outcome = "success" then [⟨"explicit_turn_completed", "last turn ended with a success outcome"⟩]
  else []

/-- How the turn of a runtime stream ended, by its newest start and end. -/
def grokEnd (started : Option ℕ) (ended : Option (String × ℕ)) : List Reason :=
  if stillOpen started (ended.map Prod.snd) then
    [⟨"interrupted_or_cancelled", "agent loop started a turn without a recorded turn end"⟩]
  else ended.elim [] fun found => outcomeReasons found.1

theorem grokScan_turnReasons (ls : List String) : (grokScan parse ls).turnReasons =
    grokEnd (newestAt (isLoopStart parse) ls) (newest (turnOutcome parse) ls) := by
  rw [grokScan_eq, GrokSignals.turnReasons, grokEnd]
  rcases newest (turnOutcome parse) ls with _ | ⟨outcome, i⟩ <;> rfl

theorem grokEnd_eq_nil {started : Option ℕ} {ended : Option (String × ℕ)} : grokEnd started ended = [] ↔
    stillOpen started (ended.map Prod.snd) = false ∧ ∀ found ∈ ended, found.1 ≠ "error" ∧ found.1 ≠ "success" := by
  rw [grokEnd]
  by_cases hopen : stillOpen started (ended.map Prod.snd) = true
  · rw [if_pos hopen, hopen]
    simp
  · rw [if_neg hopen, and_iff_right (Bool.eq_false_iff.mpr hopen)]
    rcases ended with _ | ⟨outcome, i⟩
    · simp
    · by_cases herror : outcome = "error"
      · simp [outcomeReasons, herror]
      · by_cases hsuccess : outcome = "success" <;> simp [outcomeReasons, herror, hsuccess]

theorem grokTurn_append_iff (dropped kept : List String) :
    (grokScan parse (dropped ++ kept)).turnReasons = (grokScan parse kept).turnReasons ↔
      (∃ l ∈ kept, isLoopStart parse l ∨ (turnOutcome parse l).isSome) ∨
        stillOpen (newestAt (isLoopStart parse) dropped) ((newest (turnOutcome parse) dropped).map Prod.snd) = false ∧
          ∀ found ∈ newest (turnOutcome parse) dropped, found.1 ≠ "error" ∧ found.1 ≠ "success" := by
  have htold : (∃ l ∈ kept, isLoopStart parse l ∨ (turnOutcome parse l).isSome) ↔
      (newestAt (isLoopStart parse) kept).isSome ∨ (newest (turnOutcome parse) kept).isSome := by
    rw [isSome_newestAt, isSome_newest, ← exists_or]
    exact exists_congr fun l => and_or_left
  rw [htold, grokScan_turnReasons, grokScan_turnReasons, newestAt_behind, newest_append]
  rcases hended : newest (turnOutcome parse) kept with _ | ⟨outcome, j⟩
  · rw [Option.map_none, Option.none_or]
    rcases hstarted : newestAt (isLoopStart parse) kept with _ | i
    · have hnil : grokEnd none none = [] := rfl
      rw [behind_none, hnil, grokEnd_eq_nil, or_iff_right (by simp)]
    · refine iff_of_true ?_ (.inl (.inl rfl))
      have hbound : ∀ m ∈ (newest (turnOutcome parse) dropped).map Prod.snd, m < dropped.length := by
        intro m hm
        obtain ⟨⟨outcome, n⟩, hfound, rfl⟩ := Option.map_eq_some_iff.mp hm
        exact newest_lt hfound
      have hopen : stillOpen (behind dropped.length (some i) (newestAt (isLoopStart parse) dropped))
          (behind dropped.length none ((newest (turnOutcome parse) dropped).map Prod.snd)) = stillOpen (some i) none :=
        stillOpen_behind newestAt_bound hbound (.inl rfl)
      rw [behind_none] at hopen
      rw [grokEnd, grokEnd, hopen]
      rfl
  · refine iff_of_true ?_ (.inl (.inr rfl))
    have hopen : stillOpen
        (behind dropped.length (newestAt (isLoopStart parse) kept) (newestAt (isLoopStart parse) dropped))
        (behind dropped.length (some j) none) = stillOpen (newestAt (isLoopStart parse) kept) (some j) :=
      stillOpen_behind newestAt_bound (fun n hn => (Option.not_mem_none n hn).elim) (.inr rfl)
    rw [Option.map_some, Option.some_or, grokEnd, grokEnd]
    simp only [Option.map_some]
    rw [← behind_some dropped.length j none, hopen]
    rfl

theorem grokTool_append_iff (dropped kept : List String) :
    (grokScan parse (dropped ++ kept)).failureReasons = (grokScan parse kept).failureReasons ↔
      (∃ l ∈ kept, isToolOutcome parse "error" l ∨ isToolOutcome parse "success" l) ∨
        stillOpen (newestAt (isToolOutcome parse "error") dropped) (newestAt (isToolOutcome parse "success") dropped) =
          false := by
  rw [← stillOpen_append_iff, grokScan_eq, grokScan_eq, GrokSignals.failureReasons, GrokSignals.failureReasons]
  exact ite_cons_nil_inj

/-- The reasons of the lines of the two streams, without that of a tail. -/
def grokLines (talk : List String) (runtime : Option (List String)) : List Reason :=
  (if unanswered (newestAt (isTalk parse "user") talk) (newestAt (isTalk parse "assistant") talk) then
      [⟨"trailing_user_request_unanswered",
        "conversation stream ends with a user request without a following assistant response"⟩]
    else []) ++
    runtime.elim [] fun ls => (grokScan parse ls).turnReasons ++ (grokScan parse ls).failureReasons

theorem grokReasons_eq (talk : List String × Bool) (runtime : Option (List String × Bool)) :
    grokReasons parse talk runtime = grokLines parse talk.1 (runtime.map Prod.fst) ++
      if talk.2 || runtime.any Prod.snd then [tailReason] else [] := by
  rw [grokReasons, grokLines, grokTalk_eq]
  rcases runtime with _ | tail <;> rfl

theorem codesIn_grokTurn (s : GrokSignals) :
    CodesIn ["explicit_turn_completed", "interrupted_or_cancelled"] s.turnReasons := by
  rw [GrokSignals.turnReasons]
  split_ifs
  · exact .singleton (by simp)
  · rcases s.turnEnd with _ | ⟨i, outcome⟩
    · exact .nil _
    · dsimp only
      split_ifs
      · exact .singleton (by simp)
      · exact .singleton (by simp)
      · exact .nil _

theorem codesIn_grokFailure (s : GrokSignals) : CodesIn ["unresolved_tool_failure"] s.failureReasons :=
  .ite (List.mem_singleton_self _)

theorem codesIn_grokRuntime (runtime : Option (List String)) : CodesIn
    (["explicit_turn_completed", "interrupted_or_cancelled"] ++ ["unresolved_tool_failure"])
    (runtime.elim [] fun ls => (grokScan parse ls).turnReasons ++ (grokScan parse ls).failureReasons) := by
  rcases runtime with _ | ls
  · exact .nil _
  · exact (codesIn_grokTurn _).append (codesIn_grokFailure _)

theorem codesIn_grokLines (talk : List String) (runtime : Option (List String)) : CodesIn
    (["trailing_user_request_unanswered"] ++ (["explicit_turn_completed", "interrupted_or_cancelled"] ++
      ["unresolved_tool_failure"])) (grokLines parse talk runtime) :=
  CodesIn.append (.ite (List.mem_singleton_self _)) (codesIn_grokRuntime parse runtime)

/-- The dropped lines of the streams change no reason iff they change none of the three. -/
theorem grokLines_append_iff (dropped kept : List String) (events : Option ByteArray) :
    grokLines parse (dropped ++ kept) (events.map fileLines) = grokLines parse kept (events.map keptLines) ↔
      TalkKept (isTalk parse "user") (isTalk parse "assistant") dropped kept ∧
        ∀ content ∈ events, RuntimeKept parse (droppedLines content) (keptLines content) := by
  rw [grokLines, grokLines,
    append_inj_of_codes (.ite (List.mem_singleton_self _)) (.ite (List.mem_singleton_self _))
      (codesIn_grokRuntime parse _) (codesIn_grokRuntime parse _) (by decide),
    ite_cons_nil_inj, unanswered_append_iff]
  refine and_congr_right fun _ => ?_
  rcases events with _ | content
  · simp
  · rw [Option.map_some, Option.map_some, Option.elim_some, Option.elim_some,
      append_inj_of_codes (codesIn_grokTurn _) (codesIn_grokTurn _) (codesIn_grokFailure _) (codesIn_grokFailure _)
        (by decide), ← dropped_append_kept, grokTurn_append_iff, grokTool_append_iff]
    simp [RuntimeKept]

/-! ## Verdict -/

/-- The verdict on a session is that of all lines, or it says that lines were not read. -/
def AgreesOrSays (source : Source) (session : Session) : Prop :=
  (∀ r ∈ (inspectStructuralEvidence parse source session).1, r.code ≠ "bounded_tail_incomplete") →
    inspectStructuralEvidence parse source session = inspectAll parse source session

/-- The verdict on a session says that lines were not read. -/
def Reported (source : Source) (session : Session) : Prop :=
  match source with
  | .opencode => False
  | .mcode => False
  | .grok => window < session.transcript.size ∨ ∃ content ∈ session.events, window < content.size
  | _ => window < session.transcript.size ∧ keptLines session.transcript ≠ []

/-- The lines of a session that are dropped decide nothing. -/
def SessionKept (source : Source) (session : Session) : Prop :=
  match source with
  | .opencode => True
  | .mcode => True
  | .grok =>
    TalkKept (isTalk parse "user") (isTalk parse "assistant") (droppedLines session.transcript)
        (keptLines session.transcript) ∧
      ∀ content ∈ session.events, RuntimeKept parse (droppedLines content) (keptLines content)
  | source =>
    TurnKept parse source (droppedLines session.transcript) (keptLines session.transcript) ∧
      TalkKept (fun l => (lineMarks parse source l).user) (fun l => (lineMarks parse source l).assistant)
        (droppedLines session.transcript) (keptLines session.transcript) ∧
      FailureKept parse source (droppedLines session.transcript) (keptLines session.transcript)

theorem codesIn_agent (session : Session) :
    CodesIn (["checkpoint_active", "checkpoint_blocked"] ++ ["task_state_outstanding"])
      (checkpointReasons session.checkpoint ++ taskReasons session.taskState) :=
  (codesIn_checkpointReasons _).append (codesIn_taskReasons _)

/-- A verdict that says that lines were not read promises nothing. -/
theorem agrees_of_mem {reasons : List Reason} {P : Prop} (h : tailReason ∈ reasons) :
    (∀ r ∈ (finish reasons).1, r.code ≠ "bounded_tail_incomplete") → P :=
  fun hnone => absurd rfl (hnone tailReason (mem_finish h))

/-- A verdict that does not say so is that of all lines iff the reasons are. -/
theorem agrees_iff_of_codes {codes : List String} {first found all : List Reason} (hfirst : CodesIn
    (["checkpoint_active", "checkpoint_blocked"] ++ ["task_state_outstanding"]) first) (hfound : CodesIn codes found)
    (hall : CodesIn codes all) (hrecent : "recent_activity_uncheckpointed" ∉ codes)
    (htail : "bounded_tail_incomplete" ∉ codes) :
    ((∀ r ∈ (finish (first ++ found)).1, r.code ≠ "bounded_tail_incomplete") →
      finish (first ++ found) = finish (first ++ all)) ↔ all = found := by
  have hcodes : ∀ code, code ∉ ["checkpoint_active", "checkpoint_blocked"] ++ ["task_state_outstanding"] →
      code ∉ codes → code ∉ ["checkpoint_active", "checkpoint_blocked"] ++ ["task_state_outstanding"] ++ codes :=
    fun code h h' hmem => (List.mem_append.mp hmem).elim h h'
  have hrecent' := hcodes _ (by decide) hrecent
  have htail' := hcodes _ (by decide) htail
  have hsilent : ∀ r ∈ (finish (first ++ found)).1, r.code ≠ "bounded_tail_incomplete" := by
    intro r hr
    rcases mem_of_mem_finish hr with hr | hr
    · exact (hfirst.append hfound).not_mem htail' r hr
    · rw [hr]
      decide
  rw [imp_iff_right hsilent, finish_inj ((hfirst.append hfound).not_mem hrecent')
    ((hfirst.append hall).not_mem hrecent'), List.append_cancel_left_eq, eq_comm]

theorem tailReasons_agrees_iff (source : Source) {first : List Reason} (hfirst : CodesIn
    (["checkpoint_active", "checkpoint_blocked"] ++ ["task_state_outstanding"]) first) (content : ByteArray) :
    ((∀ r ∈ (finish (first ++ tailReasons parse source (boundedTailLines content))).1,
        r.code ≠ "bounded_tail_incomplete") →
      finish (first ++ tailReasons parse source (boundedTailLines content)) =
        finish (first ++ tailReasons parse source (fileLines content, false))) ↔
      (window < content.size ∧ keptLines content ≠ []) ∨
        TurnKept parse source (droppedLines content) (keptLines content) ∧
          TalkKept (fun l => (lineMarks parse source l).user) (fun l => (lineMarks parse source l).assistant)
            (droppedLines content) (keptLines content) ∧
          FailureKept parse source (droppedLines content) (keptLines content) := by
  rw [boundedTailLines_eq, tailReasons_eq]
  by_cases hreported : window < content.size ∧ keptLines content ≠ []
  · refine iff_of_true (agrees_of_mem (List.mem_append_right _ ?_)) (.inl hreported)
    rw [tailReasons, if_neg hreported.2, if_pos (decide_eq_true hreported.1)]
    simp
  · have hlines : tailReasons parse source (keptLines content, decide (window < content.size)) =
        lineReasons parse source (keptLines content) := by
      rw [← tailReasons_eq]
      by_cases hlong : window < content.size
      · have hnil : keptLines content = [] := not_not.mp fun h => hreported ⟨hlong, h⟩
        rw [hnil, tailReasons, tailReasons, if_pos rfl, if_pos rfl]
      · rw [decide_eq_false hlong]
    rw [hlines, or_iff_right hreported, ← lineReasons_append_iff, dropped_append_kept]
    exact agrees_iff_of_codes hfirst (codesIn_lineReasons parse source _) (codesIn_lineReasons parse source _)
      (by decide) (by decide)

theorem grokReasons_agrees_iff {first : List Reason} (hfirst : CodesIn
    (["checkpoint_active", "checkpoint_blocked"] ++ ["task_state_outstanding"]) first) (session : Session) :
    ((∀ r ∈ (finish (first ++ grokReasons parse (boundedTailLines session.transcript)
          (session.events.map boundedTailLines))).1, r.code ≠ "bounded_tail_incomplete") →
      finish (first ++ grokReasons parse (boundedTailLines session.transcript) (session.events.map boundedTailLines)) =
        finish (first ++ grokReasons parse (fileLines session.transcript, false)
          (session.events.map fun content => (fileLines content, false)))) ↔
      Reported .grok session ∨ SessionKept parse .grok session := by
  have hread : session.events.map boundedTailLines =
      session.events.map fun content => (keptLines content, decide (window < content.size)) :=
    congrArg (session.events.map ·) (funext boundedTailLines_eq)
  have hkept : (Prod.fst ∘ fun content => (keptLines content, decide (window < content.size))) = keptLines := by
    funext content
    rw [Function.comp_apply]
  have hfile : (Prod.fst ∘ fun content => (fileLines content, false)) = fileLines := rfl
  have hall : ((session.events.map fun content => (fileLines content, false)).any Prod.snd) = false := by
    rcases session.events with _ | content <;> rfl
  have hflag : (decide (window < session.transcript.size) ||
      (session.events.map fun content => (keptLines content, decide (window < content.size))).any Prod.snd) = true ↔
      Reported .grok session := by
    rw [Reported, Bool.or_eq_true, decide_eq_true_iff]
    rcases session.events with _ | content <;> simp
  rw [hread, boundedTailLines_eq, grokReasons_eq, grokReasons_eq, hall, Bool.false_or, if_neg Bool.false_ne_true,
    List.append_nil, Option.map_map, Option.map_map, hkept, hfile]
  by_cases hreported : Reported .grok session
  · refine iff_of_true (agrees_of_mem (List.mem_append_right _ (List.mem_append_right _ ?_))) (.inl hreported)
    rw [if_pos (hflag.mpr hreported)]
    exact List.mem_singleton_self _
  · rw [if_neg (mt hflag.mp hreported), List.append_nil, or_iff_right hreported]
    refine (agrees_iff_of_codes hfirst (codesIn_grokLines parse _ _) (codesIn_grokLines parse _ _) (by decide)
      (by decide)).trans ?_
    rw [SessionKept, ← grokLines_append_iff, dropped_append_kept]

/-- The tail of a transcript is its last lines. Its verdict is that of all lines, unless it says that lines were not read,
iff the window drops lines and keeps one, or the lines that are dropped decide nothing. -/
theorem tail_agrees_iff : (∀ content, (boundedTailLines content).1 <:+ fileLines content) ∧
    ∀ source session, AgreesOrSays parse source session ↔
      Reported source session ∨ SessionKept parse source session := by
  refine ⟨tailLines_suffix, fun source session => ?_⟩
  have hfirst := codesIn_agent session
  cases source with
  | opencode => simp only [AgreesOrSays, inspectStructuralEvidence, inspectAll, inspectWith, SessionKept, implies_true,
      or_true]
  | mcode => simp only [AgreesOrSays, inspectStructuralEvidence, inspectAll, inspectWith, SessionKept, implies_true,
      or_true]
  | grok => exact grokReasons_agrees_iff parse hfirst session
  | _ =>
    simp only [AgreesOrSays, inspectStructuralEvidence, inspectAll, inspectWith, Reported, SessionKept]
    exact tailReasons_agrees_iff parse _ hfirst session.transcript

/-- A line with a request. -/
def requestText : String := "\x7b\"message\":\x7b\"role\":\"user\"\x7d\x7d"

/-- A transcript of a request, and two hundred blank lines behind it. -/
def unreadRequest : Session :=
  ⟨⟨(requestText.toByteArray.data.toList ++ 10 :: List.replicate 200 10).toArray⟩, none, [], none, none⟩

/-- The event of the request. -/
def parseRequest (line : String) : Option Value :=
  if line = requestText then some (.object [("message", .object [("role", .string "user")])]) else none

theorem fileLines_unreadRequest : fileLines unreadRequest.transcript = requestText :: List.replicate 200 "" := by
  have hrequest : lossyOf requestText.toByteArray.data.toList = requestText.toList := by
    rw [← toList_fromUtf8Lossy, fromUtf8Lossy_of_text (fromUTF8?_toByteArray requestText)]
  rw [fileLines, fromUtf8Lossy_eq, unreadRequest, List.toList_toArray, lines_lossy_newline, lines_blank, hrequest]
  decide +kernel

/-- A request that is not answered is dropped for the number of lines behind it, and nothing says so. -/
theorem unread_request_dropped : ¬AgreesOrSays parseRequest .claude unreadRequest := by
  have htail : boundedTailLines unreadRequest.transcript = (List.replicate 200 "", false) := by
    rw [boundedTailLines_of_le (by decide +kernel), fileLines_unreadRequest]
    decide +kernel
  simp only [AgreesOrSays, inspectStructuralEvidence, inspectAll, inspectWith, htail, fileLines_unreadRequest]
  decide +kernel

end Innen.Conversation.Unfinished
