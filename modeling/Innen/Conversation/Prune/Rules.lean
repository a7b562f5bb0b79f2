import Innen.Conversation.Prune.Scan

/-!
# Prune: what is stale

Every call claims at most one output record, and no record is claimed twice. A claimed output is dropped
when it is a read with a later write of the path, a read that is followed by another one, or a search
without a result, and never when it failed or is recent. `get?_decisions` says so without the loops.
-/

namespace Innen.Conversation.Prune

open Innen.Common

/-! ## Pairing -/

/-- A call with the output it claimed. -/
structure PairedTool where
  callIdx : ℕ
  outputIdx : ℕ
  outputLine : ℕ
  action : ToolAction
  isError : Bool
  contentPreview : String
  originalChars : ℕ
deriving DecidableEq

/-- Whether an output may be the one of a call. -/
def matchesCall (call : CallMeta) (o : OutputMeta) : Bool :=
  match call.callId, o.callId with
  | some a, some b => a = b
  | _, _ =>
    match o.callLine with
    | some line => line = call.sourceLine
    | none => call.recordIdx < o.recordIdx ∧ o.recordIdx ≤ call.recordIdx + 2

/-- The output that a call claims, when some records are claimed already. -/
def claim (outputs : List OutputMeta) (claimed : List ℕ) (call : CallMeta) : Option OutputMeta :=
  outputs.find? fun o => o.recordIdx ∉ claimed ∧ matchesCall call o = true

/-- One call of `pair_calls_with_outputs`; the records in `matched_outputs` are those of the pairs. -/
def pairCall (outputs : List OutputMeta) (paired : List PairedTool) (call : CallMeta) : List PairedTool :=
  match claim outputs (paired.map PairedTool.outputIdx) call with
  | none => paired
  | some out => paired ++ [⟨call.recordIdx, out.recordIdx, out.sourceLine, call.action, out.isError,
      out.contentPreview, out.originalChars⟩]

/-- `pair_calls_with_outputs`. -/
def pairCallsWithOutputs (calls : List CallMeta) (outputs : List OutputMeta) : List PairedTool :=
  calls.foldl (pairCall outputs) []

/-- No record is claimed twice. -/
theorem nodup_pairCallsWithOutputs (calls : List CallMeta) (outputs : List OutputMeta) :
    ((pairCallsWithOutputs calls outputs).map PairedTool.outputIdx).Nodup := by
  have hfold : ∀ (calls : List CallMeta) (paired : List PairedTool), (paired.map PairedTool.outputIdx).Nodup →
      ((calls.foldl (pairCall outputs) paired).map PairedTool.outputIdx).Nodup := by
    intro calls
    induction calls with
    | nil => exact fun _ h => h
    | cons call calls ih =>
      intro paired h
      refine ih _ ?_
      rw [pairCall]
      cases hclaim : claim outputs (paired.map PairedTool.outputIdx) call with
      | none => exact h
      | some out =>
        have hnew : out.recordIdx ∉ paired.map PairedTool.outputIdx := by
          rw [claim] at hclaim
          have hfound := List.find?_some hclaim
          exact (of_decide_eq_true hfound).1
        rw [List.map_append]
        exact h.append (List.nodup_singleton _) (by simpa using hnew)
  exact hfold calls [] List.nodup_nil

/-! ## The rules -/

/-- What the rules decided: for a record, the reason and how long its text was. -/
structure RuleOutcome where
  decisions : SortedMap ℕ (String × ℕ)
  supersededReads : ℕ
  duplicateReads : ℕ
  emptySearches : ℕ

/-- Drop the output of a tool. -/
def RuleOutcome.drop (s : RuleOutcome) (t : PairedTool) (reason : String) : RuleOutcome :=
  { s with decisions := s.decisions.insert t.outputIdx (reason, t.originalChars) }

/-- Whether the output of a tool may not be dropped: it failed, or it is recent. -/
def PairedTool.isKept (t : PairedTool) (keep : ℕ) : Bool := t.isError ∨ keep ≤ t.outputIdx

/-- Whether a tool read a path. -/
def PairedTool.reads (t : PairedTool) (path : String) : Bool := t.action = .readFile path

/-- Whether a tool wrote a path. -/
def PairedTool.writes (t : PairedTool) (path : String) : Bool := t.action = .writeFile path

/-- The reason to drop a read with a write behind it. -/
def supersededReason (path : String) (line : ℕ) : String :=
  "read of '" ++ path ++ "' superseded by write at line " ++ toString line

/-- The reason to drop a read with another one behind it. -/
def redundantReason (path : String) (line : ℕ) : String :=
  "read of '" ++ path ++ "' redundant; re-read at line " ++ toString line

/-- The reason to drop a search without a result. -/
def emptyReason (query : String) : String := "search for '" ++ query ++ "' returned 0 matches"

/-- The reason, if any, to drop a read: the first write behind it, or the next read with no write between. -/
def readReason (path : String) (writes : List (ℕ × ℕ)) (t : PairedTool) (next : Option PairedTool) :
    Option String :=
  match writes.find? fun w => t.outputIdx < w.1 with
  | some w => some (supersededReason path w.2)
  | none =>
    match next with
    | some next =>
      if writes.any fun w => t.outputIdx < w.1 ∧ w.1 < next.callIdx then none
      else some (redundantReason path next.outputLine)
    | none => none

/-- One read of a path. -/
def decideRead (path : String) (writes : List (ℕ × ℕ)) (keep : ℕ) (s : RuleOutcome) (t : PairedTool)
    (next : Option PairedTool) : RuleOutcome :=
  if t.isKept keep then s
  else match readReason path writes t next with
    | none => s
    | some reason =>
      if writes.any fun w => t.outputIdx < w.1 then
        { s.drop t reason with supersededReads := s.supersededReads + 1 }
      else { s.drop t reason with duplicateReads := s.duplicateReads + 1 }

/-- The loop over the reads of a path. -/
def decideReads (path : String) (writes : List (ℕ × ℕ)) (keep : ℕ) : List PairedTool → RuleOutcome → RuleOutcome
  | [], s => s
  | t :: rest, s => decideReads path writes keep rest (decideRead path writes keep s t rest.head?)

/-- The third rule. -/
def decideSearch (keep : ℕ) (s : RuleOutcome) (t : PairedTool) : RuleOutcome :=
  if t.isKept keep then s
  else match t.action with
    | .search query =>
      if isEmptySearchOutput t.contentPreview then
        { s.drop t (emptyReason query) with emptySearches := s.emptySearches + 1 }
      else s
    | _ => s

/-- The reads of a page by path. -/
def pathReads (paired : List PairedTool) : SortedMap String (List PairedTool) :=
  paired.foldl (fun m t => match t.action with
    | .readFile path => m.upsert path [] (· ++ [t])
    | _ => m) ∅

/-- The writes of a path. -/
def writesOf (fileWrites : SortedMap String (List (ℕ × ℕ))) (path : String) : List (ℕ × ℕ) :=
  (fileWrites.get? path).getD []

/-- `evaluate_prune_rules`. -/
def evaluatePruneRules (paired : List PairedTool) (fileWrites : SortedMap String (List (ℕ × ℕ))) (keep : ℕ) :
    RuleOutcome :=
  paired.foldl (decideSearch keep)
    ((pathReads paired).entries.foldl
      (fun s e => decideReads e.1 (writesOf fileWrites e.1) keep e.2 s) ⟨∅, 0, 0, 0⟩)

/-! ## The rules without the loops -/

section

variable {fileWrites : SortedMap String (List (ℕ × ℕ))} {keep : ℕ} {paired : List PairedTool}

/-- The reason, if any, to drop the output of a tool with the tools behind it. -/
def staleReason (fileWrites : SortedMap String (List (ℕ × ℕ))) (keep : ℕ) (t : PairedTool)
    (post : List PairedTool) : Option String :=
  if t.isKept keep then none
  else match t.action with
    | .readFile path => readReason path (writesOf fileWrites path) t (post.find? fun u => u.reads path)
    | .search query => if isEmptySearchOutput t.contentPreview then some (emptyReason query) else none
    | _ => none

/-- A tool of a page whose output is stale for a reason. -/
def Stale (fileWrites : SortedMap String (List (ℕ × ℕ))) (keep : ℕ) (paired : List PairedTool)
    (t : PairedTool) (reason : String) : Prop :=
  ∃ pre post, paired = pre ++ t :: post ∧ staleReason fileWrites keep t post = some reason

/-- Every decision is about a stale tool. -/
def Justified (fileWrites : SortedMap String (List (ℕ × ℕ))) (keep : ℕ) (paired : List PairedTool)
    (s : RuleOutcome) : Prop :=
  ∀ i d, s.decisions.get? i = some d →
    ∃ t, t.outputIdx = i ∧ t.originalChars = d.2 ∧ Stale fileWrites keep paired t d.1

theorem Justified.drop {s : RuleOutcome} (h : Justified fileWrites keep paired s) {t : PairedTool}
    {reason : String} (hstale : Stale fileWrites keep paired t reason) :
    Justified fileWrites keep paired (s.drop t reason) := by
  intro i d hd
  rw [RuleOutcome.drop, SortedMap.get?_insert] at hd
  by_cases hi : i = t.outputIdx
  · rw [if_pos hi, Option.some.injEq] at hd
    subst hd
    exact ⟨t, hi.symm, rfl, hstale⟩
  · rw [if_neg hi] at hd
    exact h i d hd

theorem getD_pathReads (paired : List PairedTool) (path : String) :
    ((pathReads paired).get? path).getD [] = paired.filter fun t => t.reads path := by
  have hfold : ∀ (paired : List PairedTool) (m : SortedMap String (List PairedTool)),
      ((paired.foldl (fun m t => match t.action with
        | .readFile path => m.upsert path [] (· ++ [t])
        | _ => m) m).get? path).getD [] = (m.get? path).getD [] ++ paired.filter fun t => t.reads path := by
    intro paired
    induction paired with
    | nil => simp
    | cons t paired ih =>
      intro m
      rw [List.foldl_cons, ih, List.filter_cons]
      cases haction : t.action with
      | readFile p =>
        by_cases hp : path = p
        · subst hp
          simp [SortedMap.get?_upsert, PairedTool.reads, haction]
        · simp [SortedMap.get?_upsert, PairedTool.reads, haction, hp, Ne.symm hp]
      | writeFile p => simp [PairedTool.reads, haction]
      | search q => simp [PairedTool.reads, haction]
      | statusCheck c => simp [PairedTool.reads, haction]
  exact (hfold paired ∅).trans (by simp)

/-- The tools behind a read, on the page and among the reads of its path. -/
theorem stale_of_read {path : String} {done rest : List PairedTool} {t : PairedTool} {reason : String}
    (hreads : (paired.filter fun t => t.reads path) = done ++ t :: rest) (hkeep : t.isKept keep = false)
    (hreason : readReason path (writesOf fileWrites path) t rest.head? = some reason) :
    Stale fileWrites keep paired t reason := by
  obtain ⟨pre, post', rfl, -, hpost'⟩ := List.filter_eq_append_iff.mp hreads
  obtain ⟨skipped, post, rfl, -, hread, hpost⟩ := List.filter_eq_cons_iff.mp hpost'
  refine ⟨pre ++ skipped, post, by rw [List.append_assoc], ?_⟩
  have haction : t.action = .readFile path := of_decide_eq_true hread
  rw [staleReason, hkeep, if_neg Bool.false_ne_true, haction, ← hreason, ← hpost, List.head?_filter]

theorem Justified.decideRead {path : String} {done rest : List PairedTool} {t : PairedTool} {s : RuleOutcome}
    (h : Justified fileWrites keep paired s)
    (hreads : (paired.filter fun t => t.reads path) = done ++ t :: rest) :
    Justified fileWrites keep paired (decideRead path (writesOf fileWrites path) keep s t rest.head?) := by
  rw [Prune.decideRead]
  split
  · exact h
  · rename_i hkeep
    split
    · exact h
    · rename_i reason hreason
      have hstale := stale_of_read hreads (by simpa using hkeep) hreason
      split <;> exact h.drop hstale

theorem Justified.decideReads {path : String} (rest done : List PairedTool) {s : RuleOutcome}
    (h : Justified fileWrites keep paired s)
    (hreads : (paired.filter fun t => t.reads path) = done ++ rest) :
    Justified fileWrites keep paired (decideReads path (writesOf fileWrites path) keep rest s) := by
  induction rest generalizing done s with
  | nil => exact h
  | cons t rest ih =>
    exact ih (done ++ [t]) (h.decideRead hreads) (by rw [hreads, List.append_assoc]; rfl)

theorem Justified.decideSearch {pre post : List PairedTool} {t : PairedTool} {s : RuleOutcome}
    (h : Justified fileWrites keep paired s) (hpaired : paired = pre ++ t :: post) :
    Justified fileWrites keep paired (decideSearch keep s t) := by
  rw [Prune.decideSearch]
  split
  · exact h
  · rename_i hkeep
    split
    · rename_i query haction
      split
      · rename_i hempty
        refine Justified.drop h ⟨pre, post, hpaired, ?_⟩
        rw [staleReason, if_neg hkeep, haction]
        simp [hempty]
      · exact h
    · exact h

/-- Nothing else is dropped. -/
theorem justified_evaluatePruneRules :
    Justified fileWrites keep paired (evaluatePruneRules paired fileWrites keep) := by
  have hreads : ∀ (entries : List (String × List PairedTool)) (s : RuleOutcome),
      (∀ e ∈ entries, e ∈ (pathReads paired).entries) → Justified fileWrites keep paired s →
      Justified fileWrites keep paired (entries.foldl
        (fun s e => decideReads e.1 (writesOf fileWrites e.1) keep e.2 s) s) := by
    intro entries
    induction entries with
    | nil => exact fun _ _ h => h
    | cons e entries ih =>
      intro s hentries h
      have he : e.2 = paired.filter fun t => t.reads e.1 := by
        have hget := ((pathReads paired).mem_entries_iff).mp (hentries e List.mem_cons_self)
        rw [← getD_pathReads, hget, Option.getD_some]
      exact ih _ (fun e he => hentries e (List.mem_cons_of_mem _ he))
        (Justified.decideReads e.2 [] h (he ▸ rfl))
  have hsearches : ∀ (post pre : List PairedTool) (s : RuleOutcome), paired = pre ++ post →
      Justified fileWrites keep paired s →
      Justified fileWrites keep paired (post.foldl (decideSearch keep) s) := by
    intro post
    induction post with
    | nil => exact fun _ _ _ h => h
    | cons t post ih =>
      intro pre s hpaired h
      exact ih (pre ++ [t]) _ (by rw [hpaired, List.append_assoc]; rfl) (h.decideSearch hpaired)
  refine hsearches paired [] _ rfl (hreads _ _ (fun _ h => h) fun i d hd => ?_)
  cases hd

/-- A record is decided on. -/
def RuleOutcome.Decided (s : RuleOutcome) (i : ℕ) : Prop := (s.decisions.get? i).isSome

theorem RuleOutcome.decided_drop_self (s : RuleOutcome) (t : PairedTool) (reason : String) :
    (s.drop t reason).Decided t.outputIdx := by
  rw [Decided, drop, SortedMap.get?_insert_self]
  rfl

theorem RuleOutcome.Decided.drop {s : RuleOutcome} {i : ℕ} (h : s.Decided i) (t : PairedTool)
    (reason : String) : (s.drop t reason).Decided i := by
  rw [Decided, RuleOutcome.drop, SortedMap.get?_insert]
  split
  · rfl
  · exact h

theorem RuleOutcome.Decided.decideRead {s : RuleOutcome} {i : ℕ} (h : s.Decided i) (path : String)
    (writes : List (ℕ × ℕ)) (t : PairedTool) (next : Option PairedTool) :
    (decideRead path writes keep s t next).Decided i := by
  rw [Prune.decideRead]
  split
  · exact h
  · split
    · exact h
    · split <;> exact h.drop _ _

theorem RuleOutcome.Decided.decideReads {path : String} {writes : List (ℕ × ℕ)} {i : ℕ}
    (reads : List PairedTool) {s : RuleOutcome} (h : s.Decided i) :
    (decideReads path writes keep reads s).Decided i := by
  induction reads generalizing s with
  | nil => exact h
  | cons t reads ih => exact ih (h.decideRead path writes t reads.head?)

theorem RuleOutcome.Decided.decideSearch {s : RuleOutcome} {i : ℕ} (h : s.Decided i) (t : PairedTool) :
    (decideSearch keep s t).Decided i := by
  rw [Prune.decideSearch]
  split
  · exact h
  · split
    · split
      · exact h.drop _ _
      · exact h
    · exact h

/-- What a step of a loop establishes and every step keeps holds behind the loop. -/
theorem foldl_of_mem {α β : Type*} {f : β → α → β} {P : β → Prop} (hkeeps : ∀ b a, P b → P (f b a))
    {l : List α} {a : α} (ha : a ∈ l) (hstep : ∀ b, P (f b a)) (b : β) : P (l.foldl f b) := by
  have hfold : ∀ (l : List α) (b : β), P b → P (l.foldl f b) := by
    intro l
    induction l with
    | nil => exact fun _ h => h
    | cons a l ih => exact fun b h => ih _ (hkeeps b a h)
  obtain ⟨l₁, l₂, rfl⟩ := List.append_of_mem ha
  rw [List.foldl_append, List.foldl_cons]
  exact hfold l₂ _ (hstep _)

/-- The loop over the reads of a path decides on a stale one. -/
theorem decided_decideReads {path : String} {writes : List (ℕ × ℕ)} {t : PairedTool} {rest : List PairedTool}
    (hkeep : t.isKept keep = false) (hreason : (readReason path writes t rest.head?).isSome)
    (done : List PairedTool) (s : RuleOutcome) :
    (decideReads path writes keep (done ++ t :: rest) s).Decided t.outputIdx := by
  induction done generalizing s with
  | nil =>
    refine RuleOutcome.Decided.decideReads rest ?_
    obtain ⟨reason, hreason⟩ := Option.isSome_iff_exists.mp hreason
    rw [decideRead, if_neg (by simp [hkeep])]
    simp only [hreason]
    split <;> exact s.decided_drop_self t reason
  | cons u done ih => exact ih _

theorem Stale.decided {t : PairedTool} {reason : String} (h : Stale fileWrites keep paired t reason) :
    (evaluatePruneRules paired fileWrites keep).Decided t.outputIdx := by
  obtain ⟨pre, post, hpaired, hreason⟩ := h
  have hmem : t ∈ paired := by
    rw [hpaired]
    exact List.mem_append_right pre List.mem_cons_self
  rw [staleReason] at hreason
  split at hreason
  · cases hreason
  rename_i hkeep
  split at hreason
  · rename_i path haction
    -- the first two rules; the third one keeps what they decide
    have hreads : (paired.filter fun t => t.reads path) =
        (pre.filter fun t => t.reads path) ++ t :: post.filter fun t => t.reads path := by
      rw [hpaired, List.filter_append, List.filter_cons_of_pos (by simp [PairedTool.reads, haction])]
    have hentry : (path, paired.filter fun t => t.reads path) ∈ (pathReads paired).entries := by
      refine (SortedMap.mem_entries_iff _).mpr ?_
      have hget := getD_pathReads paired path
      cases hpath : (pathReads paired).get? path with
      | none => rw [hpath, hreads] at hget; simp at hget
      | some reads => rw [hpath, Option.getD_some] at hget; rw [hget]
    have hfirst : ∀ s, (decideReads path (writesOf fileWrites path) keep
        (paired.filter fun t => t.reads path) s).Decided t.outputIdx := by
      rw [hreads]
      refine decided_decideReads (by simpa using hkeep) ?_ _
      rw [List.head?_filter, hreason]
      rfl
    have hthird : ∀ (l : List PairedTool) (s : RuleOutcome), s.Decided t.outputIdx →
        (l.foldl (decideSearch keep) s).Decided t.outputIdx := by
      intro l
      induction l with
      | nil => exact fun _ h => h
      | cons u l ih => exact fun s h => ih _ (h.decideSearch u)
    exact hthird _ _ (foldl_of_mem (P := fun s : RuleOutcome => s.Decided t.outputIdx)
      (fun s e h => h.decideReads e.2) hentry hfirst _)
  · rename_i query haction
    split at hreason
    · rename_i hempty
      refine foldl_of_mem (P := fun s : RuleOutcome => s.Decided t.outputIdx) (fun s u h => h.decideSearch u) hmem
        (fun s => ?_) _
      rw [decideSearch, if_neg hkeep, haction]
      simp only [hempty, if_true]
      exact s.decided_drop_self t _
    · cases hreason
  · cases hreason

/-- A tool is told by the record it claimed. -/
theorem eq_of_outputIdx (hnodup : (paired.map PairedTool.outputIdx).Nodup) {t u : PairedTool} (ht : t ∈ paired)
    (hu : u ∈ paired) (h : t.outputIdx = u.outputIdx) : t = u :=
  List.inj_on_of_nodup_map hnodup ht hu h

theorem Stale.mem {t : PairedTool} {reason : String} (h : Stale fileWrites keep paired t reason) : t ∈ paired := by
  obtain ⟨pre, post, rfl, -⟩ := h
  exact List.mem_append_right pre List.mem_cons_self

/-- A tool is stale for one reason. -/
theorem Stale.unique (hnodup : (paired.map PairedTool.outputIdx).Nodup) {t : PairedTool} {r r' : String}
    (h : Stale fileWrites keep paired t r) (h' : Stale fileWrites keep paired t r') : r = r' := by
  obtain ⟨pre, post, rfl, hr⟩ := h
  obtain ⟨pre', post', hsplit, hr'⟩ := h'
  have hnot : t ∉ pre ∧ t ∉ post := by
    have hpairs := List.nodup_middle.mp (List.Nodup.of_map _ hnodup)
    exact not_or.mp fun h => (List.nodup_cons.mp hpairs).1 (List.mem_append.mpr h)
  obtain ⟨-, -, rfl⟩ := (List.append_cons_inj_of_notMem hnot.1 hnot.2).mp hsplit
  rw [hr'] at hr
  exact (Option.some.inj hr).symm

/-- What is decided about a record: it is the output of a stale tool. -/
theorem get?_decisions (hnodup : (paired.map PairedTool.outputIdx).Nodup) {i : ℕ} {d : String × ℕ} :
    (evaluatePruneRules paired fileWrites keep).decisions.get? i = some d ↔
      ∃ t, t.outputIdx = i ∧ t.originalChars = d.2 ∧ Stale fileWrites keep paired t d.1 := by
  refine ⟨justified_evaluatePruneRules i d, ?_⟩
  rintro ⟨t, rfl, hchars, hstale⟩
  obtain ⟨d', hd'⟩ := Option.isSome_iff_exists.mp hstale.decided
  obtain ⟨t', hidx, hchars', hstale'⟩ := justified_evaluatePruneRules _ d' hd'
  obtain rfl := eq_of_outputIdx hnodup hstale'.mem hstale.mem hidx
  rw [hd', Prod.ext (hstale'.unique hnodup hstale) (hchars'.symm.trans hchars)]

end

end Innen.Conversation.Prune
