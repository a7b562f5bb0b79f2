import Innen.Conversation.Unfinished.Marks

/-!
# What a tail decides

The signals of all lines are those of the lines that are kept, and behind them those of the lines that are dropped. A
reason changes with the dropped lines only if the kept lines have no mark that decides it.
-/

namespace Innen.Conversation.Unfinished

open Common

/-! ## Newest lines behind older lines -/

/-- The newest of some lines behind older lines: of the newer lines, if they have one. -/
def behind (older : ℕ) (new old : Option ℕ) : Option ℕ := (new.map (older + ·)).or old

theorem behind_none (older : ℕ) (old : Option ℕ) : behind older none old = old := rfl

theorem behind_some (older i : ℕ) (old : Option ℕ) : behind older (some i) old = some (older + i) := rfl

theorem isSome_behind (older : ℕ) {new : Option ℕ} (old : Option ℕ) (h : new.isSome) : (behind older new old).isSome := by
  obtain ⟨i, rfl⟩ := Option.isSome_iff_exists.mp h
  rfl

/-- Older lines are before newer ones. -/
theorem forall_behind_le {older n : ℕ} {new old : Option ℕ} (hold : ∀ m ∈ old, m < older) :
    (∀ m ∈ behind older new old, m ≤ older + n) ↔ ∀ m ∈ new, m ≤ n := by
  rcases new with _ | i
  · rw [behind_none]
    exact ⟨fun _ m hm => (Option.not_mem_none m hm).elim, fun _ m hm => (hold m hm).le.trans (Nat.le_add_right _ _)⟩
  · rw [behind_some]
    simp

/-- A failure behind older lines is open iff it is so without them, if the newer lines tell. -/
theorem stillOpen_behind {older : ℕ} {new closed old closed' : Option ℕ} (hold : ∀ m ∈ old, m < older)
    (hclosed : ∀ m ∈ closed', m < older) (hnew : new.isSome ∨ closed.isSome) :
    stillOpen (behind older new old) (behind older closed closed') = stillOpen new closed := by
  rcases new with _ | i
  · obtain ⟨j, rfl⟩ := Option.isSome_iff_exists.mp (hnew.resolve_left Bool.false_ne_true)
    rcases old with _ | m
    · rfl
    · have hm := hold m rfl
      rw [behind_none, behind_some, stillOpen, stillOpen, Option.any_some, Option.any_none, Option.all_some,
        decide_eq_false (by omega)]
  · rcases closed with _ | j
    · rcases closed' with _ | m
      · rfl
      · have hm := hclosed m rfl
        rw [behind_none, behind_some, stillOpen, stillOpen, Option.any_some, Option.any_some, Option.all_some,
          Option.all_none, decide_eq_true (by omega)]
    · rw [behind_some, behind_some, stillOpen, stillOpen, Option.any_some, Option.any_some, Option.all_some,
        Option.all_some]
      exact decide_eq_decide.mpr (by omega)

/-- A reason that is there only if something holds tells whether it does. -/
theorem ite_cons_nil_inj {b c : Bool} {r : Reason} :
    (if b then [r] else []) = (if c then [r] else []) ↔ b = c := by
  cases b <;> cases c <;> simp

/-! ## How a turn ended -/

/-- How a turn ended. -/
inductive Ending
  | completed
  | interrupted
deriving DecidableEq

/-- The newest completion is behind every interruption and start. -/
def Wins (completed interrupted start : Option ℕ) : Prop :=
  ∃ c ∈ completed, (∀ i ∈ interrupted, i ≤ c) ∧ ∀ t ∈ start, t ≤ c

instance (completed interrupted start : Option ℕ) : Decidable (Wins completed interrupted start) :=
  inferInstanceAs (Decidable (∃ c ∈ completed, (∀ i ∈ interrupted, i ≤ c) ∧ ∀ t ∈ start, t ≤ c))

/-- How a turn ended, by its newest completion, interruption and start. -/
def endOf (completed interrupted start : Option ℕ) : Option Ending :=
  if Wins completed interrupted start then some .completed
  else if completed.isSome ∨ interrupted.isSome ∨ start.isSome then some .interrupted
  else none

theorem endOf_eq_none {c i t : Option ℕ} : endOf c i t = none ↔ ¬(c.isSome ∨ i.isSome ∨ t.isSome) := by
  rw [endOf]
  constructor
  · intro h hany
    rw [if_pos hany] at h
    split_ifs at h
  · intro h
    have hlose : ¬Wins c i t := by
      rintro ⟨n, hn, -⟩
      exact h (.inl (Option.isSome_of_mem hn))
    rw [if_neg hlose, if_neg h]

/-- Behind older lines, a turn ended as the newer lines show, if they show anything. -/
theorem endOf_behind {older : ℕ} {c i t c' i' t' : Option ℕ} (hc : ∀ n ∈ c', n < older) (hi : ∀ n ∈ i', n < older)
    (ht : ∀ n ∈ t', n < older) (hnew : c.isSome ∨ i.isSome ∨ t.isSome) :
    endOf (behind older c c') (behind older i i') (behind older t t') = endOf c i t := by
  have hwins : Wins (behind older c c') (behind older i i') (behind older t t') ↔ Wins c i t := by
    rcases c with _ | n
    · refine ⟨fun ⟨n, hn, hiAll, htAll⟩ => ?_, fun ⟨n, hn, _⟩ => (Option.not_mem_none n hn).elim⟩
      have hn := hc n hn
      rcases hnew.resolve_left Bool.false_ne_true with h | h <;> obtain ⟨m, rfl⟩ := Option.isSome_iff_exists.mp h
      · have hm : older + m ≤ n := hiAll _ (Option.mem_some_self _)
        omega
      · have hm : older + m ≤ n := htAll _ (Option.mem_some_self _)
        omega
    · rw [behind_some]
      constructor
      · rintro ⟨m, hm, hiAll, htAll⟩
        obtain rfl := Option.some.inj hm
        exact ⟨n, rfl, (forall_behind_le hi).mp hiAll, (forall_behind_le ht).mp htAll⟩
      · rintro ⟨m, hm, hiAll, htAll⟩
        obtain rfl := Option.some.inj hm
        exact ⟨older + n, rfl, (forall_behind_le hi).mpr hiAll, (forall_behind_le ht).mpr htAll⟩
  have hany : (behind older c c').isSome ∨ (behind older i i').isSome ∨ (behind older t t').isSome :=
    hnew.imp (isSome_behind older c') (Or.imp (isSome_behind older i') (isSome_behind older t'))
  rw [endOf, endOf, if_pos hany, if_pos hnew]
  simp only [hwins]

theorem endOf_none : endOf none none none = none := by decide

theorem endOf_interrupted (i : ℕ) : endOf none (some i) none = some .interrupted := by simp [endOf, Wins]

/-- An interruption stays behind an older completion. -/
theorem endOf_interrupted_behind {older i : ℕ} {c : Option ℕ} (hc : ∀ n ∈ c, n < older) :
    endOf c (some (older + i)) none = some .interrupted := by
  have hlose : ¬Wins c (some (older + i)) none := by
    rintro ⟨n, hn, hall, -⟩
    have hlt := hc n hn
    have hle : older + i ≤ n := hall _ (Option.mem_some_self _)
    omega
  rw [endOf, if_neg hlose, if_pos (.inr (.inl rfl))]

/-- The same without a start. -/
theorem endOf_behind_none {older : ℕ} {c i c' i' : Option ℕ} (hc : ∀ n ∈ c', n < older) (hi : ∀ n ∈ i', n < older)
    (hnew : c.isSome ∨ i.isSome) : endOf (behind older c c') (behind older i i') none = endOf c i none := by
  have h : endOf (behind older c c') (behind older i i') (behind older none none) = endOf c i none :=
    endOf_behind hc hi (fun n hn => (Option.not_mem_none n hn).elim) (hnew.imp_right Or.inl)
  rwa [behind_none] at h

/-- The reason that tells how a turn ended. -/
def endReasons : Option Ending → List Reason
  | some .completed => [⟨"explicit_turn_completed", "transcript records the final turn reaching completion"⟩]
  | some .interrupted =>
    [⟨"interrupted_or_cancelled", "transcript records an interrupted, aborted, or cancelled turn"⟩]
  | none => []

theorem endReasons_inj {e e' : Option Ending} : endReasons e = endReasons e' ↔ e = e' := by
  refine ⟨fun h => ?_, fun h => h ▸ rfl⟩
  rcases e with _ | _ | _ <;> rcases e' with _ | _ | _ <;> first | rfl | exact absurd h (by decide)

theorem turnReasons_eq (s : Signals) :
    s.turnReasons = endReasons (endOf s.turnCompleted s.interrupted s.turnStart) := by
  rw [Signals.turnReasons, endOf, Signals.lastNegative]
  rcases s.turnCompleted with _ | c
  · rcases s.turnStart with _ | t <;> rcases s.interrupted with _ | i <;> simp [Wins, endReasons, Option.filter_some]
  · rcases s.turnStart with _ | t
    · rcases s.interrupted with _ | i
      · simp [Wins, endReasons]
      · by_cases hi : i ≤ c <;> simp [Wins, endReasons, hi]
    · by_cases ht : c < t
      · have ht' : ¬t ≤ c := not_le.mpr ht
        rcases s.interrupted with _ | i <;> simp [Wins, endReasons, Option.filter_some, ht, ht']
      · have ht' : t ≤ c := not_lt.mp ht
        rcases s.interrupted with _ | i
        · simp [Wins, endReasons, Option.filter_some, ht, ht']
        · by_cases hi : i ≤ c <;> simp [Wins, endReasons, Option.filter_some, hi, ht, ht']

/-! ## Lines with marks -/

section Lines

variable {α β : Type*} {value : α → Option β} {mark closes : α → Bool} {old new : List α}

theorem newestAt_behind : newestAt mark (old ++ new) = behind old.length (newestAt mark new) (newestAt mark old) :=
  newestAt_append old new

theorem newestAt_bound : ∀ n ∈ newestAt mark old, n < old.length := fun _ hn => newestAt_lt hn

theorem isSome_newestAt : (newestAt mark new).isSome ↔ ∃ l ∈ new, mark l := by
  rw [← not_iff_not, Option.not_isSome_iff_eq_none, newestAt_eq_none]
  push Not
  exact forall₂_congr fun l _ => iff_of_eq (Bool.not_eq_true _).symm

theorem isSome_newest : (newest value new).isSome ↔ ∃ l ∈ new, (value l).isSome := by
  rw [← not_iff_not, Option.not_isSome_iff_eq_none, newest_eq_none]
  push Not
  exact forall₂_congr fun l _ => Option.not_isSome_iff_eq_none.symm

/-- The newest of some lines that has a value, if that is as asked for. -/
def newestIf (value : α → Option β) (p : β → Bool) (ls : List α) : Option ℕ :=
  (newest value ls).bind fun found => if p found.1 then some found.2 else none

theorem newestIf_bound {p : β → Bool} : ∀ n ∈ newestIf value p old, n < old.length := by
  intro n hn
  obtain ⟨⟨b, i⟩, hfound, hp⟩ := Option.bind_eq_some_iff.mp hn
  split_ifs at hp
  obtain rfl := Option.some.inj hp
  exact newest_lt hfound

theorem newestIf_append_of_isSome {p : β → Bool} (h : (newest value new).isSome) :
    newestIf value p (old ++ new) = behind old.length (newestIf value p new) none := by
  obtain ⟨⟨b, i⟩, hfound⟩ := Option.isSome_iff_exists.mp h
  rw [newestIf, newestIf, newest_append, hfound, behind]
  simp only [Option.map_some, Option.some_or, Option.bind_some]
  split_ifs <;> rfl

theorem newestIf_append_of_none {p : β → Bool} (h : newest value new = none) :
    newestIf value p (old ++ new) = newestIf value p old := by
  rw [newestIf, newestIf, newest_append, h, Option.map_none, Option.none_or]

theorem newestIf_of_none {p : β → Bool} (h : newest value new = none) : newestIf value p new = none := by
  rw [newestIf, h, Option.bind_none]

/-- Whether a failure is open changes with older lines only if no newer line tells. -/
theorem stillOpen_append_iff :
    stillOpen (newestAt mark (old ++ new)) (newestAt closes (old ++ new)) =
        stillOpen (newestAt mark new) (newestAt closes new) ↔
      (∃ l ∈ new, mark l ∨ closes l) ∨ stillOpen (newestAt mark old) (newestAt closes old) = false := by
  have htold : (∃ l ∈ new, mark l ∨ closes l) ↔ (newestAt mark new).isSome ∨ (newestAt closes new).isSome := by
    rw [isSome_newestAt, isSome_newestAt, ← exists_or]
    exact exists_congr fun l => and_or_left
  rw [newestAt_behind, newestAt_behind, htold]
  by_cases hnew : (newestAt mark new).isSome ∨ (newestAt closes new).isSome
  · exact iff_of_true (stillOpen_behind newestAt_bound newestAt_bound hnew) (.inl hnew)
  · obtain ⟨hmark, hcloses⟩ := not_or.mp hnew
    rw [or_iff_right hnew, Option.not_isSome_iff_eq_none.mp hmark, Option.not_isSome_iff_eq_none.mp hcloses]
    rfl

end Lines

/-! ## Marks that a source does not have -/

-- `parse` is `serde_json::from_str`.
variable (parse : String → Option Value) {source : Source}

theorem lineMarks_cases (source : Source) (P : Marks → Prop) (hnone : P Marks.none)
    (hmarks : ∀ event, P (marks source event)) (line : String) : P (lineMarks parse source line) := by
  rw [lineMarks]
  rcases parse line with _ | event
  · exact hnone
  · exact hmarks event

/-- Only Codex has exit codes. -/
theorem lineMarks_exitCode (h : source ≠ .codex) (line : String) : (lineMarks parse source line).exitCode = none := by
  refine lineMarks_cases parse source (fun m => m.exitCode = none) rfl (fun event => ?_) line
  cases source <;> first | exact absurd rfl h | (rw [marks]; split_ifs <;> rfl) | simp [marks, Marks.none]

/-- Only Copilot tells whether tools succeed. -/
theorem lineMarks_tool (h : source ≠ .copilot) (line : String) :
    (lineMarks parse source line).toolFailure = false ∧ (lineMarks parse source line).toolSuccess = false := by
  refine lineMarks_cases parse source (fun m => m.toolFailure = false ∧ m.toolSuccess = false) ⟨rfl, rfl⟩
    (fun event => ?_) line
  cases source <;> first | exact absurd rfl h | (rw [marks]; split_ifs <;> exact ⟨rfl, rfl⟩) | simp [marks, Marks.none]

/-- Antigravity and Claude have no events that begin or complete a turn. -/
theorem lineMarks_turn (h : source = .antigravity ∨ source = .claude) (line : String) :
    (lineMarks parse source line).turnCompleted = false ∧ (lineMarks parse source line).turnStart = false := by
  refine lineMarks_cases parse source (fun m => m.turnCompleted = false ∧ m.turnStart = false) ⟨rfl, rfl⟩
    (fun event => ?_) line
  rcases h with rfl | rfl
  · exact ⟨rfl, rfl⟩
  · rw [marks]
    split_ifs <;> exact ⟨rfl, rfl⟩

/-- Only Claude tells why an answer stopped. -/
theorem lineMarks_stop (h : source ≠ .claude) (line : String) : (lineMarks parse source line).stop = none := by
  refine lineMarks_cases parse source (fun m => m.stop = none) rfl (fun event => ?_) line
  cases source <;> first | exact absurd rfl h | simp [marks, Marks.none]

/-! ## The end of the turn -/

/-- Whether a mark tells how a turn goes, other than the status of a step. -/
def Marks.tellsTurn (m : Marks) : Bool := m.turnCompleted || m.interrupted || m.turnStart || m.stop.isSome

/-- How the turn of lines ended. -/
def turnEnd (source : Source) (ls : List String) : Option Ending :=
  let interrupted := newestAt (fun l => (lineMarks parse source l).interrupted) ls
  match source with
  | .antigravity => endOf (newestIf (fun l => (lineMarks parse source l).stepStatus) (· = "DONE") ls) interrupted none
  | .claude =>
    endOf (newestIf (fun l => (lineMarks parse source l).stop) (· = "end_turn") ls)
      ((newestIf (fun l => (lineMarks parse source l).stop) (· ≠ "end_turn") ls).elim interrupted fun i =>
        some (max (interrupted.getD i) i)) none
  | source =>
    endOf (newestAt (fun l => (lineMarks parse source l).turnCompleted) ls) interrupted
      (newestAt (fun l => (lineMarks parse source l).turnStart) ls)

theorem turnReasons_scan (source : Source) (ls : List String) :
    ((scan parse source ls).resolve source).turnReasons = endReasons (turnEnd parse source ls) := by
  rw [turnReasons_eq, endReasons_inj, scan_eq]
  have hturn : source = .antigravity ∨ source = .claude →
      newestAt (fun l => (lineMarks parse source l).turnCompleted) ls = none ∧
        newestAt (fun l => (lineMarks parse source l).turnStart) ls = none :=
    fun h => ⟨newestAt_eq_none.mpr fun l _ => (lineMarks_turn parse h l).1,
      newestAt_eq_none.mpr fun l _ => (lineMarks_turn parse h l).2⟩
  cases source with
  | antigravity =>
    obtain ⟨hcompleted, hstart⟩ := hturn (.inl rfl)
    rw [turnEnd, newestIf, Signals.resolve, signalsOf, hcompleted, hstart]
    dsimp only
    rcases newest (fun l => (lineMarks parse .antigravity l).stepStatus) ls with _ | ⟨status, i⟩
    · rfl
    · by_cases hdone : status = "DONE" <;> simp [hdone]
  | claude =>
    obtain ⟨hcompleted, hstart⟩ := hturn (.inr rfl)
    rw [turnEnd, newestIf, newestIf, Signals.resolve, signalsOf, hcompleted, hstart]
    dsimp only
    rcases newest (fun l => (lineMarks parse .claude l).stop) ls with _ | ⟨stop, i⟩
    · rfl
    · by_cases hend : stop = "end_turn" <;> simp [hend]
  | _ => rfl

/-- The dropped lines do not change how the turn of the kept lines ended. -/
def TurnKept (source : Source) (dropped kept : List String) : Prop :=
  match source with
  | .antigravity =>
    (newestIf (fun l => (lineMarks parse source l).stepStatus) (· = "DONE") kept).isSome ∨
      (∃ l ∈ kept, (lineMarks parse source l).interrupted) ∨
      (∀ l ∈ dropped, (lineMarks parse source l).interrupted = false) ∧
        ((∃ l ∈ kept, (lineMarks parse source l).stepStatus.isSome) ∨
          newestIf (fun l => (lineMarks parse source l).stepStatus) (· = "DONE") dropped = none)
  | source =>
    (∃ l ∈ kept, (lineMarks parse source l).tellsTurn) ∨ ∀ l ∈ dropped, (lineMarks parse source l).tellsTurn = false

theorem turnEnd_antigravity_iff (dropped kept : List String) :
    turnEnd parse .antigravity (dropped ++ kept) = turnEnd parse .antigravity kept ↔
      TurnKept parse .antigravity dropped kept := by
  simp only [turnEnd, TurnKept]
  rw [newestAt_behind, ← isSome_newestAt, ← isSome_newest, ← newestAt_eq_none]
  by_cases hstatus : (newest (fun l => (lineMarks parse .antigravity l).stepStatus) kept).isSome
  · rw [newestIf_append_of_isSome hstatus]
    by_cases hdone : (newestIf (fun l => (lineMarks parse .antigravity l).stepStatus) (· = "DONE") kept).isSome
    · refine iff_of_true ?_ (.inl hdone)
      exact endOf_behind_none (fun n hn => (Option.not_mem_none n hn).elim) newestAt_bound (.inl hdone)
    by_cases hbad : (newestAt (fun l => (lineMarks parse .antigravity l).interrupted) kept).isSome
    · refine iff_of_true ?_ (.inr (.inl hbad))
      exact endOf_behind_none (fun n hn => (Option.not_mem_none n hn).elim) newestAt_bound (.inr hbad)
    · rw [or_iff_right hdone, or_iff_right hbad, and_iff_left (.inl hstatus), Option.not_isSome_iff_eq_none.mp hdone,
        Option.not_isSome_iff_eq_none.mp hbad, behind_none, behind_none, endOf_none, endOf_eq_none]
      simp
  · have hnone := Option.not_isSome_iff_eq_none.mp hstatus
    rw [newestIf_append_of_none hnone, newestIf_of_none hnone, Option.isSome_none, or_iff_right Bool.false_ne_true]
    by_cases hbad : (newestAt (fun l => (lineMarks parse .antigravity l).interrupted) kept).isSome
    · refine iff_of_true ?_ (.inl hbad)
      obtain ⟨i, hi⟩ := Option.isSome_iff_exists.mp hbad
      rw [hi, behind_some, endOf_interrupted, endOf_interrupted_behind newestIf_bound]
    · rw [or_iff_right hbad, or_iff_right hstatus, Option.not_isSome_iff_eq_none.mp hbad, behind_none, endOf_none,
        endOf_eq_none]
      simp [and_comm]

theorem turnEnd_claude_iff (dropped kept : List String) :
    turnEnd parse .claude (dropped ++ kept) = turnEnd parse .claude kept ↔ TurnKept parse .claude dropped kept := by
  have htells : ∀ l, (lineMarks parse .claude l).tellsTurn =
      ((lineMarks parse .claude l).interrupted || (lineMarks parse .claude l).stop.isSome) := by
    intro l
    obtain ⟨hcompleted, hstart⟩ := lineMarks_turn parse (.inr rfl) l
    rw [Marks.tellsTurn, hcompleted, hstart, Bool.false_or, Bool.or_false]
  have hkept : (∃ l ∈ kept, (lineMarks parse .claude l).tellsTurn) ↔
      (newest (fun l => (lineMarks parse .claude l).stop) kept).isSome ∨
        (newestAt (fun l => (lineMarks parse .claude l).interrupted) kept).isSome := by
    rw [isSome_newestAt, isSome_newest, ← exists_or]
    exact exists_congr fun l => by rw [htells, Bool.or_eq_true, or_comm, and_or_left]
  have hdropped : (∀ l ∈ dropped, (lineMarks parse .claude l).tellsTurn = false) ↔
      newest (fun l => (lineMarks parse .claude l).stop) dropped = none ∧
        newestAt (fun l => (lineMarks parse .claude l).interrupted) dropped = none := by
    rw [newestAt_eq_none, newest_eq_none, ← forall₂_and]
    exact forall₂_congr fun l _ => by rw [htells, Bool.or_eq_false_iff, and_comm, Option.isSome_eq_false_iff,
      Option.isNone_iff_eq_none]
  simp only [turnEnd, TurnKept]
  rw [newestAt_behind, hkept, hdropped]
  rcases hstop : newest (fun l => (lineMarks parse .claude l).stop) kept with _ | ⟨stop, j⟩
  · rw [newestIf_append_of_none hstop, newestIf_append_of_none hstop, newestIf_of_none hstop, newestIf_of_none hstop,
      Option.isSome_none, or_iff_right Bool.false_ne_true, Option.elim_none]
    rcases hbad : newestAt (fun l => (lineMarks parse .claude l).interrupted) kept with _ | i
    · rw [behind_none, endOf_none, endOf_eq_none, Option.isSome_none, or_iff_right Bool.false_ne_true, newestIf, newestIf]
      rcases newest (fun l => (lineMarks parse .claude l).stop) dropped with _ | ⟨stop, j⟩
      · simp
      · by_cases hend : stop = "end_turn" <;> simp [hend]
    · refine iff_of_true ?_ (.inl rfl)
      have hmax : (newestIf (fun l => (lineMarks parse .claude l).stop) (· ≠ "end_turn") dropped).elim
          (some (dropped.length + i)) (fun j => some (max ((some (dropped.length + i)).getD j) j)) =
            some (dropped.length + i) := by
        rcases hother : newestIf (fun l => (lineMarks parse .claude l).stop) (· ≠ "end_turn") dropped with _ | j
        · rfl
        · have hj := newestIf_bound j hother
          rw [Option.elim_some, Option.getD_some, max_eq_left (by omega)]
      rw [behind_some, hmax, endOf_interrupted, endOf_interrupted_behind newestIf_bound]
  · have hsome : (newest (fun l => (lineMarks parse .claude l).stop) kept).isSome := by rw [hstop, Option.isSome_some]
    refine iff_of_true ?_ (.inl (.inl rfl))
    rw [newestIf_append_of_isSome hsome, newestIf_append_of_isSome hsome, newestIf, newestIf, hstop, Option.bind_some,
      Option.bind_some]
    dsimp only
    by_cases hend : stop = "end_turn"
    · simp only [hend, decide_true, ne_eq, not_true_eq_false, decide_false, if_true, Bool.false_eq_true, if_false,
        behind_none, Option.elim_none]
      refine endOf_behind_none ?_ newestAt_bound (.inl rfl)
      exact fun n hn => (Option.not_mem_none n hn).elim
    · simp only [hend, decide_false, ne_eq, not_false_eq_true, decide_true, Bool.false_eq_true, if_false, if_true,
        behind_none, behind_some, Option.elim_some, endOf_interrupted]

/-- The dropped lines do not change how the turn ended iff the kept lines tell, or the dropped lines do not. -/
theorem turnEnd_append_iff (source : Source) (dropped kept : List String) :
    turnEnd parse source (dropped ++ kept) = turnEnd parse source kept ↔ TurnKept parse source dropped kept := by
  have hplain : source ≠ .claude →
      (endOf (newestAt (fun l => (lineMarks parse source l).turnCompleted) (dropped ++ kept))
          (newestAt (fun l => (lineMarks parse source l).interrupted) (dropped ++ kept))
          (newestAt (fun l => (lineMarks parse source l).turnStart) (dropped ++ kept)) =
        endOf (newestAt (fun l => (lineMarks parse source l).turnCompleted) kept)
          (newestAt (fun l => (lineMarks parse source l).interrupted) kept)
          (newestAt (fun l => (lineMarks parse source l).turnStart) kept) ↔
      (∃ l ∈ kept, (lineMarks parse source l).tellsTurn) ∨
        ∀ l ∈ dropped, (lineMarks parse source l).tellsTurn = false) := by
    intro hsource
    have hany : ∀ ls, (∃ l ∈ ls, (lineMarks parse source l).tellsTurn) ↔
        (newestAt (fun l => (lineMarks parse source l).turnCompleted) ls).isSome ∨
          (newestAt (fun l => (lineMarks parse source l).interrupted) ls).isSome ∨
          (newestAt (fun l => (lineMarks parse source l).turnStart) ls).isSome := by
      intro ls
      rw [isSome_newestAt, isSome_newestAt, isSome_newestAt, ← exists_or, ← exists_or]
      refine exists_congr fun l => ?_
      rw [Marks.tellsTurn, lineMarks_stop parse hsource, Option.isSome_none, Bool.or_false, Bool.or_eq_true,
        Bool.or_eq_true, or_assoc, and_or_left, and_or_left]
    have hnone : (∀ l ∈ dropped, (lineMarks parse source l).tellsTurn = false) ↔
        ¬∃ l ∈ dropped, (lineMarks parse source l).tellsTurn := by simp
    rw [hnone, hany, hany, newestAt_behind, newestAt_behind, newestAt_behind]
    by_cases hkept : (newestAt (fun l => (lineMarks parse source l).turnCompleted) kept).isSome ∨
        (newestAt (fun l => (lineMarks parse source l).interrupted) kept).isSome ∨
        (newestAt (fun l => (lineMarks parse source l).turnStart) kept).isSome
    · exact iff_of_true (endOf_behind newestAt_bound newestAt_bound newestAt_bound hkept) (.inl hkept)
    · rw [or_iff_right hkept]
      obtain ⟨hcompleted, hrest⟩ := not_or.mp hkept
      obtain ⟨hbad, hstart⟩ := not_or.mp hrest
      rw [Option.not_isSome_iff_eq_none.mp hcompleted, Option.not_isSome_iff_eq_none.mp hbad,
        Option.not_isSome_iff_eq_none.mp hstart, behind_none, behind_none, behind_none, endOf_none, endOf_eq_none]
  cases source with
  | antigravity => exact turnEnd_antigravity_iff parse dropped kept
  | claude => exact turnEnd_claude_iff parse dropped kept
  | _ => exact hplain (by simp)

/-! ## Failures -/

/-- The newest exit code of lines, if it is a failure. -/
def exitAt (source : Source) (ls : List String) : Option ℕ :=
  newestIf (fun l => (lineMarks parse source l).exitCode) (· ≠ 0) ls

/-- The dropped lines do not change whether a tool failed. -/
def FailureKept (source : Source) (dropped kept : List String) : Prop :=
  ((∃ l ∈ kept, (lineMarks parse source l).exitCode.isSome ∨ (lineMarks parse source l).turnCompleted) ∨
      stillOpen (exitAt parse source dropped)
        (newestAt (fun l => (lineMarks parse source l).turnCompleted) dropped) = false) ∧
    ((∃ l ∈ kept, (lineMarks parse source l).toolFailure ∨ (lineMarks parse source l).toolSuccess) ∨
      stillOpen (newestAt (fun l => (lineMarks parse source l).toolFailure) dropped)
        (newestAt (fun l => (lineMarks parse source l).toolSuccess) dropped) = false)

/-- The reason of a command that failed. -/
def exitReasons (source : Source) (ls : List String) : List Reason :=
  if stillOpen (exitAt parse source ls) (newestAt (fun l => (lineMarks parse source l).turnCompleted) ls) then
    [⟨"unresolved_tool_failure", "last executed tool reported non-zero exit code " ++
      toString ((signalsOf parse source ls).lastExitCode.getD 1)⟩]
  else []

/-- The reason of a tool that failed. -/
def toolReasons (source : Source) (ls : List String) : List Reason :=
  if stillOpen (newestAt (fun l => (lineMarks parse source l).toolFailure) ls)
      (newestAt (fun l => (lineMarks parse source l).toolSuccess) ls) then
    [⟨"unresolved_tool_failure", "tool call recorded a failed status"⟩]
  else []

theorem exitReasons_of_ne (h : source ≠ .codex) (ls : List String) : exitReasons parse source ls = [] := by
  have hnone : exitAt parse source ls = none :=
    newestIf_of_none (newest_eq_none.mpr fun l _ => lineMarks_exitCode parse h l)
  rw [exitReasons, hnone]
  rfl

theorem toolReasons_of_ne (h : source ≠ .copilot) (ls : List String) : toolReasons parse source ls = [] := by
  rw [toolReasons, newestAt_eq_none.mpr fun l _ => (lineMarks_tool parse h l).1]
  rfl

theorem signalsOf_exit (source : Source) (ls : List String) :
    (signalsOf parse source ls).exit = exitAt parse source ls := by
  rw [signalsOf, exitAt, newestIf]
  refine Option.bind_congr fun found _ => ?_
  by_cases h : found.1 = 0 <;> simp [h]

/-- The status of a turn says nothing about tools. -/
theorem resolve_tools (source : Source) (s : Signals) : (s.resolve source).exit = s.exit ∧
    (s.resolve source).toolFailure = s.toolFailure ∧ (s.resolve source).toolSuccess = s.toolSuccess := by
  cases source with
  | antigravity =>
    rw [Signals.resolve]
    rcases s.lastStepStatus with _ | ⟨status, i⟩
    · exact ⟨rfl, rfl, rfl⟩
    · dsimp only
      split_ifs <;> exact ⟨rfl, rfl, rfl⟩
  | claude =>
    rw [Signals.resolve]
    rcases s.lastAssistantStop with _ | ⟨stop, i⟩
    · exact ⟨rfl, rfl, rfl⟩
    · dsimp only
      split_ifs <;> exact ⟨rfl, rfl, rfl⟩
  | _ => exact ⟨rfl, rfl, rfl⟩

theorem failureReasons_scan (source : Source) (ls : List String) :
    ((scan parse source ls).resolve source).failureReasons =
      exitReasons parse source ls ++ toolReasons parse source ls := by
  rw [scan_eq]
  by_cases hcodex : source = .codex
  · subst hcodex
    have hne : Source.codex ≠ .copilot := by decide
    have htool := toolReasons_of_ne parse hne ls
    have hexit : ((signalsOf parse .codex ls).resolve .codex).exit = exitAt parse .codex ls := signalsOf_exit parse _ ls
    rw [htool, List.append_nil, exitReasons, Signals.failureReasons, hexit]
    rw [toolReasons] at htool
    exact if_congr Iff.rfl rfl htool
  · obtain ⟨hexit, hfailure, hsuccess⟩ := resolve_tools source (signalsOf parse source ls)
    have hnone : exitAt parse source ls = none :=
      newestIf_of_none (newest_eq_none.mpr fun l _ => lineMarks_exitCode parse hcodex l)
    rw [exitReasons_of_ne parse hcodex, List.nil_append, Signals.failureReasons, hexit, hfailure, hsuccess,
      signalsOf_exit, hnone]
    rfl

theorem lastExitCode_append {dropped kept : List String}
    (h : (newest (fun l => (lineMarks parse source l).exitCode) kept).isSome) :
    (signalsOf parse source (dropped ++ kept)).lastExitCode = (signalsOf parse source kept).lastExitCode := by
  obtain ⟨⟨code, i⟩, hfound⟩ := Option.isSome_iff_exists.mp h
  rw [signalsOf, signalsOf]
  dsimp only
  rw [newest_append, hfound]
  rfl

theorem exitReasons_append_iff (dropped kept : List String) :
    exitReasons parse source (dropped ++ kept) = exitReasons parse source kept ↔
      (∃ l ∈ kept, (lineMarks parse source l).exitCode.isSome ∨ (lineMarks parse source l).turnCompleted) ∨
        stillOpen (exitAt parse source dropped)
          (newestAt (fun l => (lineMarks parse source l).turnCompleted) dropped) = false := by
  have htold : (∃ l ∈ kept, (lineMarks parse source l).exitCode.isSome ∨ (lineMarks parse source l).turnCompleted) ↔
      (newest (fun l => (lineMarks parse source l).exitCode) kept).isSome ∨
        (newestAt (fun l => (lineMarks parse source l).turnCompleted) kept).isSome := by
    rw [isSome_newestAt, isSome_newest, ← exists_or]
    exact exists_congr fun l => and_or_left
  rw [htold, exitReasons, exitReasons, newestAt_behind]
  by_cases hexit : (newest (fun l => (lineMarks parse source l).exitCode) kept).isSome
  · refine iff_of_true ?_ (.inl (.inl hexit))
    rw [exitAt, newestIf_append_of_isSome hexit, lastExitCode_append parse hexit, exitAt]
    rcases hat : newestIf (fun l => (lineMarks parse source l).exitCode) (· ≠ 0) kept with _ | i
    · rfl
    · rw [stillOpen_behind (fun n hn => (Option.not_mem_none n hn).elim) newestAt_bound (.inl rfl)]
  · have hnone := Option.not_isSome_iff_eq_none.mp hexit
    have hkept : exitAt parse source kept = none := newestIf_of_none hnone
    rw [exitAt, newestIf_append_of_none hnone, hkept, or_iff_right hexit]
    by_cases hcompleted : (newestAt (fun l => (lineMarks parse source l).turnCompleted) kept).isSome
    · refine iff_of_true ?_ (.inl hcompleted)
      have hclosed : stillOpen (behind dropped.length none (exitAt parse source dropped))
          (behind dropped.length (newestAt (fun l => (lineMarks parse source l).turnCompleted) kept)
            (newestAt (fun l => (lineMarks parse source l).turnCompleted) dropped)) = stillOpen none _ :=
        stillOpen_behind newestIf_bound newestAt_bound (.inr hcompleted)
      rw [behind_none] at hclosed
      rw [← exitAt, hclosed]
      rfl
    · rw [or_iff_right hcompleted, Option.not_isSome_iff_eq_none.mp hcompleted, behind_none, ← exitAt,
        if_neg (c := stillOpen none none = true) (by decide), ite_eq_right_iff, ← Bool.not_eq_true]
      exact ⟨fun h hopen => List.cons_ne_nil _ _ (h hopen), fun h hopen => absurd hopen h⟩

theorem toolReasons_append_iff (dropped kept : List String) :
    toolReasons parse source (dropped ++ kept) = toolReasons parse source kept ↔
      (∃ l ∈ kept, (lineMarks parse source l).toolFailure ∨ (lineMarks parse source l).toolSuccess) ∨
        stillOpen (newestAt (fun l => (lineMarks parse source l).toolFailure) dropped)
          (newestAt (fun l => (lineMarks parse source l).toolSuccess) dropped) = false := by
  rw [← stillOpen_append_iff, toolReasons, toolReasons]
  exact ite_cons_nil_inj

/-- The dropped lines do not change whether a tool failed iff the kept lines tell, or no failure is open before them. -/
theorem failureReasons_append_iff (source : Source) (dropped kept : List String) :
    ((scan parse source (dropped ++ kept)).resolve source).failureReasons =
        ((scan parse source kept).resolve source).failureReasons ↔
      FailureKept parse source dropped kept := by
  rw [FailureKept, ← exitReasons_append_iff, ← toolReasons_append_iff, failureReasons_scan, failureReasons_scan]
  by_cases hcodex : source = .codex
  · have hcopilot : source ≠ .copilot := by rw [hcodex]; decide
    simp only [toolReasons_of_ne parse hcopilot, List.append_nil, and_true]
  · simp only [exitReasons_of_ne parse hcodex, List.nil_append, true_and]

/-! ## Unanswered requests -/

/-- The dropped lines do not change whether a request has no answer. -/
def TalkKept (isUser isAssistant : String → Bool) (dropped kept : List String) : Prop :=
  (∃ l ∈ kept, isUser l ∨ isAssistant l) ∨ unanswered (newestAt isUser dropped) (newestAt isAssistant dropped) = false

theorem unanswered_append_iff {isUser isAssistant : String → Bool} {dropped kept : List String} :
    unanswered (newestAt isUser (dropped ++ kept)) (newestAt isAssistant (dropped ++ kept)) =
        unanswered (newestAt isUser kept) (newestAt isAssistant kept) ↔
      TalkKept isUser isAssistant dropped kept := stillOpen_append_iff

end Innen.Conversation.Unfinished
