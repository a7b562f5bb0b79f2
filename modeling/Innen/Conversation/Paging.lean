import Mathlib.Algebra.BigOperators.Group.List.Basic
import Mathlib.Algebra.GroupWithZero.Nat
import Innen.Common.Paging
import Innen.Conversation.Read

/-!
# Reading a conversation to its end

A client reads at 0 and then at each `next_offset`. Over a transcript that can be read, the passes take
every event once: they show what the view shows of it, or they count it (`pages_complete`).
-/

namespace Innen.Conversation

open Innen.Common

variable (R : Reader)

/-- The event of a line that is JSON, with its row. -/
def lineEvent : Option String × ℕ → Option (Value × ℕ)
  | (some line, index) =>
    if blank line = true then none else (R.parseJson line).toOption.map fun event => (event, index)
  | (none, _) => none

/-- The events of a list of lines. -/
def lineEvents (lines : List (Option String × ℕ)) : List (Value × ℕ) := lines.filterMap (lineEvent R)

/-- The events of a session, each with its row. -/
def sessionEvents (located : Located) : List (Value × ℕ) :=
  if located.isDocument then ((loadDocument R located).toOption.getD []).zipIdx
  else lineEvents R (bufLines located.content).zipIdx

/-- What a view shows of a list of events. -/
def shownRecords (view : View) (source : Source) (events : List (Value × ℕ)) : List Record :=
  events.filterMap fun e => match shown R view source e.1 with
    | .ok (some event) => some ⟨e.2 + 1, event⟩
    | _ => none

/-- Whether a view leaves an event out. -/
def isHidden (view : View) (source : Source) (event : Value) : Bool :=
  match shown R view source event with
  | .ok none => true
  | _ => false

/-- How many events of a kind a view leaves out. -/
def hiddenCount (view : View) (source : Source) (kind : String) (events : List (Value × ℕ)) : ℕ :=
  events.countP fun e => isHidden R view source e.1 ∧ nativeKind e.1 = kind

/-- How many events of a kind a pass left out. -/
def Tally.count (tally : Tally) (kind : String) : ℕ := (tally.elided.get? kind).getD 0

/-- What the reader takes for granted of a session. Everything else makes it fail. -/
structure Readable (located : Located) (view : View) : Prop where
  document : located.isDocument = true → ∃ events, loadDocument R located = .ok events
  text : located.isDocument = false → none ∉ bufLines located.content
  /-- Some line is an event, unless there is nothing but blank lines. -/
  parsed : located.isDocument = false → sessionEvents R located ≠ [] ∨
    ∀ line, some line ∈ bufLines located.content → blank line = true
  object : ∀ e ∈ sessionEvents R located, e.1.asObject?.isSome
  projected : ∀ e ∈ sessionEvents R located, ∃ o, shown R view located.source e.1 = .ok o

variable {R}

/-! ## One event -/

/-- Events that the view of a page has an answer for. -/
def Plain (R : Reader) (view : View) (source : Source) (events : List (Value × ℕ)) : Prop :=
  ∀ e ∈ events, e.1.asObject?.isSome ∧ ∃ o, shown R view source e.1 = .ok o

/-- A pass took some events in. -/
structure Took (R : Reader) (s s' : Pass) (chunk : List (Value × ℕ)) : Prop where
  view : s'.page.view = s.page.view
  source : s'.page.source = s.page.source
  records : s'.page.records = s.page.records ++ shownRecords R s.page.view s.page.source chunk
  count : ∀ kind, s'.tally.count kind =
    s.tally.count kind + hiddenCount R s.page.view s.page.source kind chunk

theorem Took.refl (s : Pass) : Took R s s [] where
  view := rfl
  source := rfl
  records := (List.append_nil _).symm
  count _ := rfl

theorem Took.trans {s₁ s₂ s₃ : Pass} {chunk₁ chunk₂ : List (Value × ℕ)} (h₁ : Took R s₁ s₂ chunk₁)
    (h₂ : Took R s₂ s₃ chunk₂) : Took R s₁ s₃ (chunk₁ ++ chunk₂) where
  view := h₂.view.trans h₁.view
  source := h₂.source.trans h₁.source
  records := by
    rw [h₂.records, h₁.records, h₁.view, h₁.source, List.append_assoc, shownRecords, shownRecords,
      ← List.filterMap_append, shownRecords]
  count kind := by
    rw [h₂.count, h₁.count, h₁.view, h₁.source, Nat.add_assoc, hiddenCount, hiddenCount,
      ← List.countP_append, hiddenCount]

theorem Tally.count_elide (tally : Tally) {view : View} (hview : view ≠ .events) (event : Value)
    (kind : String) :
    (tally.elide view event).count kind =
      tally.count kind + if nativeKind event = kind then 1 else 0 := by
  rw [Tally.elide, if_neg hview, Tally.count, SortedMap.get?_upsert, Tally.count]
  by_cases h : nativeKind event = kind
  · simp [h]
  · simp [h, Ne.symm h]

/-- How the intake of an event without a selection ends. -/
theorem accept_plain (limit : ℕ) {s : Pass} {event : Value} (index : ℕ)
    (hobject : event.asObject?.isSome)
    (hshown : ∃ o, shown R s.page.view s.page.source event = .ok o) :
    (accept R limit none s event index = .ok (s.stop index, true) ∧ s.page.records.length = limit) ∨
    ∃ s', accept R limit none s event index = .ok (s', false) ∧ Took R s s' [(event, index)] ∧
      s'.page.nextOffset = s.page.nextOffset ∧ s'.parsed = s.parsed ∧
      (s.page.records.length ≤ limit → s'.page.records.length ≤ limit) := by
  obtain ⟨o, ho⟩ := hshown
  have hnot : event.asObject?.isNone = false := by
    rw [← Option.not_isSome, hobject]
    rfl
  cases o with
  | none =>
    have hview : s.page.view ≠ .events := by
      intro hview
      rw [shown, if_pos hview] at ho
      cases ho
    refine .inr ⟨{ s with tally := s.tally.elide s.page.view event }, by simp [accept, hnot, ho],
      ⟨rfl, rfl, ?_, fun kind => ?_⟩, rfl, rfl, id⟩
    · simp [shownRecords, ho]
    · exact (Tally.count_elide _ hview event kind).trans (by simp [hiddenCount, isHidden, ho, List.countP_singleton])
  | some event' =>
    by_cases hfull : s.page.records.length = limit
    · exact .inl ⟨by simp [accept, hnot, ho, hfull], hfull⟩
    · refine .inr ⟨s.push event' index, by simp [accept, hnot, ho, hfull], ⟨rfl, rfl, ?_, fun kind => ?_⟩,
        rfl, rfl, fun hle => ?_⟩
      · simp [shownRecords, ho, Pass.push]
      · have htally : (s.push event' index).tally.count kind = s.tally.count kind := by
          rw [Pass.push]
          split <;> rfl
        simp [htally, hiddenCount, isHidden, ho]
      · rw [Pass.push, List.length_append, List.length_singleton]
        omega

/-! ## The loops -/

/-- Where a loop over events stopped: at their end, or with a full page before one more event. -/
def StopsAt (limit : ℕ) (s : Pass) (post : List (Value × ℕ)) : Prop :=
  post = [] ∧ s.page.nextOffset = none ∨
    ∃ e rest, post = e :: rest ∧ s.page.nextOffset = some e.2 ∧ s.page.records.length = limit

theorem readEvents_spec (limit : ℕ) (events : List (Value × ℕ)) (s : Pass)
    (hplain : Plain R s.page.view s.page.source events) (hnone : s.page.nextOffset = none)
    (hlen : s.page.records.length ≤ limit) :
    ∃ s' chunk post, readEvents R limit none events s = .ok s' ∧ events = chunk ++ post ∧
      Took R s s' chunk ∧ StopsAt limit s' post := by
  induction events generalizing s with
  | nil => exact ⟨s, [], [], rfl, rfl, .refl s, .inl ⟨rfl, hnone⟩⟩
  | cons e events ih =>
    obtain ⟨event, index⟩ := e
    obtain ⟨hobject, hshown⟩ := hplain _ List.mem_cons_self
    rcases accept_plain limit index hobject hshown with
      ⟨haccept, hfull⟩ | ⟨s₁, haccept, htook, hnext, -, hle⟩
    · exact ⟨s.stop index, [], (event, index) :: events, by rw [readEvents, haccept], rfl,
        ⟨rfl, rfl, (List.append_nil _).symm, fun _ => rfl⟩, .inr ⟨_, _, rfl, rfl, hfull⟩⟩
    · have hplain₁ : Plain R s₁.page.view s₁.page.source events := by
        rw [htook.view, htook.source]
        exact fun e he => hplain e (List.mem_cons_of_mem _ he)
      obtain ⟨s', chunk, post, hread, rfl, htook', hstop⟩ := ih s₁ hplain₁ (hnext.trans hnone) (hle hlen)
      exact ⟨s', (event, index) :: chunk, post, by rw [readEvents, haccept]; exact hread, rfl,
        htook.trans htook', hstop⟩

/-- An unreadable line shows nothing and counts nothing. -/
theorem took_skip (s : Pass) (index : ℕ) (m : String) : Took R s (s.skip index m) [] where
  view := rfl
  source := rfl
  records := (List.append_nil _).symm
  count _ := rfl

theorem rowsFrom_cons (offset : ℕ) (e : Value × ℕ) (rows : List (Value × ℕ)) :
    rowsFrom offset (e :: rows) = if offset ≤ e.2 then e :: rowsFrom offset rows else rowsFrom offset rows := by
  rw [rowsFrom, List.filter_cons]
  by_cases h : offset ≤ e.2 <;> simp [h, rowsFrom]

/-- The rows of a line: none if it is blank, before the offset or no JSON. -/
theorem lineEvents_cons (offset : ℕ) (line : String) (index : ℕ) (lines : List (Option String × ℕ)) :
    rowsFrom offset (lineEvents R ((some line, index) :: lines)) =
      if index < offset ∨ blank line = true then rowsFrom offset (lineEvents R lines)
      else match R.parseJson line with
        | .ok event => (event, index) :: rowsFrom offset (lineEvents R lines)
        | .error _ => rowsFrom offset (lineEvents R lines) := by
  rw [lineEvents, List.filterMap_cons, ← lineEvents]
  by_cases hblank : blank line = true
  · simp [lineEvent, hblank]
  cases hparse : R.parseJson line with
  | error m => simp [lineEvent, hblank, hparse, Except.toOption]
  | ok event =>
    by_cases hlt : index < offset
    · simp [lineEvent, hblank, hparse, hlt, Except.toOption, rowsFrom_cons]
    · simp [lineEvent, hblank, hparse, hlt, Except.toOption, rowsFrom_cons, Nat.le_of_not_lt hlt]

theorem readLines_skip {offset limit : ℕ} {line : String} {index : ℕ} (h : index < offset ∨ blank line = true)
    (lines : List (Option String × ℕ)) (s : Pass) :
    readLines R offset limit none ((some line, index) :: lines) s = readLines R offset limit none lines s := by
  simp [readLines, h]

theorem readLines_error {offset limit : ℕ} {line : String} {index : ℕ}
    (h : ¬(index < offset ∨ blank line = true)) {m : String} (hparse : R.parseJson line = .error m)
    (lines : List (Option String × ℕ)) (s : Pass) :
    readLines R offset limit none ((some line, index) :: lines) s =
      readLines R offset limit none lines (s.skip index m) := by
  simp [readLines, h, hparse]

/-- A parsed line that fits on the page. -/
theorem readLines_go {offset limit : ℕ} {line : String} {index : ℕ}
    (h : ¬(index < offset ∨ blank line = true)) {event : Value} (hparse : R.parseJson line = .ok event)
    {s s' : Pass} (haccept : accept R limit none { s with parsed := s.parsed + 1 } event index = .ok (s', false))
    (lines : List (Option String × ℕ)) :
    readLines R offset limit none ((some line, index) :: lines) s = readLines R offset limit none lines s' := by
  simp [readLines, h, hparse, haccept]

/-- A parsed line that does not. -/
theorem readLines_stop {offset limit : ℕ} {line : String} {index : ℕ}
    (h : ¬(index < offset ∨ blank line = true)) {event : Value} (hparse : R.parseJson line = .ok event)
    {s s' : Pass} (haccept : accept R limit none { s with parsed := s.parsed + 1 } event index = .ok (s', true))
    (lines : List (Option String × ℕ)) :
    readLines R offset limit none ((some line, index) :: lines) s = .ok s' := by
  simp [readLines, h, hparse, haccept]

theorem readLines_spec {offset : ℕ} (limit : ℕ) (lines : List (Option String × ℕ)) (s : Pass)
    (htext : ∀ l ∈ lines, l.1 ≠ none)
    (hplain : Plain R s.page.view s.page.source (rowsFrom offset (lineEvents R lines)))
    (hnone : s.page.nextOffset = none) (hlen : s.page.records.length ≤ limit) :
    ∃ s' chunk post, readLines R offset limit none lines s = .ok s' ∧
      rowsFrom offset (lineEvents R lines) = chunk ++ post ∧ Took R s s' chunk ∧ StopsAt limit s' post ∧
      s.parsed ≤ s'.parsed ∧ (rowsFrom offset (lineEvents R lines) ≠ [] → 0 < s'.parsed) ∧
      ((∀ l ∈ lines, ∀ line, l.1 = some line → blank line = true) → s'.firstError = s.firstError) := by
  induction lines generalizing s with
  | nil =>
    exact ⟨s, [], [], rfl, rfl, .refl s, .inl ⟨rfl, hnone⟩, le_rfl, fun h => absurd rfl h, fun _ => rfl⟩
  | cons l lines ih =>
    obtain ⟨line?, index⟩ := l
    obtain ⟨line, rfl⟩ : ∃ line, line? = some line :=
      Option.ne_none_iff_exists'.mp (htext _ List.mem_cons_self)
    have htext' : ∀ l ∈ lines, l.1 ≠ none := fun l hl => htext l (List.mem_cons_of_mem _ hl)
    have hblank' : (∀ l ∈ (some line, index) :: lines, ∀ line', l.1 = some line' → blank line' = true) →
        ∀ l ∈ lines, ∀ line, l.1 = some line → blank line = true :=
      fun h l hl => h l (List.mem_cons_of_mem _ hl)
    rw [lineEvents_cons] at hplain ⊢
    by_cases hskip : index < offset ∨ blank line = true
    · -- a row before the offset, or a blank one
      rw [if_pos hskip] at hplain ⊢
      obtain ⟨s', chunk, post, hread, hsplit, htook, hstop, hle, hpos, herr⟩ :=
        ih s htext' hplain hnone hlen
      exact ⟨s', chunk, post, (readLines_skip hskip lines s).trans hread, hsplit, htook, hstop, hle, hpos,
        fun h => herr (hblank' h)⟩
    rw [if_neg hskip] at hplain ⊢
    cases hparse : R.parseJson line with
    | error m =>
      simp only [hparse] at hplain ⊢
      obtain ⟨s', chunk, post, hread, hsplit, htook, hstop, hle, hpos, -⟩ :=
        ih (s.skip index m) htext' hplain hnone hlen
      refine ⟨s', chunk, post, (readLines_error hskip hparse lines s).trans hread, hsplit,
        (took_skip s index m).trans htook, hstop, hle, hpos, fun h => ?_⟩
      exact absurd (.inr (h _ List.mem_cons_self line rfl)) hskip
    | ok event =>
      simp only [hparse] at hplain ⊢
      obtain ⟨hobject, hshown⟩ := hplain _ List.mem_cons_self
      have hno : (∀ l ∈ (some line, index) :: lines, ∀ line', l.1 = some line' → blank line' = true) → False :=
        fun h => hskip (.inr (h _ List.mem_cons_self line rfl))
      let s₀ : Pass := { s with parsed := s.parsed + 1 }
      rcases accept_plain limit (s := s₀) index hobject hshown with
        ⟨haccept, hfull⟩ | ⟨s₁, haccept, htook, hnext, hparsed, hle⟩
      · exact ⟨s₀.stop index, [], _, readLines_stop hskip hparse haccept lines, rfl,
          ⟨rfl, rfl, (List.append_nil _).symm, fun _ => rfl⟩, .inr ⟨_, _, rfl, rfl, hfull⟩,
          Nat.le_succ _, fun _ => Nat.succ_pos _, fun h => (hno h).elim⟩
      · have hplain₁ : Plain R s₁.page.view s₁.page.source (rowsFrom offset (lineEvents R lines)) := by
          rw [htook.view, htook.source]
          exact fun e he => hplain e (List.mem_cons_of_mem _ he)
        obtain ⟨s', chunk, post, hread, hsplit, htook', hstop, hle', -, -⟩ :=
          ih s₁ htext' hplain₁ (hnext.trans hnone) (hle hlen)
        have hmore : s.parsed + 1 ≤ s'.parsed := hparsed.symm.le.trans hle'
        have htaken : Took R s s₁ [(event, index)] := ⟨htook.view, htook.source, htook.records, htook.count⟩
        exact ⟨s', (event, index) :: chunk, post,
          (readLines_go hskip hparse haccept lines).trans hread, by rw [hsplit]; rfl,
          htaken.trans htook', hstop, (Nat.le_succ _).trans hmore, fun _ => (Nat.succ_pos _).trans_le hmore,
          fun h => (hno h).elim⟩

/-! ## One pass -/

/-- A pass read some events of a session in full. -/
structure Passed (R : Reader) (located : Located) (view : View) (s : Pass) (chunk : List (Value × ℕ)) :
    Prop where
  records : s.page.records = shownRecords R view located.source chunk
  count : ∀ kind, s.tally.count kind = hiddenCount R view located.source kind chunk

theorem Passed.of_took {located : Located} {id : String} {view : View} {offset : ℕ} {s : Pass}
    {chunk : List (Value × ℕ)} (h : Took R ⟨firstPage located id view offset, ⟨∅, []⟩, 0, none⟩ s chunk) :
    Passed R located view s chunk where
  records := h.records.trans (List.nil_append _)
  count kind := (h.count kind).trans (Nat.zero_add _)

/-- A full page took something. -/
theorem Passed.ne_nil {located : Located} {view : View} {s : Pass} {chunk : List (Value × ℕ)}
    (h : Passed R located view s chunk) (hpos : 0 < s.page.records.length) : chunk ≠ [] := by
  rintro rfl
  rw [h.records] at hpos
  exact absurd hpos (Nat.lt_irrefl 0)

/-- The rows of a list from an offset on. -/
theorem rowsFrom_zipIdx (offset : ℕ) (events : List Value) :
    rowsFrom offset events.zipIdx = events.zipIdx.drop offset := by
  have hfrom : ∀ (events : List Value) (start : ℕ),
      rowsFrom offset (events.zipIdx start) = (events.zipIdx start).drop (offset - start) := by
    intro events
    induction events with
    | nil => simp [rowsFrom]
    | cons event events ih =>
      intro start
      rw [List.zipIdx_cons, rowsFrom_cons, ih]
      by_cases h : offset ≤ start
      · rw [if_pos h, Nat.sub_eq_zero_of_le h, Nat.sub_eq_zero_of_le (h.trans (Nat.le_succ _)), List.drop_zero,
          List.drop_zero]
      · obtain ⟨k, hk⟩ : ∃ k, offset - start = k + 1 := ⟨offset - start - 1, by omega⟩
        have hk' : offset - (start + 1) = k := by omega
        rw [if_neg h, hk, hk', List.drop_succ_cons]
  exact hfrom events 0

/-- Rows ascend. -/
theorem pairwise_zipIdx {α : Type*} (l : List α) : l.zipIdx.Pairwise fun a b => a.2 < b.2 := by
  have hrange : (l.zipIdx.map Prod.snd).Pairwise (· < ·) := by
    rw [List.zipIdx_map_snd]
    exact List.pairwise_lt_range'
  exact List.pairwise_map.mp hrange

theorem lineEvent_row {l : Option String × ℕ} {e : Value × ℕ} (h : lineEvent R l = some e) : e.2 = l.2 := by
  obtain ⟨line?, index⟩ := l
  cases line? with
  | none => cases h
  | some line =>
    by_cases hblank : blank line = true
    · simp [lineEvent, hblank] at h
    · obtain ⟨event, -, rfl⟩ : ∃ event, (R.parseJson line).toOption = some event ∧ (event, index) = e := by
        simpa [lineEvent, hblank] using h
      rfl

theorem pairwise_sessionEvents (located : Located) :
    (sessionEvents R located).Pairwise fun a b => a.2 < b.2 := by
  rw [sessionEvents]
  split
  · exact pairwise_zipIdx _
  · refine (pairwise_zipIdx _).filterMap _ fun l l' hlt e he e' he' => ?_
    rw [lineEvent_row he, lineEvent_row he']
    exact hlt

/-- At an offset that a client reads at, nothing left means nothing at all. -/
theorem eq_nil_of_rowsFrom {rows : List (Value × ℕ)} {offset : ℕ}
    (hoffset : offset = 0 ∨ ∃ e ∈ rows, e.2 = offset) (h : rowsFrom offset rows = []) : rows = [] := by
  rcases hoffset with rfl | ⟨e, he, rfl⟩
  · simpa [rowsFrom] using h
  · have hmem : e ∈ rowsFrom e.2 rows := List.mem_filter.mpr ⟨he, by simp⟩
    rw [h] at hmem
    cases hmem

theorem readPass_readsChunk {located : Located} {view : View} (h : Readable R located view) (id : String)
    {limit : ℕ} (hlimit : 1 ≤ limit) (offset : ℕ)
    (hoffset : offset = 0 ∨ ∃ e ∈ sessionEvents R located, e.2 = offset) :
    ReadsChunk (fun offset => readPass R located id view offset limit none) (fun s => s.page.nextOffset)
      (Passed R located view) (sessionEvents R located) offset := by
  have hplain : Plain R view located.source (rowsFrom offset (sessionEvents R located)) := fun e he =>
    ⟨h.object e (List.mem_of_mem_filter he), h.projected e (List.mem_of_mem_filter he)⟩
  have hstop : ∀ {s : Pass} {chunk post : List (Value × ℕ)}, Passed R located view s chunk →
      StopsAt limit s post →
      (post = [] ∧ s.page.nextOffset = none ∨
        ∃ e rest, post = e :: rest ∧ s.page.nextOffset = some e.2 ∧ chunk ≠ []) := by
    rintro s chunk post hpassed (hend | ⟨e, rest, hpost, hnext, hfull⟩)
    · exact .inl hend
    · exact .inr ⟨e, rest, hpost, hnext, hpassed.ne_nil (hfull.symm ▸ hlimit)⟩
  cases hdocument : located.isDocument with
  | true =>
    obtain ⟨events, hload⟩ := h.document hdocument
    have hevents : sessionEvents R located = events.zipIdx := by
      rw [sessionEvents, if_pos hdocument, hload]
      rfl
    rw [hevents, rowsFrom_zipIdx] at hplain
    obtain ⟨s, chunk, post, hread, hsplit, htook, hend⟩ :=
      readEvents_spec limit _ ⟨firstPage located id view offset, ⟨∅, []⟩, 0, none⟩ hplain rfl
        (Nat.zero_le _)
    refine ⟨s, chunk, post, ?_, .of_took htook, ?_, hstop (.of_took htook) hend⟩
    · simp only [readPass, if_pos hdocument, hload]
      exact hread
    · rw [hevents, rowsFrom_zipIdx, hsplit]
  | false =>
    have hevents : sessionEvents R located = lineEvents R (bufLines located.content).zipIdx := by
      rw [sessionEvents, if_neg (by simp [hdocument])]
    have htext : ∀ l ∈ (bufLines located.content).zipIdx, l.1 ≠ none := by
      rintro ⟨line?, index⟩ hl rfl
      exact h.text hdocument (List.fst_mem_of_mem_zipIdx hl)
    rw [hevents] at hplain
    obtain ⟨s, chunk, post, hread, hsplit, htook, hend, -, hparsed, herror⟩ :=
      readLines_spec limit _ ⟨firstPage located id view offset, ⟨∅, []⟩, 0, none⟩ htext hplain rfl
        (Nat.zero_le _)
    have hcheck : checkReadable s = .ok s := by
      rw [checkReadable]
      by_cases hempty : s.parsed = 0 ∧ s.page.records = []
      · have hrows : rowsFrom offset (sessionEvents R located) = [] := by
          by_contra hne
          exact absurd hempty.1 (hparsed (hevents ▸ hne)).ne'
        have hnil := eq_nil_of_rowsFrom hoffset hrows
        have hblank := (h.parsed hdocument).resolve_left (not_not_intro hnil)
        have hnone : s.firstError = none := herror fun l hl line hline =>
          hblank line (hline ▸ List.fst_mem_of_mem_zipIdx hl)
        rw [if_pos hempty, hnone]
      · rw [if_neg hempty]
    refine ⟨s, chunk, post, ?_, .of_took htook, hevents ▸ hsplit, hstop (.of_took htook) hend⟩
    simp only [readPass, hdocument, Bool.false_eq_true, if_false, hread]
    exact hcheck

/-! ## All passes -/

/-- What `read` makes of a pass. -/
def Pass.finish (view : View) (s : Pass) : Page :=
  let page := { s.page with warnings := s.page.warnings ++ s.tally.report view }
  if isLinked view page.source then { page with records := linkIndex page.records } else page

theorem Pass.nextOffset_finish (view : View) (s : Pass) : (s.finish view).nextOffset = s.page.nextOffset := by
  rw [Pass.finish]
  split <;> rfl

theorem View.parse?_asStr (view : View) : View.parse? view.asStr = some view := by
  cases view <;> decide

theorem read_of_readPass {located : Located} {id : String} {view : View} {offset limit : ℕ} (h1 : 1 ≤ limit)
    (h100 : limit ≤ 100) {s : Pass} (h : readPass R located id view offset limit none = .ok s) :
    read R located id view.asStr offset limit = .ok (s.finish view) := by
  rw [read, View.parse?_asStr]
  simp only [h1, h100, and_self, not_true_eq_false, if_false, readLocated, h]
  rfl

/-- The pages of a session show every event that the view shows, once and in order, and count the rest. -/
theorem pages_complete {located : Located} {view : View} (h : Readable R located view) (id : String)
    {limit : ℕ} (h1 : 1 ≤ limit) (h100 : limit ≤ 100) :
    ∃ passes : List Pass,
      Walk (fun offset => readPass R located id view offset limit none) (fun s => s.page.nextOffset) 0 passes ∧
      Walk (fun offset => read R located id view.asStr offset limit) Page.nextOffset 0
        (passes.map (Pass.finish view)) ∧
      passes.flatMap (fun s => s.page.records) =
        shownRecords R view located.source (sessionEvents R located) ∧
      ∀ kind, (passes.map fun s => s.tally.count kind).sum =
        hiddenCount R view located.source kind (sessionEvents R located) := by
  obtain ⟨passes, chunks, hwalk, hchunks, hflat⟩ := exists_walk (pairwise_sessionEvents located)
    fun offset hoffset => readPass_readsChunk h id h1 offset hoffset
  refine ⟨passes, hwalk, hwalk.map (fun offset s hs => read_of_readPass h1 h100 hs)
    fun s => s.nextOffset_finish view, ?_, fun kind => ?_⟩
  · rw [← hflat]
    clear hwalk hflat
    induction hchunks with
    | nil => rfl
    | cons hpassed _ ih =>
      rw [List.flatMap_cons, List.flatten_cons, ih, hpassed.records, shownRecords, shownRecords, shownRecords,
        List.filterMap_append]
  · rw [← hflat]
    clear hwalk hflat
    induction hchunks with
    | nil => rfl
    | cons hpassed _ ih =>
      rw [List.map_cons, List.sum_cons, List.flatten_cons, ih, hpassed.count, hiddenCount, hiddenCount,
        hiddenCount, List.countP_append]

/-! ## A stray line -/

/-- A reader that knows the empty object. -/
def emptyReader : Reader where
  parseJson s :=
    if s = "\x7b\x7d" then .ok (.object []) else .error "expected value at line 1 column 1"
  projection _ _ _ := .ok none

/-- Two empty events, with a stray line and a blank one between them. -/
def strayLine : Located := ⟨.antigravity, "s.jsonl", false, "\x7b\x7d\n?\n \n\x7b\x7d\n".toUTF8⟩

/-- Nothing but a stray line. -/
def onlyStray : Located := ⟨.antigravity, "s.jsonl", false, "?\n".toUTF8⟩

theorem readable_strayLine : Readable emptyReader strayLine .events where
  document h := by cases h
  text _ := by decide
  parsed _ := .inl (by decide)
  object := by decide
  projected e _ := ⟨some e.1, rfl⟩

/-- Page by page the second event follows the first, whatever lies between them. -/
theorem pages_complete_strayLine :
    ∃ passes : List Pass,
      Walk (fun offset => readPass emptyReader strayLine "s" .events offset 1 none) (fun s => s.page.nextOffset) 0
        passes ∧
      Walk (fun offset => read emptyReader strayLine "s" View.events.asStr offset 1) Page.nextOffset 0
        (passes.map (Pass.finish .events)) ∧
      passes.flatMap (fun s => s.page.records) = shownRecords emptyReader .events .antigravity
        (sessionEvents emptyReader strayLine) ∧
      ∀ kind, (passes.map fun s => s.tally.count kind).sum =
        hiddenCount emptyReader .events .antigravity kind (sessionEvents emptyReader strayLine) :=
  pages_complete readable_strayLine "s" le_rfl (by decide)

/-- A session that is nothing but a stray line fails at its first page. -/
theorem onlyStray_unreadable :
    ¬∃ pages, Walk (fun offset => read emptyReader onlyStray "s" "dialogue" offset 1) Page.nextOffset 0 pages := by
  rintro ⟨pages, hwalk⟩
  have hread : read emptyReader onlyStray "s" "dialogue" 0 1 =
      .error ⟨"invalid transcript JSON at s.jsonl:1: expected value at line 1 column 1"⟩ := by decide
  cases hwalk with
  | last h _ => rw [hread] at h; cases h
  | more h _ _ _ => rw [hread] at h; cases h

end Innen.Conversation
