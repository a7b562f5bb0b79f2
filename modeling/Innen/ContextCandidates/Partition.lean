import Innen.ContextCandidates.Model

/-!
# Candidates partition their events

The loop over the lines of an event takes whole lines, so its candidates tile the text (`walkLines_added`), and the
headings and blocks that it has in mind are candidates of the same event. Over all events, `PartitionOf` is kept by each
event with a new id (`PartitionOf.concat`), and `extract` fails for an id that comes twice only (`extract_partition`).
-/

namespace Innen.ContextCandidates

open Common

/-! ## What a partition is -/

/-- Spans of a text that follow one another from a place to another, none of them empty, and each between characters. -/
inductive Tiles (text : String) : ℕ → List Candidate → ℕ → Prop
  | nil (place : ℕ) : Tiles text place [] place
  | cons {c : Candidate} {rest : List Candidate} {finish : ℕ} : c.startByte < c.endByte →
      isCharBoundary text c.startByte = true → isCharBoundary text c.endByte = true →
      Tiles text c.endByte rest finish → Tiles text c.startByte (c :: rest) finish

/-- The latest event of the assistant that has a text. -/
def latestAssistant (events : List TextEvent) : Option TextEvent :=
  (events.filter fun event => event.role = "assistant" ∧ event.text ≠ "").getLast?

/-- Candidates that partition the texts of events, numbered from 0 on, with earlier ones of the same event or of the
assistant's latest one as their context. -/
structure PartitionOf (events : List TextEvent) (spans : List Candidate) : Prop where
  ids : spans.map (·.id) = List.range spans.length
  known : ∀ c ∈ spans, c.event ∈ events.map (·.id)
  tiles : ∀ event ∈ events,
    Tiles event.text 0 (spans.filter fun c => c.event = event.id) event.text.utf8ByteSize
  context : ∀ before event after, events = before ++ event :: after → ∀ c ∈ spans, c.event = event.id →
    ∀ i ∈ c.context, ∃ earlier ∈ spans, earlier.id = i ∧ i < c.id ∧
      (earlier.event = event.id ∨ ∃ assistant, latestAssistant before = some assistant ∧ earlier.event = assistant.id)

theorem Tiles.append {text : String} {start mid finish : ℕ} {xs ys : List Candidate} (hx : Tiles text start xs mid)
    (hy : Tiles text mid ys finish) : Tiles text start (xs ++ ys) finish := by
  induction hx with
  | nil => exact hy
  | cons hlt hstart hend _ ih => exact .cons hlt hstart hend (ih hy)

theorem latestAssistant_concat (events : List TextEvent) (event : TextEvent) :
    latestAssistant (events ++ [event]) =
      if event.role = "assistant" ∧ event.text ≠ "" then some event else latestAssistant events := by
  rw [latestAssistant, List.filter_append]
  split_ifs with h
  · rw [List.filter_cons_of_pos (by simpa using h), List.filter_nil, List.getLast?_concat]
  · rw [List.filter_cons_of_neg (by simpa using h), List.filter_nil, List.append_nil, latestAssistant]

/-! ## The candidates of one event -/

/-- The candidates of an event that follow earlier ones, with the latest candidates of the assistant. -/
structure Added (old : List Candidate) (event : TextEvent) (prior : List ℕ) (added : List Candidate) : Prop where
  ids : added.map (·.id) = List.range' old.length added.length
  events : ∀ c ∈ added, c.event = event.id
  tiles : Tiles event.text 0 added event.text.utf8ByteSize
  context : ∀ c ∈ added, ∀ i ∈ c.context, (old.length ≤ i ∧ i < c.id) ∨ i ∈ prior

/-- What the loop over the lines of an event has, with the lines that are left. -/
structure Walked (event : TextEvent) (old added : List Candidate) (walk : Walk) (rest : List String) : Prop where
  spans : walk.spans = old ++ added
  ids : added.map (·.id) = List.range' old.length added.length
  events : ∀ c ∈ added, c.event = event.id
  tiles : Tiles event.text 0 added walk.offset
  context : ∀ c ∈ added, ∀ i ∈ c.context, old.length ≤ i ∧ i < c.id
  headings : ∀ h ∈ walk.headings, old.length ≤ h.2 ∧ h.2 < walk.spans.length
  previous : ∀ i, walk.previousNonblank = some i → old.length ≤ i ∧ i < walk.spans.length
  text : ∃ front, event.text = front ++ String.join rest ∧ front.utf8ByteSize = walk.offset
  lines : ∀ line ∈ rest, line ≠ ""

variable (lower : String → String)

theorem mem_blockContext {kind : Kind} {headings : List (ℕ × ℕ)} {previous : Option ℕ} {i : ℕ}
    (h : i ∈ blockContext kind headings previous) : (∃ above ∈ headings, above.2 = i) ∨ previous = some i := by
  have hcontext : i ∈ (headings.head?.map Prod.snd).toList → ∃ above ∈ headings, above.2 = i := by
    rcases headings with _ | ⟨above, headings⟩
    · exact fun h => absurd h List.not_mem_nil
    · exact fun h => ⟨above, List.mem_cons_self, (List.mem_singleton.mp h).symm⟩
  unfold blockContext at h
  dsimp only at h
  split_ifs at h with hkind
  · rcases previous with _ | previous
    · exact .inl (hcontext h)
    · dsimp only at h
      split_ifs at h with hmem
      · exact .inl (hcontext h)
      · rcases List.mem_append.mp h with h | h
        · exact .inl (hcontext h)
        · exact .inr (by rw [List.mem_singleton.mp h])
  · exact .inl (hcontext h)

theorem mem_openHeadings {level : Option ℕ} {headings : List (ℕ × ℕ)} {h : ℕ × ℕ}
    (hmem : h ∈ openHeadings level headings) : h ∈ headings := by
  rcases level with _ | level
  · exact hmem
  · exact (List.dropWhile_suffix _).subset hmem

theorem utf8ByteSize_join (ss : List String) : (String.join ss).utf8ByteSize = (ss.map String.utf8ByteSize).sum := by
  induction ss with
  | nil => rfl
  | cons s ss ih => rw [String.join_cons, String.utf8ByteSize_append, ih, List.map_cons, List.sum_cons]

/-- A round of the loop over the lines, where the text can be cut. -/
theorem Walk.next_eq {event : TextEvent} {walk : Walk} {line block : String} {rest : List String}
    (hsize : block.utf8ByteSize = ((line :: rest.take (blockAt line rest).more).map String.utf8ByteSize).sum)
    (hslice : slice event.text walk.offset (walk.offset + block.utf8ByteSize) = some block) :
    ∃ c : Candidate, walk.next lower event line rest = some {
        spans := walk.spans ++ [c]
        offset := walk.offset + block.utf8ByteSize
        headings := ((heading line).map fun level => (level, walk.spans.length)).toList ++
          openHeadings (heading line) walk.headings
        previousNonblank :=
          if (blockAt line rest).kind = .whitespace then walk.previousNonblank else some walk.spans.length } ∧
      c.id = walk.spans.length ∧ c.event = event.id ∧ c.startByte = walk.offset ∧
      c.endByte = walk.offset + block.utf8ByteSize ∧
      c.context = blockContext (blockAt line rest).kind (openHeadings (heading line) walk.headings)
        walk.previousNonblank := by
  refine ⟨⟨walk.spans.length, event.id, walk.offset, walk.offset + block.utf8ByteSize, (blockAt line rest).kind,
    blockContext (blockAt line rest).kind (openHeadings (heading line) walk.headings) walk.previousNonblank,
    cues lower block ++ if (blockAt line rest).unclosed then [.unclosedFencePreservedToEnd] else []⟩,
    ?_, rfl, rfl, rfl, rfl, rfl⟩
  rw [Walk.next, ← hsize]
  dsimp only
  rw [hslice]
  rfl

/-- A round of the loop over the lines adds one candidate. -/
theorem Walked.next {event : TextEvent} {old added : List Candidate} {walk : Walk} {line : String} {rest : List String}
    (h : Walked event old added walk (line :: rest)) : ∃ c walk', walk.next lower event line rest = some walk' ∧
      Walked event old (added ++ [c]) walk' (rest.drop (blockAt line rest).more) := by
  obtain ⟨front, htext, hfront⟩ := h.text
  have hlen : walk.spans.length = old.length + added.length := by rw [h.spans, List.length_append]
  obtain ⟨block, hblock⟩ : ∃ block, block = String.join (line :: rest.take (blockAt line rest).more) := ⟨_, rfl⟩
  have hsplit : event.text = front ++ block ++ String.join (rest.drop (blockAt line rest).more) := by
    rw [htext, hblock, String.append_assoc, ← String.join_append, List.cons_append, List.take_append_drop]
  have hsize : block.utf8ByteSize = ((line :: rest.take (blockAt line rest).more).map String.utf8ByteSize).sum :=
    hblock ▸ utf8ByteSize_join _
  have hpos : 0 < block.utf8ByteSize := by
    have hline : line.utf8ByteSize ≠ 0 := fun h0 =>
      h.lines line List.mem_cons_self (String.utf8ByteSize_eq_zero_iff.mp h0)
    rw [hsize, List.map_cons, List.sum_cons]
    omega
  have hslice : slice event.text walk.offset (walk.offset + block.utf8ByteSize) = some block := by
    rw [hsplit, ← hfront]
    exact slice_append _ _ _
  have hheadings : ∀ above ∈ openHeadings (heading line) walk.headings,
      old.length ≤ above.2 ∧ above.2 < walk.spans.length := fun above hmem => h.headings above (mem_openHeadings hmem)
  obtain ⟨c, hnext, hid, hevent, hstart, hend, hcontext⟩ := Walk.next_eq lower hsize hslice
  refine ⟨c, _, hnext, ⟨?_, ?_, ?_, ?_, ?_, ?_, ?_, ?_, ?_⟩⟩
  · rw [h.spans, List.append_assoc]
  · rw [List.map_append, h.ids, List.length_append, List.length_singleton, ← List.range'_append_1, ← hlen,
      List.map_singleton, hid]
    rfl
  · intro d hd
    rcases List.mem_append.mp hd with hd | hd
    · exact h.events d hd
    · rw [List.mem_singleton.mp hd, hevent]
  · have hcut : isCharBoundary event.text walk.offset = true := isCharBoundary_iff.mpr ⟨front, _, htext, hfront⟩
    have hcut' : isCharBoundary event.text (walk.offset + block.utf8ByteSize) = true :=
      isCharBoundary_iff.mpr ⟨front ++ block, _, hsplit, by rw [String.utf8ByteSize_append, hfront]⟩
    rw [← hstart] at hcut
    rw [← hend] at hcut' ⊢
    refine h.tiles.append ?_
    rw [← hstart]
    exact .cons (by omega) hcut hcut' (.nil _)
  · intro d hd i hi
    rcases List.mem_append.mp hd with hd | hd
    · exact h.context d hd i hi
    · rw [List.mem_singleton.mp hd] at hi ⊢
      rw [hcontext] at hi
      rw [hid]
      rcases mem_blockContext hi with ⟨above, hmem, rfl⟩ | hprevious
      · exact hheadings above hmem
      · exact h.previous i hprevious
  · intro entry hmem
    rw [List.length_append, List.length_singleton]
    rcases List.mem_append.mp hmem with hmem | hmem
    · obtain ⟨level, -, rfl⟩ := Option.map_eq_some_iff.mp (Option.mem_toList.mp hmem)
      exact ⟨by omega, Nat.lt_succ_self _⟩
    · exact ⟨(hheadings entry hmem).1, Nat.lt_succ_of_lt (hheadings entry hmem).2⟩
  · intro i hi
    rw [List.length_append, List.length_singleton]
    dsimp only at hi
    split_ifs at hi with hblank
    · exact ⟨(h.previous i hi).1, Nat.lt_succ_of_lt (h.previous i hi).2⟩
    · rw [← Option.some.inj hi]
      exact ⟨by omega, Nat.lt_succ_self _⟩
  · refine ⟨front ++ block, hsplit, ?_⟩
    rw [String.utf8ByteSize_append, hfront]
  · exact fun other hmem => h.lines other (List.mem_cons_of_mem _ (List.mem_of_mem_drop hmem))

/-- The loop over the lines of an event goes to the end of its text. -/
theorem Walked.lines_left {event : TextEvent} {old added : List Candidate} {walk : Walk} {rest : List String}
    (h : Walked event old added walk rest) : ∃ added' walk', walkLines lower event walk rest = some walk' ∧
      Walked event old added' walk' [] := by
  induction hsize : rest.length using Nat.strong_induction_on generalizing added walk rest with
  | _ size ih =>
  rcases rest with _ | ⟨line, rest⟩
  · exact ⟨added, walk, by rw [walkLines], h⟩
  · obtain ⟨c, next, hnext, hwalked⟩ := h.next lower
    have hless : (rest.drop (blockAt line rest).more).length < size := by
      rw [← hsize, List.length_drop, List.length_cons]
      omega
    obtain ⟨added', walk', hrun, hdone⟩ := ih _ hless hwalked rfl
    exact ⟨added', walk', by rw [walkLines, hnext]; exact hrun, hdone⟩

/-- The loop over the lines of an event gives its candidates. -/
theorem walkLines_added (event : TextEvent) (old : List Candidate) : ∃ added walk,
    walkLines lower event ⟨old, 0, [], none⟩ (lineTexts event.text) = some walk ∧ walk.spans = old ++ added ∧
      added.map (·.id) = List.range' old.length added.length ∧ (∀ c ∈ added, c.event = event.id) ∧
      Tiles event.text 0 added event.text.utf8ByteSize ∧ ∀ c ∈ added, ∀ i ∈ c.context, old.length ≤ i ∧ i < c.id := by
  have hjoin : String.join (lineTexts event.text) = event.text := by
    refine String.toList_inj.mp ?_
    rw [String.toList_join, lineTexts, List.flatMap_def, List.map_map]
    simp [Function.comp_def, splitInclusive_flatten]
  have hne : ∀ line ∈ lineTexts event.text, line ≠ "" := by
    intro line hline
    obtain ⟨piece, hpiece, rfl⟩ := List.mem_map.mp hline
    exact fun hempty => ne_nil_of_mem_splitInclusive hpiece (String.ofList_inj.mp hempty)
  have hstart : Walked event old [] ⟨old, 0, [], none⟩ (lineTexts event.text) :=
    ⟨(List.append_nil old).symm, rfl, fun c hc => absurd hc List.not_mem_nil, .nil 0,
      fun c hc => absurd hc List.not_mem_nil, fun h hh => absurd hh List.not_mem_nil, fun i hi => absurd hi (by simp),
      ⟨"", by rw [hjoin, String.empty_append], rfl⟩, hne⟩
  obtain ⟨added, walk, hrun, hwalked⟩ := hstart.lines_left lower
  obtain ⟨front, htext, hfront⟩ := hwalked.text
  have hoffset : walk.offset = event.text.utf8ByteSize := by
    rw [htext, ← hfront, String.join_nil, String.append_empty]
  exact ⟨added, walk, hrun, hwalked.spans, hwalked.ids, hwalked.events, hoffset ▸ hwalked.tiles, hwalked.context⟩

/-- A round of the loop over the events adds the candidates of the event. -/
theorem State.next_added (state : State) (event : TextEvent) : ∃ next added, state.next lower event = some next ∧
    next.seen = event.id :: state.seen ∧ next.spans = state.spans ++ added ∧
    Added state.spans event state.priorAssistant added ∧
    next.priorAssistant =
      if event.role = "assistant" ∧ event.text ≠ "" then added.map (·.id) else state.priorAssistant := by
  unfold State.next
  by_cases hempty : event.text = ""
  · rw [if_pos hempty]
    refine ⟨_, [], rfl, rfl, (List.append_nil _).symm, ⟨rfl, ?_, ?_, ?_⟩, (if_neg fun h => h.2 hempty).symm⟩
    · exact fun c hc => absurd hc List.not_mem_nil
    · rw [hempty]
      exact .nil 0
    · exact fun c hc => absurd hc List.not_mem_nil
  · rw [if_neg hempty]
    by_cases huser : event.role = "user"
    · rw [if_pos huser]
      have hpos : 0 < event.text.utf8ByteSize :=
        Nat.pos_of_ne_zero fun h => hempty (String.utf8ByteSize_eq_zero_iff.mp h)
      refine ⟨_, [userCandidate lower state.spans.length event state.priorAssistant], rfl, rfl, rfl,
        ⟨rfl, ?_, ?_, ?_⟩, (if_neg fun h => ?_).symm⟩
      · exact fun c hc => by rw [List.mem_singleton.mp hc]; rfl
      · exact Tiles.cons (c := userCandidate lower state.spans.length event state.priorAssistant) hpos
          (isCharBoundary_zero _) (isCharBoundary_utf8ByteSize _) (.nil _)
      · intro c hc i hi
        rw [List.mem_singleton.mp hc, userCandidate] at hi
        dsimp only at hi
        split_ifs at hi
        · exact .inr hi
        · exact absurd hi List.not_mem_nil
      · rw [huser] at h
        exact absurd h.1 (by decide)
    · rw [if_neg huser]
      obtain ⟨added, walk, hrun, hspans, hids, hevents, htiles, hcontext⟩ := walkLines_added lower event state.spans
      rw [hrun]
      refine ⟨_, added, rfl, rfl, hspans, ⟨hids, hevents, htiles, fun c hc i hi => .inl (hcontext c hc i hi)⟩, ?_⟩
      have hcount : walk.spans.length - state.spans.length = added.length := by
        rw [hspans, List.length_append, Nat.add_sub_cancel_left]
      dsimp only
      rw [hcount, ← hids]
      split_ifs with hrole hboth hboth
      · rfl
      · exact absurd ⟨hrole, hempty⟩ hboth
      · exact absurd hboth.1 hrole
      · rfl

/-! ## The candidates of all events -/

/-- Earlier candidates and those of an event with a new id partition the events together. -/
theorem PartitionOf.concat {events : List TextEvent} {spans added : List Candidate} {event : TextEvent} {prior : List ℕ}
    (h : PartitionOf events spans) (hnew : event.id ∉ events.map (·.id)) (hadded : Added spans event prior added)
    (hprior : ∀ i ∈ prior, ∃ assistant, latestAssistant events = some assistant ∧
      ∃ c ∈ spans, c.id = i ∧ c.event = assistant.id) : PartitionOf (events ++ [event]) (spans ++ added) := by
  have hids : (spans ++ added).map (·.id) = List.range (spans ++ added).length := by
    rw [List.map_append, h.ids, hadded.ids, List.range_eq_range', List.range_eq_range', List.length_append,
      ← List.range'_append_1, Nat.zero_add]
  have hold : ∀ c ∈ spans, c.event ≠ event.id := fun c hc heq => hnew (heq ▸ h.known c hc)
  refine ⟨hids, ?_, ?_, ?_⟩
  · intro c hc
    rw [List.map_append, List.mem_append]
    rcases List.mem_append.mp hc with hc | hc
    · exact .inl (h.known c hc)
    · exact .inr (List.mem_singleton.mpr (hadded.events c hc))
  · intro other hother
    rw [List.filter_append]
    rcases List.mem_append.mp hother with hother | hother
    · have hne : other.id ≠ event.id := fun heq => hnew (heq ▸ List.mem_map_of_mem hother)
      have hnone : added.filter (fun c => c.event = other.id) = [] := List.filter_eq_nil_iff.mpr fun c hc => by
        rw [hadded.events c hc]
        simpa using hne.symm
      rw [hnone, List.append_nil]
      exact h.tiles other hother
    · rw [List.mem_singleton.mp hother]
      have hnone : spans.filter (fun c => c.event = event.id) = [] := List.filter_eq_nil_iff.mpr fun c hc => by
        simpa using hold c hc
      have hall : added.filter (fun c => c.event = event.id) = added := List.filter_eq_self.mpr fun c hc => by
        simpa using hadded.events c hc
      rw [hnone, hall, List.nil_append]
      exact hadded.tiles
  · intro before other after hsplit c hc hcother i hi
    rcases List.eq_nil_or_concat after with rfl | ⟨after', last, rfl⟩
    · obtain ⟨rfl, heq⟩ := List.append_inj' hsplit rfl
      obtain rfl := List.singleton_inj.mp heq
      rcases List.mem_append.mp hc with hc | hc
      · exact absurd hcother (hold c hc)
      · rcases hadded.context c hc i hi with ⟨hfirst, hless⟩ | hmem
        · have hc' : c.id ∈ List.range' spans.length added.length := hadded.ids ▸ List.mem_map_of_mem hc
          have hi' : i ∈ added.map (·.id) := by
            rw [hadded.ids, List.mem_range'_1]
            exact ⟨hfirst, hless.trans (List.mem_range'_1.mp hc').2⟩
          obtain ⟨earlier, hearlier, rfl⟩ := List.mem_map.mp hi'
          exact ⟨earlier, List.mem_append_right _ hearlier, rfl, hless, .inl (hadded.events earlier hearlier)⟩
        · obtain ⟨assistant, hlatest, earlier, hearlier, rfl, hevent⟩ := hprior i hmem
          have hearlier' : earlier.id ∈ List.range spans.length := h.ids ▸ List.mem_map_of_mem hearlier
          have hc' : c.id ∈ List.range' spans.length added.length := hadded.ids ▸ List.mem_map_of_mem hc
          exact ⟨earlier, List.mem_append_left _ hearlier, rfl,
            (List.mem_range.mp hearlier').trans_le (List.mem_range'_1.mp hc').1, .inr ⟨assistant, hlatest, hevent⟩⟩
    · rw [List.concat_eq_append, ← List.cons_append, ← List.append_assoc] at hsplit
      obtain ⟨hevents, -⟩ := List.append_inj' hsplit rfl
      have hother : other ∈ events := hevents ▸ List.mem_append_right _ List.mem_cons_self
      rcases List.mem_append.mp hc with hc | hc
      · obtain ⟨earlier, hearlier, hearlier'⟩ := h.context before other after' hevents c hc hcother i hi
        exact ⟨earlier, List.mem_append_left _ hearlier, hearlier'⟩
      · exact absurd (List.mem_map.mpr ⟨other, hother, by rw [← hcother, hadded.events c hc]⟩) hnew

/-- Where the loop over the events is behind some events. -/
structure Extracted (events : List TextEvent) (state : State) : Prop where
  seen : ∀ i, i ∈ state.seen ↔ i ∈ events.map (·.id)
  partition : PartitionOf events state.spans
  prior : ∀ i ∈ state.priorAssistant, ∃ assistant, latestAssistant events = some assistant ∧
    ∃ c ∈ state.spans, c.id = i ∧ c.event = assistant.id

/-- A round of the loop over the events, for an event with a new id. -/
theorem Extracted.next {events : List TextEvent} {state : State} (h : Extracted events state) {event : TextEvent}
    (hnew : event.id ∉ state.seen) :
    ∃ next, state.next lower event = some next ∧ Extracted (events ++ [event]) next := by
  obtain ⟨next, added, hnext, hseen, hspans, hadded, hprior⟩ := state.next_added lower event
  refine ⟨next, hnext, ⟨fun i => ?_, ?_, fun i hi => ?_⟩⟩
  · rw [hseen, List.mem_cons, h.seen, List.map_append, List.mem_append, or_comm]
    simp
  · rw [hspans]
    exact h.partition.concat (fun hmem => hnew ((h.seen _).mpr hmem)) hadded h.prior
  · rw [latestAssistant_concat, hspans]
    rw [hprior] at hi
    split_ifs at hi ⊢ with hrole
    · obtain ⟨c, hc, rfl⟩ := List.mem_map.mp hi
      exact ⟨event, rfl, c, List.mem_append_right _ hc, rfl, hadded.events c hc⟩
    · obtain ⟨assistant, hlatest, c, hc, hid⟩ := h.prior i hi
      exact ⟨assistant, hlatest, c, List.mem_append_left _ hc, hid⟩

theorem extractFrom_eq {events : List TextEvent} {state : State} (h : Extracted events state) (rest : List TextEvent)
    (hevents : (events.map (·.id)).Nodup) :
    (((events ++ rest).map (·.id)).Nodup ∧ ∃ spans, PartitionOf (events ++ rest) spans ∧
      extractFrom lower state rest = some (.ok ⟨"complete_source_partition; semantic_candidates_unverified", spans⟩)) ∨
    (¬((events ++ rest).map (·.id)).Nodup ∧ extractFrom lower state rest = some (.error "duplicate event ID")) := by
  induction rest generalizing events state with
  | nil =>
    rw [List.append_nil]
    exact .inl ⟨hevents, state.spans, h.partition, rfl⟩
  | cons event rest ih =>
    rw [extractFrom]
    split_ifs with hseen
    · refine .inr ⟨fun hnodup => ?_, rfl⟩
      rw [List.map_append, List.map_cons] at hnodup
      exact (List.nodup_append.mp hnodup).2.2 _ ((h.seen _).mp hseen) _ List.mem_cons_self rfl
    · obtain ⟨next, hnext, hextracted⟩ := h.next lower hseen
      have hnodup : ((events ++ [event]).map (·.id)).Nodup := by
        rw [List.map_append, List.map_singleton]
        refine List.nodup_append.mpr ⟨hevents, List.pairwise_singleton _ _, fun a ha b hb heq => ?_⟩
        rw [heq, List.mem_singleton.mp hb] at ha
        exact hseen ((h.seen _).mpr ha)
      rw [hnext, Option.bind_some]
      have hrest := ih hextracted hnodup
      rwa [List.append_assoc, List.singleton_append] at hrest

/-- `extract` returns for all events. It fails exactly where two events have one id; else its candidates partition the
events. -/
theorem extract_partition (events : List TextEvent) :
    ((events.map (·.id)).Nodup ∧ ∃ spans, PartitionOf events spans ∧
      extract lower events = some (.ok ⟨"complete_source_partition; semantic_candidates_unverified", spans⟩)) ∨
    (¬(events.map (·.id)).Nodup ∧ extract lower events = some (.error "duplicate event ID")) := by
  have hstart : Extracted [] ⟨[], [], []⟩ :=
    ⟨fun i => Iff.rfl, ⟨rfl, fun c hc => absurd hc List.not_mem_nil, fun event hevent => absurd hevent List.not_mem_nil,
      fun before event after hsplit => absurd hsplit (by simp)⟩, fun i hi => absurd hi List.not_mem_nil⟩
  exact extractFrom_eq lower hstart events .nil

end Innen.ContextCandidates
