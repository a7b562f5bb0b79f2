import Innen.SemanticProposals.Model

/-!
# What a review packet establishes

When `validateSource` ends well, the ids are unique, the supersedes edges stay among the assertions and have no cycle,
every quote is what the source has at its span, and a tail check that passed shows a complete tail of the source in
which the assistant says nothing (`validateSource_sound`). Each loop gets an invariant about the events or the
assertions it went through.
-/

namespace Innen.SemanticProposals

open Innen.Common Relation

variable (L : Library)

/-! ## The statement -/

/-- The events of a source, in its order. -/
def Transcript (raw : ByteArray) (events : List Value) : Prop :=
  ∃ source, String.fromUTF8? raw = some source ∧
    List.Forall₂ (fun line event => L.parseValue line = some event) (sourceLines source) events

/-- The step of an event. -/
def step (event : Value) : Option ℕ := (event.index "step_index").asU64?

/-- An assertion supersedes another id. -/
def Supersedes (assertions : List Assertion) (a b : String) : Prop := ∃ x ∈ assertions, x.id = a ∧ b ∈ x.supersedes

/-- The quote is, byte by byte, the cited span of the text at the cited place of the cited event. -/
def Quoted (events : List Value) (c : Citation) : Prop :=
  ∃ event ∈ events, step event = some c.event ∧ ∃ text, event.pointer c.pointer = some (.string text) ∧
    c.startByte < c.endByte ∧ c.endByte ≤ (utf8Bytes text.toList).length ∧
    ((utf8Bytes text.toList).drop c.startByte).take (c.endByte - c.startByte) = utf8Bytes c.quote.toList

/-- The event is no response of the assistant, or one whose content is complete and is missing, null or blank. -/
def Silent (event : Value) : Prop :=
  hasType event "PLANNER_RESPONSE" = true → contentTruncated event = false ∧
    (event.get? "content" = none ∨ event.get? "content" = some .null ∨
      ∃ s, event.get? "content" = some (.string s) ∧ blank s = true)

/-- The source ends with a user event and silent events that follow it step by step. -/
def TailAbsent (events : List Value) (check : TailCheck) : Prop :=
  ∃ earlier user later, events = earlier ++ user :: later ∧ hasType user "USER_INPUT" = true ∧
    (user :: later).map step = (List.range' check.afterUserEvent (later.length + 1)).map some ∧
    check.throughEvent = check.afterUserEvent + later.length ∧ ∀ event ∈ later, Silent event

/-- What the packet of a proposal says about its source. -/
structure Sound (raw : ByteArray) (proposal : Proposal) (packet : ReviewPacket) : Prop where
  assertions : packet.assertions = proposal.assertions
  digest : L.sha256Hex raw = packet.sourceSha256 ∧ packet.sourceSha256 = proposal.sourceSha256
  unique : (packet.assertions.map (·.id)).Nodup
  targets : ∀ a b, Supersedes packet.assertions a b → ∃ x ∈ packet.assertions, x.id = b
  acyclic : Acyclic (Supersedes packet.assertions)
  source : ∃ events, Transcript L raw events ∧
    (∀ x ∈ packet.assertions, ∀ c ∈ x.citations, Quoted events c) ∧
    (packet.tailCheckPassed = some true →
      ∃ check, proposal.noAssistantTextAfter = some check ∧ TailAbsent events check)

/-! ## The events -/

variable {L}

/-- The map and the order of the steps are those of the events read so far. -/
structure Indexed (s : Events) (values : List Value) : Prop where
  order : values.map step = s.order.map some
  found : ∀ v ∈ values, ∀ id, step v = some id → s.byStep.get? id = some v
  known : ∀ id v, s.byStep.get? id = some v → v ∈ values ∧ step v = some id

theorem indexed_empty : Indexed ⟨∅, []⟩ [] where
  order := rfl
  found _ hv := absurd hv List.not_mem_nil
  known _ _ h := absurd h (by simp)

/-- One line adds its event. -/
theorem Indexed.addEvent {s s' : Events} {values : List Value} {line : String} (hs : Indexed s values)
    (h : addEvent L s line = .ok s') : ∃ event, L.parseValue line = some event ∧ Indexed s' (values ++ [event]) := by
  obtain ⟨event, hevent, h⟩ := bind_eq_ok.mp h
  obtain ⟨id, hid, h⟩ := bind_eq_ok.mp h
  obtain ⟨_, hfresh, h⟩ := bind_eq_ok.mp h
  obtain rfl := Except.ok.inj h
  rw [okOr_eq_ok] at hevent hid
  rw [failIf_eq_ok, Bool.not_eq_true, Option.isSome_eq_false_iff, Option.isNone_iff_eq_none] at hfresh
  have hstep : step event = some id := hid
  refine ⟨event, hevent, ?_, ?_, ?_⟩
  · rw [List.map_append, List.map_append, hs.order, List.map_singleton, hstep, List.map_singleton]
  · intro v hv id' hid'
    rw [SortedMap.get?_insert]
    rcases List.mem_append.mp hv with hv | hv
    · have hold := hs.found v hv id' hid'
      have hne : id' ≠ id := by
        rintro rfl
        exact absurd (hfresh.symm.trans hold) (by simp)
      rw [if_neg hne, hold]
    · obtain rfl := List.mem_singleton.mp hv
      rw [if_pos (Option.some.inj (hid'.symm.trans hstep))]
  · intro id' v hv
    rw [SortedMap.get?_insert] at hv
    split at hv
    · rename_i heq
      obtain rfl := Option.some.inj hv
      exact ⟨List.mem_append_right _ (List.mem_singleton_self _), heq ▸ hstep⟩
    · obtain ⟨hmem, hid'⟩ := hs.known id' v hv
      exact ⟨List.mem_append_left _ hmem, hid'⟩

/-- The lines of a source add their events. -/
theorem Indexed.foldlM {ls : List String} {s s' : Events} {values : List Value} (hs : Indexed s values)
    (h : ls.foldlM (SemanticProposals.addEvent L) s = .ok s') :
    ∃ more, List.Forall₂ (fun line event => L.parseValue line = some event) ls more ∧ Indexed s' (values ++ more) := by
  induction ls generalizing s values with
  | nil =>
    obtain rfl := Except.ok.inj h
    exact ⟨[], .nil, by rwa [List.append_nil]⟩
  | cons line rest ih =>
    rw [List.foldlM_cons] at h
    obtain ⟨t, ht, h⟩ := bind_eq_ok.mp h
    obtain ⟨event, hevent, hnext⟩ := hs.addEvent ht
    obtain ⟨more, hmore, hindexed⟩ := ih hnext h
    rw [List.append_assoc] at hindexed
    exact ⟨event :: more, .cons hevent hmore, hindexed⟩

/-! ## The assertions -/

/-- A citation that is accepted quotes the source. -/
theorem quoted_of_checkCitation {events : Events} {values : List Value} (hs : Indexed events values) {basis : Basis}
    {s s' : Bool × SortedSet ℕ} {c : Citation} (h : checkCitation events basis s c = .ok s') : Quoted values c := by
  obtain ⟨event, hevent, h⟩ := bind_eq_ok.mp h
  obtain ⟨text, htext, h⟩ := bind_eq_ok.mp h
  obtain ⟨_, hbytes, -⟩ := bind_eq_ok.mp h
  rw [okOr_eq_ok] at hevent htext
  obtain ⟨v, hv, hstring⟩ := Option.bind_eq_some_iff.mp htext
  rw [Value.asStr?_eq_some] at hstring
  subst hstring
  rw [failIf_eq_ok, not_or, not_le, not_not] at hbytes
  obtain ⟨hlt, hslice⟩ := hbytes
  have hok : Time.slice text c.startByte c.endByte = .ok c.quote.toList := by
    cases hcut : Time.slice text c.startByte c.endByte with
    | error e =>
      rw [hcut] at hslice
      exact absurd hslice (by simp [Except.toOption])
    | ok part =>
      rw [hcut] at hslice
      exact congrArg Except.ok (Option.some.inj hslice)
  obtain ⟨hmem, hid⟩ := hs.known c.event event hevent
  obtain ⟨xs, ys, heq, hstart, hend⟩ := Time.slice_eq_ok.mp hok
  have hbytes : utf8Bytes text.toList = utf8Bytes xs ++ (utf8Bytes c.quote.toList ++ utf8Bytes ys) := by
    rw [heq]
    simp [utf8Bytes]
  rw [Time.length_utf8Bytes_append, hstart] at hend
  refine ⟨event, hmem, hid, text, hv, hlt, ?_, ?_⟩
  · rw [hbytes, List.length_append, List.length_append, hstart]
    omega
  · rw [hbytes, List.drop_left' hstart]
    exact List.take_left' (by omega)

/-- The assertions that are accepted have new ids, and their citations quote the source. -/
theorem assertions_of_foldlM {events : Events} {values : List Value} (hs : Indexed events values)
    {l : List Assertion} {s s' : SortedSet String × SortedSet ℕ}
    (h : l.foldlM (checkAssertion events) s = .ok s') :
    (l.map (·.id)).Nodup ∧ (∀ x ∈ l, x.id ∉ s.1) ∧ ∀ x ∈ l, ∀ c ∈ x.citations, Quoted values c := by
  induction l generalizing s with
  | nil => exact ⟨List.nodup_nil, fun x hx => absurd hx List.not_mem_nil, fun x hx => absurd hx List.not_mem_nil⟩
  | cons x rest ih =>
    rw [List.foldlM_cons] at h
    obtain ⟨t, ht, h⟩ := bind_eq_ok.mp h
    obtain ⟨_, hfields, ht⟩ := bind_eq_ok.mp ht
    obtain ⟨_, _, ht⟩ := bind_eq_ok.mp ht
    obtain ⟨p, hcitations, ht⟩ := bind_eq_ok.mp ht
    obtain ⟨_, _, ht⟩ := bind_eq_ok.mp ht
    obtain rfl := Except.ok.inj ht
    rw [failIf_eq_ok, not_or] at hfields
    obtain ⟨hnodup, hnew, hquoted⟩ := ih h
    refine ⟨?_, ?_, ?_⟩
    · rw [List.map_cons, List.nodup_cons]
      refine ⟨fun hmem => ?_, hnodup⟩
      obtain ⟨y, hy, heq⟩ := List.mem_map.mp hmem
      exact hnew y hy (SortedSet.mem_insert.mpr (.inl heq))
    · intro y hy
      rcases List.mem_cons.mp hy with rfl | hy
      · exact hfields.2
      · exact fun hmem => hnew y hy (SortedSet.mem_insert.mpr (.inr hmem))
    · intro y hy c hc
      rcases List.mem_cons.mp hy with rfl | hy
      · obtain ⟨u, u', hu⟩ := foldlM_ok_mem hcitations hc
        exact quoted_of_checkCitation hs hu
      · exact hquoted y hy c hc

/-! ## The supersedes edges -/

/-- With unique ids the map of the edges holds each assertion's own edges. -/
theorem get?_edges {assertions : List Assertion} (hnodup : (assertions.map (·.id)).Nodup) {a : String}
    {targets : List String} :
    (edges assertions).get? a = some targets ↔ ∃ x ∈ assertions, x.id = a ∧ x.supersedes = targets := by
  rw [edges, SortedMap.get?_insertAll, SortedMap.get?_empty, Option.or_none]
  constructor
  · intro h
    obtain ⟨x, hx, heq⟩ := List.mem_map.mp (List.mem_reverse.mp (Assoc.get?_some_mem h))
    obtain ⟨rfl, rfl⟩ := Prod.mk.inj heq
    exact ⟨x, hx, rfl, rfl⟩
  · rintro ⟨x, hx, rfl, rfl⟩
    have hsome : (Assoc.get? x.id (assertions.map fun a => (a.id, a.supersedes)).reverse).isSome := by
      rw [Assoc.get?_isSome_iff, Assoc.keys, List.mem_map]
      exact ⟨_, List.mem_reverse.mpr (List.mem_map_of_mem hx), rfl⟩
    obtain ⟨targets, htargets⟩ := Option.isSome_iff_exists.mp hsome
    obtain ⟨y, hy, heq⟩ := List.mem_map.mp (List.mem_reverse.mp (Assoc.get?_some_mem htargets))
    obtain ⟨hid, hsupersedes⟩ := Prod.mk.inj heq
    obtain rfl := List.inj_on_of_nodup_map hnodup hy hx hid
    rw [htargets, hsupersedes]

theorem points_edges_iff {assertions : List Assertion} (hnodup : (assertions.map (·.id)).Nodup) :
    CycleWalk.Points (edges assertions) = Supersedes assertions := by
  funext a b
  apply propext
  constructor
  · rintro ⟨targets, htargets, hb⟩
    obtain ⟨x, hx, hid, rfl⟩ := (get?_edges hnodup).mp htargets
    exact ⟨x, hx, hid, hb⟩
  · rintro ⟨x, hx, hid, hb⟩
    exact ⟨x.supersedes, (get?_edges hnodup).mpr ⟨x, hx, hid, rfl⟩, hb⟩

/-- When every assertion's walk ends well, the targets are assertions and there is no cycle. -/
theorem supersedes_of_walks {assertions : List Assertion} (hnodup : (assertions.map (·.id)).Nodup)
    (h : ∀ x ∈ assertions, checkSupersedes assertions x = .ok ()) :
    (∀ a b, Supersedes assertions a b → ∃ x ∈ assertions, x.id = b) ∧ Acyclic (Supersedes assertions) := by
  have hwalks : ∀ a targets, (edges assertions).get? a = some targets →
      CycleWalk.walk (edges assertions) "supersedes cycle" "supersedes target missing" a ∅ targets.reverse = .ok () := by
    intro a targets htargets
    obtain ⟨x, hx, rfl, rfl⟩ := (get?_edges hnodup).mp htargets
    exact h x hx
  obtain ⟨hknown, hacyclic⟩ := CycleWalk.acyclic_of_walks hwalks
  rw [points_edges_iff hnodup] at hknown hacyclic
  refine ⟨fun a b hab => ?_, hacyclic⟩
  obtain ⟨targets, htargets⟩ := Option.isSome_iff_exists.mp (hknown a b hab)
  obtain ⟨x, hx, hid, -⟩ := (get?_edges hnodup).mp htargets
  exact ⟨x, hx, hid⟩

/-! ## The tail -/

/-- What the tail check asks of an event behind the user event. -/
theorem silent_of_checks {event : Value}
    (htruncated : ¬(hasType event "PLANNER_RESPONSE" = true ∧ contentTruncated event = true))
    (hunsupported : ¬(hasType event "PLANNER_RESPONSE" = true ∧ contentUnsupported event = true))
    (hspoken : ¬(hasType event "PLANNER_RESPONSE" = true ∧ contentSpoken event = true)) : Silent event := by
  intro htype
  refine ⟨Bool.eq_false_iff.mpr fun h => htruncated ⟨htype, h⟩, ?_⟩
  cases hcontent : event.get? "content" with
  | none => exact .inl rfl
  | some value =>
    refine .inr ?_
    by_cases hnull : value = .null
    · exact .inl (congrArg some hnull)
    · cases hstr : value.asStr? with
      | none =>
        refine absurd ⟨htype, ?_⟩ hunsupported
        simp [contentUnsupported, hcontent, hnull, hstr]
      | some s =>
        rw [Value.asStr?_eq_some] at hstr
        subst hstr
        refine .inr ⟨s, rfl, ?_⟩
        cases hblank : blank s with
        | true => rfl
        | false =>
          refine absurd ⟨htype, ?_⟩ hspoken
          simp [contentSpoken, Value.index, hcontent, hblank]

/-- The events of a tail that is accepted follow one another from the expected step on, and are silent behind the user
event. -/
theorem tail_of_foldlM {events : Events} {after expected next : ℕ} {values : List Value} {ids : List ℕ}
    (hstep : values.map step = ids.map some)
    (hfound : ∀ v ∈ values, ∀ id, step v = some id → events.byStep.get? id = some v)
    (h : ids.foldlM (tailStep events after) expected = .ok next) :
    ids = List.range' expected ids.length ∧ ∀ v ∈ values, ∀ id, step v = some id → after < id → Silent v := by
  induction ids generalizing expected values with
  | nil =>
    rw [List.map_nil, List.map_eq_nil_iff] at hstep
    subst hstep
    exact ⟨rfl, fun v hv => absurd hv List.not_mem_nil⟩
  | cons id rest ih =>
    obtain ⟨v, tail, rfl, hv, htail⟩ := List.map_eq_cons_iff.mp hstep
    rw [List.foldlM_cons] at h
    obtain ⟨t, ht, h⟩ := bind_eq_ok.mp h
    obtain ⟨_, hexpected, ht⟩ := bind_eq_ok.mp ht
    obtain ⟨t', hnext, ht⟩ := bind_eq_ok.mp ht
    obtain ⟨_, htruncated, ht⟩ := bind_eq_ok.mp ht
    obtain ⟨_, hunsupported, ht⟩ := bind_eq_ok.mp ht
    obtain ⟨_, hspoken, ht⟩ := bind_eq_ok.mp ht
    obtain rfl := Except.ok.inj ht
    rw [failIf_eq_ok, not_not] at hexpected
    subst hexpected
    rw [okOr_eq_ok] at hnext
    have hnext : t' = id + 1 := by
      split at hnext
      · exact (Option.some.inj hnext).symm
      · exact absurd hnext (by simp)
    subst hnext
    rw [failIf_eq_ok, hfound v List.mem_cons_self id hv, Option.getD_some] at htruncated hunsupported hspoken
    obtain ⟨hids, hsilent⟩ := ih htail (fun w hw => hfound w (List.mem_cons_of_mem _ hw)) h
    refine ⟨?_, ?_⟩
    · rw [List.length_cons, List.range'_succ, ← hids]
    · intro w hw id' hid' hafter
      rcases List.mem_cons.mp hw with rfl | hw
      · obtain rfl : id' = id := Option.some.inj (hid'.symm.trans hv)
        exact silent_of_checks htruncated hunsupported fun hs => hspoken ⟨hafter, hs⟩
      · exact hsilent w hw id' hid' hafter

/-- A tail check that ends well shows what it says. -/
theorem tailAbsent_of_checkTail {events : Events} {values : List Value} (hs : Indexed events values) {check : TailCheck}
    (h : checkTail events check = .ok ()) : TailAbsent values check := by
  obtain ⟨_, hends, h⟩ := bind_eq_ok.mp h
  obtain ⟨start, hstart, h⟩ := bind_eq_ok.mp h
  obtain ⟨next, hrun, -⟩ := bind_eq_ok.mp h
  rw [failIf_eq_ok, not_or, not_or, not_not, not_not] at hends
  obtain ⟨hlast, -, huser⟩ := hends
  rw [okOr_eq_ok, List.idxOf?_eq_some_iff] at hstart
  obtain ⟨hlt, hafter, -⟩ := hstart
  -- the tail begins with the user event, on both sides
  have hids : events.order.drop start = check.afterUserEvent :: events.order.drop (start + 1) := by
    rw [List.drop_eq_getElem_cons hlt, hafter]
  have hsteps : (values.drop start).map step = (events.order.drop start).map some := by
    rw [List.map_drop, hs.order, ← List.map_drop]
  have hfound : ∀ v ∈ values.drop start, ∀ id, step v = some id → events.byStep.get? id = some v :=
    fun v hv => hs.found v (List.mem_of_mem_drop hv)
  obtain ⟨hrange, hsilent⟩ := tail_of_foldlM hsteps hfound hrun
  obtain ⟨user, later, hvalues, hid, hlater⟩ := List.map_eq_cons_iff.mp (hsteps.trans (congrArg (List.map some) hids))
  have hlen : (events.order.drop start).length = later.length + 1 := by
    have := congrArg List.length hsteps
    rw [List.length_map, List.length_map, hvalues, List.length_cons] at this
    exact this.symm
  rw [hlen] at hrange
  rw [hrange, hvalues] at hsteps
  refine ⟨values.take start, user, later, ?_, ?_, hsteps, ?_, ?_⟩
  · rw [← hvalues, List.take_append_drop]
  · rw [hfound user (hvalues ▸ List.mem_cons_self) _ hid] at huser
    exact huser
  · have hend : (events.order.drop start).getLast? = some check.throughEvent := by
      rw [List.getLast?_drop, if_neg (by omega), hlast]
    rw [hrange, List.getLast?_range'] at hend
    simpa using hend.symm
  · intro event hevent
    obtain ⟨id, hmem, hstep⟩ : ∃ id ∈ List.range' (check.afterUserEvent + 1) later.length, step event = some id := by
      rw [List.range'_succ, List.map_cons, List.map_cons] at hsteps
      have hmem : step event ∈ later.map step := List.mem_map_of_mem hevent
      rw [(List.cons.inj hsteps).2] at hmem
      obtain ⟨id, hid, heq⟩ := List.mem_map.mp hmem
      exact ⟨id, hid, heq.symm⟩
    refine hsilent event (hvalues ▸ List.mem_cons_of_mem _ hevent) id hstep ?_
    exact (List.mem_range'_1.mp hmem).1

/-! ## The whole check -/

/-- A packet is issued only for assertions with unique ids whose supersedes edges stay among them without a cycle, whose
quotes are the cited bytes, and with a tail check only for a complete tail in which the assistant says nothing. -/
theorem validateSource_sound (L : Library) (raw : ByteArray) (proposal : Proposal) (packet : ReviewPacket)
    (h : validateSource L raw proposal = .ok packet) : Sound L raw proposal packet := by
  obtain ⟨_, _, h⟩ := bind_eq_ok.mp h
  obtain ⟨_, hdigest, h⟩ := bind_eq_ok.mp h
  obtain ⟨source, hsource, h⟩ := bind_eq_ok.mp h
  obtain ⟨events, hevents, h⟩ := bind_eq_ok.mp h
  obtain ⟨p, hassertions, h⟩ := bind_eq_ok.mp h
  obtain ⟨us, hwalks, h⟩ := bind_eq_ok.mp h
  obtain ⟨passed, hpassed, h⟩ := bind_eq_ok.mp h
  obtain rfl := Except.ok.inj h
  rw [okOr_eq_ok] at hsource
  rw [failIf_eq_ok, not_not] at hdigest
  obtain ⟨values, hvalues, hindexed⟩ := indexed_empty.foldlM hevents
  rw [List.nil_append] at hindexed
  obtain ⟨hunique, -, hquoted⟩ := assertions_of_foldlM hindexed hassertions
  have hwalk : ∀ x ∈ proposal.assertions, checkSupersedes proposal.assertions x = .ok () := by
    intro x hx
    obtain ⟨_, -, hok⟩ := (mapM_ok hwalks).2 x hx
    exact hok
  obtain ⟨htargets, hacyclic⟩ := supersedes_of_walks hunique hwalk
  refine ⟨rfl, ⟨rfl, hdigest⟩, hunique, htargets, hacyclic, values, ⟨source, hsource, hvalues⟩, hquoted, ?_⟩
  intro htrue
  cases hcheck : proposal.noAssistantTextAfter with
  | none =>
    rw [hcheck] at hpassed
    exact absurd ((Except.ok.inj hpassed).trans htrue) (by simp)
  | some check =>
    rw [hcheck] at hpassed
    obtain ⟨_, htail, -⟩ := bind_eq_ok.mp hpassed
    exact ⟨check, rfl, tailAbsent_of_checkTail hindexed htail⟩

/-! ## The fixture of the tests -/

def fixtureRequest : String :=
  "\x7b\"step_index\":0,\"type\":\"USER_INPUT\",\"content\":\"Keep necessary exceptions\"\x7d"

def fixtureReport : String := "\x7b\"step_index\":1,\"type\":\"GENERIC\",\"content\":\"working\"\x7d"

def fixtureValue (content : String) (id : ℕ) (kind : String) : Value :=
  .object [("content", .string content), ("step_index", .nat id), ("type", .string kind)]

def fixtureLibrary : Library where
  sha256Hex := fun _ => "7d5fcb2b6c5b8b31"
  parseValue := fun line =>
    if line = fixtureRequest then some (fixtureValue "Keep necessary exceptions" 0 "USER_INPUT")
    else if line = fixtureReport then some (fixtureValue "working" 1 "GENERIC")
    else none

def fixtureText : String := joinLines [fixtureRequest, fixtureReport]

def fixtureAssertion : Assertion where
  id := "a"
  basis := .userRequirement
  subject := "parameters"
  predicate := "unify"
  object := "configuration"
  polarity := .affirmed
  scope := "all products"
  timeScope := "requested work"
  qualifiers := ["necessary exceptions retained"]
  citations := [⟨0, "/content", 0, 25, "Keep necessary exceptions"⟩]
  supersedes := []

def fixtureProposal : Proposal where
  sourceSha256 := "7d5fcb2b6c5b8b31"
  assertions := [fixtureAssertion, { fixtureAssertion with id := "b", supersedes := ["a"] }]
  noAssistantTextAfter := some ⟨0, 1⟩

def fixturePacket : ReviewPacket :=
  ⟨"source_checks_passed_semantics_unreviewed", "7d5fcb2b6c5b8b31", fixtureProposal.assertions, ∅, some true,
    limitations⟩

theorem fixture_walks :
    fixtureProposal.assertions.mapM (checkSupersedes fixtureProposal.assertions) = .ok [(), ()] := by
  have ha : checkSupersedes fixtureProposal.assertions fixtureAssertion = .ok () := by
    rw [checkSupersedes, fixtureAssertion, List.reverse_nil, CycleWalk.walk]
  have hb : checkSupersedes fixtureProposal.assertions { fixtureAssertion with id := "b", supersedes := ["a"] } =
      .ok () := by
    have hedge : (edges fixtureProposal.assertions).get? "a" = some [] := by decide
    rw [checkSupersedes, List.reverse_singleton, CycleWalk.walk, if_neg (by decide)]
    split
    · rename_i hnone
      exact absurd (hedge.symm.trans hnone) (by simp)
    · rename_i next hnext
      obtain rfl : [] = next := Option.some.inj (hedge.symm.trans hnext)
      rw [dif_neg (by decide), List.reverse_nil, List.nil_append, CycleWalk.walk]
  rw [fixtureProposal, List.mapM_cons, List.mapM_cons, List.mapM_nil, ← fixtureProposal, ha, hb]
  rfl

def fixtureEvents : Events :=
  ⟨((∅ : SortedMap ℕ Value).insert 0 (fixtureValue "Keep necessary exceptions" 0 "USER_INPUT")).insert 1
    (fixtureValue "working" 1 "GENERIC"), [0, 1]⟩

theorem fixture_events : readEvents fixtureLibrary fixtureText = .ok fixtureEvents := by
  have hlines : sourceLines fixtureText = [fixtureRequest, fixtureReport] := by decide +kernel
  have hrequest : addEvent fixtureLibrary ⟨∅, []⟩ fixtureRequest =
      .ok ⟨(∅ : SortedMap ℕ Value).insert 0 (fixtureValue "Keep necessary exceptions" 0 "USER_INPUT"), [0]⟩ := by
    simp only [addEvent, fixtureLibrary, if_true]
    rfl
  have hreport : addEvent fixtureLibrary
      ⟨(∅ : SortedMap ℕ Value).insert 0 (fixtureValue "Keep necessary exceptions" 0 "USER_INPUT"), [0]⟩
      fixtureReport = .ok fixtureEvents := by
    have hne : fixtureReport ≠ fixtureRequest := by simp [fixtureReport, fixtureRequest]
    simp only [addEvent, fixtureLibrary, if_neg hne, if_true]
    rfl
  rw [readEvents, hlines, List.foldlM_cons, hrequest]
  exact congrArg (· >>= fun s => [].foldlM (addEvent fixtureLibrary) s) hreport

theorem fixture_passes :
    validateSource fixtureLibrary fixtureText.toByteArray fixtureProposal = .ok fixturePacket := by
  have hsource : okOr (String.fromUTF8? fixtureText.toByteArray) "source is not UTF-8" = .ok fixtureText :=
    okOr_eq_ok.mpr (dif_pos fixtureText.isValidUTF8)
  have hassertions : fixtureProposal.assertions.foldlM (checkAssertion fixtureEvents) (∅, ∅) =
      .ok (SortedSet.ofList ["a", "b"], ∅) := by decide +kernel
  have htail : tailPassed fixtureEvents fixtureProposal.noAssistantTextAfter = .ok (some true) := by decide +kernel
  refine bind_eq_ok.mpr ⟨(), rfl, bind_eq_ok.mpr ⟨(), by decide, bind_eq_ok.mpr ⟨fixtureText, hsource, ?_⟩⟩⟩
  refine bind_eq_ok.mpr ⟨fixtureEvents, fixture_events, bind_eq_ok.mpr ⟨_, hassertions, ?_⟩⟩
  exact bind_eq_ok.mpr ⟨_, fixture_walks, bind_eq_ok.mpr ⟨_, htail, rfl⟩⟩

theorem validateSource_sound_fixture :
    Sound fixtureLibrary fixtureText.toByteArray fixtureProposal fixturePacket :=
  validateSource_sound fixtureLibrary fixtureText.toByteArray fixtureProposal fixturePacket fixture_passes

end Innen.SemanticProposals
