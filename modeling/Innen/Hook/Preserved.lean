import Innen.Hook.Settings
import Mathlib.Data.List.Basic

/-!
# What an install leaves as it was

Handlers are taken out by their marker and entries when they are left empty, whoever wrote them. So an install keeps what
the user wrote exactly when both are innen's own (`Table.Installed.preserves_iff`). On a file that cannot be read, or that has
another shape, it never ends with an error: it writes its own settings over the file, or panics (`keepsSettings_iff`).
-/

namespace Innen.Hook

open Common

/-! ## What innen wrote -/

/-- A value without numbers that may be read differently. -/
def Plain (v : Value) : Prop := ∀ f, v.mapFloats f = v

/-- The tables of the agents that have one. -/
def tables (env : Env) : List Table := [claudeTable env, codexTable env, grokTable env]

/-- Which handlers and entries of an event innen wrote, and what it wrote under its own key: what an install writes now, and
what earlier ones wrote. Every handler of innen has the marker of its event, and every entry of innen has one handler. -/
structure Provenance (env : Env) where
  handler : String → Value → Prop
  entry : String → Value → Prop
  progress : Value → Prop
  handler_marked : ∀ {t : Table} {w : Wiring} {h : Value}, t ∈ tables env → w ∈ t.wirings → handler w.event h →
    marked w.marker h = true
  entry_handler : ∀ {event v}, entry event v → ∃ h, handler event h ∧ handlersOf v = some [h]
  handler_plain : ∀ {event h}, handler event h → Plain h
  entry_plain : ∀ {event v}, entry event v → Plain v
  progress_plain : ∀ {v}, progress v → Plain v
  handler_current : ∀ {t : Table} {w : Wiring}, t ∈ tables env → w ∈ t.wirings → handler w.event w.handler
  entry_current : ∀ {t : Table} {w : Wiring}, t ∈ tables env → w ∈ t.wirings → entry w.event w.entry
  progress_current : progress (progressHook env)

section

open scoped Classical in
/-- An entry without the handlers that innen wrote. -/
noncomputable def strip (own : Value → Prop) (entry : Value) : Value :=
  match handlersOf entry with
  | some handlers => entry.set "hooks" (.array (handlers.filter fun h => ¬own h))
  | none => entry

open scoped Classical in
/-- What innen did not write of the entries of an event. -/
noncomputable def Provenance.foreign {env : Env} (prov : Provenance env) (event : String) (entries : List Value) : List Value :=
  (entries.filter fun entry => ¬prov.entry event entry).map (strip (prov.handler event))

end

/-- All that innen did not write is as it was. -/
structure Table.Preserves (t : Table) {env : Env} (prov : Provenance env) (doc doc' : Value) : Prop where
  others : ∀ k, k ≠ "hooks" → doc'.get? k = doc.get? k
  rest : ∀ k, k ∉ t.wirings.map Wiring.event → eventOf doc' k = eventOf doc k
  foreign : ∀ w ∈ t.wirings, prov.foreign w.event (entriesAt doc' w.event) = prov.foreign w.event (entriesAt doc w.event)

/-- Every handler with a marker is innen's, and so is every entry that has no other handlers. -/
structure Table.Clean (t : Table) {env : Env} (prov : Provenance env) (doc : Value) : Prop where
  handlers : ∀ w ∈ t.wirings, ∀ entry ∈ entriesAt doc w.event, ∀ handlers, handlersOf entry = some handlers →
    ∀ h ∈ handlers, marked w.marker h = true → prov.handler w.event h
  entries : ∀ w ∈ t.wirings, ∀ entry ∈ entriesAt doc w.event, ∀ handlers, handlersOf entry = some handlers →
    (∀ h ∈ handlers, marked w.marker h = true) → prov.entry w.event entry

/-! ## One entry -/

section

variable {own : Value → Prop} {marker : String} {entry : Value} {f : UInt64 → UInt64}

theorem handlersOf_strip : handlersOf (strip own entry) =
    (handlersOf entry).map fun handlers => by classical exact handlers.filter fun h => ¬own h := by
  unfold strip
  rcases hhandlers : handlersOf entry with _ | handlers
  · exact hhandlers
  · exact handlersOf_set hhandlers

theorem stays_eq_false_iff {v : Value} : stays v = false ↔ handlersOf v = some [] := by
  rw [stays]
  rcases handlersOf v with _ | _ | ⟨h, handlers⟩ <;> simp

/-- An entry goes exactly when all its handlers have the marker. -/
theorem stays_dropMarked_eq_false_iff : stays (dropMarked marker entry) = false ↔
    ∃ handlers, handlersOf entry = some handlers ∧ ∀ h ∈ handlers, marked marker h = true := by
  rw [stays_eq_false_iff, handlersOf_dropMarked, Option.map_eq_some_iff]
  refine exists_congr fun handlers => and_congr_right fun _ => ?_
  rw [List.filter_eq_nil_iff]
  refine forall₂_congr fun h _ => ?_
  rw [Bool.not_eq_true, Bool.not_eq_false']

/-- Where the handlers with the marker are innen's own, dropping and stripping are the same. -/
theorem dropMarked_eq_strip (hown : ∀ handlers, handlersOf entry = some handlers →
    ∀ h ∈ handlers, (marked marker h = true ↔ own h)) : dropMarked marker entry = strip own entry := by
  unfold dropMarked strip
  rcases hhandlers : handlersOf entry with _ | handlers
  · rfl
  · dsimp only
    congr 2
    refine List.filter_congr fun h hh => ?_
    have hiff := hown handlers hhandlers h hh
    by_cases hm : marked marker h = true
    · simp [hm, hiff.mp hm]
    · simp [hm, hiff.not.mp hm]

theorem unmarked_of_dropMarked {handlers : List Value} (h : handlersOf (dropMarked marker entry) = some handlers) :
    ∀ v ∈ handlers, marked marker v = false := by
  rw [handlersOf_dropMarked, Option.map_eq_some_iff] at h
  obtain ⟨all, -, rfl⟩ := h
  intro v hv
  simpa using (List.mem_filter.mp hv).2

theorem strip_dropMarked (hown : ∀ h, own h → marked marker h = true) :
    strip own (dropMarked marker entry) = dropMarked marker entry := by
  classical
  rcases hhandlers : handlersOf entry with _ | handlers
  · have hsame : dropMarked marker entry = entry := by rw [dropMarked, hhandlers]
    rw [hsame, strip, hhandlers]
  · have hdropped := handlersOf_dropMarked marker entry
    rw [hhandlers, Option.map_some] at hdropped
    have hkept : (handlers.filter fun h => !marked marker h).filter (fun h => ¬own h) =
        handlers.filter fun h => !marked marker h := by
      refine List.filter_eq_self.mpr fun h hh => decide_eq_true fun hmine => ?_
      exact absurd (hown h hmine) (Bool.eq_false_iff.mp (unmarked_of_dropMarked hdropped h hh))
    rw [strip, hdropped]
    dsimp only
    rw [hkept, dropMarked, hhandlers, Value.set_set_self]

theorem set_self {v w : Value} {key : String} (hwf : v.WF) (h : v.get? key = some w) : v.set key w = v := by
  cases v with
  | object fields =>
    have hascending := (Value.wf_object.mp hwf).1
    refine Value.object_ext (hascending.insert key w) hascending fun k => ?_
    rw [Assoc.get?_insert]
    split_ifs with hk
    · rw [hk]
      exact h.symm
    · rfl
  | _ => cases h

theorem get?_of_handlersOf {handlers : List Value} (h : handlersOf entry = some handlers) :
    entry.get? "hooks" = some (.array handlers) := by
  obtain ⟨v, hget, harray⟩ := Option.bind_eq_some_iff.mp h
  cases v with
  | array items =>
    obtain rfl := Option.some.inj harray
    exact hget
  | _ => cases harray

/-- What is fixed without the handlers of innen is fixed with them. -/
theorem mapFloats_of_strip (hwf : entry.WF) (hplain : ∀ h, own h → Plain h) (h : (strip own entry).mapFloats f = strip own entry) :
    entry.mapFloats f = entry := by
  rcases hhandlers : handlersOf entry with _ | handlers
  · have hsame : strip own entry = entry := by rw [strip, hhandlers]
    rwa [hsame] at h
  · have hget := get?_of_handlersOf hhandlers
    obtain ⟨kept, hkept⟩ : ∃ kept, kept = strip own entry := ⟨_, rfl⟩
    have hstrip : handlersOf kept = some (by classical exact handlers.filter fun h => ¬own h) := by
      rw [hkept, handlersOf_strip, hhandlers, Option.map_some]
    have hback : entry = kept.set "hooks" (.array handlers) := by
      rw [hkept, strip, hhandlers, Value.set_set_self, set_self hwf hget]
    have hfixed : ∀ v ∈ handlers, v.mapFloats f = v := by
      intro v hv
      by_cases hown : own v
      · exact hplain v hown f
      · rw [← hkept] at h
        have hmap := handlersOf_mapFloats f kept
        rw [h, hstrip, Option.map_some, Option.some.injEq] at hmap
        have hid := hmap.symm.trans (List.map_id _).symm
        exact List.map_inj_left.mp hid v (List.mem_filter.mpr ⟨hv, by simp [hown]⟩)
    rw [← hkept] at h
    rw [hback, set_mapFloats, h, Value.mapFloats_array, List.map_congr_left hfixed, List.map_id']

end

/-! ## One event -/

section

variable {env : Env} {prov : Provenance env} {t : Table} {w : Wiring} {entries : List Value} {f : UInt64 → UInt64}

theorem Provenance.marked_of_entry (ht : t ∈ tables env) (hw : w ∈ t.wirings) {entry : Value}
    (h : prov.entry w.event entry) : ∃ handlers, handlersOf entry = some handlers ∧
      ∀ h ∈ handlers, marked w.marker h = true ∧ prov.handler w.event h := by
  obtain ⟨handler, hhandler, hhandlers⟩ := prov.entry_handler h
  refine ⟨[handler], hhandlers, fun v hv => ?_⟩
  rw [List.mem_singleton.mp hv]
  exact ⟨prov.handler_marked ht hw hhandler, hhandler⟩

/-- Nothing of innen's is in what an install keeps, also when it is read again. -/
theorem foreign_removeFrom (ht : t ∈ tables env) (hw : w ∈ t.wirings) :
    prov.foreign w.event ((removeFrom w.marker entries).map (Value.mapFloats f)) =
      (removeFrom w.marker entries).map (Value.mapFloats f) := by
  classical
  rw [← removeFrom_mapFloats]
  unfold Provenance.foreign
  rw [List.filter_eq_self.mpr, List.map_congr_left, List.map_id']
  · intro entry hentry
    obtain ⟨old, -, rfl⟩ := List.mem_map.mp (List.mem_of_mem_filter hentry)
    exact strip_dropMarked fun h => prov.handler_marked ht hw
  · intro entry hentry
    obtain ⟨old, -, rfl⟩ := List.mem_map.mp (List.mem_of_mem_filter hentry)
    refine decide_eq_true fun hown => ?_
    obtain ⟨handler, hhandler, hhandlers⟩ := prov.entry_handler hown
    exact absurd (prov.handler_marked ht hw hhandler)
      (Bool.eq_false_iff.mp (unmarked_of_dropMarked hhandlers handler List.mem_cons_self))

theorem foreign_entry (ht : t ∈ tables env) (hw : w ∈ t.wirings) (entries : List Value) :
    prov.foreign w.event (entries ++ [w.entry]) = prov.foreign w.event entries := by
  classical
  unfold Provenance.foreign
  rw [List.filter_append, List.filter_cons_of_neg (by simp [prov.entry_current ht hw]), List.filter_nil, List.append_nil]

/-- When a filter keeps as many as a weaker one, the weaker one keeps no others. -/
theorem forall_of_length_filter {α : Type} {p q : α → Bool} {l : List α} (h : ∀ a ∈ l, p a = true → q a = true)
    (hlength : (l.filter p).length = (l.filter q).length) : ∀ a ∈ l, q a = true → p a = true := by
  have hfilter : (l.filter q).filter p = l.filter p := by
    rw [List.filter_filter]
    refine List.filter_congr fun a ha => ?_
    cases hp : p a with
    | true => rw [h a ha hp, Bool.and_self]
    | false => rw [Bool.false_and]
  intro a ha hq
  rw [← hfilter, List.length_filter_eq_length_iff] at hlength
  exact hlength a (List.mem_filter.mpr ⟨ha, hq⟩)

variable (prov f) in
/-- What is kept of the entries of an event is what innen did not write exactly when the handlers that go and the entries that
are left empty are innen's own, and the rest is read as it was. -/
theorem removeFrom_eq_foreign_iff (ht : t ∈ tables env) (hw : w ∈ t.wirings) (hwf : ∀ entry ∈ entries, entry.WF) :
    (removeFrom w.marker entries).map (Value.mapFloats f) = prov.foreign w.event entries ↔
      (∀ entry ∈ entries, ∀ handlers, handlersOf entry = some handlers →
        ∀ h ∈ handlers, marked w.marker h = true → prov.handler w.event h) ∧
      (∀ entry ∈ entries, ∀ handlers, handlersOf entry = some handlers →
        (∀ h ∈ handlers, marked w.marker h = true) → prov.entry w.event entry) ∧
      ∀ entry ∈ entries, entry.mapFloats f = entry := by
  classical
  have hkept : removeFrom w.marker entries =
      (entries.filter fun entry => stays (dropMarked w.marker entry)).map (dropMarked w.marker) := List.filter_map
  have hown : ∀ entry, stays (dropMarked w.marker entry) = true → ¬prov.entry w.event entry := by
    intro entry hstays hentry
    obtain ⟨handlers, hhandlers, hall⟩ := Provenance.marked_of_entry ht hw hentry
    have hgone := stays_dropMarked_eq_false_iff.mpr ⟨handlers, hhandlers, fun h hh => (hall h hh).1⟩
    rw [hstays] at hgone
    cases hgone
  rw [hkept, List.map_map, Provenance.foreign]
  constructor
  · intro heq
    have hlength := congrArg List.length heq
    rw [List.length_map, List.length_map] at hlength
    have hstays : ∀ entry ∈ entries, ¬prov.entry w.event entry → stays (dropMarked w.marker entry) = true :=
      fun entry hentry hforeign => forall_of_length_filter (fun e _ h => decide_eq_true (hown e h)) hlength entry hentry
        (decide_eq_true hforeign)
    have hfilters : (entries.filter fun entry => stays (dropMarked w.marker entry)) =
        entries.filter fun entry => ¬prov.entry w.event entry :=
      List.filter_congr fun entry hentry => Bool.eq_iff_iff.mpr
        ⟨fun h => decide_eq_true (hown entry h), fun h => hstays entry hentry (of_decide_eq_true h)⟩
    rw [hfilters] at heq
    have hstrip : ∀ entry ∈ entries, ¬prov.entry w.event entry →
        (dropMarked w.marker entry).mapFloats f = strip (prov.handler w.event) entry := fun entry hentry hforeign =>
      List.map_inj_left.mp heq entry (List.mem_filter.mpr ⟨hentry, decide_eq_true hforeign⟩)
    have hhandlers : ∀ entry ∈ entries, ∀ handlers, handlersOf entry = some handlers →
        ∀ h ∈ handlers, marked w.marker h = true → prov.handler w.event h := by
      intro entry hentry handlers hhandlers h hh hmarked
      by_cases hforeign : prov.entry w.event entry
      · obtain ⟨own, hown, hall⟩ := Provenance.marked_of_entry ht hw hforeign
        obtain rfl := Option.some.inj (hown.symm.trans hhandlers)
        exact (hall h hh).2
      · have hsame := congrArg handlersOf (hstrip entry hentry hforeign)
        rw [handlersOf_mapFloats, handlersOf_dropMarked, handlersOf_strip, hhandlers, Option.map_some, Option.map_some,
          Option.map_some, Option.some.injEq] at hsame
        have hcount := congrArg List.length hsame
        rw [List.length_map] at hcount
        have hforeign : ∀ v, (!marked w.marker v) = true → ¬prov.handler w.event v := by
          intro v hv hvown
          rw [prov.handler_marked ht hw hvown] at hv
          cases hv
        by_contra hmine
        have hunmarked := forall_of_length_filter (fun v _ hv => decide_eq_true (hforeign v hv)) hcount h hh
          (decide_eq_true hmine)
        rw [hmarked] at hunmarked
        cases hunmarked
    refine ⟨hhandlers, fun entry hentry handlers hsome hall => ?_, fun entry hentry => ?_⟩
    · by_contra hforeign
      have hgone := stays_dropMarked_eq_false_iff.mpr ⟨handlers, hsome, hall⟩
      rw [hstays entry hentry hforeign] at hgone
      cases hgone
    · by_cases hforeign : prov.entry w.event entry
      · exact prov.entry_plain hforeign f
      · have hdropped : dropMarked w.marker entry = strip (prov.handler w.event) entry :=
          dropMarked_eq_strip fun handlers hsome h hh =>
            ⟨hhandlers entry hentry handlers hsome h hh, prov.handler_marked ht hw⟩
        have hsame := hstrip entry hentry hforeign
        rw [hdropped] at hsame
        exact mapFloats_of_strip (hwf entry hentry) (fun h (hown : prov.handler w.event h) => prov.handler_plain hown) hsame
  · rintro ⟨hhandlers, hentries, hfixed⟩
    have hfilters : (entries.filter fun entry => stays (dropMarked w.marker entry)) =
        entries.filter fun entry => ¬prov.entry w.event entry := by
      refine List.filter_congr fun entry hentry => Bool.eq_iff_iff.mpr ⟨fun h => decide_eq_true (hown entry h), fun h => ?_⟩
      by_contra hgone
      obtain ⟨handlers, hsome, hall⟩ := stays_dropMarked_eq_false_iff.mp (Bool.not_eq_true _ ▸ hgone)
      exact of_decide_eq_true h (hentries entry hentry handlers hsome hall)
    rw [hfilters]
    refine List.map_congr_left fun entry hmem => ?_
    have hentry := List.mem_of_mem_filter hmem
    rw [Function.comp_apply, ← dropMarked_mapFloats, hfixed entry hentry]
    exact dropMarked_eq_strip fun handlers hsome h hh =>
      ⟨hhandlers entry hentry handlers hsome h hh, prov.handler_marked ht hw⟩

end

/-! ## Tables -/

section

variable {env : Env} {prov : Provenance env} {t : Table} {doc doc' : Value} {f : UInt64 → UInt64} {n : ℕ}

theorem mapFloats_object {fields : Fields} (hwf : (Value.object fields).WF)
    (h : ∀ k v, (Value.object fields).get? k = some v → v.mapFloats f = v) :
    (Value.object fields).mapFloats f = .object fields := by
  have hascending := (Value.wf_object.mp hwf).1
  rw [Value.mapFloats, Value.mapFloatsFields_eq]
  refine congrArg Value.object ((List.map_congr_left fun e he => ?_).trans (List.map_id fields))
  have hget : Assoc.get? e.1 fields = some e.2 := hascending.mem_iff.mp he
  exact Prod.ext rfl (h e.1 e.2 hget)

/-- Settings are read as they were when what the user wrote is. -/
theorem Rooted.mapFloats_eq (h : Rooted doc) (hwf : doc.WF)
    (hothers : ∀ k, k ≠ "hooks" → (doc.get? k).map (Value.mapFloats f) = doc.get? k)
    (hevents : ∀ k, (eventOf doc k).map (Value.mapFloats f) = eventOf doc k) : doc.mapFloats f = doc := by
  obtain ⟨fields, rfl⟩ := h.isObject
  refine mapFloats_object hwf fun k v hget => ?_
  by_cases hk : k = "hooks"
  · subst hk
    obtain ⟨hooks, rfl⟩ := h.hooks v hget
    refine mapFloats_object (Value.wf_of_get? hwf hget) fun k v hv => ?_
    have hevent := hevents k
    rw [eventOf, Value.index_eq_of_get? hget, hv, Option.map_some, Option.some.injEq] at hevent
    exact hevent
  · have hother := hothers k hk
    rw [hget, Option.map_some, Option.some.injEq] at hother
    exact hother

theorem wf_entriesAt (h : Sound (n + 6) doc) (event : String) : ∀ entry ∈ entriesAt doc event, entry.WF := fun entry hentry =>
  (h.entriesAt event entry hentry).wf

/-- An install keeps what innen did not write exactly when it takes out nothing else, and all numbers are read as they were. -/
theorem Table.Installed.preserves_iff (ht : t ∈ tables env) (hshaped : t.Shaped doc) (hsound : Sound (n + 6) doc)
    (h : t.Installed doc doc') (hwf : doc'.WF) (hread : (doc'.mapFloats f).WF) :
    t.Preserves prov doc (doc'.mapFloats f) ↔ t.Clean prov doc ∧ doc.mapFloats f = doc := by
  have hentries : ∀ w ∈ t.wirings, prov.foreign w.event (entriesAt (doc'.mapFloats f) w.event) =
      (removeFrom w.marker (entriesAt doc w.event)).map (Value.mapFloats f) := by
    intro w hw
    rw [entriesAt_mapFloats, entriesAt_eq (h.here w hw), List.map_append, List.map_singleton, entry_mapFloats,
      foreign_entry ht hw, foreign_removeFrom ht hw]
  have hiff := fun (w : Wiring) (hw : w ∈ t.wirings) =>
    removeFrom_eq_foreign_iff prov f ht hw (wf_entriesAt hsound w.event)
  constructor
  · intro hpreserves
    have hevery := fun w hw => (hiff w hw).mp ((hentries w hw).symm.trans (hpreserves.foreign w hw))
    refine ⟨⟨fun w hw => (hevery w hw).1, fun w hw => (hevery w hw).2.1⟩, ?_⟩
    refine hshaped.rooted.mapFloats_eq hsound.wf (fun k hk => ?_) fun k => ?_
    · rw [← h.others k hk, ← Value.get?_mapFloats, hpreserves.others k hk, h.others k hk]
    · by_cases hk : k ∈ t.wirings.map Wiring.event
      · obtain ⟨w, hw, rfl⟩ := List.mem_map.mp hk
        rcases hevent : eventOf doc w.event with _ | v
        · rfl
        · obtain ⟨entries, rfl⟩ := hshaped.lists w hw v hevent
          have hfixed := (hevery w hw).2.2
          rw [entriesAt_eq hevent] at hfixed
          rw [Option.map_some, Value.mapFloats_array, List.map_congr_left hfixed, List.map_id']
      · rw [← h.rest k hk, ← eventOf_mapFloats, hpreserves.rest k hk, h.rest k hk]
  · rintro ⟨hclean, hfixed⟩
    have hsame : doc'.mapFloats f = doc' := by
      have hagain := h.mapFloats f
      rw [hfixed] at hagain
      exact hagain.unique h hread hwf
    refine ⟨fun k hk => ?_, fun k hk => ?_, fun w hw => ?_⟩
    · rw [hsame, h.others k hk]
    · rw [hsame, h.rest k hk]
    · rw [hentries w hw]
      refine (hiff w hw).mpr ⟨hclean.handlers w hw, hclean.entries w hw, fun entry hentry => ?_⟩
      have hmap := entriesAt_mapFloats f doc w.event
      rw [hfixed] at hmap
      exact List.map_inj_left.mp (hmap.symm.trans (List.map_id _).symm) entry hentry

end

end Innen.Hook
