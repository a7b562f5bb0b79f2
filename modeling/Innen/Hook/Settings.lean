import Innen.Hook.Install

/-!
# What an install does to the settings

Taking a hook out and putting it in change the list of one event and nothing else. So an install changes the lists of the
agent's events, each by itself, and does so whenever the settings have the shape it looks for (`Table.apply_installed`).
-/

namespace Innen.Hook

open Common

/-! ## Values that stay readable -/

/-- Well-formed values that the reader can produce. -/
structure Sound (n : ℕ) (v : Value) : Prop where
  wf : v.WF
  readable : Readable n v

theorem Sound.string (n : ℕ) (s : String) : Sound n (.string s) := ⟨Value.wf_string s, .string n s⟩

theorem Sound.nat (n k : ℕ) : Sound n (.nat k) := ⟨Value.wf_number _, .posInt n k⟩

theorem Sound.array_iff {n : ℕ} {items : List Value} : Sound (n + 1) (.array items) ↔ ∀ v ∈ items, Sound n v := by
  constructor
  · rintro ⟨hwf, hreadable⟩ v hv
    cases hreadable with
    | array _ _ h => exact ⟨Value.wf_array.mp hwf v hv, h v hv⟩
  · exact fun h => ⟨Value.wf_array.mpr fun v hv => (h v hv).wf, .array n items fun v hv => (h v hv).readable⟩

theorem Sound.object_iff {n : ℕ} {fields : Fields} :
    Sound (n + 1) (.object fields) ↔ Assoc.Ascending fields ∧ ∀ e ∈ fields, Sound n e.2 := by
  constructor
  · rintro ⟨hwf, hreadable⟩
    obtain ⟨hascending, hfields⟩ := Value.wf_object.mp hwf
    cases hreadable with
    | object _ _ h => exact ⟨hascending, fun e he => ⟨hfields e he, h e he⟩⟩
  · rintro ⟨hascending, h⟩
    exact ⟨Value.wf_object.mpr ⟨hascending, fun e he => (h e he).wf⟩, .object n fields fun e he => (h e he).readable⟩

theorem Sound.get? {n : ℕ} {v w : Value} {key : String} (h : Sound (n + 1) v) (hget : v.get? key = some w) : Sound n w := by
  cases v with
  | object fields => exact (Sound.object_iff.mp h).2 _ (Assoc.get?_some_mem hget)
  | _ => cases hget

theorem Sound.set {n : ℕ} {v w : Value} {key : String} (h : Sound (n + 1) v) (hw : Sound n w) :
    Sound (n + 1) (v.set key w) := by
  cases v with
  | object fields =>
    obtain ⟨hascending, hfields⟩ := Sound.object_iff.mp h
    refine Sound.object_iff.mpr ⟨hascending.insert key w, fun e he => ?_⟩
    rcases Assoc.mem_insert he with rfl | he
    · exact hw
    · exact hfields e he
  | _ => exact h

theorem Sound.emptyObject (n : ℕ) : Sound (n + 1) (.object []) :=
  Sound.object_iff.mpr ⟨List.Pairwise.nil, fun _ he => absurd he List.not_mem_nil⟩

theorem Sound.commandHandler (n : ℕ) (command : String) (timeout : Option ℕ) :
    Sound (n + 1) (commandHandler command timeout) := by
  refine Sound.object_iff.mpr ⟨?_, fun e he => ?_⟩
  · refine Assoc.ascending_of_keys ?_
    cases timeout with
    | none => exact show ["command", "type"].Pairwise (· < ·) by decide
    | some t => exact show ["command", "timeout", "type"].Pairwise (· < ·) by decide
  · cases timeout with
    | none =>
      rcases List.mem_cons.mp he with rfl | he
      · exact .string n command
      · rw [List.mem_singleton.mp he]
        exact .string n "command"
    | some t =>
      rcases List.mem_cons.mp he with rfl | he
      · exact .string n command
      · rcases List.mem_cons.mp he with rfl | he
        · exact .nat n t
        · rw [List.mem_singleton.mp he]
          exact .string n "command"

theorem Sound.hookEntry {n : ℕ} {handler : Value} (h : Sound (n + 1) handler) (matcher : Option String) :
    Sound (n + 3) (hookEntry matcher handler) := by
  have hlist : Sound (n + 2) (.array [handler]) := Sound.array_iff.mpr fun v hv => by
    rw [List.mem_singleton.mp hv]
    exact h
  refine Sound.object_iff.mpr ⟨?_, fun e he => ?_⟩
  · refine Assoc.ascending_of_keys ?_
    cases matcher with
    | none => exact show ["hooks"].Pairwise (· < ·) by decide
    | some m => exact show ["hooks", "matcher"].Pairwise (· < ·) by decide
  · rcases List.mem_cons.mp he with rfl | he
    · exact hlist
    · obtain ⟨m, -, rfl⟩ := List.mem_map.mp he
      exact .string _ m

theorem Sound.dropMarked {n : ℕ} {entry : Value} (h : Sound (n + 2) entry) (marker : String) :
    Sound (n + 2) (dropMarked marker entry) := by
  unfold Hook.dropMarked
  rcases hhandlers : handlersOf entry with _ | handlers
  · exact h
  · obtain ⟨v, hget, harray⟩ := Option.bind_eq_some_iff.mp hhandlers
    cases v with
    | array items =>
      obtain rfl := Option.some.inj harray
      have hitems := Sound.array_iff.mp (h.get? hget)
      exact h.set (Sound.array_iff.mpr fun v hv => hitems v (List.mem_of_mem_filter hv))
    | _ => cases harray

theorem Sound.removeFrom {n : ℕ} {entries : List Value} (h : ∀ entry ∈ entries, Sound (n + 2) entry) (marker : String) :
    ∀ entry ∈ removeFrom marker entries, Sound (n + 2) entry := by
  intro entry hentry
  obtain ⟨old, hold, rfl⟩ := List.mem_map.mp (List.mem_of_mem_filter hentry)
  exact (h old hold).dropMarked marker

/-! ## Lookups -/

/-- What the settings hold for an event. -/
def eventOf (doc : Value) (event : String) : Option Value := (doc.index "hooks").get? event

/-- The settings are an object, and so are the hooks in them, if there are any. -/
structure Rooted (doc : Value) : Prop where
  isObject : ∃ fields, doc = .object fields
  hooks : ∀ v, doc.get? "hooks" = some v → ∃ fields, v = .object fields

/-- The hooks of settings that have none are an empty object. -/
theorem Rooted.exists_hooks {doc : Value} (h : Rooted doc) :
    ∃ hooks : Fields, (doc.get? "hooks").getD (.object []) = .object hooks ∧ ∀ k, eventOf doc k = Assoc.get? k hooks := by
  rcases hget : doc.get? "hooks" with _ | v
  · refine ⟨[], rfl, fun k => ?_⟩
    rw [eventOf, Value.index, hget]
    rfl
  · obtain ⟨hooks, rfl⟩ := h.hooks v hget
    refine ⟨hooks, rfl, fun k => ?_⟩
    rw [eventOf, Value.index_eq_of_get? hget]
    rfl

/-- What changes when the list of one event is replaced. -/
structure Replaced (n : ℕ) (event : String) (new : Option Value) (doc doc' : Value) : Prop where
  rooted : Rooted doc'
  sound : Sound n doc'
  others : ∀ k, k ≠ "hooks" → doc'.get? k = doc.get? k
  here : eventOf doc' event = new
  rest : ∀ k, k ≠ event → eventOf doc' k = eventOf doc k

/-- Replacing the list of an event. -/
theorem Rooted.replaced {n : ℕ} {doc : Value} (h : Rooted doc) (hsound : Sound (n + 2) doc) (event : String) {new : Value}
    (hnew : Sound n new) : Replaced (n + 2) event (some new) doc
      (doc.set "hooks" (((doc.get? "hooks").getD (.object [])).set event new)) := by
  obtain ⟨hooks, hhooks, hevents⟩ := h.exists_hooks
  have hhooksSound : Sound (n + 1) (.object hooks) := by
    rw [← hhooks]
    rcases hget : doc.get? "hooks" with _ | v
    · exact .emptyObject n
    · exact hsound.get? hget
  obtain ⟨fields, rfl⟩ := h.isObject
  rw [hhooks]
  have hset : ∀ k, (Value.object (Assoc.insert "hooks" (.object (Assoc.insert event new hooks)) fields)).get? k =
      if k = "hooks" then some (.object (Assoc.insert event new hooks)) else (Value.object fields).get? k :=
    fun k => Assoc.get?_insert "hooks" k _ fields
  have heventOf : ∀ k, eventOf (.object (Assoc.insert "hooks" (.object (Assoc.insert event new hooks)) fields)) k =
      if k = event then some new else Assoc.get? k hooks := by
    intro k
    rw [eventOf, Value.index, hset, if_pos rfl]
    exact Assoc.get?_insert event k new hooks
  refine ⟨⟨⟨_, rfl⟩, fun v hv => ?_⟩, hsound.set (hhooksSound.set hnew), fun k hk => ?_, ?_, fun k hk => ?_⟩
  · rw [Value.set, Value.set, hset, if_pos rfl] at hv
    exact ⟨_, (Option.some.inj hv).symm⟩
  · rw [Value.set, Value.set, hset, if_neg hk]
  · rw [Value.set, Value.set, heventOf, if_pos rfl]
  · rw [Value.set, Value.set, heventOf, if_neg hk, hevents]

/-! ## Steps -/

/-- What taking a hook out leaves of what is held for its event. -/
def removeValue (marker : String) (v : Value) : Value :=
  match v with
  | .array entries => .array (removeFrom marker entries)
  | v => v

/-- Taking a hook out changes the list of its event. -/
theorem Rooted.removeHookCommands {n : ℕ} {doc : Value} (h : Rooted doc) (hsound : Sound (n + 5) doc)
    (event marker : String) :
    Replaced (n + 5) event ((eventOf doc event).map (removeValue marker)) doc (removeHookCommands doc event marker).1 := by
  have hentriesOf : entriesOf doc event = (eventOf doc event).bind Value.asArray? := rfl
  have hsame : (eventOf doc event).map (removeValue marker) = eventOf doc event →
      Replaced (n + 5) event ((eventOf doc event).map (removeValue marker)) doc doc := fun heq =>
    ⟨h, hsound, fun _ _ => rfl, heq.symm, fun _ _ => rfl⟩
  unfold Hook.removeHookCommands
  rw [hentriesOf]
  rcases hevent : eventOf doc event with _ | v
  · rw [hevent] at hsame
    exact hsame rfl
  · rw [hevent] at hsame
    cases v with
    | array entries =>
      rcases hget : doc.get? "hooks" with _ | hooks
      · rw [eventOf, Value.index, hget] at hevent
        cases hevent
      · have hlist : Sound (n + 3) (.array entries) := by
          rw [eventOf, Value.index_eq_of_get? hget] at hevent
          exact (hsound.get? hget).get? hevent
        have hremoved : Sound (n + 3) (.array (removeFrom marker entries)) :=
          Sound.array_iff.mpr (Sound.removeFrom (Sound.array_iff.mp hlist) marker)
        have hreplaced := h.replaced hsound event hremoved
        rw [hget, Option.getD_some, ← Value.index_eq_of_get? hget] at hreplaced
        exact hreplaced
    | _ => exact hsame rfl

/-- The list that is held for an event, if it is one or there is nothing. -/
def ListAt (doc : Value) (event : String) : Prop := ∀ v, eventOf doc event = some v → ∃ entries, v = .array entries

/-- The entries for an event. -/
def entriesAt (doc : Value) (event : String) : List Value := (entriesOf doc event).getD []

theorem ListAt.eventOf {doc : Value} {event : String} (h : ListAt doc event) :
    (eventOf doc event).getD (.array []) = .array (entriesAt doc event) := by
  have hentries : entriesAt doc event = ((Hook.eventOf doc event).bind Value.asArray?).getD [] := rfl
  rw [hentries]
  rcases hevent : Hook.eventOf doc event with _ | v
  · rfl
  · obtain ⟨entries, rfl⟩ := h v hevent
    rfl

theorem Sound.entriesAt {n : ℕ} {doc : Value} (h : Sound (n + 3) doc) (event : String) :
    ∀ entry ∈ entriesAt doc event, Sound n entry := by
  intro entry hentry
  have hentries : Hook.entriesAt doc event = ((eventOf doc event).bind Value.asArray?).getD [] := rfl
  rw [hentries] at hentry
  rcases hget : doc.get? "hooks" with _ | hooks
  · rw [eventOf, Value.index, hget] at hentry
    exact absurd hentry List.not_mem_nil
  · rw [eventOf, Value.index_eq_of_get? hget] at hentry
    rcases hevent : hooks.get? event with _ | v
    · rw [hevent] at hentry
      exact absurd hentry List.not_mem_nil
    · rw [hevent] at hentry
      cases v with
      | array entries => exact Sound.array_iff.mp ((h.get? hget).get? hevent) entry hentry
      | _ => exact absurd hentry List.not_mem_nil

theorem Rooted.changeAt {doc : Value} (h : Rooted doc) {event : String} (hlist : ListAt doc event)
    (f : List Value → List Value × Bool) : changeAt f ["hooks", event] doc =
      some (doc.set "hooks" (((doc.get? "hooks").getD (.object [])).set event (.array (f (entriesAt doc event)).1)),
        (f (entriesAt doc event)).2) := by
  obtain ⟨fields, rfl⟩ := h.isObject
  obtain ⟨hooks, hhooks, hevents⟩ := h.exists_hooks
  have hroot : objMut (.object fields) = .object fields := rfl
  have hinner : objMut (.object hooks) = .object hooks := rfl
  have hentries : ((Value.object hooks).get? event).getD (.array []) = .array (entriesAt (.object fields) event) := by
    rw [← hlist.eventOf, hevents event]
    rfl
  rw [Hook.changeAt, hroot, hhooks, Hook.changeAt, hinner, hentries]
  · rfl
  · exact List.cons_ne_nil _ _

/-- Putting a hook in changes the list of its event. -/
theorem Rooted.mergeHookEntry {n : ℕ} {doc : Value} (h : Rooted doc) (hsound : Sound (n + 6) doc) {event : String}
    (hlist : ListAt doc event) (matcher : Option String) {handler : Value} (hhandler : Sound (n + 1) handler) :
    ∃ doc' changed, mergeHookEntry doc ["hooks", event] matcher handler = some (doc', changed) ∧
      Replaced (n + 6) event (some (.array (mergeInto matcher handler (entriesAt doc event)).1)) doc doc' := by
  refine ⟨_, _, h.changeAt hlist _, h.replaced hsound event (Sound.array_iff.mpr ?_)⟩
  have hentries := hsound.entriesAt event
  unfold mergeInto
  split_ifs
  · exact hentries
  · intro entry hentry
    rcases List.mem_append.mp hentry with hold | hnew
    · exact hentries entry hold
    · rw [List.mem_singleton.mp hnew]
      exact hhandler.hookEntry matcher

/-! ## Runs -/

/-- What a run over some hooks changes: what is held for each of their events, by itself. -/
structure Ran (n : ℕ) (ws : List Wiring) (g : Wiring → Option Value → Option Value) (doc doc' : Value) : Prop where
  rooted : Rooted doc'
  sound : Sound n doc'
  others : ∀ k, k ≠ "hooks" → doc'.get? k = doc.get? k
  here : ∀ w ∈ ws, eventOf doc' w.event = g w (eventOf doc w.event)
  rest : ∀ k, k ∉ ws.map Wiring.event → eventOf doc' k = eventOf doc k

section

variable {n : ℕ} {w : Wiring} {ws : List Wiring} {g : Wiring → Option Value → Option Value} {doc next doc' : Value}

theorem Ran.nil (h : Rooted doc) (hsound : Sound n doc) : Ran n [] g doc doc :=
  ⟨h, hsound, fun _ _ => rfl, fun _ hw => absurd hw List.not_mem_nil, fun _ _ => rfl⟩

theorem Ran.cons (hstep : Replaced n w.event (g w (eventOf doc w.event)) doc next) (h : Ran n ws g next doc')
    (hnew : w.event ∉ ws.map Wiring.event) : Ran n (w :: ws) g doc doc' := by
  refine ⟨h.rooted, h.sound, fun k hk => (h.others k hk).trans (hstep.others k hk), fun v hv => ?_, fun k hk => ?_⟩
  · rcases List.mem_cons.mp hv with rfl | hv
    · rw [h.rest v.event hnew, hstep.here]
    · have hne : v.event ≠ w.event := fun heq => hnew (heq ▸ List.mem_map_of_mem hv)
      rw [h.here v hv, hstep.rest v.event hne]
  · obtain ⟨hne, hrest⟩ := not_or.mp (List.mem_cons.not.mp hk)
    rw [h.rest k hrest, hstep.rest k hne]

theorem ran_removals (h : Rooted doc) (hsound : Sound (n + 6) doc) (hnodup : (ws.map Wiring.event).Nodup) (changed : Bool) :
    Ran (n + 6) ws (fun w held => held.map (removeValue w.marker)) doc (ws.foldl removal (doc, changed)).1 := by
  induction ws generalizing doc changed with
  | nil => exact .nil h hsound
  | cons w ws ih =>
    obtain ⟨hnew, hnodup⟩ := List.nodup_cons.mp hnodup
    have hstep := h.removeHookCommands hsound w.event w.marker
    exact .cons hstep (ih hstep.rooted hstep.sound hnodup _) hnew

/-- What putting a hook in makes of what is held for its event. -/
def wired (w : Wiring) (held : Option Value) : Option Value :=
  some (.array (mergeInto w.matcher w.handler ((held.bind Value.asArray?).getD [])).1)

theorem ran_wirings (h : Rooted doc) (hsound : Sound (n + 6) doc) (hnodup : (ws.map Wiring.event).Nodup)
    (hlists : ∀ w ∈ ws, ListAt doc w.event) (changed : Bool) :
    ∃ r, ws.foldlM wire (doc, changed) = some r ∧ Ran (n + 6) ws wired doc r.1 := by
  induction ws generalizing doc changed with
  | nil => exact ⟨(doc, changed), rfl, .nil h hsound⟩
  | cons w ws ih =>
    obtain ⟨hnew, hnodup⟩ := List.nodup_cons.mp hnodup
    obtain ⟨hlist, hlists⟩ := List.forall_mem_cons.mp hlists
    obtain ⟨next, now, hmerge, hstep⟩ :=
      h.mergeHookEntry hsound hlist w.matcher (Sound.commandHandler n w.command w.timeout)
    have hwire : wire (doc, changed) w = some (next, changed || now) := by
      unfold wire Wiring.handler
      rw [hmerge]
      rfl
    have hnext : ∀ v ∈ ws, ListAt next v.event := fun v hv held hheld => by
      have hne : v.event ≠ w.event := fun heq => hnew (heq ▸ List.mem_map_of_mem hv)
      rw [hstep.rest v.event hne] at hheld
      exact hlists v hv held hheld
    obtain ⟨r, hr, hran⟩ := ih hstep.rooted hstep.sound hnodup hnext (changed || now)
    refine ⟨r, ?_, .cons hstep hran hnew⟩
    rw [List.foldlM_cons, hwire]
    exact hr

end

/-! ## The whole install -/

/-- The settings have the shape that the installer looks for. -/
structure Table.Shaped (t : Table) (doc : Value) : Prop where
  rooted : Rooted doc
  lists : ∀ w ∈ t.wirings, ListAt doc w.event

/-- What an install makes of the settings: for each event the old handlers are gone and the new entry is the last one. -/
structure Table.Installed (t : Table) (doc doc' : Value) : Prop where
  rooted : Rooted doc'
  others : ∀ k, k ≠ "hooks" → doc'.get? k = doc.get? k
  here : ∀ w ∈ t.wirings,
    eventOf doc' w.event = some (.array (removeFrom w.marker (entriesAt doc w.event) ++ [w.entry]))
  rest : ∀ k, k ∉ t.wirings.map Wiring.event → eventOf doc' k = eventOf doc k

theorem commandOf_handler (w : Wiring) : commandOf w.handler = some w.command := rfl

theorem handlersOf_entry (w : Wiring) : handlersOf w.entry = some [w.handler] := rfl

theorem marked_of_commandOf {marker command : String} {handler : Value} (h : commandOf handler = some command)
    (hmarker : containsText command marker = true) : marked marker handler = true := by
  rw [marked, h]
  exact hmarker

theorem handlersOf_set {entry : Value} {handlers kept : List Value} (h : handlersOf entry = some handlers) :
    handlersOf (entry.set "hooks" (.array kept)) = some kept := by
  obtain ⟨v, hget, -⟩ := Option.bind_eq_some_iff.mp h
  cases entry with
  | object fields =>
    rw [handlersOf, Value.get?_set_object, if_pos rfl]
    rfl
  | _ => cases hget

theorem handlersOf_dropMarked (marker : String) (entry : Value) :
    handlersOf (dropMarked marker entry) = (handlersOf entry).map fun handlers => handlers.filter fun h => !marked marker h := by
  unfold dropMarked
  rcases hhandlers : handlersOf entry with _ | handlers
  · exact hhandlers
  · exact handlersOf_set hhandlers

/-- After the old handlers are gone, no entry has the command that is put in. -/
theorem mergeInto_removeFrom {w : Wiring} (hmarked : containsText w.command w.marker = true) (entries : List Value) :
    mergeInto w.matcher w.handler (removeFrom w.marker entries) = (removeFrom w.marker entries ++ [w.entry], true) := by
  have hnone : (removeFrom w.marker entries).any (hasCommand w.matcher w.handler) = false := by
    refine List.any_eq_false.mpr fun entry hentry hhas => ?_
    obtain ⟨old, -, rfl⟩ := List.mem_map.mp (List.mem_of_mem_filter hentry)
    obtain ⟨-, hcommand⟩ := Bool.and_eq_true_iff.mp hhas
    obtain ⟨h, hh, hsame⟩ := List.any_eq_true.mp hcommand
    rw [handlersOf_dropMarked] at hh
    rcases hold : handlersOf old with _ | handlers
    · rw [hold] at hh
      exact absurd hh List.not_mem_nil
    · rw [hold] at hh
      have hunmarked := (List.mem_filter.mp hh).2
      have hmark := marked_of_commandOf (of_decide_eq_true hsame) hmarked
      rw [hmark] at hunmarked
      cases hunmarked
  rw [mergeInto, if_neg (Bool.eq_false_iff.mp hnone)]
  rfl

/-- Settings of the right shape are installed into. -/
theorem Table.Shaped.apply {t : Table} {n : ℕ} {doc : Value} (h : t.Shaped doc) (hsound : Sound (n + 6) doc) :
    ∃ doc' changed, t.apply doc = some (doc', changed) ∧ t.Installed doc doc' ∧ Sound (n + 6) doc' := by
  have hnodup : (t.removals.map Wiring.event).Nodup := (t.perm.map Wiring.event).nodup_iff.mpr t.nodup
  have hremoved := ran_removals h.rooted hsound hnodup false
  have hevents : ∀ k, k ∉ t.wirings.map Wiring.event → k ∉ t.removals.map Wiring.event := fun k hk hmem =>
    hk ((t.perm.map Wiring.event).mem_iff.mp hmem)
  obtain ⟨removed, hdef⟩ : ∃ removed, removed = t.removals.foldl removal (doc, false) := ⟨_, rfl⟩
  rw [← hdef] at hremoved
  have hheld : ∀ w ∈ t.wirings, eventOf removed.1 w.event = (eventOf doc w.event).map (removeValue w.marker) := fun w hw =>
    hremoved.here w (t.perm.mem_iff.mpr hw)
  have hlists : ∀ w ∈ t.wirings, ListAt removed.1 w.event := by
    intro w hw v hv
    rw [hheld w hw] at hv
    obtain ⟨old, hold, rfl⟩ := Option.map_eq_some_iff.mp hv
    obtain ⟨entries, rfl⟩ := h.lists w hw old hold
    exact ⟨_, rfl⟩
  obtain ⟨r, hr, hran⟩ := ran_wirings hremoved.rooted hremoved.sound t.nodup hlists removed.2
  refine ⟨r.1, r.2, ?_, ⟨hran.rooted, ?_, ?_, ?_⟩, hran.sound⟩
  · rw [Table.apply, ← hdef]
    exact hr
  · exact fun k hk => (hran.others k hk).trans (hremoved.others k hk)
  · intro w hw
    have hentries : (((eventOf doc w.event).map (removeValue w.marker)).bind Value.asArray?).getD [] =
        removeFrom w.marker (entriesAt doc w.event) := by
      have hat : entriesAt doc w.event = ((eventOf doc w.event).bind Value.asArray?).getD [] := rfl
      rw [hat]
      rcases hevent : eventOf doc w.event with _ | v
      · rfl
      · obtain ⟨entries, rfl⟩ := h.lists w hw v hevent
        rfl
    rw [hran.here w hw, hheld w hw, wired, hentries, mergeInto_removeFrom (t.contains w hw)]
  · exact fun k hk => (hran.rest k hk).trans (hremoved.rest k (hevents k hk))

/-- An event that holds no list is a panic. -/
example : (claudeTable ⟨fun _ => true, none, "/kb"⟩).apply
    (.object [("hooks", .object [("SessionEnd", .object [])])]) = none := by decide

/-! ## Installing again -/

theorem dropMarked_dropMarked (marker : String) (entry : Value) :
    dropMarked marker (dropMarked marker entry) = dropMarked marker entry := by
  rcases hhandlers : handlersOf entry with _ | handlers
  · have hsame : dropMarked marker entry = entry := by rw [dropMarked, hhandlers]
    rw [hsame, hsame]
  · have hdropped : dropMarked marker entry = entry.set "hooks" (.array (handlers.filter fun h => !marked marker h)) := by
      rw [dropMarked, hhandlers]
    rw [hdropped, dropMarked, handlersOf_set hhandlers]
    dsimp only
    rw [List.filter_filter, Value.set_set_self]
    simp only [Bool.and_self]

theorem removeFrom_append (marker : String) (l l' : List Value) :
    removeFrom marker (l ++ l') = removeFrom marker l ++ removeFrom marker l' := by
  rw [removeFrom, List.map_append, List.filter_append]
  rfl

theorem removeFrom_removeFrom (marker : String) (entries : List Value) :
    removeFrom marker (removeFrom marker entries) = removeFrom marker entries := by
  have hsame : ∀ entry ∈ removeFrom marker entries, dropMarked marker entry = entry := by
    intro entry hentry
    obtain ⟨old, -, rfl⟩ := List.mem_map.mp (List.mem_of_mem_filter hentry)
    exact dropMarked_dropMarked marker old
  have hmap : (removeFrom marker entries).map (dropMarked marker) = removeFrom marker entries :=
    (List.map_congr_left hsame).trans (List.map_id' _)
  have hagain : removeFrom marker (removeFrom marker entries) =
      ((removeFrom marker entries).map (dropMarked marker)).filter stays := rfl
  rw [hagain, hmap]
  exact List.filter_eq_self.mpr fun entry hentry => (List.mem_filter.mp hentry).2

/-- The entry that was put in is taken out. -/
theorem removeFrom_entry {w : Wiring} (h : containsText w.command w.marker = true) : removeFrom w.marker [w.entry] = [] := by
  have hmark := marked_of_commandOf (commandOf_handler w) h
  have hgone : stays (dropMarked w.marker w.entry) = false := by
    rw [stays, handlersOf_dropMarked, handlersOf_entry, Option.map_some, List.filter_cons_of_neg (by simp [hmark])]
    rfl
  rw [removeFrom, List.map_singleton, List.filter_singleton, hgone]
  rfl

variable {t : Table} {doc a b : Value}

theorem entriesAt_eq {doc : Value} {event : String} {entries : List Value} (h : eventOf doc event = some (.array entries)) :
    entriesAt doc event = entries := by
  have hat : entriesAt doc event = ((eventOf doc event).bind Value.asArray?).getD [] := rfl
  rw [hat, h]
  rfl

/-- Two installs in a row do what the second one does on what the user had. -/
theorem Table.Installed.twice (h : t.Installed doc a) (h' : t.Installed a b) : t.Installed doc b := by
  refine ⟨h'.rooted, fun k hk => (h'.others k hk).trans (h.others k hk), fun w hw => ?_,
    fun k hk => (h'.rest k hk).trans (h.rest k hk)⟩
  rw [h'.here w hw, entriesAt_eq (h.here w hw), removeFrom_append, removeFrom_removeFrom, removeFrom_entry (t.contains w hw),
    List.append_nil]

/-- An install determines the settings. -/
theorem Table.Installed.unique (ha : t.Installed doc a) (hb : t.Installed doc b) (hawf : a.WF) (hbwf : b.WF) : a = b := by
  obtain ⟨fieldsA, rfl⟩ := ha.rooted.isObject
  obtain ⟨fieldsB, rfl⟩ := hb.rooted.isObject
  have hhooks : ∀ {v : Value}, t.Installed doc v → v.WF → ∃ hooks, v.get? "hooks" = some (.object hooks) ∧
      Assoc.Ascending hooks ∧ ∀ k, Assoc.get? k hooks = eventOf v k := by
    intro v hv hwf
    obtain ⟨w, hw⟩ := List.exists_mem_of_ne_nil _ t.nonempty
    rcases hget : v.get? "hooks" with _ | held
    · have hhere := hv.here w hw
      rw [eventOf, Value.index, hget] at hhere
      cases hhere
    · obtain ⟨hooks, rfl⟩ := hv.rooted.hooks held hget
      refine ⟨hooks, rfl, (Value.wf_object.mp (Value.wf_of_get? hwf hget)).1, fun k => ?_⟩
      rw [eventOf, Value.index_eq_of_get? hget]
      rfl
  refine Value.object_ext (Value.wf_object.mp hawf).1 (Value.wf_object.mp hbwf).1 fun k => ?_
  by_cases hk : k = "hooks"
  · subst hk
    obtain ⟨hooksA, hgetA, hascA, heventsA⟩ := hhooks ha hawf
    obtain ⟨hooksB, hgetB, hascB, heventsB⟩ := hhooks hb hbwf
    rw [← Value.get?_object, hgetA, ← Value.get?_object, hgetB]
    refine congrArg some (Value.object_ext hascA hascB fun k => ?_)
    rw [heventsA, heventsB]
    by_cases hk : k ∈ t.wirings.map Wiring.event
    · obtain ⟨w, hw, rfl⟩ := List.mem_map.mp hk
      rw [ha.here w hw, hb.here w hw]
    · rw [ha.rest k hk, hb.rest k hk]
  · exact (ha.others k hk).trans (hb.others k hk).symm

/-! ## Numbers that are read differently -/

section

variable (f : UInt64 → UInt64)

theorem eventOf_mapFloats (doc : Value) (event : String) :
    eventOf (doc.mapFloats f) event = (eventOf doc event).map (Value.mapFloats f) := by
  rw [eventOf, eventOf, Value.index, Value.index, Value.get?_mapFloats]
  rcases doc.get? "hooks" with _ | hooks
  · rfl
  · exact Value.get?_mapFloats f hooks event

theorem asArray?_mapFloats (v : Value) : (v.mapFloats f).asArray? = v.asArray?.map (List.map (Value.mapFloats f)) := by
  cases v with
  | array items =>
    rw [Value.mapFloats_array]
    rfl
  | number n => cases n <;> simp [Value.mapFloats, Value.asArray?]
  | _ => simp [Value.mapFloats, Value.asArray?]

theorem asStr?_mapFloats (v : Value) : (v.mapFloats f).asStr? = v.asStr? := by
  cases v with
  | number n => cases n <;> simp [Value.mapFloats, Value.asStr?]
  | _ => simp [Value.mapFloats, Value.asStr?]

theorem entriesAt_mapFloats (doc : Value) (event : String) :
    entriesAt (doc.mapFloats f) event = (entriesAt doc event).map (Value.mapFloats f) := by
  have hat : ∀ doc : Value, entriesAt doc event = ((eventOf doc event).bind Value.asArray?).getD [] := fun _ => rfl
  rw [hat, hat, eventOf_mapFloats]
  rcases eventOf doc event with _ | v
  · rfl
  · rw [Option.map_some, Option.bind_some, Option.bind_some, asArray?_mapFloats]
    cases v.asArray? <;> rfl

theorem handlersOf_mapFloats (entry : Value) :
    handlersOf (entry.mapFloats f) = (handlersOf entry).map (List.map (Value.mapFloats f)) := by
  rw [handlersOf, handlersOf, Value.get?_mapFloats]
  rcases entry.get? "hooks" with _ | v
  · rfl
  · exact asArray?_mapFloats f v

theorem marked_mapFloats (marker : String) (handler : Value) : marked marker (handler.mapFloats f) = marked marker handler := by
  have hcommand : commandOf (handler.mapFloats f) = commandOf handler := by
    rw [commandOf, commandOf, Value.get?_mapFloats]
    rcases handler.get? "command" with _ | v
    · rfl
    · exact asStr?_mapFloats f v
  rw [marked, hcommand, marked]

theorem insert_map {α β : Type} (g : α → β) (key : String) (v : α) (l : List (String × α)) :
    (Assoc.insert key v l).map (fun e => (e.1, g e.2)) = Assoc.insert key (g v) (l.map fun e => (e.1, g e.2)) := by
  induction l with
  | nil => rfl
  | cons e rest ih =>
    simp only [Assoc.insert, List.map_cons]
    split_ifs
    · rfl
    · rfl
    · rw [List.map_cons, ih]

theorem set_mapFloats (v w : Value) (key : String) :
    (v.set key w).mapFloats f = (v.mapFloats f).set key (w.mapFloats f) := by
  cases v with
  | object fields =>
    rw [Value.set, Value.mapFloats, Value.mapFloats, Value.mapFloatsFields_eq, Value.mapFloatsFields_eq, insert_map]
    rfl
  | number n => cases n <;> simp [Value.mapFloats, Value.set]
  | array items => simp [Value.set]
  | _ => simp [Value.mapFloats, Value.set]

theorem dropMarked_mapFloats (marker : String) (entry : Value) :
    dropMarked marker (entry.mapFloats f) = (dropMarked marker entry).mapFloats f := by
  rw [dropMarked, handlersOf_mapFloats, dropMarked]
  rcases handlersOf entry with _ | handlers
  · rfl
  · dsimp only [Option.map_some]
    rw [set_mapFloats, Value.mapFloats_array, List.filter_map]
    simp only [Function.comp_def, marked_mapFloats]

theorem removeFrom_mapFloats (marker : String) (entries : List Value) :
    removeFrom marker (entries.map (Value.mapFloats f)) = (removeFrom marker entries).map (Value.mapFloats f) := by
  have hstays : ∀ entry : Value, stays (entry.mapFloats f) = stays entry := by
    intro entry
    rw [stays, stays, handlersOf_mapFloats]
    rcases handlersOf entry with _ | handlers
    · rfl
    · cases handlers <;> rfl
  rw [removeFrom, removeFrom, List.map_map, List.filter_map, List.filter_map, List.map_map]
  simp only [Function.comp_def, dropMarked_mapFloats, hstays]

theorem handler_mapFloats (command : String) (timeout : Option ℕ) :
    (commandHandler command timeout).mapFloats f = commandHandler command timeout := by
  unfold commandHandler
  cases timeout <;> simp [Value.mapFloats, Value.mapFloatsFields, Value.nat]

theorem entry_mapFloats (w : Wiring) : w.entry.mapFloats f = w.entry := by
  have hhandler := handler_mapFloats f w.command w.timeout
  unfold Wiring.entry hookEntry Wiring.handler
  cases w.matcher <;> simp [Value.mapFloats, Value.mapFloatsFields, Value.mapFloatsItems, hhandler]

/-- An install does not look at numbers. -/
theorem Table.Installed.mapFloats (h : t.Installed doc a) : t.Installed (doc.mapFloats f) (a.mapFloats f) := by
  obtain ⟨fields, rfl⟩ := h.rooted.isObject
  refine ⟨⟨⟨_, by rw [Value.mapFloats]⟩, fun v hv => ?_⟩, fun k hk => ?_, fun w hw => ?_, fun k hk => ?_⟩
  · rw [Value.get?_mapFloats] at hv
    obtain ⟨old, hold, rfl⟩ := Option.map_eq_some_iff.mp hv
    obtain ⟨hooks, rfl⟩ := h.rooted.hooks old hold
    exact ⟨_, by rw [Value.mapFloats]⟩
  · rw [Value.get?_mapFloats, Value.get?_mapFloats, h.others k hk]
  · rw [eventOf_mapFloats, h.here w hw, Option.map_some, Value.mapFloats_array, List.map_append, List.map_singleton,
      entriesAt_mapFloats, removeFrom_mapFloats, entry_mapFloats]
  · rw [eventOf_mapFloats, eventOf_mapFloats, h.rest k hk]

end

end Innen.Hook
