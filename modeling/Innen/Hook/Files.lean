import Innen.Hook.Preserved
import Innen.Json.Readable

/-!
# What an install leaves of a file

A file keeps what the user wrote, and installing again does not change it, exactly when it is read, has the shape that the
installer looks for, holds nothing else that looks like innen's, and has no number that is read differently once it is
printed (`keepsSettings_iff`). Otherwise the installer should end with an error and leave the file alone, but it never
ends with an error.
-/

namespace Innen.Hook

open Common

/-! ## Agents -/

/-- The table of an agent that has hooks by event. -/
def Agent.table (env : Env) : Agent → Option Table
  | .claudeCode => some (claudeTable env)
  | .codex => some (codexTable env)
  | .grok => some (grokTable env)
  | .antigravity => none

section

variable {env : Env} {agent : Agent} {t : Table}

theorem Agent.table_mem (h : agent.table env = some t) : t ∈ tables env := by
  cases agent <;> simp only [Agent.table, Option.some.injEq, reduceCtorEq] at h <;> subst h <;> simp [tables]

theorem Agent.change_eq (h : agent.table env = some t) : agent.change env = t.apply := by
  cases agent <;> simp only [Agent.table, Option.some.injEq, reduceCtorEq] at h <;> subst h <;> rfl

theorem Agent.eq_antigravity (h : agent.table env = none) : agent = .antigravity := by
  cases agent <;> simp only [Agent.table, reduceCtorEq] at h
  rfl

end

/-- The settings have the shape that the installer of an agent looks for. -/
structure Agent.Shaped (agent : Agent) (env : Env) (doc : Value) : Prop where
  isObject : ∃ fields, doc = .object fields
  table : ∀ t, agent.table env = some t → t.Shaped doc

/-- Under a key of its own innen replaces only what it wrote. -/
structure ProgressKept {env : Env} (prov : Provenance env) (doc doc' : Value) : Prop where
  others : ∀ k, k ≠ "innen-progress" → doc'.get? k = doc.get? k
  own : ∀ v, doc.get? "innen-progress" = some v → ¬prov.progress v → doc'.get? "innen-progress" = some v

/-- All that innen did not write is as it was. -/
structure Agent.Preserves (agent : Agent) {env : Env} (prov : Provenance env) (doc doc' : Value) : Prop where
  table : ∀ t, agent.table env = some t → t.Preserves prov doc doc'
  progress : agent.table env = none → ProgressKept prov doc doc'

/-- All that looks like innen's was written by it. -/
structure Agent.Clean (agent : Agent) {env : Env} (prov : Provenance env) (doc : Value) : Prop where
  table : ∀ t, agent.table env = some t → t.Clean prov doc
  progress : agent.table env = none → ∀ v, doc.get? "innen-progress" = some v → prov.progress v

/-! ## Changes -/

section

variable {env : Env} {agent : Agent} {t : Table} {doc doc' : Value}

/-- The installed settings have the right shape again. -/
theorem Table.Installed.shaped (h : t.Installed doc doc') : t.Shaped doc' := by
  refine ⟨h.rooted, fun w hw v hv => ?_⟩
  rw [h.here w hw] at hv
  exact ⟨_, (Option.some.inj hv).symm⟩

/-- Installing again changes nothing. -/
theorem Table.Installed.again {n : ℕ} (h : t.Installed doc doc') (hsound : Sound (n + 6) doc') :
    ∃ changed, t.apply doc' = some (doc', changed) := by
  obtain ⟨next, changed, happly, hinstalled, hnext⟩ := h.shaped.apply hsound
  rw [(h.twice hinstalled).unique h hnext.wf hsound.wf] at happly
  exact ⟨changed, happly⟩

theorem sound_progressHook (env : Env) (n : ℕ) : Sound (n + 3) (progressHook env) := by
  refine Sound.object_iff.mpr ⟨Assoc.ascending_of_keys (show ["Stop"].Pairwise (· < ·) by decide), fun e he => ?_⟩
  rw [List.mem_singleton.mp he]
  refine Sound.array_iff.mpr fun v hv => ?_
  rw [List.mem_singleton.mp hv]
  exact Sound.commandHandler n _ _

/-- What is done to settings of the right shape. -/
structure Changed (L : Library) (agent : Agent) {env : Env} (prov : Provenance env) (doc doc' : Value) : Prop where
  sound : Sound maxDepth doc'
  preserves_iff : agent.Preserves prov doc (doc'.mapFloats L.reparseFloat) ↔
    agent.Clean prov doc ∧ doc.mapFloats L.reparseFloat = doc
  fixed : doc.mapFloats L.reparseFloat = doc → doc'.mapFloats L.reparseFloat = doc'
  again : ∃ changed, agent.change env doc' = some (doc', changed)

theorem Agent.preserves_iff_table {prov : Provenance env} (h : agent.table env = some t) :
    agent.Preserves prov doc doc' ↔ t.Preserves prov doc doc' := by
  refine ⟨fun hp => hp.table t h, fun hp => ⟨fun t' ht' => ?_, fun hnone => ?_⟩⟩
  · obtain rfl := Option.some.inj (h.symm.trans ht')
    exact hp
  · rw [h] at hnone
    cases hnone

theorem Agent.clean_iff_table {prov : Provenance env} (h : agent.table env = some t) :
    agent.Clean prov doc ↔ t.Clean prov doc := by
  refine ⟨fun hp => hp.table t h, fun hp => ⟨fun t' ht' => ?_, fun hnone => ?_⟩⟩
  · obtain rfl := Option.some.inj (h.symm.trans ht')
    exact hp
  · rw [h] at hnone
    cases hnone

theorem progressHook_mapFloats (env : Env) (f : UInt64 → UInt64) : (progressHook env).mapFloats f = progressHook env := by
  have hhandler := handler_mapFloats f (runCommand env "stop") (some 15)
  unfold progressHook
  simp [Value.mapFloats, Value.mapFloatsFields, Value.mapFloatsItems, hhandler]

/-- Under its own key innen keeps what the user wrote exactly when that was not the user's. -/
theorem changed_progress (L : Library) (prov : Provenance env) {fields : Fields} (hsound : Sound maxDepth (.object fields)) :
    ∃ doc' changed, Agent.antigravity.change env (.object fields) = some (doc', changed) ∧
      Changed L .antigravity prov (.object fields) doc' := by
  have hget : ∀ k, ((Value.object fields).set "innen-progress" (progressHook env)).get? k =
      if k = "innen-progress" then some (progressHook env) else (Value.object fields).get? k :=
    fun k => Value.get?_set_object fields "innen-progress" k (progressHook env)
  have hfloats : ((Value.object fields).set "innen-progress" (progressHook env)).mapFloats L.reparseFloat =
      ((Value.object fields).mapFloats L.reparseFloat).set "innen-progress" (progressHook env) := by
    rw [set_mapFloats, progressHook_mapFloats]
  have hnone : ∀ t, Agent.antigravity.table env ≠ some t := fun t ht => by
    simp only [Agent.table, reduceCtorEq] at ht
  refine ⟨(Value.object fields).set "innen-progress" (progressHook env), _, rfl,
    hsound.set (sound_progressHook env 123), ⟨fun h => ?_, ?_⟩, fun hfixed => ?_, ?_⟩
  · obtain ⟨hothers, hown⟩ := h.progress rfl
    have hclean : ∀ v, (Value.object fields).get? "innen-progress" = some v → prov.progress v := by
      intro v hv
      by_contra hforeign
      have hkept := hown v hv hforeign
      rw [Value.get?_mapFloats, hget, if_pos rfl, Option.map_some, progressHook_mapFloats, Option.some.injEq] at hkept
      exact hforeign (hkept ▸ prov.progress_current)
    refine ⟨⟨fun t ht => absurd ht (hnone t), fun _ => hclean⟩, mapFloats_object hsound.wf fun k v hv => ?_⟩
    by_cases hk : k = "innen-progress"
    · exact prov.progress_plain (hclean v (hk ▸ hv)) L.reparseFloat
    · have hother := hothers k hk
      rw [Value.get?_mapFloats, hget, if_neg hk, hv, Option.map_some, Option.some.injEq] at hother
      exact hother
  · rintro ⟨hclean, hfixed⟩
    refine ⟨fun t ht => absurd ht (hnone t), fun _ => ⟨fun k hk => ?_, fun v hv hforeign => ?_⟩⟩
    · rw [hfloats, hfixed, hget, if_neg hk]
    · exact absurd (hclean.progress rfl v hv) hforeign
  · rw [hfloats, hfixed]
  · exact ⟨_, congrArg some (Prod.ext (Value.set_set_self (.object fields) "innen-progress" _ _) rfl)⟩

theorem Agent.Shaped.changed (L : Library) (prov : Provenance env) (h : agent.Shaped env doc) (hsound : Sound maxDepth doc) :
    ∃ doc' changed, agent.change env doc = some (doc', changed) ∧ Changed L agent prov doc doc' := by
  have hread : ∀ {v : Value}, Sound maxDepth v → (v.mapFloats L.reparseFloat).WF := fun hv =>
    L.wf_of_parse (L.parse_pretty hv.wf hv.readable)
  rcases htable : agent.table env with _ | t
  · obtain rfl := Agent.eq_antigravity htable
    obtain ⟨fields, rfl⟩ := h.isObject
    exact changed_progress L prov hsound
  · obtain ⟨doc', changed, happly, hinstalled, hsound'⟩ := (h.table t htable).apply (n := 121) hsound
    have ht := Agent.table_mem htable
    refine ⟨doc', changed, by rw [Agent.change_eq htable, happly], hsound', ?_, fun hfixed => ?_, ?_⟩
    · have hiff : t.Preserves prov doc (doc'.mapFloats L.reparseFloat) ↔ _ :=
        hinstalled.preserves_iff ht (h.table t htable) (n := 121) hsound hsound'.wf (hread hsound')
      rw [Agent.preserves_iff_table htable, Agent.clean_iff_table htable]
      exact hiff
    · have hagain := hinstalled.mapFloats L.reparseFloat
      rw [hfixed] at hagain
      exact hagain.unique hinstalled (hread hsound') hsound'.wf
    · rw [Agent.change_eq htable]
      exact hinstalled.again (n := 121) hsound'

end

/-! ## Files -/

section

variable (L : Library) (env : Env) (prov : Provenance env) (agent : Agent) (scope path : String)

theorem install_of_change {L : Library} {env : Env} {agent : Agent} {scope path : String} {bytes : List UInt8}
    {doc doc' : Value} {changed : Bool} (hparse : L.parse bytes = some doc)
    (h : agent.change env doc = some (doc', changed)) :
    install L env agent scope path (some bytes) = (.ok (agent.note scope path changed), some (L.pretty doc')) := by
  have hread : readJsonFile L (some bytes) = doc := by rw [readJsonFile, Option.bind_some, hparse, Option.getD_some]
  rw [install, rewrite, hread, h]

/-- No install ends with an error. -/
theorem install_ne_error (file : Option (List UInt8)) (message : String) :
    (install L env agent scope path file).1 ≠ .error message := by
  rw [install, rewrite]
  split <;> simp

/-- An install on an existing file keeps the user's configuration: settings of the right shape keep all that innen did not
write, and are not changed by installing again; on any other file the install ends with an error and leaves it as it is. -/
structure KeepsSettings (bytes : List UInt8) : Prop where
  kept : ∀ doc, L.parse bytes = some doc → agent.Shaped env doc → ∃ note again written doc',
    install L env agent scope path (some bytes) = (.ok note, some written) ∧ L.parse written = some doc' ∧
      agent.Preserves prov doc doc' ∧ install L env agent scope path (some written) = (.ok again, some written)
  refused : (∀ doc, L.parse bytes = some doc → ¬agent.Shaped env doc) → ∃ message,
    install L env agent scope path (some bytes) = (.error message, some bytes)

/-- Exactly these files are kept: they are read, have the right shape, hold nothing of the user's that looks like innen's, and
no number that is read differently once it is printed. -/
theorem keepsSettings_iff (bytes : List UInt8) :
    KeepsSettings L env prov agent scope path bytes ↔ ∃ doc, L.parse bytes = some doc ∧ agent.Shaped env doc ∧
      agent.Clean prov doc ∧ doc.mapFloats L.reparseFloat = doc := by
  have hsound : ∀ {doc : Value}, L.parse bytes = some doc → Sound maxDepth doc := fun hparse =>
    ⟨L.wf_of_parse hparse, L.readable_of_parse hparse⟩
  constructor
  · intro h
    by_cases hshaped : ∃ doc, L.parse bytes = some doc ∧ agent.Shaped env doc
    · obtain ⟨doc, hparse, hshape⟩ := hshaped
      obtain ⟨doc', changed, hchange, hchanged⟩ := hshape.changed L prov (hsound hparse)
      obtain ⟨note, again, written, read, hinstall, hread, hpreserves, -⟩ := h.kept doc hparse hshape
      rw [install_of_change hparse hchange] at hinstall
      obtain rfl := Option.some.inj (Prod.mk.inj hinstall).2
      rw [L.parse_pretty hchanged.sound.wf hchanged.sound.readable] at hread
      obtain rfl := Option.some.inj hread
      exact ⟨doc, hparse, hshape, hchanged.preserves_iff.mp hpreserves⟩
    · obtain ⟨message, herror⟩ := h.refused fun doc hparse hshape => hshaped ⟨doc, hparse, hshape⟩
      exact absurd (congrArg Prod.fst herror) (install_ne_error L env agent scope path (some bytes) message)
  · rintro ⟨doc, hparse, hshape, hclean, hfixed⟩
    obtain ⟨doc', changed, hchange, hchanged⟩ := hshape.changed L prov (hsound hparse)
    obtain ⟨again, hagain⟩ := hchanged.again
    refine ⟨fun read hread _ => ?_, fun hnone => absurd hshape (hnone doc hparse)⟩
    obtain rfl := Option.some.inj (hparse.symm.trans hread)
    have hwritten := L.parse_pretty hchanged.sound.wf hchanged.sound.readable
    refine ⟨_, agent.note scope path again, _, _, install_of_change hparse hchange, hwritten, hchanged.preserves_iff.mpr ⟨hclean, hfixed⟩, ?_⟩
    rw [hchanged.fixed hfixed] at hwritten
    exact install_of_change hwritten hagain

end

/-! ## Settings with a comment -/

/-- The markers of the events. -/
def markers : List (String × String) :=
  [("SessionEnd", "hook run --event session-end"), ("SessionStart", "hook pending"),
    ("PreCompact", "hook run --event compact"), ("Stop", "hook run --event stop")]

theorem mem_markers {env : Env} {t : Table} {w : Wiring} (ht : t ∈ tables env) (hw : w ∈ t.wirings) :
    (w.event, w.marker) ∈ markers := by
  simp only [tables, List.mem_cons, List.not_mem_nil, or_false] at ht
  rcases ht with rfl | rfl | rfl <;>
    · simp only [claudeTable, codexTable, grokTable, List.mem_cons, List.not_mem_nil, or_false] at hw
      rcases hw with rfl | rfl | rfl <;> simp [markers, sessionEnd, sessionStart, preCompact, stop]

theorem marker_unique : ∀ a ∈ markers, ∀ b ∈ markers, a.1 = b.1 → a.2 = b.2 := by decide

/-- Whatever looks like innen's was written by it. -/
def Provenance.byMarker (env : Env) : Provenance env where
  handler event h := Plain h ∧ ∀ m ∈ markers, m.1 = event → marked m.2 h = true
  entry event v := Plain v ∧ ∃ h, (Plain h ∧ ∀ m ∈ markers, m.1 = event → marked m.2 h = true) ∧ handlersOf v = some [h]
  progress := Plain
  handler_marked {_ w _} ht hw h := h.2 (w.event, w.marker) (mem_markers ht hw) rfl
  entry_handler h := h.2
  handler_plain h := h.1
  entry_plain h := h.1
  progress_plain h := h
  handler_current := by
    intro t w ht hw
    refine ⟨fun f => handler_mapFloats f w.command w.timeout, fun m hm hevent => ?_⟩
    rw [marker_unique m hm _ (mem_markers ht hw) hevent]
    exact marked_of_commandOf (commandOf_handler w) (t.contains w hw)
  entry_current := by
    intro t w ht hw
    refine ⟨fun f => entry_mapFloats f w, w.handler, ⟨fun f => handler_mapFloats f w.command w.timeout, fun m hm hevent => ?_⟩,
      handlersOf_entry w⟩
    rw [marker_unique m hm _ (mem_markers ht hw) hevent]
    exact marked_of_commandOf (commandOf_handler w) (t.contains w hw)
  progress_current f := progressHook_mapFloats env f

/-- The bytes of the text of a value. -/
def textBytes (v : Value) : List UInt8 := (v.toText bitsText).toByteArray.data.toList

theorem textBytes_inj {v w : Value} (h : textBytes v = textBytes w) : v = w := by
  have htext : v.toText bitsText = w.toText bitsText :=
    String.toByteArray_inj.mp (ByteArray.ext (Array.toList_inj.mp h))
  have htold := numberPrinter_bitsText.printed.told (v := v) trivial w [] [] trivial
    (fun _ hc => by cases hc) (fun _ hc => by cases hc)
  rw [List.append_nil, List.append_nil] at htold
  exact (htold (congrArg String.toList htext)).1

theorem mapFloats_id (v : Value) : v.mapFloats (fun bits => bits) = v := by
  induction v using Value.induct with
  | number n => cases n <;> simp [Value.mapFloats]
  | array items ih => rw [Value.mapFloats_array, List.map_congr_left ih, List.map_id']
  | object fields ih =>
    have hsame : ∀ e ∈ fields, (e.1, e.2.mapFloats fun bits => bits) = e := fun e he => Prod.ext rfl (ih e he)
    rw [Value.mapFloats, Value.mapFloatsFields_eq, List.map_congr_left hsame, List.map_id']
  | _ => simp [Value.mapFloats]

open scoped Classical in
/-- A library that reads a file when it is the text of a value. -/
noncomputable def textLibrary : Library where
  parse bytes := if h : ∃ v : Value, (v.WF ∧ Readable maxDepth v) ∧ textBytes v = bytes then some h.choose else none
  pretty := textBytes
  reparseFloat bits := bits
  wf_of_parse := by
    intro bytes v h
    split_ifs at h with hex
    obtain rfl := Option.some.inj h
    exact hex.choose_spec.1.1
  readable_of_parse := by
    intro bytes v h
    split_ifs at h with hex
    obtain rfl := Option.some.inj h
    exact hex.choose_spec.1.2
  parse_pretty := by
    intro v hwf hreadable
    have hex : ∃ w : Value, (w.WF ∧ Readable maxDepth w) ∧ textBytes w = textBytes v := ⟨v, ⟨hwf, hreadable⟩, rfl⟩
    rw [dif_pos hex, textBytes_inj hex.choose_spec.2, mapFloats_id]

/-- Settings that begin with a comment. -/
def commented : String := "// my settings\n\x7b\"hooks\": \x7b\x7d\x7d\n"

theorem parse_commented : textLibrary.parse commented.toByteArray.data.toList = none := by
  refine dif_neg ?_
  rintro ⟨v, -, h⟩
  have htext : v.toText bitsText = commented := String.toByteArray_inj.mp (ByteArray.ext (Array.toList_inj.mp h))
  obtain ⟨c, cs, hcs, hc⟩ := numberPrinter_bitsText.printed.exists_shape (v := v) trivial
  have hslash : commented.toList = '/' :: commented.toList.tail := rfl
  rw [htext, hslash] at hcs
  obtain rfl := (List.cons.inj hcs).1
  have hnone : Value.Shape.of '/' = none := rfl
  rw [hnone] at hc
  cases hc

/-- Settings with a comment are overwritten without an error. -/
theorem commented_lost : ¬∀ (L : Library) (env : Env) (prov : Provenance env) (agent : Agent) (scope path : String)
    (bytes : List UInt8), KeepsSettings L env prov agent scope path bytes := by
  intro h
  let env : Env := ⟨fun _ => true, none, "/kb"⟩
  have hkeeps := h textLibrary env (.byMarker env) .claudeCode "user" "settings.json" commented.toByteArray.data.toList
  obtain ⟨message, herror⟩ := hkeeps.refused fun doc hparse => by
    rw [parse_commented] at hparse
    cases hparse
  exact install_ne_error _ _ _ _ _ _ message (congrArg Prod.fst herror)

end Innen.Hook
