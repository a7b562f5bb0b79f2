import Innen.Conversation.Page
import Mathlib.Data.List.Lex
import Mathlib.Data.List.Nodup
import Mathlib.Data.List.Perm.Basic
import Mathlib.Data.String.Basic
import Mathlib.Order.WithBot

/-!
# Deduplicating resume candidates

Several sources may report a session. `deduplicate_candidates` keeps one candidate for each source and id, the newest
one, and sorts what it keeps by the time and then by the id. Two candidates of different sources may tie in that, and
then the iteration order of the hash map decides; two candidates of one key may tie in the time and the path, and then
the order of the input decides. The result is determined exactly if neither happens (`determined_iff`).
-/

namespace Innen.Conversation.Resume

open Innen.Conversation

/-- A session that can be resumed. A path is the list of its components, as the library compares it, and no time is
before every time. -/
structure Candidate where
  id : String
  source : Source
  modified : WithBot String
  path : List String
  project : Option String
  parentId : Option String
deriving DecidableEq

/-- The deduplication key. -/
def Candidate.key (c : Candidate) : Source × String := (c.source, c.id)

/-- Whether a candidate replaces the one that was selected for its key. -/
def Candidate.beats (c current : Candidate) : Bool :=
  current.modified < c.modified ∨ (c.modified = current.modified ∧ c.path < current.path)

/-- One step of the loop over the candidates. The map is the list of its values in any order. -/
def select (selected : List Candidate) (c : Candidate) : List Candidate :=
  match selected.find? fun d => d.key = c.key with
  | none => selected ++ [c]
  | some current => if c.beats current then selected.map fun d => if d.key = c.key then c else d else selected

/-- The values of the map behind the loop. -/
def selection (candidates : List Candidate) : List Candidate := candidates.foldl select []

/-- The order of the result: the newest first, and by id among those of one time. -/
def rankLE (a b : Candidate) : Bool := b.modified < a.modified ∨ (a.modified = b.modified ∧ a.id ≤ b.id)

/-- `deduplicate_candidates`: a hash map gives its values in any order. -/
def Deduplicates (candidates out : List Candidate) : Prop :=
  ∃ values : List Candidate, values.Perm (selection candidates) ∧ out = values.mergeSort rankLE

variable {candidates : List Candidate} {c d e : Candidate}

/-! ## The order of replacing -/

theorem beats_iff : c.beats d = true ↔ d.modified < c.modified ∨ c.modified = d.modified ∧ c.path < d.path :=
  decide_eq_true_iff

theorem not_beats_self (c : Candidate) : ¬c.beats c = true := by
  rw [beats_iff]
  rintro (h | ⟨-, h⟩)
  · exact lt_irrefl _ h
  · exact lt_irrefl _ h

theorem beats_trans (h : c.beats d = true) (h' : d.beats e = true) : c.beats e = true := by
  rw [beats_iff] at h h' ⊢
  rcases h with h | ⟨h, hpath⟩ <;> rcases h' with h' | ⟨h', hpath'⟩
  · exact .inl (h'.trans h)
  · exact .inl (h' ▸ h)
  · exact .inl (h ▸ h')
  · exact .inr ⟨h.trans h', hpath.trans hpath'⟩

/-! ## What is selected -/

/-- What the map holds behind some of the candidates. -/
structure Selected (candidates selected : List Candidate) : Prop where
  keys : (selected.map Candidate.key).Nodup
  mem : ∀ c ∈ selected, c ∈ candidates
  best : ∀ c ∈ selected, ∀ e ∈ candidates, e.key = c.key → ¬e.beats c = true
  covers : ∀ e ∈ candidates, ∃ c ∈ selected, c.key = e.key

theorem find_key {selected : List Candidate} (h : selected.find? (fun d => d.key = c.key) = some e) :
    e ∈ selected ∧ e.key = c.key :=
  ⟨List.mem_of_find?_eq_some h, by simpa using List.find?_some h⟩

theorem map_key_replace {selected : List Candidate} :
    (selected.map fun d => if d.key = c.key then c else d).map Candidate.key = selected.map Candidate.key := by
  rw [List.map_map]
  refine List.map_congr_left fun d _ => ?_
  by_cases h : d.key = c.key
  · simp [h]
  · simp [h]

/-- One candidate more. -/
theorem Selected.select {selected : List Candidate} (h : Selected candidates selected) (c : Candidate) :
    Selected (candidates ++ [c]) (select selected c) := by
  rw [Resume.select]
  split
  · rename_i hnone
    have hfresh : ∀ d ∈ selected, d.key ≠ c.key := fun d hd => by
      simpa using List.find?_eq_none.mp hnone d hd
    refine ⟨?_, fun d hd => ?_, fun d hd e he hkey => ?_, fun e he => ?_⟩
    · rw [List.map_append]
      refine List.nodup_append.mpr ⟨h.keys, List.nodup_singleton _, ?_⟩
      rintro k hk k' hk' rfl
      obtain ⟨d, hd, hdk⟩ := List.mem_map.mp hk
      exact hfresh d hd (hdk.trans (List.mem_singleton.mp hk'))
    · rcases List.mem_append.mp hd with hd | hd
      · exact List.mem_append_left _ (h.mem d hd)
      · exact List.mem_append_right _ hd
    · rcases List.mem_append.mp hd with hd' | hd' <;> rcases List.mem_append.mp he with he' | he'
      · exact h.best d hd' e he' hkey
      · obtain rfl := List.mem_singleton.mp he'
        exact absurd hkey.symm (hfresh d hd')
      · obtain rfl := List.mem_singleton.mp hd'
        obtain ⟨f, hf, hfk⟩ := h.covers e he'
        exact absurd (hfk.trans hkey) (hfresh f hf)
      · obtain rfl := List.mem_singleton.mp hd'
        obtain rfl := List.mem_singleton.mp he'
        exact not_beats_self _
    · rcases List.mem_append.mp he with he | he
      · obtain ⟨f, hf, hfk⟩ := h.covers e he
        exact ⟨f, List.mem_append_left _ hf, hfk⟩
      · obtain rfl := List.mem_singleton.mp he
        exact ⟨e, List.mem_append_right _ he, rfl⟩
  · rename_i current hcurrent
    obtain ⟨hmem, hkey⟩ := find_key hcurrent
    split
    · rename_i hbeats
      have hcases : ∀ d ∈ selected.map fun d => if d.key = c.key then c else d, d = c ∨ d ∈ selected ∧ d.key ≠ c.key := by
        intro d hd
        obtain ⟨d', hd', rfl⟩ := List.mem_map.mp hd
        by_cases h' : d'.key = c.key
        · exact .inl (if_pos h')
        · rw [if_neg h']
          exact .inr ⟨hd', h'⟩
      refine ⟨by rw [map_key_replace]; exact h.keys, fun d hd => ?_, fun d hd e he hk => ?_, fun e he => ?_⟩
      · rcases hcases d hd with rfl | ⟨hd, -⟩
        · exact List.mem_append_right _ List.mem_cons_self
        · exact List.mem_append_left _ (h.mem d hd)
      · rcases hcases d hd with rfl | ⟨hd, hne⟩ <;> rcases List.mem_append.mp he with he | he
        · -- what beats the new candidate would have beaten the old one
          exact fun hb => h.best current hmem e he (hk.trans hkey.symm) (beats_trans hb hbeats)
        · obtain rfl := List.mem_singleton.mp he
          exact not_beats_self _
        · exact h.best d hd e he hk
        · obtain rfl := List.mem_singleton.mp he
          exact absurd hk.symm hne
      · have hof : ∀ k, k ∈ selected.map Candidate.key →
            ∃ f ∈ selected.map (fun d => if d.key = c.key then c else d), f.key = k := by
          intro k hk
          rw [← map_key_replace (c := c)] at hk
          exact List.mem_map.mp hk
        rcases List.mem_append.mp he with he | he
        · obtain ⟨f, hf, hfk⟩ := h.covers e he
          exact hof _ (hfk ▸ List.mem_map_of_mem hf)
        · obtain rfl := List.mem_singleton.mp he
          exact hof _ (hkey ▸ List.mem_map_of_mem hmem)
    · rename_i hbeats
      refine ⟨h.keys, fun d hd => List.mem_append_left _ (h.mem d hd), fun d hd e he hk => ?_, fun e he => ?_⟩
      · rcases List.mem_append.mp he with he | he
        · exact h.best d hd e he hk
        · obtain rfl := List.mem_singleton.mp he
          obtain rfl := List.inj_on_of_nodup_map h.keys hd hmem (hk.symm.trans hkey.symm)
          exact hbeats
      · rcases List.mem_append.mp he with he | he
        · exact h.covers e he
        · obtain rfl := List.mem_singleton.mp he
          exact ⟨current, hmem, hkey⟩

theorem selected_selection (candidates : List Candidate) : Selected candidates (selection candidates) := by
  induction candidates using List.reverseRecOn with
  | nil => exact ⟨List.nodup_nil, fun c hc => (by cases hc), fun c hc => (by cases hc), fun e he => (by cases he)⟩
  | append_singleton candidates c ih =>
    rw [selection, List.foldl_append]
    exact ih.select c

/-- A candidate that nothing replaces stays. -/
theorem mem_foldl_select {selected : List Candidate} (hmem : c ∈ selected)
    (h : ∀ e ∈ candidates, e.key = c.key → ¬e.beats c = true) (hkeys : (selected.map Candidate.key).Nodup) :
    c ∈ candidates.foldl select selected := by
  induction candidates generalizing selected with
  | nil => exact hmem
  | cons e rest ih =>
    have hselected : Selected selected selected := ⟨hkeys, fun _ hc => hc, fun d hd f hf hk => by
      obtain rfl := List.inj_on_of_nodup_map hkeys hd hf hk.symm
      exact not_beats_self _, fun f hf => ⟨f, hf, rfl⟩⟩
    refine ih ?_ (fun f hf => h f (List.mem_cons_of_mem e hf)) (hselected.select e).keys
    rw [select]
    split
    · exact List.mem_append_left _ hmem
    · rename_i current hcurrent
      obtain ⟨hcmem, hckey⟩ := find_key hcurrent
      split
      · rename_i hbeats
        by_cases hk : c.key = e.key
        · obtain rfl := List.inj_on_of_nodup_map hkeys hmem hcmem (hk.trans hckey.symm)
          exact absurd hbeats (h e List.mem_cons_self hk.symm)
        · exact List.mem_map.mpr ⟨c, hmem, if_neg hk⟩
      · exact hmem

/-! ## The order of the result -/

theorem rankLE_iff : rankLE c d = true ↔ d.modified < c.modified ∨ c.modified = d.modified ∧ c.id ≤ d.id :=
  decide_eq_true_iff

theorem rankLE_trans (a b c : Candidate) (h : rankLE a b = true) (h' : rankLE b c = true) : rankLE a c = true := by
  rw [rankLE_iff] at h h' ⊢
  rcases h with h | ⟨h, hid⟩ <;> rcases h' with h' | ⟨h', hid'⟩
  · exact .inl (h'.trans h)
  · exact .inl (h' ▸ h)
  · exact .inl (h ▸ h')
  · exact .inr ⟨h.trans h', hid.trans hid'⟩

theorem rankLE_total (a b : Candidate) : (rankLE a b || rankLE b a) = true := by
  rw [Bool.or_eq_true, rankLE_iff, rankLE_iff]
  rcases lt_trichotomy a.modified b.modified with h | h | h
  · exact .inr (.inl h)
  · rcases le_total a.id b.id with hid | hid
    · exact .inl (.inr ⟨h, hid⟩)
    · exact .inr (.inr ⟨h.symm, hid⟩)
  · exact .inl (.inl h)

/-- Candidates that the order does not tell apart have the same time and id. -/
theorem rankLE_antisymm (h : rankLE c d = true) (h' : rankLE d c = true) : c.modified = d.modified ∧ c.id = d.id := by
  rw [rankLE_iff] at h h'
  rcases h with h | ⟨h, hid⟩ <;> rcases h' with h' | ⟨h', hid'⟩
  · exact absurd h' (lt_asymm h)
  · exact absurd h' h.ne
  · exact absurd h h'.ne
  · exact ⟨h, le_antisymm hid hid'⟩

/-! ## When the result is determined -/

/-- A candidate that no candidate of its key replaces. -/
def Best (candidates : List Candidate) (c : Candidate) : Prop :=
  c ∈ candidates ∧ ∀ e ∈ candidates, e.key = c.key → ¬e.beats c = true

/-- The best candidates of a key are the same, and those of two sources do not tie. -/
structure Determined (candidates : List Candidate) : Prop where
  unique : ∀ c d, Best candidates c → Best candidates d → c.key = d.key → c = d
  untied : ∀ c d, Best candidates c → Best candidates d → c.id = d.id → c.modified = d.modified → c.source = d.source

/-- A result with one candidate for each key, whatever the orders of the input and of the map are. -/
structure Result (candidates out : List Candidate) : Prop where
  only : ∀ candidates', candidates'.Perm candidates → ∀ out', Deduplicates candidates' out' → out' = out
  keys : (out.map Candidate.key).Nodup
  mem : ∀ c ∈ out, c ∈ candidates
  covers : ∀ c ∈ candidates, ∃ d ∈ out, d.key = c.key

theorem Best.perm {candidates' : List Candidate} (h : Best candidates c) (hperm : candidates'.Perm candidates) :
    Best candidates' c :=
  ⟨hperm.mem_iff.mpr h.1, fun e he => h.2 e (hperm.mem_iff.mp he)⟩

theorem Selected.bestOf {selected : List Candidate} (h : Selected candidates selected) (hc : c ∈ selected) :
    Best candidates c := ⟨h.mem c hc, h.best c hc⟩

theorem Selected.nodup {selected : List Candidate} (h : Selected candidates selected) : selected.Nodup :=
  List.Nodup.of_map _ h.keys

/-- The best candidates are what is selected, whatever the order of the input is. -/
theorem Determined.mem_selection (h : Determined candidates) {candidates' : List Candidate}
    (hperm : candidates'.Perm candidates) : c ∈ selection candidates' ↔ Best candidates c := by
  have hselected := selected_selection candidates'
  refine ⟨fun hc => (hselected.bestOf hc).perm hperm.symm, fun hbest => ?_⟩
  obtain ⟨d, hd, hkey⟩ := hselected.covers c (hperm.mem_iff.mpr hbest.1)
  rw [h.unique c d hbest ((hselected.bestOf hd).perm hperm.symm) hkey.symm]
  exact hd

theorem Determined.result (h : Determined candidates) : Result candidates ((selection candidates).mergeSort rankLE) := by
  have hselected := selected_selection candidates
  have hsorted := List.mergeSort_perm (selection candidates) rankLE
  refine ⟨?_, ?_, fun c hc => hselected.mem c (hsorted.mem_iff.mp hc), fun c hc => ?_⟩
  · rintro candidates' hperm out' ⟨values, hvalues, rfl⟩
    have hsame : values.Perm (selection candidates) := hvalues.trans
      ((List.perm_ext_iff_of_nodup (selected_selection candidates').nodup hselected.nodup).mpr fun c => by
        rw [h.mem_selection hperm, h.mem_selection (List.Perm.refl candidates)])
    have hpair := List.pairwise_mergeSort rankLE_trans rankLE_total
    refine List.Perm.eq_of_pairwise (fun c d hc hd hcd hdc => ?_) (hpair values) (hpair (selection candidates))
      ((List.mergeSort_perm values rankLE).trans (hsame.trans hsorted.symm))
    obtain ⟨hmodified, hid⟩ := rankLE_antisymm hcd hdc
    have hc' := hselected.bestOf (hsame.mem_iff.mp ((List.mergeSort_perm values rankLE).mem_iff.mp hc))
    have hd' := hselected.bestOf (hsorted.mem_iff.mp hd)
    exact h.unique c d hc' hd' (Prod.ext (h.untied c d hc' hd' hid hmodified) hid)
  · exact (hsorted.map Candidate.key).nodup_iff.mpr hselected.keys
  · obtain ⟨d, hd, hkey⟩ := hselected.covers c hc
    exact ⟨d, hsorted.mem_iff.mpr hd, hkey⟩

/-- A best candidate is selected when it comes first. -/
theorem Best.mem_selection (h : Best candidates c) : c ∈ selection (c :: candidates.erase c) := by
  have hfirst : selection (c :: candidates.erase c) = (candidates.erase c).foldl select [c] := rfl
  rw [hfirst]
  exact mem_foldl_select List.mem_cons_self (fun e he => h.2 e (List.mem_of_mem_erase he)) (List.nodup_singleton _)

theorem Best.perm_cons (h : Best candidates c) : (c :: candidates.erase c).Perm candidates :=
  (List.perm_cons_erase h.1).symm

theorem deduplicates_selection (candidates : List Candidate) :
    Deduplicates candidates ((selection candidates).mergeSort rankLE) := ⟨_, List.Perm.refl _, rfl⟩

/-- Every best candidate is in a result that is always the same. -/
theorem Result.mem_of_best {out : List Candidate} (h : Result candidates out) (hbest : Best candidates c) : c ∈ out := by
  rw [← h.only _ hbest.perm_cons _ (deduplicates_selection _)]
  exact (List.mergeSort_perm _ rankLE).mem_iff.mpr hbest.mem_selection

/-- A pair of different members cannot stand in both orders. -/
theorem not_both_orders {out : List Candidate} (hnodup : out.Nodup) (hne : c ≠ d) (h : [c, d].Sublist out)
    (h' : [d, c].Sublist out) : False := by
  induction out with
  | nil => cases h
  | cons e rest ih =>
    obtain ⟨hfresh, hnodup⟩ := List.nodup_cons.mp hnodup
    cases h with
    | cons _ h =>
      cases h' with
      | cons _ h' => exact ih hnodup h h'
      | cons_cons _ _ => exact hfresh (h.subset (by simp))
    | cons_cons _ _ =>
      cases h' with
      | cons _ h' => exact hfresh (h'.subset (by simp))
      | cons_cons _ _ => exact hne rfl

theorem Result.determined {out : List Candidate} (h : Result candidates out) : Determined candidates := by
  have hunique : ∀ c d, Best candidates c → Best candidates d → c.key = d.key → c = d := fun c d hc hd hkey =>
    List.inj_on_of_nodup_map h.keys (h.mem_of_best hc) (h.mem_of_best hd) hkey
  refine ⟨hunique, fun c d hc hd hid hmodified => ?_⟩
  by_contra hsource
  have hne : c ≠ d := fun heq => hsource (congrArg Candidate.source heq)
  have hselected := selected_selection candidates
  have hmem : ∀ c, Best candidates c → c ∈ selection candidates := fun c hc => by
    obtain ⟨e, he, hkey⟩ := hselected.covers c hc.1
    rw [hunique c e hc (hselected.bestOf he) hkey.symm]
    exact he
  -- the map may give the two in either order, and a stable sort keeps it
  have hsublist : ∀ a b, Best candidates a → Best candidates b → a ≠ b → rankLE a b = true → [a, b].Sublist out := by
    intro a b ha hb hab hle
    have hperm : (a :: b :: ((selection candidates).erase a).erase b).Perm (selection candidates) := by
      refine List.Perm.trans (List.Perm.cons a ?_) (List.perm_cons_erase (hmem a ha)).symm
      exact (List.perm_cons_erase ((List.mem_erase_of_ne (Ne.symm hab)).mpr (hmem b hb))).symm
    rw [← h.only candidates (List.Perm.refl _) _ ⟨_, hperm, rfl⟩]
    refine List.pair_sublist_mergeSort rankLE_trans rankLE_total hle ?_
    exact List.Sublist.cons_cons a (List.Sublist.cons_cons b (List.nil_sublist _))
  have hcd : rankLE c d = true := rankLE_iff.mpr (.inr ⟨hmodified, hid.le⟩)
  have hdc : rankLE d c = true := rankLE_iff.mpr (.inr ⟨hmodified.symm, hid.ge⟩)
  exact not_both_orders (List.Nodup.of_map _ h.keys) hne (hsublist c d hc hd hne hcd)
    (hsublist d c hd hc (Ne.symm hne) hdc)

/-- The result is the same for every order of the input and of the map exactly if the best candidates are determined. -/
theorem determined_iff (candidates : List Candidate) : (∃ out, Result candidates out) ↔ Determined candidates :=
  ⟨fun ⟨_, h⟩ => h.determined, fun h => ⟨_, h.result⟩⟩

/-- A session that two sources report with the same id and time. -/
def sharedSession (source : Source) : Candidate where
  id := "123e4567-e89b-12d3-a456-426614174000"
  source := source
  modified := some "2026-09-06T10:00:00Z"
  path := ["/", "home", "store", source.asStr]
  project := none
  parentId := none

/-- Both orders of the map are results. -/
theorem shared_either_order :
    ∃ out out', Deduplicates [sharedSession .codex, sharedSession .claude] out ∧
      Deduplicates [sharedSession .codex, sharedSession .claude] out' ∧ out ≠ out' := by
  have hsorted : ∀ a b, rankLE a b = true → [a, b].mergeSort rankLE = [a, b] := fun a b h =>
    List.mergeSort_of_pairwise (List.pairwise_pair.mpr h)
  refine ⟨[sharedSession .codex, sharedSession .claude], [sharedSession .claude, sharedSession .codex],
    ⟨[sharedSession .codex, sharedSession .claude], by decide +kernel, (hsorted _ _ (by decide +kernel)).symm⟩,
    ⟨[sharedSession .claude, sharedSession .codex], by decide +kernel, (hsorted _ _ (by decide +kernel)).symm⟩,
    by decide +kernel⟩

end Innen.Conversation.Resume
