import Innen.Artifact.Finalize.Safety

/-!
# Finalizing again

A run ends well exactly if its checks pass, the directory of the collections can be entered, and nothing is where the
staging directory and the collection go (`finalize_ok_iff`). What a run leaves before it publishes is not in the way
of the next run, up to a staging directory of the same process (`Leftover`). Once the collection is there, every
further run is refused by its checks.
-/

namespace Innen.Finalize

open Innen.Common

variable {H : List UInt8 → String} {stuck : Path → Bool} {out : Path} {plan : FinalizePlan} {p p' : ℕ} {s s₁ : Work}
  {t₀ t : FileTree} {finals : List Final} {removals : List Removal}

/-! ## Entering the directory of the collections -/

/-- Where a level of `create_dir_all` ends well. -/
def CanEnter (t : FileTree) (q : Path) : Prop :=
  t.get? q = none ∧ t.get? q.dropLast = some .dir ∨ t.get? (follow t q) = some .dir

theorem enterDir_ok_iff {q : Path} : (enterDir q s).result = .ok () ↔ CanEnter s.tree q := by
  rw [enterDir, CanEnter, follow]
  cases hq : s.tree.get? q with
  | none =>
    by_cases hparent : s.tree.get? q.dropLast = some .dir
    · simp [hparent]
    · simp [hparent, hq, Course.plain]
  | some node =>
    cases node with
    | dir => simp [hq, Course.plain]
    | file bytes => simp [hq, Course.plain]
    | link resolved =>
      by_cases hr : s.tree.get? resolved = some .dir
      · simp [hr, Course.plain]
      · simp [hr, Course.plain]

theorem enterDir_done_of_bound {q : Path} (h : s.tree.get? q ≠ none) : (enterDir q s).done Write.perform s = s := by
  have hwrites : (enterDir q s).writes = [] := by
    rw [enterDir]
    split
    · rename_i hnone
      exact absurd hnone h
    · rfl
    · split <;> rfl
    · rfl
  rw [Course.done, hwrites]
  rfl

/-- `create_dir_all` ends well if `artifacts` can be entered and, where it was there, so can `collections`. -/
theorem createParent_ok_iff :
    (createParent out s).result = .ok () ↔ CanEnter s.tree (artifactsPath out) ∧
      (s.tree.get? (artifactsPath out) = none ∨ CanEnter s.tree (innerPath s.tree out)) := by
  rw [createParent, Course.andThen_result, enterDir_ok_iff, enterDir_ok_iff]
  refine and_congr_right fun hfirst => ?_
  by_cases hnone : s.tree.get? (artifactsPath out) = none
  · refine ⟨fun _ => .inl hnone, fun _ => .inl ⟨?_, ?_⟩⟩
    · rw [(enter_artifacts s out _).follow, follow, hnone]
      -- nothing can be below a directory that was not there
      have hinner := FileTree.get?_append_of_none hnone [plainName "collections"]
      have hparent : s.tree.get? (artifactsPath out).dropLast = some .dir := by
        rcases hfirst with ⟨-, hparent⟩ | hdir
        · exact hparent
        · rw [follow, hnone] at hdir
          rw [hnone] at hdir
          cases hdir
      have hdone : (enterDir (artifactsPath out) s).done Write.perform s =
          { s with tree := s.tree.mkdir (artifactsPath out) } := by
        simp only [enterDir, hnone, hparent, if_true]
        rfl
      rw [hdone]
      change (s.tree.mkdir _).get? _ = _
      rw [FileTree.get?_mkdir hparent hnone, if_neg (by simp), hinner]
    · rw [List.dropLast_concat, (enter_artifacts s out _).follow]
      exact enterDir_dir (enterDir_ok_iff.mpr hfirst)
  · rw [enterDir_done_of_bound hnone]
    exact ⟨.inr, fun h => h.resolve_left hnone⟩

/-! ## Paths in the directory of the collections -/

theorem parentPath_of_unbound (h : t.get? (innerPath t out) = none) : parentPath t out = innerPath t out := by
  rw [parentPath, ← innerPath, follow, h]

theorem parentPath_of_fresh (h : t.get? (artifactsPath out) = none) :
    parentPath t out = artifactsPath out ++ [plainName "collections"] := by
  have hinner : innerPath t out = artifactsPath out ++ [plainName "collections"] := by rw [innerPath, follow, h]
  rw [parentPath_of_unbound, hinner]
  rw [hinner]
  exact FileTree.get?_append_of_none h _

/-- The directories that may be added are not in the directory of the collections. -/
theorem SameOrDir.same {n : Name} (h : SameOrDir t₀ out t (parentPath t₀ out ++ [n])) :
    t.get? (parentPath t₀ out ++ [n]) = t₀.get? (parentPath t₀ out ++ [n]) := by
  rcases h with h | ⟨hnone, -, hq | hq⟩
  · exact h
  · rw [hq] at hnone
    rw [parentPath_of_fresh hnone] at hq
    exact absurd (congrArg List.length hq) (by simp)
  · rw [hq] at hnone
    rw [parentPath_of_unbound hnone] at hq
    exact absurd (congrArg List.length hq) (by simp)

/-! ## What is left before the collection is published -/

/-- A tree that a run leaves behind: what was there is there, and the next run finds the way to the collections. -/
structure Leftover (t₀ : FileTree) (out : Path) (plan : FinalizePlan) (t : FileTree) : Prop where
  bound : ∀ q node, t₀.get? q = some node → t.get? q = some node
  artifacts : SameOrDir t₀ out t (artifactsPath out)
  inner : SameOrDir t₀ out t (innerPath t₀ out)
  collection : t.get? (collectionPath t₀ out plan.name) = t₀.get? (collectionPath t₀ out plan.name)

theorem AddedDirs.leftover (h : AddedDirs t₀ out t) : Leftover t₀ out plan t :=
  ⟨fun _ _ hq => (h _).bound hq, h _, h _, (h _).same⟩

theorem Staged.leftover (hslug : validCollection plan.collection = true)
    (h : Staged t₀ out (stagePath t₀ out plan.name p) t) : Leftover t₀ out plan t := by
  refine ⟨fun _ _ hq => h.bound hq, h.added _ ?_, h.added _ ?_, (h.added _ (stage_apart hslug t₀ out p)).same⟩
  · intro hbelow
    cases hq : t₀.get? (artifactsPath out) with
    | some node => exact h.not_below hq hbelow
    | none =>
      have hlength := hbelow.length_le
      rw [stagePath, parentPath_of_fresh hq] at hlength
      simp at hlength
  · intro hbelow
    cases hq : t₀.get? (innerPath t₀ out) with
    | some node => exact h.not_below hq hbelow
    | none =>
      have hlength := hbelow.length_le
      rw [stagePath, parentPath_of_unbound hq] at hlength
      simp at hlength

theorem Leftover.innerPath_eq (h : Leftover t₀ out plan t) : innerPath t out = innerPath t₀ out := by
  rw [innerPath, h.artifacts.follow, innerPath]

theorem Leftover.parentPath_eq (h : Leftover t₀ out plan t) : parentPath t out = parentPath t₀ out := by
  change follow t (innerPath t out) = follow t₀ (innerPath t₀ out)
  rw [h.innerPath_eq, h.inner.follow]

/-- Where a level could be entered, it still can. -/
theorem CanEnter.leftover {q : Path} (h : CanEnter t₀ q) (hbound : ∀ q node, t₀.get? q = some node → t.get? q = some node)
    (hq : SameOrDir t₀ out t q) : CanEnter t q := by
  rcases h with ⟨hnone, hparent⟩ | hdir
  · rcases hq with hsame | ⟨-, hdir, -⟩
    · exact .inl ⟨hsame.trans hnone, hbound _ _ hparent⟩
    · refine .inr ?_
      rw [follow, hdir]
      exact hdir
  · rw [← hq.follow] at hdir
    exact .inr (hbound _ _ hdir)

/-- `create_dir_all` ends well again. -/
theorem Leftover.createParent (h : Leftover s.tree out plan s₁.tree) (hok : (createParent out s).result = .ok ()) :
    (Finalize.createParent out s₁).result = .ok () := by
  obtain ⟨hartifacts, hinner⟩ := createParent_ok_iff.mp hok
  refine createParent_ok_iff.mpr ⟨hartifacts.leftover h.bound h.artifacts, ?_⟩
  rw [h.innerPath_eq]
  rcases hinner with hnone | hinner
  · rcases h.artifacts with hsame | ⟨-, hdir, -⟩
    · exact .inl (hsame.trans hnone)
    · -- the first level was made, and the second level may have been
      have hpath : innerPath s.tree out = artifactsPath out ++ [plainName "collections"] := by
        rw [innerPath, follow, hnone]
      rcases h.inner with hsame | ⟨-, hdir', -⟩
      · refine .inr (.inl ⟨hsame.trans ?_, ?_⟩)
        · rw [hpath]
          exact FileTree.get?_append_of_none hnone _
        · rw [hpath, List.dropLast_concat, hdir]
      · refine .inr (.inr ?_)
        rw [follow, hdir']
        exact hdir'
  · exact .inr (hinner.leftover h.bound h.inner)

/-! ## Removing what is listed -/

/-- Pruning keeps what is no directory. -/
theorem pruned_same {ds : List Path} {t' : FileTree} {q : Path} {v : Option Node} (hv : v ≠ some .dir)
    (h : s.tree.get? q = v) : (performAll Write.perform s (pruneWrites stuck t' ds)).tree.get? q = v := by
  refine performAll_invariant (fun s : Work => s.tree.get? q = v) (fun w hw s hs => ?_) h
  obtain ⟨d, rfl⟩ := pruneWrites_rmdir hw
  change (s.tree.rmdir d).get? q = v
  rw [FileTree.get?_rmdir (hs ▸ hv), hs]

/-- What a task keeps in the journal if it writes files only. -/
theorem records_performAll {ws : List Write} (h : ∀ w ∈ ws, ∀ node, w ≠ .record node) :
    (performAll Write.perform s ws).records = s.records := by
  refine performAll_invariant (fun s' : Work => s'.records = s.records) (fun w hw s' hs => ?_) rfl
  cases w with
  | record node => exact absurd rfl (h _ hw node)
  | mkdir q => exact hs
  | file q bytes => exact hs
  | rename src dst => exact hs
  | remove q => exact hs
  | rmdir q => exact hs

/-- One listed file is removed if it still has its hash, and what is no directory stays. -/
theorem removeListed_ok (stuck : Path → Bool) (out : Path) (changed : String) {r : Removal} (h : HasHash H s.tree r.path r.sha256) :
    (removeListed H stuck out changed r s).result = .ok () ∧
      ((removeListed H stuck out changed r s).done Write.perform s).tree.get? r.path = none ∧
      ∀ q v, q ≠ r.path → v ≠ some .dir → s.tree.get? q = v →
        ((removeListed H stuck out changed r s).done Write.perform s).tree.get? q = v := by
  obtain ⟨bytes, hbytes, hsha⟩ := h
  have hcourse : removeListed H stuck out changed r s =
      ⟨.remove r.path :: pruneWrites stuck (s.tree.removeAll r.path) (prunable out r.path), .ok ()⟩ := by
    rw [removeListed, fileSha256_of_file hbytes]
    exact if_neg (not_not.mpr hsha)
  rw [hcourse]
  refine ⟨rfl, pruned_same (by simp) ?_, fun q v hq hv hsame => pruned_same hv ?_⟩
  · change (s.tree.removeAll r.path).get? r.path = none
    rw [FileTree.get?_removeAll, if_neg]
    rintro (hroot | hpre)
    · rw [hroot, FileTree.get?, s.tree.root] at hbytes
      cases hbytes
    · exact hpre (List.prefix_refl _)
  · change (s.tree.removeAll r.path).get? q = v
    rw [FileTree.get?_removeAll_of_ne (by simp [hbytes]) hq, hsame]

/-- All listed files are removed, and what else is no directory stays. -/
theorem removals_ok (stuck : Path → Bool) (out : Path) (changed : String) {rs : List Removal} (hnodup : (rs.map Removal.path).Nodup)
    (h : ∀ r ∈ rs, HasHash H s.tree r.path r.sha256) :
    (Course.forEach Write.perform (removeListed H stuck out changed) rs s).result = .ok () ∧
      (∀ q ∈ rs.map Removal.path,
        ((Course.forEach Write.perform (removeListed H stuck out changed) rs s).done Write.perform s).tree.get? q = none) ∧
      ∀ q v, q ∉ rs.map Removal.path → v ≠ some .dir → s.tree.get? q = v →
        ((Course.forEach Write.perform (removeListed H stuck out changed) rs s).done Write.perform s).tree.get? q = v := by
  induction rs generalizing s with
  | nil => exact ⟨rfl, fun q hq => (by cases hq), fun q v _ _ hq => hq⟩
  | cons r rest ih =>
    obtain ⟨hfresh, hnodup⟩ := List.nodup_cons.mp hnodup
    obtain ⟨hfirst, hgone, hsame⟩ := removeListed_ok stuck out changed (h r List.mem_cons_self)
    obtain ⟨hrest, hallGone, hallSame⟩ := ih (s := (removeListed H stuck out changed r s).done Write.perform s) hnodup
      fun r' hr' => by
        obtain ⟨bytes, hbytes, hsha⟩ := h r' (List.mem_cons_of_mem r hr')
        refine ⟨bytes, hsame _ _ (fun heq => hfresh ?_) (by simp) hbytes, hsha⟩
        exact heq ▸ List.mem_map_of_mem hr'
    rw [Course.forEach, Course.done_andThen hfirst]
    refine ⟨Course.andThen_result.mpr ⟨hfirst, hrest⟩, fun q hq => ?_, fun q v hq hv hbound => ?_⟩
    · rcases List.mem_cons.mp hq with rfl | hq
      · exact hallSame _ _ hfresh (by simp) hgone
      · exact hallGone q hq
    · obtain ⟨hne, hq⟩ := not_or.mp (fun hmem => hq (List.mem_cons.mpr hmem))
      exact hallSame q v hq hv (hsame q v hne hv hbound)

/-- What follows the publication ends well on a tree where everything that was checked is still there. -/
theorem afterPublish_ok (stuck : Path → Bool) (collection : Path) (hchecked : Checked H t₀ out plan finals removals)
    (hbound : ∀ q node, t₀.get? q = some node → s.tree.get? q = some node) :
    (afterPublish H stuck out plan finals removals collection s).result = .ok () ∧
      (∀ q ∈ listed finals removals,
        ((afterPublish H stuck out plan finals removals collection s).done Write.perform s).tree.get? q = none) ∧
      ((afterPublish H stuck out plan finals removals collection s).done Write.perform s).records =
        s.records ++ [collectionNode plan collection] := by
  have hpaths : ((finals.map fun f => (⟨f.path, f.sha256⟩ : Removal)).map Removal.path) = finals.map Final.path := by
    rw [List.map_map]
    rfl
  obtain ⟨hfinals, hremovals, hdisjoint⟩ := List.nodup_append.mp hchecked.paths
  obtain ⟨hok, hgone, hsame⟩ := removals_ok (H := H) (s := s) stuck out "source changed after publish: " (hpaths ▸ hfinals)
    fun r hr => by
      obtain ⟨f, hf, rfl⟩ := List.mem_map.mp hr
      obtain ⟨-, -, -, bytes, hbytes, hsha⟩ := hchecked.final f hf
      exact ⟨bytes, hbound _ _ hbytes, hsha⟩
  rw [hpaths] at hgone hsame
  obtain ⟨s', hs'⟩ : ∃ s', s' = (Course.forEach Write.perform (removeListed H stuck out "source changed after publish: ")
    (finals.map fun f => ⟨f.path, f.sha256⟩) s).done Write.perform s := ⟨_, rfl⟩
  rw [← hs'] at hgone hsame
  obtain ⟨hok', hgone', hsame'⟩ := removals_ok (H := H) (s := s') stuck out "draft changed after publish: " hremovals
    fun r hr => by
      obtain ⟨-, bytes, hbytes, hsha⟩ := hchecked.removal r hr
      refine ⟨bytes, hsame _ _ (fun hmem => ?_) (by simp) (hbound _ _ hbytes), hsha⟩
      exact hdisjoint _ hmem _ (List.mem_map_of_mem hr) rfl
  have hrecords : ∀ (changed : String) (rs : List Removal) (s : Work),
      ((Course.forEach Write.perform (removeListed H stuck out changed) rs s).done Write.perform s).records =
        s.records := by
    intro changed rs s
    refine records_performAll fun w hw node => ?_
    obtain ⟨r, -, s', hw⟩ := Course.mem_forEach hw
    rcases removeListed_writes hw with rfl | ⟨d, rfl⟩
    · exact fun h => (by cases h)
    · exact fun h => (by cases h)
  rw [afterPublish, Course.done_andThen hok, ← hs', Course.done_andThen hok']
  refine ⟨Course.andThen_result.mpr ⟨hok, ?_⟩, fun q hq => ?_, ?_⟩
  · rw [← hs']
    exact Course.andThen_result.mpr ⟨hok', rfl⟩
  · change (Course.done Write.perform _ s').tree.get? q = none
    by_cases hmem : q ∈ removals.map Removal.path
    · exact hgone' q hmem
    · exact hsame' q none hmem (by simp) (hgone q ((List.mem_append.mp hq).resolve_right hmem))
  · change (Course.done Write.perform _ s').records ++ _ = _
    rw [hrecords, hs', hrecords]

/-! ## When a run ends well -/

/-- Publishing keeps everything that was there. -/
theorem fillStage_bound (hchecked : Checked H t₀ out plan finals removals)
    (h : Filling t₀ out (stagePath t₀ out plan.name p) s.tree) (hfresh : t₀.get? (collectionPath t₀ out plan.name) = none) :
    (fillStage H plan finals (stagePath t₀ out plan.name p) (collectionPath t₀ out plan.name) s).result = .ok () ∧
      ∀ q node, t₀.get? q = some node →
        ((fillStage H plan finals (stagePath t₀ out plan.name p) (collectionPath t₀ out plan.name) s).done
          Write.perform s).tree.get? q = some node := by
  obtain ⟨s₁, hs₁, hcopies, hfilling, -⟩ := filled hchecked h
  have hfree : (s₁.tree.put (stagePath t₀ out plan.name p ++ [manifestName])
      (.file (textBytes (manifestText plan finals)))).get? (collectionPath t₀ out plan.name) = none := by
    have hsame : SameOrDir t₀ out _ (parentPath t₀ out ++ [plan.name]) :=
      hfilling.staged.added _ (stage_apart hchecked.slug t₀ out p)
    exact hsame.same.trans hfresh
  obtain ⟨manifest, hmanifest⟩ : ∃ c : Task, c = ⟨[.file (stagePath t₀ out plan.name p ++ [manifestName])
    (textBytes (manifestText plan finals))], .ok ()⟩ := ⟨_, rfl⟩
  have hdone : (manifest.done Write.perform s₁).tree = s₁.tree.put (stagePath t₀ out plan.name p ++ [manifestName])
      (.file (textBytes (manifestText plan finals))) := by
    rw [hmanifest]
    rfl
  rw [← hdone] at hfree hfilling
  have hpublish : publishStage (stagePath t₀ out plan.name p) (collectionPath t₀ out plan.name)
      (manifest.done Write.perform s₁) =
        ⟨[.rename (stagePath t₀ out plan.name p) (collectionPath t₀ out plan.name)], .ok ()⟩ := by
    rw [publishStage, hfree]
    rfl
  have hok : manifest.result = .ok () := by rw [hmanifest]
  rw [fillStage, ← hmanifest]
  refine ⟨Course.andThen_result.mpr ⟨hcopies, ?_⟩, fun q node hq => ?_⟩
  · rw [← hs₁]
    refine Course.andThen_result.mpr ⟨hok, ?_⟩
    rw [hpublish]
  · rw [Course.done_andThen hcopies, ← hs₁, Course.done_andThen hok, hpublish]
    change ((manifest.done Write.perform s₁).tree.rename _ _).get? q = some node
    have hbelow : ¬collectionPath t₀ out plan.name <+: q := by
      rintro ⟨more, rfl⟩
      rw [FileTree.get?_append_of_none hfresh] at hq
      cases hq
    rw [FileTree.get?_rename_of_apart (hfilling.staged.not_below hq) hbelow]
    exact hfilling.staged.bound hq

/-- `create_dir` of the staging directory ends well if nothing is there. -/
theorem openStage_ok_iff : (openStage out plan p s).result = .ok () ↔
    (createParent out s).result = .ok () ∧ s.tree.get? (stagePath s.tree out plan.name p) = none := by
  have hdirs : AddedDirs s.tree out ((createParent out s).done Write.perform s).tree :=
    keeps_performAll (fun _ hw => createParent_writes hw) (AddedDirs.refl _ _)
  have hsame : ((createParent out s).done Write.perform s).tree.get? (stagePath s.tree out plan.name p) =
      s.tree.get? (stagePath s.tree out plan.name p) := (hdirs _).same
  rw [openStage, Course.andThen_result, createDir, hsame]
  refine and_congr_right fun _ => ?_
  by_cases hnone : s.tree.get? (stagePath s.tree out plan.name p) = none
  · simp [hnone]
  · rw [if_pos (Option.isSome_iff_ne_none.mpr hnone)]
    exact ⟨fun h => (by cases h), fun h => absurd h hnone⟩

/-- A run that nothing stops ends well exactly if the plan is good and nothing is in its way. -/
theorem finalize_ok_iff : (finalize H stuck out plan p s).result = .ok () ↔
    (∃ checked, check H s.tree out plan = .ok checked) ∧ (createParent out s).result = .ok () ∧
      s.tree.get? (stagePath s.tree out plan.name p) = none ∧ s.tree.get? (collectionPath s.tree out plan.name) = none := by
  cases hcheck : check H s.tree out plan with
  | error e =>
    rw [finalize, hcheck]
    exact ⟨fun h => (by cases h), fun h => by
      obtain ⟨⟨checked, h⟩, -⟩ := h
      cases h⟩
  | ok checked =>
    obtain ⟨finals, removals⟩ := checked
    have hchecked := checked_of_check hcheck
    rw [finalize, hcheck]
    constructor
    · intro h
      obtain ⟨hopen, h⟩ := Course.andThen_result.mp h
      obtain ⟨hfill, -⟩ := Course.andThen_result.mp h
      obtain ⟨hparent, hstage⟩ := openStage_ok_iff.mp hopen
      exact ⟨⟨_, rfl⟩, hparent, hstage, (fillStage_done hchecked (filling_of_open rfl hopen) hfill).fresh⟩
    · rintro ⟨-, hparent, hstage, hcollection⟩
      have hopen := openStage_ok_iff.mpr ⟨hparent, hstage⟩
      obtain ⟨hfill, hbound⟩ := fillStage_bound hchecked (filling_of_open rfl hopen) hcollection
      refine Course.andThen_result.mpr ⟨hopen, Course.andThen_result.mpr ⟨hfill, ?_⟩⟩
      exact (afterPublish_ok _ _ hchecked hbound).1

/-! ## What a run that ends well has done -/

/-- The collection holds the final files, the listed files are gone, and the journal has the node. -/
structure Completed (s : Work) (out : Path) (plan : FinalizePlan) (s' : Work) : Prop where
  finals : ∀ e ∈ plan.finalFiles, ∀ dir n bytes, e.path = some (dir ++ [n]) → s.tree.bytesAt (dir ++ [n]) = some bytes →
    s'.tree.bytesAt (collectionPath s.tree out plan.name ++ [n]) = some bytes
  removed : ∀ e ∈ plan.finalFiles ++ plan.removeFiles, ∀ q, e.path = some q → s'.tree.get? q = none
  recorded : s'.records = s.records ++ [collectionNode plan (collectionPath s.tree out plan.name)]

theorem openStage_records : ((openStage out plan p s).done Write.perform s).records = s.records := by
  refine records_performAll fun w hw node => ?_
  rcases Course.mem_andThen hw with hw | ⟨-, hw⟩
  · rcases Course.mem_andThen hw with hw | ⟨-, hw⟩
    · rw [enterDir_writes hw]
      exact fun h => (by cases h)
    · rw [enterDir_writes hw]
      exact fun h => (by cases h)
  · rw [(createDir_writes hw).2]
    exact fun h => (by cases h)

theorem fillStage_records {stage collection : Path} :
    ((fillStage H plan finals stage collection s).done Write.perform s).records = s.records := by
  refine records_performAll fun w hw node => ?_
  rcases Course.mem_andThen hw with hw | ⟨-, hw⟩
  · obtain ⟨f, -, s', hw⟩ := Course.mem_forEach hw
    obtain ⟨bytes, rfl⟩ := copyFinal_writes hw
    exact fun h => (by cases h)
  · rcases Course.mem_andThen hw with hw | ⟨-, hw⟩
    · rw [List.mem_singleton.mp hw]
      exact fun h => (by cases h)
    · rw [publishStage] at hw
      split at hw
      · cases hw
      · rw [List.mem_singleton.mp hw]
        exact fun h => (by cases h)

/-- A run that ends well is complete. -/
theorem finalize_completes (hok : (finalize H stuck out plan p s).result = .ok ()) :
    Completed s out plan ((finalize H stuck out plan p s).done Write.perform s) := by
  obtain ⟨⟨⟨finals, removals⟩, hcheck⟩, hparent, hstage, hcollection⟩ := finalize_ok_iff.mp hok
  have hchecked := checked_of_check hcheck
  have hopen := openStage_ok_iff.mpr ⟨hparent, hstage⟩
  have hfilling := filling_of_open rfl hopen
  have hopenRecords : ((openStage out plan p s).done Write.perform s).records = s.records := openStage_records
  obtain ⟨s₁, hs₁⟩ : ∃ s₁, s₁ = (openStage out plan p s).done Write.perform s := ⟨_, rfl⟩
  rw [← hs₁] at hfilling hopenRecords
  obtain ⟨hfill, hbound⟩ := fillStage_bound hchecked hfilling hcollection
  have hpublished := fillStage_done hchecked hfilling hfill
  obtain ⟨s₂, hs₂⟩ : ∃ s₂, s₂ = (fillStage H plan finals (stagePath s.tree out plan.name p)
    (collectionPath s.tree out plan.name) s₁).done Write.perform s₁ := ⟨_, rfl⟩
  have hfillRecords : s₂.records = s₁.records := by rw [hs₂, fillStage_records]
  rw [← hs₂] at hbound hpublished
  obtain ⟨-, hgone, hrecords⟩ := afterPublish_ok stuck (collectionPath s.tree out plan.name) hchecked hbound
  have hdone : (finalize H stuck out plan p s).done Write.perform s =
      (afterPublish H stuck out plan finals removals (collectionPath s.tree out plan.name) s₂).done Write.perform s₂ := by
    rw [finalize, hcheck, hs₂, hs₁]
    refine (Course.done_andThen hopen).trans (Course.done_andThen ?_)
    rw [← hs₁]
    exact hfill
  have hafter : Published s.tree (collectionPath s.tree out plan.name) finals removals
      ((afterPublish H stuck out plan finals removals (collectionPath s.tree out plan.name) s₂).done
        Write.perform s₂).tree := keeps_performAll (fun _ hw => afterPublish_keeps hchecked hw) hpublished
  have hkept := hafter.kept (p := p) hchecked
  rw [hdone]
  refine ⟨fun e he dir n bytes hpath hbytes => ?_, fun e he q hq => hgone q ?_, ?_⟩
  · obtain ⟨f, hf, hfpath⟩ := hchecked.finalOf e he
    rcases hkept.finals e he dir n bytes hpath hbytes with hstays | hcopied
    · -- the final file itself is gone
      have hpathEq : f.path = dir ++ [n] := Option.some.inj (hfpath.symm.trans hpath)
      have hnone := hgone (dir ++ [n]) (hpathEq ▸ List.mem_append_left _ (List.mem_map_of_mem hf))
      have hsome := FileTree.bytesAt_eq_some.mp hstays
      rw [hnone] at hsome
      cases hsome
    · exact hcopied
  · rcases List.mem_append.mp he with he | he
    · obtain ⟨f, hf, hfpath⟩ := hchecked.finalOf e he
      obtain rfl : f.path = q := Option.some.inj (hfpath.symm.trans hq)
      exact List.mem_append_left _ (List.mem_map_of_mem hf)
    · obtain ⟨r, hr, hrpath⟩ := hchecked.removalOf e he
      obtain rfl : r.path = q := Option.some.inj (hrpath.symm.trans hq)
      exact List.mem_append_right _ (List.mem_map_of_mem hr)
  · rw [hrecords, hfillRecords, hopenRecords]

/-! ## The next run -/

/-- A published collection is a directory. -/
theorem Published.dir (hchecked : Checked H t₀ out plan finals removals)
    (h : Published t₀ (collectionPath t₀ out plan.name) finals removals t) :
    t.get? (collectionPath t₀ out plan.name) = some .dir := by
  obtain ⟨e, he⟩ := List.exists_mem_of_ne_nil _ hchecked.nonempty
  obtain ⟨f, hf, -⟩ := hchecked.finalOf e he
  obtain ⟨b, -, hcopy⟩ := h.copies f hf
  exact FileTree.dir_above (t := t) (q := [f.name]) (by rw [hcopy]; rfl) (by simp)

theorem Published.link {collection : Path} (hchecked : Checked H t₀ out plan finals removals)
    (h : Published t₀ collection finals removals t) {q r : Path} (hq : t₀.get? q = some (.link r)) :
    t.get? q = some (.link r) := by
  refine (h.rest q _ hq (by simp)).resolve_right fun hgone => ?_
  obtain ⟨bytes, hbytes⟩ := hchecked.listed_file hgone.1
  rw [hq] at hbytes
  cases hbytes

/-- On a path that leads on to a directory, what a link leads to stays. -/
theorem Published.follow_eq {collection : Path} (hchecked : Checked H t₀ out plan finals removals)
    (h : Published t₀ collection finals removals t) {q : Path} (hdir : follow t₀ q = q → t.get? q = some .dir) :
    follow t q = follow t₀ q := by
  cases hq : t₀.get? q with
  | none =>
    have hsame : follow t₀ q = q := by rw [follow, hq]
    rw [hsame, follow, hdir hsame]
  | some node =>
    cases node with
    | link r => rw [follow, follow, hq, h.link hchecked hq]
    | dir =>
      have hsame : follow t₀ q = q := by rw [follow, hq]
      rw [hsame, follow, hdir hsame]
    | file bytes =>
      have hsame : follow t₀ q = q := by rw [follow, hq]
      rw [hsame, follow, hdir hsame]

/-- The next run looks for the collection where it was published. -/
theorem Published.parentPath_eq (hchecked : Checked H t₀ out plan finals removals)
    (h : Published t₀ (collectionPath t₀ out plan.name) finals removals t) : parentPath t out = parentPath t₀ out := by
  have hparent : t.get? (parentPath t₀ out) = some .dir :=
    t.rooted _ plan.name (by rw [← FileTree.get?, ← collectionPath, h.dir hchecked]; rfl)
  have hinner : follow t (innerPath t₀ out) = follow t₀ (innerPath t₀ out) :=
    h.follow_eq hchecked fun hsame => by
      rw [← hparent]
      exact congrArg t.get? hsame.symm
  have hartifacts : follow t (artifactsPath out) = follow t₀ (artifactsPath out) := by
    refine h.follow_eq hchecked fun hsame => ?_
    have hpath : innerPath t₀ out = artifactsPath out ++ [plainName "collections"] := by rw [innerPath, hsame]
    -- `collections` is a directory or a link, so `artifacts` is a directory
    have hbound : (t.get? (innerPath t₀ out)).isSome := by
      by_cases hsame' : follow t₀ (innerPath t₀ out) = innerPath t₀ out
      · rw [← hsame']
        exact Option.isSome_iff_exists.mpr ⟨_, hparent⟩
      · cases hq : t₀.get? (innerPath t₀ out) with
        | none => exact absurd (by rw [follow, hq]) hsame'
        | some node =>
          cases node with
          | link r => rw [h.link hchecked hq]; rfl
          | dir => exact absurd (by rw [follow, hq]) hsame'
          | file bytes => exact absurd (by rw [follow, hq]) hsame'
    rw [hpath] at hbound
    exact t.rooted _ _ hbound
  change follow t (innerPath t out) = follow t₀ (innerPath t₀ out)
  rw [innerPath, hartifacts, ← innerPath, hinner]

/-- A collection that exists is refused. -/
theorem check_of_exists (hplan : ¬(plan.format ≠ planFormat ∨ validCollection plan.collection = false ∨ plan.finalFiles = []))
    (h : t.pathExists (collectionPath t out plan.name) = true) : check H t out plan =
      .error (.io ("collection already exists: " ++ displayPath (collectionsPath out ++ [plan.name]))) := by
  rw [check, failIf, if_neg hplan, failIf, if_pos h]
  rfl

/-- What the checks say of the plan itself. -/
theorem plan_of_check {checked : List Final × List Removal} (h : check H t out plan = .ok checked) :
    ¬(plan.format ≠ planFormat ∨ validCollection plan.collection = false ∨ plan.finalFiles = []) := by
  simp only [check, bind_eq_ok, failIf_eq_ok] at h
  exact h.choose_spec.1

/-- The checks pass again on what is left. -/
theorem Leftover.check (h : Leftover t₀ out plan t) (hfresh : t₀.get? (collectionPath t₀ out plan.name) = none)
    {checked : List Final × List Removal} (hcheck : Finalize.check H t₀ out plan = .ok checked) :
    Finalize.check H t out plan = .ok checked := by
  refine check_congr (fun q bytes hq => h.bound q _ hq) ?_ ?_ hcheck
  · rw [collectionPath, h.parentPath_eq, collectionPath]
  · rw [FileTree.pathExists, h.collection, hfresh]

/-- After a run that stopped anywhere, the next run ends well and completes the plan exactly if nothing was published
and no staging directory is in its way; once the collection is published, every next run is refused before it writes. -/
theorem retry_completes_iff (hok : (finalize H stuck out plan p' s).result = .ok ()) (h : Leaves H stuck out plan p s s₁) :
    ((finalize H stuck out plan p' s₁).result = .ok () ↔
      s₁.tree.get? (collectionPath s.tree out plan.name) = s.tree.get? (collectionPath s.tree out plan.name) ∧
        s₁.tree.get? (stagePath s.tree out plan.name p') = none) ∧
    ((finalize H stuck out plan p' s₁).result = .ok () →
      Completed s₁ out plan ((finalize H stuck out plan p' s₁).done Write.perform s₁)) ∧
    (s₁.tree.get? (collectionPath s.tree out plan.name) ≠ s.tree.get? (collectionPath s.tree out plan.name) →
      finalize H stuck out plan p' s₁ = .plain (.error
        (.io ("collection already exists: " ++ displayPath (collectionsPath out ++ [plan.name]))))) := by
  obtain ⟨⟨⟨finals, removals⟩, hcheck⟩, hparent, hstage, hcollection⟩ := finalize_ok_iff.mp hok
  have hchecked := checked_of_check hcheck
  have hleft : Leftover s.tree out plan s₁.tree ∨
      Published s.tree (collectionPath s.tree out plan.name) finals removals s₁.tree := by
    rcases leaves_cases h with ⟨e, herror, -⟩ | ⟨finals', removals', hcheck', hdirs | hstaged | hpublished⟩
    · rw [hcheck] at herror
      cases herror
    · exact .inl hdirs.leftover
    · exact .inl (hstaged.leftover hchecked.slug)
    · obtain ⟨rfl, rfl⟩ := Prod.mk.inj (Except.ok.inj (hcheck.symm.trans hcheck'))
      exact .inr hpublished
  rcases hleft with hleft | hpublished
  · have hplace : collectionPath s₁.tree out plan.name = collectionPath s.tree out plan.name := by
      rw [collectionPath, hleft.parentPath_eq, collectionPath]
    have hstage' : stagePath s₁.tree out plan.name p' = stagePath s.tree out plan.name p' := by
      rw [stagePath, hleft.parentPath_eq, stagePath]
    refine ⟨⟨fun hagain => ⟨hleft.collection, ?_⟩, fun hfree => ?_⟩, finalize_completes, fun hne =>
      absurd hleft.collection hne⟩
    · rw [← hstage']
      exact (finalize_ok_iff.mp hagain).2.2.1
    · refine finalize_ok_iff.mpr ⟨⟨_, hleft.check hcollection hcheck⟩, hleft.createParent hparent, ?_, ?_⟩
      · rw [hstage', hfree.2]
      · rw [hplace, hfree.1, hcollection]
  · have hplace : collectionPath s₁.tree out plan.name = collectionPath s.tree out plan.name := by
      rw [collectionPath, hpublished.parentPath_eq hchecked, collectionPath]
    have hexists : s₁.tree.pathExists (collectionPath s₁.tree out plan.name) = true := by
      rw [hplace, FileTree.pathExists, hpublished.dir hchecked]
    have hrefused : finalize H stuck out plan p' s₁ = .plain (.error
        (.io ("collection already exists: " ++ displayPath (collectionsPath out ++ [plan.name])))) := by
      rw [finalize, check_of_exists (plan_of_check hcheck) hexists]
    refine ⟨⟨fun hagain => ?_, fun hfree => ?_⟩, finalize_completes, fun _ => hrefused⟩
    · rw [hrefused] at hagain
      cases hagain
    · rw [hpublished.dir hchecked, hcollection] at hfree
      cases hfree.1

/-- The quotation is finalized again when nothing was done yet. -/
theorem retry_completes_quote :
    ((finalize quoteSha256 (fun _ => false) quoteOutput quotePlan 2 quoteWork).result = .ok () ↔
      quoteWork.tree.get? (collectionPath quoteWork.tree quoteOutput quotePlan.name) =
          quoteWork.tree.get? (collectionPath quoteWork.tree quoteOutput quotePlan.name) ∧
        quoteWork.tree.get? (stagePath quoteWork.tree quoteOutput quotePlan.name 2) = none) := by
  refine (retry_completes_iff (p := 1) (by decide +kernel) (.stops ?_)).1
  obtain ⟨rest, hrest⟩ := List.head?_eq_some_iff.mp quote_first_write
  rw [hrest]
  exact .here .before

/-- The writes up to the rename. -/
def quoteWrites : List Write :=
  (finalize quoteSha256 (fun _ => false) quoteOutput quotePlan 1 quoteWork).writes.take 6

/-- The files right behind the rename. -/
def quoteRenamed : Work := performAll Write.perform quoteWork quoteWrites

theorem quoteRenamed_published : quoteWrites ≠ [] ∧
    quoteRenamed.tree.get? (collectionPath quoteWork.tree quoteOutput quotePlan.name) = some .dir ∧
      quoteRenamed.records = [] ∧
      quoteRenamed.tree.pathExists (collectionPath quoteRenamed.tree quoteOutput quotePlan.name) = true := by
  decide +kernel

theorem quotePlan_valid : ¬(quotePlan.format ≠ planFormat ∨ validCollection quotePlan.collection = false ∨
    quotePlan.finalFiles = []) := by
  decide +kernel

/-- A run that stops right behind the rename leaves a collection that no further run records. -/
theorem published_unrecorded :
    ∃ s₁, Leaves quoteSha256 (fun _ => false) quoteOutput quotePlan 1 quoteWork s₁ ∧
      s₁.tree.get? (collectionPath quoteWork.tree quoteOutput quotePlan.name) = some .dir ∧ s₁.records = [] ∧
      ∀ p', (finalize quoteSha256 (fun _ => false) quoteOutput quotePlan p' s₁).result ≠ .ok () ∧
        (finalize quoteSha256 (fun _ => false) quoteOutput quotePlan p' s₁).done Write.perform s₁ = s₁ := by
  obtain ⟨hne, hdir, hrecords, hexists⟩ := quoteRenamed_published
  refine ⟨quoteRenamed, .stops ?_, hdir, hrecords, fun p' => ?_⟩
  · rw [← List.take_append_drop 6 (finalize quoteSha256 (fun _ => false) quoteOutput quotePlan 1 quoteWork).writes]
    exact interrupted_append.mpr (.inl (interrupted_performAll (fun _ _ => .whole) hne))
  · rw [finalize, check_of_exists quotePlan_valid hexists]
    generalize quoteRenamed = s
    exact ⟨fun h => (by cases h), rfl⟩

end Innen.Finalize
