import Innen.Artifact.Finalize.Checks

/-!
# Finalizing loses no bytes

Up to the rename, `finalize` only adds: the directories of the collections and the staging directory with what is in
it (`Added`). From the rename on, the copies of the final files are in the collection, and of what was there only the
listed files are removed (`Published`). Each write keeps one of the two, so they hold wherever a run stops, and
cleaning up the staging directory keeps them too.
-/

namespace Innen.Finalize

open Innen.Common

variable {H : List UInt8 → String} {stuck : Path → Bool} {out : Path} {plan : FinalizePlan} {p : ℕ} {s : Work}
  {t₀ t : FileTree} {finals : List Final} {removals : List Removal}

/-! ## Writes that stop -/

/-- What a write keeps when it is done or stops. -/
def Write.Keeps (w : Write) (inv : FileTree → Prop) : Prop := ∀ s s', inv s.tree → w.Part s s' → inv s'.tree

/-- A write that is no copy is done or not. -/
theorem Write.keeps_of_perform {w : Write} {inv : FileTree → Prop} (hfile : ∀ p bytes, w ≠ .file p bytes)
    (h : ∀ s : Work, inv s.tree → inv (w.perform s).tree) : w.Keeps inv := by
  rintro s s' hs (_ | _ | n)
  · exact hs
  · exact h s hs
  · exact absurd rfl (hfile _ _)

/-- A copy may hold any first bytes. -/
theorem Write.file_keeps {q : Path} {bytes : List UInt8} {inv : FileTree → Prop}
    (h : ∀ (t : FileTree) (bytes : List UInt8), inv t → inv (t.put q (.file bytes))) : (Write.file q bytes).Keeps inv := by
  rintro s s' hs (_ | _ | n)
  · exact hs
  · exact h s.tree bytes hs
  · exact h s.tree (bytes.take n) hs

theorem keeps_interrupted {inv : FileTree → Prop} {ws : List Write} (h : ∀ w ∈ ws, w.Keeps inv) {s s' : Work}
    (hs : inv s.tree) (hstop : Interrupted Write.perform Write.Part s ws s') : inv s'.tree :=
  hstop.invariant (fun s => inv s.tree) (fun w hw s s' hs hpart => h w hw s s' hs hpart)
    (fun w hw s hs => h w hw s _ hs .whole) hs

theorem keeps_performAll {inv : FileTree → Prop} {ws : List Write} (h : ∀ w ∈ ws, w.Keeps inv) {s : Work}
    (hs : inv s.tree) : inv (performAll Write.perform s ws).tree :=
  performAll_invariant (fun s : Work => inv s.tree) (fun w hw s hs => h w hw s _ hs .whole) hs

/-! ## Before the rename -/

/-- The second directory that `create_dir_all` may make. -/
def innerPath (t : FileTree) (out : Path) : Path := follow t (artifactsPath out) ++ [plainName "collections"]

/-- At a path is what was there, or a directory of the collections that was not. -/
def SameOrDir (t₀ : FileTree) (out : Path) (t : FileTree) (q : Path) : Prop :=
  t.get? q = t₀.get? q ∨
    t₀.get? q = none ∧ t.get? q = some .dir ∧ (q = artifactsPath out ∨ q = innerPath t₀ out)

/-- Besides what is at and below the staging directory, only directories of the collections were added. -/
def Added (t₀ : FileTree) (out stage : Path) (t : FileTree) : Prop := ∀ q, ¬stage <+: q → SameOrDir t₀ out t q

theorem SameOrDir.congr {t' : FileTree} {q : Path} (h : SameOrDir t₀ out t q) (hsame : t'.get? q = t.get? q) :
    SameOrDir t₀ out t' q := by
  rw [SameOrDir, hsame]
  exact h

theorem SameOrDir.mkdir {q p : Path} (h : SameOrDir t₀ out t q) (hp : p = artifactsPath out ∨ p = innerPath t₀ out) :
    SameOrDir t₀ out (t.mkdir p) q := by
  rcases t.get?_mkdir_cases p q with hsame | ⟨rfl, hnone, hdir⟩
  · exact h.congr hsame
  · rcases h with h | ⟨-, h, -⟩
    · exact .inr ⟨h.symm.trans hnone, hdir, hp⟩
    · rw [hnone] at h
      cases h

theorem SameOrDir.bound {q : Path} {node : Node} (h : SameOrDir t₀ out t q) (hq : t₀.get? q = some node) :
    t.get? q = some node := by
  rcases h with h | ⟨hnone, -⟩
  · rw [h, hq]
  · rw [hq] at hnone
    cases hnone

theorem SameOrDir.unbound {q : Path} (h : SameOrDir t₀ out t q) (hq : t.get? q = none) : t₀.get? q = none := by
  rcases h with h | ⟨hnone, -⟩
  · rw [← h, hq]
  · exact hnone

/-- What a path leads to stays. -/
theorem SameOrDir.follow {q : Path} (h : SameOrDir t₀ out t q) : follow t q = follow t₀ q := by
  rcases h with h | ⟨hnone, hdir, -⟩
  · rw [Finalize.follow, Finalize.follow, h]
  · rw [Finalize.follow, Finalize.follow, hnone, hdir]

theorem enterDir_writes {q : Path} {w : Write} (hw : w ∈ (enterDir q s).writes) : w = .mkdir q := by
  rw [enterDir] at hw
  split at hw
  · split at hw
    · exact List.mem_singleton.mp hw
    · cases hw
  · cases hw
  · split at hw <;> cases hw
  · cases hw

/-- Where a directory was entered, there is one. -/
theorem enterDir_dir {q : Path} (hok : (enterDir q s).result = .ok ()) :
    ((enterDir q s).done Write.perform s).tree.get? (follow s.tree q) = some .dir := by
  rw [enterDir] at hok ⊢
  split at hok
  · rename_i hnone
    split at hok
    · rename_i hparent
      rw [if_pos hparent, Finalize.follow, hnone]
      change (s.tree.mkdir q).get? q = _
      rw [FileTree.get?_mkdir hparent hnone, if_pos rfl]
    · cases hok
  · rename_i hdir
    rw [Finalize.follow, hdir]
    exact hdir
  · rename_i r hlink
    split at hok
    · rename_i hr
      rw [if_pos hr, Finalize.follow, hlink]
      exact hr
    · cases hok
  · cases hok

/-- Only directories of the collections were added. -/
def AddedDirs (t₀ : FileTree) (out : Path) (t : FileTree) : Prop := ∀ q, SameOrDir t₀ out t q

theorem AddedDirs.refl (t₀ : FileTree) (out : Path) : AddedDirs t₀ out t₀ := fun _ => .inl rfl

theorem mkdir_keeps_addedDirs {q : Path} (hq : q = artifactsPath out ∨ q = innerPath t₀ out) :
    (Write.mkdir q).Keeps (AddedDirs t₀ out) :=
  Write.keeps_of_perform (fun _ _ h => by cases h) fun _ hs r => (hs r).mkdir hq

theorem enter_artifacts (s : Work) (out : Path) :
    AddedDirs s.tree out ((enterDir (artifactsPath out) s).done Write.perform s).tree :=
  keeps_performAll (fun _ hw => enterDir_writes hw ▸ mkdir_keeps_addedDirs (.inl rfl)) (AddedDirs.refl _ _)

theorem createParent_writes {w : Write} (hw : w ∈ (createParent out s).writes) :
    w.Keeps (AddedDirs s.tree out) := by
  rcases Course.mem_andThen hw with hw | ⟨-, hw⟩
  · exact enterDir_writes hw ▸ mkdir_keeps_addedDirs (.inl rfl)
  · rw [(enter_artifacts s out _).follow] at hw
    exact enterDir_writes hw ▸ mkdir_keeps_addedDirs (.inr rfl)

/-- Behind `create_dir_all`, the directory of the collections is there. -/
theorem createParent_dir (hok : (createParent out s).result = .ok ()) :
    ((createParent out s).done Write.perform s).tree.get? (parentPath s.tree out) = some .dir := by
  obtain ⟨hfirst, hsecond⟩ := Course.andThen_result.mp hok
  have hadded := enter_artifacts s out
  have hdir := enterDir_dir hsecond
  rw [(hadded _).follow, (hadded _).follow] at hdir
  rw [createParent, Course.done_andThen hfirst, (hadded _).follow]
  exact hdir

theorem createDir_writes {q : Path} {w : Write} (hw : w ∈ (createDir q s).writes) :
    s.tree.get? q = none ∧ w = .mkdir q := by
  rw [createDir] at hw
  split at hw
  · cases hw
  · rename_i hnone
    exact ⟨by simpa using hnone, List.mem_singleton.mp hw⟩

theorem mkdir_keeps_added {stage : Path} : (Write.mkdir stage).Keeps (Added t₀ out stage) := by
  refine Write.keeps_of_perform (fun _ _ h => by cases h) fun s hs q hq => ?_
  have hne : q ≠ stage := by
    rintro rfl
    exact hq (List.prefix_refl q)
  rcases s.tree.get?_mkdir_cases stage q with hsame | ⟨heq, -⟩
  · exact (hs q hq).congr hsame
  · exact absurd heq hne

/-- Before the staging directory is there, or with it. -/
structure Staged (t₀ : FileTree) (out stage : Path) (t : FileTree) : Prop where
  added : Added t₀ out stage t
  fresh : t₀.get? stage = none

/-- What was there is nowhere below the staging directory. -/
theorem Staged.not_below {stage : Path} (h : Staged t₀ out stage t) {q : Path} {node : Node}
    (hq : t₀.get? q = some node) : ¬stage <+: q := by
  rintro ⟨more, rfl⟩
  rw [FileTree.get?_append_of_none h.fresh] at hq
  cases hq

theorem Staged.bound {stage : Path} (h : Staged t₀ out stage t) {q : Path} {node : Node}
    (hq : t₀.get? q = some node) : t.get? q = some node := (h.added q (h.not_below hq)).bound hq

/-- Opening the staging directory adds directories of the collections, and then itself. -/
theorem openStage_stopped (hs : s.tree = t₀) {s' : Work}
    (h : Interrupted Write.perform Write.Part s (openStage out plan p s).writes s') :
    AddedDirs t₀ out s'.tree ∨ Staged t₀ out (stagePath t₀ out plan.name p) s'.tree := by
  subst hs
  rcases Course.interrupted_andThen h with h | ⟨-, h⟩
  · exact .inl (keeps_interrupted (fun _ hw => createParent_writes hw) (AddedDirs.refl _ _) h)
  · have hdirs : AddedDirs s.tree out ((createParent out s).done Write.perform s).tree :=
      keeps_performAll (fun _ hw => createParent_writes hw) (AddedDirs.refl _ _)
    by_cases hfresh : ((createParent out s).done Write.perform s).tree.get? (stagePath s.tree out plan.name p) = none
    · refine .inr ⟨?_, (hdirs _).unbound hfresh⟩
      exact keeps_interrupted (fun _ hw => (createDir_writes hw).2 ▸ mkdir_keeps_added) (fun q _ => hdirs q) h
    · rw [createDir, if_pos (Option.isSome_iff_ne_none.mpr hfresh)] at h
      cases h

/-- With the staging directory open, it is there and the directory of the collections is too. -/
theorem openStage_done (hs : s.tree = t₀) (hok : (openStage out plan p s).result = .ok ()) :
    Staged t₀ out (stagePath t₀ out plan.name p) ((openStage out plan p s).done Write.perform s).tree ∧
      ((openStage out plan p s).done Write.perform s).tree.get? (stagePath t₀ out plan.name p) = some .dir ∧
      ∀ n, n ≠ [] → ((openStage out plan p s).done Write.perform s).tree.get? (stagePath t₀ out plan.name p ++ n) = none := by
  subst hs
  obtain ⟨hparent, hcreate⟩ := Course.andThen_result.mp hok
  have hdirs : AddedDirs s.tree out ((createParent out s).done Write.perform s).tree :=
    keeps_performAll (fun _ hw => createParent_writes hw) (AddedDirs.refl _ _)
  rw [openStage, Course.done_andThen hparent]
  obtain ⟨s₁, hs₁⟩ : ∃ s₁, s₁ = (createParent out s).done Write.perform s := ⟨_, rfl⟩
  rw [← hs₁] at hcreate hdirs ⊢
  have hfresh : s₁.tree.get? (stagePath s.tree out plan.name p) = none := by
    by_contra hbound
    rw [createDir, if_pos (Option.isSome_iff_ne_none.mpr hbound)] at hcreate
    cases hcreate
  have hdir : s₁.tree.get? (stagePath s.tree out plan.name p).dropLast = some .dir := by
    rw [stagePath, List.dropLast_concat, hs₁]
    exact createParent_dir hparent
  have hdone : ((createDir (stagePath s.tree out plan.name p) s₁).done Write.perform s₁).tree =
      s₁.tree.mkdir (stagePath s.tree out plan.name p) := by
    rw [createDir, if_neg (by simp [hfresh])]
    rfl
  rw [hdone]
  refine ⟨⟨fun q hq => ?_, (hdirs _).unbound hfresh⟩, ?_, fun n hn => ?_⟩
  · refine (hdirs q).congr ?_
    rw [FileTree.get?_mkdir hdir hfresh, if_neg]
    rintro rfl
    exact hq (List.prefix_refl _)
  · rw [FileTree.get?_mkdir hdir hfresh, if_pos rfl]
  · rw [FileTree.get?_mkdir hdir hfresh, if_neg (by simpa using hn)]
    exact FileTree.get?_append_of_none hfresh n

/-! ## The staging directory -/

theorem file_keeps_staged {stage : Path} (n : Name) (bytes : List UInt8) :
    (Write.file (stage ++ [n]) bytes).Keeps (Staged t₀ out stage) := by
  refine Write.file_keeps fun t bytes h => ⟨fun q hq => (h.added q hq).congr (FileTree.get?_put_of_ne _ ?_), h.fresh⟩
  rintro rfl
  exact hq (List.prefix_append _ _)

theorem copyFinal_writes {stage : Path} {f : Final} {w : Write} (hw : w ∈ (copyFinal H stage f s).writes) :
    ∃ bytes, w = .file (stage ++ [f.name]) bytes := by
  rw [copyFinal] at hw
  split at hw
  · cases hw
  · rename_i bytes _
    rcases Course.mem_andThen hw with hw | ⟨-, hw⟩
    · exact ⟨bytes, List.mem_singleton.mp hw⟩
    · cases hw

theorem copies_keep {stage : Path} {w : Write}
    (hw : w ∈ (Course.forEach Write.perform (copyFinal H stage) finals s).writes) :
    w.Keeps (Staged t₀ out stage) := by
  obtain ⟨f, -, s', hw⟩ := Course.mem_forEach hw
  obtain ⟨bytes, rfl⟩ := copyFinal_writes hw
  exact file_keeps_staged f.name bytes

/-- The staging directory while it is filled: no directory is in the way of a copy. -/
structure Filling (t₀ : FileTree) (out stage : Path) (t : FileTree) : Prop where
  staged : Staged t₀ out stage t
  dir : t.get? stage = some .dir
  free : ∀ n : Name, t.get? (stage ++ [n]) ≠ some .dir

/-- The bytes of a final file are in a directory. -/
def CopiedTo (t₀ : FileTree) (dir : Path) (f : Final) (t : FileTree) : Prop :=
  ∃ bytes, t₀.get? f.path = some (.file bytes) ∧ t.get? (dir ++ [f.name]) = some (.file bytes)

theorem Filling.get?_put {stage : Path} (h : Filling t₀ out stage t) (n : Name) (bytes : List UInt8) (q : Path) :
    (t.put (stage ++ [n]) (.file bytes)).get? q = if q = stage ++ [n] then some (.file bytes) else t.get? q :=
  FileTree.get?_put _ (by simp) (by rw [List.dropLast_concat, h.dir]) (h.free n) q

theorem Filling.put {stage : Path} (h : Filling t₀ out stage t) (n : Name) (bytes : List UInt8) :
    Filling t₀ out stage (t.put (stage ++ [n]) (.file bytes)) where
  staged := ⟨fun q hq => (h.staged.added q hq).congr (by
    rw [h.get?_put, if_neg]
    rintro rfl
    exact hq (List.prefix_append _ _)), h.staged.fresh⟩
  dir := by rw [h.get?_put, if_neg (by simp), h.dir]
  free := fun m => by
    rw [h.get?_put]
    split
    · simp
    · exact h.free m

/-- A final file is copied, and the copies that are there stay. -/
theorem copyFinal_ok {stage : Path} (hchecked : Checked H t₀ out plan finals removals) {f : Final} (hf : f ∈ finals)
    (h : Filling t₀ out stage s.tree) :
    (copyFinal H stage f s).result = .ok () ∧
      Filling t₀ out stage ((copyFinal H stage f s).done Write.perform s).tree ∧
      CopiedTo t₀ stage f ((copyFinal H stage f s).done Write.perform s).tree ∧
      ∀ g ∈ finals, CopiedTo t₀ stage g s.tree → CopiedTo t₀ stage g ((copyFinal H stage f s).done Write.perform s).tree := by
  obtain ⟨-, -, -, bytes, hbytes, hsha⟩ := hchecked.final f hf
  have hsource := FileTree.bytesAt_eq_some.mpr (h.staged.bound hbytes)
  have hget := h.get?_put f.name bytes
  have hcopy : (s.tree.put (stage ++ [f.name]) (.file bytes)).get? (stage ++ [f.name]) = some (.file bytes) := by
    rw [hget, if_pos rfl]
  have hdone : ((copyFinal H stage f s).done Write.perform s).tree = s.tree.put (stage ++ [f.name]) (.file bytes) := by
    rw [copyFinal, hsource]
    rfl
  rw [hdone]
  refine ⟨?_, h.put f.name bytes, ⟨bytes, hbytes, hcopy⟩, ?_⟩
  · rw [copyFinal, hsource]
    refine Course.andThen_result.mpr ⟨rfl, ?_⟩
    change (do
      let hash ← fileSha256 H (s.tree.put (stage ++ [f.name]) (.file bytes)) (stage ++ [f.name])
      failIf (hash.1 ≠ f.sha256) _) = _
    rw [fileSha256_of_file hcopy]
    exact failIf_eq_ok.mpr (not_not.mpr hsha)
  · rintro g hg ⟨b, hb, hat⟩
    refine ⟨b, hb, ?_⟩
    rw [hget]
    split
    · rename_i heq
      -- two final files of one name are the same
      have hname : g.name = f.name := by simpa using heq
      obtain rfl := List.inj_on_of_nodup_map hchecked.names hg hf hname
      rw [← hbytes, hb]
    · exact hat

/-- All final files are copied. -/
theorem copies_done {stage : Path} (hchecked : Checked H t₀ out plan finals removals)
    (h : Filling t₀ out stage s.tree) :
    (Course.forEach Write.perform (copyFinal H stage) finals s).result = .ok () ∧
      Filling t₀ out stage
        ((Course.forEach Write.perform (copyFinal H stage) finals s).done Write.perform s).tree ∧
      ∀ f ∈ finals, CopiedTo t₀ stage f
        ((Course.forEach Write.perform (copyFinal H stage) finals s).done Write.perform s).tree := by
  have hok : (Course.forEach Write.perform (copyFinal H stage) finals s).result = .ok () := by
    refine (Course.forEach_ok (fun s : Work => Filling t₀ out stage s.tree) (fun _ _ => True)
      (List.Nodup.of_map _ hchecked.names) (fun f hf s hs _ => ?_) h (fun _ _ => trivial)).1
    obtain ⟨hresult, hfilling, -⟩ := copyFinal_ok hchecked hf hs
    exact ⟨hresult, hfilling, fun _ _ _ => trivial⟩
  refine ⟨hok, ?_⟩
  obtain ⟨hfilling, hcopied, -⟩ := Course.forEach_all (fun s : Work => Filling t₀ out stage s.tree)
    (fun f (s : Work) => f ∈ finals → CopiedTo t₀ stage f s.tree) (fun f hf s hs _ => by
      obtain ⟨-, hfilling, hcopied, hkeep⟩ := copyFinal_ok hchecked hf hs
      exact ⟨hfilling, fun _ => hcopied, fun g hg hmem => hkeep g hmem (hg hmem)⟩) h hok
  exact ⟨hfilling, fun f hf => hcopied f hf hf⟩

/-! ## From the rename on -/

/-- The files that a checked plan lists. -/
def listed (finals : List Final) (removals : List Removal) : List Path :=
  finals.map Final.path ++ removals.map Removal.path

theorem Checked.listed_file (h : Checked H t₀ out plan finals removals) {q : Path} (hq : q ∈ listed finals removals) :
    ∃ bytes, t₀.get? q = some (.file bytes) := by
  rcases List.mem_append.mp hq with hq | hq
  · obtain ⟨f, hf, rfl⟩ := List.mem_map.mp hq
    obtain ⟨-, -, -, bytes, hbytes, -⟩ := h.final f hf
    exact ⟨bytes, hbytes⟩
  · obtain ⟨r, hr, rfl⟩ := List.mem_map.mp hq
    obtain ⟨-, bytes, hbytes, -⟩ := h.removal r hr
    exact ⟨bytes, hbytes⟩

/-- The collection holds the final files, and of what was there only listed files are gone. -/
structure Published (t₀ : FileTree) (collection : Path) (finals : List Final) (removals : List Removal) (t : FileTree) :
    Prop where
  fresh : t₀.get? collection = none
  copies : ∀ f ∈ finals, CopiedTo t₀ collection f t
  rest : ∀ q node, t₀.get? q = some node → node ≠ .dir →
    t.get? q = some node ∨ q ∈ listed finals removals ∧ t.get? q = none

theorem Published.not_below {collection : Path} (h : Published t₀ collection finals removals t) {q : Path} {node : Node}
    (hq : t₀.get? q = some node) : ¬collection <+: q := by
  rintro ⟨more, rfl⟩
  rw [FileTree.get?_append_of_none h.fresh] at hq
  cases hq

/-- A listed file is there as it was, or it is gone. -/
theorem Published.listed_cases {collection : Path} (hchecked : Checked H t₀ out plan finals removals)
    (h : Published t₀ collection finals removals t) {q : Path} (hq : q ∈ listed finals removals) :
    ∃ bytes, t₀.get? q = some (.file bytes) ∧ (t.get? q = some (.file bytes) ∨ t.get? q = none) := by
  obtain ⟨bytes, hbytes⟩ := hchecked.listed_file hq
  exact ⟨bytes, hbytes, (h.rest q _ hbytes (by simp)).imp_right And.right⟩

/-- Removing a listed file keeps what is published. -/
theorem remove_keeps_published {collection : Path} (hchecked : Checked H t₀ out plan finals removals) {q : Path}
    (hq : q ∈ listed finals removals) : (Write.remove q).Keeps (Published t₀ collection finals removals) := by
  refine Write.keeps_of_perform (fun _ _ h => by cases h) fun s h => ?_
  obtain ⟨bytes, hbytes, hat⟩ := h.listed_cases hchecked hq
  have hnotDir : s.tree.get? q ≠ some .dir := by
    rcases hat with hat | hat <;> simp [hat]
  refine ⟨h.fresh, fun f hf => ?_, fun r node hr hnode => ?_⟩
  · obtain ⟨b, hb, hcopy⟩ := h.copies f hf
    refine ⟨b, hb, ?_⟩
    change (s.tree.removeAll q).get? _ = _
    rw [FileTree.get?_removeAll_of_ne hnotDir, hcopy]
    rintro rfl
    exact h.not_below hbytes (List.prefix_append _ _)
  · change (s.tree.removeAll q).get? r = _ ∨ _ ∧ (s.tree.removeAll q).get? r = _
    by_cases heq : r = q
    · refine .inr ⟨heq ▸ hq, ?_⟩
      rw [FileTree.get?_removeAll, if_neg]
      subst heq
      simp only [List.prefix_refl, not_true, or_false]
      rintro rfl
      exact absurd (t₀.root.symm.trans hbytes) (by simp)
    · rw [FileTree.get?_removeAll_of_ne hnotDir heq]
      exact h.rest r node hr hnode

theorem rmdir_keeps_published {collection q : Path} : (Write.rmdir q).Keeps (Published t₀ collection finals removals) := by
  refine Write.keeps_of_perform (fun _ _ h => by cases h) fun s h => ⟨h.fresh, fun f hf => ?_, fun r node hr hnode => ?_⟩
  · obtain ⟨b, hb, hcopy⟩ := h.copies f hf
    refine ⟨b, hb, ?_⟩
    change (s.tree.rmdir q).get? _ = _
    rw [FileTree.get?_rmdir (by rw [hcopy]; simp), hcopy]
  · change (s.tree.rmdir q).get? r = _ ∨ _ ∧ (s.tree.rmdir q).get? r = _
    rcases h.rest r node hr hnode with hsame | ⟨hlisted, hnone⟩
    · rw [FileTree.get?_rmdir (by simpa [hsame] using hnode)]
      exact .inl hsame
    · rw [FileTree.get?_rmdir (by simp [hnone])]
      exact .inr ⟨hlisted, hnone⟩

theorem record_keeps_published {collection : Path} {node : Fields} :
    (Write.record node).Keeps (Published t₀ collection finals removals) :=
  Write.keeps_of_perform (fun _ _ h => by cases h) fun _ h => h

theorem pruneWrites_rmdir {ds : List Path} {w : Write} (hw : w ∈ pruneWrites stuck t ds) : ∃ d, w = .rmdir d := by
  induction ds generalizing t with
  | nil => cases hw
  | cons d ds ih =>
    rw [pruneWrites] at hw
    split at hw
    · rcases List.mem_cons.mp hw with rfl | hw
      · exact ⟨d, rfl⟩
      · exact ih hw
    · cases hw

theorem removeListed_writes {changed : String} {r : Removal} {w : Write}
    (hw : w ∈ (removeListed H stuck out changed r s).writes) : w = .remove r.path ∨ ∃ d, w = .rmdir d := by
  rw [removeListed] at hw
  split at hw
  · cases hw
  · split at hw
    · cases hw
    · rcases List.mem_cons.mp hw with rfl | hw
      · exact .inl rfl
      · exact .inr (pruneWrites_rmdir hw)

/-- Every write behind the publication keeps what is published. -/
theorem afterPublish_keeps {collection : Path} (hchecked : Checked H t₀ out plan finals removals) {w : Write}
    (hw : w ∈ (afterPublish H stuck out plan finals removals collection s).writes) :
    w.Keeps (Published t₀ collection finals removals) := by
  have hremoved : ∀ {changed : String} {r : Removal} {s : Work} {w : Write}, r.path ∈ listed finals removals →
      w ∈ (removeListed H stuck out changed r s).writes → w.Keeps (Published t₀ collection finals removals) := by
    intro changed r s w hr hw
    rcases removeListed_writes hw with rfl | ⟨d, rfl⟩
    · exact remove_keeps_published hchecked hr
    · exact rmdir_keeps_published
  rcases Course.mem_andThen hw with hw | ⟨-, hw⟩
  · obtain ⟨r, hr, s', hw⟩ := Course.mem_forEach hw
    obtain ⟨f, hf, rfl⟩ := List.mem_map.mp hr
    exact hremoved (List.mem_append_left _ (List.mem_map_of_mem hf)) hw
  · rcases Course.mem_andThen hw with hw | ⟨-, hw⟩
    · obtain ⟨r, hr, s', hw⟩ := Course.mem_forEach hw
      exact hremoved (List.mem_append_right _ (List.mem_map_of_mem hr)) hw
    · obtain rfl := List.mem_singleton.mp hw
      exact record_keeps_published

/-! ## Publishing -/

/-- The staging directory is not above the collection: their names differ. -/
theorem stage_apart (hslug : validCollection plan.collection = true) (t₀ : FileTree) (out : Path) (p : ℕ) :
    ¬stagePath t₀ out plan.name p <+: collectionPath t₀ out plan.name := by
  intro hpre
  have heq : stagePath t₀ out plan.name p = collectionPath t₀ out plan.name :=
    hpre.eq_of_length (by simp [stagePath, collectionPath])
  have hname : stageName plan.name p = plan.name := by simpa [stagePath, collectionPath] using heq
  have hvalid : (plan.name).1 = plan.collection ∨ plan.name = ⟨"x", by decide⟩ := by
    rw [FinalizePlan.name, plainName]
    split
    · exact .inl rfl
    · exact .inr rfl
  have hdot : ∀ c ∈ (plan.name).1.toList, c ≠ '.' := by
    rcases hvalid with hvalid | hvalid
    · have hchars : plan.collection.toList.all isSlugChar = true := (of_decide_eq_true hslug).2.2.1
      rw [hvalid]
      rintro c hc rfl
      exact absurd (List.all_eq_true.mp hchars '.' hc) (by decide)
    · rw [hvalid]
      intro c hc
      obtain rfl := List.mem_singleton.mp (show c ∈ ['x'] from hc)
      decide
  have hchars := congrArg (fun n : Name => n.1.toList) hname
  refine hdot '.' ?_ rfl
  rw [← hchars]
  simp [stageName]

/-- Renaming the filled staging directory publishes the collection. -/
theorem Filling.publish (hchecked : Checked H t₀ out plan finals removals)
    (h : Filling t₀ out (stagePath t₀ out plan.name p) t)
    (hcopied : ∀ f ∈ finals, CopiedTo t₀ (stagePath t₀ out plan.name p) f t)
    (hfresh : t.get? (collectionPath t₀ out plan.name) = none) :
    Published t₀ (collectionPath t₀ out plan.name) finals removals
      (t.rename (stagePath t₀ out plan.name p) (collectionPath t₀ out plan.name)) := by
  have hapart := stage_apart hchecked.slug t₀ out p
  have hfresh₀ : t₀.get? (collectionPath t₀ out plan.name) = none := (h.staged.added _ hapart).unbound hfresh
  have hparent : t.get? (collectionPath t₀ out plan.name).dropLast = some .dir := by
    rw [collectionPath, List.dropLast_concat]
    exact t.rooted _ (stageName plan.name p) (by rw [← stagePath]; exact Option.isSome_iff_exists.mpr ⟨_, h.dir⟩)
  have hget := FileTree.get?_rename (t := t) (by simp [stagePath]) h.dir (by simp [collectionPath]) hparent hapart
  have hbelow : ∀ q node, t₀.get? q = some node → ¬collectionPath t₀ out plan.name <+: q :=
    fun q node hq => (⟨hfresh₀, fun f hf => (by cases hf), fun r node hr _ => .inl hr⟩ :
      Published t₀ (collectionPath t₀ out plan.name) [] [] t₀).not_below hq
  refine ⟨hfresh₀, fun f hf => ?_, fun q node hq _ => .inl ?_⟩
  · obtain ⟨bytes, hbytes, hcopy⟩ := hcopied f hf
    refine ⟨bytes, hbytes, ?_⟩
    rw [hget, FileTree.movedAt, if_pos (List.prefix_append _ _), List.drop_left]
    exact hcopy
  · rw [FileTree.get?_rename_of_apart (h.staged.not_below hq) (hbelow q node hq)]
    exact h.staged.bound hq

/-- The manifest is written behind the copies. -/
theorem Filling.manifest {stage : Path} (hchecked : Checked H t₀ out plan finals removals)
    (h : Filling t₀ out stage t) (hcopied : ∀ f ∈ finals, CopiedTo t₀ stage f t) (bytes : List UInt8) :
    ∀ f ∈ finals, CopiedTo t₀ stage f (t.put (stage ++ [manifestName]) (.file bytes)) := by
  intro f hf
  obtain ⟨b, hb, hcopy⟩ := hcopied f hf
  refine ⟨b, hb, ?_⟩
  rw [h.get?_put, if_neg, hcopy]
  intro heq
  exact (hchecked.final f hf).2.2.1 (by simpa using heq)

/-- The staging directory with all copies and the manifest. -/
theorem filled (hchecked : Checked H t₀ out plan finals removals) {stage : Path} (h : Filling t₀ out stage s.tree) :
    ∃ s₁ : Work, s₁ = (Course.forEach Write.perform (copyFinal H stage) finals s).done Write.perform s ∧
      (Course.forEach Write.perform (copyFinal H stage) finals s).result = .ok () ∧
      Filling t₀ out stage (s₁.tree.put (stage ++ [manifestName]) (.file (textBytes (manifestText plan finals)))) ∧
      ∀ f ∈ finals, CopiedTo t₀ stage f
        (s₁.tree.put (stage ++ [manifestName]) (.file (textBytes (manifestText plan finals)))) := by
  obtain ⟨hok, hfilling, hcopied⟩ := copies_done hchecked h
  exact ⟨_, rfl, hok, hfilling.put _ _, hfilling.manifest hchecked hcopied _⟩

/-- Where the filling of the staging directory stops, it is not renamed yet, or the collection is published. -/
theorem fillStage_stopped (hchecked : Checked H t₀ out plan finals removals)
    (h : Filling t₀ out (stagePath t₀ out plan.name p) s.tree) {s' : Work}
    (hstop : Interrupted Write.perform Write.Part s (fillStage H plan finals (stagePath t₀ out plan.name p)
      (collectionPath t₀ out plan.name) s).writes s') :
    Staged t₀ out (stagePath t₀ out plan.name p) s'.tree ∨
      Published t₀ (collectionPath t₀ out plan.name) finals removals s'.tree := by
  obtain ⟨s₁, hs₁, -, hfilling, hcopied⟩ := filled hchecked h
  rcases Course.interrupted_andThen hstop with hstop | ⟨-, hstop⟩
  · exact .inl (keeps_interrupted (fun _ hw => copies_keep hw) h.staged hstop)
  · have hstaged : Staged t₀ out (stagePath t₀ out plan.name p) s₁.tree := by
      rw [hs₁]
      exact keeps_performAll (fun _ hw => copies_keep hw) h.staged
    rw [← hs₁] at hstop
    rcases Course.interrupted_andThen hstop with hstop | ⟨-, hstop⟩
    · refine .inl (keeps_interrupted (fun w hw => ?_) hstaged hstop)
      obtain rfl := List.mem_singleton.mp hw
      exact file_keeps_staged _ _
    · rw [publishStage] at hstop
      split at hstop
      · cases hstop
      · rename_i hfresh
        rcases hstop with ⟨hpart⟩ | ⟨hlater⟩
        · rcases hpart with _ | _ | n
          · exact .inl hfilling.staged
          · refine .inr (hfilling.publish hchecked hcopied ?_)
            simpa using hfresh
        · cases hlater

theorem fillStage_done (hchecked : Checked H t₀ out plan finals removals)
    (h : Filling t₀ out (stagePath t₀ out plan.name p) s.tree)
    (hok : (fillStage H plan finals (stagePath t₀ out plan.name p) (collectionPath t₀ out plan.name) s).result = .ok ()) :
    Published t₀ (collectionPath t₀ out plan.name) finals removals
      ((fillStage H plan finals (stagePath t₀ out plan.name p) (collectionPath t₀ out plan.name) s).done
        Write.perform s).tree := by
  obtain ⟨s₁, hs₁, hcopies, hfilling, hcopied⟩ := filled hchecked h
  obtain ⟨-, hrest⟩ := Course.andThen_result.mp hok
  rw [fillStage, Course.done_andThen hcopies, ← hs₁, Course.done_andThen rfl]
  rw [← hs₁] at hrest
  obtain ⟨-, hpublish⟩ := Course.andThen_result.mp hrest
  rw [publishStage] at hpublish ⊢
  split at hpublish
  · cases hpublish
  · rename_i hfresh
    rw [if_neg hfresh]
    exact hfilling.publish hchecked hcopied (by simpa using hfresh)

/-! ## Every place where a run stops -/

/-- `remove_dir_all` of the staging directory, which may stop anywhere. -/
def Cleaned (stage : Path) (t t' : FileTree) : Prop :=
  (∀ q, ¬stage <+: q → t'.get? q = t.get? q) ∧ ∀ q, stage <+: q → t'.get? q = t.get? q ∨ t'.get? q = none

/-- What a run in apply mode leaves: it ends, it stops at a write, or the staging directory is not filled or not
published, and it is cleaned up. -/
inductive Leaves (H : List UInt8 → String) (stuck : Path → Bool) (out : Path) (plan : FinalizePlan) (p : ℕ) (s : Work) :
    Work → Prop
  | ends : Leaves H stuck out plan p s ((finalize H stuck out plan p s).done Write.perform s)
  | stops {s' : Work} (h : Interrupted Write.perform Write.Part s (finalize H stuck out plan p s).writes s') :
      Leaves H stuck out plan p s s'
  | cleans {checked : List Final × List Removal} {s₁ s₂ s' : Work} (hcheck : check H s.tree out plan = .ok checked)
      (hopen : (openStage out plan p s).result = .ok ()) (hs₁ : s₁ = (openStage out plan p s).done Write.perform s)
      (hfill : Interrupted Write.perform Write.Part s₁ (fillStage H plan checked.1 (stagePath s.tree out plan.name p)
        (collectionPath s.tree out plan.name) s₁).writes s₂)
      (hclean : Cleaned (stagePath s.tree out plan.name p) s₂.tree s'.tree) (hrecords : s'.records = s₂.records) :
      Leaves H stuck out plan p s s'

theorem Staged.clean {stage : Path} {t' : FileTree} (h : Staged t₀ out stage t) (hclean : Cleaned stage t t') :
    Staged t₀ out stage t' :=
  ⟨fun q hq => (h.added q hq).congr (hclean.1 q hq), h.fresh⟩

theorem Published.clean {t' : FileTree} (hslug : validCollection plan.collection = true)
    (hfresh : t₀.get? (stagePath t₀ out plan.name p) = none)
    (h : Published t₀ (collectionPath t₀ out plan.name) finals removals t)
    (hclean : Cleaned (stagePath t₀ out plan.name p) t t') :
    Published t₀ (collectionPath t₀ out plan.name) finals removals t' := by
  have hstaged : Staged t₀ out (stagePath t₀ out plan.name p) t₀ := ⟨fun _ _ => .inl rfl, hfresh⟩
  refine ⟨h.fresh, fun f hf => ?_, fun q node hq hnode => ?_⟩
  · obtain ⟨bytes, hbytes, hcopy⟩ := h.copies f hf
    refine ⟨bytes, hbytes, ?_⟩
    rw [hclean.1 _ fun hpre => ?_, hcopy]
    rcases List.prefix_concat_iff.mp hpre with heq | hpre
    · exact absurd (congrArg List.length heq) (by simp [stagePath, collectionPath])
    · exact stage_apart hslug t₀ out p hpre
  · rw [hclean.1 q (hstaged.not_below hq)]
    exact h.rest q node hq hnode

/-- The staging directory is ready to be filled once it is open. -/
theorem filling_of_open (hs : s.tree = t₀) (hok : (openStage out plan p s).result = .ok ()) :
    Filling t₀ out (stagePath t₀ out plan.name p) ((openStage out plan p s).done Write.perform s).tree := by
  obtain ⟨hstaged, hdir, hempty⟩ := openStage_done hs hok
  exact ⟨hstaged, hdir, fun n => by rw [hempty [n] (by simp)]; simp⟩

/-- Where a run stops, nothing is published yet, or the collection is. -/
theorem stops_cases (hcheck : check H s.tree out plan = .ok (finals, removals)) {s' : Work}
    (h : Interrupted Write.perform Write.Part s (finalize H stuck out plan p s).writes s') :
    AddedDirs s.tree out s'.tree ∨ Staged s.tree out (stagePath s.tree out plan.name p) s'.tree ∨
      Published s.tree (collectionPath s.tree out plan.name) finals removals s'.tree := by
  have hchecked := checked_of_check hcheck
  rw [finalize, hcheck] at h
  rcases Course.interrupted_andThen h with h | ⟨hopen, h⟩
  · exact (openStage_stopped rfl h).imp_right .inl
  · have hfilling := filling_of_open rfl hopen
    rcases Course.interrupted_andThen h with h | ⟨hfill, h⟩
    · exact .inr (fillStage_stopped hchecked hfilling h)
    · exact .inr (.inr (keeps_interrupted (fun _ hw => afterPublish_keeps hchecked hw)
        (fillStage_done hchecked hfilling hfill) h))

/-- Every state that a run leaves: the plan is refused, nothing is published yet, or the collection is published. -/
theorem leaves_cases {s' : Work} (h : Leaves H stuck out plan p s s') :
    (∃ e, check H s.tree out plan = .error e ∧ s' = s) ∨
      ∃ finals removals, check H s.tree out plan = .ok (finals, removals) ∧
        (AddedDirs s.tree out s'.tree ∨ Staged s.tree out (stagePath s.tree out plan.name p) s'.tree ∨
          Published s.tree (collectionPath s.tree out plan.name) finals removals s'.tree) := by
  cases hcheck : check H s.tree out plan with
  | error e =>
    refine .inl ⟨e, rfl, ?_⟩
    have hplain : finalize H stuck out plan p s = .plain (.error e) := by rw [finalize, hcheck]
    rcases h with _ | h | ⟨hok, -⟩
    · rw [hplain]
      rfl
    · rw [hplain] at h
      cases h
    · rw [hcheck] at hok
      cases hok
  | ok checked =>
    obtain ⟨finals, removals⟩ := checked
    refine .inr ⟨finals, removals, rfl, ?_⟩
    rcases h with _ | h | ⟨hok, hopen, rfl, hfill, hclean, -⟩
    · by_cases hnil : (finalize H stuck out plan p s).writes = []
      · rw [Course.done, hnil]
        exact .inl (AddedDirs.refl _ _)
      · exact stops_cases hcheck (interrupted_performAll (fun _ _ => .whole) hnil)
    · exact stops_cases hcheck h
    · obtain rfl := Except.ok.inj (hok.symm.trans hcheck)
      have hchecked := checked_of_check hcheck
      have hfilling := filling_of_open rfl hopen
      rcases fillStage_stopped hchecked hfilling hfill with hstaged | hpublished
      · exact .inr (.inl (hstaged.clean hclean))
      · exact .inr (.inr (hpublished.clean hchecked.slug hfilling.staged.fresh hclean))

/-! ## No bytes are lost -/

/-- What holds of the files however a run of `finalize` ends. -/
structure Kept (t₀ : FileTree) (out : Path) (plan : FinalizePlan) (p : ℕ) (t : FileTree) : Prop where
  /-- The bytes of a final file are at its path or in the collection. -/
  finals : ∀ e ∈ plan.finalFiles, ∀ dir n bytes, e.path = some (dir ++ [n]) → t₀.bytesAt (dir ++ [n]) = some bytes →
    t.bytesAt (dir ++ [n]) = some bytes ∨ t.bytesAt (collectionPath t₀ out plan.name ++ [n]) = some bytes
  /-- A file or link that the plan does not list stays as it is. -/
  others : ∀ q node, t₀.get? q = some node → node ≠ .dir → (∀ e ∈ plan.finalFiles ++ plan.removeFiles, e.path ≠ some q) →
    t.get? q = some node
  /-- Before the collection is published, nothing is removed or changed, and all that is added is the directories of
  the collections, and the staging directory with what is in it. -/
  unpublished : t.get? (collectionPath t₀ out plan.name) = t₀.get? (collectionPath t₀ out plan.name) → ∀ q,
    t.get? q = t₀.get? q ∨ t₀.get? q = none ∧
      (stagePath t₀ out plan.name p <+: q ∨
        t.get? q = some .dir ∧ (q = artifactsPath out ∨ q = innerPath t₀ out))

theorem Kept.refl (t₀ : FileTree) (out : Path) (plan : FinalizePlan) (p : ℕ) : Kept t₀ out plan p t₀ :=
  ⟨fun _ _ _ _ _ _ h => .inl h, fun _ _ hq _ _ => hq, fun _ _ => .inl rfl⟩

theorem AddedDirs.kept (h : AddedDirs t₀ out t) : Kept t₀ out plan p t where
  finals := fun _ _ _ _ _ _ hbytes => .inl (FileTree.bytesAt_eq_some.mpr
    ((h _).bound (FileTree.bytesAt_eq_some.mp hbytes)))
  others := fun q _ hq _ _ => (h q).bound hq
  unpublished := fun _ q => (h q).imp_right fun ⟨hnone, hdir, hwhere⟩ => ⟨hnone, .inr ⟨hdir, hwhere⟩⟩

theorem Staged.kept (h : Staged t₀ out (stagePath t₀ out plan.name p) t) : Kept t₀ out plan p t where
  finals := fun _ _ _ _ _ _ hbytes => .inl (FileTree.bytesAt_eq_some.mpr (h.bound (FileTree.bytesAt_eq_some.mp hbytes)))
  others := fun _ _ hq _ _ => h.bound hq
  unpublished := fun _ q => by
    by_cases hbelow : stagePath t₀ out plan.name p <+: q
    · refine .inr ⟨?_, .inl hbelow⟩
      cases hq : t₀.get? q with
      | none => rfl
      | some node => exact absurd hbelow (h.not_below hq)
    · exact (h.added q hbelow).imp_right fun ⟨hnone, hdir, hwhere⟩ => ⟨hnone, .inr ⟨hdir, hwhere⟩⟩

theorem Published.kept (hchecked : Checked H t₀ out plan finals removals)
    (h : Published t₀ (collectionPath t₀ out plan.name) finals removals t) : Kept t₀ out plan p t where
  finals := fun e he dir n bytes hpath hbytes => by
    obtain ⟨f, hf, hfpath⟩ := hchecked.finalOf e he
    have hsame : f.path = dir ++ [n] := Option.some.inj (hfpath.symm.trans hpath)
    have hname : n = f.name := by
      have hlast := (hchecked.final f hf).2.1
      rw [hsame, List.getLast?_concat] at hlast
      exact Option.some.inj hlast
    obtain ⟨b, hb, hcopy⟩ := h.copies f hf
    rw [hsame, FileTree.bytesAt_eq_some.mp hbytes, Option.some_inj, Node.file.injEq] at hb
    rw [hname, hb]
    exact .inr (FileTree.bytesAt_eq_some.mpr hcopy)
  others := fun q node hq hnode hlisted => by
    refine (h.rest q node hq hnode).resolve_right fun hgone => ?_
    rcases List.mem_append.mp hgone.1 with hmem | hmem
    · obtain ⟨f, hf, rfl⟩ := List.mem_map.mp hmem
      obtain ⟨⟨e, he, hpath⟩, -⟩ := hchecked.final f hf
      exact hlisted e (List.mem_append_left _ he) hpath
    · obtain ⟨r, hr, rfl⟩ := List.mem_map.mp hmem
      obtain ⟨⟨e, he, hpath⟩, -⟩ := hchecked.removal r hr
      exact hlisted e (List.mem_append_right _ he) hpath
  unpublished := fun hsame => by
    obtain ⟨e, he⟩ := List.exists_mem_of_ne_nil _ hchecked.nonempty
    obtain ⟨f, hf, -⟩ := hchecked.finalOf e he
    obtain ⟨b, -, hcopy⟩ := h.copies f hf
    have hdir := t.rooted _ f.name (by rw [FileTree.get?] at hcopy; rw [hcopy]; rfl)
    rw [h.fresh, FileTree.get?, hdir] at hsame
    cases hsame

/-- However a run of `finalize` ends, no bytes are lost. -/
theorem finalize_keeps {s' : Work} (h : Leaves H stuck out plan p s s') : Kept s.tree out plan p s'.tree := by
  rcases leaves_cases h with ⟨e, -, rfl⟩ | ⟨finals, removals, hcheck, hdirs | hstaged | hpublished⟩
  · exact Kept.refl _ _ _ _
  · exact hdirs.kept
  · exact hstaged.kept
  · exact hpublished.kept (checked_of_check hcheck)

/-! ## A quotation and its draft -/

/-- The output directory of the example. -/
def quoteOutput : Path := [plainName "wiki", plainName "03-output"]

/-- The directory of the two files. -/
def quoteDir : Path := quoteOutput ++ [plainName "quotations"]

/-- A wiki with a quotation and its draft. -/
def quoteWork : Work where
  tree := [([plainName "wiki"], .dir), (quoteOutput, .dir), (quoteDir, .dir),
    (quoteDir ++ [plainName "final.pdf"], .file (textBytes "final")),
    (quoteDir ++ [plainName "draft.pdf"], .file (textBytes "draft"))].foldl
      (fun t (e : Path × Node) => t.put e.1 e.2) FileTree.empty
  records := []

/-- The hashes of the two files. -/
def quoteSha256 (bytes : List UInt8) : String :=
  if bytes = textBytes "final" then "2443630b4620165c8b173e7265e17526fe2787ae594364dd6d839ad58f2fc007"
  else "7743ce348d9284d677a185f33295b92266cc435a5b5f775029b300066d26693a"

/-- The plan that keeps the quotation and removes the draft. -/
def quotePlan : FinalizePlan where
  format := planFormat
  collection := "example-quotes"
  finalFiles := [⟨"/wiki/03-output/quotations/final.pdf", some (quoteDir ++ [plainName "final.pdf"]),
    quoteSha256 (textBytes "final")⟩]
  removeFiles := [⟨"/wiki/03-output/quotations/draft.pdf", some (quoteDir ++ [plainName "draft.pdf"]),
    quoteSha256 (textBytes "draft")⟩]

/-- Nothing is lost when the quotation is finalized. -/
theorem finalize_keeps_quote :
    Kept quoteWork.tree quoteOutput quotePlan 1
      ((finalize quoteSha256 (fun _ => false) quoteOutput quotePlan 1 quoteWork).done Write.perform quoteWork).tree :=
  finalize_keeps (p := 1) .ends

theorem quote_first_write :
    (finalize quoteSha256 (fun _ => false) quoteOutput quotePlan 1 quoteWork).writes.head? =
      some (.mkdir (artifactsPath quoteOutput)) := by
  decide +kernel

/-- If the second level of `create_dir_all` is refused, the first level stays though nothing is published. -/
theorem leaves_artifacts_dir :
    ∃ s', Leaves quoteSha256 (fun _ => false) quoteOutput quotePlan 1 quoteWork s' ∧
      s'.tree.get? (collectionPath quoteWork.tree quoteOutput quotePlan.name) =
        quoteWork.tree.get? (collectionPath quoteWork.tree quoteOutput quotePlan.name) ∧
      s'.tree.get? (artifactsPath quoteOutput) ≠ quoteWork.tree.get? (artifactsPath quoteOutput) := by
  refine ⟨(Write.mkdir (artifactsPath quoteOutput)).perform quoteWork, .stops ?_, by decide +kernel, by decide +kernel⟩
  obtain ⟨rest, hrest⟩ := List.head?_eq_some_iff.mp quote_first_write
  rw [hrest]
  exact .here .whole

end Innen.Finalize
