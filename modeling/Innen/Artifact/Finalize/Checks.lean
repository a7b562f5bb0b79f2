import Innen.Artifact.Finalize.Model

/-!
# What a checked plan says

If the checks of `finalize` pass, the final files and the drafts are regular files with the listed hashes, no two of
them are the same, and the collection is not there (`checked_of_check`). The checks only look at the listed paths and
at the place of the collection, so they pass on another tree with the same (`check_congr`).
-/

namespace Innen.Finalize

open Innen.Common

variable {H : List UInt8 → String} {t : FileTree} {out : Path} {plan : FinalizePlan}

/-- A regular file with a hash. -/
def HasHash (H : List UInt8 → String) (t : FileTree) (p : Path) (sha256 : String) : Prop :=
  ∃ bytes, t.get? p = some (.file bytes) ∧ H bytes = sha256

/-- What holds of the lists that the checks make of a plan. -/
structure Checked (H : List UInt8 → String) (t : FileTree) (out : Path) (plan : FinalizePlan) (finals : List Final)
    (removals : List Removal) : Prop where
  slug : validCollection plan.collection = true
  absent : t.pathExists (collectionPath t out plan.name) = false
  final : ∀ f ∈ finals, (∃ e ∈ plan.finalFiles, e.path = some f.path) ∧ f.path.getLast? = some f.name ∧
    f.name ≠ manifestName ∧ HasHash H t f.path f.sha256
  nonempty : plan.finalFiles ≠ []
  finalOf : ∀ e ∈ plan.finalFiles, ∃ f ∈ finals, e.path = some f.path
  removal : ∀ r ∈ removals, (∃ e ∈ plan.removeFiles, e.path = some r.path) ∧ HasHash H t r.path r.sha256
  removalOf : ∀ e ∈ plan.removeFiles, ∃ r ∈ removals, e.path = some r.path
  names : (finals.map Final.name).Nodup
  paths : (finals.map Final.path ++ removals.map Removal.path).Nodup

theorem fileSha256_eq_ok {p : Path} {hash : String × ℕ} (h : fileSha256 H t p = .ok hash) :
    ∃ bytes, t.get? p = some (.file bytes) ∧ hash = (H bytes, bytes.length) := by
  simp only [fileSha256, bind_eq_ok] at h
  obtain ⟨bytes, hbytes, hhash⟩ := h
  cases hat : t.bytesAt p with
  | none =>
    rw [hat] at hbytes
    cases hbytes
  | some bytes' => exact ⟨bytes', FileTree.bytesAt_eq_some.mp hat, by
      rw [hat] at hbytes
      obtain rfl := Except.ok.inj hbytes
      exact (Except.ok.inj hhash).symm⟩

theorem fileSha256_of_file {p : Path} {bytes : List UInt8} (h : t.get? p = some (.file bytes)) :
    fileSha256 H t p = .ok (H bytes, bytes.length) := by
  rw [fileSha256, FileTree.bytesAt_eq_some.mpr h]
  rfl

/-- What a path that was verified is. -/
theorem verifiedPath_eq_ok {e : PlannedFile} {allow : Bool} {checked : Path × ℕ}
    (h : verifiedPath H t out e allow = .ok checked) :
    e.path = some checked.1 ∧ HasHash H t checked.1 (asciiLower e.sha256) := by
  simp only [verifiedPath, bind_eq_ok, failIf_eq_ok] at h
  obtain ⟨p, hp, -, -, node, -, -, -, -, -, hash, hhash, -, hsame, hchecked⟩ := h
  obtain rfl := Except.ok.inj hchecked
  obtain ⟨bytes, hbytes, rfl⟩ := fileSha256_eq_ok hhash
  refine ⟨?_, bytes, hbytes, not_not.mp hsame⟩
  cases hpath : e.path with
  | none =>
    rw [hpath] at hp
    cases hp
  | some p' =>
    rw [hpath] at hp
    rw [Except.ok.inj hp]

/-- What a final file that was checked adds to the list. -/
theorem checkFinal_eq_ok {finals finals' : List Final} {e : PlannedFile}
    (h : checkFinal H t out finals e = .ok finals') :
    ∃ f, finals' = finals ++ [f] ∧ e.path = some f.path ∧ f.path.getLast? = some f.name ∧ f.name ≠ manifestName ∧
      HasHash H t f.path f.sha256 ∧ f.name ∉ finals.map Final.name ∧ f.path ∉ finals.map Final.path := by
  simp only [checkFinal, bind_eq_ok, failIf_eq_ok, not_or] at h
  obtain ⟨checked, hverified, name, hname, -, ⟨hmanifest, hnames, hpaths⟩, hfinals⟩ := h
  obtain ⟨hpath, hhash⟩ := verifiedPath_eq_ok hverified
  refine ⟨_, (Except.ok.inj hfinals).symm, hpath, ?_, hmanifest, hhash, hnames, hpaths⟩
  cases hlast : checked.1.getLast? with
  | none =>
    rw [hlast] at hname
    cases hname
  | some name' =>
    rw [hlast] at hname
    rw [Except.ok.inj hname]

theorem checkRemoval_eq_ok {finals : List Final} {removals removals' : List Removal} {e : PlannedFile}
    (h : checkRemoval H t out finals removals e = .ok removals') :
    ∃ r, removals' = removals ++ [r] ∧ e.path = some r.path ∧ HasHash H t r.path r.sha256 ∧
      r.path ∉ finals.map Final.path ∧ r.path ∉ removals.map Removal.path := by
  simp only [checkRemoval, bind_eq_ok, failIf_eq_ok, not_or] at h
  obtain ⟨checked, hverified, -, ⟨hfinals, hremovals⟩, hresult⟩ := h
  obtain ⟨hpath, hhash⟩ := verifiedPath_eq_ok hverified
  exact ⟨_, (Except.ok.inj hresult).symm, hpath, hhash, hfinals, hremovals⟩

/-- What holds of the final files after some of them were checked. -/
structure FinalsSoFar (H : List UInt8 → String) (t : FileTree) (plan : FinalizePlan) (finals : List Final) : Prop where
  final : ∀ f ∈ finals, (∃ e ∈ plan.finalFiles, e.path = some f.path) ∧ f.path.getLast? = some f.name ∧
    f.name ≠ manifestName ∧ HasHash H t f.path f.sha256
  names : (finals.map Final.name).Nodup
  paths : (finals.map Final.path).Nodup

theorem nodup_concat {α : Type*} {l : List α} {a : α} (hl : l.Nodup) (ha : a ∉ l) : (l ++ [a]).Nodup :=
  List.concat_eq_append ▸ List.Nodup.concat ha hl

theorem finalsSoFar {finals : List Final} (h : plan.finalFiles.foldlM (checkFinal H t out) [] = .ok finals) :
    FinalsSoFar H t plan finals := by
  have hnone : FinalsSoFar H t plan [] := ⟨fun f hf => (by cases hf), .nil, .nil⟩
  refine foldlM_ok_induction (FinalsSoFar H t plan) ?_ hnone h
  intro fs e fs' he hfs hstep
  obtain ⟨f, rfl, hpath, hlast, hmanifest, hhash, hname, hfresh⟩ := checkFinal_eq_ok hstep
  refine ⟨?_, ?_, ?_⟩
  · intro g hg
    rcases List.mem_append.mp hg with hg | hg
    · exact hfs.final g hg
    · obtain rfl := List.mem_singleton.mp hg
      exact ⟨⟨e, he, hpath⟩, hlast, hmanifest, hhash⟩
  · rw [List.map_append]
    exact nodup_concat hfs.names hname
  · rw [List.map_append]
    exact nodup_concat hfs.paths hfresh

/-- The lists that the checks make. -/
theorem checked_of_check {finals : List Final} {removals : List Removal}
    (h : check H t out plan = .ok (finals, removals)) : Checked H t out plan finals removals := by
  simp only [check, bind_eq_ok, failIf_eq_ok, not_or] at h
  obtain ⟨-, ⟨-, hslug, hnonempty⟩, -, habsent, fs, hfs, rs, hrs, heq⟩ := h
  obtain ⟨rfl, rfl⟩ := Prod.mk.inj (Except.ok.inj heq)
  have hfinals := finalsSoFar hfs
  have hremovals : (∀ r ∈ rs, (∃ e ∈ plan.removeFiles, e.path = some r.path) ∧ HasHash H t r.path r.sha256) ∧
      (fs.map Final.path ++ rs.map Removal.path).Nodup := by
    refine foldlM_ok_induction (fun rs : List Removal =>
      (∀ r ∈ rs, (∃ e ∈ plan.removeFiles, e.path = some r.path) ∧ HasHash H t r.path r.sha256) ∧
        (fs.map Final.path ++ rs.map Removal.path).Nodup) ?_
      ⟨fun r hr => (by cases hr), by simpa using hfinals.paths⟩ hrs
    rintro rs e rs' he ⟨hall, hnodup⟩ hstep
    obtain ⟨r, rfl, hpath, hhash, hfinal, hfresh⟩ := checkRemoval_eq_ok hstep
    refine ⟨?_, ?_⟩
    · intro g hg
      rcases List.mem_append.mp hg with hg | hg
      · exact hall g hg
      · obtain rfl := List.mem_singleton.mp hg
        exact ⟨⟨e, he, hpath⟩, hhash⟩
    · rw [List.map_append, ← List.append_assoc]
      refine nodup_concat hnodup fun hmem => ?_
      rcases List.mem_append.mp hmem with hmem | hmem
      · exact hfinal hmem
      · exact hfresh hmem
  refine ⟨by simpa using hslug, by simpa using habsent, hfinals.final, hnonempty, ?_, hremovals.1, ?_, hfinals.names,
    hremovals.2⟩
  · intro e he
    refine foldlM_ok_establishes (fun fs : List Final => ∃ f ∈ fs, e.path = some f.path) he ?_ ?_ hfs
    · intro fs fs' hstep
      obtain ⟨f, rfl, hpath, -⟩ := checkFinal_eq_ok hstep
      exact ⟨f, List.mem_append_right _ List.mem_cons_self, hpath⟩
    · rintro fs e' fs' ⟨f, hf, hpath⟩ hstep
      obtain ⟨f', rfl, -⟩ := checkFinal_eq_ok hstep
      exact ⟨f, List.mem_append_left _ hf, hpath⟩
  · intro e he
    refine foldlM_ok_establishes (fun rs : List Removal => ∃ r ∈ rs, e.path = some r.path) he ?_ ?_ hrs
    · intro rs rs' hstep
      obtain ⟨r, rfl, hpath, -⟩ := checkRemoval_eq_ok hstep
      exact ⟨r, List.mem_append_right _ List.mem_cons_self, hpath⟩
    · rintro rs e' rs' ⟨r, hr, hpath⟩ hstep
      obtain ⟨r', rfl, -⟩ := checkRemoval_eq_ok hstep
      exact ⟨r, List.mem_append_left _ hr, hpath⟩

/-! ## Checking again -/

variable {t' : FileTree}

theorem verifiedPath_congr (hfiles : ∀ p bytes, t.get? p = some (.file bytes) → t'.get? p = some (.file bytes))
    {e : PlannedFile} {allow : Bool} {checked : Path × ℕ} (h : verifiedPath H t out e allow = .ok checked) :
    verifiedPath H t' out e allow = .ok checked := by
  simp only [verifiedPath, bind_eq_ok, failIf_eq_ok] at h ⊢
  obtain ⟨p, hp, u, hsha, node, hnode, v, -, w, hwhere, hash, hhash, x, hsame, hchecked⟩ := h
  obtain ⟨bytes, hbytes, rfl⟩ := fileSha256_eq_ok hhash
  refine ⟨p, hp, u, hsha, .file bytes, by rw [hfiles p bytes hbytes]; rfl, v, by simp [Node.isLink], w, hwhere, _,
    fileSha256_of_file (hfiles p bytes hbytes), x, hsame, hchecked⟩

/-- The checks pass on another tree with the same files, the same place for the collection, and nothing there. -/
theorem check_congr (hfiles : ∀ p bytes, t.get? p = some (.file bytes) → t'.get? p = some (.file bytes))
    (hplace : collectionPath t' out plan.name = collectionPath t out plan.name)
    (habsent : t'.pathExists (collectionPath t out plan.name) = false) {checked : List Final × List Removal}
    (h : check H t out plan = .ok checked) : check H t' out plan = .ok checked := by
  simp only [check, bind_eq_ok, failIf_eq_ok] at h ⊢
  obtain ⟨u, hplan, v, -, finals, hfinals, removals, hremovals, hchecked⟩ := h
  refine ⟨u, hplan, v, by simp [hplace, habsent], finals, foldlM_ok_congr ?_ hfinals, removals,
    foldlM_ok_congr ?_ hremovals, hchecked⟩
  · intro fs e fs' hstep
    simp only [checkFinal, bind_eq_ok] at hstep ⊢
    obtain ⟨c, hc, hrest⟩ := hstep
    exact ⟨c, verifiedPath_congr hfiles hc, hrest⟩
  · intro rs e rs' hstep
    simp only [checkRemoval, bind_eq_ok] at hstep ⊢
    obtain ⟨c, hc, hrest⟩ := hstep
    exact ⟨c, verifiedPath_congr hfiles hc, hrest⟩

end Innen.Finalize
