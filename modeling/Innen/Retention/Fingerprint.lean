import Innen.Common.ByteLines
import Innen.Retention.Model
import Mathlib.Algebra.GroupWithZero.Nat

/-!
# The fingerprint of a bundle

The regular files of the targets are hashed as one stream: the name of a file, a zero byte and its bytes, one file
after the other, by their names. The stream does not say how long a file is, so it can be cut in more than one way.
-/

namespace Innen.Retention

open Innen.Common

/-! ## Hashing -/

/-- The name of a file in a bundle: from the last part of the target on. -/
def relativeName (base p : Path) : String := "/".intercalate ((p.drop (base.length - 1)).map Subtype.val)

/-- One entry of the walk of `collect`. -/
def collectEntry (t : FileTree) (base : Path) (files : List (String × Path)) (e : Path × Node) :
    Except RetentionError (List (String × Path)) :=
  match e.2 with
  | .dir => .ok files
  | .file _ => .ok (files ++ [(relativeName base e.1, e.1)])
  -- A link that stays inside is removed with the session, but not hashed.
  | .link resolved =>
    if (t.canonicalize? base).getD base <+: resolved then .ok files
    else .error (.proof ("symlink inside purge bundle is unsupported: " ++ displayPath e.1))

/-- `collect`: the regular files of a target, with their names. -/
def collect (t : FileTree) (base : Path) : Except RetentionError (List (String × Path)) :=
  if (t.get? base).isSome then (t.below base).foldlM (collectEntry t base) []
  else .error (ioError base "No such file or directory (os error 2)")

/-- One target of a bundle. -/
def collectTarget (t : FileTree) (files : List (String × Path)) (target : Path) :
    Except RetentionError (List (String × Path)) :=
  (collect t target).map (files ++ ·)

/-- All files of the targets, ordered by their names. -/
def bundlePaths (t : FileTree) (targets : List Path) : Except RetentionError (List (String × Path)) := do
  failIf (targets = []) (.proof "session bundle has no existing targets")
  let files ← targets.foldlM (collectTarget t) []
  .ok (files.insertionSort fun a b => a.1 ≤ b.1)

/-- All files of the targets with what they hold. -/
def bundleFiles (t : FileTree) (targets : List Path) : Except RetentionError (List (String × List UInt8)) :=
  (bundlePaths t targets).map fun files => files.map fun f => (f.1, (t.bytesAt f.2).getD [])

/-- What is hashed. -/
def stream (files : List (String × List UInt8)) : List UInt8 :=
  files.flatMap fun f => utf8Bytes f.1.toList ++ 0 :: f.2

/-- The number of bytes of each file. -/
def sizes (files : List (String × List UInt8)) : List ℕ := files.map fun f => f.2.length

/-- `hash_targets`. -/
def hashTargets (sha256 : List UInt8 → String) (t : FileTree) (targets : List Path) : Except RetentionError Bundle :=
  (bundleFiles t targets).map fun files => ⟨sha256 (stream files), (sizes files).sum, targets⟩

/-! ## Names have no zero byte -/

theorem zero_not_mem_utf8Bytes {cs : List Char} (h : '\x00' ∉ cs) : (0 : UInt8) ∉ utf8Bytes cs := by
  rw [utf8Bytes, List.mem_flatMap]
  rintro ⟨c, hc, hzero⟩
  refine ascii_not_mem_utf8EncodeChar (n := 0) (by decide) (fun hval => ?_) hzero
  have heq : c = '\x00' := Char.ext (UInt32.toNat_inj.mp hval)
  exact h (heq ▸ hc)

theorem utf8Bytes_injective {s s' : String} (h : utf8Bytes s.toList = utf8Bytes s'.toList) : s = s' := by
  rw [← toByteArray_data_toList, ← toByteArray_data_toList] at h
  exact String.toByteArray_inj.mp (ByteArray.ext (Array.toList_inj.mp h))

theorem nul_not_mem_relativeName (base p : Path) : '\x00' ∉ (relativeName base p).toList := by
  refine not_mem_intercalate (by decide) fun s hs => ?_
  obtain ⟨name, -, rfl⟩ := List.mem_map.mp hs
  exact name.2.2.2

/-- Every name in a bundle can be told from the bytes behind it. -/
def Named (files : List (String × List UInt8)) : Prop := ∀ f ∈ files, '\x00' ∉ f.1.toList

theorem nul_not_mem_collect {t : FileTree} {base : Path} {files : List (String × Path)}
    (h : collect t base = .ok files) : ∀ f ∈ files, '\x00' ∉ f.1.toList := by
  unfold collect at h
  split at h
  · refine foldlM_ok_induction (fun files => ∀ f ∈ files, '\x00' ∉ f.1.toList)
      (fun files e files' _ hfiles hstep => ?_) (fun _ hf => (by cases hf)) h
    unfold collectEntry at hstep
    split at hstep
    · exact Except.ok.inj hstep ▸ hfiles
    · obtain rfl := Except.ok.inj hstep
      intro f hf
      rcases List.mem_append.mp hf with hf | hf
      · exact hfiles f hf
      · rw [List.mem_singleton.mp hf]
        exact nul_not_mem_relativeName base e.1
    · split at hstep
      · exact Except.ok.inj hstep ▸ hfiles
      · cases hstep
  · cases h

/-- One target adds its files. -/
theorem collectTarget_eq_ok {t : FileTree} {files files' : List (String × Path)} {target : Path}
    (h : collectTarget t files target = .ok files') : ∃ more, collect t target = .ok more ∧ files' = files ++ more := by
  unfold collectTarget at h
  cases hcollect : collect t target with
  | error e =>
    rw [hcollect] at h
    cases h
  | ok more =>
    rw [hcollect] at h
    exact ⟨more, rfl, (Except.ok.inj h).symm⟩

/-- Every regular file below a target is collected. -/
theorem mem_collect {t : FileTree} {base p : Path} {bytes : List UInt8} {files : List (String × Path)}
    (h : collect t base = .ok files) (hbase : base <+: p) (hp : t.bytesAt p = some bytes) :
    (relativeName base p, p) ∈ files := by
  unfold collect at h
  split at h
  · have hentry : (p, Node.file bytes) ∈ t.below base :=
      FileTree.mem_below.mpr ⟨hbase, FileTree.bytesAt_eq_some.mp hp⟩
    refine foldlM_ok_establishes (fun files => (relativeName base p, p) ∈ files) hentry ?_ ?_ h
    · intro files files' hstep
      obtain rfl := Except.ok.inj hstep
      exact List.mem_append_right _ List.mem_cons_self
    · intro files e files' hmem hstep
      unfold collectEntry at hstep
      split at hstep
      · exact Except.ok.inj hstep ▸ hmem
      · exact Except.ok.inj hstep ▸ List.mem_append_left _ hmem
      · split at hstep
        · exact Except.ok.inj hstep ▸ hmem
        · cases hstep
  · cases h

/-- Every regular file below the targets is in the bundle. -/
theorem mem_bundlePaths {t : FileTree} {targets : List Path} {target p : Path} {bytes : List UInt8}
    {files : List (String × Path)} (h : bundlePaths t targets = .ok files) (htarget : target ∈ targets)
    (hbase : target <+: p) (hp : t.bytesAt p = some bytes) : (relativeName target p, p) ∈ files := by
  obtain ⟨-, -, h⟩ := bind_eq_ok.mp h
  obtain ⟨found, hfound, h⟩ := bind_eq_ok.mp h
  obtain rfl := Except.ok.inj h
  rw [List.mem_insertionSort]
  refine foldlM_ok_establishes (fun files => (relativeName target p, p) ∈ files) htarget ?_ ?_ hfound
  · intro files files' hstep
    obtain ⟨more, hmore, rfl⟩ := collectTarget_eq_ok hstep
    exact List.mem_append_right _ (mem_collect hmore hbase hp)
  · intro files target' files' hmem hstep
    obtain ⟨more, -, rfl⟩ := collectTarget_eq_ok hstep
    exact List.mem_append_left _ hmem

theorem named_bundleFiles {t : FileTree} {targets : List Path} {files : List (String × List UInt8)}
    (h : bundleFiles t targets = .ok files) : Named files := by
  obtain ⟨paths, hpaths, rfl⟩ : ∃ paths, bundlePaths t targets = .ok paths ∧
      files = paths.map fun f => (f.1, (t.bytesAt f.2).getD []) := by
    rw [bundleFiles] at h
    cases hpaths : bundlePaths t targets with
    | error e =>
      rw [hpaths] at h
      cases h
    | ok paths =>
      rw [hpaths] at h
      exact ⟨paths, rfl, (Except.ok.inj h).symm⟩
  obtain ⟨-, -, hpaths⟩ := bind_eq_ok.mp hpaths
  obtain ⟨found, hfound, hpaths⟩ := bind_eq_ok.mp hpaths
  obtain rfl := Except.ok.inj hpaths
  have hnamed : ∀ f ∈ found, '\x00' ∉ f.1.toList := by
    refine foldlM_ok_induction (fun files => ∀ f ∈ files, '\x00' ∉ f.1.toList)
      (fun files target files' _ hfiles hstep => ?_) (fun _ hf => (by cases hf)) hfound
    obtain ⟨more, hmore, rfl⟩ := collectTarget_eq_ok hstep
    exact fun f hf => (List.mem_append.mp hf).elim (hfiles f) (nul_not_mem_collect hmore f)
  intro f hf
  obtain ⟨g, hg, rfl⟩ := List.mem_map.mp hf
  exact hnamed g ((List.mem_insertionSort _).mp hg)

/-! ## How a stream can be cut -/

/-- With the sizes of the files a stream can be cut in one way only. -/
theorem eq_of_stream {files files' : List (String × List UInt8)} (hnamed : Named files) (hnamed' : Named files')
    (hsizes : sizes files = sizes files') (h : stream files = stream files') : files = files' := by
  induction files generalizing files' with
  | nil =>
    cases files' with
    | nil => rfl
    | cons f rest => cases hsizes
  | cons f rest ih =>
    cases files' with
    | nil => cases hsizes
    | cons f' rest' =>
      obtain ⟨hsize, hrest⟩ := List.cons.inj hsizes
      rw [stream, stream, List.flatMap_cons, List.flatMap_cons, List.append_assoc, List.append_assoc,
        List.cons_append, List.cons_append] at h
      obtain ⟨hname, h⟩ := sep_append_inj
        (zero_not_mem_utf8Bytes (hnamed f List.mem_cons_self))
        (zero_not_mem_utf8Bytes (hnamed' f' List.mem_cons_self)) h
      obtain ⟨hbytes, h⟩ := List.append_inj h hsize
      rw [ih (fun g hg => hnamed g (List.mem_cons_of_mem f hg))
        (fun g hg => hnamed' g (List.mem_cons_of_mem f' hg)) hrest h,
        Prod.ext (utf8Bytes_injective hname) hbytes]

/-- Two bundles of which the same fingerprint implies the same files: those with files of the same sizes, and those
that are told apart anyway. -/
theorem fingerprint_determines_iff {sha256 : List UInt8 → String} (hsha : Function.Injective sha256)
    {t t' : FileTree} {targets targets' : List Path} {files files' : List (String × List UInt8)} {b b' : Bundle}
    (hfiles : bundleFiles t targets = .ok files) (hfiles' : bundleFiles t' targets' = .ok files')
    (hb : hashTargets sha256 t targets = .ok b) (hb' : hashTargets sha256 t' targets' = .ok b') :
    (b.sha256 = b'.sha256 → b.bytes = b'.bytes → files = files') ↔
      (sizes files = sizes files' ∨ stream files ≠ stream files' ∨ (sizes files).sum ≠ (sizes files').sum) := by
  rw [hashTargets, hfiles] at hb
  rw [hashTargets, hfiles'] at hb'
  obtain rfl := Except.ok.inj hb
  obtain rfl := Except.ok.inj hb'
  dsimp only
  rw [hsha.eq_iff]
  constructor
  · intro h
    by_cases hstream : stream files = stream files'
    · by_cases hsum : (sizes files).sum = (sizes files').sum
      · exact .inl (congrArg sizes (h hstream hsum))
      · exact .inr (.inr hsum)
    · exact .inr (.inl hstream)
  · rintro (hsizes | hstream | hsum) hstream' hsum'
    · exact eq_of_stream (named_bundleFiles hfiles) (named_bundleFiles hfiles') hsizes hstream'
    · exact absurd hstream' hstream
    · exact absurd hsum' hsum

/-! ## Two sessions with one fingerprint -/

/-- A digest that keeps all of its input. -/
def plainDigest (bytes : List UInt8) : String := String.ofList (bytes.map fun b => Char.ofNat b.toNat)

theorem plainDigest_injective : Function.Injective plainDigest := by
  intro bytes bytes' h
  have hchar : ∀ b b' : UInt8, Char.ofNat b.toNat = Char.ofNat b'.toNat → b = b' := by
    intro b b' hb
    have hvalid : ∀ n : ℕ, n < 256 → (Char.ofNat n).toNat = n := by decide +kernel
    rw [← UInt8.toNat_inj, ← hvalid b.toNat b.toNat_lt, ← hvalid b'.toNat b'.toNat_lt, hb]
  exact (List.map_injective_iff.mpr fun b b' => hchar b b') (String.ofList_injective h)

/-- The directory of a session with two files. -/
def sessionTree (a b : String) (bytes bytes' : List UInt8) : FileTree :=
  let session := [plainName "s"]
  ((FileTree.empty.put session .dir).put (session ++ [plainName a]) (.file bytes)).put
    (session ++ [plainName b]) (.file bytes')

/-- The name of a file of the session, with the zero byte behind it. -/
def hiddenName (c : Char) : List UInt8 := utf8Bytes ['s', '/', c, '\x00']

/-- A session with an empty file and one that holds the name of a third file, and one with a file that holds the name
of the second and an empty third file, are the same to the purge gate. -/
theorem fingerprint_collision :
    hashTargets plainDigest (sessionTree "a" "b" [] (hiddenName 'c')) [[plainName "s"]] =
        hashTargets plainDigest (sessionTree "a" "c" (hiddenName 'b') []) [[plainName "s"]] ∧
      (hashTargets plainDigest (sessionTree "a" "b" [] (hiddenName 'c')) [[plainName "s"]]).isOk = true ∧
      bundleFiles (sessionTree "a" "b" [] (hiddenName 'c')) [[plainName "s"]] ≠
        bundleFiles (sessionTree "a" "c" (hiddenName 'b') []) [[plainName "s"]] := by
  decide +kernel

/-- Two sessions with files of the same sizes are told apart. -/
theorem fingerprint_same_sizes :
    (plainDigest (stream [("s/a", [1]), ("s/b", [])]) = plainDigest (stream [("s/a", [2]), ("s/b", [])]) → 1 = 1 →
        [("s/a", [1]), ("s/b", [])] = [("s/a", [2]), ("s/b", ([] : List UInt8))]) ↔
      (sizes [("s/a", [1]), ("s/b", [])] = sizes [("s/a", [2]), ("s/b", [])] ∨
        stream [("s/a", [1]), ("s/b", [])] ≠ stream [("s/a", [2]), ("s/b", [])] ∨
        (sizes [("s/a", [1]), ("s/b", [])]).sum ≠ (sizes [("s/a", [2]), ("s/b", [])]).sum) := by
  have hfiles : bundleFiles (sessionTree "a" "b" [1] []) [[plainName "s"]] = .ok [("s/a", [1]), ("s/b", [])] := by
    decide +kernel
  have hfiles' : bundleFiles (sessionTree "a" "b" [2] []) [[plainName "s"]] = .ok [("s/a", [2]), ("s/b", [])] := by
    decide +kernel
  have hb : hashTargets plainDigest (sessionTree "a" "b" [1] []) [[plainName "s"]] =
      .ok ⟨plainDigest (stream [("s/a", [1]), ("s/b", [])]), 1, [[plainName "s"]]⟩ := by decide +kernel
  have hb' : hashTargets plainDigest (sessionTree "a" "b" [2] []) [[plainName "s"]] =
      .ok ⟨plainDigest (stream [("s/a", [2]), ("s/b", [])]), 1, [[plainName "s"]]⟩ := by decide +kernel
  exact fingerprint_determines_iff plainDigest_injective hfiles hfiles' hb hb'

end Innen.Retention
