import Innen.Common.SortedMap
import Mathlib.Data.List.Infix
import Mathlib.Data.List.Lex
import Mathlib.Data.String.Basic

/-!
# Trees of files

A tree binds paths to directories, regular files and symbolic links. A path is the list of the names from the root,
and what a link leads to is stored resolved, so every path here is one without links on the way. The tree carries its
own shape: what is bound has a directory above it. The order of the entries is the order of a walk that takes the
names in a directory by their bytes and a directory before what it holds.
-/

namespace Innen.Common

/-- What may stand between two slashes of a path. -/
def ValidName (s : String) : Prop := s ≠ "" ∧ '/' ∉ s.toList ∧ '\x00' ∉ s.toList

instance (s : String) : Decidable (ValidName s) := inferInstanceAs (Decidable (_ ∧ _ ∧ _))

/-- The name of a file in its directory. -/
abbrev Name := { s : String // ValidName s }

/-- The name of a text, or `x` if it cannot be one. -/
def plainName (s : String) : Name := if h : ValidName s then ⟨s, h⟩ else ⟨"x", by decide⟩

/-- The names from the root to a file. -/
abbrev Path := List Name

/-- The text of a path that starts at the root. -/
def displayPath (p : Path) : String := "/" ++ "/".intercalate (p.map Subtype.val)

/-- What a path is bound to. -/
inductive Node where
  | dir
  | file (bytes : List UInt8)
  | link (resolved : Path)
deriving DecidableEq

/-- Whether a path is a symbolic link. -/
def Node.isLink : Node → Bool
  | .link _ => true
  | _ => false

/-- A tree of files: the root is a directory, and so is what is above an entry. -/
@[ext] structure FileTree where
  entries : SortedMap Path Node
  root : entries.get? [] = some .dir
  rooted : ∀ p name, (entries.get? (p ++ [name])).isSome → entries.get? p = some .dir

namespace FileTree

/-- What a path is bound to. -/
def get? (t : FileTree) (p : Path) : Option Node := t.entries.get? p

/-- The bytes of a regular file. -/
def bytesAt (t : FileTree) (p : Path) : Option (List UInt8) :=
  match t.get? p with
  | some (.file bytes) => some bytes
  | _ => none

/-- `Path::exists`: a link exists if what it leads to does. -/
def pathExists (t : FileTree) (p : Path) : Bool :=
  match t.get? p with
  | none => false
  | some (.link resolved) => (t.get? resolved).isSome
  | some _ => true

/-- `Path::is_dir`: a link is a directory if it leads to one. -/
def isDir (t : FileTree) (p : Path) : Bool :=
  match t.get? p with
  | some .dir => true
  | some (.link resolved) => t.get? resolved = some .dir
  | _ => false

/-- `canonicalize`: what a path leads to, if it is there. -/
def canonicalize? (t : FileTree) (p : Path) : Option Path :=
  match t.get? p with
  | none => none
  | some (.link resolved) => if (t.get? resolved).isSome then some resolved else none
  | some _ => some p

theorem canonicalize?_of_not_link {t : FileTree} {p : Path} {node : Node} (hnode : t.get? p = some node)
    (hlink : node.isLink = false) : t.canonicalize? p = some p := by
  rw [canonicalize?, hnode]
  cases node with
  | link r => cases hlink
  | dir => rfl
  | file bytes => rfl

theorem bytesAt_eq_some {t : FileTree} {p : Path} {bytes : List UInt8} :
    t.bytesAt p = some bytes ↔ t.get? p = some (.file bytes) := by
  unfold bytesAt
  split
  · rename_i heq
    rw [heq, Option.some_inj, Option.some_inj, Node.file.injEq]
  · rename_i hne
    exact ⟨fun h => (by cases h), fun h => absurd h (hne bytes)⟩

/-- Trees with the same bindings are the same. -/
theorem ext_get? {t t' : FileTree} (h : ∀ p, t.get? p = t'.get? p) : t = t' :=
  FileTree.ext (SortedMap.ext_get? h)

/-- All directories above an entry are there. -/
theorem dir_above {t : FileTree} {p q : Path} (hp : (t.get? (p ++ q)).isSome) (hq : q ≠ []) :
    t.get? p = some .dir := by
  induction q using List.reverseRecOn with
  | nil => exact absurd rfl hq
  | append_singleton q name ih =>
    rw [← List.append_assoc] at hp
    have hdir := t.rooted _ _ hp
    by_cases hnil : q = []
    · rw [hnil, List.append_nil] at hdir
      exact hdir
    · exact ih (by rw [get?, hdir]; rfl) hnil

/-- Nothing is below a path where nothing is. -/
theorem get?_append_of_none {t : FileTree} {p : Path} (hp : t.get? p = none) (q : Path) : t.get? (p ++ q) = none := by
  by_cases hq : q = []
  · rw [hq, List.append_nil, hp]
  · cases hnode : t.get? (p ++ q) with
    | none => rfl
    | some node =>
      have hdir := dir_above (t := t) (by rw [hnode]; rfl) hq
      rw [hp] at hdir
      cases hdir

/-- Nothing is below a regular file. -/
theorem eq_of_prefix_file {t : FileTree} {p q : Path} {bytes : List UInt8} (hp : t.bytesAt p = some bytes)
    (hpq : p <+: q) (hq : (t.get? q).isSome) : q = p := by
  obtain ⟨more, rfl⟩ := hpq
  by_cases hmore : more = []
  · rw [hmore, List.append_nil]
  · have hdir := dir_above hq hmore
    rw [bytesAt_eq_some.mp hp] at hdir
    cases hdir

/-! ## Writing -/

/-- The root without anything in it. -/
def empty : FileTree where
  entries := SortedMap.empty.insert [] .dir
  root := SortedMap.get?_insert_self _ _ _
  rooted p name h := by
    rw [SortedMap.get?_insert, if_neg (by simp)] at h
    cases h

/-- Bind a path, in a directory that is there. A directory is never replaced. -/
def put (t : FileTree) (p : Path) (node : Node) : FileTree :=
  if h : p ≠ [] ∧ t.get? p.dropLast = some .dir ∧ t.get? p ≠ some .dir then {
    entries := t.entries.insert p node
    root := by
      rw [SortedMap.get?_insert, if_neg h.1.symm]
      exact t.root
    rooted := fun q name hq => by
      obtain ⟨-, hparent, hp⟩ := h
      rw [SortedMap.get?_insert] at hq ⊢
      by_cases heq : q ++ [name] = p
      · rw [if_neg, ← hparent, ← heq, List.dropLast_concat]
        · rfl
        · rintro rfl
          exact absurd (congrArg List.length heq) (by simp)
      · rw [if_neg heq] at hq
        have hdir := t.rooted q name hq
        rw [if_neg, hdir]
        rintro rfl
        exact hp hdir }
  else t

theorem get?_put {t : FileTree} {p : Path} (node : Node) (hne : p ≠ []) (hparent : t.get? p.dropLast = some .dir)
    (hp : t.get? p ≠ some .dir) (q : Path) : (t.put p node).get? q = if q = p then some node else t.get? q := by
  rw [put, dif_pos ⟨hne, hparent, hp⟩]
  refine (SortedMap.get?_insert t.entries p q node).trans ?_
  by_cases h : q = p
  · rw [if_pos h, if_pos h]
  · rw [if_neg h, if_neg h]
    rfl

theorem get?_put_of_ne {t : FileTree} {p q : Path} (node : Node) (h : q ≠ p) : (t.put p node).get? q = t.get? q := by
  rw [put]
  split
  · refine (SortedMap.get?_insert t.entries p q node).trans ?_
    rw [if_neg h]
    rfl
  · rfl

/-! ## Walking below a path -/

/-- The entries at and below a path, in the order of a walk. -/
def below (t : FileTree) (base : Path) : List (Path × Node) :=
  t.entries.entries.filter fun e => decide (base <+: e.1)

theorem mem_below {t : FileTree} {base p : Path} {node : Node} :
    (p, node) ∈ t.below base ↔ base <+: p ∧ t.get? p = some node := by
  rw [below, List.mem_filter, SortedMap.mem_entries_iff, decide_eq_true_iff, and_comm]
  rfl

/-! ## Removing -/

/-- `remove_dir_all`, or `remove_file` of a path that holds nothing: a path and all that is below it. The root itself
stays. -/
def removeAll (t : FileTree) (base : Path) : FileTree where
  entries := t.entries.filterKeys fun p => decide (p = [] ∨ ¬base <+: p)
  root := by
    rw [SortedMap.get?_filterKeys, if_pos (decide_eq_true (.inl rfl))]
    exact t.root
  rooted p name h := by
    rw [SortedMap.get?_filterKeys] at h ⊢
    split at h
    · rename_i hkeep
      have hbase : ¬base <+: p ++ [name] := (of_decide_eq_true hkeep).resolve_left (by simp)
      rw [if_pos (decide_eq_true (.inr fun hpre => hbase (hpre.trans (List.prefix_append _ _))))]
      exact t.rooted p name h
    · cases h

theorem get?_removeAll (t : FileTree) (base p : Path) :
    (t.removeAll base).get? p = if p = [] ∨ ¬base <+: p then t.get? p else none := by
  rw [removeAll, get?, SortedMap.get?_filterKeys]
  by_cases h : p = [] ∨ ¬base <+: p
  · rw [if_pos (decide_eq_true h), if_pos h]
    rfl
  · rw [if_neg (by simpa using h), if_neg h]

/-- The files that are left: those that are not below. -/
theorem bytesAt_removeAll {t : FileTree} {base p : Path} {bytes : List UInt8} :
    (t.removeAll base).bytesAt p = some bytes ↔ t.bytesAt p = some bytes ∧ ¬base <+: p := by
  rw [bytesAt_eq_some, bytesAt_eq_some, get?_removeAll]
  by_cases hroot : p = []
  · have hdir : t.get? p = some .dir := hroot ▸ t.root
    rw [if_pos (.inl hroot), hdir]
    exact ⟨fun h => (by cases h), fun h => (by cases h.1)⟩
  · by_cases hbase : base <+: p
    · rw [if_neg (by simp [hroot, hbase])]
      exact ⟨fun h => (by cases h), fun h => absurd hbase h.2⟩
    · rw [if_pos (.inr hbase)]
      exact ⟨fun h => ⟨h, hbase⟩, And.left⟩

/-- Removing a file, or nothing, touches no other path. -/
theorem get?_removeAll_of_ne {t : FileTree} {p q : Path} (hp : t.get? p ≠ some .dir) (h : q ≠ p) :
    (t.removeAll p).get? q = t.get? q := by
  rw [get?_removeAll]
  split
  · rfl
  · rename_i hbelow
    have hpre : p <+: q := by
      by_contra hpre
      exact hbelow (.inr hpre)
    obtain ⟨more, rfl⟩ := hpre
    cases hq : t.get? (p ++ more) with
    | none => rfl
    | some node =>
      refine absurd (dir_above (t := t) (p := p) (q := more) (by rw [hq]; rfl) ?_) hp
      rintro rfl
      exact h (List.append_nil p)

/-! ## Directories -/

/-- `create_dir`: only where nothing is yet. -/
def mkdir (t : FileTree) (p : Path) : FileTree := if t.get? p = none then t.put p .dir else t

theorem get?_mkdir {t : FileTree} {p : Path} (hparent : t.get? p.dropLast = some .dir) (hp : t.get? p = none)
    (q : Path) : (t.mkdir p).get? q = if q = p then some .dir else t.get? q := by
  have hne : p ≠ [] := by
    rintro rfl
    exact absurd (t.root.symm.trans hp) (by simp)
  rw [mkdir, if_pos hp, get?_put .dir hne hparent (by simp [hp])]

/-- Making a directory binds a path where nothing was, or changes nothing. -/
theorem get?_mkdir_cases (t : FileTree) (p q : Path) :
    (t.mkdir p).get? q = t.get? q ∨ q = p ∧ t.get? p = none ∧ (t.mkdir p).get? p = some .dir := by
  by_cases h : q = p
  · subst h
    rw [mkdir]
    split
    · rename_i hnone
      rw [put]
      split
      · exact .inr ⟨rfl, hnone, SortedMap.get?_insert_self _ _ _⟩
      · exact .inl rfl
    · exact .inl rfl
  · refine .inl ?_
    rw [mkdir]
    split
    · exact get?_put_of_ne .dir h
    · rfl

/-- A directory with nothing in it. -/
def isEmptyDir (t : FileTree) (p : Path) : Bool := t.get? p = some .dir ∧ (t.below p).length ≤ 1

/-- `remove_dir`: only an empty directory. -/
def rmdir (t : FileTree) (p : Path) : FileTree := if t.isEmptyDir p then t.removeAll p else t

/-- Removing an empty directory touches nothing but that directory. -/
theorem get?_rmdir_of_ne {t : FileTree} {p q : Path} (h : q ≠ p) : (t.rmdir p).get? q = t.get? q := by
  rw [rmdir]
  split
  · rename_i hempty
    obtain ⟨hdir, hlength⟩ := of_decide_eq_true hempty
    rw [get?_removeAll]
    split
    · rfl
    · rename_i hbelow
      have hpre : p <+: q := by
        by_contra hpre
        exact hbelow (.inr hpre)
      cases hq : t.get? q with
      | none => rfl
      | some node =>
        -- two entries at and below an empty directory are the same
        have hpmem : (p, Node.dir) ∈ t.below p := mem_below.mpr ⟨List.prefix_refl p, hdir⟩
        have hqmem : (q, node) ∈ t.below p := mem_below.mpr ⟨hpre, hq⟩
        obtain ⟨e, he⟩ := List.length_eq_one_iff.mp (le_antisymm hlength (List.length_pos_of_mem hpmem))
        rw [he, List.mem_singleton] at hpmem hqmem
        exact absurd (Prod.mk.inj (hqmem.trans hpmem.symm)).1 h
  · rfl

/-- It touches no file. -/
theorem get?_rmdir {t : FileTree} {p q : Path} (h : t.get? q ≠ some .dir) : (t.rmdir p).get? q = t.get? q := by
  by_cases heq : q = p
  · rw [rmdir, if_neg]
    intro hempty
    exact h (heq ▸ (of_decide_eq_true hempty).1)
  · exact get?_rmdir_of_ne heq

/-! ## Moving -/

/-- What is at a path when `src` has moved to `dst`. -/
def movedAt (t : FileTree) (src dst q : Path) : Option Node :=
  if dst <+: q then t.get? (src ++ q.drop dst.length)
  else if src <+: q then none
  else t.get? q

/-- The entries when `src` has moved to `dst`. -/
def moved (t : FileTree) (src dst : Path) : SortedMap Path Node :=
  SortedMap.tabulate (t.movedAt src dst)
    (t.entries.keys ++ (t.below src).map fun e => dst ++ e.1.drop src.length)

theorem get?_moved (t : FileTree) (src dst q : Path) : (t.moved src dst).get? q = t.movedAt src dst q := by
  rw [moved, SortedMap.get?_tabulate]
  split
  · rfl
  · rename_i hq
    rw [List.mem_append, not_or, SortedMap.mem_keys_iff] at hq
    obtain ⟨hkey, hbelow⟩ := hq
    rw [movedAt]
    split
    · rename_i hpre
      obtain ⟨rest, rfl⟩ := hpre
      rw [List.drop_left]
      cases hnode : t.get? (src ++ rest) with
      | none => rfl
      | some node =>
        refine absurd (List.mem_map.mpr ⟨(src ++ rest, node), mem_below.mpr ⟨List.prefix_append _ _, hnode⟩, ?_⟩) hbelow
        rw [List.drop_left]
    · split
      · rfl
      · cases hnode : t.get? q with
        | none => rfl
        | some node => exact absurd (by rw [get?] at hnode; rw [hnode]; rfl) hkey

/-- `rename` of a directory to a path where nothing is, in a directory that is there. -/
def rename (t : FileTree) (src dst : Path) : FileTree :=
  if h : src ≠ [] ∧ t.get? src = some .dir ∧ dst ≠ [] ∧ t.get? dst.dropLast = some .dir ∧ ¬src <+: dst then {
    entries := t.moved src dst
    root := by
      obtain ⟨hsrc, -, hdst, -⟩ := h
      rw [get?_moved, movedAt, if_neg (by simpa using hdst), if_neg (by simpa using hsrc)]
      exact t.root
    rooted := fun q name hq => by
      obtain ⟨hsrc, -, hdst, hparent, hapart⟩ := h
      rw [get?_moved, movedAt] at hq ⊢
      by_cases hpre : dst <+: q ++ [name]
      · rw [if_pos hpre] at hq
        rcases List.prefix_concat_iff.mp hpre with heq | hpre'
        · -- `q` is the directory that takes the moved one
          have hq' : q = dst.dropLast := by rw [heq, List.dropLast_concat]
          rw [if_neg, if_neg, hq', hparent]
          · exact fun hsrcq => hapart (hsrcq.trans (heq ▸ List.prefix_append q [name]))
          · exact fun hdstq => absurd hdstq.length_le (by rw [heq]; simp)
        · obtain ⟨rest, rfl⟩ := hpre'
          rw [List.append_assoc, List.drop_left, ← List.append_assoc] at hq
          rw [if_pos (List.prefix_append _ _), List.drop_left]
          exact t.rooted _ _ hq
      · rw [if_neg hpre] at hq
        by_cases hbelow : src <+: q ++ [name]
        · rw [if_pos hbelow] at hq
          cases hq
        · rw [if_neg hbelow] at hq
          rw [if_neg fun h => hpre (h.trans (List.prefix_append _ _)),
            if_neg fun h => hbelow (h.trans (List.prefix_append _ _))]
          exact t.rooted _ _ hq }
  else t

/-- Moving touches what is moved and where it goes. -/
theorem get?_rename_of_apart {t : FileTree} {src dst q : Path} (hsrc : ¬src <+: q) (hdst : ¬dst <+: q) :
    (t.rename src dst).get? q = t.get? q := by
  rw [rename]
  split
  · refine (get?_moved t src dst q).trans ?_
    rw [movedAt, if_neg hdst, if_neg hsrc]
  · rfl

theorem get?_rename {t : FileTree} {src dst : Path} (hsrc : src ≠ []) (hdir : t.get? src = some .dir) (hdst : dst ≠ [])
    (hparent : t.get? dst.dropLast = some .dir) (hapart : ¬src <+: dst) (q : Path) :
    (t.rename src dst).get? q = t.movedAt src dst q := by
  rw [rename, dif_pos ⟨hsrc, hdir, hdst, hparent, hapart⟩]
  exact get?_moved t src dst q

end FileTree

end Innen.Common
