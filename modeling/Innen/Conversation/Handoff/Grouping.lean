import Innen.Conversation.Handoff.Paths

/-!
# What the groups of a handoff tell

The groups are read back into a table of paths and flags. Recorded files that stand for one file are merged with the
union of their flags, and every file of the merged table has a line of its own. The table is read back where the
shown directories tell which paths are relative: no file stands directly under the root of the file system, and no
relative path with a directory stands beside a stated root.
-/

namespace Innen.Conversation.Handoff

open Innen.Common Innen.Common.Segments

/-! ## Reading -/

/-- The directory that a shown one stands for. -/
def readDir (root shown : String) : String :=
  if root = "" ∨ shown = "" then shown else if shown = "." then root else root ++ "/" ++ shown

def readPath (dir name : String) : String := if dir = "" then name else dir ++ "/" ++ name

def readTag (tag : List Char) : Flags :=
  (if 'W' ∈ tag then W else 0) ||| (if 'C' ∈ tag then C else 0) ||| (if 'A' ∈ tag then A else 0)

/-- The name and the flags of a file in its group. -/
def readLine (line : String) : String × Flags :=
  let cs := line.toList.dropLast
  (String.ofList (before '[' cs), readTag (after '[' cs))

def readFile (root shown line : String) : String × Flags :=
  (readPath (readDir root shown) (readLine line).1, (readLine line).2)

/-- The table that the printed groups tell. -/
def readGroups (g : Grouped) : SortedMap String Flags :=
  SortedMap.insertAll ∅ (g.groups.flatMap fun e => e.2.map fun line => readFile g.root e.1 line)

/-- What a shown directory tells of its path. -/
def Legible (root path : String) : Prop :=
  if startsWith path "/" then (splitPath path).1 ≠ "" else root = "" ∨ (splitPath path).1 = ""

instance (root path : String) : Decidable (Legible root path) := by unfold Legible; infer_instance

/-! ## Merged tables -/

/-- A table under new names has the union of the flags of each name. -/
structure Unites (name : String → String) (m m' : SortedMap String Flags) : Prop where
  named : ∀ q, (m'.get? q).isSome ↔ ∃ p, (m.get? p).isSome ∧ name p = q
  flag : ∀ q i, ((m'.get? q).getD 0).getLsbD i = true ↔ ∃ p, name p = q ∧ ((m.get? p).getD 0).getLsbD i = true

theorem foldl_mergeBy (name : String → String) (l : List (String × Flags)) (acc : SortedMap String Flags) (q : String) :
    (((l.foldl (fun acc e => acc.upsert (name e.1) 0 (· ||| e.2)) acc).get? q).isSome ↔
      (acc.get? q).isSome ∨ ∃ e ∈ l, name e.1 = q) ∧
    ∀ i, (((l.foldl (fun acc e => acc.upsert (name e.1) 0 (· ||| e.2)) acc).get? q).getD 0).getLsbD i = true ↔
      ((acc.get? q).getD 0).getLsbD i = true ∨ ∃ e ∈ l, name e.1 = q ∧ e.2.getLsbD i = true := by
  induction l generalizing acc with
  | nil => simp
  | cons e rest ih =>
    obtain ⟨hnamed, hflag⟩ := ih (acc.upsert (name e.1) 0 (· ||| e.2))
    rw [List.foldl_cons]
    refine ⟨?_, fun i => ?_⟩
    · rw [hnamed, SortedMap.get?_upsert]
      by_cases hq : q = name e.1
      · simp [hq]
      · simp [hq, Ne.symm hq]
    · rw [hflag, SortedMap.get?_upsert]
      by_cases hq : q = name e.1
      · subst hq
        simp [or_assoc]
      · simp [hq, Ne.symm hq]

theorem mergeBy_unites (name : String → String) (m : SortedMap String Flags) : Unites name m (mergeBy name m) := by
  refine ⟨fun q => ?_, fun q i => ?_⟩
  · rw [mergeBy, (foldl_mergeBy name m.entries ∅ q).1]
    constructor
    · rintro (h | ⟨⟨p, f⟩, he, rfl⟩)
      · simp at h
      · exact ⟨p, by rw [(SortedMap.mem_entries_iff m).mp he, Option.isSome_some], rfl⟩
    · rintro ⟨p, hp, rfl⟩
      obtain ⟨f, hf⟩ := Option.isSome_iff_exists.mp hp
      exact .inr ⟨(p, f), (SortedMap.mem_entries_iff m).mpr hf, rfl⟩
  · rw [mergeBy, (foldl_mergeBy name m.entries ∅ q).2 i]
    constructor
    · rintro (h | ⟨⟨p, f⟩, he, rfl, hi⟩)
      · simp at h
      · exact ⟨p, rfl, by rw [(SortedMap.mem_entries_iff m).mp he, Option.getD_some, hi]⟩
    · rintro ⟨p, rfl, hi⟩
      cases hp : m.get? p with
      | none =>
        rw [hp] at hi
        simp at hi
      | some f =>
        rw [hp, Option.getD_some] at hi
        exact .inr ⟨(p, f), (SortedMap.mem_entries_iff m).mpr hp, rfl, hi⟩

theorem Unites.trans {name name' : String → String} {m m' m'' : SortedMap String Flags} (h : Unites name m m')
    (h' : Unites name' m' m'') : Unites (fun p => name' (name p)) m m'' := by
  refine ⟨fun q => ?_, fun q i => ?_⟩
  · rw [h'.named]
    constructor
    · rintro ⟨p', hp', rfl⟩
      obtain ⟨p, hp, rfl⟩ := (h.named p').mp hp'
      exact ⟨p, hp, rfl⟩
    · rintro ⟨p, hp, rfl⟩
      exact ⟨name p, (h.named _).mpr ⟨p, hp, rfl⟩, rfl⟩
  · rw [h'.flag]
    constructor
    · rintro ⟨p', rfl, hi⟩
      obtain ⟨p, rfl, hp⟩ := (h.flag p' i).mp hi
      exact ⟨p, rfl, hp⟩
    · rintro ⟨p, rfl, hi⟩
      exact ⟨name p, rfl, (h.flag _ i).mpr ⟨p, rfl, hi⟩⟩

/-- Merging makes no table longer. -/
theorem Unites.length_le {name : String → String} {m m' : SortedMap String Flags} (h : Unites name m m') :
    m'.entries.length ≤ m.entries.length := by
  have hsubset : m'.keys ⊆ m.keys.map name := by
    intro q hq
    obtain ⟨p, hp, rfl⟩ := (h.named q).mp ((SortedMap.mem_keys_iff m').mp hq)
    exact List.mem_map_of_mem ((SortedMap.mem_keys_iff m).mpr hp)
  have hlength := (List.subperm_of_subset (Assoc.nodup_keys m'.ascending) hsubset).length_le
  simp only [SortedMap.keys, Assoc.keys, List.length_map] at hlength
  exact hlength

theorem merged_unites (files : SortedMap String Flags) :
    Unites (fun p => keyOf (absoluteDirs (mergeBy tidy files)) (tidy p)) files (merged files) :=
  (mergeBy_unites tidy files).trans (mergeBy_unites _ _)

/-! ## Tidy paths -/

/-- No component of a path but its first is empty or a dot. -/
def TidyParts (cs : List Char) : Prop := ∀ part ∈ (cs.splitOn '/').tail, part ≠ [] ∧ part ≠ ['.']

theorem tidy_tidyParts (path : String) : TidyParts (tidy path).toList := by
  obtain ⟨parts, hdef⟩ : ∃ parts, parts = (path.toList.splitOn '/').filter fun part => part ≠ [] ∧ part ≠ ['.'] :=
    ⟨_, rfl⟩
  have hparts : ∀ part ∈ parts, '/' ∉ part ∧ part ≠ [] ∧ part ≠ ['.'] := by
    intro part hpart
    rw [hdef, List.mem_filter] at hpart
    exact ⟨not_mem_of_mem_splitOn hpart.1, by simpa using hpart.2⟩
  have hslash : ∀ part ∈ parts, '/' ∉ part := fun part hpart => (hparts part hpart).1
  rw [tidy, ← hdef]
  unfold TidyParts
  split
  · have hsplit := splitOn_append_flatMap (x := []) List.not_mem_nil hslash
    rw [String.toList_ofList, ← List.nil_append (List.flatMap _ _), hsplit]
    exact fun part hpart => (hparts part hpart).2
  · rw [String.toList_ofList]
    cases parts with
    | nil => simp
    | cons part parts =>
      have hfirst := (hparts part List.mem_cons_self).2.1
      have hdrop : (('/' :: part) ++ parts.flatMap ('/' :: ·)).dropWhile (· = '/') =
          part ++ parts.flatMap ('/' :: ·) := by
        obtain ⟨c, cs, rfl⟩ := List.exists_cons_of_ne_nil hfirst
        have hc : c ≠ '/' := fun heq => hslash _ List.mem_cons_self (by simp [heq])
        simp [hc]
      rw [List.flatMap_cons, hdrop, splitOn_append_flatMap (hslash part List.mem_cons_self)
        fun q hq => hslash q (List.mem_cons_of_mem _ hq)]
      exact fun q hq => (hparts q (List.mem_cons_of_mem _ hq)).2

theorem toList_splitPath (path : String) :
    (splitPath path).1.toList = before '/' path.toList ∧ (splitPath path).2.toList = after '/' path.toList :=
  ⟨String.toList_ofList, String.toList_ofList⟩

theorem splitPath_dir_ne {path : String} (h : (splitPath path).1 ≠ "") : '/' ∈ path.toList := by
  by_contra hmem
  exact h (by rw [splitPath, before_of_not_mem hmem])

/-- The components of a path with a slash are those of its directory, and its name. -/
theorem splitOn_splitPath {path : String} (h : '/' ∈ path.toList) :
    path.toList.splitOn '/' = (splitPath path).1.toList.splitOn '/' ++ [(splitPath path).2.toList] := by
  rw [(toList_splitPath path).1, (toList_splitPath path).2, splitOn_eq_before_after h]

theorem tail_splitOn_append (cs : List Char) (pieces : List (List Char)) :
    (cs.splitOn '/' ++ pieces).tail = (cs.splitOn '/').tail ++ pieces :=
  List.tail_append_of_ne_nil (List.splitOn_ne_nil '/' cs)

theorem TidyParts.dir {path : String} (h : TidyParts path.toList) (hmem : '/' ∈ path.toList) :
    TidyParts (splitPath path).1.toList ∧ (splitPath path).2.toList ≠ [] ∧ (splitPath path).2.toList ≠ ['.'] := by
  unfold TidyParts at h
  rw [splitOn_splitPath hmem, tail_splitOn_append] at h
  exact ⟨fun part hpart => h part (List.mem_append_left _ hpart), h _ (List.mem_append_right _ List.mem_cons_self)⟩

/-- A relative path that moves is tidy below its new directory. -/
theorem keyOf_tidyParts {files : SortedMap String Flags} (h : ∀ p ∈ files.keys, TidyParts p.toList) {path : String}
    (hpath : path ∈ files.keys) : TidyParts (keyOf (absoluteDirs files) path).toList := by
  unfold keyOf
  dsimp only
  split
  · rename_i hrel
    split
    · rename_i abs hits hfilter
      have hmem : abs ∈ (absoluteDirs files).filter fun d => (stripEnd d ("/" ++ (splitPath path).1)).isSome := by
        rw [hfilter]
        exact List.mem_cons_self
      split
      · obtain ⟨habs, htail⟩ := List.mem_filter.mp hmem
        obtain ⟨p, hp, rfl⟩ := List.mem_map.mp habs
        have hne : (splitPath p).1 ≠ "" := by
          intro hnil
          rw [hnil] at htail
          simp [stripEnd] at htail
        have hdir := ((h p (List.mem_filter.mp hp).1).dir (splitPath_dir_ne hne)).1
        have hname := (h path hpath).dir (splitPath_dir_ne hrel.2)
        have hslash : '/' ∉ (splitPath path).2.toList := by
          rw [(toList_splitPath path).2]
          exact not_mem_after '/' _
        have hchars : ((splitPath p).1 ++ "/" ++ (splitPath path).2).toList =
            (splitPath p).1.toList ++ '/' :: (splitPath path).2.toList := by simp
        intro part hpart
        rw [hchars, List.splitOn_append_cons_self, List.splitOn_eq_singleton hslash, tail_splitOn_append] at hpart
        obtain hpart | hpart := List.mem_append.mp hpart
        · exact hdir part hpart
        · rw [List.mem_singleton.mp hpart]
          exact hname.2
      · exact h path hpath
    · exact h path hpath
  · exact h path hpath

theorem merged_tidyParts (files : SortedMap String Flags) : ∀ p ∈ (merged files).keys, TidyParts p.toList := by
  have htidied : ∀ p ∈ (mergeBy tidy files).keys, TidyParts p.toList := by
    intro p hp
    obtain ⟨p', -, rfl⟩ := ((mergeBy_unites tidy files).named p).mp ((SortedMap.mem_keys_iff _).mp hp)
    exact tidy_tidyParts p'
  intro p hp
  obtain ⟨p', hp', rfl⟩ := ((mergeBy_unites _ _).named p).mp ((SortedMap.mem_keys_iff _).mp hp)
  exact keyOf_tidyParts htidied ((SortedMap.mem_keys_iff _).mpr hp')

/-! ## The stated root -/

theorem toList_of_startsWith {path : String} (h : startsWith path "/" = true) : ∃ cs, path.toList = '/' :: cs := by
  obtain ⟨cs, hcs⟩ := List.isPrefixOf_iff_prefix.mp h
  exact ⟨cs, hcs.symm⟩

theorem startsWith_of_toList {path : String} {cs : List Char} (h : path.toList = '/' :: cs) :
    startsWith path "/" = true := List.isPrefixOf_iff_prefix.mpr ⟨cs, h.symm⟩

/-- A stated root leads every directory, component by component. -/
theorem commonRoot_leads {dirs : List String} (hroot : commonRoot dirs ≠ "") {dir : String} (hdir : dir ∈ dirs) :
    dir = commonRoot dirs ∨ ∃ rest, rest ≠ [] ∧ (∃ parts, parts ≠ [] ∧ dir.toList.splitOn '/' = parts ++ rest) ∧
      dir.toList = (commonRoot dirs).toList ++ '/' :: ['/'].intercalate rest := by
  unfold commonRoot at hroot ⊢
  obtain ⟨pieces, hpieces⟩ : ∃ pieces, pieces = dirs.map fun d => d.toList.splitOn '/' := ⟨_, rfl⟩
  rw [← hpieces] at hroot ⊢
  dsimp only at hroot ⊢
  have hleads := (foldl_common_leads pieces (pieces.head?.getD [])).2 (dir.toList.splitOn '/')
    (hpieces ▸ List.mem_map_of_mem hdir)
  generalize pieces.foldl common (pieces.head?.getD []) = parts at hroot hleads ⊢
  have hlong : ¬parts.length < 3 := fun hshort => hroot (if_pos hshort)
  have hne : parts ≠ [] := by
    rintro rfl
    exact hlong (by simp)
  rw [if_neg hlong]
  obtain heq | ⟨rest, hrest, hsplit, htext⟩ := eq_or_append_of_prefix hne hleads
  · exact .inl (by rw [← heq, String.ofList_toList])
  · exact .inr ⟨rest, hrest, ⟨parts, hne, hsplit⟩, by rw [String.toList_ofList, htext]⟩

/-- The directory of an absolute path is empty or absolute. -/
theorem splitPath_absolute {path : String} (h : startsWith path "/" = true) (hne : (splitPath path).1 ≠ "") :
    startsWith (splitPath path).1 "/" = true := by
  obtain ⟨cs, hcs⟩ := toList_of_startsWith h
  have hsplit := before_append_after (splitPath_dir_ne hne)
  rw [← (toList_splitPath path).1] at hsplit
  cases hdir : (splitPath path).1.toList with
  | nil => exact absurd (String.toList_eq_nil_iff.mp hdir) hne
  | cons c cs' =>
    rw [hdir, hcs, List.cons_append, List.cons.injEq] at hsplit
    rw [hsplit.1] at hdir
    exact startsWith_of_toList hdir

/-- A stated root of absolute paths is absolute. -/
theorem commonRoot_absolute {paths : List String} (h : ∀ p ∈ paths, startsWith p "/" = true)
    (hroot : commonRoot (paths.map fun p => (splitPath p).1) ≠ "") :
    startsWith (commonRoot (paths.map fun p => (splitPath p).1)) "/" = true := by
  cases paths with
  | nil => exact absurd (by decide) hroot
  | cons path paths =>
    have hdir := commonRoot_leads hroot (List.mem_map_of_mem (f := fun p => (splitPath p).1) List.mem_cons_self)
    generalize commonRoot ((path :: paths).map fun p => (splitPath p).1) = root at hroot hdir ⊢
    have hne : (splitPath path).1 ≠ "" := by
      obtain heq | ⟨rest, -, -, htext⟩ := hdir
      · rw [heq]
        exact hroot
      · intro hnil
        rw [hnil] at htext
        simp at htext
    have habs := splitPath_absolute (h path List.mem_cons_self) hne
    obtain heq | ⟨rest, -, -, htext⟩ := hdir
    · rw [← heq]
      exact habs
    · obtain ⟨cs, hcs⟩ := toList_of_startsWith habs
      cases hchars : root.toList with
      | nil => exact absurd (String.toList_eq_nil_iff.mp hchars) hroot
      | cons c cs' =>
        rw [hcs, hchars, List.cons_append, List.cons.injEq] at htext
        rw [← htext.1] at hchars
        exact startsWith_of_toList hchars

/-! ## Reading shown directories -/

theorem stripStart_of_append {s start : String} {rest : List Char} (h : s.toList = start.toList ++ rest) :
    stripStart s start = some (String.ofList rest) := by
  have hstarts : startsWith s start = true := List.isPrefixOf_iff_prefix.mpr ⟨rest, h.symm⟩
  rw [stripStart, if_pos hstarts, h, ← String.length_toList, List.drop_left]

/-- Components written behind one another do not read as the root itself. -/
theorem intercalate_parts {parts : List (List Char)} (hne : parts ≠ [])
    (h : ∀ part ∈ parts, '/' ∉ part ∧ part ≠ [] ∧ part ≠ ['.']) :
    ∃ c cs, ['/'].intercalate parts = c :: cs ∧ c ≠ '/' ∧ c :: cs ≠ ['.'] := by
  obtain ⟨part, parts, rfl⟩ := List.exists_cons_of_ne_nil hne
  obtain ⟨hslash, hfirst, hdot⟩ := h part List.mem_cons_self
  obtain ⟨c, cs, rfl⟩ := List.exists_cons_of_ne_nil hfirst
  have hc : c ≠ '/' := fun heq => hslash (by simp [heq])
  cases parts with
  | nil => exact ⟨c, cs, List.intercalate_singleton, hc, hdot⟩
  | cons part' parts =>
    refine ⟨c, cs ++ ['/'] ++ ['/'].intercalate (part' :: parts), ?_, hc, by simp⟩
    rw [List.intercalate_cons_of_ne_nil (List.cons_ne_nil part' parts), List.cons_append, List.cons_append]

theorem shownDir_no_root (path : String) : shownDir "" path = (splitPath path).1 := by
  unfold shownDir
  dsimp only
  rw [if_neg fun h => h.2.1 rfl]
  split <;> simp

theorem shownDir_relative {root path : String} (hroot : root ≠ "") (hrel : startsWith path "/" = false)
    (hdir : (splitPath path).1 = "") : shownDir root path = "" := by
  have hstrip : stripStart "" root = none := by
    rw [stripStart, if_neg]
    intro h
    exact hroot (String.toList_eq_nil_iff.mp (List.prefix_nil.mp (List.isPrefixOf_iff_prefix.mp h)))
  unfold shownDir
  simp [hdir, hstrip, hrel]

theorem shownDir_root {root path : String} (hroot : root ≠ "") (habs : startsWith path "/" = true)
    (hdir : (splitPath path).1 = root) : shownDir root path = "." := by
  have hstrip : stripStart root root = some (String.ofList []) := stripStart_of_append (by simp)
  unfold shownDir
  simp [hdir, hstrip, hroot, habs]

theorem shownDir_below {root path : String} {c : Char} {cs : List Char} (hroot : root ≠ "")
    (hdir : (splitPath path).1.toList = root.toList ++ '/' :: c :: cs) (hc : c ≠ '/') :
    shownDir root path = String.ofList (c :: cs) := by
  have hstrip := stripStart_of_append hdir
  unfold shownDir
  simp [hstrip, hroot, hc]

/-- A legible directory is read back. -/
theorem readDir_shownDir {root path : String} (htidy : TidyParts path.toList)
    (hleads : root ≠ "" → startsWith path "/" = true → (splitPath path).1 = root ∨
      ∃ rest, rest ≠ [] ∧ (∃ parts, parts ≠ [] ∧ (splitPath path).1.toList.splitOn '/' = parts ++ rest) ∧
        (splitPath path).1.toList = root.toList ++ '/' :: ['/'].intercalate rest)
    (hlegible : Legible root path) : readDir root (shownDir root path) = (splitPath path).1 := by
  unfold Legible at hlegible
  by_cases hroot : root = ""
  · rw [hroot, shownDir_no_root, readDir, if_pos (.inl rfl)]
  · by_cases habs : startsWith path "/" = true
    · rw [if_pos habs] at hlegible
      obtain hdir | ⟨rest, hne, ⟨parts, hparts, hsplit⟩, htext⟩ := hleads hroot habs
      · rw [shownDir_root hroot habs hdir, hdir, readDir, if_neg (by simp [hroot]), if_pos rfl]
      · have hrest : ∀ part ∈ rest, '/' ∉ part ∧ part ≠ [] ∧ part ≠ ['.'] := by
          intro part hpart
          refine ⟨not_mem_of_mem_splitOn (hsplit ▸ List.mem_append_right _ hpart), ?_⟩
          refine (htidy.dir (splitPath_dir_ne hlegible)).1 part ?_
          rw [hsplit, List.tail_append_of_ne_nil hparts]
          exact List.mem_append_right _ hpart
        obtain ⟨c, cs, hinter, hc, hdot⟩ := intercalate_parts hne hrest
        rw [hinter] at htext
        have hshown := shownDir_below hroot htext hc
        rw [hshown, readDir, if_neg, if_neg, ← String.toList_inj, htext]
        · simp
        · intro h
          exact hdot (by simpa using congrArg String.toList h)
        · rintro (h | h)
          · exact hroot h
          · simpa using congrArg String.toList h
    · rw [if_neg habs] at hlegible
      have hdir := hlegible.resolve_left hroot
      rw [shownDir_relative hroot (by simpa using habs) hdir, hdir, readDir, if_pos (.inr rfl)]

/-- A legible path is read back from its directory and its name. -/
theorem readPath_splitPath {root path : String} (hlegible : Legible root path) :
    readPath (splitPath path).1 (splitPath path).2 = path := by
  unfold Legible at hlegible
  by_cases hdir : (splitPath path).1 = ""
  · have hrel : ¬startsWith path "/" = true := by
      intro habs
      rw [if_pos habs] at hlegible
      exact hlegible hdir
    have hslash : '/' ∉ path.toList := by
      intro hmem
      have hsplit := before_append_after hmem
      rw [← (toList_splitPath path).1, hdir] at hsplit
      exact hrel (startsWith_of_toList hsplit.symm)
    rw [readPath, if_pos hdir, ← String.toList_inj, (toList_splitPath path).2, after_of_not_mem hslash]
  · have hsplit := before_append_after (splitPath_dir_ne hdir)
    rw [readPath, if_neg hdir, ← String.toList_inj]
    simpa [(toList_splitPath path).1, (toList_splitPath path).2] using hsplit

/-! ## Reading lines -/

theorem readTag_tagOf (flags : Flags) : readTag (tagOf flags) = flags &&& (W ||| C ||| A) := by
  revert flags
  decide +kernel

theorem bracket_not_mem_tagOf (flags : Flags) : '[' ∉ tagOf flags := by
  intro h
  obtain ⟨e, he, heq⟩ := List.mem_map.mp h
  have hmem := (List.mem_filter.mp he).1
  simp only [List.mem_cons, List.not_mem_nil, or_false] at hmem
  obtain rfl | rfl | rfl := hmem <;> simp at heq

theorem readLine_fileLine (path : String) (flags : Flags) :
    readLine (fileLine path flags) = ((splitPath path).2, flags &&& (W ||| C ||| A)) := by
  have hchars : (fileLine path flags).toList =
      ((splitPath path).2.toList ++ '[' :: tagOf flags) ++ [']'] := by simp [fileLine]
  obtain ⟨hbefore, hafter⟩ : before '[' ((splitPath path).2.toList ++ '[' :: tagOf flags) = (splitPath path).2.toList ∧
      after '[' ((splitPath path).2.toList ++ '[' :: tagOf flags) = tagOf flags :=
    before_after_append (bracket_not_mem_tagOf flags)
  rw [readLine, hchars, List.dropLast_concat, hbefore, hafter, readTag_tagOf, String.ofList_toList]

/-! ## Reading groups -/

/-- What the line of a file is read as. -/
def readEntry (root : String) (e : String × Flags) : String × Flags :=
  (readPath (readDir root (shownDir root e.1)) (splitPath e.1).2, e.2 &&& (W ||| C ||| A))

theorem groups_perm {files : SortedMap String Flags} (h : files.entries.length ≤ maxFiles) :
    ((groupFiles files).groups.flatMap fun e => e.2.map fun line => (e.1, line)).Perm
      ((merged files).entries.map fun e => (shownDir (groupFiles files).root e.1, fileLine e.1 e.2)) := by
  have hkept : (merged files).entries.take maxFiles = (merged files).entries :=
    List.take_of_length_le ((merged_unites files).length_le.trans h)
  unfold groupFiles
  dsimp only
  rw [hkept]
  exact SortedMap.groupBy_perm _ _ _

theorem mem_readGroups {files : SortedMap String Flags} (h : files.entries.length ≤ maxFiles)
    (x : String × Flags) :
    (x ∈ (groupFiles files).groups.flatMap fun e => e.2.map fun line => readFile (groupFiles files).root e.1 line) ↔
      ∃ e ∈ (merged files).entries, readEntry (groupFiles files).root e = x := by
  have hread : ((groupFiles files).groups.flatMap fun e =>
        e.2.map fun line => readFile (groupFiles files).root e.1 line) =
      ((groupFiles files).groups.flatMap fun e => e.2.map fun line => (e.1, line)).map
        fun p => readFile (groupFiles files).root p.1 p.2 := by
    rw [List.map_flatMap]
    simp only [List.map_map]
    rfl
  rw [hread, ((groups_perm h).map _).mem_iff, List.map_map, List.mem_map]
  refine exists_congr fun e => and_congr_right fun _ => ?_
  rw [Function.comp_apply, readFile, readLine_fileLine, readEntry]

theorem get?_readGroups {files : SortedMap String Flags} (h : files.entries.length ≤ maxFiles) {p : String} {v : Flags}
    (hget : (readGroups (groupFiles files)).get? p = some v) :
    ∃ e ∈ (merged files).entries, readEntry (groupFiles files).root e = (p, v) := by
  rw [readGroups, SortedMap.get?_insertAll, SortedMap.get?_empty, Option.or_none] at hget
  exact (mem_readGroups h (p, v)).mp (List.mem_reverse.mp (Assoc.get?_some_mem hget))

theorem isSome_readGroups {files : SortedMap String Flags} (h : files.entries.length ≤ maxFiles) {e : String × Flags}
    (he : e ∈ (merged files).entries) :
    ((readGroups (groupFiles files)).get? (readEntry (groupFiles files).root e).1).isSome := by
  rw [readGroups, SortedMap.get?_insertAll, SortedMap.get?_empty, Option.or_none, Assoc.get?_isSome_iff]
  exact List.mem_map_of_mem (List.mem_reverse.mpr ((mem_readGroups h _).mpr ⟨e, he, rfl⟩))

/-- A stated root leads the directories of the absolute paths of the table. -/
theorem root_leads {files : SortedMap String Flags} (h : files.entries.length ≤ maxFiles)
    (hroot : (groupFiles files).root ≠ "") : startsWith (groupFiles files).root "/" = true ∧
      ∀ p ∈ (merged files).keys, startsWith p "/" = true → (splitPath p).1 = (groupFiles files).root ∨
        ∃ rest, rest ≠ [] ∧ (∃ parts, parts ≠ [] ∧ (splitPath p).1.toList.splitOn '/' = parts ++ rest) ∧
          (splitPath p).1.toList = (groupFiles files).root.toList ++ '/' :: ['/'].intercalate rest := by
  have hkept : (merged files).entries.take maxFiles = (merged files).entries :=
    List.take_of_length_le ((merged_unites files).length_le.trans h)
  obtain ⟨paths, hpaths⟩ : ∃ paths, paths =
      ((merged files).entries.filter fun e => startsWith e.1 "/").map Prod.fst := ⟨_, rfl⟩
  have heq : (groupFiles files).root = commonRoot (paths.map fun p => (splitPath p).1) := by
    unfold groupFiles
    dsimp only
    rw [hkept, hpaths, List.map_map]
    rfl
  rw [heq] at hroot ⊢
  refine ⟨commonRoot_absolute (fun p hp => ?_) hroot, fun p hp habs => ?_⟩
  · rw [hpaths] at hp
    obtain ⟨e, he, rfl⟩ := List.mem_map.mp hp
    exact (List.mem_filter.mp he).2
  · obtain ⟨e, he, rfl⟩ := List.mem_map.mp hp
    refine commonRoot_leads hroot (List.mem_map_of_mem (f := fun p => (splitPath p).1) ?_)
    rw [hpaths]
    exact List.mem_map_of_mem (List.mem_filter.mpr ⟨he, habs⟩)

theorem readEntry_of_legible {files : SortedMap String Flags} (h : files.entries.length ≤ maxFiles)
    {e : String × Flags} (he : e ∈ (merged files).entries) (hlegible : Legible (groupFiles files).root e.1) :
    readEntry (groupFiles files).root e = (e.1, e.2 &&& (W ||| C ||| A)) := by
  have hkey : e.1 ∈ (merged files).keys := List.mem_map_of_mem he
  rw [readEntry, readDir_shownDir (merged_tidyParts files e.1 hkey)
    (fun hroot habs => (root_leads h hroot).2 e.1 hkey habs) hlegible, readPath_splitPath hlegible]

theorem readDir_absolute {root shown : String} (habs : startsWith root "/" = true) (hroot : root ≠ "")
    (hne : readDir root shown ≠ "") : startsWith (readDir root shown) "/" = true := by
  unfold readDir at hne ⊢
  obtain ⟨cs, hcs⟩ := toList_of_startsWith habs
  split at hne
  · rename_i h
    exact absurd (h.resolve_left hroot) hne
  · rename_i h
    rw [if_neg h]
    split
    · exact habs
    · have hchars : (root ++ "/" ++ shown).toList = '/' :: (cs ++ '/' :: shown.toList) := by simp [hcs]
      exact startsWith_of_toList hchars

/-- No line is read as a path that is not legible. -/
theorem legible_of_readPath {root shown name path : String} (habs : root ≠ "" → startsWith root "/" = true)
    (hname : '/' ∉ name.toList) (hpath : readPath (readDir root shown) name = path) : Legible root path := by
  unfold readPath at hpath
  unfold Legible
  split at hpath
  · rw [← hpath]
    have hdir : (splitPath name).1 = "" := by rw [splitPath, before_of_not_mem hname]
    have hrel : ¬startsWith name "/" = true := by
      intro h
      obtain ⟨cs, hcs⟩ := toList_of_startsWith h
      exact hname (by simp [hcs])
    rw [if_neg hrel]
    exact .inr hdir
  · rename_i hne
    have hchars : path.toList = (readDir root shown).toList ++ '/' :: name.toList := by simp [← hpath]
    have hdir : (splitPath path).1 = readDir root shown := by
      rw [splitPath, hchars, (before_after_append hname).1, String.ofList_toList]
    split
    · rwa [hdir]
    · rename_i hrel
      refine .inl (by_contra fun hroot => hrel ?_)
      obtain ⟨cs, hcs⟩ := toList_of_startsWith (readDir_absolute (habs hroot) hroot hne)
      have habsolute : path.toList = '/' :: (cs ++ '/' :: name.toList) := by rw [hchars, hcs, List.cons_append]
      exact startsWith_of_toList habsolute

/-- Every recorded file is in the merged table under the path it stands for, with the flags of all that stand for
that path; each merged path has one line; and the table is read back from the groups exactly where every shown
directory tells its path. -/
theorem groupFiles_lossless (files : SortedMap String Flags) (h : files.entries.length ≤ maxFiles) :
    Unites (fun p => keyOf (absoluteDirs (mergeBy tidy files)) (tidy p)) files (merged files) ∧
    ((groupFiles files).groups.flatMap fun e => e.2.map fun line => (e.1, line)).Perm
      ((merged files).entries.map fun e => (shownDir (groupFiles files).root e.1, fileLine e.1 e.2)) ∧
    ((∀ p ∈ (merged files).keys, Legible (groupFiles files).root p) ↔
      ∀ p, (readGroups (groupFiles files)).get? p = ((merged files).get? p).map (· &&& (W ||| C ||| A))) := by
  refine ⟨merged_unites files, groups_perm h, fun hlegible p => ?_, fun hread p hp => ?_⟩
  · have hentry : ∀ e ∈ (merged files).entries,
        readEntry (groupFiles files).root e = (e.1, e.2 &&& (W ||| C ||| A)) := fun e he =>
      readEntry_of_legible h he (hlegible e.1 (List.mem_map_of_mem he))
    cases hget : (readGroups (groupFiles files)).get? p with
    | some v =>
      obtain ⟨e, he, heq⟩ := get?_readGroups h hget
      rw [hentry e he, Prod.mk.injEq] at heq
      rw [← heq.1, (SortedMap.mem_entries_iff _).mp he, Option.map_some, heq.2]
    | none =>
      cases hmerged : (merged files).get? p with
      | none => rfl
      | some f =>
        have he := (SortedMap.mem_entries_iff _).mpr hmerged
        have hsome := isSome_readGroups h he
        rw [hentry _ he, hget] at hsome
        cases hsome
  · have hsome := (SortedMap.mem_keys_iff _).mp hp
    obtain ⟨f, hf⟩ := Option.isSome_iff_exists.mp hsome
    have hget := hread p
    rw [hf, Option.map_some] at hget
    obtain ⟨e, he, heq⟩ := get?_readGroups h hget
    rw [readEntry, Prod.mk.injEq] at heq
    have hname : '/' ∉ (splitPath e.1).2.toList := by
      rw [(toList_splitPath e.1).2]
      exact not_mem_after '/' _
    exact legible_of_readPath (fun hroot => (root_leads h hroot).1) hname heq.1

/-- Files of one project, recorded with and without its directory. -/
def projectFiles : SortedMap String Flags :=
  SortedMap.insertAll ∅ [("/r/innen-wiki/out/deck.pdf", A), ("innen-wiki/out/deck.pdf", C),
    ("innen-wiki/out/more.pdf", A), ("//r/innen-wiki/other/x.md", W)]

theorem groupFiles_lossless_project :
    Unites (fun p => keyOf (absoluteDirs (mergeBy tidy projectFiles)) (tidy p)) projectFiles (merged projectFiles) ∧
    ((groupFiles projectFiles).groups.flatMap fun e => e.2.map fun line => (e.1, line)).Perm
      ((merged projectFiles).entries.map fun e =>
        (shownDir (groupFiles projectFiles).root e.1, fileLine e.1 e.2)) ∧
    ((∀ p ∈ (merged projectFiles).keys, Legible (groupFiles projectFiles).root p) ↔
      ∀ p, (readGroups (groupFiles projectFiles)).get? p =
        ((merged projectFiles).get? p).map (· &&& (W ||| C ||| A))) :=
  groupFiles_lossless projectFiles (by decide +kernel)

/-- A relative path that moves is shown as the absolute one that was recorded too. -/
theorem moved_path_merged :
    ¬∀ files files' : SortedMap String Flags, files.entries.length ≤ maxFiles → files'.entries.length ≤ maxFiles →
      groupFiles files = groupFiles files' → files = files' := by
  intro h
  have heq := h (SortedMap.insertAll ∅ [("/r/wiki/out/deck.pdf", A), ("wiki/out/deck.pdf", C)])
    (SortedMap.insertAll ∅ [("/r/wiki/out/deck.pdf", C ||| A)]) (by decide +kernel) (by decide +kernel)
    (by decide +kernel)
  exact absurd (congrArg (fun m => m.entries.length) heq) (by decide +kernel)

end Innen.Conversation.Handoff
