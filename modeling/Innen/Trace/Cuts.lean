import Innen.Common.Boundaries
import Innen.Trace.Passages

/-!
# Passages partition a file

The parts of a line are cut by byte positions that step back to a character boundary; in whole characters each part is
as long as may be (`byteParts_eq`). As long as the limit on records is not met, the passages are the parts that are not
blank, in order, each at its place, with the number of its line and the speaker of the last heading
(`filePassages_partition`).
-/

namespace Innen.Trace

open Common Graph Journal

/-! ## The loop over the bytes of a line -/

/-- The loop of `file_passages` that cuts a line, with a bound on its rounds. -/
def byteParts (line : String) : ℕ → ℕ → Option (List String)
  | 0, _ => none
  | fuel + 1, start =>
    if start < line.utf8ByteSize then do
      let finish ← retreat (isCharBoundary line) (min (start + partBytes) line.utf8ByteSize)
      let part ← slice line start finish
      let rest ← byteParts line fuel finish
      return part :: rest
    else some []

theorem utf8ByteSize_ofList (cs : List Char) : (String.ofList cs).utf8ByteSize = byteLen cs := by
  rw [← length_utf8Bytes, String.toList_ofList, utf8Bytes, List.length_flatMap, byteLen]
  simp [String.length_utf8EncodeChar]

theorem utf8ByteSize_eq (s : String) : s.utf8ByteSize = byteLen s.toList := by
  rw [← utf8ByteSize_ofList, String.ofList_toList]

theorem utf8Size_le_partBytes (c : Char) : c.utf8Size ≤ partBytes :=
  c.utf8Size_le_four.trans (by decide)

/-- The first part of a line is as long as may be. -/
theorem cutParts_first (line part : List Char) {room : ℕ} (hne : part ++ line ≠ [])
    (hfits : part = [] → room = partBytes) : ∃ first rest, line = first ++ rest ∧ part ++ first ≠ [] ∧
      byteLen first ≤ room ∧ (∀ c later, rest = c :: later → room < byteLen first + c.utf8Size) ∧
      cutParts room part line = (part ++ first) :: cutParts partBytes [] rest := by
  induction line generalizing part room with
  | nil =>
    rw [List.append_nil] at hne
    refine ⟨[], [], rfl, by rwa [List.append_nil], Nat.zero_le _, (fun c later h => by cases h), ?_⟩
    rw [cutParts, cutParts, if_neg hne, if_pos rfl, List.append_nil]
  | cons c line ih =>
    rw [cutParts]
    split_ifs with hroom
    · obtain ⟨first, rest, hline, hfirst, hle, hmax, hcut⟩ :=
        @ih (part ++ [c]) (room - c.utf8Size) (by simp) (fun h => absurd h (by simp))
      refine ⟨c :: first, rest, by rw [hline, List.cons_append], by simp, ?_, ?_, ?_⟩
      · rw [byteLen_cons]
        omega
      · intro d later hrest
        have := hmax d later hrest
        rw [byteLen_cons]
        omega
      · rw [hcut, List.append_assoc, List.singleton_append]
    · have hpart : part ≠ [] := fun h => hroom (hfits h ▸ utf8Size_le_partBytes c)
      refine ⟨[], c :: line, rfl, by rwa [List.append_nil], Nat.zero_le _, ?_, ?_⟩
      · rintro d later h
        obtain ⟨rfl, rfl⟩ := List.cons_eq_cons.mp h
        rw [byteLen_nil]
        omega
      · rw [List.append_nil, cutParts, if_pos (utf8Size_le_partBytes c), List.nil_append]

/-- Behind the start of a text that is not empty the next boundary is behind its first character. -/
theorem utf8Size_le_of_boundary {c : Char} {later : List Char} {k : ℕ}
    (h : isCharBoundary (String.ofList (c :: later)) k = true) (hk : 0 < k) : c.utf8Size ≤ k := by
  obtain ⟨t, u, htu, rfl⟩ := isCharBoundary_iff.mp h
  have hchars := congrArg String.toList htu
  rw [String.toList_ofList, String.toList_append] at hchars
  rcases ht : t.toList with _ | ⟨d, rest⟩
  · rw [utf8ByteSize_eq, ht] at hk
    exact absurd hk (Nat.lt_irrefl 0)
  · rw [ht] at hchars
    obtain ⟨rfl, -⟩ := List.cons_eq_cons.mp hchars
    rw [utf8ByteSize_eq, ht, byteLen_cons]
    exact Nat.le_add_right _ _

/-- The end of a part steps back to where the longest part in whole characters ends. -/
theorem retreat_part (before : List Char) {first rest : List Char} (hle : byteLen first ≤ partBytes)
    (hmax : ∀ c later, rest = c :: later → partBytes < byteLen first + c.utf8Size) :
    retreat (isCharBoundary (String.ofList (before ++ first ++ rest)))
      (min (byteLen before + partBytes) (String.ofList (before ++ first ++ rest)).utf8ByteSize) =
      some (byteLen before + byteLen first) := by
  have hsplit : String.ofList (before ++ first ++ rest) = String.ofList (before ++ first) ++ String.ofList rest :=
    String.ofList_append
  have hsize : (String.ofList (before ++ first)).utf8ByteSize = byteLen before + byteLen first := by
    rw [utf8ByteSize_ofList, byteLen_append]
  have hall : (String.ofList (before ++ first ++ rest)).utf8ByteSize = byteLen before + byteLen first + byteLen rest := by
    rw [hsplit, String.utf8ByteSize_append, hsize, utf8ByteSize_ofList]
  refine retreat_eq_some ?_ ?_ ?_
  · rw [hall]
    omega
  · rw [hsplit, ← hsize]
    exact isCharBoundary_append _ _
  · intro k hk hboundary
    by_contra hgt
    obtain ⟨j, rfl⟩ := Nat.exists_eq_add_of_le (Nat.le_of_lt (Nat.not_le.mp hgt))
    rw [hsplit, ← hsize, isCharBoundary_append_add] at hboundary
    rw [hall] at hk
    rcases rest with _ | ⟨c, later⟩
    · rw [byteLen_nil] at hk
      omega
    · have := utf8Size_le_of_boundary hboundary (by omega)
      have := hmax c later rfl
      omega

/-- The loop over the bytes of a line ends, and gives the parts of the line in whole characters. -/
theorem byteParts_behind {fuel : ℕ} (before line : List Char) (hfuel : byteLen line < fuel) :
    byteParts (String.ofList (before ++ line)) fuel (byteLen before) =
      some ((cutParts partBytes [] line).map String.ofList) := by
  induction fuel generalizing before line with
  | zero => exact absurd hfuel (Nat.not_lt_zero _)
  | succ fuel ih =>
    rw [byteParts, utf8ByteSize_ofList, byteLen_append]
    by_cases hnil : line = []
    · rw [hnil, byteLen_nil, if_neg (by omega), cutParts, if_pos rfl]
      rfl
    · obtain ⟨first, rest, rfl, hne, hle, hmax, hcut⟩ := cutParts_first line [] (by rwa [List.nil_append]) fun _ => rfl
      rw [List.nil_append] at hne hcut
      have hpos : 0 < byteLen first := by
        obtain ⟨c, later, rfl⟩ := List.exists_cons_of_ne_nil hne
        have := c.utf8Size_pos
        rw [byteLen_cons]
        omega
      rw [byteLen_append] at hfuel ⊢
      have hretreat := retreat_part before hle hmax
      rw [List.append_assoc, utf8ByteSize_ofList, byteLen_append, byteLen_append] at hretreat
      have hslice : slice (String.ofList (before ++ (first ++ rest))) (byteLen before)
          (byteLen before + byteLen first) = some (String.ofList first) := by
        have h := slice_append (String.ofList before) (String.ofList first) (String.ofList rest)
        rwa [← String.ofList_append, ← String.ofList_append, List.append_assoc, utf8ByteSize_ofList,
          utf8ByteSize_ofList] at h
      have hrest := ih (before ++ first) rest (by omega)
      rw [List.append_assoc, byteLen_append] at hrest
      rw [if_pos (by omega), hretreat, Option.bind_eq_bind, Option.bind_some, hslice, Option.bind_eq_bind,
        Option.bind_some, hrest, hcut]
      rfl

theorem byteParts_eq (line : List Char) {fuel : ℕ} (hfuel : byteLen line < fuel) :
    byteParts (String.ofList line) fuel 0 = some ((cutParts partBytes [] line).map String.ofList) :=
  byteParts_behind [] line hfuel

theorem byteLen_le_of_mem_cutParts {line part : List Char} (h : part ∈ cutParts partBytes [] line) :
    byteLen part ≤ partBytes := by
  induction hsize : line.length using Nat.strong_induction_on generalizing line with
  | _ size ih =>
  by_cases hnil : line = []
  · rw [hnil, cutParts, if_pos rfl] at h
    exact absurd h List.not_mem_nil
  · obtain ⟨first, rest, rfl, hne, hle, -, hcut⟩ := cutParts_first line [] (by rwa [List.nil_append]) fun _ => rfl
    rw [List.nil_append] at hne hcut
    rw [hcut] at h
    rcases List.mem_cons.mp h with rfl | h
    · exact hle
    · refine ih rest.length ?_ h rfl
      have := List.length_pos_iff.mpr hne
      rw [List.length_append] at hsize
      omega

/-! ## Where passages come from -/

variable (P : Platform) (T : Tables)

/-- The passages of the parts of a line, from a place on. -/
def partsFrom (line : ℕ) (role : String) : ℕ → List (List Char) → List Passage
  | _, [] => []
  | start, part :: rest =>
    (if part.all isWhitespace then [] else [passageOf P line role start part]) ++
      partsFrom line role (start + byteLen part) rest

/-- The passages of lines, from a number and a place on. -/
def passagesFrom : ℕ → ℕ → String → List (List Char) → List Passage
  | _, _, _, [] => []
  | i, start, role, line :: rest =>
    partsFrom P (i + 1) (roleAfter T role line) start (cutParts partBytes [] line) ++
      passagesFrom (i + 1) (start + byteLen line) (roleAfter T role line) rest

/-- The speaker that a line names as a heading. -/
def speaker (line : List Char) : Option String :=
  let heading := T.lower (trim (trimMatches '*' (trim (trimMatches '#' (trim (String.ofList line))))))
  if heading = "user" ∨ heading = "使用者" then some "user"
  else if heading = "assistant" ∨ heading = "助理" then some "assistant"
  else none

/-- The speaker that the last heading among some lines names. -/
def lastSpeaker (lines : List (List Char)) : String := ((lines.filterMap (speaker T)).getLast?).getD "source"

/-- A passage is the part of a text between two bytes of one of its lines, with the number of the line and the speaker of
the last heading up to it. -/
structure CutFrom (text : String) (p : Passage) : Prop where
  span : ∃ start finish, p.startByte = some start ∧ p.endByte = some finish ∧ slice text start finish = some p.text ∧
    start < finish ∧ finish ≤ start + partBytes
  source : ∃ before line later front behind, splitInclusive '\n' text.toList = before ++ line :: later ∧
    line = front ++ p.text.toList ++ behind ∧ p.startByte = some (byteLen before.flatten + byteLen front) ∧
    p.line = before.length + 1 ∧ p.endLine = before.length + 1 ∧ p.role = lastSpeaker T (before ++ [line])

variable {P T}

theorem pushParts_eq {limit line : ℕ} {role : String} (parts : List (List Char)) {start : ℕ} {out : List Passage}
    (hall : (pushParts P limit line role start parts out).2 = false) :
    (pushParts P limit line role start parts out).1 = out ++ partsFrom P line role start parts := by
  induction parts generalizing start out with
  | nil => rw [pushParts, partsFrom, List.append_nil]
  | cons part rest ih =>
    rw [pushParts] at hall ⊢
    rw [partsFrom]
    split_ifs at hall ⊢
    · rw [ih hall, List.nil_append]
    · rw [ih hall, List.append_assoc]

theorem scanLines_eq {limit : ℕ} (lines : List (List Char)) {i start : ℕ} {role : String} {out : List Passage}
    (hall : (scanLines P T limit i start role lines out).truncated = false) :
    (scanLines P T limit i start role lines out).passages = out ++ passagesFrom P T i start role lines := by
  induction lines generalizing i start role out with
  | nil => rw [scanLines, passagesFrom, List.append_nil]
  | cons line rest ih =>
    unfold scanLines at hall ⊢
    dsimp only at hall ⊢
    split_ifs at hall ⊢ with hfull hpushed
    rw [ih hall, pushParts_eq _ (Bool.eq_false_iff.mpr hpushed), passagesFrom, List.append_assoc]

theorem filePassages_eq {text : List Char} {limit : ℕ} (hall : (filePassages P T text limit).truncated = false) :
    (filePassages P T text limit).passages = passagesFrom P T 0 0 "source" (splitInclusive '\n' text) :=
  (scanLines_eq _ hall).trans (List.nil_append _)

theorem mem_partsFrom {line : ℕ} {role : String} {p : Passage} (parts : List (List Char)) {start : ℕ} :
    p ∈ partsFrom P line role start parts ↔ ∃ before part later, parts = before ++ part :: later ∧
      part.all isWhitespace = false ∧ p = passageOf P line role (start + byteLen before.flatten) part := by
  induction parts generalizing start with
  | nil => simp [partsFrom]
  | cons part rest ih =>
    rw [partsFrom, List.mem_append, ih]
    constructor
    · rintro (hp | ⟨before, other, later, rfl, hblank, rfl⟩)
      · split_ifs at hp with hblank
        · exact absurd hp List.not_mem_nil
        · exact ⟨[], part, rest, rfl, Bool.eq_false_iff.mpr hblank, List.mem_singleton.mp hp⟩
      · exact ⟨part :: before, other, later, rfl, hblank, by
          rw [List.flatten_cons, byteLen_append, Nat.add_assoc]⟩
    · rintro ⟨before, other, later, hparts, hblank, rfl⟩
      rcases before with _ | ⟨first, before⟩
      · obtain ⟨rfl, rfl⟩ := List.cons_eq_cons.mp hparts
        exact .inl (by rw [if_neg (by simp [hblank])]; exact List.mem_singleton.mpr rfl)
      · obtain ⟨rfl, rfl⟩ := List.cons_eq_cons.mp hparts
        exact .inr ⟨before, other, later, rfl, hblank, by rw [List.flatten_cons, byteLen_append, Nat.add_assoc]⟩

theorem mem_passagesFrom {p : Passage} (lines : List (List Char)) {i start : ℕ} {role : String} :
    p ∈ passagesFrom P T i start role lines ↔ ∃ before line later, lines = before ++ line :: later ∧
      p ∈ partsFrom P (i + before.length + 1) ((before ++ [line]).foldl (roleAfter T) role)
        (start + byteLen before.flatten) (cutParts partBytes [] line) := by
  induction lines generalizing i start role with
  | nil => simp [passagesFrom]
  | cons line rest ih =>
    rw [passagesFrom, List.mem_append, ih]
    constructor
    · rintro (hp | ⟨before, other, later, rfl, hp⟩)
      · exact ⟨[], line, rest, rfl, hp⟩
      · refine ⟨line :: before, other, later, rfl, ?_⟩
        rw [List.flatten_cons, byteLen_append, ← Nat.add_assoc, List.length_cons, ← Nat.add_assoc,
          Nat.add_right_comm i]
        exact hp
    · rintro ⟨before, other, later, hlines, hp⟩
      rcases before with _ | ⟨first, before⟩
      · obtain ⟨rfl, rfl⟩ := List.cons_eq_cons.mp hlines
        exact .inl hp
      · obtain ⟨rfl, rfl⟩ := List.cons_eq_cons.mp hlines
        refine .inr ⟨before, other, later, rfl, ?_⟩
        rw [List.flatten_cons, byteLen_append, ← Nat.add_assoc, List.length_cons, ← Nat.add_assoc,
          Nat.add_right_comm i] at hp
        exact hp

/-! ## Roles -/

theorem roleAfter_eq (role : String) (line : List Char) : roleAfter T role line = (speaker T line).getD role := by
  unfold roleAfter speaker
  dsimp only
  split_ifs <;> rfl

theorem foldl_roleAfter (lines : List (List Char)) : lines.foldl (roleAfter T) "source" = lastSpeaker T lines := by
  induction lines using List.reverseRecOn with
  | nil => rfl
  | append_singleton lines line ih =>
    rw [List.foldl_append, List.foldl_cons, List.foldl_nil, ih, roleAfter_eq, lastSpeaker, lastSpeaker,
      List.filterMap_append]
    rcases hspeaker : speaker T line with _ | name
    · rw [List.filterMap_cons_none hspeaker, List.filterMap_nil, List.append_nil]
      rfl
    · rw [List.filterMap_cons_some hspeaker, List.filterMap_nil, List.getLast?_concat]
      rfl

/-! ## Order -/

/-- The bytes of a passage are within given bounds. -/
def Within (lo hi : ℕ) (p : Passage) : Prop :=
  ∃ start finish, p.startByte = some start ∧ p.endByte = some finish ∧ lo ≤ start ∧ start ≤ finish ∧ finish ≤ hi

/-- One passage ends where the other starts, or before. -/
def EndsBefore (p q : Passage) : Prop :=
  ∃ finish start, p.endByte = some finish ∧ q.startByte = some start ∧ finish ≤ start

theorem Within.endsBefore {lo mid hi : ℕ} {p q : Passage} (hp : Within lo mid p) (hq : Within mid hi q) :
    EndsBefore p q := by
  obtain ⟨-, finish, -, hfinish, -, -, hle⟩ := hp
  obtain ⟨start, -, hstart, -, hge, -, -⟩ := hq
  exact ⟨finish, start, hfinish, hstart, hle.trans hge⟩

theorem Within.mono {lo hi lo' hi' : ℕ} {p : Passage} (h : Within lo hi p) (hlo : lo' ≤ lo) (hhi : hi ≤ hi') :
    Within lo' hi' p := by
  obtain ⟨start, finish, hstart, hfinish, h₁, h₂, h₃⟩ := h
  exact ⟨start, finish, hstart, hfinish, hlo.trans h₁, h₂, h₃.trans hhi⟩

theorem within_partsFrom (line start : ℕ) (role : String) (parts : List (List Char)) :
    (∀ p ∈ partsFrom P line role start parts, Within start (start + byteLen parts.flatten) p) ∧
      (partsFrom P line role start parts).Pairwise EndsBefore := by
  induction parts generalizing start with
  | nil => exact ⟨fun p hp => absurd hp List.not_mem_nil, .nil⟩
  | cons part rest ih =>
    obtain ⟨hrest, hpairs⟩ := ih (start + byteLen part)
    have hfirst : ∀ p ∈ if part.all isWhitespace then [] else [passageOf P line role start part],
        Within start (start + byteLen part) p := by
      intro p hp
      split_ifs at hp
      · exact absurd hp List.not_mem_nil
      · rw [List.mem_singleton.mp hp]
        exact ⟨_, _, rfl, rfl, le_rfl, Nat.le_add_right _ _, le_rfl⟩
    rw [partsFrom, List.flatten_cons, byteLen_append, ← Nat.add_assoc]
    refine ⟨fun p hp => ?_, List.pairwise_append.mpr ⟨?_, hpairs, fun p hp q hq => (hfirst p hp).endsBefore (hrest q hq)⟩⟩
    · rcases List.mem_append.mp hp with hp | hp
      · exact (hfirst p hp).mono le_rfl (Nat.le_add_right _ _)
      · exact (hrest p hp).mono (Nat.le_add_right _ _) le_rfl
    · split_ifs
      · exact .nil
      · exact List.pairwise_singleton _ _

theorem within_passagesFrom (i start : ℕ) (role : String) (lines : List (List Char)) :
    (∀ p ∈ passagesFrom P T i start role lines, Within start (start + byteLen lines.flatten) p) ∧
      (passagesFrom P T i start role lines).Pairwise EndsBefore := by
  induction lines generalizing i start role with
  | nil => exact ⟨fun p hp => absurd hp List.not_mem_nil, .nil⟩
  | cons line rest ih =>
    obtain ⟨hrest, hpairs⟩ := ih (i + 1) (start + byteLen line) (roleAfter T role line)
    obtain ⟨hfirst, hparts⟩ := within_partsFrom (P := P) (i + 1) start (roleAfter T role line)
      (cutParts partBytes [] line)
    rw [flatten_cutParts, List.nil_append] at hfirst
    rw [passagesFrom, List.flatten_cons, byteLen_append, ← Nat.add_assoc]
    refine ⟨fun p hp => ?_, List.pairwise_append.mpr ⟨hparts, hpairs, fun p hp q hq =>
      (hfirst p hp).endsBefore (hrest q hq)⟩⟩
    rcases List.mem_append.mp hp with hp | hp
    · exact (hfirst p hp).mono le_rfl (Nat.le_add_right _ _)
    · exact (hrest p hp).mono (Nat.le_add_right _ _) le_rfl

/-! ## Cover -/

/-- Each element of some pieces is in one of them. -/
theorem exists_piece {pieces : List (List Char)} (front : List Char) {c : Char} {behind : List Char}
    (h : pieces.flatten = front ++ c :: behind) : ∃ before piece later x y, pieces = before ++ piece :: later ∧
      piece = x ++ c :: y ∧ front = before.flatten ++ x := by
  induction pieces generalizing front with
  | nil => exact absurd h.symm (by simp)
  | cons piece rest ih =>
    rw [List.flatten_cons] at h
    rcases List.append_eq_append_iff.mp h with ⟨more, hfront, hmore⟩ | ⟨more, hpiece, hmore⟩
    · obtain ⟨before, other, later, x, y, rfl, hother, hx⟩ := ih _ hmore
      exact ⟨piece :: before, other, later, x, y, rfl, hother, by
        rw [hfront, hx, List.flatten_cons, List.append_assoc]⟩
    · rcases more with _ | ⟨d, more⟩
      · obtain ⟨before, other, later, x, y, rfl, hother, hx⟩ := ih [] hmore.symm
        rw [List.append_nil] at hpiece
        refine ⟨piece :: before, other, later, x, y, rfl, hother, ?_⟩
        rw [List.flatten_cons, List.append_assoc, ← hx, List.append_nil, hpiece]
      · obtain ⟨rfl, -⟩ := List.cons_eq_cons.mp hmore
        exact ⟨[], piece, rest, front, more, rfl, hpiece, rfl⟩

/-! ## The partition -/

theorem slice_ofList (before part later : List Char) :
    slice (String.ofList (before ++ part ++ later)) (byteLen before) (byteLen before + byteLen part) =
      some (String.ofList part) := by
  have h := slice_append (String.ofList before) (String.ofList part) (String.ofList later)
  rwa [← String.ofList_append, ← String.ofList_append, utf8ByteSize_ofList, utf8ByteSize_ofList] at h

theorem passage_cutFrom {text : String} {p : Passage}
    (h : p ∈ passagesFrom P T 0 0 "source" (splitInclusive '\n' text.toList)) : CutFrom T text p := by
  obtain ⟨before, line, later, hlines, hp⟩ := (mem_passagesFrom _).mp h
  obtain ⟨front, part, behind, hparts, hblank, rfl⟩ := (mem_partsFrom _).mp hp
  rw [Nat.zero_add, Nat.zero_add, foldl_roleAfter]
  have hline : line = front.flatten ++ part ++ behind.flatten := by
    have h := flatten_cutParts line partBytes []
    rw [hparts, List.flatten_append, List.flatten_cons, List.nil_append, ← List.append_assoc] at h
    exact h.symm
  have htext : text.toList = before.flatten ++ front.flatten ++ part ++ (behind.flatten ++ later.flatten) := by
    have h := splitInclusive_flatten '\n' text.toList
    rw [hlines, List.flatten_append, List.flatten_cons, hline] at h
    rw [← h]
    simp only [List.append_assoc]
  have hpos : 0 < byteLen part := by
    rcases part with _ | ⟨c, rest⟩
    · cases hblank
    · have := c.utf8Size_pos
      rw [byteLen_cons]
      omega
  refine ⟨⟨_, _, rfl, rfl, ?_, ?_, ?_⟩, before, line, later, front.flatten, behind.flatten, hlines, ?_, rfl, rfl, rfl, rfl⟩
  · have hslice := slice_ofList (before.flatten ++ front.flatten) part (behind.flatten ++ later.flatten)
    rwa [← htext, String.ofList_toList, byteLen_append] at hslice
  · omega
  · exact Nat.add_le_add_left (byteLen_le_of_mem_cutParts (hparts ▸ List.mem_append_right _ List.mem_cons_self)) _
  · rw [hline]
    simp [passageOf]

/-- Every character that is not blank is in the part of a line that becomes a passage. -/
theorem exists_passage {text : String} {front : List Char} {c : Char} {behind : List Char}
    (htext : text.toList = front ++ c :: behind) (hc : isWhitespace c = false) :
    ∃ p ∈ passagesFrom P T 0 0 "source" (splitInclusive '\n' text.toList), ∃ start finish,
      p.startByte = some start ∧ p.endByte = some finish ∧ start ≤ byteLen front ∧
      byteLen front + c.utf8Size ≤ finish := by
  have hflatten := (splitInclusive_flatten '\n' text.toList).trans htext
  obtain ⟨before, line, later, x, y, hlines, hline, hfront⟩ := exists_piece front hflatten
  have hparts := flatten_cutParts line partBytes []
  rw [List.nil_append, hline] at hparts
  obtain ⟨earlier, part, others, u, v, hcut, hpart, hx⟩ := exists_piece x hparts
  have hblank : part.all isWhitespace = false := by
    rw [hpart, List.all_append, List.all_cons, hc, Bool.false_and, Bool.and_false]
  refine ⟨_, (mem_passagesFrom _).mpr ⟨before, line, later, hlines, (mem_partsFrom _).mpr
    ⟨earlier, part, others, by rw [hline, hcut], hblank, rfl⟩⟩, _, _, rfl, rfl, ?_, ?_⟩
  · rw [hfront, hx, byteLen_append, byteLen_append]
    omega
  · rw [hfront, hx, hpart]
    simp only [byteLen_append, byteLen_cons]
    omega

/-- While the limit on records is not met, the passages of a file are slices of it at their places, one behind the other
and at most 4096 bytes long, with the number of the line and the speaker of the last heading up to it; all characters
that are not blank are in one of them. The loop that cuts a line at its bytes ends with these parts. -/
theorem filePassages_partition (text : String) {limit : ℕ}
    (hall : (filePassages P T text.toList limit).truncated = false) :
    (∀ p ∈ (filePassages P T text.toList limit).passages, CutFrom T text p) ∧
    (filePassages P T text.toList limit).passages.Pairwise EndsBefore ∧
    (∀ front c behind, text.toList = front ++ c :: behind → isWhitespace c = false →
      ∃ p ∈ (filePassages P T text.toList limit).passages, ∃ start finish, p.startByte = some start ∧
        p.endByte = some finish ∧ start ≤ byteLen front ∧ byteLen front + c.utf8Size ≤ finish) ∧
    ∀ line ∈ splitInclusive '\n' text.toList, ∀ fuel, byteLen line < fuel →
      byteParts (String.ofList line) fuel 0 = some ((cutParts partBytes [] line).map String.ofList) := by
  rw [filePassages_eq hall]
  exact ⟨fun p hp => passage_cutFrom hp, (within_passagesFrom 0 0 "source" _).2,
    fun front c behind htext hc => exists_passage htext hc, fun line _ fuel hfuel => byteParts_eq line hfuel⟩

/-- The speaker of a heading is the one of what is below it. -/
theorem filePassages_partition_heading : CutFrom ⟨String.toLower, Char.isAlphanum⟩ "# User\n\nhello"
    ⟨3, 3, "user", none, "hello", "", some 8, some 13, none, none, none⟩ := by
  have hall : (filePassages ⟨fun _ => "", fun _ => none, fun _ => none, fun _ => ""⟩ ⟨String.toLower, Char.isAlphanum⟩
      "# User\n\nhello".toList 9).truncated = false := by decide +kernel
  exact (filePassages_partition "# User\n\nhello" hall).1 _ (by decide +kernel)

end Innen.Trace
