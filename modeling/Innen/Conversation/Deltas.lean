import Innen.Conversation.Compact
import Mathlib.Algebra.GroupWithZero.Nat
import Mathlib.Data.List.Sort

/-!
# Joined fragments

Strings that have their edges in common, or lines with a common start, may be written as joins of literal
fragments. Whatever fragments are chosen, the parts of a join make up the string (`decodeEdges_packJoins`).
-/

namespace Innen.Conversation

open Innen.Common

variable (floatText : UInt64 → String)

/-! ## Fragments -/

/-- The literal fragments, and the strings that are joins of them. -/
structure Joins where
  fragments : List String
  replacements : SortedMap String (List ℕ)

/-- The index of a part, which becomes a fragment if it is none yet. -/
def addPart (s : List String × List ℕ) (part : String) : List String × List ℕ :=
  if part ∈ s.1 then (s.1, s.2 ++ [s.1.idxOf part]) else (s.1 ++ [part], s.2 ++ [s.1.length])

/-- Enter a string as the join of some parts. -/
def Joins.add (j : Joins) (text : String) (parts : List String) : Joins :=
  let added := parts.foldl addPart (j.fragments, [])
  ⟨added.1, j.replacements.insert text added.2⟩

/-- The reference to a join. -/
def joinRef (j : Joins) (s : String) : Option Value :=
  (j.replacements.get? s).map fun join => .array (join.map .nat)

/-- A value with some strings as joins. -/
def packJoins (j : Joins) (v : Value) : Value :=
  let key := reservedKey "$join" v
  .object [("encoding", .string "innen.edges.v1"), ("fragments", .strings j.fragments), ("join_key", .string key),
    ("page", v.mark (joinRef j) key)]

/-! ## Shared edges -/

/-- What two texts have in common at their start. -/
def commonStart : List Char → List Char → List Char
  | a :: as, b :: bs => if a = b then a :: commonStart as bs else []
  | _, _ => []

/-- `edges`: what two texts have in common at their start, and of what is left at their end. Both cuts are at
character boundaries. -/
def edges (a b : String) : List Char × List Char :=
  let start := commonStart a.toList b.toList
  (start, (commonStart (a.toList.drop start.length).reverse (b.toList.drop start.length).reverse).reverse)

/-- The bytes of some characters. -/
def byteLen (cs : List Char) : ℕ := (String.ofList cs).utf8ByteSize

/-- The parts of a text that are not empty: its start, its middle and its end. -/
def edgeParts (e : List Char × List Char) (text : String) : List String :=
  ([e.1, (text.toList.drop e.1.length).take (text.length - e.1.length - e.2.length), e.2].filter
    fun part => decide (part ≠ [])).map String.ofList

/-- The loop of `encode_edges` over the neighbours in the sorted list of texts. -/
def joinEdges : List String → Joins → Joins
  | a :: b :: rest, j =>
    let e := edges a b
    if byteLen e.1 + byteLen e.2 < 256 then joinEdges (b :: rest) j
    else joinEdges rest ((j.add a (edgeParts e a)).add b (edgeParts e b))
  | _, j => j

/-- The long strings of a value, sorted. -/
def sortedLongStrings (v : Value) : List String :=
  (SortedSet.ofList (v.allStrings.filter fun s => decide (256 ≤ s.utf8ByteSize))).elems

/-- `encode_edges`. -/
def encodeEdges (original : Value) : Value :=
  let j := joinEdges (sortedLongStrings original) ⟨[], ∅⟩
  if j.replacements.entries = [] then original else shorter floatText (packJoins j original) original

/-! ## Line starts -/

/-- The lines of a text with their terminators. -/
def inclusiveLines (s : String) : List String := (splitInclusive '\n' s.toList).map String.ofList

/-- How often each long line occurs. -/
def lineCounts (texts : List String) : SortedMap String ℕ :=
  ((texts.flatMap inclusiveLines).filter fun line => decide (64 ≤ line.utf8ByteSize)).foldl
    (fun m line => m.upsert line 0 (· + 1)) ∅

/-- Whether anything is left of a line without its frame (`trim_matches`). -/
def hasSubstance (line : String) : Bool :=
  line.toList.any fun c => decide (c ∉ [' ', '\t', '\r', '\n', '|', '+', '-'])

/-- What neighbours in a list have in common at their start. -/
def neighbourStarts : List String → List String
  | a :: b :: rest => String.ofList (commonStart a.toList b.toList) :: neighbourStarts (b :: rest)
  | _ => []

/-- The line starts that may become fragments. -/
def candidates (counts : SortedMap String ℕ) : List String :=
  (SortedSet.ofList (((counts.entries.filter fun e => decide (1 < e.2)).map Prod.fst).filter hasSubstance ++
    (neighbourStarts counts.keys).filter fun start => decide (64 ≤ start.utf8ByteSize) && hasSubstance start)).elems

/-- What a line start is worth. -/
def score (counts : SortedMap String ℕ) (start : String) : ℕ :=
  let count := ((counts.entries.filter fun e => startsWith e.1 start).map Prod.snd).sum
  (count - 1) * start.utf8ByteSize - count * 12

/-- The line starts, the best first. -/
def ranked (counts : SortedMap String ℕ) : List (ℕ × String) :=
  ((candidates counts).map fun p => (score counts p, p)).mergeSort fun a b =>
    decide (b.1 < a.1 ∨ (b.1 = a.1 ∧ b.2 ≤ a.2))

/-- Assign a line start to the lines that have it and no other yet, if there are two of them. -/
def assign (counts : SortedMap String ℕ) (assigned : SortedMap String String) (candidate : ℕ × String) :
    SortedMap String String :=
  if candidate.1 = 0 then assigned
  else
    let matching := counts.entries.filter fun e => (assigned.get? e.1).isNone && startsWith e.1 candidate.2
    if (matching.map Prod.snd).sum < 2 then assigned
    else matching.foldl (fun assigned e => assigned.insert e.1 candidate.2) assigned

/-- The line start of each line that has one. -/
def assignedStarts (counts : SortedMap String ℕ) : SortedMap String String :=
  (ranked counts).foldl (assign counts) ∅

/-- The parts of a text so far, what follows them, and whether any line start was split off. -/
structure Split where
  parts : List String
  buffer : String
  changed : Bool

/-- One line of a text. -/
def Split.line (assigned : SortedMap String String) (s : Split) (line : String) : Split :=
  match assigned.get? line with
  | some start =>
    ⟨(if s.buffer = "" then s.parts else s.parts ++ [s.buffer]) ++ [start],
      String.ofList (line.toList.drop start.length), true⟩
  | none => { s with buffer := s.buffer ++ line }

/-- The parts of a text, if any line start is split off. -/
def startParts (assigned : SortedMap String String) (text : String) : Option (List String) :=
  let s := (inclusiveLines text).foldl (Split.line assigned) ⟨[], "", false⟩
  if s.changed then some (if s.buffer = "" then s.parts else s.parts ++ [s.buffer]) else none

/-- Enter a text if any line start of it is split off. -/
def joinStart (assigned : SortedMap String String) (j : Joins) (text : String) : Joins :=
  match startParts assigned text with
  | some parts => j.add text parts
  | none => j

/-- The joins of the texts of a value by their line starts. -/
def joinStarts (v : Value) : Joins :=
  (SortedSet.ofList v.allStrings).elems.foldl (joinStart (assignedStarts (lineCounts v.allStrings))) ⟨[], ∅⟩

/-- `prefixes::encode`. -/
def encodeStarts (original : Value) : Option Value :=
  let j := joinStarts original
  if j.replacements.entries = [] then none
  else if textLen floatText (packJoins j original) < textLen floatText original then some (packJoins j original)
  else none

/-- `deltas::encode`. -/
def encodeDeltas (original : Value) : Value :=
  match encodeStarts floatText original with
  | some packed => shorter floatText packed (encodeEdges floatText original)
  | none => encodeEdges floatText original

/-! ## Joins are exact -/

/-- The indices of a join refer to fragments that make up a text. -/
def Refers (fragments : List String) (join : List ℕ) (text : String) : Prop :=
  ∃ parts, join.map (fun i => fragments[i]?) = parts.map some ∧ String.join parts = text

/-- Every replacement is a join of its string. -/
def Joins.Exact (j : Joins) : Prop :=
  ∀ s join, j.replacements.get? s = some join → Refers j.fragments join s

theorem Refers.mono {fragments more : List String} {join : List ℕ} {text : String}
    (h : Refers fragments join text) : Refers (fragments ++ more) join text := by
  obtain ⟨parts, hparts, hjoin⟩ := h
  refine ⟨parts, ?_, hjoin⟩
  rw [← hparts]
  refine List.map_congr_left fun i hi => ?_
  have hmem : fragments[i]? ∈ parts.map some := hparts ▸ List.mem_map_of_mem hi
  obtain ⟨part, -, hpart⟩ := List.mem_map.mp hmem
  rw [List.getElem?_append_left (List.getElem?_eq_some_iff.mp hpart.symm).1]

/-- What entering parts does to the fragments and the indices. -/
theorem foldl_addPart (parts : List String) (s : List String × List ℕ) :
    ∃ more join, parts.foldl addPart s = (s.1 ++ more, s.2 ++ join) ∧
      join.map (fun i => (s.1 ++ more)[i]?) = parts.map some := by
  induction parts generalizing s with
  | nil => exact ⟨[], [], by simp, rfl⟩
  | cons part parts ih =>
    obtain ⟨more₀, i, hstep, hi⟩ : ∃ more₀ i, addPart s part = (s.1 ++ more₀, s.2 ++ [i]) ∧
        (s.1 ++ more₀)[i]? = some part := by
      by_cases hmem : part ∈ s.1
      · refine ⟨[], s.1.idxOf part, by simp [addPart, hmem], ?_⟩
        rw [List.append_nil]
        exact List.getElem?_idxOf hmem
      · exact ⟨[part], s.1.length, by simp [addPart, hmem], List.getElem?_concat_length⟩
    obtain ⟨more, join, hfold, hjoin⟩ := ih (s.1 ++ more₀, s.2 ++ [i])
    refine ⟨more₀ ++ more, i :: join, ?_, ?_⟩
    · rw [List.foldl_cons, hstep, hfold]
      simp
    · have hi' : (s.1 ++ more₀ ++ more)[i]? = some part := by
        rw [List.getElem?_append_left (List.getElem?_eq_some_iff.mp hi).1]
        exact hi
      rw [List.map_cons, List.map_cons, ← List.append_assoc, hi', hjoin]

theorem Joins.Exact.add {j : Joins} (h : j.Exact) {text : String} {parts : List String}
    (hparts : String.join parts = text) : (j.add text parts).Exact := by
  obtain ⟨more, join, hfold, hjoin⟩ := foldl_addPart parts (j.fragments, [])
  intro s join' hget
  rw [Joins.add, hfold] at hget ⊢
  rw [SortedMap.get?_insert] at hget
  by_cases hs : s = text
  · rw [if_pos hs, Option.some.injEq, List.nil_append] at hget
    subst hget
    exact ⟨parts, hjoin, hparts.trans hs.symm⟩
  · rw [if_neg hs] at hget
    exact (h s join' hget).mono

theorem exact_nil : (⟨[], ∅⟩ : Joins).Exact := fun s join h => by cases h

/-! ### Edges -/

theorem commonStart_prefix (as bs : List Char) : commonStart as bs <+: as ∧ commonStart as bs <+: bs := by
  induction as generalizing bs with
  | nil => simp [commonStart]
  | cons a as ih =>
    cases bs with
    | nil => simp [commonStart]
    | cons b bs =>
      rw [commonStart]
      split
      · rename_i heq
        subst heq
        exact ⟨List.cons_prefix_cons.mpr ⟨rfl, (ih bs).1⟩, List.cons_prefix_cons.mpr ⟨rfl, (ih bs).2⟩⟩
      · exact ⟨List.nil_prefix, List.nil_prefix⟩

theorem flatMap_ofList (l : List (List Char)) : (l.map String.ofList).flatMap String.toList = l.flatten := by
  rw [List.flatMap_def, List.map_map]
  simp [Function.comp_def]

/-- A text is its start, its middle and its end. -/
theorem join_edgeParts {e : List Char × List Char} {text : String} (hstart : e.1 <+: text.toList)
    (hend : e.2 <:+ text.toList.drop e.1.length) : String.join (edgeParts e text) = text := by
  obtain ⟨rest, hrest⟩ := hstart
  have hdrop : text.toList.drop e.1.length = rest := by rw [← hrest, List.drop_left]
  obtain ⟨middle, hmiddle⟩ := hdrop ▸ hend
  have hlen : text.length - e.1.length - e.2.length = middle.length := by
    rw [← String.length_toList, ← hrest, ← hmiddle]
    simp only [List.length_append]
    omega
  have htake : (text.toList.drop e.1.length).take (text.length - e.1.length - e.2.length) = middle := by
    rw [hdrop, hlen, ← hmiddle, List.take_left]
  refine String.toList_inj.mp ?_
  rw [String.toList_join, edgeParts, htake, flatMap_ofList, List.flatten_filter_ne_nil, ← hrest, ← hmiddle]
  simp

theorem join_edges (a b : String) :
    String.join (edgeParts (edges a b) a) = a ∧ String.join (edgeParts (edges a b) b) = b := by
  have hstart := commonStart_prefix a.toList b.toList
  have hend := commonStart_prefix (a.toList.drop (commonStart a.toList b.toList).length).reverse
    (b.toList.drop (commonStart a.toList b.toList).length).reverse
  exact ⟨join_edgeParts hstart.1 (List.reverse_prefix.mp (by rw [edges, List.reverse_reverse]; exact hend.1)),
    join_edgeParts hstart.2 (List.reverse_prefix.mp (by rw [edges, List.reverse_reverse]; exact hend.2))⟩

theorem exact_joinEdges (texts : List String) {j : Joins} (h : j.Exact) : (joinEdges texts j).Exact := by
  induction texts, j using joinEdges.induct with
  | case1 a b rest j e hshort ih =>
    rw [joinEdges]
    simp only [e] at hshort
    simp only [hshort, if_true]
    exact ih h
  | case2 a b rest j e hlong ih =>
    rw [joinEdges]
    simp only [e] at hlong
    simp only [hlong, if_false]
    exact ih ((h.add (join_edges a b).1).add (join_edges a b).2)
  | case3 texts j hnot =>
    rw [joinEdges]
    · exact h
    · exact hnot

/-! ### Line starts -/

/-- Assigned line starts are starts of their lines. -/
def StartsOf (assigned : SortedMap String String) : Prop :=
  ∀ line start, assigned.get? line = some start → start.toList <+: line.toList

theorem StartsOf.assign {counts : SortedMap String ℕ} {assigned : SortedMap String String} (h : StartsOf assigned)
    (candidate : ℕ × String) : StartsOf (assign counts assigned candidate) := by
  rw [Conversation.assign]
  split
  · exact h
  simp only
  split
  · exact h
  have hfold : ∀ (matching : List (String × ℕ)) (assigned : SortedMap String String), StartsOf assigned →
      (∀ e ∈ matching, startsWith e.1 candidate.2 = true) →
      StartsOf (matching.foldl (fun assigned e => assigned.insert e.1 candidate.2) assigned) := by
    intro matching
    induction matching with
    | nil => exact fun _ h _ => h
    | cons e matching ih =>
      intro assigned h hstarts
      refine ih _ (fun line start hget => ?_) fun e he => hstarts e (List.mem_cons_of_mem _ he)
      rw [SortedMap.get?_insert] at hget
      split at hget
      · rename_i hline
        obtain rfl := Option.some.inj hget
        rw [hline]
        exact List.isPrefixOf_iff_prefix.mp (hstarts e List.mem_cons_self)
      · exact h line start hget
  refine hfold _ _ h fun e he => ?_
  have := (List.mem_filter.mp he).2
  rw [Bool.and_eq_true] at this
  exact this.2

theorem startsOf_assignedStarts (counts : SortedMap String ℕ) : StartsOf (assignedStarts counts) := by
  have hfold : ∀ (rs : List (ℕ × String)) (assigned : SortedMap String String), StartsOf assigned →
      StartsOf (rs.foldl (assign counts) assigned) := by
    intro rs
    induction rs with
    | nil => exact fun _ h => h
    | cons r rs ih => exact fun _ h => ih _ (h.assign r)
  exact hfold _ ∅ fun line start h => by cases h

/-- What has been read of a text. -/
def Split.read (s : Split) : List Char := s.parts.flatMap String.toList ++ s.buffer.toList

theorem Split.read_line {assigned : SortedMap String String} (h : StartsOf assigned) (s : Split) (line : String) :
    (s.line assigned line).read = s.read ++ line.toList := by
  rw [Split.line]
  split
  · rename_i start hget
    obtain ⟨rest, hrest⟩ := h line start hget
    have hdrop : line.toList.drop start.length = rest := by
      rw [← hrest, ← String.length_toList, List.drop_left]
    rw [Split.read, Split.read, String.toList_ofList, hdrop, ← hrest]
    by_cases hbuffer : s.buffer = "" <;> simp [hbuffer]
  · simp [Split.read]

theorem join_startParts {assigned : SortedMap String String} (h : StartsOf assigned) {text : String}
    {parts : List String} (hparts : startParts assigned text = some parts) : String.join parts = text := by
  have hfold : ∀ (lines : List String) (s : Split),
      (lines.foldl (Split.line assigned) s).read = s.read ++ lines.flatMap String.toList := by
    intro lines
    induction lines with
    | nil => simp
    | cons line lines ih =>
      intro s
      rw [List.foldl_cons, ih, s.read_line h, List.flatMap_cons, List.append_assoc]
  have hread := hfold (inclusiveLines text) ⟨[], "", false⟩
  have hlines : (inclusiveLines text).flatMap String.toList = text.toList := by
    rw [inclusiveLines, flatMap_ofList, splitInclusive_flatten]
  rw [hlines] at hread
  simp only [startParts] at hparts
  split at hparts
  · obtain rfl := Option.some.inj hparts
    refine String.toList_inj.mp ?_
    rw [String.toList_join]
    split
    · rename_i hbuffer
      simpa [Split.read, hbuffer] using hread
    · simpa [Split.read] using hread
  · cases hparts

theorem exact_joinStarts (v : Value) : (joinStarts v).Exact := by
  have hfold : ∀ (texts : List String) (j : Joins), j.Exact →
      (texts.foldl (joinStart (assignedStarts (lineCounts v.allStrings))) j).Exact := by
    intro texts
    induction texts with
    | nil => exact fun _ h => h
    | cons text texts ih =>
      intro j h
      refine ih _ ?_
      rw [joinStart]
      cases hparts : startParts (assignedStarts (lineCounts v.allStrings)) text with
      | none => exact h
      | some parts => exact h.add (join_startParts (startsOf_assignedStarts _) hparts)
  exact hfold _ _ exact_nil

end Innen.Conversation
