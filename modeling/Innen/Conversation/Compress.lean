import Innen.Common.SortedMap
import Innen.Common.StraightLine
import Innen.Common.Text
import Innen.Conversation.Grammar
import Mathlib.Data.Prod.Lex

/-!
# Compressing texts by a grammar

Texts are cut into chunks, equal chunks become one symbol, and pairs of neighbouring symbols are replaced by new symbols
one after the other. Whatever pairs are replaced, the symbols refer to chunks and to symbols before them, and the
sequence of a text stands for its chunks (`replaced_means`).
-/

namespace Innen.Conversation.Compress

open Common StraightLine

/-! ## Chunks -/

/-- The factor of the gear hash. -/
def gear : UInt64 := 0x9e3779b185ebca87

/-- The gear hash with one more character; it wraps around. -/
def gearHash (hash : UInt64) (c : Char) : UInt64 := (hash <<< 1) + UInt64.ofNat c.val.toNat * gear

/-- Whether a chunk of so many bytes ends behind a character. -/
def endsChunk (len : ℕ) (hash : UInt64) (c : Char) : Bool :=
  decide (64 ≤ len ∧ ((hash &&& 127) = 0 ∨ 384 ≤ len ∨ c = '\n'))

/-- The loop of `chunks` over the characters, with the chunk that is begun. -/
def gearChunks (begun : List Char) (hash : UInt64) : List Char → List (List Char)
  | [] => if begun = [] then [] else [begun]
  | c :: rest =>
    if endsChunk (String.ofList (begun ++ [c])).utf8ByteSize (gearHash hash c) c then
      (begun ++ [c]) :: gearChunks [] 0 rest
    else gearChunks (begun ++ [c]) (gearHash hash c) rest

/-- `chunks`: a text in lines, or cut by its content. -/
def chunks (text : String) (lines : Bool) : List String :=
  (if lines then splitInclusive '\n' text.toList else gearChunks [] 0 text.toList).map String.ofList

theorem flatten_gearChunks (cs begun : List Char) (hash : UInt64) :
    (gearChunks begun hash cs).flatten = begun ++ cs := by
  induction cs generalizing begun hash with
  | nil =>
    rw [gearChunks]
    split_ifs with hbegun
    · rw [hbegun]
      rfl
    · simp
  | cons c rest ih =>
    rw [gearChunks]
    split_ifs
    · rw [List.flatten_cons, ih, List.nil_append, List.append_assoc, List.singleton_append]
    · rw [ih, List.append_assoc, List.singleton_append]

/-- The chunks of a text make it up. -/
theorem join_chunks (text : String) (lines : Bool) : String.join (chunks text lines) = text := by
  refine String.toList_inj.mp ?_
  rw [String.toList_join, chunks, List.flatMap_def, List.map_map]
  cases lines with
  | true => simp [Function.comp_def, splitInclusive_flatten]
  | false => simp [Function.comp_def, flatten_gearChunks]

/-! ## The grammar -/

/-- `Symbol`: the text of a chunk, or a pair of symbols. -/
abbrev Symbol := Rule String

/-- `Grammar`. -/
structure Grammar where
  symbols : List Symbol
  lengths : List ℕ
  texts : List String
  weights : List ℕ
  sequences : List (List ℕ)

/-- The symbols so far, and which of them is the one of a chunk. -/
structure Atoms where
  symbols : List Symbol
  lengths : List ℕ
  map : SortedMap String ℕ

/-- The symbol of a chunk, which becomes one if it is none yet. -/
def Atoms.enter (atoms : Atoms) (chunk : String) : Atoms × ℕ :=
  match atoms.map.get? chunk with
  | some id => (atoms, id)
  | none =>
    let id := atoms.symbols.length
    (⟨atoms.symbols ++ [.atom chunk], atoms.lengths ++ [chunk.utf8ByteSize], atoms.map.insert chunk id⟩, id)

/-- The symbols of the chunks of a text. -/
def Atoms.enterAll (atoms : Atoms) : List String → Atoms × List ℕ
  | [] => (atoms, [])
  | chunk :: rest =>
    let entered := atoms.enter chunk
    let later := entered.1.enterAll rest
    (later.1, entered.2 :: later.2)

/-- The sequences of texts, unless there are too many atoms. -/
def Atoms.sequences (lines : Bool) (atoms : Atoms) : List String → Option (Atoms × List (List ℕ))
  | [] => some (atoms, [])
  | text :: rest => do
    let entered := atoms.enterAll (chunks text lines)
    if Grammar.maxAtoms < entered.1.symbols.length then none
    let later ← entered.1.sequences lines rest
    return (later.1, entered.2 :: later.2)

/-- `Grammar::new`. -/
def Grammar.new (weightedTexts : List (String × ℕ)) (lines : Bool) : Option Grammar := do
  let texts := weightedTexts.map Prod.fst
  let (atoms, sequences) ← Atoms.sequences lines ⟨[], [], ∅⟩ texts
  return ⟨atoms.symbols, atoms.lengths, texts, weightedTexts.map Prod.snd, sequences⟩

/-- `Grammar::replace`, which panics where the pair refers to no symbol. -/
def Grammar.replace (g : Grammar) (pair : ℕ × ℕ) : Option Grammar := do
  let left ← g.lengths[pair.1]?
  let right ← g.lengths[pair.2]?
  return { g with
    symbols := g.symbols ++ [.pair pair.1 pair.2]
    lengths := g.lengths ++ [left + right]
    sequences := g.sequences.map (replacePair pair g.symbols.length) }

/-- How often each pair of neighbours occurs, by the weights of the texts. -/
def Grammar.counts (g : Grammar) : SortedMap (ℕ ×ₗ ℕ) ℕ :=
  (g.sequences.zip g.weights).foldl
    (fun counts entry => (entry.1.zip entry.1.tail).foldl (fun counts p => counts.upsert (toLex p) 0 (· + entry.2)) counts)
    ∅

/-- What a pair gains that occurs so often. -/
def Grammar.gain (g : Grammar) (pair : ℕ × ℕ) (n : ℕ) : ℕ :=
  (g.lengths.getD pair.1 0 + g.lengths.getD pair.2 0) * (n - 1) - (n * 8 + 32)

/-- `Grammar::pairs`: the four pairs that gain most. -/
def Grammar.pairs (g : Grammar) : List (ℕ × ℕ) :=
  let ranked := g.counts.entries.filterMap fun e =>
    let gain := g.gain (ofLex e.1) e.2
    if 2 ≤ e.2 ∧ 0 < gain then some (gain, ofLex e.1) else none
  ((ranked.mergeSort fun a b => decide (b.1 < a.1 ∨ (b.1 = a.1 ∧ toLex a.2 ≤ toLex b.2))).take 4).map Prod.snd

/-! ## Atoms -/

/-- All symbols are chunks, and the map finds them. -/
structure Atoms.Sound (atoms : Atoms) : Prop where
  atom : ∀ symbol ∈ atoms.symbols, ∃ chunk, symbol = .atom chunk
  measured : atoms.lengths.length = atoms.symbols.length
  known : ∀ chunk id, atoms.map.get? chunk = some id → atoms.symbols[id]? = some (.atom chunk)

/-- The symbols so far stay where they are. -/
def Atoms.Extends (before after : Atoms) : Prop := ∃ more, after.symbols = before.symbols ++ more

theorem Atoms.Extends.trans {a b c : Atoms} (hab : a.Extends b) (hbc : b.Extends c) : a.Extends c := by
  obtain ⟨more, hb⟩ := hab
  obtain ⟨later, hc⟩ := hbc
  exact ⟨more ++ later, by rw [hc, hb, List.append_assoc]⟩

theorem Atoms.Extends.getElem? {a b : Atoms} (h : a.Extends b) {id : ℕ} {symbol : Symbol}
    (hget : a.symbols[id]? = some symbol) : b.symbols[id]? = some symbol := by
  obtain ⟨more, hb⟩ := h
  rw [hb, List.getElem?_append_left (List.getElem?_eq_some_iff.mp hget).1, hget]

/-- A chunk has a symbol of its own. -/
theorem Atoms.Sound.enter {atoms : Atoms} (h : atoms.Sound) (chunk : String) :
    (atoms.enter chunk).1.Sound ∧ atoms.Extends (atoms.enter chunk).1 ∧
      (atoms.enter chunk).1.symbols[(atoms.enter chunk).2]? = some (.atom chunk) := by
  rw [Atoms.enter]
  rcases hget : atoms.map.get? chunk with _ | id
  · have hnew : (atoms.symbols ++ [Rule.atom chunk])[atoms.symbols.length]? = some (.atom chunk) :=
      List.getElem?_concat_length
    refine ⟨⟨?_, ?_, ?_⟩, ⟨_, rfl⟩, hnew⟩
    · intro symbol hsymbol
      rcases List.mem_append.mp hsymbol with hsymbol | hsymbol
      · exact h.atom symbol hsymbol
      · exact ⟨chunk, List.mem_singleton.mp hsymbol⟩
    · rw [List.length_append, List.length_append, h.measured]
      rfl
    · intro other id hid
      rw [SortedMap.get?_insert] at hid
      split_ifs at hid with heq
      · obtain rfl := Option.some.inj hid
        rw [heq]
        exact hnew
      · have hold := h.known other id hid
        dsimp only
        rw [List.getElem?_append_left (List.getElem?_eq_some_iff.mp hold).1, hold]
  · exact ⟨h, ⟨[], (List.append_nil _).symm⟩, h.known chunk id hget⟩

theorem Atoms.Sound.enterAll {atoms : Atoms} (h : atoms.Sound) (chunked : List String) :
    (atoms.enterAll chunked).1.Sound ∧ atoms.Extends (atoms.enterAll chunked).1 ∧
      (atoms.enterAll chunked).2.map (fun id => (atoms.enterAll chunked).1.symbols[id]?) =
        chunked.map fun chunk => some (.atom chunk) := by
  induction chunked generalizing atoms with
  | nil => exact ⟨h, ⟨[], (List.append_nil _).symm⟩, rfl⟩
  | cons chunk rest ih =>
    obtain ⟨hsound, hextends, hid⟩ := h.enter chunk
    obtain ⟨hlater, hmore, hids⟩ := ih hsound
    rw [Atoms.enterAll]
    exact ⟨hlater, hextends.trans hmore, List.cons_eq_cons.mpr ⟨hmore.getElem? hid, hids⟩⟩

/-- Symbols that are atoms are within the list of symbols. -/
theorem lt_of_map_getElem? {symbols : List Symbol} {seq : List ℕ} {chunked : List String}
    (h : seq.map (fun id => symbols[id]?) = chunked.map fun chunk => some (.atom chunk)) :
    ∀ id ∈ seq, id < symbols.length := by
  intro id hid
  have hmem : symbols[id]? ∈ chunked.map fun chunk => some (Rule.atom chunk) := h ▸ List.mem_map_of_mem hid
  obtain ⟨chunk, -, hchunk⟩ := List.mem_map.mp hmem
  exact (List.getElem?_eq_some_iff.mp hchunk.symm).1

theorem Atoms.Sound.sequences {lines : Bool} {texts : List String} {atoms : Atoms} (h : atoms.Sound)
    {result : Atoms × List (List ℕ)} (hrun : atoms.sequences lines texts = some result) :
    result.1.Sound ∧ atoms.Extends result.1 ∧
      List.Forall₂ (fun seq text => seq.map (fun id => result.1.symbols[id]?) =
        (chunks text lines).map fun chunk => some (.atom chunk)) result.2 texts := by
  induction texts generalizing atoms result with
  | nil =>
    obtain rfl := Option.some.inj hrun
    exact ⟨h, ⟨[], (List.append_nil _).symm⟩, .nil⟩
  | cons text rest ih =>
    obtain ⟨hsound, hextends, hids⟩ := h.enterAll (chunks text lines)
    simp only [Atoms.sequences] at hrun
    split_ifs at hrun
    · cases hrun
    · simp only [Option.pure_def, Option.bind_eq_bind, Option.bind_eq_some_iff, Option.some.injEq] at hrun
      obtain ⟨later, hlater, rfl⟩ := hrun
      obtain ⟨hlast, hmore, hrest⟩ := ih hsound hlater
      refine ⟨hlast, hextends.trans hmore, .cons ?_ hrest⟩
      dsimp only
      rw [← hids]
      refine List.map_congr_left fun id hid => ?_
      have hlt := lt_of_map_getElem? hids id hid
      obtain ⟨symbols, hsymbols⟩ := hmore
      rw [hsymbols, List.getElem?_append_left hlt]

/-! ## What a grammar means -/

/-- The symbols refer to chunks and to symbols before them, and the sequences stand for given chunks. -/
structure Grammar.Means (g : Grammar) (chunked : List (List String)) : Prop where
  grounded : Grounded g.symbols
  measured : g.lengths.length = g.symbols.length
  inRange : ∀ seq ∈ g.sequences, ∀ id ∈ seq, id < g.symbols.length
  expands : g.sequences.map (expand (wordsOf g.symbols)) = chunked

/-- The sequences of a new grammar are the chunks of its texts. -/
theorem means_new {weightedTexts : List (String × ℕ)} {lines : Bool} {g : Grammar}
    (hnew : Grammar.new weightedTexts lines = some g) :
    g.Means (weightedTexts.map fun text => chunks text.1 lines) := by
  simp only [Grammar.new, Option.pure_def, Option.bind_eq_bind, Option.bind_eq_some_iff, Option.some.injEq] at hnew
  obtain ⟨⟨atoms, sequences⟩, hrun, rfl⟩ := hnew
  have hempty : (⟨[], [], ∅⟩ : Atoms).Sound :=
    ⟨fun symbol hsymbol => absurd hsymbol List.not_mem_nil, rfl, fun chunk id hget => by cases hget⟩
  obtain ⟨hsound, -, hids⟩ := hempty.sequences hrun
  dsimp only at hsound hids ⊢
  refine ⟨?_, hsound.measured, ?_, ?_⟩
  · intro i left right hget
    obtain ⟨chunk, hchunk⟩ := hsound.atom _ (List.mem_of_getElem? hget)
    cases hchunk
  · intro seq hseq
    obtain ⟨text, -, htext⟩ := exists_of_forall₂ hids hseq
    exact lt_of_map_getElem? htext
  · have hexpand : ∀ {seqs : List (List ℕ)} {texts : List String},
        List.Forall₂ (fun seq text => seq.map (fun id => atoms.symbols[id]?) =
          (chunks text lines).map fun chunk => some (.atom chunk)) seqs texts →
        seqs.map (expand (wordsOf atoms.symbols)) = texts.map fun text => chunks text lines := by
      intro seqs texts h
      induction h with
      | nil => rfl
      | cons hseq _ ih => rw [List.map_cons, List.map_cons, ih, expand_atoms hseq]
    rw [hexpand hids, List.map_map]
    rfl

/-- Replacing a pair leaves what a grammar means. -/
theorem Grammar.Means.replace {g g' : Grammar} {chunked : List (List String)} (h : g.Means chunked) {pair : ℕ × ℕ}
    (hreplace : g.replace pair = some g') : g'.Means chunked := by
  simp only [Grammar.replace, Option.pure_def, Option.bind_eq_bind, Option.bind_eq_some_iff, Option.some.injEq]
    at hreplace
  obtain ⟨left, hleft, right, hright, rfl⟩ := hreplace
  have hleft : pair.1 < g.symbols.length := h.measured ▸ (List.getElem?_eq_some_iff.mp hleft).1
  have hright : pair.2 < g.symbols.length := h.measured ▸ (List.getElem?_eq_some_iff.mp hright).1
  refine ⟨?_, ?_, ?_, ?_⟩
  · refine h.grounded.concat fun a b heq => ?_
    obtain ⟨rfl, rfl⟩ := Rule.pair.injEq .. ▸ heq
    exact ⟨hleft, hright⟩
  · rw [List.length_append, List.length_append, h.measured]
    rfl
  · intro seq hseq id hid
    obtain ⟨old, hold, rfl⟩ := List.mem_map.mp hseq
    rw [List.length_append, List.length_singleton]
    rcases mem_replacePair hid with rfl | hid
    · exact Nat.lt_succ_self _
    · exact Nat.lt_succ_of_lt (h.inRange old hold id hid)
  · have hword : (wordsOf (g.symbols ++ [.pair pair.1 pair.2])).getD g.symbols.length [] =
        (wordsOf (g.symbols ++ [.pair pair.1 pair.2])).getD pair.1 [] ++
          (wordsOf (g.symbols ++ [.pair pair.1 pair.2])).getD pair.2 [] := by
      rw [getD_wordsOf_concat, getD_wordsOf_concat_of_lt hleft, getD_wordsOf_concat_of_lt hright]
      rfl
    rw [← h.expands, List.map_map]
    refine List.map_congr_left fun seq hseq => ?_
    rw [Function.comp_apply, expand_replacePair hword, expand_wordsOf_append (h.inRange seq hseq)]

/-- Replacing pairs one after the other leaves what a grammar means. -/
theorem Grammar.Means.replaceAll {pairs : List (ℕ × ℕ)} {g g' : Grammar} {chunked : List (List String)}
    (h : g.Means chunked) (hrun : pairs.foldlM Grammar.replace g = some g') : g'.Means chunked := by
  induction pairs generalizing g with
  | nil =>
    obtain rfl := Option.some.inj hrun
    exact h
  | cons pair rest ih =>
    rw [List.foldlM_cons, Option.bind_eq_bind, Option.bind_eq_some_iff] at hrun
    obtain ⟨next, hnext, hrest⟩ := hrun
    exact ih (h.replace hnext) hrest

/-! ## The pairs that are tried -/

/-- Only neighbours in a sequence are counted. -/
theorem exists_of_get?_counts (g : Grammar) : ∀ p n, g.counts.get? p = some n →
    ∃ seq ∈ g.sequences, ofLex p ∈ seq.zip seq.tail := by
  rw [Grammar.counts]
  refine List.foldlRecOn (motive := fun counts : SortedMap (ℕ ×ₗ ℕ) ℕ => ∀ p n, counts.get? p = some n →
    ∃ seq ∈ g.sequences, ofLex p ∈ seq.zip seq.tail) _ _ (fun p n h => by cases h) fun counts hcounts entry hentry => ?_
  refine List.foldlRecOn (motive := fun counts : SortedMap (ℕ ×ₗ ℕ) ℕ => ∀ p n, counts.get? p = some n →
    ∃ seq ∈ g.sequences, ofLex p ∈ seq.zip seq.tail) _ _ hcounts fun counts hcounts neighbours hneighbours p n hget => ?_
  rw [SortedMap.get?_upsert] at hget
  split_ifs at hget with heq
  · rw [heq]
    exact ⟨entry.1, (List.of_mem_zip hentry).1, hneighbours⟩
  · exact hcounts p n hget

theorem exists_of_mem_pairs {g : Grammar} {pair : ℕ × ℕ} (h : pair ∈ g.pairs) :
    ∃ seq ∈ g.sequences, pair ∈ seq.zip seq.tail := by
  rw [Grammar.pairs] at h
  obtain ⟨⟨gain, p⟩, hranked, rfl⟩ := List.mem_map.mp h
  obtain ⟨⟨q, n⟩, hentry, heq⟩ := List.mem_filterMap.mp (List.mem_mergeSort.mp (List.mem_of_mem_take hranked))
  dsimp only at heq
  split_ifs at heq
  obtain ⟨-, rfl⟩ := Prod.mk.injEq .. ▸ Option.some.inj heq
  exact exists_of_get?_counts g q n (g.counts.mem_entries_iff.mp hentry)

/-- The pairs that are tried can be replaced. -/
theorem Grammar.Means.exists_replace {g : Grammar} {chunked : List (List String)} (h : g.Means chunked) {pair : ℕ × ℕ}
    (hpair : pair ∈ g.pairs) : ∃ g', g.replace pair = some g' := by
  obtain ⟨seq, hseq, hneighbours⟩ := exists_of_mem_pairs hpair
  obtain ⟨hleft, hright⟩ := List.of_mem_zip hneighbours
  have hlengths : ∀ id ∈ seq, ∃ len, g.lengths[id]? = some len := fun id hid =>
    ⟨_, List.getElem?_eq_getElem (h.measured ▸ h.inRange seq hseq id hid)⟩
  obtain ⟨left, hleft⟩ := hlengths _ hleft
  obtain ⟨right, hright⟩ := hlengths _ (List.mem_of_mem_tail hright)
  simp [Grammar.replace, hleft, hright]

/-- The chunks of a text make it up. Whatever pairs are replaced in the grammar of some texts, and in whatever order,
its symbols refer to chunks and to symbols before them, each sequence stands for the chunks of its text, and the pairs
that are tried next are pairs of symbols. -/
theorem replaced_means {weightedTexts : List (String × ℕ)} {lines : Bool} {pairs : List (ℕ × ℕ)} {new g : Grammar}
    (hnew : Grammar.new weightedTexts lines = some new) (hrun : pairs.foldlM Grammar.replace new = some g) :
    (∀ text mode, String.join (chunks text mode) = text) ∧
    g.Means (weightedTexts.map fun text => chunks text.1 lines) ∧
    ∀ pair ∈ g.pairs, ∃ g', g.replace pair = some g' := by
  have hmeans := (means_new hnew).replaceAll hrun
  exact ⟨join_chunks, hmeans, fun pair hpair => hmeans.exists_replace hpair⟩

/-- Three equal lines, in which the pair overlaps itself. -/
theorem replaced_means_overlap :
    (Grammar.mk [.atom "a\n", .pair 0 0] [2, 4] ["a\na\na\n"] [1] [[1, 0]]).Means [["a\n", "a\n", "a\n"]] := by
  have hnew : Grammar.new [("a\na\na\n", 1)] true =
      some ⟨[.atom "a\n"], [2], ["a\na\na\n"], [1], [[0, 0, 0]]⟩ := by rfl
  have hrun : [(0, 0)].foldlM Grammar.replace ⟨[.atom "a\n"], [2], ["a\na\na\n"], [1], [[0, 0, 0]]⟩ =
      some ⟨[.atom "a\n", .pair 0 0], [2, 4], ["a\na\na\n"], [1], [[1, 0]]⟩ := by rfl
  exact (replaced_means hnew hrun).2.1

end Innen.Conversation.Compress
