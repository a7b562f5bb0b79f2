import Innen.Common.SortedMap
import Innen.Common.Text
import Mathlib.Data.List.Sort

/-!
# Words and matches

A text is cut into words: runs of letters and digits, and single characters and pairs of Chinese, Japanese and Korean
text. A document matches a query when it has one of its words. Scores are compared, never computed with, so they are of
any ordered type.
-/

namespace Innen.Trace

open Common

/-! ## Words -/

/-- The Unicode tables that words depend on. -/
structure Tables where
  /-- `str::to_lowercase`. -/
  lower : String → String
  /-- `char::is_alphanumeric`. -/
  isAlphanumeric : Char → Bool

/-- `cjk`. -/
def isCjk (c : Char) : Bool :=
  [(0x3400, 0x4dbf), (0x4e00, 0x9fff), (0xf900, 0xfaff), (0x20000, 0x3134f), (0x3040, 0x30ff), (0xac00, 0xd7af)].any
    fun range => decide (range.1 ≤ c.toNat ∧ c.toNat ≤ range.2)

/-- `stop`. -/
def stopWords : List String :=
  ["the", "a", "an", "and", "or", "to", "of", "in", "is", "for", "with", "的", "了", "是", "我", "你", "請", "之前"]

/-- Add a word that is no stop word. -/
def pushWord (word : List Char) (out : List String) : List String :=
  if word = [] ∨ String.ofList word ∈ stopWords then out else out ++ [String.ofList word]

/-- What was read of a text: the word that is not complete, the character before, and the words. -/
structure Reading where
  word : List Char
  previous : Option Char
  out : List String

/-- Read one character. -/
def Reading.next (T : Tables) (r : Reading) (c : Char) : Reading :=
  if isCjk c then
    let single := pushWord [c] (pushWord r.word r.out)
    ⟨[], some c, match r.previous with
      | some previous => pushWord [previous, c] single
      | none => single⟩
  else if T.isAlphanumeric c then ⟨r.word ++ [c], none, r.out⟩
  else ⟨[], none, pushWord r.word r.out⟩

/-- `tokens`. -/
def tokens (T : Tables) (text : String) : List String :=
  let r := (T.lower text).toList.foldl (Reading.next T) ⟨[], none, []⟩
  pushWord r.word r.out

/-! ## Documents -/

/-- `LexDoc`: how often each word is in a text. -/
structure LexDoc where
  id : String
  tf : SortedMap String ℕ
  len : ℕ

/-- `lex`. -/
def lex (T : Tables) (id text : String) : LexDoc :=
  ⟨id, (tokens T text).foldl (fun tf word => tf.upsert word 0 (· + 1)) ∅, (tokens T text).length⟩

/-- Whether a document has a word of a query. -/
def LexDoc.hits (doc : LexDoc) (query : List String) : Bool :=
  query.any fun term => (doc.tf.get? term).any fun count => count ≠ 0

/-! ## Scores -/

/-- The arithmetic of scores. -/
structure Scores (σ : Type) where
  one : σ
  /-- The BM25 score of a document that has a word of the query; it is positive. -/
  relevance : List LexDoc → List String → ℕ → σ
  /-- A score as a share of the best one. -/
  share : σ → σ → σ
  /-- The score behind a step of some weight in hundredths; ownership is shared among all steps of a node. -/
  along : σ → ℕ → Option ℕ → σ
  /-- The score of a session that a source names. -/
  referenced : σ → σ
  /-- Reciprocal rank fusion of the rank of a source and that of a passage. -/
  fuse : ℕ → ℕ → σ

variable {σ : Type} [LinearOrder σ]

/-- The best score first, and then by name. -/
def BestFirst {α : Type} (score : α → σ) (name : α → String) (a b : α) : Prop :=
  score b < score a ∨ (score a = score b ∧ name a ≤ name b)

instance {α : Type} (score : α → σ) (name : α → String) : DecidableRel (BestFirst score name) := fun a b => by
  unfold BestFirst
  infer_instance

/-- `bm25`: the documents that have a word of the query, best first. -/
def bm25 (S : Scores σ) (docs : List LexDoc) (query : List String) : List (ℕ × σ) :=
  (((List.range docs.length).filter fun i => (docs[i]?).any (·.hits query)).map
    fun i => (i, S.relevance docs query i)).insertionSort
      (BestFirst Prod.snd fun e => ((docs[e.1]?).map LexDoc.id).getD "")

/-- A document is found when it has a word of the query. -/
theorem mem_bm25 {S : Scores σ} {docs : List LexDoc} {query : List String} {i : ℕ} :
    (∃ score, (i, score) ∈ bm25 S docs query) ↔ ∃ doc, docs[i]? = some doc ∧ doc.hits query = true := by
  simp only [bm25, List.mem_insertionSort, List.mem_map, List.mem_filter, List.mem_range, Prod.mk.injEq]
  constructor
  · rintro ⟨score, i, ⟨-, hhits⟩, rfl, -⟩
    exact (Option.any_eq_true _ _).mp hhits
  · rintro ⟨doc, hdoc, hhits⟩
    obtain ⟨hlt, -⟩ := List.getElem?_eq_some_iff.mp hdoc
    exact ⟨_, i, ⟨hlt, by rw [hdoc, Option.any_some, hhits]⟩, rfl, rfl⟩

end Innen.Trace
