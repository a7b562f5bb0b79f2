import Innen.Graph.Adjacency
import Innen.Graph.Materialize
import Mathlib.Data.List.Sort

/-!
# Candidates for a request

A request is cut into terms, and a node is a candidate when a full-text search finds it and an admission gate lets it
through, or when its identity contains the terms. If there is none, each term is tried alone. Candidates come best
first. Scores are compared, never computed with, so they are of any ordered type.
-/

namespace Innen.TaskEntry

open Common Graph

/-! ## Texts -/

/-- `str::ends_with`. -/
def endsWith (s tail : String) : Bool := tail.toList.isSuffixOf s.toList

/-- `str::is_ascii`. -/
def isAscii (s : String) : Bool := s.toList.all fun c => decide (c.toNat < 128)

/-- Whether all characters are ASCII letters or digits. -/
def asciiWord (s : String) : Bool := s.toList.all Char.isAlphanum

/-- `str::split` at certain characters. -/
def splitAtChars (cut : Char → Bool) (s : String) : List String := (s.toList.splitOnP cut).map String.ofList

/-- `eq_ignore_ascii_case`. -/
def sameAscii (s t : String) : Bool := asciiLower s = asciiLower t

/-! ## The libraries -/

/-- How well a term hits a node: not at all, in some field, or in its label or name. -/
inductive TermHit where
  | none
  | field
  | name
deriving DecidableEq

/-- What a request is served with: Unicode tables, a word splitter, a search engine, and the arithmetic of scores. -/
structure Engine (σ : Type) where
  /-- `str::to_lowercase`. -/
  lower : String → String
  /-- The words of `jieba.tokenize` in search mode. -/
  words : String → List String
  /-- The ids that a query finds among documents, with relevance scores that are normalized to the best one. -/
  search : List (String × String) → String → List (String × σ)
  zero : σ
  one : σ
  /-- The score of a literal match by how each term hits and whether the node is anchored. -/
  coverage : List TermHit → Bool → σ
  /-- The share of the weights of the terms that hit, by the number of nodes, and how many nodes have each term. -/
  weightShare : ℕ → List (ℕ × Bool) → σ
  /-- Whether a score is as good as the best one, but for rounding. -/
  near : σ → σ → Bool

variable {σ : Type}

/-! ## Node texts -/

/-- `node_text`. -/
def nodeText (node : Value) (key : String) : String := ((node.get? key).bind Value.asStr?).getD ""

/-- `node_kind`: a core name as it is spelled there, another one as it is. -/
def nodeKind (node : Value) : String :=
  match (node.get? "type").bind Value.asStr? with
  | some s => (NodeType.parse s).name
  | none => "Custom"

/-- The texts of a field that is a text or a list of texts. -/
def fieldTexts (node : Value) (key : String) : List String :=
  match node.get? key with
  | some (.string s) => if s ≠ "" then [s] else []
  | some (.array items) => (items.filterMap Value.asStr?).filter (· ≠ "")
  | _ => []

/-- The text of a field, if there is one. -/
def textPart (node : Value) (key : String) : List String := if nodeText node key ≠ "" then [nodeText node key] else []

/-- `node_searchable_text`. -/
def nodeSearchableText (node : Value) : String :=
  " ".intercalate (textPart node "label" ++ textPart node "name" ++ textPart node "body" ++ fieldTexts node "summary" ++
    fieldTexts node "aliases" ++ textPart node "alias" ++ textPart node "path" ++ textPart node "document_id" ++
    textPart node "revision_id")

/-- The fields that say what a node is. -/
def identityFields : List String := ["label", "name", "aliases", "alias", "path", "document_id", "revision_id"]

/-- `node_identity_text`. -/
def nodeIdentityText (node : Value) : String := " ".intercalate (identityFields.flatMap (fieldTexts node))

/-- `node_anchor_text`. -/
def nodeAnchorText (node : Value) : String :=
  " ".intercalate (["label", "name", "aliases", "alias"].flatMap (fieldTexts node))

/-! ## Terms of a request -/

/-- The words that show that an asset is to be edited. -/
def assetEditWords : List String :=
  ["重新造字", "造字", "字體", "標準字", "logo", "wordmark", "brand asset", "redraw", "vector", "向量", "標誌"]

/-- `has_asset_edit_intent`. -/
def hasAssetEditIntent (E : Engine σ) (q : String) : Bool := assetEditWords.any (containsText (E.lower q))

/-- Words that say nothing. -/
def stopWords : List String :=
  ["的", "了", "在", "是", "我", "有", "和", "就", "不", "人", "都", "一", "個", "上", "也", "很", "到", "說", "要",
    "去", "妳", "會", "著", "沒有", "看好", "自己", "這", "請將", "將", "粗細", "the", "a", "an", "and", "or", "to", "of",
    "in"]

/-- Add a term that is new. -/
def pushTerm (terms : List String) (term : String) : List String := if term ∈ terms then terms else terms ++ [term]

/-- Whether a character ends a raw token. -/
def isTokenEnd (c : Char) : Bool :=
  isWhitespace c || decide (c ∈ [',', '，', '.', '。', '!', '！', '?', '？', ';', '；', ':', '：', '\x22', '\x27', '、', '(', ')',
    '[', ']', '\x7b', '\x7d'])

/-- Add a word of the word splitter. -/
def addWord (E : Engine σ) (terms : List String) (word : String) : List String :=
  let trimmed := trim word
  if trimmed = "" then terms
  else if trimmed.length < 2 ∧ isAscii trimmed = false then terms
  else if trimmed ∈ stopWords then terms
  else pushTerm terms (E.lower trimmed)

/-- Add a raw token, and its parts if it is joined by hyphens or underscores. -/
def addToken (E : Engine σ) (terms : List String) (token : String) : List String :=
  let low := E.lower token
  if low.length < 2 ∧ isAscii low = false then terms
  else
    let terms := if 2 ≤ low.utf8ByteSize then pushTerm terms low else terms
    if containsText token "-" ∨ containsText token "_" then
      (((splitAtChars (fun c => c = '-' || c = '_') token).filter (· ≠ "")).map E.lower).foldl
        (fun terms part => if 2 ≤ part.utf8ByteSize then pushTerm terms part else terms) terms
    else terms

/-- `extract_query_terms`. -/
def extractQueryTerms (E : Engine σ) (q : String) : List String :=
  (((splitAtChars isTokenEnd q).map trim).filter (· ≠ "")).foldl (addToken E) ((E.words q).foldl (addWord E) [])

/-- `sanitize_for_tantivy`. -/
def sanitizeForTantivy (q : String) : String :=
  String.ofList (q.toList.map fun c =>
    if c ∈ ['+', '-', '!', '(', ')', '\x7b', '\x7d', '[', ']', '^', '\x22', '~', '*', '?', ':', '\x5c', '/', '&', '|'] then ' '
    else c)

/-- The terms that may identify a node. -/
def identityTerms (terms : List String) : List String :=
  terms.filter fun term => (asciiWord term && decide (3 ≤ term.length)) || (!asciiWord term && decide (2 ≤ term.length))

/-- The identity terms that name an entity. -/
def entityTerms (terms : List String) : List String := (identityTerms terms).filter asciiWord

/-! ## Admission -/

/-- `has_entity_anchor`: the label says so, unless it is a path. -/
def hasEntityAnchor (E : Engine σ) (node : Value) (entity : List String) : Bool :=
  let anchor := E.lower (nodeAnchorText node)
  if entity = [] then false
  else if containsText anchor "workspace:" ∨ containsText anchor "/" then false
  else
    let matched := (entity.filter (containsText anchor)).length
    decide (0 < matched ∧ (entity.length = 1 ∨ matched = entity.length))

/-- `has_all_search_terms`. -/
def hasAllSearchTerms (E : Engine σ) (node : Value) (terms : List String) : Bool :=
  decide (terms ≠ []) && terms.all (containsText (E.lower (nodeSearchableText node)))

/-- `admit_literal_candidate`. -/
def admitLiteralCandidate (E : Engine σ) (node : Value) (terms : List String) (allowPartial : Bool) : Bool :=
  allowPartial || decide (terms.length ≤ 1) || hasAllSearchTerms E node terms

/-- Whether a text or a text of a list contains a term. -/
def fieldHit (E : Engine σ) (node : Value) (key term : String) : Bool :=
  match node.get? key with
  | some (.string s) => containsText (E.lower s) term
  | some (.array items) => (items.filterMap Value.asStr?).any fun s => containsText (E.lower s) term
  | _ => false

/-- How a term hits a node. -/
def termHit (E : Engine σ) (node : Value) (term : String) : TermHit :=
  if ["label", "name"].any fun key => fieldHit E node key (E.lower term) then .name
  else if identityFields.any fun key => fieldHit E node key (E.lower term) then .field
  else .none

/-- `identity_coverage_score`. -/
def identityCoverageScore (E : Engine σ) (node : Value) (terms entity : List String) : σ :=
  if terms = [] then E.zero
  else E.coverage (terms.map (termHit E node)) (entity.any (containsText (E.lower (nodeAnchorText node))))

/-- A request, cut into terms. -/
structure Request where
  q : String
  terms : List String
  identity : List String
  entity : List String
  /-- Whether a part of the terms is enough. -/
  partialIdentity : Bool

/-- Read a request. -/
def Request.of (E : Engine σ) (q : String) : Request :=
  let terms := extractQueryTerms E q
  ⟨q, terms, identityTerms terms, entityTerms terms, hasAssetEditIntent E q⟩

section

variable (E : Engine σ) (r : Request) (id : String) (node : Value)

/-- Whether a label looks like a path. -/
def pathLikeLabel : Bool :=
  containsText (E.lower (nodeText node "label")) "workspace:" || containsText (E.lower (nodeText node "label")) "/"

/-- Whether the label or the id contains a term that may select a node. -/
def termMatch (term : String) : Bool :=
  let label := E.lower (nodeText node "label")
  let low := E.lower id
  decide (r.entity = [] ∨ term ∈ r.entity) && decide (2 ≤ term.utf8ByteSize) && !pathLikeLabel E node &&
    (decide (r.entity.length ≤ 1) || r.partialIdentity ||
      r.entity.all fun entity => containsText label entity || containsText low entity) &&
    (containsText label term || containsText low term)

/-- Whether the request is the id of the node. -/
def exactId : Bool := E.lower id = E.lower (trim r.q)

/-- Whether the label or the id contains the whole request. -/
def wholeMatch : Bool :=
  let q := E.lower (trim r.q)
  decide (2 ≤ q.length) &&
    (containsText (E.lower (nodeText node "label")) q || (!pathLikeLabel E node && containsText (E.lower id) q))

/-- Whether the request or one of its terms is the label or the id, or contained as a whole. -/
def exactMatch : Bool :=
  exactId E r id || wholeMatch E r id node ||
    r.terms.any fun term =>
      termMatch E r id node term && (E.lower (nodeText node "label") = term || E.lower id = term)

/-- Whether the identity of a node matches the terms. -/
def identityMatch : Bool :=
  if r.entity = [] then r.identity.any (containsText (E.lower (nodeIdentityText node)))
  else hasEntityAnchor E node r.entity

/-- Whether a node is a literal match. An id is one whatever the terms are. -/
def literalMatched : Bool :=
  exactId E r id ||
    ((wholeMatch E r id node || r.terms.any (termMatch E r id node) || identityMatch E r node) &&
      admitLiteralCandidate E node r.identity r.partialIdentity)

/-- The score of a literal match. -/
def literalScore : σ := if exactMatch E r id node then E.one else identityCoverageScore E node r.identity r.entity

end

/-! ## Candidates -/

/-- A node that a request may be about, with its score and why. -/
structure Candidate (σ : Type) where
  id : String
  score : σ
  why : String

section

variable [LinearOrder σ] (E : Engine σ) (r : Request)

/-- What the full-text search finds, by id. -/
def ftsScores (nodes : SortedMap String Value) : SortedMap String σ :=
  if trim r.q = "" then ∅
  else
    (E.search (nodes.entries.map fun e => (e.1, nodeSearchableText e.2))
      (if r.terms ≠ [] then " ".intercalate r.terms else sanitizeForTantivy r.q)).foldl
        (fun found e => found.insert e.1 e.2) ∅

/-- Whether the gate lets through a node that the search found. -/
def admitsFound (node : Value) : Bool :=
  if r.entity = [] then hasAllSearchTerms E node r.identity
  else hasEntityAnchor E node r.entity || hasAllSearchTerms E node r.identity

/-- Add a node that the search found. -/
def addFound (nodes : SortedMap String Value) (scores : SortedMap String (σ × String)) (e : String × σ) :
    SortedMap String (σ × String) :=
  match nodes.get? e.1 with
  | none => scores
  | some node => if admitsFound E r node then scores.insert e.1 (e.2, "fts_identity_match") else scores

/-- Add a node that is a literal match; a better score is taken over. -/
def addLiteral (scores : SortedMap String (σ × String)) (e : String × Value) : SortedMap String (σ × String) :=
  if literalMatched E r e.1 e.2 then
    scores.upsert e.1 (E.zero, "") fun current =>
      if current.1 < literalScore E r e.1 e.2 then (literalScore E r e.1 e.2, "literal_match") else current
  else scores

/-- `literal_candidate_scores`. -/
def literalCandidateScores (nodes : SortedMap String Value) (scores : SortedMap String (σ × String)) :
    SortedMap String (σ × String) :=
  if E.lower (trim r.q) = "" then scores else nodes.entries.foldl (addLiteral E r) scores

/-- Best score first, then by id. -/
def Before (a b : Candidate σ) : Prop := b.score < a.score ∨ (a.score = b.score ∧ a.id ≤ b.id)

instance : DecidableRel (@Before σ _) := fun a b => by
  unfold Before
  infer_instance

/-- The candidates of the whole request. -/
def wholeCandidates (nodes : SortedMap String Value) : List (Candidate σ) :=
  ((literalCandidateScores E r nodes ((ftsScores E r nodes).entries.foldl (addFound E r nodes) ∅)).entries.map
    fun e => ⟨e.1, e.2.1, e.2.2⟩).insertionSort Before

/-- `FALLBACK_CANDIDATE_LIMIT`. -/
def fallbackCandidateLimit : ℕ := 10

/-- Whether the identity of a node contains a term. -/
def identityHit (node : Value) (term : String) : Bool :=
  containsText (E.lower (nodeIdentityText node)) (E.lower term)

/-- How many nodes contain a term. -/
def documentFrequency (nodes : SortedMap String Value) (term : String) : ℕ :=
  (nodes.entries.filter fun e => identityHit E e.2 term).length

/-- A node that contains some of the terms. -/
def termCandidate (nodes : SortedMap String Value) (e : String × Value) : Option (Candidate σ) :=
  let hits := r.identity.filter (identityHit E e.2)
  if hits = [] then none
  else
    some ⟨e.1,
      E.weightShare nodes.entries.length
        (r.identity.map fun term => (documentFrequency E nodes term, identityHit E e.2 term)),
      "term_coverage:" ++ toString hits.length ++ "/" ++ toString r.identity.length⟩

/-- `per_term_candidates`: the best candidates, and the terms that no node has. -/
def perTermCandidates (nodes : SortedMap String Value) : List (Candidate σ) × List String :=
  let found := ((nodes.entries.filterMap (termCandidate E r nodes)).insertionSort Before).take fallbackCandidateLimit
  (found, if found = [] then [] else r.identity.filter fun term => documentFrequency E nodes term = 0)

/-- The candidates that are admitted, best first, and the terms that nothing was found for. -/
def admitted (nodes : SortedMap String Value) : List (Candidate σ) × List String :=
  let whole := wholeCandidates E r nodes
  if whole = [] ∧ 2 ≤ r.identity.length then perTermCandidates E r nodes else (whole, [])

end

end Innen.TaskEntry
