import Innen.Common.Except
import Innen.Journal.Model

/-!
# Evidence contracts

A contract names the nodes a caller may see, pins the content of inspected sources, fixes the window of
observation times and the bounds of the search, and lists facts, each with alternative sets of nodes
that would support it. Everything a contract says is the caller's assertion.
-/

namespace Innen.EvidenceClosure

open Innen.Common

/-- One fact: alternatives are joined by or, the nodes of one alternative by and. -/
structure Requirement where
  id : String
  description : Option String
  alternatives : List (SortedSet String)

/-- A contract; a source grant is the hash it pins. -/
structure Contract where
  version : ℕ
  question : String
  scopeReceipt : String
  scopeNodes : SortedSet String
  asOf : String
  minObservedUtc : String
  sources : SortedMap String String
  facts : List Requirement
  budgetTokens : ℕ
  maxHops : ℕ
  searchLimit : ℕ

/-- What evaluation calls besides parsing and printing: the number of reference tokens of a value. -/
structure Platform extends Journal.Platform where
  tokens : Value → ℕ

/-! ## Serialization -/

/-- The fields of a fact in declaration order; an absent description is left out. -/
def Requirement.fields (f : Requirement) : Fields :=
  [("id", .string f.id)] ++ (f.description.elim [] fun d => [("description", .string d)]) ++
    [("alternatives", .array (f.alternatives.map fun a => .strings a.elems))]

/-- The fields of a contract in declaration order. -/
def Contract.fields (c : Contract) : Fields :=
  [("version", .nat c.version), ("question", .string c.question), ("scope_receipt", .string c.scopeReceipt),
    ("scope_nodes", .strings c.scopeNodes.elems), ("as_of", .string c.asOf),
    ("min_observed_utc", .string c.minObservedUtc),
    ("sources", .object (c.sources.entries.map fun e =>
      (e.1, .object [("node_sha256", .string e.2)]))),
    ("facts", .array (c.facts.map fun f => .object f.fields)), ("budget_tokens", .nat c.budgetTokens),
    ("max_hops", .nat c.maxHops), ("search_limit", .nat c.searchLimit)]

/-- The hash of the contract's JSON text. -/
def Contract.sha256 (P : Platform) (c : Contract) : String :=
  P.sha256Hex (structText P.floatText c.fields).toUTF8

/-! ## Validation -/

/-- `timestamp`: a canonical UTC timestamp of an existing time since 1970. -/
def timestamp (s : String) : Bool := utcCalendar s && 1970 ≤ decimalAt s 0 4

/-- `u8::is_ascii_hexdigit` on a character. -/
def isHexDigit (c : Char) : Bool :=
  c.isDigit || ('a'.toNat ≤ c.toNat && c.toNat ≤ 'f'.toNat) || ('A'.toNat ≤ c.toNat && c.toNat ≤ 'F'.toNat)

/-- A source grant with an id and the form of a SHA-256. -/
def validGrant (e : String × String) : Bool :=
  !blank e.1 && e.2.utf8ByteSize == 64 && e.2.toList.all isHexDigit

/-- `validate_scope`. -/
def validateScope (c : Contract) (q : String) : Except String Unit := do
  failIf (c.version ≠ 1 ∨ c.question ≠ q ∨ blank c.question ∨ blank c.scopeReceipt)
    "contract version, exact question and scope receipt are required"
  failIf (¬timestamp c.asOf ∨ ¬timestamp c.minObservedUtc ∨ c.asOf < c.minObservedUtc)
    "contract needs ordered valid UTC timestamps YYYY-MM-DDTHH:MM:SSZ"
  failIf (c.scopeNodes.elems = [] ∨ 2000 < c.scopeNodes.card ∨ 2000 < c.sources.entries.length ∨
      ¬(1 ≤ c.maxHops ∧ c.maxHops ≤ 16) ∨ ¬(1 ≤ c.searchLimit ∧ c.searchLimit ≤ 100000) ∨
      c.budgetTokens = 0)
    "contract exceeds bounded fact/source/hop/search limits"
  failIf (¬c.sources.entries.all validGrant) "source grants need IDs and SHA-256 values"

/-- A fact with an id of its own and bounded nonempty alternatives. -/
def validFact (ids : SortedSet String) (f : Requirement) : Bool :=
  !blank f.id && f.id ∉ ids && f.alternatives ≠ [] && f.alternatives.length ≤ 16 &&
    f.alternatives.all fun a => a.elems ≠ [] && a.card ≤ 64

/-- All facts are valid; `ids` holds the ids before. -/
def validFacts : SortedSet String → List Requirement → Bool
  | _, [] => true
  | ids, f :: rest => validFact ids f && validFacts (ids.insert f.id) rest

/-- `validate`. -/
def validate (c : Contract) (q : String) : Except String Unit := do
  validateScope c q
  failIf (c.facts = [] ∨ 16 < c.facts.length) "facts must be nonempty and bounded"
  failIf (¬validFacts ∅ c.facts) "facts need unique IDs and bounded nonempty alternatives"

end Innen.EvidenceClosure
