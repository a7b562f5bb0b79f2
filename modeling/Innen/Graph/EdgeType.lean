import Innen.Common.Text

/-!
# Edge kinds

The graph vocabulary for edges. `EdgeType.parse` never fails: a name that is not one of the twelve core
kinds, compared without regard to ASCII case, stays as it is in `custom`.
-/

namespace Innen.Graph

open Common

/-- Graph edge kind. -/
inductive EdgeType
  | belongsTo
  | followsUp
  | supports
  | evaluates
  | discussedIn
  | derivedFrom
  | supersedes
  | locatedAt
  | originatedAt
  | contains
  | partOf
  | informs
  | custom (s : String)
deriving DecidableEq, Repr

namespace EdgeType

/-- Canonical `SCREAMING_SNAKE_CASE` name; a custom edge keeps its string. -/
def name : EdgeType → String
  | belongsTo => "BELONGS_TO"
  | followsUp => "FOLLOWS_UP"
  | supports => "SUPPORTS"
  | evaluates => "EVALUATES"
  | discussedIn => "DISCUSSED_IN"
  | derivedFrom => "DERIVED_FROM"
  | supersedes => "SUPERSEDES"
  | locatedAt => "LOCATED_AT"
  | originatedAt => "ORIGINATED_AT"
  | contains => "CONTAINS"
  | partOf => "PART_OF"
  | informs => "INFORMS"
  | custom s => s

/-- The core kinds, those with a name of their own. -/
def core : List EdgeType :=
  [belongsTo, followsUp, supports, evaluates, discussedIn, derivedFrom, supersedes, locatedAt,
    originatedAt, contains, partOf, informs]

/-- `EdgeType::from_str`: the arms of its match are the names of the core kinds, each yielding its kind. -/
def parse (s : String) : EdgeType :=
  (core.find? fun e => e.name == asciiUpper s).getD (custom s)

/-- Parsing yields a core kind of that name or the string unchanged; in the second case the upper-cased
string names no core kind. -/
theorem parse_cases (s : String) :
    (parse s ∈ core ∧ (parse s).name = asciiUpper s) ∨
      (parse s = custom s ∧ ∀ e ∈ core, e.name ≠ asciiUpper s) := by
  unfold parse
  rcases h : core.find? fun e => e.name == asciiUpper s with _ | e
  · rw [h]
    exact .inr ⟨rfl, fun e he hname => List.find?_eq_none.mp h e he (by simpa using hname)⟩
  · rw [h]
    exact .inl ⟨List.mem_of_find?_eq_some h, by simpa using List.find?_some h⟩

/-- A core kind's name parses to that kind. -/
theorem parse_name_of_core {e : EdgeType} (h : e ∈ core) : parse e.name = e := by
  revert e
  decide

/-- Printing a parsed kind and parsing it again changes nothing. -/
theorem parse_name_parse (s : String) : parse (parse s).name = parse s := by
  rcases parse_cases s with ⟨hcore, -⟩ | ⟨hcustom, -⟩
  · exact parse_name_of_core hcore
  · rw [hcustom, name, hcustom]

end EdgeType

end Innen.Graph
