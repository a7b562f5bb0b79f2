import Innen.Common.Text
import Innen.Json.Text
import Mathlib.Algebra.Order.Field.Rat
import Mathlib.Data.List.Sort

/-!
# A brief under a size ceiling

A context brief that is too long keeps the entries of its three lists that carry the most value for each character, as
long as they fit. A constraint that does not fit may be shortened. Rows are paged, so only a leading run of them stays,
and `next_offset` says where the next page starts.

The values of the entries are a parameter; they decide the order in which the entries are tried.
-/

namespace Innen.TaskEntry

open Common

/-! ## Entries -/

/-- The lists that are cut, in the order of `LISTS`. -/
inductive BriefList
  | constraints
  | neighborhood
  | rows
deriving DecidableEq

namespace BriefList

/-- The field of a list. -/
def key : BriefList → String
  | constraints => "constraints"
  | neighborhood => "neighborhood"
  | rows => "rows"

/-- The place of a list in `LISTS`. -/
def rank : BriefList → ℕ
  | constraints => 0
  | neighborhood => 1
  | rows => 2

/-- `LISTS`. -/
def all : List BriefList := [constraints, neighborhood, rows]

end BriefList

/-- How an entry is valued and how its size is told. -/
structure Pricing where
  /-- The shortest decimal text of a finite `f64`. -/
  floatText : UInt64 → String
  /-- `value`, by list and position. -/
  value : BriefList → ℕ → Value → ℚ

variable (P : Pricing)

/-- `size`: the characters of the text. -/
def size (v : Value) : ℕ := (v.toText P.floatText).length

/-- `SHORT_TEXT`. -/
def shortText : ℕ := 60

/-- `shortened`. -/
def shortened (entry : Value) : Value :=
  let text := ((entry.index "text").asStr?).getD ""
  if shortText < text.length then entry.set "text" (.string (takeChars shortText text ++ "…")) else entry

/-- An entry of a list, with its value and its cost. -/
structure BriefEntry where
  list : BriefList
  pos : ℕ
  value : ℚ
  cost : ℕ
  entry : Value

/-- The entries of one list. -/
def entriesOf (list : BriefList) (items : List Value) : List BriefEntry :=
  items.zipIdx.map fun e => ⟨list, e.2, P.value list e.2 e.1, size P e.1 + 1, e.1⟩

/-- Value for each character. -/
def BriefEntry.density (e : BriefEntry) : ℚ := e.value / e.cost

/-- The order in which entries are tried: by density, then by list and position. -/
def triesFirst (a b : BriefEntry) : Bool :=
  decide (b.density < a.density ∨ a.density = b.density ∧
    (a.list.rank < b.list.rank ∨ a.list.rank = b.list.rank ∧ a.pos ≤ b.pos))

/-- All entries, as they are tried. -/
def tried (originals : BriefList → List Value) : List BriefEntry :=
  (BriefList.all.flatMap fun l => entriesOf P l (originals l)).mergeSort triesFirst

/-! ## The choice -/

/-- What is kept of an entry and what it costs. -/
structure Kept where
  value : Value
  cost : ℕ
  short : Bool

/-- What is kept of an entry when so much of the budget is used: the entry, or a shortened constraint. -/
def room (budget used : ℕ) (e : BriefEntry) : Option Kept :=
  if used + e.cost ≤ budget then some ⟨e.entry, e.cost, false⟩
  else if e.list = .constraints ∧ size P (shortened e.entry) + 1 < e.cost ∧
      used + (size P (shortened e.entry) + 1) ≤ budget then
    some ⟨shortened e.entry, size P (shortened e.entry) + 1, true⟩
  else none

/-- What has been chosen so far. -/
structure Choice where
  used : ℕ
  chosen : BriefList → ℕ → Option Value
  shortenedCount : ℕ

/-- Choose one value for a place. -/
def Choice.put (s : Choice) (list : BriefList) (pos : ℕ) (v : Value) : BriefList → ℕ → Option Value :=
  fun l p => if l = list ∧ p = pos then some v else s.chosen l p

/-- Try one entry. -/
def tryEntry (budget : ℕ) (s : Choice) (e : BriefEntry) : Choice :=
  match room P budget s.used e with
  | some kept => ⟨s.used + kept.cost, s.put e.list e.pos kept.value, s.shortenedCount + if kept.short then 1 else 0⟩
  | none => s

/-- The pass over all entries. -/
def chooseEntries (originals : BriefList → List Value) (budget used : ℕ) : Choice :=
  (tried P originals).foldl (tryEntry P budget) ⟨used, fun _ _ => none, 0⟩

/-- Keep the first entry of a list of which nothing was chosen. -/
def keepFirst (originals : BriefList → List Value) (list : BriefList) (s : Choice) : Choice :=
  match originals list with
  | [] => s
  | first :: rest =>
    if (List.range (rest.length + 1)).all fun p => (s.chosen list p).isNone then
      { s with chosen := s.put list 0 (if list = .constraints then shortened first else first) }
    else s

/-- The leading run of what was chosen. -/
def leadingRun : List (Option Value) → List Value
  | some v :: rest => v :: leadingRun rest
  | _ => []

/-- What is kept of a list. -/
def keptOf (originals : BriefList → List Value) (s : Choice) (list : BriefList) : List Value :=
  let chosen := (List.range (originals list).length).map (s.chosen list)
  if list = .rows then leadingRun chosen else chosen.filterMap id

/-! ## The brief -/

/-- The items of a list of a brief. -/
def listOf (out : Value) (list : BriefList) : List Value := ((out.index list.key).asArray?).getD []

/-- Replace a list, if there is one. -/
def setList (out : Value) (list : BriefList) (items : List Value) : Value :=
  if (out.index list.key).asArray?.isSome then out.set list.key (.array items) else out

/-- The brief with empty lists. -/
def emptied (out : Value) : Value := BriefList.all.foldl (fun out l => setList out l []) out

/-- Put back what is kept of a list, and say how much was cut. -/
def putBack (offset : ℕ) (originals kept : BriefList → List Value) (s : Value × List String) (list : BriefList) :
    Value × List String :=
  let isCut := decide ((kept list).length < (originals list).length)
  let out := if isCut ∧ list = .rows then s.1.set "next_offset" (.nat (offset + (kept list).length)) else s.1
  (setList out list (kept list),
    if isCut then
      s.2 ++ [list.key ++ " " ++ toString (originals list).length ++ "->" ++ toString (kept list).length]
    else s.2)

/-- The report on the budget. -/
def budgetReport (budget : ℕ) (fits : Bool) (cut : List String) : Value :=
  .object [("chars", .nat budget), ("cut", .strings cut), ("fits", .bool fits)]

/-- Report on the budget, and say whether the brief with the report fits. -/
def reportFits (budget : ℕ) (out : Value) (cut : List String) : Value :=
  let out := out.set "budget" (budgetReport budget true cut)
  out.set "budget" ((out.index "budget").set "fits" (.bool (decide (size P out ≤ budget))))

/-- `fit_to_budget`. -/
def fitToBudget (out : Value) (budget offset : ℕ) : Value :=
  if size P out ≤ budget then out
  else
    let originals := listOf out
    let out := emptied out
    let chosen := chooseEntries P originals budget (size P out)
    let s := keepFirst originals .rows (keepFirst originals .constraints chosen)
    let done := BriefList.all.foldl (putBack offset originals (keptOf originals s)) (out, [])
    let cut := if 0 < s.shortenedCount then
        done.2 ++ [toString s.shortenedCount ++ " constraint texts shortened to " ++ toString shortText ++ " characters"]
      else done.2
    reportFits P budget done.1 cut

/-- The lists of a brief, as the entry builds it: where its page ends is told, and no budget is. -/
structure Brief (offset : ℕ) where
  fields : Fields
  lists : ∀ l : BriefList, ∃ items, Assoc.get? l.key fields = some (.array items)
  /-- Constraints are nodes, each listed once. -/
  distinct : ((listOf (.object fields) .constraints).map fun c => c.index "id").Nodup
  next : (Value.object fields).index "next_offset" = .null ∨
    (Value.object fields).index "next_offset" = .nat (offset + (listOf (.object fields) .rows).length)
  unbudgeted : Assoc.get? "budget" fields = none

/-- The brief as a value. -/
def Brief.out {offset : ℕ} (b : Brief offset) : Value := .object b.fields

end Innen.TaskEntry
