import Innen.Conversation.Prune.Rules
import Mathlib.Algebra.GroupWithZero.Nat

/-!
# Prune: rewriting a page

A dropped record keeps its line. It is marked, and its text is replaced by a note. `getElem?_prunePage`
says what becomes of a record.
-/

namespace Innen.Conversation.Prune

open Innen.Common

/-- `PruneOptions`. -/
structure PruneOptions where
  preserveRecent : ℕ := 4
  truncateHeadChars : ℕ := 120

/-- `PruneReceipt`. -/
structure PruneReceipt where
  totalRecords : ℕ
  prunedCount : ℕ
  supersededReads : ℕ
  duplicateReads : ℕ
  emptySearches : ℕ
  savedCharsEstimate : ℕ
deriving DecidableEq

/-- The note in place of a preview. -/
def previewNote (reason : String) : String := "[omitted: " ++ reason ++ "]"

/-- The note in place of an output. -/
def outputNote (reason : String) : Value := .string ("[tool output omitted: " ++ reason ++ "]")

/-- Set a field that is there. -/
def setPresent (v : Value) (key : String) (item : Value) : Value :=
  if (v.get? key).isSome then v.set key item else v

/-- Replace a preview, if there is one. -/
def omitPreview (reason : String) (origChars : ℕ) (v : Value) : Value :=
  if (v.get? "preview").isSome then
    ((((v.set "preview" (.string (previewNote reason))).set "preview_tail" (.string "")).set
      "preview_truncated" (.bool false)).set "chars" (.nat (previewNote reason).length)).set
      "omitted_chars" (.nat origChars)
  else v

/-- Replace the output of a payload, if there is one. -/
def omitPayload (reason : String) (v : Value) : Value :=
  match v.get? "payload" with
  | some payload => v.set "payload" (setPresent payload "output" (outputNote reason))
  | none => v

/-- Mark an event as dropped and replace its text. -/
def omitEvent (reason : String) (origChars : ℕ) (event : Value) : Value :=
  let marked := (event.set "pruned" (.bool true)).set "prune_reason" (.string reason)
  omitPayload reason (setPresent (setPresent (omitPreview reason origChars marked) "output" (outputNote reason))
    "content" (outputNote reason))

/-- `apply_prune_decisions` on the records. -/
def applyPruneDecisions (records : List Record) (toPrune : SortedMap ℕ (String × ℕ)) : List Record :=
  toPrune.entries.foldl
    (fun records e => records.modify e.1 fun r => { r with event := omitEvent e.2.1 e.2.2 r.event }) records

variable (parseJson : String → Option Value)

/-- The calls of a page with their outputs. -/
def pairedTools (records : List Record) : List PairedTool :=
  pairCallsWithOutputs (scanRecords parseJson records).calls (scanRecords parseJson records).outputs

/-- The writes of a page, by path. -/
def fileWrites (records : List Record) : SortedMap String (List (ℕ × ℕ)) :=
  (scanRecords parseJson records).fileWrites

/-- Where the newest records begin. -/
def keepThreshold (records : List Record) (options : PruneOptions) : ℕ :=
  records.length - options.preserveRecent

/-- What is dropped of a page. -/
def pruneOutcome (records : List Record) (options : PruneOptions) : RuleOutcome :=
  evaluatePruneRules (pairedTools parseJson records) (fileWrites parseJson records)
    (keepThreshold records options)

/-- The warning on a pruned page. -/
def pruneWarning (prunedCount savedChars : ℕ) : String :=
  "pruned " ++ toString prunedCount ++ " stale tool output(s) using deterministic rules (saved ~" ++
    toString savedChars ++ " chars)"

/-- `prune_page`. -/
def prunePage (page : Page) (options : PruneOptions) : Page × PruneReceipt :=
  if page.records = [] then (page, ⟨0, 0, 0, 0, 0, 0⟩)
  else
    let outcome := pruneOutcome parseJson page.records options
    let prunedCount := outcome.decisions.entries.length
    let savedChars := (outcome.decisions.entries.map fun e => e.2.2).sum
    let records := applyPruneDecisions page.records outcome.decisions
    let warnings := if 0 < prunedCount then page.warnings ++ [pruneWarning prunedCount savedChars] else page.warnings
    ({ page with records := records, warnings := warnings },
      ⟨page.records.length, prunedCount, outcome.supersededReads, outcome.duplicateReads, outcome.emptySearches,
        savedChars⟩)

/-! ## What becomes of a record -/

/-- A record after the decision about it. -/
def omitRecord (d : Option (String × ℕ)) (r : Record) : Record :=
  match d with
  | some (reason, origChars) => { r with event := omitEvent reason origChars r.event }
  | none => r

@[simp] theorem omitRecord_line (d : Option (String × ℕ)) (r : Record) : (omitRecord d r).line = r.line := by
  cases d <;> rfl

theorem getElem?_applyPruneDecisions (records : List Record) (toPrune : SortedMap ℕ (String × ℕ)) (i : ℕ) :
    (applyPruneDecisions records toPrune)[i]? = records[i]?.map (omitRecord (toPrune.get? i)) := by
  have hfold : ∀ (entries : List (ℕ × (String × ℕ))) (records : List Record), Assoc.Ascending entries →
      (entries.foldl (fun records e => records.modify e.1 fun r =>
        { r with event := omitEvent e.2.1 e.2.2 r.event }) records)[i]? =
        records[i]?.map (omitRecord (Assoc.get? i entries)) := by
    intro entries
    induction entries with
    | nil =>
      intro records _
      cases h : records[i]? <;> simp [h, omitRecord]
    | cons e entries ih =>
      intro records h
      obtain ⟨hlt, h⟩ := Assoc.ascending_cons.mp h
      rw [List.foldl_cons, ih _ h, List.getElem?_modify, Assoc.get?_cons]
      by_cases hi : e.1 = i
      · -- the entries behind are about later records
        have hnone : Assoc.get? i entries = none :=
          Assoc.get?_eq_none_of_forall_lt fun e' he' => hi ▸ hlt e' he'
        subst hi
        cases records[e.1]? <;> simp [hnone, omitRecord]
      · cases records[i]? <;> simp [hi, Ne.symm hi]
  exact hfold toPrune.entries records toPrune.ascending

/-- A record of a pruned page. -/
theorem getElem?_prunePage (page : Page) (options : PruneOptions) (i : ℕ) :
    (prunePage parseJson page options).1.records[i]? =
      page.records[i]?.map (omitRecord ((pruneOutcome parseJson page.records options).decisions.get? i)) := by
  rw [prunePage]
  split
  · rename_i hempty
    simp [hempty]
  · exact getElem?_applyPruneDecisions _ _ i

end Innen.Conversation.Prune
