import Mathlib.Data.Finset.Max
import Innen.Conversation.Prune.Pins

/-!
# Prune: reads that are dropped

A dropped read ought to be followed by what made it stale: a successful write of the path, or a successful read
that shows as much. The rules do not look at the outcome of the later call, nor at what a read shows. When
the page as it was read has such a call behind every dropped read, the pruned page has one too
(`readsCovered_iff`).
-/

namespace Innen.Conversation.Prune

open Innen.Common

/-- Something in a record other than the marks is no longer what it was. -/
def Replaced (parseJson : String → Option Value) (page : Page) (options : PruneOptions) (i : ℕ) : Prop :=
  ∃ r r' key, page.records[i]? = some r ∧ (prunePage parseJson page options).1.records[i]? = some r' ∧
    key ≠ "pruned" ∧ key ≠ "prune_reason" ∧ r'.event.get? key ≠ r.event.get? key

/-- A note replaces something in an event. -/
def Rewritten (reason : String) (origChars : ℕ) (ev : Value) : Prop :=
  ∃ key, key ≠ "pruned" ∧ key ≠ "prune_reason" ∧ (omitEvent reason origChars ev).get? key ≠ ev.get? key

/-- A record of a page that is the output of a stale tool, with something for a note to replace. -/
def StaleText (parseJson : String → Option Value) (page : Page) (options : PruneOptions) (i : ℕ) : Prop :=
  ∃ t reason r, StaleOutput parseJson page options t reason ∧ t.outputIdx = i ∧ page.records[i]? = some r ∧
    Rewritten reason t.originalChars r.event

theorem replaced_iff (parseJson : String → Option Value) (page : Page) (options : PruneOptions) (i : ℕ) :
    Replaced parseJson page options i ↔ StaleText parseJson page options i := by
  constructor
  · rintro ⟨r, r', key, hr, hr', hpruned, hreason, hne⟩
    rw [getElem?_prunePage, hr, Option.map_some, Option.some.injEq] at hr'
    subst hr'
    cases hd : (pruneOutcome parseJson page.records options).decisions.get? i with
    | none =>
      rw [hd] at hne
      exact absurd rfl hne
    | some d =>
      obtain ⟨t, hidx, hchars, hstale⟩ := (get?_pruneOutcome parseJson).mp hd
      rw [hd] at hne
      refine ⟨t, d.1, r, hstale, hidx, hr, key, hpruned, hreason, ?_⟩
      rw [hchars]
      exact hne
  · rintro ⟨t, reason, r, hstale, hidx, hr, key, hpruned, hreason, hne⟩
    have hd := (get?_pruneOutcome parseJson (d := (reason, t.originalChars))).mpr ⟨t, hidx, rfl, hstale⟩
    refine ⟨r, omitRecord (some (reason, t.originalChars)) r, key, hr, ?_, hpruned, hreason, hne⟩
    rw [getElem?_prunePage, hr, hd, Option.map_some]

variable (X : ExitReader) (page : Page) (options : PruneOptions)

/-- A tool whose output reports no failure. -/
def Succeeded (t : PairedTool) : Prop :=
  t.isError = false ∧ ∀ r, page.records[t.outputIdx]? = some r → payloadFails X r.event = false

/-- A later successful read of a path that shows as much of it. -/
def LaterRead (range : PairedTool → Set ℕ) (path : String) (t u : PairedTool) : Prop :=
  u ∈ pairedTools X.parseJson page.records ∧ u.action = .readFile path ∧ Succeeded X page u ∧
    t.outputIdx < u.outputIdx ∧ range t ⊆ range u

/-- A later successful write of a path. -/
def LaterWrite (path : String) (t w : PairedTool) : Prop :=
  w ∈ pairedTools X.parseJson page.records ∧ w.action = .writeFile path ∧ Succeeded X page w ∧
    t.outputIdx < w.callIdx

/-- Behind every successful read whose output was replaced, the pruned page has a successful read of the path
that shows as much, or a successful write. -/
def ReadsCovered (range : PairedTool → Set ℕ) : Prop :=
  ∀ t path, t ∈ pairedTools X.parseJson page.records → t.action = .readFile path → Succeeded X page t →
    Replaced X.parseJson page options t.outputIdx →
    (∃ u, LaterRead X page range path t u ∧ ¬Replaced X.parseJson page options u.outputIdx) ∨
    ∃ w, LaterWrite X page path t w ∧ ¬Replaced X.parseJson page options w.callIdx

/-- Behind every successful read with a stale output, the page as it was read has a successful read of the path
that shows as much, stale or not, or a successful write that is itself no stale output. -/
def StaleReadsFollowed (range : PairedTool → Set ℕ) : Prop :=
  ∀ t path, t ∈ pairedTools X.parseJson page.records → t.action = .readFile path → Succeeded X page t →
    StaleText X.parseJson page options t.outputIdx →
    (∃ u, LaterRead X page range path t u) ∨
    ∃ w, LaterWrite X page path t w ∧ ¬StaleText X.parseJson page options w.callIdx

/-- Whatever the reads show, the reads of a pruned page are covered when the stale ones were followed by
calls that did succeed. -/
theorem readsCovered_iff (range : PairedTool → Set ℕ) :
    ReadsCovered X page options range ↔ StaleReadsFollowed X page options range := by
  constructor
  · intro h t path ht haction hok hstale
    rcases h t path ht haction hok ((replaced_iff ..).mpr hstale) with ⟨u, hu, -⟩ | ⟨w, hw, hkept⟩
    · exact .inl ⟨u, hu⟩
    · exact .inr ⟨w, hw, fun hs => hkept ((replaced_iff ..).mpr hs)⟩
  · intro h t path ht haction hok hreplaced
    rcases h t path ht haction hok ((replaced_iff ..).mp hreplaced) with ⟨u₀, hu₀⟩ | ⟨w, hw, hkept⟩
    · -- the last of the later reads: if it is stale itself, then because of a write
      classical
      let later := (pairedTools X.parseJson page.records).toFinset.filter (LaterRead X page range path t)
      have hmem : ∀ {u}, LaterRead X page range path t u → u ∈ later := fun hu =>
        Finset.mem_filter.mpr ⟨List.mem_toFinset.mpr hu.1, hu⟩
      obtain ⟨u, hu, hlast⟩ := later.exists_max_image PairedTool.outputIdx ⟨u₀, hmem hu₀⟩
      obtain ⟨hpaired, haction', hok', hlt, hrange⟩ := (Finset.mem_filter.mp hu).2
      by_cases hstale : StaleText X.parseJson page options u.outputIdx
      · rcases h u path hpaired haction' hok' hstale with ⟨v, hv⟩ | ⟨w, hw, hkept⟩
        · obtain ⟨hvpaired, hvaction, hvok, hvlt, hvrange⟩ := hv
          have hvlater := hmem ⟨hvpaired, hvaction, hvok, hlt.trans hvlt, hrange.trans hvrange⟩
          exact absurd (hlast v hvlater) (Nat.not_le.mpr hvlt)
        · obtain ⟨hwpaired, hwaction, hwok, hwlt⟩ := hw
          exact .inr ⟨w, ⟨hwpaired, hwaction, hwok, hlt.trans hwlt⟩, fun hr => hkept ((replaced_iff ..).mp hr)⟩
      · exact .inl ⟨u, ⟨hpaired, haction', hok', hlt, hrange⟩, fun hr => hstale ((replaced_iff ..).mp hr)⟩
    · exact .inr ⟨w, hw, fun hr => hkept ((replaced_iff ..).mp hr)⟩

/-! ## A write that failed -/

/-- The arguments of both calls. -/
def pathArgument : String := "\x7b\"path\":\"a.rs\"\x7d"

/-- Libraries that know these arguments. -/
def pathReader : ExitReader where
  parseJson s := if s = pathArgument then some (.object [("path", .string "a.rs")]) else none
  isSeconds _ := false
  floatText _ := ""

/-- A file is read, then a write of it fails. -/
def failedWrite : Page where
  sessionId := "s"
  source := .codex
  sourcePath := "s.jsonl"
  view := .events
  offset := 0
  nextOffset := none
  records := [
    ⟨1, .object [("payload", .object [("arguments", .string pathArgument), ("call_id", .string "1"),
      ("name", .string "read_file"), ("type", .string "function_call")]), ("type", .string "response_item")]⟩,
    ⟨2, .object [("payload", .object [("call_id", .string "1"), ("output", .string "hello"),
      ("type", .string "function_call_output")]), ("type", .string "response_item")]⟩,
    ⟨3, .object [("payload", .object [("arguments", .string pathArgument), ("call_id", .string "2"),
      ("name", .string "write_file"), ("type", .string "function_call")]), ("type", .string "response_item")]⟩,
    ⟨4, .object [("payload", .object [("call_id", .string "2"),
      ("output", .string "Exit code: 1\nWall time: 0 seconds\nOutput:\nread-only"),
      ("type", .string "function_call_output")]), ("type", .string "response_item")]⟩,
    ⟨5, .object [("payload", .object [("type", .string "reasoning")]), ("type", .string "response_item")]⟩,
    ⟨6, .object [("payload", .object [("type", .string "reasoning")]), ("type", .string "response_item")]⟩]
  warnings := []

/-- The read, as it is paired. -/
def readTool : PairedTool := ⟨0, 1, 2, .readFile "a.rs", false, "hello", 5⟩

/-- The write, whose failure is not noticed. -/
def writeTool : PairedTool :=
  ⟨2, 3, 4, .writeFile "a.rs", false, "Exit code: 1\nWall time: 0 seconds\nOutput:\nread-only", 51⟩

theorem pairedTools_failedWrite : pairedTools pathReader.parseJson failedWrite.records = [readTool, writeTool] := by
  decide +kernel

/-- The only text of the file is given up for a write that failed. -/
theorem read_lost : ¬∃ range : PairedTool → Set ℕ, ReadsCovered pathReader failedWrite {} range := by
  rintro ⟨range, h⟩
  have hreplaced : Replaced pathReader.parseJson failedWrite {} 1 := by
    have hnote : (prunePage pathReader.parseJson failedWrite {}).1.records[1]?.bind
        (fun r => pointer2 r.event "payload" "output") =
        some (.string "[tool output omitted: read of 'a.rs' superseded by write at line 3]") := by
      decide +kernel
    obtain ⟨r', hr', hpayload⟩ := Option.bind_eq_some_iff.mp hnote
    refine ⟨_, r', "payload", rfl, hr', by decide, by decide, fun hsame => ?_⟩
    rw [pointer2, hsame] at hpayload
    exact absurd hpayload (by decide)
  have hok : Succeeded pathReader failedWrite readTool := by
    refine ⟨rfl, fun r hr => ?_⟩
    obtain rfl := Option.some.inj hr
    decide +kernel
  have hread : readTool ∈ pairedTools pathReader.parseJson failedWrite.records := by
    rw [pairedTools_failedWrite]
    exact List.mem_cons_self
  rcases h readTool "a.rs" hread rfl hok hreplaced with ⟨u, ⟨hu, haction, -, hlt, -⟩, -⟩ | ⟨w, ⟨hw, haction, hwok, -⟩, -⟩
  · rw [pairedTools_failedWrite] at hu
    rcases List.mem_pair.mp hu with rfl | rfl
    · exact absurd hlt (Nat.lt_irrefl _)
    · exact absurd haction (by decide)
  · rw [pairedTools_failedWrite] at hw
    rcases List.mem_pair.mp hw with rfl | rfl
    · exact absurd haction (by decide)
    · exact absurd (hwok.2 _ rfl) (by decide +kernel)

end Innen.Conversation.Prune
