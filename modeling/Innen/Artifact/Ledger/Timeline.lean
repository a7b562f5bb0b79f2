import Innen.Artifact.Ledger.Model
import Innen.Common.Places
import Innen.Common.Utf8

/-!
# The timeline

The ledger writes its receipts and events into a file that may hold text of the user as well, between two markers.
The block between the markers is taken out and a new one is put behind what is left, with a newline behind it.
-/

namespace Innen.Ledger

open Innen.Common

/-- The text before the block. -/
def beginMarker : String := "<!-- innen-ledger:start -->"

/-- The text behind the block. -/
def endMarker : String := "<!-- innen-ledger:end -->"

/-- The date of a row when there is none. -/
def unknownDate : String := "日期未知"

/-- The row of a receipt. -/
def receiptRow (r : Receipt) : String :=
  "- 文件日期=" ++ r.documentDate.getD unknownDate ++ "｜收件時間=" ++ r.observedUtc ++ "｜檔案=" ++
    String.ofList ((r.path.toList.splitOn '/').getLastD []) ++ "｜文件識別=" ++ r.documentId.getD "未知" ++ "｜角色=" ++
    r.role ++ "｜狀態=" ++ r.stage.debugText ++ "｜收據=" ++ r.id ++ "｜路徑=" ++ r.path ++ "\n"

/-- An optional part of a row. -/
def rowPart (label : String) (part : Option String) : String := (part.map (label ++ ·)).getD ""

/-- The row of an event. -/
def eventRow (e : EventRecord) : String :=
  "- 事件日期=" ++ e.eventDate.getD unknownDate ++ "｜事件=" ++ e.kind ++ "｜收據=" ++ e.receiptId ++ "｜觀察時間=" ++
    e.observedUtc ++ rowPart " | " e.note ++ rowPart " | 新歸屬=" e.newOwnerProject ++
    rowPart " | 新關係=" e.newRelation ++ rowPart " | 更正依據=" e.provenance ++ "\n"

/-- All rows, ordered by their dates. -/
def timelineBody (s : State) : String :=
  let rows := (s.receipts.map fun r => (r.documentDate.getD unknownDate, receiptRow r)) ++
    s.events.map fun e => (e.eventDate.getD unknownDate, eventRow e)
  String.join ((rows.mergeSort fun a b => decide (a.1 ≤ b.1)).map Prod.snd)

/-- What is kept of the text: all of it but the block, if there are both markers. -/
def keptChars (old : List Char) : List Char :=
  match findChars beginMarker.toList old, findChars endMarker.toList old with
  | some a, some b => old.take a ++ old.drop (b + endMarker.toList.length)
  | _, _ => old

/-- What stands between the markers. -/
def blockChars (s : State) : List Char := ("\n# " ++ s.identity.title ++ "\n" ++ timelineBody s).toList

/-- The block with its markers and the newline behind it. -/
def blockLine (s : State) : List Char := beginMarker.toList ++ blockChars s ++ endMarker.toList ++ ['\n']

/-- The new text. -/
def projectChars (s : State) (old : List Char) : List Char := keptChars old ++ blockLine s

/-- The text of a file, empty if it cannot be read. -/
def fileText (file : Option ByteArray) : String := (file.bind String.fromUTF8?).getD ""

/-- `project`: the timeline after it. -/
def projectTimeline (s : State) (file : Option ByteArray) : ByteArray :=
  (String.ofList (projectChars s (fileText file).toList)).toByteArray

/-- What a projection into a file that is shared with a user should do. -/
structure Projected (s : State) (file : Option ByteArray) : Prop where
  /-- Without a change of the ledger a second projection changes nothing. -/
  idempotent : projectTimeline s (some (projectTimeline s file)) = projectTimeline s file
  /-- What is before and behind the markers stays, and the block between them is the new one. -/
  replaced : ∀ pre block post, (fileText file).toList = pre ++ beginMarker.toList ++ block ++ endMarker.toList ++ post →
    findChars beginMarker.toList (fileText file).toList = some pre.length →
    findChars endMarker.toList (block ++ endMarker.toList ++ post) = some block.length →
    (fileText (some (projectTimeline s file))).toList =
      pre ++ beginMarker.toList ++ blockChars s ++ endMarker.toList ++ post

theorem fileText_projectTimeline (s : State) (file : Option ByteArray) :
    (fileText (some (projectTimeline s file))).toList = projectChars s (fileText file).toList := by
  rw [fileText, Option.bind_some, projectTimeline, fromUTF8?_toByteArray, Option.getD_some, String.toList_ofList]

/-- What is kept after a projection is what was kept before it, iff a second projection changes nothing. -/
theorem projectTimeline_eq_iff (s : State) (file : Option ByteArray) :
    projectTimeline s (some (projectTimeline s file)) = projectTimeline s file ↔
      keptChars (projectChars s (fileText file).toList) = keptChars (fileText file).toList := by
  rw [projectTimeline, fileText_projectTimeline, projectTimeline, String.toByteArray_inj, String.ofList_inj,
    projectChars, projectChars]
  exact List.append_left_inj _

/-! ## The block never stays in its place -/

theorem endMarker_tail : ∀ j < endMarker.toList.length + 1, 0 < j →
    ((endMarker.toList ++ ['\n']).drop j).head? ≠ some '<' := by decide

/-- A word from one marker to the other cannot be turned into a block with a newline behind it: the part that changes
sides would hold the end marker, or start inside of it. -/
theorem not_rotation {x w u v : List Char} (hbegin : beginMarker.toList <+: x) (hend : endMarker.toList <:+ x)
    (hfirst : ∀ i, i + endMarker.toList.length < x.length → ¬endMarker.toList <+: x.drop i) (hx : x = u ++ v)
    (ht : w ++ (endMarker.toList ++ ['\n']) = v ++ u) : False := by
  have hlast : x.getLast? = some '>' := by
    obtain ⟨y, rfl⟩ := hend
    rw [List.getLast?_append_of_ne_nil _ (by decide)]
    rfl
  cases u with
  | nil =>
    -- Nothing changes sides, but one word ends in a marker and the other one in a newline.
    rw [List.append_nil] at ht
    rw [hx, List.nil_append, ← ht, ← List.append_assoc, List.getLast?_concat] at hlast
    exact absurd hlast (by decide)
  | cons c u =>
    have hhead : c = '<' := by
      obtain ⟨y, rfl⟩ := hbegin
      have hc := congrArg List.head? hx
      exact (Option.some.inj hc).symm
    rcases Nat.lt_or_ge endMarker.toList.length (c :: u).length with hlong | hshort
    · -- The part holds the end marker.
      have hsuffix : endMarker.toList ++ ['\n'] <:+ c :: u := by
        refine List.suffix_of_suffix_length_le ⟨w, ht⟩ ⟨v, rfl⟩ ?_
        rw [List.length_append, List.length_singleton]
        omega
      obtain ⟨y, hy⟩ := hsuffix
      refine hfirst y.length ?_ ⟨'\n' :: v, ?_⟩
      · rw [hx, ← hy, List.length_append, List.length_append, List.length_append, List.length_singleton]
        omega
      · rw [hx, ← hy, List.append_assoc, List.drop_left, List.append_assoc]
        rfl
    · -- The part starts inside the end marker.
      have hsuffix : c :: u <:+ endMarker.toList ++ ['\n'] := by
        refine List.suffix_of_suffix_length_le ⟨v, rfl⟩ ⟨w, ht⟩ ?_
        rw [List.length_append, List.length_singleton]
        omega
      obtain ⟨y, hy⟩ := hsuffix
      have hlen := congrArg List.length hy
      rw [List.length_append, List.length_append, List.length_singleton] at hlen
      have htail := endMarker_tail y.length (by rw [List.length_cons] at hlen; omega) (by omega)
      rw [← hy, List.drop_left, hhead] at htail
      exact htail rfl

/-- What is kept of a text with a block behind it is not that text. -/
theorem keptChars_append_ne (kept block : List Char) :
    keptChars (kept ++ (beginMarker.toList ++ block ++ endMarker.toList ++ ['\n'])) ≠ kept := by
  generalize hf : kept ++ (beginMarker.toList ++ block ++ endMarker.toList ++ ['\n']) = f
  have hlen : f.length = kept.length + (beginMarker.toList.length + block.length + endMarker.toList.length + 1) := by
    rw [← hf]
    simp only [List.length_append, List.length_singleton]
  obtain ⟨a, ha, hfinda⟩ := exists_findChars (m := kept.length) (show beginMarker.toList <+: f.drop kept.length by
      rw [← hf, List.drop_left, List.append_assoc, List.append_assoc]
      exact List.prefix_append _ _) (by omega)
  obtain ⟨b, -, hfindb⟩ := exists_findChars (m := (kept ++ (beginMarker.toList ++ block)).length)
    (show endMarker.toList <+: f.drop (kept ++ (beginMarker.toList ++ block)).length by
      rw [← hf, List.append_assoc _ endMarker.toList, ← List.append_assoc kept (_ ++ _), List.drop_left]
      exact List.prefix_append _ _)
    (by simp only [List.length_append]; omega)
  have hbegin := prefix_of_findChars hfinda
  have hend := prefix_of_findChars hfindb
  intro hkept
  rw [keptChars, hfinda, hfindb] at hkept
  dsimp only at hkept
  have hb : b + endMarker.toList.length ≤ f.length := by
    have h := hend.length_le
    rw [List.length_drop] at h
    have hpos : 0 < endMarker.toList.length := by decide
    omega
  -- The word that is cut out is as long as the block that is put behind.
  have hcut : b + endMarker.toList.length =
      a + (beginMarker.toList.length + block.length + endMarker.toList.length + 1) := by
    have h := congrArg List.length hkept
    rw [List.length_append, List.length_take, List.length_drop] at h
    omega
  generalize hx : (f.drop a).take (beginMarker.toList.length + block.length + endMarker.toList.length + 1) = x
  have hxlen : x.length = beginMarker.toList.length + block.length + endMarker.toList.length + 1 := by
    rw [← hx, List.length_take, List.length_drop]
    omega
  have hdrop : f.drop a = x ++ f.drop (b + endMarker.toList.length) := by
    rw [hcut, ← List.drop_drop, ← hx, List.take_append_drop]
  have hrotate : f.drop (b + endMarker.toList.length) ++ (beginMarker.toList ++ block ++ endMarker.toList ++ ['\n']) =
      x ++ f.drop (b + endMarker.toList.length) := by
    have h : f.take a ++ (f.drop (b + endMarker.toList.length) ++
        (beginMarker.toList ++ block ++ endMarker.toList ++ ['\n'])) =
        f.take a ++ (x ++ f.drop (b + endMarker.toList.length)) := by
      rw [← hdrop, List.take_append_drop, ← List.append_assoc, hkept, hf]
    exact List.append_cancel_left h
  obtain ⟨u, v, hxuv, ht⟩ := exists_rotation hrotate
  refine not_rotation (w := beginMarker.toList ++ block) ?_ ?_ ?_ hxuv ?_
  · refine List.prefix_of_prefix_length_le hbegin ⟨_, hdrop.symm⟩ ?_
    omega
  · refine ⟨x.take (x.length - endMarker.toList.length), ?_⟩
    have hlast : endMarker.toList = x.drop (x.length - endMarker.toList.length) := by
      have hpre : x.drop (x.length - endMarker.toList.length) <+: f.drop b := by
        have hsplit : f.drop b = (f.drop a).drop (x.length - endMarker.toList.length) := by
          rw [List.drop_drop]
          congr 1
          omega
        rw [hsplit, hdrop, List.drop_append_of_le_length (Nat.sub_le _ _)]
        exact List.prefix_append _ _
      refine (List.prefix_of_prefix_length_le hend hpre ?_).eq_of_length ?_ <;> rw [List.length_drop] <;> omega
    exact (congrArg (x.take (x.length - endMarker.toList.length) ++ ·) hlast).trans (List.take_append_drop _ _)
  · intro i hi hpre
    refine not_prefix_of_lt hfindb (m := a + i) (by omega) ?_
    rw [← List.drop_drop, hdrop, List.drop_append_of_le_length (by omega)]
    exact hpre.trans (List.prefix_append _ _)
  · rw [← ht, List.append_assoc (beginMarker.toList ++ block)]

/-- A second projection always changes the timeline: it is longer by a line, or the block has moved. -/
theorem not_projected (s : State) (file : Option ByteArray) : ¬Projected s file := fun h =>
  keptChars_append_ne _ _ ((projectTimeline_eq_iff s file).mp h.idempotent)

/-- A ledger without any receipts. -/
def freshLedger : State := ⟨⟨"project:a", "archive", []⟩, [], []⟩

theorem fresh_timelineBody : timelineBody freshLedger = "" := by
  simp only [timelineBody, freshLedger, List.map_nil, List.append_nil, List.mergeSort_nil]
  rfl

/-- The timeline of a fresh ledger as `init` left it gets a second newline. -/
theorem fresh_timeline_grows : ¬Projected freshLedger (some (projectTimeline freshLedger none)) := by
  intro h
  have hkept := (projectTimeline_eq_iff _ _).mp h.idempotent
  rw [fileText_projectTimeline] at hkept
  have hblock : blockChars freshLedger = "\n# archive\n".toList := by
    rw [blockChars, fresh_timelineBody]
    rfl
  simp only [projectChars, blockLine, hblock] at hkept
  revert hkept
  decide +kernel

end Innen.Ledger
