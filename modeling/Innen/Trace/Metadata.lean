import Innen.Trace.Routes

/-!
# Sessions that a source names

A JSON source names the sessions that it comes from in certain fields, other sources name them on lines of their own. An
id that merely occurs in the text is no reference. What is beyond the limits is noted.
-/

namespace Innen.Trace

open Common

/-- `u8::is_ascii_hexdigit` on a character. -/
def isHexDigit (c : Char) : Bool := c.isDigit || ('a' ≤ c && c ≤ 'f') || ('A' ≤ c && c ≤ 'F')

/-- `valid_session_id`. -/
def validSessionId (s : String) : Bool :=
  (s.length == 36 &&
      s.toList.zipIdx.all fun e => if e.2 ∈ [8, 13, 18, 23] then e.1 == '-' else isHexDigit e.1) ||
    (startsWith s "ses_" && 5 ≤ s.length && s.length ≤ 128 && s.toList.all fun c => c.isAlphanum || c == '_')

/-- `Reference`. -/
structure Reference where
  locator : Locator
  pointer : String
deriving DecidableEq

/-- `Metadata`. -/
structure Metadata where
  references : List Reference
  truncated : Bool

/-- `MAX_REFERENCES`. -/
def maxReferences : ℕ := 32

/-- `MAX_DEPTH`. -/
def maxReferenceDepth : ℕ := 4

/-- `Metadata::add`. -/
def Metadata.add (m : Metadata) (source id pointer : String) : Metadata :=
  if validSessionId id = false then m
  else if maxReferences ≤ m.references.length then { m with truncated := true }
  else if m.references.any fun r => r.locator = .conversation source id none then m
  else { m with references := m.references ++ [⟨.conversation source id none, pointer⟩] }

/-- The provider that a JSON object names. -/
def providerOf (object : Value) : String :=
  ((["source", "tool", "provider"].filterMap fun key => ((object.get? key).bind Value.asStr?).map asciiLower).find?
    (· ∈ knownSources)).getD "auto"

/-- `walk`, for so many levels. -/
def walkMetadata : ℕ → Value → String → Metadata → Metadata
  | 0, _, _, m => { m with truncated := true }
  | levels + 1, value, pointer, m =>
    match value with
    | .array items =>
      let out := ((items.take maxReferences).zipIdx).foldl
        (fun m item => walkMetadata levels item.1 (pointer ++ "/" ++ toString item.2) m) m
      { out with truncated := out.truncated || decide (maxReferences < items.length) }
    | .object _ =>
      let out := ["session_id", "conversation_id", "origin_session_id"].foldl
        (fun m key => match (value.get? key).bind Value.asStr? with
          | some id => m.add (providerOf value) id (pointer ++ "/" ++ key)
          | none => m) m
      ["source", "sources", "provenance", "conversation", "conversations", "origin"].foldl
        (fun m key => match value.get? key with
          | some child =>
            if child.asObject?.isSome ∨ child.asArray?.isSome then walkMetadata levels child (pointer ++ "/" ++ key) m
            else m
          | none => m) out
    | _ => m

/-- The texts in front of a session id on a line. -/
def sessionPrefixes : List String :=
  ["native session:", "native session：", "session_id:", "session_id：", "conversation_id:"]

/-- The id behind the start of a line. -/
def idBehind (tail : List Char) : String :=
  String.ofList ((tail.dropWhile fun c => isWhitespace c || c == '\x60' || c == '\x27' || c == '\x22').takeWhile
    fun c => c.isAlphanum || c == '-' || c == '_')

/-- Read one line. -/
def lineReferences (m : Metadata) (entry : String × ℕ) : Metadata :=
  let line := trim entry.1
  sessionPrefixes.foldl
    (fun m start =>
      if startsWith (asciiLower line) start then
        m.add "auto" (idBehind (line.toList.drop start.length)) ("/line/" ++ toString (entry.2 + 1))
      else m) m

/-- `references`. -/
def references (fromJson : String → Option Value) (text : String) : Metadata :=
  match fromJson text with
  | some value => walkMetadata (maxReferenceDepth + 1) value "" ⟨[], false⟩
  | none => (lines text).zipIdx.foldl lineReferences ⟨[], false⟩

/-! ## Limits -/

/-- No more sessions are named than may be. -/
theorem length_add_le {m : Metadata} (h : m.references.length ≤ maxReferences) (source id pointer : String) :
    (m.add source id pointer).references.length ≤ maxReferences := by
  unfold Metadata.add
  split_ifs with hvalid hfull hany
  · exact h
  · exact h
  · exact h
  · rw [List.length_append, List.length_singleton]
    exact Nat.lt_of_not_le hfull

theorem length_foldl_le {α : Type*} {f : Metadata → α → Metadata} (items : List α) {m : Metadata}
    (hf : ∀ m, m.references.length ≤ maxReferences → ∀ a, (f m a).references.length ≤ maxReferences)
    (h : m.references.length ≤ maxReferences) : (items.foldl f m).references.length ≤ maxReferences :=
  List.foldlRecOn (motive := fun m => m.references.length ≤ maxReferences) items f h fun m hm a _ => hf m hm a

theorem length_walkMetadata_le (levels : ℕ) (value : Value) (pointer : String) {m : Metadata}
    (h : m.references.length ≤ maxReferences) :
    (walkMetadata levels value pointer m).references.length ≤ maxReferences := by
  induction levels generalizing value pointer m with
  | zero => exact h
  | succ levels ih =>
    unfold walkMetadata
    split
    · exact length_foldl_le _ (fun m hm item => ih item.1 _ hm) h
    · refine length_foldl_le _ (fun m hm key => ?_) (length_foldl_le _ (fun m hm key => ?_) h)
      · split
        · split_ifs
          · exact ih _ _ hm
          · exact hm
        · exact hm
      · split
        · exact length_add_le hm _ _ _
        · exact hm
    · exact h

/-- A source names no more sessions than may be. -/
theorem length_references_le (fromJson : String → Option Value) (text : String) :
    (references fromJson text).references.length ≤ maxReferences := by
  unfold references
  split
  · exact length_walkMetadata_le _ _ _ (Nat.zero_le _)
  · refine length_foldl_le _ (fun m hm entry => length_foldl_le _ (fun m hm start => ?_) hm) (Nat.zero_le _)
    split_ifs
    · exact length_add_le hm _ _ _
    · exact hm

end Innen.Trace
