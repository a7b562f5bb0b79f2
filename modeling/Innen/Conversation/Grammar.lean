import Innen.Conversation.Compact
import Innen.Json.Text
import Mathlib.Algebra.GroupWithZero.Nat
import Mathlib.Logic.Relation

/-!
# Decoding a conversation grammar

A packet has a dictionary, each entry of which is a literal string or joins literals and entries before it, and a page in
which markers stand for further joins. Entries that double each other grow exponentially, so every join is checked before
a fragment is appended to it, and what is expanded is charged against a fixed multiple of that bound.

What is accepted is within the bounds, hashes to what the packet says, and has a record for every row
(`decode_safe`).
-/

namespace Innen.Conversation.Grammar

open Common

/-! ## The decoder -/

/-- `MAX_BYTES`. -/
def maxBytes : ℕ := 2 * 1024 * 1024

/-- `MAX_RULES`. -/
def maxRules : ℕ := 24

/-- `MAX_ATOMS`. -/
def maxAtoms : ℕ := 32000

/-- `ENCODING`. -/
def encoding : String := "innen.conversation-grammar.v1"

/-- What a part of a join stands for. -/
def fragment (prior : List String) (part : Value) : Except String String :=
  match part.asStr? with
  | some s => .ok s
  | none => do
    let i ← okOr part.asU64? "invalid grammar reference"
    okOr prior[i]? "forward, missing or cyclic reference"

/-- The loop of `join`. -/
def joinFrom (prior : List String) (text : String) : List Value → Except String String
  | [] => .ok text
  | part :: rest => do
    let fragment ← fragment prior part
    failIf (maxBytes < text.utf8ByteSize + fragment.utf8ByteSize) "expanded string exceeds bound"
    joinFrom prior (text ++ fragment) rest

/-- `join`. -/
def join (parts : List Value) (prior : List String) : Except String String := joinFrom prior "" parts

/-- The text of a dictionary entry. -/
def define (prior : List String) (definition : Value) : Except String String :=
  match definition.asStr? with
  | some s => .ok s
  | none => do
    let parts ← okOr definition.asArray? "invalid grammar definition"
    join parts prior

/-- The entries of a dictionary that are expanded, and their bytes. -/
structure Dictionary where
  prior : List String
  expansion : ℕ
deriving DecidableEq

/-- One entry more. -/
def Dictionary.add (d : Dictionary) (definition : Value) : Except String Dictionary := do
  let text ← define d.prior definition
  let expansion := d.expansion + text.utf8ByteSize
  failIf (maxBytes * 8 < expansion) "dictionary expansion exceeds bound"
  .ok ⟨d.prior ++ [text], expansion⟩

/-- Expand definitions in their order. -/
def expand (definitions : List Value) : Except String Dictionary := definitions.foldlM Dictionary.add ⟨[], 0⟩

section

variable {α β : Type}

/-- Change the result of a run that charges a budget. -/
def mapOk (f : α → β) (run : Except String α × ℕ) : Except String β × ℕ := (run.1.map f, run.2)

/-- Go on after a run that ends well, with what it leaves of the budget. -/
def andThen (first : Except String α × ℕ) (next : α → ℕ → Except String β × ℕ) : Except String β × ℕ :=
  match first with
  | (.error e, budget) => (.error e, budget)
  | (.ok a, budget) => next a budget

end

/-- Restore a marker. The budget that is charged is known also when it fails. -/
def restoreMarker (prior : List String) (ref : Value) (budget : ℕ) : Except String Value × ℕ :=
  match ref.asArray? with
  | none => (.error "invalid grammar join", budget)
  | some parts =>
    match join parts prior with
    | .error e => (.error e, budget)
    | .ok text =>
      if maxBytes * 8 < budget + text.utf8ByteSize then
        (.error "page expansion exceeds bound", budget + text.utf8ByteSize)
      else (.ok (.string text), budget + text.utf8ByteSize)

section

variable (key : String) (prior : List String)

mutual

/-- `restore`. -/
def restore : Value → ℕ → Except String Value × ℕ
  | .object fields, budget =>
    match Assoc.get? key fields with
    | some ref =>
      if fields.length = 1 then restoreMarker prior ref budget else (.error "ambiguous grammar marker", budget)
    | none => mapOk Value.object (restoreFields fields budget)
  | .array items, budget => mapOk Value.array (restoreItems items budget)
  | v, budget => (.ok v, budget)

/-- `restore` on items. -/
def restoreItems : List Value → ℕ → Except String (List Value) × ℕ
  | [], budget => (.ok [], budget)
  | v :: rest, budget => andThen (restore v budget) fun v budget => mapOk (v :: ·) (restoreItems rest budget)

/-- `restore` on fields. -/
def restoreFields : Fields → ℕ → Except String Fields × ℕ
  | [], budget => (.ok [], budget)
  | (k, v) :: rest, budget =>
    andThen (restore v budget) fun v budget => mapOk ((k, v) :: ·) (restoreFields rest budget)

end

end

section

variable (sha256Hex : String → String) (floatText : UInt64 → String)

/-- Decode a packet of the grammar. -/
def decodePacket (packet : Value) : Except String Value := do
  let key ← okOr (packet.index "join_key").asStr? "missing join key"
  let definitions ← okOr (packet.index "dictionary").asArray? "missing dictionary"
  failIf (maxAtoms + maxRules < definitions.length) "dictionary exceeds bound"
  let dictionary ← expand definitions
  let page ← okOr (packet.get? "page") "missing page"
  let page ← (restore key dictionary.prior page 0).1
  let original ← Conversation.decode page
  failIf ((packet.index "source_sha256").asStr? ≠ some (sha256Hex (original.toText floatText)))
    "conversation source hash mismatch"
  .ok original

/-- `grammar::decode`. -/
def decode (packet : Value) : Except String Value :=
  if encodingOf packet ≠ some encoding then Conversation.decode packet
  else decodePacket sha256Hex floatText packet

end

/-! ## Joins -/

/-- What a part of a join stands for, when only the first entries may be used. -/
def IsFragment (prior : List String) (count : ℕ) (part : Value) (text : String) : Prop :=
  part = .string text ∨ ∃ j, part.asU64? = some j ∧ j < count ∧ prior[j]? = some text

/-- The concatenation of parts, within the bound. -/
def IsJoin (prior : List String) (count : ℕ) (parts : List Value) (text : String) : Prop :=
  ∃ fragments, List.Forall₂ (IsFragment prior count) parts fragments ∧ text = String.join fragments ∧
    text.utf8ByteSize ≤ maxBytes

theorem isFragment_fragment {prior : List String} {part : Value} {text : String} (h : fragment prior part = .ok text) :
    IsFragment prior prior.length part text := by
  rw [fragment] at h
  split at h
  · rename_i s hs
    obtain rfl := Except.ok.inj h
    exact .inl (Value.asStr?_eq_some.mp hs)
  · obtain ⟨i, hi, hprior⟩ := bind_eq_ok.mp h
    rw [okOr_eq_ok] at hi hprior
    exact .inr ⟨i, hi, (List.getElem?_eq_some_iff.mp hprior).1, hprior⟩

/-- A join never grows beyond the bound. -/
theorem joinFrom_eq_ok {prior : List String} {text joined : String} {parts : List Value}
    (h : joinFrom prior text parts = .ok joined) (htext : text.utf8ByteSize ≤ maxBytes) :
    ∃ fragments, List.Forall₂ (IsFragment prior prior.length) parts fragments ∧
      joined = text ++ String.join fragments ∧ joined.utf8ByteSize ≤ maxBytes := by
  induction parts generalizing text with
  | nil =>
    obtain rfl := Except.ok.inj h
    exact ⟨[], .nil, by simp, htext⟩
  | cons part rest ih =>
    rw [joinFrom] at h
    obtain ⟨piece, hpiece, h⟩ := bind_eq_ok.mp h
    obtain ⟨_, hbound, h⟩ := bind_eq_ok.mp h
    have hfits : (text ++ piece).utf8ByteSize ≤ maxBytes := by
      rw [String.utf8ByteSize_append]
      exact Nat.le_of_not_lt (failIf_eq_ok.mp hbound)
    obtain ⟨fragments, hall, hjoined, hsize⟩ := ih h hfits
    refine ⟨piece :: fragments, .cons (isFragment_fragment hpiece) hall, ?_, hsize⟩
    rw [hjoined, String.append_assoc, String.join_cons]

theorem isJoin_join {prior : List String} {parts : List Value} {text : String} (h : join parts prior = .ok text) :
    IsJoin prior prior.length parts text := by
  obtain ⟨fragments, hall, hjoined, hsize⟩ := joinFrom_eq_ok h (Nat.zero_le _)
  exact ⟨fragments, hall, by rw [hjoined, String.empty_append], hsize⟩

/-! ## The dictionary -/

/-- An entry is a literal or a join of entries before it. -/
def IsEntry (prior : List String) (i : ℕ) (definition : Value) (text : String) : Prop :=
  definition = .string text ∨ ∃ parts, definition = .array parts ∧ IsJoin prior i parts text

/-- The definitions that are expanded. -/
structure Expanded (definitions : List Value) (d : Dictionary) : Prop where
  length_eq : d.prior.length = definitions.length
  entries : ∀ i definition, definitions[i]? = some definition →
    ∃ text, d.prior[i]? = some text ∧ IsEntry d.prior i definition text
  expansion_eq : d.expansion = (d.prior.map String.utf8ByteSize).sum
  expansion_le : d.expansion ≤ maxBytes * 8

theorem IsFragment.append {prior : List String} {count : ℕ} {part : Value} {text : String}
    (h : IsFragment prior count part text) (more : List String) : IsFragment (prior ++ more) count part text := by
  rcases h with h | ⟨j, hj, hlt, hprior⟩
  · exact .inl h
  · refine .inr ⟨j, hj, hlt, ?_⟩
    rw [List.getElem?_append_left (List.getElem?_eq_some_iff.mp hprior).1]
    exact hprior

theorem IsEntry.append {prior : List String} {i : ℕ} {definition : Value} {text : String}
    (h : IsEntry prior i definition text) (more : List String) : IsEntry (prior ++ more) i definition text := by
  rcases h with h | ⟨parts, hparts, fragments, hall, hjoin⟩
  · exact .inl h
  · exact .inr ⟨parts, hparts, fragments, hall.imp fun _ _ h => h.append more, hjoin⟩

theorem isEntry_define {prior : List String} {definition : Value} {text : String}
    (h : define prior definition = .ok text) : IsEntry prior prior.length definition text := by
  rw [define] at h
  split at h
  · rename_i s hs
    obtain rfl := Except.ok.inj h
    exact .inl (Value.asStr?_eq_some.mp hs)
  · obtain ⟨parts, hparts, hjoin⟩ := bind_eq_ok.mp h
    rw [okOr_eq_ok] at hparts
    cases definition with
    | array items =>
      obtain rfl := Option.some.inj hparts
      exact .inr ⟨items, rfl, isJoin_join hjoin⟩
    | _ => cases hparts

/-- One entry more is expanded. -/
theorem Expanded.add {definitions : List Value} {d d' : Dictionary} {definition : Value} (h : Expanded definitions d)
    (hadd : d.add definition = .ok d') : Expanded (definitions ++ [definition]) d' := by
  obtain ⟨text, htext, hadd⟩ := bind_eq_ok.mp hadd
  obtain ⟨_, hbound, hadd⟩ := bind_eq_ok.mp hadd
  obtain rfl := Except.ok.inj hadd
  refine ⟨?_, fun i earlier hi => ?_, ?_, Nat.le_of_not_lt (failIf_eq_ok.mp hbound)⟩
  · rw [List.length_append, List.length_append, h.length_eq, List.length_singleton, List.length_singleton]
  · rcases Nat.lt_trichotomy i definitions.length with hlt | rfl | hgt
    · rw [List.getElem?_append_left hlt] at hi
      obtain ⟨earlierText, hprior, hentry⟩ := h.entries i earlier hi
      refine ⟨earlierText, ?_, hentry.append [text]⟩
      rw [List.getElem?_append_left (List.getElem?_eq_some_iff.mp hprior).1]
      exact hprior
    · rw [List.getElem?_concat_length, Option.some.injEq] at hi
      subst hi
      rw [← h.length_eq]
      exact ⟨text, List.getElem?_concat_length, (isEntry_define htext).append [text]⟩
    · have hnone : (definitions ++ [definition])[i]? = none := by
        rw [List.getElem?_eq_none_iff, List.length_append, List.length_singleton]
        exact hgt
      rw [hnone] at hi
      cases hi
  · rw [List.map_append, List.sum_append, h.expansion_eq, List.map_singleton, List.sum_singleton]

/-- What the loop has expanded, wherever it is. -/
theorem expanded_expand {definitions : List Value} {d : Dictionary} (h : expand definitions = .ok d) :
    Expanded definitions d := by
  have hrun : ∀ (rest done : List Value) (d d' : Dictionary), Expanded done d →
      rest.foldlM Dictionary.add d = .ok d' → Expanded (done ++ rest) d' := by
    intro rest
    induction rest with
    | nil =>
      intro done d d' hdone h
      obtain rfl := Except.ok.inj h
      rw [List.append_nil]
      exact hdone
    | cons definition rest ih =>
      intro done d d' hdone h
      rw [List.foldlM_cons] at h
      obtain ⟨next, hnext, h⟩ := bind_eq_ok.mp h
      rw [List.append_cons]
      exact ih (done ++ [definition]) next d' (hdone.add hnext) h
  exact hrun definitions [] ⟨[], 0⟩ d ⟨rfl, fun _ _ hi => absurd hi (by simp), rfl, Nat.zero_le _⟩ h

/-! ## The page -/

section

variable (key : String)

mutual

/-- What stands under the markers of a value, in their order. -/
def markers : Value → List Value
  | .object fields =>
    match Assoc.get? key fields with
    | some ref => [ref]
    | none => fieldsMarkers fields
  | .array items => itemsMarkers items
  | _ => []

/-- `markers` on items. -/
def itemsMarkers : List Value → List Value
  | [] => []
  | v :: rest => markers v ++ itemsMarkers rest

/-- `markers` on fields. -/
def fieldsMarkers : Fields → List Value
  | [] => []
  | (_, v) :: rest => markers v ++ fieldsMarkers rest

end

end

/-- The string that a marker stands for. -/
def joined (prior : List String) (ref : Value) : Except String Value := do
  let parts ← okOr ref.asArray? "invalid grammar join"
  let text ← join parts prior
  .ok (.string text)

/-- The bytes that a marker stands for. -/
def Marks (prior : List String) (ref : Value) (text : String) : Prop :=
  ∃ parts, ref = .array parts ∧ IsJoin prior prior.length parts text

/-- What a run charges that restores something: never less than before and never more than one join above the bound. When it
ends well, the bound is kept, and what it charges are the bytes of all joins. -/
structure Run {α : Type} (prior : List String) (refs : List Value) (unmarked : Except String α) (before : ℕ)
    (run : Except String α × ℕ) : Prop where
  le : before ≤ run.2
  le_bound : run.2 ≤ max before (maxBytes * 8) + maxBytes
  ok : ∀ a, run.1 = .ok a → unmarked = .ok a ∧ run.2 ≤ max before (maxBytes * 8) ∧
    ∃ texts, List.Forall₂ (Marks prior) refs texts ∧ run.2 = before + (texts.map String.utf8ByteSize).sum

section

variable {α β γ : Type} {prior : List String} {refs refs' : List Value} {before : ℕ}

theorem Run.done (a : α) : Run prior [] (.ok a) before (.ok a, before) :=
  ⟨Nat.le_refl _, by omega, fun b hb => ⟨hb, le_max_left _ _, [], .nil, rfl⟩⟩

theorem Run.failed {unmarked : Except String α} (e : String) : Run prior refs unmarked before (.error e, before) :=
  ⟨Nat.le_refl _, by omega, fun b hb => by cases hb⟩

theorem Run.mapOk {unmarked : Except String α} {run : Except String α × ℕ} (h : Run prior refs unmarked before run)
    (f : α → β) : Run prior refs (unmarked.map f) before (Grammar.mapOk f run) := by
  refine ⟨h.le, h.le_bound, fun b hb => ?_⟩
  obtain ⟨result, after⟩ := run
  cases result with
  | error e => cases hb
  | ok a =>
    obtain ⟨hunmarked, hrest⟩ := h.ok a rfl
    obtain rfl := Except.ok.inj hb
    exact ⟨by rw [hunmarked]; rfl, hrest⟩

theorem Run.andThen {first : Except String α × ℕ} {next : ℕ → Except String β × ℕ} {unmarked : Except String α}
    {unmarked' : Except String β} (h : Run prior refs unmarked before first)
    (h' : ∀ budget, Run prior refs' unmarked' budget (next budget)) (f : α → β → γ) :
    Run prior (refs ++ refs') (do let a ← unmarked; let b ← unmarked'; .ok (f a b)) before
      (Grammar.andThen first fun a budget => Grammar.mapOk (f a) (next budget)) := by
  obtain ⟨result, after⟩ := first
  cases result with
  | error e => exact ⟨h.le, h.le_bound, fun c hc => by cases hc⟩
  | ok a =>
    obtain ⟨hunmarked, hafter, texts, htexts, hcharged⟩ := h.ok a rfl
    have hnext := h' after
    have hle : before ≤ after := h.le
    dsimp only at hafter hcharged
    refine ⟨hle.trans hnext.le, hnext.le_bound.trans ?_, fun c hc => ?_⟩
    · have hmax := max_le_max_right (maxBytes * 8) hafter
      rw [max_assoc, max_self] at hmax
      exact Nat.add_le_add_right hmax maxBytes
    · dsimp only [Grammar.andThen, Grammar.mapOk] at hc ⊢
      rcases hresult : (next after).1 with e | b
      · rw [hresult] at hc
        cases hc
      · rw [hresult] at hc
        obtain rfl := Except.ok.inj hc
        obtain ⟨hunmarked', hafter', texts', htexts', hcharged'⟩ := hnext.ok b hresult
        refine ⟨by rw [hunmarked, hunmarked']; rfl, hafter'.trans ?_, texts ++ texts', List.rel_append htexts htexts', ?_⟩
        · exact max_le hafter (le_max_right _ _)
        · rw [hcharged', hcharged, List.map_append, List.sum_append, Nat.add_assoc]

end

theorem run_restoreMarker (prior : List String) (ref : Value) (before : ℕ) :
    Run prior [ref] (joined prior ref) before (restoreMarker prior ref before) := by
  unfold restoreMarker joined
  cases ref with
  | array parts =>
    dsimp only [Value.asArray?_array, okOr_some]
    rcases hjoin : join parts prior with e | text
    · exact .failed e
    · have hjoined := isJoin_join hjoin
      have hsize : text.utf8ByteSize ≤ maxBytes := hjoined.choose_spec.2.2
      dsimp only
      split_ifs with hover
      · exact ⟨Nat.le_add_right _ _, Nat.add_le_add (le_max_left _ _) hsize, fun a ha => by cases ha⟩
      · refine ⟨Nat.le_add_right _ _, Nat.add_le_add (le_max_left _ _) hsize, fun a ha => ?_⟩
        have hvalue : joined prior (.array parts) = .ok a := bind_eq_ok.mpr 
          ⟨parts, rfl, bind_eq_ok.mpr ⟨text, hjoin, ha⟩⟩
        refine ⟨hvalue, (Nat.le_of_not_lt hover).trans (le_max_right _ _), [text], .cons ⟨parts, rfl, hjoined⟩ .nil, ?_⟩
        rw [List.map_singleton, List.sum_singleton]
  | _ => exact .failed _

theorem run_restoreItems {key : String} {prior : List String} {items : List Value}
    (h : ∀ v ∈ items, ∀ before, Run prior (markers key v) (v.unmark (joined prior) "ambiguous grammar marker" key) before
      (restore key prior v before)) (before : ℕ) :
    Run prior (itemsMarkers key items) (Value.unmarkItems (joined prior) "ambiguous grammar marker" key items) before
      (restoreItems key prior items before) := by
  induction items generalizing before with
  | nil => exact .done []
  | cons v rest ih =>
    exact (h v List.mem_cons_self before).andThen (ih fun w hw => h w (List.mem_cons_of_mem v hw)) List.cons

theorem run_restoreFields {key : String} {prior : List String} {fields : Fields}
    (h : ∀ e ∈ fields, ∀ before, Run prior (markers key e.2)
      (e.2.unmark (joined prior) "ambiguous grammar marker" key) before (restore key prior e.2 before)) (before : ℕ) :
    Run prior (fieldsMarkers key fields) (Value.unmarkFields (joined prior) "ambiguous grammar marker" key fields) before
      (restoreFields key prior fields before) := by
  induction fields generalizing before with
  | nil => exact .done []
  | cons e rest ih =>
    exact (h e List.mem_cons_self before).andThen (ih fun w hw => h w (List.mem_cons_of_mem e hw))
      fun v fields => (e.1, v) :: fields

/-- Restoring a page replaces each marker by its join, and charges all of them. -/
theorem run_restore (key : String) (prior : List String) (v : Value) (before : ℕ) :
    Run prior (markers key v) (v.unmark (joined prior) "ambiguous grammar marker" key) before
      (restore key prior v before) := by
  induction v using Value.induct generalizing before with
  | null => exact .done _
  | bool b => exact .done _
  | number n => exact .done _
  | string s => exact .done _
  | array items ih => exact (run_restoreItems ih before).mapOk Value.array
  | object fields ih =>
    rw [markers, Value.unmark, restore]
    rcases Assoc.get? key fields with _ | ref
    · exact (run_restoreFields ih before).mapOk Value.object
    · dsimp only
      split_ifs with hone
      · exact run_restoreMarker prior ref before
      · exact .failed _

/-! ## What is decoded -/

/-- A value and what is inside its wrapper. -/
def Wraps (outer inner : Value) : Prop := unwrap outer = .ok (some inner)

/-- A page as it is, or its rows as records: each row has a value for every field of its layout. -/
def IsPage (inner page : Value) : Prop :=
  (inner.get? "encoding" = none ∧ page = inner) ∨
    ∃ layouts rows records, encodingOf inner = some "innen.rows.v1" ∧ inner.index "layouts" = .array layouts ∧
      inner.index "rows" = .array rows ∧ page.index "records" = .array records ∧
      List.Forall₂ (fun row record => decodeRow layouts row = .ok record) rows records ∧
      ∀ row ∈ rows, ∃ line number values n layout fields, row = .array [line, number, .array values] ∧
        number.asU64? = some n ∧ layouts[n]? = some layout ∧ layout.index "fields" = .array fields ∧
        values.length = fields.length

/-- What `compact::decode` returns is the page under all wrappers. -/
theorem decode_eq_ok {value v : Value} (h : Conversation.decode value = .ok v) :
    ∃ inner, Relation.ReflTransGen Wraps value inner ∧ decodeRows inner = .ok v := by
  induction hnodes : value.nodes using Nat.strong_induction_on generalizing value with
  | _ nodes ih =>
    rcases hunwrap : unwrap value with e | _ | inner
    · rw [Conversation.decode] at h
      split at h
      · cases h
      · rename_i inner hinner
        rw [hunwrap] at hinner
        cases hinner
      · rename_i hnone
        rw [hunwrap] at hnone
        cases hnone
    · rw [decode_of_unwrap_none hunwrap] at h
      exact ⟨value, .refl, h⟩
    · rw [decode_of_unwrap hunwrap] at h
      obtain ⟨page, hpage, hrows⟩ := ih inner.nodes (hnodes ▸ nodes_unwrap hunwrap) h rfl
      exact ⟨page, .head hunwrap hpage, hrows⟩

/-- A row has a value for every field of its layout. -/
theorem fields_of_decodeRow {layouts : List Value} {row record : Value} (h : decodeRow layouts row = .ok record) :
    ∃ line number values n layout fields, row = .array [line, number, .array values] ∧
      number.asU64? = some n ∧ layouts[n]? = some layout ∧ layout.index "fields" = .array fields ∧
      values.length = fields.length := by
  unfold decodeRow at h
  split at h
  · rename_i line number values
    obtain ⟨_, -, h⟩ := bind_eq_ok.mp h
    obtain ⟨n, hn, h⟩ := bind_eq_ok.mp h
    obtain ⟨layout, hlayout, h⟩ := bind_eq_ok.mp h
    obtain ⟨fields, hfields, h⟩ := bind_eq_ok.mp h
    obtain ⟨items, hitems, -⟩ := bind_eq_ok.mp h
    rw [okOr_eq_ok] at hn hlayout hfields hitems
    obtain ⟨hvalues, hlength⟩ := Option.filter_eq_some_iff.mp hitems
    obtain rfl := Value.asArray?_eq_some.mp hvalues
    exact ⟨line, number, items, n, layout, fields, rfl, hn, hlayout, Value.asArray?_eq_some.mp hfields, of_decide_eq_true hlength⟩
  · cases h

/-- What is decoded of rows is a page with a record for each of them. -/
theorem isPage_decodeRows {inner page : Value} (h : decodeRows inner = .ok page) : IsPage inner page := by
  rw [decodeRows] at h
  split_ifs at h with hnone hencoding
  · obtain rfl := Except.ok.inj h
    exact .inl ⟨Option.isNone_iff_eq_none.mp hnone, rfl⟩
  · obtain ⟨layouts, hlayouts, h⟩ := bind_eq_ok.mp h
    obtain ⟨rows, hrows, h⟩ := bind_eq_ok.mp h
    obtain ⟨records, hrecords, h⟩ := bind_eq_ok.mp h
    obtain rfl := Except.ok.inj h
    rw [okOr_eq_ok, Value.asArray?_eq_some] at hlayouts hrows
    obtain ⟨hrowsEncoding, -⟩ := not_or.mp hencoding
    have hall := forall₂_of_mapM hrecords
    refine .inr ⟨layouts, rows, records, not_not.mp hrowsEncoding, hlayouts, hrows, ?_, hall, fun row hrow => ?_⟩
    · cases inner with
      | object fields => exact Value.index_set_self "records" _
      | _ => cases hrows
    · obtain ⟨record, -, hrecord⟩ := (mapM_ok hrecords).2 row hrow
      exact fields_of_decodeRow hrecord

/-- What a packet of the grammar was decoded from. -/
structure Decoded (sha256Hex : String → String) (floatText : UInt64 → String) (packet v : Value) : Prop where
  source : packet.index "source_sha256" = .string (sha256Hex (v.toText floatText))
  expanded : ∃ key definitions dictionary page restored inner, packet.index "join_key" = .string key ∧
    packet.index "dictionary" = .array definitions ∧ definitions.length ≤ maxAtoms + maxRules ∧
    Expanded definitions dictionary ∧ packet.get? "page" = some page ∧
    page.unmark (joined dictionary.prior) "ambiguous grammar marker" key = .ok restored ∧
    (∃ texts, List.Forall₂ (Marks dictionary.prior) (markers key page) texts ∧
      (texts.map String.utf8ByteSize).sum ≤ maxBytes * 8) ∧
    Relation.ReflTransGen Wraps restored inner ∧ IsPage inner v

section

variable (sha256Hex : String → String) (floatText : UInt64 → String)

theorem decoded_decodePacket {packet v : Value} (h : decodePacket sha256Hex floatText packet = .ok v) :
    Decoded sha256Hex floatText packet v := by
  obtain ⟨key, hkey, h⟩ := bind_eq_ok.mp h
  obtain ⟨definitions, hdefinitions, h⟩ := bind_eq_ok.mp h
  obtain ⟨_, hcount, h⟩ := bind_eq_ok.mp h
  obtain ⟨dictionary, hdictionary, h⟩ := bind_eq_ok.mp h
  obtain ⟨page, hpage, h⟩ := bind_eq_ok.mp h
  obtain ⟨restored, hrestored, h⟩ := bind_eq_ok.mp h
  obtain ⟨original, horiginal, h⟩ := bind_eq_ok.mp h
  obtain ⟨_, hsource, h⟩ := bind_eq_ok.mp h
  obtain rfl := Except.ok.inj h
  rw [okOr_eq_ok] at hkey hdefinitions hpage
  obtain ⟨hunmark, hbound, texts, htexts, hcharged⟩ := (run_restore key dictionary.prior page 0).ok restored hrestored
  obtain ⟨inner, hwraps, hrows⟩ := decode_eq_ok horiginal
  refine ⟨Value.asStr?_eq_some.mp (not_not.mp (failIf_eq_ok.mp hsource)), key, definitions, dictionary, page, restored, inner,
    Value.asStr?_eq_some.mp hkey, Value.asArray?_eq_some.mp hdefinitions, Nat.le_of_not_lt (failIf_eq_ok.mp hcount),
    expanded_expand hdictionary, hpage, hunmark, ⟨texts, htexts, ?_⟩, hwraps, isPage_decodeRows hrows⟩
  rw [Nat.zero_add] at hcharged
  rw [← hcharged]
  exact hbound.trans (max_le (Nat.zero_le _) (Nat.le_refl _))

/-- What a packet of the grammar decodes to is what its hash says, from entries that join earlier ones within the bounds. The
joins and definitions may be those of a run that fails later, and the budget that of a page that is rejected: no run restores
more than one join above the bound. Other pages are left to the compact layer. -/
theorem decode_safe (packet : Value) :
    (∀ prior parts text, join parts prior = .ok text → IsJoin prior prior.length parts text) ∧
      (∀ definitions dictionary, expand definitions = .ok dictionary → Expanded definitions dictionary) ∧
      (∀ key prior page, (restore key prior page 0).2 ≤ maxBytes * 9) ∧
      (∀ v, encodingOf packet = some encoding → decode sha256Hex floatText packet = .ok v →
        Decoded sha256Hex floatText packet v) ∧
      (encodingOf packet ≠ some encoding → decode sha256Hex floatText packet = Conversation.decode packet) := by
  refine ⟨fun prior parts text => isJoin_join, fun definitions dictionary => expanded_expand, fun key prior page => ?_,
    fun v hencoding h => ?_, fun h => if_pos h⟩
  · have hbound := (run_restore key prior page 0).le_bound
    rw [Nat.zero_max] at hbound
    exact hbound
  · rw [decode, if_neg (not_not.mpr hencoding)] at h
    exact decoded_decodePacket sha256Hex floatText h

/-- An ordinary page is decoded without a hash. -/
theorem unhashed : ¬∀ (sha256Hex : String → String) (floatText : UInt64 → String) (packet v : Value),
    decode sha256Hex floatText packet = .ok v →
      packet.index "source_sha256" = .string (sha256Hex (v.toText floatText)) := by
  intro h
  have hplain : decode (fun _ => "") (fun _ => "") (.object [("records", .array [])]) =
      .ok (.object [("records", .array [])]) := by
    rw [decode, if_pos (by decide), decode_of_unwrap_none rfl]
    rfl
  exact absurd (h _ _ _ _ hplain) (by decide)

end

end Innen.Conversation.Grammar
