import Innen.Common.Except
import Innen.Json.Text

/-!
# Bounded context packets

A request brings a stable prefix, a task, an ordered list of items and a token budget. The required
items always enter the packet, or the request fails; optional ones are tried by descending priority and
enter while the rendered packet stays within the budget.

The tokenizer, hashing and the text of an `f64` are left to a `Platform`.
-/

namespace Innen.Middleware

open Innen.Common

/-! ## Requests and results -/

/-- `MAX_ITEMS`. -/
def maxItems : ℕ := 256

/-- One caller-selected piece of context. -/
structure Item where
  id : String
  content : Value
  required : Bool
  /-- Higher values are selected first among optional items. -/
  priority : Option ℤ

/-- What a caller asks for. -/
structure Request where
  stablePrefix : Value
  task : Value
  items : List Item
  budgetTokens : ℕ

/-- How to get at an item the caller supplied. -/
structure Expansion where
  id : String
  selected : Bool
  contentSha256 : String
  referenceTokens : ℕ

/-- What `prepare` returns. -/
structure Prepared where
  resolution : String
  sourceSha256 : String
  referenceTokenizer : String
  budgetTokens : ℕ
  beforeReferenceTokens : ℕ
  afterReferenceTokens : ℕ
  packet : Value
  selectedIds : List String
  omittedIds : List String
  expansions : List Expansion
  selectionPolicy : String
  packetJson : String

/-- Why a request fails. -/
inductive Error where
  | invalidItems
  | tooManyItems (actual max : ℕ)
  | requiredDoesNotFit (budgetTokens requiredReferenceTokens : ℕ) (requiredIds : List String)
  | token (message : String)
deriving DecidableEq

/-- The text of an error (`Display`). -/
def Error.text : Error → String
  | .invalidItems => "middleware request requires nonempty unique item ids"
  | .tooManyItems actual max =>
    "middleware request has " ++ toString actual ++ " items, exceeding the " ++ toString max ++ " item bound"
  | .requiredDoesNotFit budgetTokens requiredReferenceTokens _ =>
    "required context needs " ++ toString requiredReferenceTokens ++
      " reference tokens, exceeding budget " ++ toString budgetTokens
  | .token message => "tokenization failed: " ++ message

/-- The library functions the middleware calls. -/
structure Platform where
  /-- The shortest decimal text of a finite `f64`. -/
  floatText : UInt64 → String
  /-- The bits of an `f64` after it was printed and parsed again. -/
  reparseFloat : UInt64 → UInt64
  /-- `sha256_hex`. -/
  sha256Hex : ByteArray → String
  /-- `tokens_text`: the reference tokens of a text, or why the tokenizer could not be loaded. -/
  tokensText : String → Except String ℕ

variable (P : Platform)

/-- `tokens`: the reference tokens of a value's text. -/
def tokens (v : Value) : Except String ℕ := P.tokensText (v.toText P.floatText)

/-- `tokens_text` with the error of this module. -/
def countText (text : String) : Except Error ℕ := (P.tokensText text).mapError .token

/-! ## Serialization -/

/-- An item as a struct, in declaration order. -/
def Item.fields (item : Item) : Fields :=
  [("id", .string item.id), ("content", item.content), ("required", .bool item.required),
    ("priority", Value.optional Value.int item.priority)]

/-- `source_sha256`: the hash of the request's JSON text. -/
def sourceSha256 (request : Request) : String :=
  P.sha256Hex (structText P.floatText [("stable_prefix", request.stablePrefix), ("task", request.task),
    ("items", .array (request.items.map fun item => .object item.fields)),
    ("budget_tokens", .nat request.budgetTokens)]).toUTF8

/-- The selected items, in input order. -/
def selectedItems (request : Request) (selected : SortedSet ℕ) : List Item :=
  (request.items.zipIdx.filter fun e => e.2 ∈ selected).map Prod.fst

/-- The fields of a packet of the given items; `render` makes an object of the fields of an item. -/
def packetFields (render : Fields → Value) (request : Request) (items : List Item) : Fields :=
  [("stable_prefix", request.stablePrefix), ("task", request.task),
    ("items", .array (items.map fun item => render [("id", .string item.id), ("content", item.content)]))]

/-- `packet_json`: the text of the packet, with the fields of every struct in declaration order. -/
def packetJson (request : Request) (selected : SortedSet ℕ) : String :=
  structText P.floatText (packetFields .object request (selectedItems request selected))

/-- The packet text parsed back. The caller's request was parsed under the library's nesting limit and
nothing in the packet is nested deeper than there, so parsing succeeds; it sorts the fields of every
struct by key and rounds floats. -/
def packetOf (request : Request) (selected : SortedSet ℕ) : Value :=
  (Value.mkObject (packetFields Value.mkObject request (selectedItems request selected))).mapFloats
    P.reparseFloat

/-! ## Preparing a packet -/

/-- Every id is nonempty and differs from the ids before it. -/
def validIds : SortedSet String → List Item → Bool
  | _, [] => true
  | ids, item :: rest => item.id ≠ "" && item.id ∉ ids && validIds (ids.insert item.id) rest

/-- `validate_items`. -/
def validateItems (request : Request) : Except Error Unit :=
  if maxItems < request.items.length then .error (.tooManyItems request.items.length maxItems)
  else if validIds ∅ request.items then .ok ()
  else .error .invalidItems

/-- The ids of the items at the given positions. -/
def idsAt (request : Request) (positions : SortedSet ℕ) : List String :=
  positions.elems.filterMap fun i => (request.items[i]?).map (·.id)

/-- The order in which optional items are tried: by descending priority, then by position. -/
def triedBefore (a b : Item × ℕ) : Bool :=
  b.1.priority.getD 0 < a.1.priority.getD 0 ∨ (a.1.priority.getD 0 = b.1.priority.getD 0 ∧ a.2 ≤ b.2)

/-- The positions of the items that satisfy a condition. -/
def positionsWhere (request : Request) (p : Item → Bool) : SortedSet ℕ :=
  SortedSet.ofList ((request.items.zipIdx.filter fun e => p e.1).map Prod.snd)

/-- Add an optional item when the packet with it stays within the budget. -/
def tryOptional (request : Request) (selected : SortedSet ℕ) (e : Item × ℕ) :
    Except Error (SortedSet ℕ) := do
  let candidate := selected.insert e.2
  let count ← countText P (packetJson P request candidate)
  .ok (if count ≤ request.budgetTokens then candidate else selected)

/-- The expansion of one item. -/
def expansionOf (selected : SortedSet ℕ) (e : Item × ℕ) : Except Error Expansion := do
  let count ← (tokens P e.1.content).mapError .token
  .ok ⟨e.1.id, e.2 ∈ selected, P.sha256Hex (e.1.content.toText P.floatText).toUTF8, count⟩

/-- `middleware::prepare`. -/
def prepare (request : Request) : Except Error Prepared := do
  validateItems request
  let all := positionsWhere request fun _ => true
  let before ← countText P (packetJson P request all)
  let required := positionsWhere request (·.required)
  let requiredTokens ← countText P (packetJson P request required)
  failIf (request.budgetTokens < requiredTokens)
    (.requiredDoesNotFit request.budgetTokens requiredTokens (idsAt request required))
  let optional := (request.items.zipIdx.filter fun e => !e.1.required).mergeSort triedBefore
  let selected ← optional.foldlM (tryOptional P request) required
  let after ← countText P (packetJson P request selected)
  let expansions ← request.items.zipIdx.mapM (expansionOf P selected)
  .ok
    { resolution := "prepared"
      sourceSha256 := sourceSha256 P request
      referenceTokenizer := "o200k_base"
      budgetTokens := request.budgetTokens
      beforeReferenceTokens := before
      afterReferenceTokens := after
      packet := packetOf P request selected
      selectedIds := idsAt request selected
      omittedIds := (request.items.zipIdx.filter fun e => e.2 ∉ selected).map (·.1.id)
      expansions
      selectionPolicy := "required_then_optional_descending_caller_priority_then_input_order"
      packetJson := packetJson P request selected }

/-! ## What enters the packet -/

theorem mem_positionsWhere {request : Request} {p : Item → Bool} {i : ℕ} :
    i ∈ positionsWhere request p ↔ ∃ item, request.items[i]? = some item ∧ p item = true := by
  simp only [positionsWhere, SortedSet.mem_ofList, List.mem_map, List.mem_filter, Prod.exists,
    List.mem_zipIdx_iff_getElem?]
  constructor
  · rintro ⟨item, j, ⟨hget, hp⟩, rfl⟩
    exact ⟨item, hget, hp⟩
  · rintro ⟨item, hget, hp⟩
    exact ⟨item, i, ⟨hget, hp⟩, rfl⟩

/-- A packet is built of some selection that holds every required item. -/
theorem prepare_selection {request : Request} {prepared : Prepared}
    (h : prepare P request = .ok prepared) :
    ∃ selected, positionsWhere request (·.required) ⊆ selected ∧
      prepared.packet = packetOf P request selected ∧
      prepared.packetJson = packetJson P request selected := by
  simp only [prepare, bind_eq_ok] at h
  obtain ⟨_, -, before, -, requiredTokens, -, _, -, selected, hselected, after, -, expansions, -, h⟩ := h
  obtain rfl := Except.ok.inj h
  refine ⟨selected, ?_, rfl, rfl⟩
  refine foldlM_ok_induction (fun s => positionsWhere request (·.required) ⊆ s) ?_ (fun _ h => h) hselected
  intro s e s' _ hs hstep
  simp only [tryOptional, bind_eq_ok] at hstep
  obtain ⟨count, -, hstep⟩ := hstep
  obtain rfl := Except.ok.inj hstep
  split
  · exact fun i hi => SortedSet.mem_insert.mpr (.inr (hs i hi))
  · exact hs

theorem selectedItems_of_subset {request : Request} {selected : SortedSet ℕ}
    (hall : ∀ item ∈ request.items, item.required = true)
    (hsub : positionsWhere request (·.required) ⊆ selected) :
    selectedItems request selected = request.items := by
  have hkeep : (request.items.zipIdx.filter fun e => e.2 ∈ selected) = request.items.zipIdx := by
    rw [List.filter_eq_self]
    intro e he
    rw [List.mem_zipIdx_iff_getElem?] at he
    exact decide_eq_true (hsub _ (mem_positionsWhere.mpr ⟨e.1, he, hall _ (List.mem_of_getElem? he)⟩))
  rw [selectedItems, hkeep, List.zipIdx_map_fst]

/-- When every item is required, the packet holds all of them. -/
theorem prepare_of_required {request : Request} {prepared : Prepared}
    (h : prepare P request = .ok prepared) (hall : ∀ item ∈ request.items, item.required = true) :
    prepared.packet = (Value.mkObject (packetFields Value.mkObject request request.items)).mapFloats
        P.reparseFloat ∧
      prepared.packetJson = structText P.floatText (packetFields .object request request.items) := by
  obtain ⟨selected, hsub, hpacket, hjson⟩ := prepare_selection P h
  have hitems := selectedItems_of_subset hall hsub
  rw [hpacket, hjson, packetOf, packetJson, hitems]
  exact ⟨rfl, rfl⟩

end Innen.Middleware
