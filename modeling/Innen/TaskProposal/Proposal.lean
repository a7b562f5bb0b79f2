import Innen.Common.Places
import Innen.TaskProposal.Context

/-!
# Task proposals and their citations

A proposal comes from a model and is not trusted. Each of its requirements and unknowns cites sources of the context,
by an evidence ID or by a quote. A quote is looked up in the text a pointer names and has to stand there once, also
when places may overlap (`checks_quote`); neither kind of citation may name an event of the control plane.
-/

namespace Innen.TaskProposal

open Innen.Common Innen.EvidenceClosure

/-! ## Proposals -/

/-- A citation as the model wrote it; fields it left out are empty. -/
structure Citation where
  source : String
  pointer : String
  quote : String
  evidenceId : Option String

/-- A statement with its citations. -/
structure Statement where
  text : String
  citations : List Citation

/-- A requirement with the alternative sets of sources that would support it. -/
structure ProposedFact where
  id : String
  text : String
  citations : List Citation
  alternatives : List (SortedSet String)

/-- What the model thinks of the evidence. -/
inductive Disposition where
  | proceedWithInvestigation
  | needsMoreEvidence
  | conflictingEvidence
deriving DecidableEq

/-- The text of a disposition. -/
def Disposition.text : Disposition → String
  | .proceedWithInvestigation => "proceed_with_investigation"
  | .needsMoreEvidence => "needs_more_evidence"
  | .conflictingEvidence => "conflicting_evidence"

/-- A proposal. -/
structure Proposal where
  contextSha256 : String
  citationContextSha256 : Option String
  question : String
  goal : String
  disposition : Disposition
  requirements : List ProposedFact
  unknowns : List Statement

/-! ## Serialization -/

/-- A field that is left out when it is empty. -/
def filledField (key value : String) : Fields := if value = "" then [] else [(key, .string value)]

/-- The fields of a citation in declaration order. -/
def Citation.fields (c : Citation) : Fields :=
  filledField "source" c.source ++ filledField "pointer" c.pointer ++ filledField "quote" c.quote ++
    presentField "evidence_id" c.evidenceId

/-- Citations as a list. -/
def citationsJson (cites : List Citation) : Value := .array (cites.map fun c => .object c.fields)

/-- The fields of a statement in declaration order. -/
def Statement.fields (s : Statement) : Fields := [("text", .string s.text), ("citations", citationsJson s.citations)]

/-- The fields of a requirement in declaration order. -/
def ProposedFact.fields (f : ProposedFact) : Fields :=
  [("id", .string f.id), ("text", .string f.text), ("citations", citationsJson f.citations),
    ("alternatives", .array (f.alternatives.map fun a => .strings a.elems))]

/-- The fields of a proposal in declaration order. -/
def Proposal.fields (p : Proposal) : Fields :=
  [("context_sha256", .string p.contextSha256)] ++
    presentField "citation_context_sha256" p.citationContextSha256 ++
    [("question", .string p.question), ("goal", .string p.goal), ("disposition", .string p.disposition.text),
      ("requirements", .array (p.requirements.map fun f => .object f.fields)),
      ("unknowns", .array (p.unknowns.map fun s => .object s.fields))]

/-- The hash of a proposal. -/
def Proposal.sha256 (P : Platform) (p : Proposal) : String := P.sha256Hex (structText P.floatText p.fields).toUTF8

/-- All citations of a proposal. -/
def Proposal.citations (p : Proposal) : List Citation :=
  p.requirements.flatMap (·.citations) ++ p.unknowns.flatMap (·.citations)

/-! ## Checking citations -/

/-- The index an evidence ID names, counted from one. -/
def idIndex (id : String) : Option ℕ :=
  ((stripStart id "E").bind fun digits => Time.parseUnsigned 64 digits.toList).filter (0 < ·)

/-- A citation by evidence ID. -/
def citeId (sources : List InspectedSource) (cite : Citation) (id : String) : Except String Cited := do
  failIf (cite.source ≠ "" ∨ cite.pointer ≠ "" ∨ cite.quote ≠ "") "mixed ID and quote citation is ambiguous"
  let index ← okOr (idIndex id) "invalid evidence ID"
  failIf (id ≠ evidenceId index) "noncanonical evidence ID"
  let s ← okOr sources[index - 1]? "evidence ID outside context"
  failIf s.isControl "control-plane events cannot support business requirements"
  let body ← okOr s.body? "evidence ID has no body"
  .ok (s.wholeBody id body)

/-- A citation by quote. -/
def citeQuote (sources : List InspectedSource) (cite : Citation) : Except String Cited := do
  failIf (blank cite.quote ∨ 8192 < cite.quote.utf8ByteSize) "citation quote empty or too long"
  let s ← okOr (sourceOf? sources cite.source) "citation outside inspected source scope"
  failIf s.isControl "control-plane events cannot support business requirements"
  let value ← okOr (s.text? cite.pointer) "citation pointer is not a source string"
  let start ← okOr (findChars cite.quote.toList value.toList) "quote absent from source"
  failIf (value.toList.drop start = []) "empty citation"
  failIf (cite.quote.toList <:+: (value.toList.drop start).tail)
    "quote absent or ambiguous; provide a unique exact quote"
  let startByte := (utf8Bytes (value.toList.take start)).length
  .ok ⟨none, cite.source, cite.pointer, some cite.quote, startByte, startByte + cite.quote.utf8ByteSize, s.nodeSha256⟩

/-- One citation. -/
def checkCitation (sources : List InspectedSource) (cite : Citation) : Except String Cited :=
  match cite.evidenceId with
  | some id => citeId sources cite id
  | none => citeQuote sources cite

/-- `citations`. -/
def citations (sources : List InspectedSource) (cites : List Citation) : Except String (List Cited) := do
  failIf (cites = [] ∨ 16 < cites.length) "each assertion requires bounded citations"
  cites.mapM (checkCitation sources)

/-! ## What a checked citation points at -/

/-- A span reads as the quote, and no other span of the text does. -/
def OnlySpan (text quote : String) (startByte endByte : ℕ) : Prop :=
  ∀ a b, Time.slice text a b = .ok quote.toList ↔ a = startByte ∧ b = endByte

/-- A quote with one place in a text is read at one span of it. -/
theorem onlySpan_of_place {text quote : String} {start : ℕ} (h : OnlyPlace quote.toList text.toList start) :
    OnlySpan text quote (utf8Bytes (text.toList.take start)).length
      ((utf8Bytes (text.toList.take start)).length + quote.utf8ByteSize) := by
  intro a b
  rw [Time.slice_eq_ok]
  constructor
  · rintro ⟨xs, ys, htext, rfl, rfl⟩
    have hplace : quote.toList <+: text.toList.drop xs.length := by
      rw [htext, List.append_assoc, List.drop_left]
      exact List.prefix_append _ _
    have hlen : xs.length = start := (h _).mp hplace
    have htake : text.toList.take start = xs := by rw [htext, List.append_assoc, ← hlen, List.take_left]
    rw [htake, Time.length_utf8Bytes_append, Time.utf8ByteSize_eq]
    exact ⟨rfl, rfl⟩
  · rintro ⟨rfl, rfl⟩
    obtain ⟨ys, hys⟩ := (h start).mpr rfl
    refine ⟨text.toList.take start, ys, ?_, rfl, ?_⟩
    · rw [List.append_assoc, hys, List.take_append_drop]
    · rw [Time.length_utf8Bytes_append, Time.utf8ByteSize_eq]

/-- A checked citation names a source of the context that is no event of the control plane. -/
structure Cites (sources : List InspectedSource) (cited : Cited) (s : InspectedSource) : Prop where
  mem : s ∈ sources
  id : s.id = cited.source
  pin : s.nodeSha256 = cited.nodeSha256
  business : s.isControl = false

/-- What checking a citation established. -/
structure Checks (sources : List InspectedSource) (cite : Citation) (cited : Cited) : Prop where
  evidenceId : cited.evidenceId = cite.evidenceId
  source : ∃ s, Cites sources cited s
  /-- An evidence ID stands for a whole body. -/
  whole : cite.evidenceId.isSome → ∃ s body, Cites sources cited s ∧ s.body? = some body ∧ cited.pointer = "/body" ∧
    cited.startByte = 0 ∧ cited.endByte = body.utf8ByteSize
  /-- A quote stands once in the text that its pointer names in the source that it names. -/
  quoted : cite.evidenceId = none → ∃ s text, Cites sources cited s ∧ s.id = cite.source ∧
    s.text? cite.pointer = some text ∧ cited.pointer = cite.pointer ∧ cited.quote = some cite.quote ∧
    OnlySpan text cite.quote cited.startByte cited.endByte

variable {sources : List InspectedSource} {cite : Citation} {cited : Cited}

theorem sourceOf?_some {id : String} {s : InspectedSource} (h : sourceOf? sources id = some s) :
    s ∈ sources ∧ s.id = id := by
  rw [sourceOf?] at h
  have hid := List.find?_some h
  exact ⟨List.mem_of_find?_eq_some h, of_decide_eq_true hid⟩

theorem checks_id {id : String} (hid : cite.evidenceId = some id) (h : citeId sources cite id = .ok cited) :
    Checks sources cite cited := by
  obtain ⟨-, -, h⟩ := bind_eq_ok.mp h
  obtain ⟨index, -, h⟩ := bind_eq_ok.mp h
  obtain ⟨-, -, h⟩ := bind_eq_ok.mp h
  obtain ⟨s, hs, h⟩ := bind_eq_ok.mp h
  obtain ⟨_, hcontrol, h⟩ := bind_eq_ok.mp h
  obtain ⟨body, hbody, h⟩ := bind_eq_ok.mp h
  obtain rfl := Except.ok.inj h
  rw [okOr_eq_ok] at hs hbody
  rw [failIf_eq_ok, Bool.not_eq_true] at hcontrol
  have hcites : Cites sources (s.wholeBody id body) s := ⟨List.mem_of_getElem? hs, rfl, rfl, hcontrol⟩
  refine ⟨hid.symm, ⟨s, hcites⟩, fun _ => ⟨s, body, hcites, hbody, rfl, rfl, rfl⟩, fun hnone => ?_⟩
  rw [hid] at hnone
  cases hnone

theorem checks_quote (hid : cite.evidenceId = none) (h : citeQuote sources cite = .ok cited) :
    Checks sources cite cited := by
  obtain ⟨_, hblank, h⟩ := bind_eq_ok.mp h
  obtain ⟨s, hs, h⟩ := bind_eq_ok.mp h
  obtain ⟨_, hcontrol, h⟩ := bind_eq_ok.mp h
  obtain ⟨text, htext, h⟩ := bind_eq_ok.mp h
  obtain ⟨start, hstart, h⟩ := bind_eq_ok.mp h
  obtain ⟨-, -, h⟩ := bind_eq_ok.mp h
  obtain ⟨_, hagain, h⟩ := bind_eq_ok.mp h
  obtain rfl := Except.ok.inj h
  rw [okOr_eq_ok] at hs htext hstart
  rw [failIf_eq_ok] at hblank hagain
  rw [failIf_eq_ok, Bool.not_eq_true] at hcontrol
  obtain ⟨hmem, hsource⟩ := sourceOf?_some hs
  -- A quote that is not blank has a character, so its first place is looked for behind that character again.
  have hquote : cite.quote.toList ≠ [] := by
    intro hempty
    exact hblank (.inl (by rw [blank, hempty]; rfl))
  rw [List.tail_drop] at hagain
  have honly : OnlyPlace cite.quote.toList text.toList start := (onlyPlace_iff hquote).mpr ⟨hstart, hagain⟩
  refine ⟨hid.symm, ⟨s, hmem, hsource, rfl, hcontrol⟩, fun hsome => ?_, fun _ =>
    ⟨s, text, ⟨hmem, hsource, rfl, hcontrol⟩, hsource, htext, rfl, rfl, onlySpan_of_place honly⟩⟩
  rw [hid] at hsome
  cases hsome

theorem checks_of_checkCitation (h : checkCitation sources cite = .ok cited) : Checks sources cite cited := by
  rw [checkCitation] at h
  split at h
  · rename_i id hid
    exact checks_id hid h
  · rename_i hid
    exact checks_quote hid h

/-- Every citation of an assertion is checked. -/
theorem citations_ok {cites : List Citation} {out : List Cited} (h : citations sources cites = .ok out) :
    List.Forall₂ (Checks sources) cites out := by
  obtain ⟨-, -, h⟩ := bind_eq_ok.mp h
  exact (forall₂_of_mapM h).imp fun _ _ => checks_of_checkCitation

end Innen.TaskProposal
