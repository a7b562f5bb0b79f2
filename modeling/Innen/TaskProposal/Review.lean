import Innen.TaskProposal.Proposal

/-!
# Reviews of proposals

A review binds a context and a proposal by their hashes and lists premises, each with the spans of sources that support
or refute it or with the fact that is missing. What the premises say together is the readiness of the evidence: one
refuted premise makes it conflicting, else one missing fact makes it wanting, and it is supported only when every
premise has support and nothing else (`assess_supported_iff`).
-/

namespace Innen.TaskProposal

open Innen.Common Innen.EvidenceClosure

/-! ## Readiness -/

/-- `Readiness`. -/
inductive Readiness where
  | needsMoreEvidence
  | conflictingEvidence
  | supportedInvestigation
deriving DecidableEq

/-- A premise with the hashes of its evidence. -/
structure Premise where
  id : String
  missingFact : Option String
  supports : SortedSet String
  refutes : SortedSet String

/-- What the premises so far say. -/
structure Assessment where
  ids : SortedSet String
  missing : Bool
  refuted : Bool

/-- A premise with evidence against it. -/
def Premise.isRefuted (p : Premise) : Bool := p.refutes.elems ≠ []

/-- Take in one premise. -/
def assessPremise (reviewed : SortedSet String) (a : Assessment) (p : Premise) : Except String Assessment := do
  failIf (blank p.id ∨ p.id ∈ a.ids) "premise identity missing or duplicated"
  failIf (¬p.supports ⊆ reviewed ∨ ¬p.refutes ⊆ reviewed) "evidence has not been admitted by caller review"
  failIf (∃ e ∈ p.supports.elems, e ∈ p.refutes)
    "split a source into reviewed spans before assigning opposing roles"
  failIf (p.missingFact.any blank) "missing fact must identify the absent fact"
  failIf (p.missingFact.isSome ∧ (p.supports.elems ≠ [] ∨ p.refutes.elems ≠ []))
    "an atomic premise cannot be both missing and evidenced"
  failIf (p.missingFact.isNone ∧ p.supports.elems = [] ∧ p.refutes.elems = [])
    "missing premise must identify the absent fact"
  .ok ⟨a.ids.insert p.id, a.missing || p.missingFact.isSome, a.refuted || p.isRefuted⟩

/-- What an assessment comes to: a refutation counts before a missing fact. -/
def Assessment.readiness (a : Assessment) : Readiness :=
  if a.refuted then .conflictingEvidence else if a.missing then .needsMoreEvidence else .supportedInvestigation

/-- `assess`. -/
def assess (premises : List Premise) (reviewed : SortedSet String) : Except String Readiness := do
  let a ← premises.foldlM (assessPremise reviewed) ⟨∅, premises.isEmpty, false⟩
  .ok a.readiness

/-! ## Reviews -/

/-- A span of a source, in bytes. -/
structure ReviewSpan where
  source : String
  pointer : String
  startByte : ℕ
  endByte : ℕ
  nodeSha256 : String

/-- A premise of a review. -/
structure ReviewPremise where
  id : String
  claim : String
  missingFact : Option String
  supports : List ReviewSpan
  refutes : List ReviewSpan

/-- A review. -/
structure Review where
  contextSha256 : String
  proposalSha256 : String
  accepted : Bool
  reviewer : String
  reason : String
  premises : List ReviewPremise

/-- The JSON of a span. -/
def ReviewSpan.json (span : ReviewSpan) : Value :=
  Value.mkObject [("source", .string span.source), ("pointer", .string span.pointer),
    ("start_byte", .nat span.startByte), ("end_byte", .nat span.endByte), ("node_sha256", .string span.nodeSha256)]

/-- The JSON of a premise. -/
def ReviewPremise.json (item : ReviewPremise) : Value :=
  Value.mkObject ([("id", .string item.id), ("claim", .string item.claim)] ++
    presentField "missing_fact" item.missingFact ++
    [("supports", .array (item.supports.map ReviewSpan.json)), ("refutes", .array (item.refutes.map ReviewSpan.json))])

/-- The JSON of a review. -/
def Review.json (review : Review) : Value :=
  Value.mkObject [("context_sha256", .string review.contextSha256), ("proposal_sha256", .string review.proposalSha256),
    ("accepted", .bool review.accepted), ("reviewer", .string review.reviewer), ("reason", .string review.reason),
    ("premises", .array (review.premises.map ReviewPremise.json))]

/-- Bytes that are a part of a text which is neither empty nor blank. -/
def validRange (text : String) (startByte endByte : ℕ) : Bool :=
  startByte < endByte &&
    (match Time.slice text startByte endByte with
    | .ok part => !part.all isWhitespace
    | .error _ => false)

variable (P : Platform)

/-- `review_span`: the hash of a span that was checked. -/
def reviewSpan (sources : List InspectedSource) (span : ReviewSpan) : Except String String := do
  let s ← okOr (sourceOf? sources span.source) "review span outside inspected source scope"
  failIf (s.isControl ∨ s.nodeSha256 ≠ span.nodeSha256) "review span source version is invalid"
  let text ← okOr (s.text? span.pointer) "review span pointer is not a source string"
  failIf (¬validRange text span.startByte span.endByte) "review span byte range is invalid or empty"
  .ok (P.sha256Hex (span.json.toText P.floatText).toUTF8)

/-- The hashes of spans. -/
def spanSet (sources : List InspectedSource) (spans : List ReviewSpan) : Except String (SortedSet String) := do
  let hashes ← spans.mapM (reviewSpan P sources)
  .ok (SortedSet.ofList hashes)

/-- One premise of a review. -/
def reviewPremise (sources : List InspectedSource) (item : ReviewPremise) : Except String Premise := do
  failIf (blank item.claim) "review premise claim is empty"
  failIf (16 < item.supports.length ∨ 16 < item.refutes.length) "review premise evidence exceeds bounds"
  let supports ← spanSet P sources item.supports
  let refutes ← spanSet P sources item.refutes
  failIf (supports.card ≠ item.supports.length ∨ refutes.card ≠ item.refutes.length)
    "review premise contains duplicate evidence spans"
  .ok ⟨item.id, item.missingFact, supports, refutes⟩

/-- All evidence of the premises. -/
def admittedBy (premises : List Premise) : SortedSet String :=
  SortedSet.ofList (premises.flatMap fun p => p.supports.elems ++ p.refutes.elems)

/-- `review_readiness`. -/
def reviewReadiness (sources : List InspectedSource) (review : Review) : Except String Readiness := do
  failIf (review.premises = [] ∨ 16 < review.premises.length) "accepted review requires bounded explicit premises"
  let premises ← review.premises.mapM (reviewPremise P sources)
  assess premises (admittedBy premises)

/-! ## What readiness means -/

/-- A premise that passes the checks on itself. -/
structure Premise.Valid (reviewed : SortedSet String) (p : Premise) : Prop where
  named : blank p.id = false
  supports : p.supports ⊆ reviewed
  refutes : p.refutes ⊆ reviewed
  opposed : ¬∃ e ∈ p.supports.elems, e ∈ p.refutes
  missing : p.missingFact.any blank = false
  atomic : p.missingFact.isSome → p.supports.elems = [] ∧ p.refutes.elems = []
  settled : p.missingFact.isNone → p.supports.elems ≠ [] ∨ p.refutes.elems ≠ []

/-- A premise that is supported and nothing else. -/
structure Premise.Supported (reviewed : SortedSet String) (p : Premise) : Prop where
  named : blank p.id = false
  admitted : p.supports ⊆ reviewed
  present : p.missingFact = none
  supported : p.supports.elems ≠ []
  unrefuted : p.refutes.elems = []

variable {P} {reviewed : SortedSet String}

/-- What one premise does. -/
theorem assessPremise_eq_ok {a a' : Assessment} {p : Premise} :
    assessPremise reviewed a p = .ok a' ↔ p.Valid reviewed ∧ p.id ∉ a.ids ∧
      a' = ⟨a.ids.insert p.id, a.missing || p.missingFact.isSome, a.refuted || p.isRefuted⟩ := by
  constructor
  · intro h
    obtain ⟨_, hid, h⟩ := bind_eq_ok.mp h
    obtain ⟨_, hadmitted, h⟩ := bind_eq_ok.mp h
    obtain ⟨_, hopposed, h⟩ := bind_eq_ok.mp h
    obtain ⟨_, hmissing, h⟩ := bind_eq_ok.mp h
    obtain ⟨_, hatomic, h⟩ := bind_eq_ok.mp h
    obtain ⟨_, hsettled, h⟩ := bind_eq_ok.mp h
    obtain rfl := Except.ok.inj h
    rw [failIf_eq_ok] at hid hadmitted hopposed hmissing hatomic hsettled
    rw [not_or] at hid
    rw [not_or, not_not, not_not] at hadmitted
    refine ⟨⟨Bool.not_eq_true _ ▸ hid.1, hadmitted.1, hadmitted.2, hopposed, Bool.not_eq_true _ ▸ hmissing, ?_, ?_⟩,
      hid.2, rfl⟩
    · intro hsome
      have hnone := not_and.mp hatomic hsome
      rw [not_or, not_not, not_not] at hnone
      exact hnone
    · intro hnone
      exact not_and_or.mp (not_and.mp hsettled hnone)
  · rintro ⟨hp, hid, rfl⟩
    refine bind_eq_ok.mpr ⟨(), failIf_eq_ok.mpr ?_, bind_eq_ok.mpr ⟨(), failIf_eq_ok.mpr ?_,
      bind_eq_ok.mpr ⟨(), failIf_eq_ok.mpr hp.opposed, bind_eq_ok.mpr ⟨(), failIf_eq_ok.mpr ?_,
        bind_eq_ok.mpr ⟨(), failIf_eq_ok.mpr ?_, bind_eq_ok.mpr ⟨(), failIf_eq_ok.mpr ?_, rfl⟩⟩⟩⟩⟩⟩
    · rw [hp.named, not_or]
      exact ⟨Bool.false_ne_true, hid⟩
    · rw [not_or, not_not, not_not]
      exact ⟨hp.supports, hp.refutes⟩
    · rw [hp.missing]
      exact Bool.false_ne_true
    · rintro ⟨hsome, hany⟩
      obtain ⟨hs, hr⟩ := hp.atomic hsome
      exact hany.elim (fun h => h hs) fun h => h hr
    · rintro ⟨hnone, hs, hr⟩
      exact (hp.settled hnone).elim (fun h => h hs) fun h => h hr

/-- What a run over premises does: the flags are those of any premise, and names are not repeated. -/
theorem assess_run {l : List Premise} {a a' : Assessment} :
    l.foldlM (assessPremise reviewed) a = .ok a' ↔
      (∀ p ∈ l, p.Valid reviewed ∧ p.id ∉ a.ids) ∧ (l.map (·.id)).Nodup ∧
        a' = ⟨(l.map (·.id)).foldl SortedSet.insert a.ids, a.missing || l.any (·.missingFact.isSome),
          a.refuted || l.any (·.isRefuted)⟩ := by
  induction l generalizing a with
  | nil =>
    rw [List.foldlM_nil]
    simp only [List.not_mem_nil, false_implies, implies_true, List.map_nil, List.nodup_nil, true_and, List.foldl_nil,
      List.any_nil, Bool.or_false]
    exact ⟨fun h => (Except.ok.inj h).symm, fun h => congrArg Except.ok h.symm⟩
  | cons p rest ih =>
    rw [List.foldlM_cons, bind_eq_ok]
    simp only [assessPremise_eq_ok, ih, List.map_cons, List.nodup_cons, List.foldl_cons, List.any_cons,
      List.forall_mem_cons, List.mem_map, not_exists, not_and]
    constructor
    · rintro ⟨b, ⟨hp, hid, rfl⟩, hrest, hnodup, rfl⟩
      refine ⟨⟨⟨hp, hid⟩, fun e he => ⟨(hrest e he).1, fun hin => ?_⟩⟩, ⟨fun e he heq => ?_, hnodup⟩,
        by simp only [Bool.or_assoc]⟩
      · exact (hrest e he).2 (SortedSet.mem_insert.mpr (.inr hin))
      · exact (hrest e he).2 (SortedSet.mem_insert.mpr (.inl heq))
    · rintro ⟨⟨⟨hp, hid⟩, hrest⟩, ⟨hfresh, hnodup⟩, rfl⟩
      refine ⟨_, ⟨hp, hid, rfl⟩, fun e he => ⟨(hrest e he).1, fun hin => ?_⟩, hnodup,
        by simp only [Bool.or_assoc]⟩
      rcases SortedSet.mem_insert.mp hin with heq | hin
      · exact hfresh e he heq
      · exact (hrest e he).2 hin

/-- The evidence supports an investigation iff there are premises, each named once, supported and neither refuted nor
missing. -/
theorem assess_supported_iff {premises : List Premise} :
    assess premises reviewed = .ok .supportedInvestigation ↔
      premises ≠ [] ∧ (premises.map (·.id)).Nodup ∧ ∀ p ∈ premises, p.Supported reviewed := by
  have hrun : assess premises reviewed = .ok .supportedInvestigation ↔
      (∀ p ∈ premises, p.Valid reviewed) ∧ (premises.map (·.id)).Nodup ∧ premises.isEmpty = false ∧
        premises.any (·.missingFact.isSome) = false ∧ premises.any (·.isRefuted) = false := by
    rw [assess, bind_eq_ok]
    constructor
    · rintro ⟨a, ha, h⟩
      obtain ⟨hvalid, hnodup, rfl⟩ := assess_run.mp ha
      have hready := Except.ok.inj h
      unfold Assessment.readiness at hready
      split_ifs at hready with hrefuted hmissing
      rw [Bool.not_eq_true, Bool.or_eq_false_iff] at hrefuted hmissing
      exact ⟨fun p hp => (hvalid p hp).1, hnodup, hmissing.1, hmissing.2, hrefuted.2⟩
    · rintro ⟨hvalid, hnodup, hempty, hmissing, hrefuted⟩
      refine ⟨_, assess_run.mpr ⟨fun p hp => ⟨hvalid p hp, SortedSet.not_mem_empty _⟩, hnodup, rfl⟩, ?_⟩
      rw [hempty, hmissing, hrefuted]
      rfl
  rw [hrun]
  constructor
  · rintro ⟨hvalid, hnodup, hempty, hmissing, hrefuted⟩
    refine ⟨fun h => by simp [h] at hempty, hnodup, fun p hp => ?_⟩
    have hp' := hvalid p hp
    have hpresent : p.missingFact.isSome = false := by simpa using List.any_eq_false.mp hmissing p hp
    have hnone : p.missingFact = none := by simpa using hpresent
    have hunrefuted : p.refutes.elems = [] := by simpa [Premise.isRefuted] using List.any_eq_false.mp hrefuted p hp
    exact ⟨hp'.named, hp'.supports, hnone, (hp'.settled (by rw [hnone]; rfl)).resolve_right fun h => h hunrefuted,
      hunrefuted⟩
  · rintro ⟨hne, hnodup, hall⟩
    refine ⟨fun p hp => ?_, hnodup, by simpa using hne, ?_, ?_⟩
    · have hs := hall p hp
      refine ⟨hs.named, hs.admitted, fun e he => ?_, fun ⟨e, _, he⟩ => ?_, by rw [hs.present]; rfl, fun h => ?_,
        fun _ => .inl hs.supported⟩
      · rw [hs.unrefuted] at he
        exact absurd he List.not_mem_nil
      · rw [SortedSet.mem_def, hs.unrefuted] at he
        exact absurd he List.not_mem_nil
      · rw [hs.present] at h
        cases h
    · rw [List.any_eq_false]
      intro p hp
      rw [(hall p hp).present]
      exact Bool.false_ne_true
    · rw [List.any_eq_false]
      intro p hp
      simp [Premise.isRefuted, (hall p hp).unrefuted]

/-! ## What a ready review rests on -/

/-- A span that is a part of a text of a source of the context, in the version the review names, that says something. -/
def Witnessed (sources : List InspectedSource) (span : ReviewSpan) : Prop :=
  ∃ s ∈ sources, s.id = span.source ∧ s.isControl = false ∧ s.nodeSha256 = span.nodeSha256 ∧
    ∃ text part, s.text? span.pointer = some text ∧ Time.slice text span.startByte span.endByte = .ok part ∧
      part.all isWhitespace = false

/-- A premise with support, all of which is witnessed, and with nothing against it. -/
structure Backed (sources : List InspectedSource) (item : ReviewPremise) : Prop where
  present : item.missingFact = none
  supported : item.supports ≠ []
  unrefuted : item.refutes = []
  witnessed : ∀ span ∈ item.supports, Witnessed sources span

variable {sources : List InspectedSource} {review : Review}

theorem reviewSpan_witnessed {span : ReviewSpan} {hash : String} (h : reviewSpan P sources span = .ok hash) :
    Witnessed sources span := by
  obtain ⟨s, hs, h⟩ := bind_eq_ok.mp h
  obtain ⟨_, hversion, h⟩ := bind_eq_ok.mp h
  obtain ⟨text, htext, h⟩ := bind_eq_ok.mp h
  obtain ⟨_, hrange, -⟩ := bind_eq_ok.mp h
  rw [okOr_eq_ok] at hs htext
  rw [failIf_eq_ok, not_or, not_not, Bool.not_eq_true] at hversion
  rw [failIf_eq_ok, not_not, validRange, Bool.and_eq_true] at hrange
  obtain ⟨hmem, hid⟩ := sourceOf?_some hs
  have hslice := hrange.2
  cases hpart : Time.slice text span.startByte span.endByte with
  | error e =>
    rw [hpart] at hslice
    cases hslice
  | ok part =>
    rw [hpart] at hslice
    exact ⟨s, hmem, hid, hversion.1, hversion.2, text, part, htext, hpart, by simpa using hslice⟩

theorem spanSet_ok {spans : List ReviewSpan} {set : SortedSet String} (h : spanSet P sources spans = .ok set) :
    (∀ span ∈ spans, Witnessed sources span) ∧ (spans = [] → set.elems = []) := by
  obtain ⟨hashes, hhashes, h⟩ := bind_eq_ok.mp h
  obtain rfl := Except.ok.inj h
  refine ⟨fun span hspan => ?_, ?_⟩
  · obtain ⟨hash, -, hhash⟩ := (mapM_ok hhashes).2 span hspan
    exact reviewSpan_witnessed hhash
  · rintro rfl
    obtain rfl := Except.ok.inj hhashes
    rfl

theorem reviewPremise_backed {item : ReviewPremise} {p : Premise} (h : reviewPremise P sources item = .ok p)
    (hp : p.Supported reviewed) : Backed sources item := by
  obtain ⟨-, -, h⟩ := bind_eq_ok.mp h
  obtain ⟨-, -, h⟩ := bind_eq_ok.mp h
  obtain ⟨supports, hsupports, h⟩ := bind_eq_ok.mp h
  obtain ⟨refutes, hrefutes, h⟩ := bind_eq_ok.mp h
  obtain ⟨_, hcards, h⟩ := bind_eq_ok.mp h
  obtain rfl := Except.ok.inj h
  rw [failIf_eq_ok, not_or, not_not, not_not] at hcards
  obtain ⟨hwitnessed, hnone⟩ := spanSet_ok hsupports
  refine ⟨hp.present, fun hempty => hp.supported (hnone hempty), ?_, hwitnessed⟩
  -- Without repetitions there are as many spans as hashes, which are none.
  have hcard : refutes.card = 0 := by rw [SortedSet.card, hp.unrefuted, List.length_nil]
  exact List.length_eq_zero_iff.mp (hcards.2.symm.trans hcard)

/-- A review that supports an investigation has premises, and each is backed by witnessed spans alone. -/
theorem backed_of_supported (h : reviewReadiness P sources review = .ok .supportedInvestigation) :
    review.premises ≠ [] ∧ ∀ item ∈ review.premises, Backed sources item := by
  obtain ⟨_, hbounds, h⟩ := bind_eq_ok.mp h
  obtain ⟨premises, hpremises, h⟩ := bind_eq_ok.mp h
  rw [failIf_eq_ok, not_or] at hbounds
  obtain ⟨-, -, hsupported⟩ := assess_supported_iff.mp h
  refine ⟨hbounds.1, fun item hitem => ?_⟩
  obtain ⟨p, hp, hitem⟩ := (mapM_ok hpremises).2 item hitem
  exact reviewPremise_backed hitem (hsupported p hp)

end Innen.TaskProposal
