import Innen.TaskProposal.Review

/-!
# The gate of task proposals

`evaluate` checks a proposal against its context, compiles its requirements into the facts of the caller's contract, and
closes that contract only for a review that accepts exactly this proposal and whose premises support it. Whatever the
model and the reviewer wrote, a covered result rests on all of these bindings (`covered_gated`).
-/

namespace Innen.TaskProposal

open Innen.Common Innen.EvidenceClosure

/-! ## Checking the proposal -/

/-- A requirement with its checked citations. -/
structure CheckedFact where
  id : String
  text : String
  citations : List Cited

/-- A statement with its checked citations. -/
structure CheckedStatement where
  text : String
  citations : List Cited

/-- What the requirements so far gave. -/
structure Checked where
  ids : SortedSet String
  requirements : List CheckedFact
  facts : List Requirement

/-- The sources that were cited. -/
def citedSources (evidence : List Cited) : SortedSet String := SortedSet.ofList (evidence.map (·.source))

/-- The fact a requirement is compiled into. -/
def ProposedFact.fact (r : ProposedFact) : Requirement := ⟨r.id, some r.text, r.alternatives⟩

/-- Check a requirement and compile it into a fact. -/
def checkRequirement (sources : List InspectedSource) (acc : Checked) (r : ProposedFact) : Except String Checked := do
  failIf (blank r.id ∨ r.id ∈ acc.ids ∨ blank r.text ∨ 8192 < r.text.utf8ByteSize) "requirement IDs/text invalid"
  let evidence ← citations sources r.citations
  failIf (r.alternatives = [] ∨ 16 < r.alternatives.length ∨
      ∃ a ∈ r.alternatives, a.elems = [] ∨ ¬a ⊆ citedSources evidence)
    "evidence alternatives must use cited inspected sources only"
  .ok ⟨acc.ids.insert r.id, acc.requirements ++ [⟨r.id, r.text, evidence⟩], acc.facts ++ [r.fact]⟩

/-- Check a statement of what is unknown. -/
def checkUnknown (sources : List InspectedSource) (u : Statement) : Except String CheckedStatement := do
  failIf (blank u.text ∨ 8192 < u.text.utf8ByteSize) "unknown statement text invalid"
  let evidence ← citations sources u.citations
  .ok ⟨u.text, evidence⟩

variable (P : Platform) (c : Contract) (raw : ByteArray) (q : String)

/-- A proposal that cites evidence IDs names the catalog they are from. -/
def checkCatalog (p : Proposal) : Except String Unit :=
  if p.citations.any fun cite => cite.evidenceId.isSome then do
    let ids ← idContext P c raw q
    failIf (p.citationContextSha256 ≠ some ids.contextSha256)
      "evidence IDs require their exact versioned catalog digest"
  else .ok ()

/-! ## The verdict -/

/-- How far a proposal got. -/
inductive Verdict where
  | sourceValidatedReviewRequired
  | reviewRejected
  | reviewedNeedsEvidence
  | reviewedConflict
  | closed (outcome : Outcome)

/-- The readiness a disposition asserts. -/
def Disposition.readiness : Disposition → Readiness
  | .proceedWithInvestigation => .supportedInvestigation
  | .needsMoreEvidence => .needsMoreEvidence
  | .conflictingEvidence => .conflictingEvidence

/-- What a review that is bound to the proposal leads to. -/
def reviewVerdict (context : Context) (p : Proposal) (candidate : Contract) (review : Review) : Except String Verdict :=
  if review.accepted = false then .ok .reviewRejected
  else do
    let readiness ← reviewReadiness P context.sources review
    failIf (readiness ≠ p.disposition.readiness) "proposal disposition is not supported by reviewed premise evidence"
    match p.disposition with
    | .needsMoreEvidence => .ok .reviewedNeedsEvidence
    | .conflictingEvidence => .ok .reviewedConflict
    | .proceedWithInvestigation => do
      let closure ← (outcome P candidate raw q).mapError EvaluateError.text
      .ok (.closed closure)

/-- A review is bound to the context and to the proposal, and says by whom and why. -/
def bindReview (p : Proposal) (review : Review) : Except String Unit :=
  failIf (review.contextSha256 ≠ p.contextSha256 ∨ review.proposalSha256 ≠ p.sha256 P ∨ blank review.reviewer ∨
      blank review.reason)
    "review must bind the exact context and proposal hashes and name its basis"

/-- The verdict with or without a review. -/
def verdict (context : Context) (p : Proposal) (candidate : Contract) : Option Review → Except String Verdict
  | none => .ok .sourceValidatedReviewRequired
  | some review => do
    bindReview P p review
    reviewVerdict P raw q context p candidate review

/-! ## The report -/

/-- What `evaluate` returns. -/
structure Report where
  contextSha256 : String
  proposalSha256 : String
  goal : String
  disposition : Disposition
  requirements : List CheckedFact
  unknowns : List CheckedStatement
  candidate : Contract
  review : Option Review
  verdict : Verdict

/-- The closure of a report. -/
def Report.closure (report : Report) : Option Outcome :=
  match report.verdict with
  | .closed outcome => some outcome
  | _ => none

/-- The resolution of a report; with a closure it is that of the closure. -/
def Report.resolution (report : Report) : String :=
  match report.verdict with
  | .sourceValidatedReviewRequired => "source_validated_review_required"
  | .reviewRejected => "review_rejected"
  | .reviewedNeedsEvidence => "reviewed_needs_evidence"
  | .reviewedConflict => "reviewed_conflict"
  | .closed outcome => outcome.resolution.text

/-- `evaluate`. -/
def evaluate (p : Proposal) (review : Option Review) : Except String Report := do
  let context ← proposalContext P c raw q
  failIf (p.contextSha256 ≠ context.sha256 P ∨ p.question ≠ q) "proposal context/question mismatch"
  checkCatalog P c raw q p
  failIf (blank p.goal ∨ 4096 < p.goal.utf8ByteSize ∨ p.requirements = [] ∨ 16 < p.requirements.length ∨
      16 < p.unknowns.length)
    "proposal goal/requirements/unknowns exceed bounds"
  let checked ← p.requirements.foldlM (checkRequirement context.sources) ⟨∅, [], []⟩
  let unknowns ← p.unknowns.mapM (checkUnknown context.sources)
  let result ← verdict P raw q context p { c with facts := checked.facts } review
  .ok ⟨p.contextSha256, p.sha256 P, p.goal, p.disposition, checked.requirements, unknowns,
    { c with facts := checked.facts }, review, result⟩

/-! ## The report as JSON -/

/-- A JSON schema for a string. -/
def stringSchema : Value := Value.mkObject [("type", .string "string")]

/-- A JSON schema for an integer that is not less than a bound. -/
def integerSchema (minimum : ℕ) : Value :=
  Value.mkObject [("type", .string "integer"), ("minimum", .nat minimum)]

/-- A JSON schema for an array of bounded length. -/
def arraySchema (items : Value) (bounds : Fields) : Value :=
  Value.mkObject ([("type", .string "array"), ("items", items)] ++ bounds)

/-- A JSON schema for an object without other fields. -/
def objectSchema (properties : Fields) (required : List String) : Value :=
  Value.mkObject [("type", .string "object"), ("additionalProperties", .bool false),
    ("properties", Value.mkObject properties), ("required", .strings required)]

/-- `review_schema`. -/
def reviewSchema : Value :=
  let span := objectSchema [("source", stringSchema), ("pointer", stringSchema), ("start_byte", integerSchema 0),
    ("end_byte", integerSchema 1), ("node_sha256", stringSchema)]
    ["source", "pointer", "start_byte", "end_byte", "node_sha256"]
  let spans := arraySchema span [("maxItems", .nat 16)]
  let premise := objectSchema [("id", stringSchema), ("claim", stringSchema), ("missing_fact", stringSchema),
    ("supports", spans), ("refutes", spans)] ["id", "claim", "supports", "refutes"]
  (objectSchema [("context_sha256", stringSchema), ("proposal_sha256", stringSchema),
    ("accepted", Value.mkObject [("type", .string "boolean")]), ("reviewer", stringSchema), ("reason", stringSchema),
    ("premises", arraySchema premise [("minItems", .nat 1), ("maxItems", .nat 16)])]
    ["context_sha256", "proposal_sha256", "accepted", "reviewer", "reason", "premises"]).set "note"
    (.string ("Each atomic premise is either supported by exact spans, refuted by exact counterevidence spans, or " ++
      "names one missing_fact. Accepted reviews must match the proposal disposition."))

/-- The JSON of a checked requirement. -/
def CheckedFact.json (r : CheckedFact) : Value :=
  Value.mkObject [("id", .string r.id), ("text", .string r.text), ("citations", .array (r.citations.map Cited.json))]

/-- The JSON of a checked statement. -/
def CheckedStatement.json (u : CheckedStatement) : Value :=
  Value.mkObject [("text", .string u.text), ("citations", .array (u.citations.map Cited.json))]

/-- The JSON of a contract. -/
def contractJson (c : Contract) : Value :=
  (Value.mkObject c.fields).set "facts" (.array (c.facts.map fun f => Value.mkObject f.fields))

/-- The JSON of a report. -/
def Report.json (report : Report) : Value :=
  Value.mkObject ([("resolution", .string report.resolution), ("context_sha256", .string report.contextSha256),
    ("proposal_sha256", .string report.proposalSha256), ("goal", .string report.goal),
    ("disposition", .string report.disposition.text),
    ("requirements", .array (report.requirements.map CheckedFact.json)),
    ("unknowns", .array (report.unknowns.map CheckedStatement.json)),
    ("candidate_contract", contractJson report.candidate), ("review_schema", reviewSchema),
    ("closure", .optional Outcome.json report.closure),
    ("limitations", .string ("Quote/hash checks do not prove semantics, missing constraints, or authorization. A " ++
      "review receipt is a caller assertion, not authenticated reviewer identity. No canonical graph writes occur."))] ++
    (report.review.elim [] fun review => [("review", review.json)]))

/-! ## What the checks establish -/

/-- What checking a requirement established. -/
structure Supports (sources : List InspectedSource) (r : ProposedFact) (checked : CheckedFact) : Prop where
  id : checked.id = r.id
  text : checked.text = r.text
  citations : List.Forall₂ (Checks sources) r.citations checked.citations
  alternatives : r.alternatives ≠ [] ∧ ∀ a ∈ r.alternatives, a.elems ≠ []
  /-- Every source of an alternative is cited by the requirement. -/
  cited : ∀ a ∈ r.alternatives, ∀ id ∈ a, ∃ cited ∈ checked.citations, cited.source = id

/-- What checking a statement established. -/
structure States (sources : List InspectedSource) (u : Statement) (checked : CheckedStatement) : Prop where
  text : checked.text = u.text
  citations : List.Forall₂ (Checks sources) u.citations checked.citations

variable {P c raw q} {sources : List InspectedSource} {p : Proposal} {review : Option Review} {report : Report}

theorem checkRequirement_ok {acc acc' : Checked} {r : ProposedFact} (h : checkRequirement sources acc r = .ok acc') :
    ∃ checked, Supports sources r checked ∧ acc'.requirements = acc.requirements ++ [checked] ∧
      acc'.facts = acc.facts ++ [r.fact] := by
  obtain ⟨-, -, h⟩ := bind_eq_ok.mp h
  obtain ⟨evidence, hevidence, h⟩ := bind_eq_ok.mp h
  obtain ⟨_, halternatives, h⟩ := bind_eq_ok.mp h
  obtain rfl := Except.ok.inj h
  rw [failIf_eq_ok, not_or, not_or] at halternatives
  obtain ⟨hsome, -, hall⟩ := halternatives
  refine ⟨⟨r.id, r.text, evidence⟩, ⟨rfl, rfl, citations_ok hevidence, ⟨hsome, fun a ha hempty => ?_⟩, ?_⟩, rfl, rfl⟩
  · exact hall ⟨a, ha, .inl hempty⟩
  · intro a ha id hid
    have hsub : a ⊆ citedSources evidence := by
      by_contra hnot
      exact hall ⟨a, ha, .inr hnot⟩
    obtain ⟨cited, hcited, hsource⟩ := List.mem_map.mp (SortedSet.mem_ofList.mp (hsub id hid))
    exact ⟨cited, hcited, hsource⟩

/-- The facts are the requirements, each of which was checked. -/
theorem checkRequirements_ok {rs : List ProposedFact} {acc acc' : Checked}
    (h : rs.foldlM (checkRequirement sources) acc = .ok acc') :
    ∃ checked, List.Forall₂ (Supports sources) rs checked ∧ acc'.requirements = acc.requirements ++ checked ∧
      acc'.facts = acc.facts ++ rs.map ProposedFact.fact := by
  induction rs generalizing acc with
  | nil =>
    obtain rfl := Except.ok.inj h
    exact ⟨[], .nil, (List.append_nil _).symm, (List.append_nil _).symm⟩
  | cons r rest ih =>
    rw [List.foldlM_cons] at h
    obtain ⟨mid, hmid, h⟩ := bind_eq_ok.mp h
    obtain ⟨checked, hr, hreq, hfacts⟩ := checkRequirement_ok hmid
    obtain ⟨others, hrest, hreq', hfacts'⟩ := ih h
    refine ⟨checked :: others, .cons hr hrest, ?_, ?_⟩
    · rw [hreq', hreq, List.append_assoc, List.singleton_append]
    · rw [hfacts', hfacts, List.append_assoc, List.singleton_append, List.map_cons]

theorem checkUnknown_ok {u : Statement} {checked : CheckedStatement} (h : checkUnknown sources u = .ok checked) :
    States sources u checked := by
  obtain ⟨-, -, h⟩ := bind_eq_ok.mp h
  obtain ⟨evidence, hevidence, h⟩ := bind_eq_ok.mp h
  obtain rfl := Except.ok.inj h
  exact ⟨rfl, citations_ok hevidence⟩

/-! ## What a closure rests on -/

/-- A review that accepts a proposal whose disposition its premises support, and the closure it released. -/
structure Accepts (P : Platform) (raw : ByteArray) (q : String) (context : Context) (p : Proposal) (candidate : Contract)
    (review : Review) (closure : Outcome) : Prop where
  accepted : review.accepted = true
  context_bound : review.contextSha256 = p.contextSha256
  proposal_bound : review.proposalSha256 = p.sha256 P
  readiness : reviewReadiness P context.sources review = .ok p.disposition.readiness
  proceeds : p.disposition = .proceedWithInvestigation
  closed : outcome P candidate raw q = .ok closure

theorem verdict_closed {context : Context} {candidate : Contract} {closure : Outcome}
    (h : verdict P raw q context p candidate review = .ok (.closed closure)) :
    ∃ r, review = some r ∧ Accepts P raw q context p candidate r closure := by
  cases review with
  | none => cases h
  | some r =>
    obtain ⟨_, hbind, h⟩ := bind_eq_ok.mp h
    rw [bindReview, failIf_eq_ok, not_or, not_or, not_not, not_not] at hbind
    rw [reviewVerdict] at h
    split at h
    · cases h
    · rename_i haccepted
      obtain ⟨readiness, hreadiness, h⟩ := bind_eq_ok.mp h
      obtain ⟨_, hmatch, h⟩ := bind_eq_ok.mp h
      rw [failIf_eq_ok, not_not] at hmatch
      split at h
      · cases h
      · cases h
      · rename_i hdisposition
        obtain ⟨o, ho, h⟩ := bind_eq_ok.mp h
        obtain rfl := Verdict.closed.inj (Except.ok.inj h)
        exact ⟨r, rfl, Bool.not_eq_false _ ▸ haccepted, hbind.1, hbind.2.1, hmatch ▸ hreadiness, hdisposition,
          mapError_eq_ok.mp ho⟩

/-- Only a closure makes a report covered. -/
theorem covered_closed (h : report.resolution = "covered") :
    ∃ closure, report.verdict = .closed closure ∧ closure.resolution = .covered := by
  unfold Report.resolution at h
  split at h
  · exact absurd h (by decide)
  · exact absurd h (by decide)
  · exact absurd h (by decide)
  · exact absurd h (by decide)
  · rename_i closure hclosed
    refine ⟨closure, hclosed, ?_⟩
    cases hres : closure.resolution with
    | covered => rfl
    | blocked | conflict | budgetInsufficient | searchLimitUnknown =>
      rw [hres] at h
      exact absurd h (by decide)

/-- What a report of a run says. -/
structure Reports (P : Platform) (c : Contract) (raw : ByteArray) (q : String) (p : Proposal) (review : Option Review)
    (report : Report) (context : Context) : Prop where
  prepared : proposalContext P c raw q = .ok context
  bound : p.contextSha256 = context.sha256 P
  asked : p.question = q
  requirements : List.Forall₂ (Supports context.sources) p.requirements report.requirements
  unknowns : List.Forall₂ (States context.sources) p.unknowns report.unknowns
  candidate : report.candidate = { c with facts := p.requirements.map ProposedFact.fact }
  judged : verdict P raw q context p report.candidate review = .ok report.verdict

theorem evaluate_reports (h : evaluate P c raw q p review = .ok report) :
    ∃ context, Reports P c raw q p review report context := by
  obtain ⟨context, hcontext, h⟩ := bind_eq_ok.mp h
  obtain ⟨_, hbound, h⟩ := bind_eq_ok.mp h
  obtain ⟨-, -, h⟩ := bind_eq_ok.mp h
  obtain ⟨-, -, h⟩ := bind_eq_ok.mp h
  obtain ⟨checked, hchecked, h⟩ := bind_eq_ok.mp h
  obtain ⟨unknowns, hunknowns, h⟩ := bind_eq_ok.mp h
  obtain ⟨result, hresult, h⟩ := bind_eq_ok.mp h
  obtain rfl := Except.ok.inj h
  rw [failIf_eq_ok, not_or, not_not, not_not] at hbound
  obtain ⟨requirements, hrequirements, hlist, hfacts⟩ := checkRequirements_ok hchecked
  rw [List.nil_append] at hlist hfacts
  refine ⟨context, hcontext, hbound.1, hbound.2, hlist ▸ hrequirements,
    (forall₂_of_mapM hunknowns).imp fun _ _ => checkUnknown_ok, ?_, hresult⟩
  rw [hfacts]

/-- All checked citations of a report. -/
def Report.cited (report : Report) : List Cited :=
  report.requirements.flatMap (·.citations) ++ report.unknowns.flatMap (·.citations)

theorem Reports.citations {context : Context} (h : Reports P c raw q p review report context) :
    List.Forall₂ (Checks context.sources) p.citations report.cited :=
  List.rel_append (List.rel_flatMap h.requirements fun _ _ hr => hr.citations)
    (List.rel_flatMap h.unknowns fun _ _ hu => hu.citations)

/-- A source that a requirement cites: a pinned source of the context in scope, and no event of the control plane. -/
def CitedInScope (P : Platform) (c : Contract) (snap : Snapshot) (context : Context) (r : ProposedFact) (id : String) :
    Prop :=
  ∃ s ∈ context.sources, s.id = id ∧ Pinned P c snap s ∧ s.isControl = false ∧
    ∃ cite ∈ r.citations, ∃ cited, Checks context.sources cite cited ∧ cited.source = id

/-- A quote that has one place in the text that its pointer names in the pinned source that it names. -/
def QuotedOnce (P : Platform) (c : Contract) (snap : Snapshot) (context : Context) (cite : Citation) (cited : Cited) :
    Prop :=
  ∃ s ∈ context.sources, s.id = cite.source ∧ Pinned P c snap s ∧ s.isControl = false ∧ cited.source = cite.source ∧
    cited.pointer = cite.pointer ∧ cited.quote = some cite.quote ∧
    ∃ text, s.text? cite.pointer = some text ∧ OnlySpan text cite.quote cited.startByte cited.endByte

/-- What a covered result rests on. -/
structure Gate (P : Platform) (c : Contract) (raw : ByteArray) (q : String) (p : Proposal) (report : Report)
    (context : Context) (snap : Snapshot) (review : Review) (closure : Outcome) : Prop where
  prepared : proposalContext P c raw q = .ok context
  replayed : snapshot P c.asOf raw = .ok snap
  accepted : review.accepted = true
  context_bound : review.contextSha256 = context.sha256 P ∧ p.contextSha256 = context.sha256 P
  proposal_bound : review.proposalSha256 = p.sha256 P
  readiness : reviewReadiness P context.sources review = .ok p.disposition.readiness
  backed : review.premises ≠ [] ∧ ∀ item ∈ review.premises, Backed context.sources item
  candidate : report.candidate = { c with facts := p.requirements.map ProposedFact.fact }
  closed : report.closure = some closure ∧ outcome P report.candidate raw q = .ok closure
  alternatives : ∀ r ∈ p.requirements, r.alternatives ≠ [] ∧ ∀ a ∈ r.alternatives, a.elems ≠ [] ∧
    ∀ id ∈ a, CitedInScope P c snap context r id
  quotes : ∀ cite ∈ p.citations, cite.evidenceId = none → ∃ cited ∈ report.cited, QuotedOnce P c snap context cite cited

/-- A result is covered only through the gate. -/
theorem covered_gated (h : evaluate P c raw q p review = .ok report) (hcovered : report.resolution = "covered") :
    ∃ context snap r closure, review = some r ∧ closure.resolution = .covered ∧
      Gate P c raw q p report context snap r closure := by
  obtain ⟨context, hreports⟩ := evaluate_reports h
  obtain ⟨closure, hclosed, hresolution⟩ := covered_closed hcovered
  obtain ⟨r, hr, haccepts⟩ := verdict_closed (hclosed ▸ hreports.judged)
  have hprepared := proposalContext_prepared hreports.prepared
  obtain ⟨snap, hsnap, hpinned⟩ := hprepared.pinned
  have hready := haccepts.readiness
  rw [haccepts.proceeds] at hready
  refine ⟨context, snap, r, closure, hr, hresolution, hreports.prepared, hsnap, haccepts.accepted,
    ⟨haccepts.context_bound.trans hreports.bound, hreports.bound⟩, haccepts.proposal_bound, haccepts.readiness,
    backed_of_supported hready, hreports.candidate, ⟨?_, haccepts.closed⟩, fun fact hfact => ?_,
    fun cite hcite hquote => ?_⟩
  · rw [Report.closure, hclosed]
  · obtain ⟨checked, -, hsupports⟩ := exists_of_forall₂ hreports.requirements hfact
    refine ⟨hsupports.alternatives.1, fun a ha => ⟨hsupports.alternatives.2 a ha, fun id hid => ?_⟩⟩
    obtain ⟨cited, hcited, hsource⟩ := hsupports.cited a ha id hid
    obtain ⟨cite, hcite, hchecks⟩ := exists_of_forall₂ hsupports.citations.flip hcited
    obtain ⟨s, hs⟩ := hchecks.source
    exact ⟨s, hs.mem, hs.id.trans hsource, hpinned s hs.mem, hs.business, cite, hcite, cited, hchecks, hsource⟩
  · obtain ⟨cited, hcited, hchecks⟩ := exists_of_forall₂ hreports.citations hcite
    obtain ⟨s, text, hs, hid, htext, hpointer, hquoted, honly⟩ := hchecks.quoted hquote
    exact ⟨cited, hcited, s, hs.mem, hid, hpinned s hs.mem, hs.business, hs.id.symm.trans hid, hpointer, hquoted, text,
      htext, honly⟩

/-! ## The fixture of the tests -/

/-- A root without rows is its own closure. -/
theorem closure_alone {s : Snapshot} {id : String} (helig : ineligible P c s id = none) (hrows : rowsAt s id = []) :
    EvidenceClosure.closure P c s (SortedSet.ofList [id]) = .ok ⟨SortedSet.ofList [id], SortedSet.ofList [id], []⟩ := by
  have hexpand : (closureSearch P c s).expand (SortedSet.ofList [id]) id 0 ⟨[], ∅⟩ = .ok ([], ⟨[], ∅⟩) := by
    change visitNode P c s _ id 0 _ = _
    rw [visitNode, helig, hrows]
    rfl
  have hrun : BreadthFirst.run (closureSearch P c s) ∅ ⟨[], ∅⟩ [(id, 0)] = .ok (SortedSet.ofList [id], ⟨[], ∅⟩) := by
    rw [BreadthFirst.run_go (SortedSet.not_mem_empty id) hexpand]
    change BreadthFirst.run _ _ _ [] = _
    rw [BreadthFirst.run]
    rfl
  have hqueue : (SortedSet.ofList [id]).elems.map (fun id => (id, 0)) = [(id, 0)] := rfl
  rw [EvidenceClosure.closure, hqueue, hrun]

/-- A contract with one fact of one alternative that closes. -/
theorem optionsOf_single {s : Snapshot} {f : Requirement} {a : Alternative} (hfacts : c.facts = [f])
    (h : closures P c s f = [(.ok a, 0)]) : optionsOf P c s = ⟨[[a]], [], [], false⟩ := by
  rw [optionsOf, hfacts, List.foldl_cons, List.foldl_nil, Options.add, h]
  simp [admittedOf, rejectedOf, Except.toOption]

/-- The report of a failed build. -/
def fixtureNode : Json :=
  ⟨.mkObject [("body", .string "Build failed. 不得發布。"), ("id", .string "source:one"),
    ("label", .string "Build report"), ("observed_utc", .string "2026-01-03T00:00:00Z"),
    ("provenance", .string "fixture:source"), ("type", .string "Decision")], Value.wf_mkObject (by simp)⟩

/-- The digest of everything. -/
def fixturePin : String := "6dadce81dcfbfe3b550d4a3e290da6014946db342a2ec0eefa14ed57fceb9f33"

/-- A platform that knows one journal entry and one digest. -/
def fixturePlatform : Platform where
  floatText := fun _ => "0.0"
  parseValue := fun _ => none
  parseEntry := fun _ => some ⟨"event:one", "2026-01-03T00:00:00Z", "node.upsert", fixtureNode⟩
  sha256Hex := fun _ => fixturePin
  tokens := fun _ => 1

/-- A journal of one line. -/
def fixtureJournal : ByteArray := "e".toUTF8

/-- A contract that pins the report. -/
def fixtureScope : Contract where
  version := 1
  question := "Can we publish?"
  scopeReceipt := "fixture:scope"
  scopeNodes := SortedSet.ofList ["source:one"]
  asOf := "2026-01-03T00:00:00Z"
  minObservedUtc := "2026-01-03T00:00:00Z"
  sources := SortedMap.empty.insert "source:one" fixturePin
  facts := []
  budgetTokens := 5000
  maxHops := 2
  searchLimit := 100

/-- A proposal that quotes the report. -/
def fixtureProposal : Proposal where
  contextSha256 := fixturePin
  citationContextSha256 := none
  question := "Can we publish?"
  goal := "Investigate the failed build"
  disposition := .proceedWithInvestigation
  requirements := [⟨"failure", "Preserve the reported failure and publication restriction",
    [⟨"source:one", "/body", "不得發布。", none⟩], [SortedSet.ofList ["source:one"]]⟩]
  unknowns := []

/-- A review that accepts the proposal for the span it quotes. -/
def fixtureReview : Review where
  contextSha256 := fixturePin
  proposalSha256 := fixturePin
  accepted := true
  reviewer := "fixture-controller"
  reason := "Compared proposal against source and task conditions"
  premises := [⟨"reviewed-premise", "The proposal disposition follows the inspected source", none,
    [⟨"source:one", "/body", 14, 29, fixturePin⟩], []⟩]

/-- The context of the fixture. -/
def fixtureContext : Context :=
  ⟨"Can we publish?", [⟨"source:one", fixtureNode.val, fixturePin⟩], fixturePin⟩

/-- The contract with the requirement as its fact. -/
def fixtureCandidate : Contract := { fixtureScope with facts := fixtureProposal.requirements.map ProposedFact.fact }

/-- The alternative of that fact, closed. -/
def fixtureAlternative : Alternative := ⟨SortedSet.ofList ["source:one"], SortedSet.ofList ["source:one"], []⟩

theorem fixture_snapshot : ∃ s, snapshot fixturePlatform fixtureCandidate.asOf fixtureJournal = .ok s ∧
    ineligible fixturePlatform fixtureCandidate s "source:one" = none ∧ rowsAt s "source:one" = [] ∧
      s.graph.nodes.get? "source:one" = some fixtureNode.val := by
  have hcheck : ((snapshot fixturePlatform fixtureCandidate.asOf fixtureJournal).toOption.map fun s =>
      decide (ineligible fixturePlatform fixtureCandidate s "source:one" = none ∧ rowsAt s "source:one" = [] ∧
        s.graph.nodes.get? "source:one" = some fixtureNode.val)) = some true := by
    decide +kernel
  cases hs : snapshot fixturePlatform fixtureCandidate.asOf fixtureJournal with
  | error e =>
    rw [hs] at hcheck
    cases hcheck
  | ok s =>
    rw [hs] at hcheck
    exact ⟨s, rfl, of_decide_eq_true (Option.some.inj hcheck)⟩

theorem fixture_selection (s : Snapshot) :
    ∃ selection, selectFacts fixturePlatform fixtureCandidate s [[fixtureAlternative]] = .ok selection := by
  refine exists_ok ?_
  -- Every packet costs one token, so the snapshot does not matter.
  change (do
    let graph ← ContextSelection.ContextGraph.new [⟨0, 1, 0⟩] []
    graph.selectFactsBy fixtureCandidate.budgetTokens (factsOf fixtureCandidate [[fixtureAlternative]])
      fixtureCandidate.searchLimit fun _ => .ok 1).isOk = true
  decide +kernel

theorem fixture_outcome : ∃ closure,
    outcome fixturePlatform fixtureCandidate fixtureJournal "Can we publish?" = .ok closure ∧
      closure.resolution = .covered := by
  obtain ⟨s, hs, helig, hrows, -⟩ := fixture_snapshot
  obtain ⟨selection, hselection⟩ := fixture_selection s
  have hoptions : optionsOf fixturePlatform fixtureCandidate s = ⟨[[fixtureAlternative]], [], [], false⟩ := by
    refine optionsOf_single rfl ?_
    change (List.map _ [SortedSet.ofList ["source:one"]]).zipIdx = _
    rw [List.map_singleton, closure_alone helig hrows]
    rfl
  have hclosed : ∃ closure, outcomeOf fixturePlatform fixtureCandidate s "Can we publish?" = .ok closure ∧
      closure.resolution = .covered := by
    unfold outcomeOf
    rw [hoptions]
    simp only [hselection]
    exact ⟨_, rfl, rfl⟩
  obtain ⟨closure, hclosure, hresolution⟩ := hclosed
  refine ⟨closure, bind_eq_ok.mpr ⟨(), ?_, bind_eq_ok.mpr ⟨s, mapError_eq_ok.mpr hs, hclosure⟩⟩, hresolution⟩
  decide +kernel

theorem fixture_context :
    proposalContext fixturePlatform fixtureScope fixtureJournal "Can we publish?" = .ok fixtureContext := by
  obtain ⟨s, hs, helig, -, hnode⟩ := fixture_snapshot
  have hinspect : inspect fixturePlatform fixtureScope s ("source:one", fixturePin) =
      .ok ⟨"source:one", fixtureNode.val, fixturePin⟩ := by
    have helig' : ineligible fixturePlatform fixtureScope s "source:one" = none := helig
    rw [inspect, helig', hnode]
    rfl
  have hsources : fixtureScope.sources.entries.mapM (inspect fixturePlatform fixtureScope s) =
      .ok fixtureContext.sources := by
    change [("source:one", fixturePin)].mapM (inspect fixturePlatform fixtureScope s) = _
    rw [List.mapM_cons, hinspect]
    rfl
  have hsize : ¬128 * 1024 < (fixtureContext.text fixturePlatform).utf8ByteSize := by
    have hbound : fixtureContext.json.sizeBound fixturePlatform.floatText ≤ 128 * 1024 := by decide +kernel
    rw [Context.text, Value.utf8ByteSize_toText, not_lt]
    exact (Value.textSize_le_bound _ _).trans hbound
  exact bind_eq_ok.mpr ⟨(), by decide +kernel, bind_eq_ok.mpr ⟨(), rfl, bind_eq_ok.mpr ⟨(), rfl,
    bind_eq_ok.mpr ⟨s, mapError_eq_ok.mpr hs, bind_eq_ok.mpr ⟨_, hsources,
      bind_eq_ok.mpr ⟨(), failIf_eq_ok.mpr hsize, rfl⟩⟩⟩⟩⟩⟩

theorem fixture_covered : ∃ report,
    evaluate fixturePlatform fixtureScope fixtureJournal "Can we publish?" fixtureProposal (some fixtureReview) =
      .ok report ∧ report.resolution = "covered" := by
  obtain ⟨closure, hclosure, hresolution⟩ := fixture_outcome
  have hready : reviewReadiness fixturePlatform fixtureContext.sources fixtureReview = .ok .supportedInvestigation := by
    decide +kernel
  obtain ⟨checked, hchecked⟩ := exists_ok (by decide +kernel :
    (fixtureProposal.requirements.foldlM (checkRequirement fixtureContext.sources) ⟨∅, [], []⟩).isOk = true)
  obtain ⟨-, -, -, hfacts⟩ := checkRequirements_ok hchecked
  have hverdict : verdict fixturePlatform fixtureJournal "Can we publish?" fixtureContext fixtureProposal
      { fixtureScope with facts := checked.facts } (some fixtureReview) = .ok (.closed closure) := by
    rw [hfacts]
    exact bind_eq_ok.mpr ⟨(), by decide +kernel, bind_eq_ok.mpr ⟨_, hready, bind_eq_ok.mpr ⟨(), rfl,
      bind_eq_ok.mpr ⟨closure, mapError_eq_ok.mpr hclosure, rfl⟩⟩⟩⟩
  exact ⟨_, bind_eq_ok.mpr ⟨_, fixture_context, bind_eq_ok.mpr ⟨(), by decide +kernel, bind_eq_ok.mpr ⟨(), rfl,
    bind_eq_ok.mpr ⟨(), by decide +kernel, bind_eq_ok.mpr ⟨checked, hchecked, bind_eq_ok.mpr ⟨[], rfl,
      bind_eq_ok.mpr ⟨_, hverdict, rfl⟩⟩⟩⟩⟩⟩⟩, congrArg Resolution.text hresolution⟩

theorem covered_gated_fixture : ∃ report context snap r closure,
    evaluate fixturePlatform fixtureScope fixtureJournal "Can we publish?" fixtureProposal (some fixtureReview) =
      .ok report ∧ report.resolution = "covered" ∧ some fixtureReview = some r ∧ closure.resolution = .covered ∧
      Gate fixturePlatform fixtureScope fixtureJournal "Can we publish?" fixtureProposal report context snap r closure := by
  obtain ⟨report, h, hcovered⟩ := fixture_covered
  obtain ⟨context, snap, r, closure, hr, hresolution, hgate⟩ := covered_gated h hcovered
  exact ⟨report, context, snap, r, closure, h, hcovered, hr, hresolution, hgate⟩

end Innen.TaskProposal
