import Innen.WikiGraph.Effects
import Mathlib.Data.List.ReduceOption

/-!
# What a plan asks for

The pages of a plan have different ids, and a page whose path is registered has the id of the registration. The nodes
that are asked for are those of the pages and of sources. The node events of a plan carry fields of these or mark a
managed node; no other node is written, and no key that somebody else asserts is retracted.
-/

namespace Innen.Common

/-- Looking up in a filtered list whose keys ascend. -/
theorem Assoc.get?_filter {κ α : Type*} [LinearOrder κ] {l : List (κ × α)} (h : Assoc.Ascending l) (keep : κ × α → Bool)
    (k : κ) : Assoc.get? k (l.filter keep) = (Assoc.get? k l).filter fun v => keep (k, v) := by
  induction l with
  | nil => rfl
  | cons e rest ih =>
    obtain ⟨k₀, v₀⟩ := e
    obtain ⟨hlt, hrest⟩ := Assoc.ascending_cons.mp h
    have hrest' := ih hrest
    by_cases hk : k = k₀
    · subst hk
      have hnone : Assoc.get? k rest = none := Assoc.get?_eq_none_of_forall_lt hlt
      rw [hnone, Option.filter_none] at hrest'
      cases hkeep : keep (k, v₀) with
      | true =>
        rw [List.filter_cons_of_pos hkeep, Assoc.get?_cons, Assoc.get?_cons, if_pos rfl, if_pos rfl,
          Option.filter_some, if_pos hkeep]
      | false =>
        rw [List.filter_cons_of_neg (by simp [hkeep]), hrest', Assoc.get?_cons, if_pos rfl, Option.filter_some,
          if_neg (by simp [hkeep])]
    · cases hkeep : keep (k₀, v₀) with
      | true => rw [List.filter_cons_of_pos hkeep, Assoc.get?_cons, Assoc.get?_cons, if_neg hk, if_neg hk, hrest']
      | false => rw [List.filter_cons_of_neg (by simp [hkeep]), hrest', Assoc.get?_cons, if_neg hk]

/-- The groups of a list are those of its elements that are not empty. -/
theorem SortedMap.get?_groupBy {κ α γ : Type*} [LinearOrder κ] (key : γ → κ) (val : γ → α) (l : List γ) (k : κ) :
    (SortedMap.groupBy key val l).get? k =
      if (l.filter fun a => decide (key a = k)) = [] then none
      else some ((l.filter fun a => decide (key a = k)).map val) := by
  have hget := SortedMap.getD_groupBy key val l k
  split_ifs with hnone
  · induction l using List.reverseRecOn with
    | nil => rfl
    | append_singleton l a ih =>
      rw [List.filter_append, List.append_eq_nil_iff] at hnone
      have ha : key a ≠ k := by
        intro hkey
        have hmem : a ∈ [a].filter fun b => decide (key b = k) :=
          List.mem_filter.mpr ⟨List.mem_cons_self, decide_eq_true hkey⟩
        rw [hnone.2] at hmem
        cases hmem
      have hstep : SortedMap.groupBy key val (l ++ [a]) =
          (SortedMap.groupBy key val l).upsert (key a) [] (· ++ [val a]) := by
        rw [SortedMap.groupBy, List.foldl_append]
        rfl
      rw [hstep, SortedMap.get?_upsert, if_neg ha.symm]
      exact ih (SortedMap.getD_groupBy key val l k) hnone.1
  · cases hgroup : (SortedMap.groupBy key val l).get? k with
    | none =>
      rw [hgroup, Option.getD_none] at hget
      exact absurd (List.map_eq_nil_iff.mp hget.symm) hnone
    | some group => rw [← hget, hgroup, Option.getD_some]

end Innen.Common

namespace Innen.WikiGraph

open Common Graph Journal

variable {P : Platform}

/-! ## Registration -/

theorem registerNode_ok {m m' : SortedMap String String} {e : String × Value} (h : registerNode m e = .ok m') :
    (registeredPath e.2 = none ∧ m' = m) ∨
      ∃ path, registeredPath e.2 = some path ∧ (∀ id, m.get? path = some id → id = e.1) ∧
        m' = m.insert path e.1 := by
  unfold registerNode at h
  cases hpath : registeredPath e.2 with
  | none =>
    rw [hpath] at h
    exact .inl ⟨rfl, (Except.ok.inj h).symm⟩
  | some path =>
    rw [hpath] at h
    refine .inr ⟨path, rfl, ?_⟩
    cases hprevious : m.get? path with
    | none =>
      simp only [hprevious] at h
      exact ⟨fun id hid => (by cases hid), (Except.ok.inj h).symm⟩
    | some previous =>
      simp only [hprevious] at h
      split_ifs at h with hsame
      · exact ⟨fun id hid => (Option.some.inj hid).symm.trans (not_not.mp hsame), (Except.ok.inj h).symm⟩

/-- A path has the id of the nodes that are registered for it. -/
theorem register_get? {l : List (String × Value)} {m m' : SortedMap String String}
    (h : l.foldlM registerNode m = .ok m') (path id : String) :
    m'.get? path = some id ↔ (∃ node, (id, node) ∈ l ∧ registeredPath node = some path) ∨ m.get? path = some id := by
  induction l generalizing m with
  | nil =>
    obtain rfl := Except.ok.inj h
    simp
  | cons e rest ih =>
    rw [List.foldlM_cons, bind_eq_ok] at h
    obtain ⟨c, hc, hrest⟩ := h
    rw [ih hrest]
    rcases registerNode_ok hc with ⟨hnone, rfl⟩ | ⟨path', hpath', hsame, rfl⟩
    · refine or_congr_left ⟨fun ⟨node, hmem, hnode⟩ => ⟨node, List.mem_cons_of_mem _ hmem, hnode⟩, ?_⟩
      rintro ⟨node, hmem, hnode⟩
      rcases List.mem_cons.mp hmem with rfl | hmem
      · exact absurd (hnone.symm.trans hnode) (by simp)
      · exact ⟨node, hmem, hnode⟩
    · rw [SortedMap.get?_insert]
      by_cases heq : path = path'
      · subst heq
        rw [if_pos rfl]
        constructor
        · rintro (⟨node, hmem, hnode⟩ | hid)
          · exact .inl ⟨node, List.mem_cons_of_mem _ hmem, hnode⟩
          · obtain rfl := Option.some.inj hid
            exact .inl ⟨e.2, List.mem_cons_self, hpath'⟩
        · rintro (⟨node, hmem, hnode⟩ | hid)
          · rcases List.mem_cons.mp hmem with rfl | hmem
            · exact .inr rfl
            · exact .inl ⟨node, hmem, hnode⟩
          · exact .inr (congrArg some (hsame id hid).symm)
      · rw [if_neg heq]
        refine or_congr_left ⟨fun ⟨node, hmem, hnode⟩ => ⟨node, List.mem_cons_of_mem _ hmem, hnode⟩, ?_⟩
        rintro ⟨node, hmem, hnode⟩
        rcases List.mem_cons.mp hmem with rfl | hmem
        · exact absurd (Option.some.inj (hnode.symm.trans hpath')) heq
        · exact ⟨node, hmem, hnode⟩

/-- No two managed wiki nodes have one path. -/
def PathsDistinct (graph : Materialized) : Prop :=
  ∀ id id' node node' path, graph.nodes.get? id = some node → graph.nodes.get? id' = some node' →
    registeredPath node = some path → registeredPath node' = some path → id = id'

/-- Then registering does not fail. -/
theorem register_of_distinct {l : List (String × Value)} {m : SortedMap String String}
    (hl : ∀ e ∈ l, ∀ d ∈ l, ∀ path, registeredPath e.2 = some path → registeredPath d.2 = some path → e.1 = d.1)
    (hm : ∀ e ∈ l, ∀ path id, registeredPath e.2 = some path → m.get? path = some id → id = e.1) :
    ∃ m', l.foldlM registerNode m = .ok m' := by
  induction l generalizing m with
  | nil => exact ⟨m, rfl⟩
  | cons e rest ih =>
    have hrest : ∀ d ∈ rest, ∀ d' ∈ rest, ∀ path, registeredPath d.2 = some path → registeredPath d'.2 = some path →
        d.1 = d'.1 := fun d hd d' hd' => hl d (List.mem_cons_of_mem _ hd) d' (List.mem_cons_of_mem _ hd')
    rw [List.foldlM_cons]
    cases hpath : registeredPath e.2 with
    | none =>
      have hstep : registerNode m e = .ok m := by rw [registerNode, hpath]
      obtain ⟨m', hm'⟩ := ih hrest fun d hd => hm d (List.mem_cons_of_mem _ hd)
      exact ⟨m', bind_eq_ok.mpr ⟨m, hstep, hm'⟩⟩
    | some path =>
      have hstep : registerNode m e = .ok (m.insert path e.1) := by
        cases hprevious : m.get? path with
        | none => simp only [registerNode, hpath, hprevious]
        | some previous =>
          have hsame := hm e List.mem_cons_self path previous hpath hprevious
          simp only [registerNode, hpath, hprevious]
          exact if_neg (not_not.mpr hsame)
      obtain ⟨m', hm'⟩ := ih (m := m.insert path e.1) hrest fun d hd path' id hpath' hid => by
        rw [SortedMap.get?_insert] at hid
        split_ifs at hid with hsame
        · subst hsame
          obtain rfl := Option.some.inj hid
          exact hl e List.mem_cons_self d (List.mem_cons_of_mem _ hd) path' hpath hpath'
        · exact hm d (List.mem_cons_of_mem _ hd) path' id hpath' hid
      exact ⟨m', bind_eq_ok.mpr ⟨_, hstep, hm'⟩⟩

/-! ## Ids of pages -/

theorem claimIds_ok {registered claimed : SortedMap String String} {pages out : List WikiPage}
    (h : claimIds P registered claimed pages = .ok out) :
    out = pages.map (fun page => { page with id := idFor P registered page }) ∧ (out.map WikiPage.id).Nodup ∧
      ∀ page ∈ out, claimed.get? page.id = none := by
  induction pages generalizing claimed out with
  | nil =>
    obtain rfl := Except.ok.inj h
    exact ⟨rfl, List.nodup_nil, fun page hpage => absurd hpage List.not_mem_nil⟩
  | cons page rest ih =>
    rw [claimIds] at h
    cases hclaimed : claimed.get? (idFor P registered page) with
    | some previous => simp [hclaimed] at h
    | none =>
      simp only [hclaimed] at h
      cases hrest : claimIds P registered (claimed.insert (idFor P registered page) page.wikiPath) rest with
      | error e => simp [hrest, Except.map] at h
      | ok tail =>
        rw [hrest] at h
        obtain rfl := Except.ok.inj h
        obtain ⟨htail, hnodup, hfree⟩ := ih hrest
        have hnew : ∀ p ∈ tail, p.id ≠ idFor P registered page ∧ claimed.get? p.id = none := by
          intro p hp
          have hget := hfree p hp
          rw [SortedMap.get?_insert] at hget
          split_ifs at hget with hsame
          exact ⟨hsame, hget⟩
        refine ⟨by rw [htail]; rfl, ?_, ?_⟩
        · refine List.nodup_cons.mpr ⟨fun hmem => ?_, hnodup⟩
          obtain ⟨p, hp, hid⟩ := List.mem_map.mp hmem
          exact (hnew p hp).1 hid
        · intro p hp
          rcases List.mem_cons.mp hp with rfl | hp
          · exact hclaimed
          · exact (hnew p hp).2

/-- What is known about the pages once they have their ids. -/
structure Assigned (graph : Materialized) (read pages : List WikiPage) : Prop where
  ids : (pages.map WikiPage.id).Nodup
  paths : pages.map WikiPage.wikiPath = read.map WikiPage.wikiPath
  registered : ∀ page ∈ pages, ∀ id node, graph.nodes.get? id = some node →
    registeredPath node = some page.wikiPath → page.id = id

theorem assigned_of_assignIds {V : Visit} {read pages : List WikiPage} {graph : Materialized}
    (h : assignIds P V read graph = .ok pages) : Assigned graph read pages := by
  obtain ⟨registered, hregistered, hclaim⟩ := bind_eq_ok.mp h
  obtain ⟨rfl, hnodup, -⟩ := claimIds_ok hclaim
  refine ⟨hnodup, ?_, ?_⟩
  · rw [List.map_map]
    rfl
  · intro page hpage id node hnode hpath
    obtain ⟨page', -, rfl⟩ := List.mem_map.mp hpage
    have hmem : (id, node) ∈ V.order graph.nodes :=
      (V.perm graph.nodes).mem_iff.mpr ((SortedMap.mem_entries_iff _).mpr hnode)
    have hget := (register_get? hregistered page'.wikiPath id).mpr (.inl ⟨node, hmem, hpath⟩)
    simp only [idFor, hget, Option.some_or, Option.getD_some]

/-! ## Nodes that are asked for -/

/-- A source of a page that is no page and has a locator, so that it needs a node of its own. -/
def NeedsSource (place : Place) (pages : List WikiPage) (raw : String) (locator : Locator) : Prop :=
  (∃ page ∈ pages, ∃ reference ∈ page.sources, trim reference = raw) ∧
    (WikiResolver.new pages).resolve raw = .missing ∧ locatorOf place raw = some locator

/-- Every node that is asked for is that of a page or that of a source. -/
def PagesOrSources (P : Platform) (place : Place) (pages : List WikiPage) (nodes : SortedMap String Json) : Prop :=
  ∀ id payload, nodes.get? id = some payload →
    (∃ page ∈ pages, page.id = id ∧ payload = wikiNode page) ∨
      ∃ raw locator, NeedsSource place pages raw locator ∧ sourceNodeId P raw = id ∧ payload = sourceNode P raw locator

theorem resolveSource_nodes (place : Place) (graph : Materialized) (resolver : WikiResolver)
    (nodes : SortedMap String Json) (sourceRef : String) :
    (resolveSource P place graph resolver nodes sourceRef).2 = nodes ∨
      ∃ locator, locatorOf place (trim sourceRef) = some locator ∧ resolver.resolve (trim sourceRef) = .missing ∧
        nodes.get? (sourceNodeId P (trim sourceRef)) = none ∧
        (resolveSource P place graph resolver nodes sourceRef).2 =
          nodes.insert (sourceNodeId P (trim sourceRef)) (sourceNode P (trim sourceRef) locator) := by
  unfold resolveSource
  dsimp only
  split
  · exact .inl rfl
  · split
    · exact .inl rfl
    · split
      · exact .inl rfl
      · exact .inl rfl
      · rename_i hmissing
        split
        · exact .inl rfl
        · rename_i locator hlocator
          cases hnode : nodes.get? (sourceNodeId P (trim sourceRef)) with
          | some _ => exact .inl rfl
          | none => exact .inr ⟨locator, hlocator, hmissing, rfl, rfl⟩

theorem addSource_nodes (place : Place) (graph : Materialized) (resolver : WikiResolver) (page : WikiPage)
    (desired : Desired) (sourceRef : String) :
    (addSource P place graph resolver page desired sourceRef).nodes =
      (resolveSource P place graph resolver desired.nodes sourceRef).2 := by
  cases htarget : (resolveSource P place graph resolver desired.nodes sourceRef).1 with
  | none => simp only [addSource, htarget]
  | some target => simp only [addSource, htarget]

theorem addRelated_nodes (resolver : WikiResolver) (page : WikiPage) (desired : Desired) (relatedRef : String) :
    (addRelated P resolver page desired relatedRef).nodes = desired.nodes := by
  unfold addRelated
  split <;> rfl

/-- What each reference keeps, all pages together keep. -/
theorem desiredOf_induction {place : Place} {graph : Materialized} {pages : List WikiPage} (motive : Desired → Prop)
    (hstart : motive ⟨pageNodes pages, ∅⟩)
    (hsource : ∀ page ∈ pages, ∀ ref ∈ page.sources, ∀ desired, motive desired →
      motive (addSource P place graph (.new pages) page desired ref))
    (hrelated : ∀ page ∈ pages, ∀ ref ∈ page.related, ∀ desired, motive desired →
      motive (addRelated P (.new pages) page desired ref)) :
    motive (desiredOf P place graph pages) := by
  have hfold : ∀ {α : Type} (f : Desired → α → Desired) (l : List α) (desired : Desired), motive desired →
      (∀ a ∈ l, ∀ d, motive d → motive (f d a)) → motive (l.foldl f desired) := by
    intro α f l
    induction l with
    | nil => exact fun desired hdesired _ => hdesired
    | cons a rest ih =>
      intro desired hdesired hstep
      exact ih _ (hstep a List.mem_cons_self _ hdesired) fun b hb => hstep b (List.mem_cons_of_mem _ hb)
  refine hfold _ pages _ hstart fun page hpage desired hdesired => ?_
  refine hfold _ page.related _ ?_ fun ref href => hrelated page hpage ref href
  exact hfold _ page.sources _ hdesired fun ref href => hsource page hpage ref href

theorem pagesOrSources_pageNodes (place : Place) (pages : List WikiPage) :
    PagesOrSources P place pages (pageNodes pages) := by
  have hfold : ∀ (l : List WikiPage) (nodes : SortedMap String Json), (∀ page ∈ l, page ∈ pages) →
      PagesOrSources P place pages nodes →
      PagesOrSources P place pages (l.foldl (fun nodes page => nodes.insert page.id (wikiNode page)) nodes) := by
    intro l
    induction l with
    | nil => exact fun nodes _ hnodes => hnodes
    | cons page rest ih =>
      intro nodes hl hnodes
      refine ih _ (fun p hp => hl p (List.mem_cons_of_mem _ hp)) fun id payload hget => ?_
      rw [SortedMap.get?_insert] at hget
      split_ifs at hget with hsame
      · exact .inl ⟨page, hl page List.mem_cons_self, hsame.symm, (Option.some.inj hget).symm⟩
      · exact hnodes id payload hget
  exact hfold pages ∅ (fun page hpage => hpage) fun id payload hget => (by cases hget)

theorem PagesOrSources.addSource {place : Place} {graph : Materialized} {pages : List WikiPage} {desired : Desired}
    (h : PagesOrSources P place pages desired.nodes) {page : WikiPage} (hpage : page ∈ pages) {reference : String}
    (href : reference ∈ page.sources) :
    PagesOrSources P place pages (WikiGraph.addSource P place graph (.new pages) page desired reference).nodes := by
  rw [addSource_nodes]
  rcases resolveSource_nodes (P := P) place graph (.new pages) desired.nodes reference with hsame |
    ⟨locator, hlocator, hmissing, -, hinsert⟩
  · rw [hsame]
    exact h
  · rw [hinsert]
    intro id payload hget
    rw [SortedMap.get?_insert] at hget
    split_ifs at hget with hid
    · exact .inr ⟨trim reference, locator, ⟨⟨page, hpage, reference, href, rfl⟩, hmissing, hlocator⟩, hid.symm,
        (Option.some.inj hget).symm⟩
    · exact h id payload hget

theorem pagesOrSources_desiredOf (place : Place) (graph : Materialized) (pages : List WikiPage) :
    PagesOrSources P place pages (desiredOf P place graph pages).nodes := by
  refine desiredOf_induction (fun desired => PagesOrSources P place pages desired.nodes)
    (pagesOrSources_pageNodes place pages) (fun page hpage ref href desired hdesired => hdesired.addSource hpage href) ?_
  intro page _ ref _ desired hdesired
  rw [addRelated_nodes]
  exact hdesired

/-! ## Edges that are asked for -/

theorem get?_insertEdge (edges : SortedMap EdgeKey String) (start kind target field reference : String) (key : EdgeKey) :
    (insertEdge P edges start kind target field reference).get? key =
      (edges.get? key).or (if key = .of start kind target then some (edgeProvenance P start field reference) else none) := by
  unfold insertEdge
  cases hget : edges.get? (.of start kind target) with
  | some old =>
    by_cases hkey : key = .of start kind target
    · rw [hkey, hget, Option.some_or]
    · rw [if_neg hkey, Option.or_none]
  | none =>
    simp only [SortedMap.get?_insert]
    by_cases hkey : key = .of start kind target
    · rw [hkey, if_pos rfl, if_pos rfl, hget, Option.none_or]
    · rw [if_neg hkey, if_neg hkey, Option.or_none]

theorem addSource_edges (place : Place) (graph : Materialized) (resolver : WikiResolver) (page : WikiPage)
    (desired : Desired) (sourceRef : String) :
    (addSource P place graph resolver page desired sourceRef).edges =
      match (resolveSource P place graph resolver desired.nodes sourceRef).1 with
      | some target => insertEdge P desired.edges page.id "DERIVED_FROM" target "sources" sourceRef
      | none => desired.edges := by
  cases hresolved : (resolveSource P place graph resolver desired.nodes sourceRef).1 <;>
    simp only [addSource, hresolved]

theorem addRelated_edges (resolver : WikiResolver) (page : WikiPage) (desired : Desired) (relatedRef : String) :
    (addRelated P resolver page desired relatedRef).edges =
      match resolver.resolve relatedRef with
      | .one target => insertEdge P desired.edges page.id "RELATED_TO" target "related" relatedRef
      | _ => desired.edges := by
  cases hresolved : resolver.resolve relatedRef <;> simp only [addRelated, hresolved]

theorem startsWith_append (s t : String) : startsWith (s ++ t) s = true := by
  rw [startsWith, String.toList_append]
  exact List.isPrefixOf_iff_prefix.mpr (List.prefix_append _ _)

theorem startsWith_edgeProvenance (start field reference : String) :
    startsWith (edgeProvenance P start field reference) edgeProvenanceStart = true := by
  simp only [edgeProvenance, String.append_assoc]
  exact startsWith_append _ _

/-- Every edge that is asked for has the provenance of the projection. -/
theorem owned_desiredOf (place : Place) (graph : Materialized) (pages : List WikiPage) :
    ∀ key provenance, (desiredOf P place graph pages).edges.get? key = some provenance →
      startsWith provenance edgeProvenanceStart = true := by
  have hinsert : ∀ (edges : SortedMap EdgeKey String) (start kind target field reference : String),
      (∀ key provenance, edges.get? key = some provenance → startsWith provenance edgeProvenanceStart = true) →
      ∀ key provenance, (insertEdge P edges start kind target field reference).get? key = some provenance →
        startsWith provenance edgeProvenanceStart = true := by
    intro edges start kind target field reference hedges key provenance hget
    rw [get?_insertEdge, Option.or_eq_some_iff] at hget
    rcases hget with hget | ⟨-, hget⟩
    · exact hedges key provenance hget
    · split_ifs at hget
      obtain rfl := Option.some.inj hget
      exact startsWith_edgeProvenance start field reference
  refine desiredOf_induction (fun desired => ∀ key provenance, desired.edges.get? key = some provenance →
    startsWith provenance edgeProvenanceStart = true) (fun key provenance hget => by cases hget) ?_ ?_
  · intro page _ ref _ desired hdesired
    rw [addSource_edges]
    split
    · exact hinsert _ _ _ _ _ _ hdesired
    · exact hdesired
  · intro page _ ref _ desired hdesired
    rw [addRelated_edges]
    split
    · exact hinsert _ _ _ _ _ _ hdesired
    · exact hdesired

/-! ## The parts of a plan -/

theorem plan_ok {V : Visit} {place : Place} {files : List PageFile} {graph : Materialized} {p : Plan}
    (h : plan P V place files graph = .ok p) :
    ∃ pages changed, assignIds P V (preflight place files).pages graph = .ok pages ∧
      (desiredOf P place graph pages).nodes.entries.mapM (planNode graph) = .ok changed ∧
      p.nodes = changed.reduceOption ++ ((V.order graph.nodes).filter fun e => vanished (pages.map WikiPage.wikiPath ++
        (skippedNodes graph (preflight place files).skippedPaths).filterMap fun e => wikiPathOf e.2) e.2).map
          (fun e => missingNode e.1) ∧
      p.retracts = ((liveOwnedEdges graph).entries.filter (retracted (desiredOf P place graph pages)
        (liveForeignKeys graph) ((skippedNodes graph (preflight place files).skippedPaths).map Prod.fst))).map Prod.fst ∧
      p.asserts = (desiredOf P place graph pages).edges.entries.filter (asserted (liveOwnedEdges graph) p.retracts) := by
  obtain ⟨pages, hpages, hrest⟩ := bind_eq_ok.mp h
  obtain ⟨changed, hchanged, hplan⟩ := bind_eq_ok.mp hrest
  obtain rfl := Except.ok.inj hplan
  exact ⟨pages, changed, hpages, hchanged, rfl, rfl, rfl⟩

/-- A node event of a plan: the fields that differ from those of a page or a source, or the mark of a page that is
gone. -/
inductive Writes (P : Platform) (graph : Materialized) (pages : List WikiPage) : Json → Prop
  | page {page : WikiPage} {payload : Json} (hpage : page ∈ pages)
      (hplan : planNode graph (page.id, wikiNode page) = .ok (some payload)) : Writes P graph pages payload
  | source {raw : String} {locator : Locator} {payload : Json}
      (hplan : planNode graph (sourceNodeId P raw, sourceNode P raw locator) = .ok (some payload)) :
      Writes P graph pages payload
  | gone {id path : String} {node : Value} (hnode : graph.nodes.get? id = some node)
      (hpath : registeredPath node = some path) : Writes P graph pages (missingNode id)

/-- What a plan contains, with what is known of the pages. -/
structure Planned (P : Platform) (place : Place) (files : List PageFile) (graph : Materialized) (pages : List WikiPage)
    (p : Plan) : Prop where
  assigned : Assigned graph (preflight place files).pages pages
  writes : ∀ payload ∈ p.nodes, Writes P graph pages payload
  retracts : ∀ key ∈ p.retracts, key ∈ (liveOwnedEdges graph).keys ∧ key ∉ liveForeignKeys graph
  asserts : ∀ e ∈ p.asserts, startsWith e.2 edgeProvenanceStart = true

theorem planned_of_ok {V : Visit} {place : Place} {files : List PageFile} {graph : Materialized} {p : Plan}
    (h : plan P V place files graph = .ok p) : ∃ pages, Planned P place files graph pages p := by
  obtain ⟨pages, changed, hpages, hchanged, hnodes, hretracts, hasserts⟩ := plan_ok h
  refine ⟨pages, assigned_of_assignIds hpages, ?_, ?_, ?_⟩
  · intro payload hpayload
    rw [hnodes] at hpayload
    rcases List.mem_append.mp hpayload with hpayload | hpayload
    · obtain ⟨⟨id, desired⟩, he, hplan⟩ := (mapM_ok hchanged).1 _ (List.reduceOption_mem_iff.mp hpayload)
      rcases pagesOrSources_desiredOf place graph pages id desired ((SortedMap.mem_entries_iff _).mp he) with
        ⟨page, hpage, rfl, rfl⟩ | ⟨raw, locator, -, rfl, rfl⟩
      · exact .page hpage hplan
      · exact .source hplan
    · obtain ⟨e, he, rfl⟩ := List.mem_map.mp hpayload
      obtain ⟨hmem, hvanished⟩ := List.mem_filter.mp he
      obtain ⟨path, hpath, -⟩ := (Option.any_eq_true _ _).mp hvanished
      exact .gone ((SortedMap.mem_entries_iff _).mp ((V.perm graph.nodes).mem_iff.mp hmem)) hpath
  · intro key hkey
    rw [hretracts] at hkey
    obtain ⟨e, he, rfl⟩ := List.mem_map.mp hkey
    obtain ⟨hmem, hretracted⟩ := List.mem_filter.mp he
    simp only [retracted, Bool.and_eq_true, decide_eq_true_eq] at hretracted
    exact ⟨List.mem_map_of_mem hmem, hretracted.1.2⟩
  · intro e he
    rw [hasserts] at he
    exact owned_desiredOf place graph pages e.1 e.2 ((SortedMap.mem_entries_iff _).mp (List.mem_of_mem_filter he))

end Innen.WikiGraph
