import Innen.Common.Layers
import Innen.EvidenceClosure.Closure
import Innen.EvidenceClosure.Replayed

/-!
# The bound on hops

The walk of an alternative refuses to leave nodes at depth `max_hops`, except to nodes it has visited. Where everything
reached is in order, it ends well when all of it lies within the bound and no dependency leads from a node at the bound
to another one that is visited later. So it can refuse a graph that lies within the bound, and whether it does depends
on the order of the edges.
-/

namespace Innen.EvidenceClosure

open Innen.Common Innen.Graph

/-! ## What is within reach -/

/-- The snapshot with other edges. -/
def Snapshot.withEdges (s : Snapshot) (edges : List StoredEdge) : Snapshot :=
  { s with graph := { s.graph with edges := edges }, adjacency := edges.foldl addAdjacent ∅ }

/-- An active dependency of a node. -/
def isDependency (id : String) (e : StoredEdge) : Bool := !e.retracted && e.edge.name = "DEPENDS_ON" && e.from = id

/-- The nodes a node depends on, in the order of the edges. -/
def dependencies (edges : List StoredEdge) (id : String) : List String := (edges.filter (isDependency id)).map (·.to)

/-- A node is reached from the roots in so many dependencies. -/
abbrev HopsTo (edges : List StoredEdge) (roots : SortedSet String) (n : ℕ) (id : String) : Prop :=
  Layers.Hops (dependencies edges) roots.elems n id

/-- A node is reached from the roots. -/
def Reachable (edges : List StoredEdge) (roots : SortedSet String) (id : String) : Prop := ∃ n, HopsTo edges roots n id

/-- Everything reached lies within the bound. -/
def WithinHops (edges : List StoredEdge) (roots : SortedSet String) (bound : ℕ) : Prop :=
  ∀ id, Reachable edges roots id → ∃ n ≤ bound, HopsTo edges roots n id

theorem mem_dependencies {edges : List StoredEdge} {id target : String} :
    target ∈ dependencies edges id ↔ ∃ e ∈ edges, isDependency id e = true ∧ e.to = target := by
  simp only [dependencies, List.mem_map, List.mem_filter, and_assoc]

/-- The order of the edges does not matter to what is reached. -/
theorem hopsTo_perm {edges edges' : List StoredEdge} (h : edges'.Perm edges) {roots : SortedSet String} {n : ℕ}
    {id : String} : HopsTo edges' roots n id ↔ HopsTo edges roots n id := by
  constructor
  · refine Layers.Hops.mono fun a b hb => ?_
    obtain ⟨e, he, hdep⟩ := mem_dependencies.mp hb
    exact mem_dependencies.mpr ⟨e, h.mem_iff.mp he, hdep⟩
  · refine Layers.Hops.mono fun a b hb => ?_
    obtain ⟨e, he, hdep⟩ := mem_dependencies.mp hb
    exact mem_dependencies.mpr ⟨e, h.mem_iff.mpr he, hdep⟩

variable {P : Platform} {c : Contract} {s : Snapshot}

/-- Everything reached is in order: the nodes are eligible and touch no contradiction, and the dependencies have a
provenance and citations. -/
structure Clear (P : Platform) (c : Contract) (s : Snapshot) (edges : List StoredEdge) (roots : SortedSet String) :
    Prop where
  eligible : ∀ id, Reachable edges roots id → ineligible P c s id = none
  unconflicted : ∀ e ∈ edges, e.retracted = false → e.edge.name = "CONTRADICTS" →
    ¬Reachable edges roots e.from ∧ ¬Reachable edges roots e.to
  provenance : ∀ id, Reachable edges roots id → ∀ e ∈ edges, isDependency id e = true →
    blankProvenance e.provenance = false
  cited : ∀ id, Reachable edges roots id → ∀ e ∈ edges, isDependency id e = true →
    (s.edgeCitations.get? (receiptText P e)).isSome = true

/-- So is it with the edges in another order. -/
theorem Clear.perm {edges edges' : List StoredEdge} {roots : SortedSet String} (h : Clear P c s edges roots)
    (hperm : edges'.Perm edges) : Clear P c s edges' roots := by
  have hreach : ∀ {id}, Reachable edges' roots id ↔ Reachable edges roots id := exists_congr fun n => hopsTo_perm hperm
  refine ⟨fun id hid => h.eligible id (hreach.mp hid), fun e he hlive hkind => ?_, fun id hid e he => ?_, fun id hid e he => ?_⟩
  · obtain ⟨hfrom, hto⟩ := h.unconflicted e (hperm.mem_iff.mp he) hlive hkind
    exact ⟨fun hr => hfrom (hreach.mp hr), fun hr => hto (hreach.mp hr)⟩
  · exact h.provenance id (hreach.mp hid) e (hperm.mem_iff.mp he)
  · exact h.cited id (hreach.mp hid) e (hperm.mem_iff.mp he)

/-! ## One visit -/

/-- The path of a dependency. -/
def pathOf (P : Platform) (s : Snapshot) (e : StoredEdge) : Path :=
  ⟨edgeReceipt e, (s.edgeCitations.get? (receiptText P e)).getD []⟩

/-- Record the dependencies of a node. -/
def recordNode (P : Platform) (s : Snapshot) (edges : List StoredEdge) (trace : Trace) (id : String) : Trace :=
  (edges.filter (isDependency id)).foldl (fun trace e => trace.add P (pathOf P s e)) trace

theorem rowsAt_withEdges (edges : List StoredEdge) (id : String) :
    rowsAt (s.withEdges edges) id = edges.filter (filedAt id) := rowsUnder_foldl edges ∅ id

theorem isDependency_iff {id : String} {e : StoredEdge} :
    isDependency id e = true ↔ e.retracted = false ∧ e.edge.name = "DEPENDS_ON" ∧ e.from = id := by
  simp only [isDependency, Bool.and_eq_true, Bool.not_eq_true', decide_eq_true_eq, and_assoc]

/-- Only dependencies are filed under a node that is reached. -/
theorem rowsAt_of_clear {edges : List StoredEdge} {roots : SortedSet String} (h : Clear P c s edges roots) {id : String}
    (hid : Reachable edges roots id) : rowsAt (s.withEdges edges) id = edges.filter (isDependency id) := by
  rw [rowsAt_withEdges]
  refine List.filter_congr fun e he => ?_
  have hkinds : e.edge.name = "CONTRADICTS" → e.edge.name ≠ "DEPENDS_ON" := fun hc hd =>
    absurd (hc.symm.trans hd) (by decide)
  cases hlive : e.retracted with
  | true => simp [filedAt, isDependency, hlive]
  | false =>
    by_cases hconflict : e.edge.name = "CONTRADICTS"
    · obtain ⟨hfrom, hto⟩ := h.unconflicted e he hlive hconflict
      have hne : e.from ≠ id ∧ e.to ≠ id := ⟨fun heq => hfrom (heq ▸ hid), fun heq => hto (heq ▸ hid)⟩
      simp [filedAt, isDependency, hlive, hne.1, hne.2]
    · simp [filedAt, isDependency, hlive, hconflict]

/-- What one dependency of a reached node does. -/
theorem inspectRow_of_clear {edges : List StoredEdge} {roots : SortedSet String} (h : Clear P c s edges roots)
    {id : String} (hid : Reachable edges roots id) {e : StoredEdge} (he : e ∈ edges) (hdep : isDependency id e = true)
    (nodes : SortedSet String) (depth : ℕ) (acc : List String × Trace) :
    inspectRow P c (s.withEdges edges) nodes id depth acc e =
      if c.maxHops ≤ depth ∧ e.to ∉ nodes then .error (problem c .hopLimit id)
      else .ok (if e.to ∈ nodes then acc.1 else acc.1 ++ [e.to], acc.2.add P (pathOf P s e)) := by
  obtain ⟨-, hkind, hfrom⟩ := isDependency_iff.mp hdep
  have hcalm : contradicts id e = false := by
    rw [contradicts, hkind]
    exact decide_eq_false fun hboth => absurd hboth.1 (by decide)
  have hto : Reachable edges roots e.to := by
    obtain ⟨n, hn⟩ := hid
    exact ⟨n + 1, .step hn (mem_dependencies.mpr ⟨e, he, hdep, rfl⟩)⟩
  have heligible : ineligible P c (s.withEdges edges) e.to = none := h.eligible e.to hto
  have hcited : ((s.withEdges edges).edgeCitations.get? (receiptText P e)).isNone = false := by
    rw [← Option.not_isSome]
    exact congrArg not (h.cited id hid e he hdep)
  have hproblem : dependencyProblem P c (s.withEdges edges) nodes id depth e =
      if c.maxHops ≤ depth ∧ e.to ∉ nodes then some (problem c .hopLimit id) else none := by
    rw [dependencyProblem, heligible]
    simp only [h.provenance id hid e he hdep, hcited, Bool.false_eq_true, if_false]
  rw [inspectRow, if_neg (by simp [hcalm]), if_neg (by simp [hkind, hfrom]), hproblem]
  split_ifs <;> rfl

/-- Dependencies of a reached node that stay within the bound are all followed. -/
theorem foldlM_inspectRow {edges rows : List StoredEdge} {roots : SortedSet String} (h : Clear P c s edges roots)
    {id : String} (hid : Reachable edges roots id) (hrows : ∀ e ∈ rows, e ∈ edges ∧ isDependency id e = true)
    {nodes : SortedSet String} {depth : ℕ} (hgo : depth < c.maxHops ∨ ∀ e ∈ rows, e.to ∈ nodes)
    (acc : List String × Trace) :
    rows.foldlM (inspectRow P c (s.withEdges edges) nodes id depth) acc =
      .ok (acc.1 ++ (rows.map (·.to)).filter (fun b => decide (b ∉ nodes)),
        rows.foldl (fun trace e => trace.add P (pathOf P s e)) acc.2) := by
  induction rows generalizing acc with
  | nil => exact congrArg Except.ok (Prod.ext (List.append_nil _).symm rfl)
  | cons e rest ih =>
    obtain ⟨he, hdep⟩ := hrows e List.mem_cons_self
    have hstay : ¬(c.maxHops ≤ depth ∧ e.to ∉ nodes) := fun hleave =>
      hgo.elim (fun hlt => absurd hlt (not_lt.mpr hleave.1)) fun hin => hleave.2 (hin e List.mem_cons_self)
    rw [List.foldlM_cons, inspectRow_of_clear h hid he hdep, if_neg hstay]
    refine (ih (fun d hd => hrows d (List.mem_cons_of_mem e hd))
      (hgo.imp_right fun hin d hd => hin d (List.mem_cons_of_mem e hd)) _).trans ?_
    rw [List.map_cons, List.foldl_cons]
    by_cases hto : e.to ∈ nodes
    · rw [List.filter_cons_of_neg (by simp [hto]), if_pos hto]
    · rw [List.filter_cons_of_pos (by simp [hto]), if_neg hto, List.append_assoc]
      rfl

/-- The walk of a clear graph is a bounded search. -/
theorem closureSearch_bounded {edges : List StoredEdge} {roots : SortedSet String} (h : Clear P c s edges roots) :
    Layers.Bounded (closureSearch P c (s.withEdges edges)) (dependencies edges) c.maxHops (recordNode P s edges)
      (Reachable edges roots) := by
  have hvisit : ∀ {id}, Reachable edges roots id → ∀ nodes depth trace,
      (closureSearch P c (s.withEdges edges)).expand nodes id depth trace =
        (edges.filter (isDependency id)).foldlM (inspectRow P c (s.withEdges edges) nodes id depth) ([], trace) := by
    intro id hid nodes depth trace
    rw [← rowsAt_of_clear h hid]
    have heligible : ineligible P c (s.withEdges edges) id = none := h.eligible id hid
    simp only [closureSearch, visitNode, heligible]
  refine ⟨?_, ?_, ?_⟩
  · rintro a b ⟨n, hn⟩ hb
    exact ⟨n + 1, .step hn hb⟩
  · intro nodes id depth trace hid hgo
    rw [hvisit hid]
    refine foldlM_inspectRow h hid (fun e he => List.mem_filter.mp he) (hgo.imp_right fun hin e he => ?_) ([], trace)
    exact hin e.to (List.mem_map_of_mem he)
  · intro nodes id depth trace hid hbound hleave
    obtain ⟨target, htarget, hnew⟩ := hleave
    obtain ⟨e, he, hdep, rfl⟩ := mem_dependencies.mp htarget
    rw [hvisit hid]
    cases hfold : (edges.filter (isDependency id)).foldlM (inspectRow P c (s.withEdges edges) nodes id depth)
        ([], trace) with
    | error p => exact ⟨p, rfl⟩
    | ok r =>
      obtain ⟨acc, acc', hok⟩ := foldlM_ok_mem hfold (List.mem_filter.mpr ⟨he, hdep⟩)
      rw [inspectRow_of_clear h hid he hdep, if_pos ⟨hbound, hnew⟩] at hok
      cases hok

/-! ## The paths -/

/-- The text of a path. -/
def Path.text (P : Platform) (p : Path) : String := p.json.toText P.floatText

/-- The texts of the paths are those that are marked as seen, each once. -/
def Trace.Marked (P : Platform) (trace : Trace) : Prop :=
  (∀ text, text ∈ trace.seenEdges ↔ ∃ p ∈ trace.paths, p.text P = text) ∧ (trace.paths.map (Path.text P)).Nodup

theorem Trace.add_eq (trace : Trace) (p : Path) : trace.add P p =
    if p.text P ∈ trace.seenEdges then trace else ⟨trace.paths ++ [p], trace.seenEdges.insert (p.text P)⟩ := rfl

theorem Trace.Marked.add {trace : Trace} (h : trace.Marked P) (p : Path) : (trace.add P p).Marked P := by
  obtain ⟨hseen, hnodup⟩ := h
  rw [Trace.add_eq]
  by_cases hin : p.text P ∈ trace.seenEdges
  · rw [if_pos hin]
    exact ⟨hseen, hnodup⟩
  · rw [if_neg hin]
    refine ⟨fun text => ?_, ?_⟩
    · rw [SortedSet.mem_insert, hseen]
      simp only [List.mem_append, List.mem_singleton, or_and_right, exists_or, exists_eq_left]
      exact or_comm.trans (or_congr_right eq_comm)
    · rw [List.map_append, List.nodup_append]
      refine ⟨hnodup, List.nodup_singleton _, fun a ha b hb heq => ?_⟩
      obtain rfl := List.mem_singleton.mp hb
      obtain ⟨q, hq, hqa⟩ := List.mem_map.mp ha
      exact hin ((hseen _).mpr ⟨q, hq, hqa.trans heq⟩)

/-- After recording a path there is one with its text; all others were there. -/
theorem Trace.Marked.paths_add {trace : Trace} (h : trace.Marked P) (p : Path) :
    (∀ q ∈ (trace.add P p).paths, q ∈ trace.paths ∨ q = p) ∧ (∀ q ∈ trace.paths, q ∈ (trace.add P p).paths) ∧
      ∃ q ∈ (trace.add P p).paths, q.text P = p.text P := by
  rw [Trace.add_eq]
  by_cases hin : p.text P ∈ trace.seenEdges
  · rw [if_pos hin]
    exact ⟨fun q hq => .inl hq, fun q hq => hq, (h.1 _).mp hin⟩
  · rw [if_neg hin]
    refine ⟨fun q hq => ?_, fun q hq => List.mem_append_left _ hq, p, List.mem_append_right _ List.mem_cons_self, rfl⟩
    exact (List.mem_append.mp hq).imp_right List.mem_singleton.mp

/-- After recording some paths, those are there up to equal texts, and no others. -/
theorem Trace.Marked.foldl_add {γ : Type} (path : γ → Path) (l : List γ) {trace : Trace} (h : trace.Marked P) :
    (l.foldl (fun trace e => trace.add P (path e)) trace).Marked P ∧
      (∀ q ∈ (l.foldl (fun trace e => trace.add P (path e)) trace).paths, q ∈ trace.paths ∨ ∃ e ∈ l, q = path e) ∧
      (∀ q ∈ trace.paths, q ∈ (l.foldl (fun trace e => trace.add P (path e)) trace).paths) ∧
      ∀ e ∈ l, ∃ q ∈ (l.foldl (fun trace e => trace.add P (path e)) trace).paths, q.text P = (path e).text P := by
  induction l generalizing trace with
  | nil => exact ⟨h, fun q hq => .inl hq, fun q hq => hq, fun e he => absurd he List.not_mem_nil⟩
  | cons e rest ih =>
    obtain ⟨hfrom, hkeep, q, hq, htext⟩ := h.paths_add (path e)
    obtain ⟨hmarked, hfrom', hkeep', hto'⟩ := ih (h.add (path e))
    rw [List.foldl_cons]
    refine ⟨hmarked, fun q hq => ?_, fun q hq => hkeep' q (hkeep q hq), fun d hd => ?_⟩
    · rcases hfrom' q hq with hq | ⟨d, hd, rfl⟩
      · exact (hfrom q hq).imp_right fun heq => ⟨e, List.mem_cons_self, heq⟩
      · exact .inr ⟨d, List.mem_cons_of_mem e hd, rfl⟩
    · rcases List.mem_cons.mp hd with rfl | hd
      · exact ⟨q, hkeep' q hq, htext⟩
      · exact hto' d hd

/-! ## The whole walk -/

/-- The walk of a clear graph ends well when nothing leads on from the layer at the bound. It has then visited what is
reached and recorded the dependencies of that. -/
theorem closure_of_clear {edges : List StoredEdge} {roots : SortedSet String} (h : Clear P c s edges roots) :
    ((∃ a, closure P c (s.withEdges edges) roots = .ok a) ↔
        Layers.Stays (dependencies edges) roots.elems c.maxHops) ∧
      ∀ a, closure P c (s.withEdges edges) roots = .ok a →
        a = ⟨roots, Layers.seen (dependencies edges) roots.elems (c.maxHops + 1),
          ((Layers.visits (dependencies edges) roots.elems (c.maxHops + 1)).foldl (recordNode P s edges) ⟨[], ∅⟩).paths⟩ := by
  have hroots : ∀ id ∈ roots.elems, Reachable edges roots id := fun id hid => ⟨0, .root hid⟩
  obtain ⟨hiff, hresult⟩ := Layers.run_bounded (closureSearch_bounded h) hroots ⟨[], ∅⟩
  have hclosure : closure P c (s.withEdges edges) roots =
      (BreadthFirst.run (closureSearch P c (s.withEdges edges)) ∅ ⟨[], ∅⟩ (Layers.pending 0 roots.elems)).map
        fun r => ⟨roots, r.1, r.2.paths⟩ := by
    rw [closure, Layers.pending]
    cases BreadthFirst.run (closureSearch P c (s.withEdges edges)) ∅ ⟨[], ∅⟩ (roots.elems.map fun id => (id, 0)) <;> rfl
  rw [hclosure, ← hiff]
  cases hrun : BreadthFirst.run (closureSearch P c (s.withEdges edges)) ∅ ⟨[], ∅⟩ (Layers.pending 0 roots.elems) with
  | error p => exact ⟨iff_of_false (by simp [Except.map]) (by simp), fun a ha => by cases ha⟩
  | ok r =>
    refine ⟨iff_of_true ⟨_, rfl⟩ ⟨r, rfl⟩, fun a ha => ?_⟩
    obtain rfl := Except.ok.inj ha
    rw [hresult r hrun]

/-- The paths are the dependencies of what is reached: each of them is one, and for each of these there is one path with
its text. -/
structure AllPaths (P : Platform) (s : Snapshot) (edges : List StoredEdge) (roots : SortedSet String) (paths : List Path) :
    Prop where
  sound : ∀ p ∈ paths, ∃ id, Reachable edges roots id ∧ ∃ e ∈ edges, isDependency id e = true ∧ p = pathOf P s e
  complete : ∀ id, Reachable edges roots id → ∀ e ∈ edges, isDependency id e = true →
    ∃ p ∈ paths, p.text P = (pathOf P s e).text P
  once : (paths.map (Path.text P)).Nodup

/-- What is seen within the bound is what is reached, when all of that lies within it. -/
theorem mem_seen_iff_reachable {edges : List StoredEdge} {roots : SortedSet String} {bound : ℕ}
    (h : WithinHops edges roots bound) {id : String} :
    id ∈ Layers.seen (dependencies edges) roots.elems (bound + 1) ↔ Reachable edges roots id := by
  rw [Layers.mem_seen]
  constructor
  · rintro ⟨n, -, hn⟩
    exact ⟨n, hn⟩
  · intro hid
    obtain ⟨n, hn, hops⟩ := h id hid
    exact ⟨n, Nat.lt_succ_of_le hn, hops⟩

/-- The paths of the walk. -/
theorem allPaths_visits {edges : List StoredEdge} {roots : SortedSet String} {bound : ℕ}
    (h : WithinHops edges roots bound) : AllPaths P s edges roots
      ((Layers.visits (dependencies edges) roots.elems (bound + 1)).foldl (recordNode P s edges) ⟨[], ∅⟩).paths := by
  have hempty : (⟨[], ∅⟩ : Trace).Marked P := ⟨fun text => by simp, List.nodup_nil⟩
  have hfold : (Layers.visits (dependencies edges) roots.elems (bound + 1)).foldl (recordNode P s edges) ⟨[], ∅⟩ =
      ((Layers.visits (dependencies edges) roots.elems (bound + 1)).flatMap fun id =>
        edges.filter (isDependency id)).foldl (fun trace e => trace.add P (pathOf P s e)) ⟨[], ∅⟩ := by
    rw [List.foldl_flatMap]
    rfl
  have hmem : ∀ {id}, id ∈ Layers.visits (dependencies edges) roots.elems (bound + 1) ↔ Reachable edges roots id :=
    Layers.mem_visits.trans (mem_seen_iff_reachable h)
  obtain ⟨hmarked, hfrom, -, hto⟩ := hempty.foldl_add (pathOf P s)
    ((Layers.visits (dependencies edges) roots.elems (bound + 1)).flatMap fun id => edges.filter (isDependency id))
  rw [hfold]
  refine ⟨fun p hp => ?_, fun id hid e he hdep => ?_, hmarked.2⟩
  · obtain ⟨e, he, rfl⟩ := (hfrom p hp).resolve_left List.not_mem_nil
    obtain ⟨id, hid, hedge⟩ := List.mem_flatMap.mp he
    obtain ⟨he, hdep⟩ := List.mem_filter.mp hedge
    exact ⟨id, hmem.mp hid, e, he, hdep, rfl⟩
  · exact hto e (List.mem_flatMap.mpr ⟨id, hmem.mpr hid, List.mem_filter.mpr ⟨he, hdep⟩⟩)

/-! ## When the bound is exact -/

/-- The bound on hops is exact: the walk ends well when everything reached lies within it, it then gives what is reached
with all dependencies of that, and the order of the edges does not matter. -/
structure ExactHops (P : Platform) (c : Contract) (s : Snapshot) (edges : List StoredEdge) (roots : SortedSet String) :
    Prop where
  ok_iff : (∃ a, closure P c (s.withEdges edges) roots = .ok a) ↔ WithinHops edges roots c.maxHops
  nodes : ∀ a, closure P c (s.withEdges edges) roots = .ok a → ∀ id, id ∈ a.nodes ↔ Reachable edges roots id
  paths : ∀ a, closure P c (s.withEdges edges) roots = .ok a → AllPaths P s edges roots a.paths
  order : ∀ edges', edges'.Perm edges → ((∃ a, closure P c (s.withEdges edges') roots = .ok a) ↔
      ∃ a, closure P c (s.withEdges edges) roots = .ok a) ∧
    ∀ a a', closure P c (s.withEdges edges) roots = .ok a → closure P c (s.withEdges edges') roots = .ok a' →
      a'.nodes = a.nodes ∧ ∀ text, (∃ p ∈ a'.paths, p.text P = text) ↔ ∃ p ∈ a.paths, p.text P = text

/-- What a walk that ends well gives. -/
theorem closure_ok_of_clear {edges : List StoredEdge} {roots : SortedSet String} (h : Clear P c s edges roots)
    {a : Alternative} (ha : closure P c (s.withEdges edges) roots = .ok a) :
    WithinHops edges roots c.maxHops ∧ (∀ id, id ∈ a.nodes ↔ Reachable edges roots id) ∧
      AllPaths P s edges roots a.paths := by
  obtain ⟨hiff, hresult⟩ := closure_of_clear h
  obtain ⟨hwithin, -⟩ := Layers.stays_iff.mp (hiff.mp ⟨a, ha⟩)
  have hall : WithinHops edges roots c.maxHops := fun id ⟨n, hn⟩ => hwithin n id hn
  rw [hresult a ha]
  exact ⟨hall, fun id => mem_seen_iff_reachable hall, allPaths_visits hall⟩

/-- The texts of all paths do not depend on the order of the edges. -/
theorem AllPaths.texts_subset {edges edges' : List StoredEdge} {roots : SortedSet String} {paths paths' : List Path}
    (h : AllPaths P s edges roots paths) (h' : AllPaths P s edges' roots paths') (hperm : edges'.Perm edges) {text : String}
    (hp : ∃ p ∈ paths', p.text P = text) : ∃ p ∈ paths, p.text P = text := by
  obtain ⟨p, hp, rfl⟩ := hp
  obtain ⟨id, ⟨n, hn⟩, e, he, hdep, rfl⟩ := h'.sound p hp
  exact h.complete id ⟨n, (hopsTo_perm hperm).mp hn⟩ e (hperm.mem_iff.mp he) hdep

/-- In a clear graph the bound is exact unless, with everything within it, some order of the edges has a node at the
bound depend on another one that is visited later. -/
theorem closure_exact_iff {edges : List StoredEdge} {roots : SortedSet String} (h : Clear P c s edges roots) :
    ExactHops P c s edges roots ↔ (WithinHops edges roots c.maxHops →
      ∀ edges', edges'.Perm edges → ¬Layers.Forward (dependencies edges') roots.elems c.maxHops) := by
  have hwithin : ∀ {edges' : List StoredEdge}, edges'.Perm edges →
      (WithinHops edges' roots c.maxHops ↔ WithinHops edges roots c.maxHops) := by
    intro edges' hperm
    simp only [WithinHops, Reachable, hopsTo_perm hperm]
  have hstays : ∀ {edges' : List StoredEdge}, edges'.Perm edges →
      ((∃ a, closure P c (s.withEdges edges') roots = .ok a) ↔ WithinHops edges roots c.maxHops ∧
        ¬Layers.Forward (dependencies edges') roots.elems c.maxHops) := by
    intro edges' hperm
    rw [(closure_of_clear (h.perm hperm)).1, Layers.stays_iff, ← hwithin hperm]
    refine and_congr_left fun _ => ⟨fun hall id ⟨n, hn⟩ => hall n id hn, fun hall n id hn => hall id ⟨n, hn⟩⟩
  constructor
  · intro hexact hall edges' hperm
    exact ((hstays hperm).mp ((hexact.order edges' hperm).1.mpr (hexact.ok_iff.mpr hall))).2
  · intro hnone
    have hok : ∀ {edges' : List StoredEdge}, edges'.Perm edges →
        ((∃ a, closure P c (s.withEdges edges') roots = .ok a) ↔ WithinHops edges roots c.maxHops) := fun hperm =>
      (hstays hperm).trans ⟨fun hboth => hboth.1, fun hall => ⟨hall, hnone hall _ hperm⟩⟩
    refine ⟨hok (List.Perm.refl edges), fun a ha => (closure_ok_of_clear h ha).2.1,
      fun a ha => (closure_ok_of_clear h ha).2.2, fun edges' hperm => ⟨?_, fun a a' ha ha' => ⟨?_, fun text => ?_⟩⟩⟩
    · rw [hok hperm, hok (List.Perm.refl edges)]
    · refine SortedSet.ext_mem fun id => ?_
      rw [(closure_ok_of_clear (h.perm hperm) ha').2.1, (closure_ok_of_clear h ha).2.1]
      exact exists_congr fun n => hopsTo_perm hperm
    · have hpaths := (closure_ok_of_clear h ha).2.2
      have hpaths' := (closure_ok_of_clear (h.perm hperm) ha').2.2
      exact ⟨hpaths.texts_subset hpaths' hperm, hpaths'.texts_subset hpaths hperm.symm⟩

/-! ## A triangle -/

/-- A dependency observed on the first of January. -/
def dependency (source target : String) : StoredEdge :=
  ⟨source, .custom "DEPENDS_ON", target, none, "2026-01-01T00:00:00Z", none, false, "2026-01-01T00:00:00Z", some "p"⟩

/-- A node depends on two others, the first of which depends on the second. -/
def triangle : List StoredEdge := [dependency "r" "u", dependency "r" "v", dependency "u" "v"]

/-- A platform whose digests are all alike. -/
def trianglePlatform : Platform where
  floatText := fun _ => "0.0"
  parseValue := fun _ => none
  parseEntry := fun _ => none
  sha256Hex := fun _ => "6dadce81dcfbfe3b550d4a3e290da6014946db342a2ec0eefa14ed57fceb9f33"
  tokens := fun _ => 1

/-- A node with the time of its observation and a provenance. -/
def triangleNode (id : String) : Value :=
  .object [("id", .string id), ("observed_utc", .string "2026-01-01T00:00:00Z"), ("provenance", .string "p")]

/-- The snapshot of the triangle; each dependency is cited. -/
def triangleSnapshot : Snapshot where
  graph := ⟨((SortedMap.empty.insert "r" (triangleNode "r")).insert "u" (triangleNode "u")).insert "v" (triangleNode "v"),
    triangle⟩
  hash := ""
  citations := ∅
  edgeCitations := triangle.foldl (fun m e => m.insert (receiptText trianglePlatform e)
    [⟨1, "e", "2026-01-01T00:00:00Z"⟩]) ∅
  adjacency := triangle.foldl addAdjacent ∅

/-- A contract that sees the three nodes and allows one hop. -/
def triangleContract : Contract where
  version := 1
  question := "q"
  scopeReceipt := "s"
  scopeNodes := SortedSet.ofList ["r", "u", "v"]
  asOf := "2026-01-02T00:00:00Z"
  minObservedUtc := "2026-01-01T00:00:00Z"
  sources := ((SortedMap.empty.insert "r" "6dadce81dcfbfe3b550d4a3e290da6014946db342a2ec0eefa14ed57fceb9f33").insert "u"
    "6dadce81dcfbfe3b550d4a3e290da6014946db342a2ec0eefa14ed57fceb9f33").insert "v"
    "6dadce81dcfbfe3b550d4a3e290da6014946db342a2ec0eefa14ed57fceb9f33"
  facts := [⟨"f", none, [SortedSet.ofList ["r"]]⟩]
  budgetTokens := 100
  maxHops := 1
  searchLimit := 100

theorem triangle_reachable {id : String} (h : Reachable triangle (SortedSet.ofList ["r"]) id) : id ∈ ["r", "u", "v"] := by
  obtain ⟨n, hn⟩ := h
  exact hn.mem_of_closed (by decide) (by decide)

theorem triangle_clear :
    Clear trianglePlatform triangleContract triangleSnapshot triangle (SortedSet.ofList ["r"]) where
  eligible := by
    have hall : ∀ id ∈ ["r", "u", "v"], ineligible trianglePlatform triangleContract triangleSnapshot id = none := by
      decide +kernel
    exact fun id hid => hall id (triangle_reachable hid)
  unconflicted := by
    intro e he _ hkind
    have hall : ∀ e ∈ triangle, e.edge.name ≠ "CONTRADICTS" := by decide
    exact absurd hkind (hall e he)
  provenance := by
    have hall : ∀ e ∈ triangle, blankProvenance e.provenance = false := by decide +kernel
    exact fun _ _ e he _ => hall e he
  cited := by
    intro _ _ e he _
    have hcited : ∀ (l : List StoredEdge) (m : SortedMap String (List Citation)),
        (e ∈ l ∨ (m.get? (receiptText trianglePlatform e)).isSome = true) →
          ((l.foldl (fun m e => m.insert (receiptText trianglePlatform e) [⟨1, "e", "2026-01-01T00:00:00Z"⟩]) m).get?
            (receiptText trianglePlatform e)).isSome = true := by
      intro l
      induction l with
      | nil => exact fun m hm => hm.resolve_left List.not_mem_nil
      | cons d rest ih =>
        intro m hm
        refine ih _ ?_
        rw [SortedMap.get?_insert]
        split_ifs with htext
        · exact .inr rfl
        · rcases hm with hm | hm
          · exact .inl ((List.mem_cons.mp hm).resolve_left fun heq => htext (heq ▸ rfl))
          · exact .inr hm
    exact hcited triangle ∅ (.inl he)

theorem closure_exact_iff_triangle :
    ExactHops trianglePlatform triangleContract triangleSnapshot triangle (SortedSet.ofList ["r"]) ↔
      (WithinHops triangle (SortedSet.ofList ["r"]) triangleContract.maxHops → ∀ edges', edges'.Perm triangle →
        ¬Layers.Forward (dependencies edges') (SortedSet.ofList ["r"]).elems triangleContract.maxHops) :=
  closure_exact_iff triangle_clear

/-- Both other nodes are one hop away, and yet the walk refuses the triangle at the bound of one hop, because it sees
the dependency between them before it visits the second. -/
theorem triangle_refused :
    WithinHops triangle (SortedSet.ofList ["r"]) triangleContract.maxHops ∧
      ¬(Clear trianglePlatform triangleContract triangleSnapshot triangle (SortedSet.ofList ["r"]) →
        ExactHops trianglePlatform triangleContract triangleSnapshot triangle (SortedSet.ofList ["r"])) := by
  have hlayer : Layers.layer (dependencies triangle) ["r"] 1 = ["u", "v"] := by decide +kernel
  have hwithin : WithinHops triangle (SortedSet.ofList ["r"]) triangleContract.maxHops := by
    intro id hid
    have hin := triangle_reachable hid
    have hseen : ∀ id ∈ ["r", "u", "v"], id ∈ Layers.seen (dependencies triangle) ["r"] 2 := by decide +kernel
    obtain ⟨n, hn, hops⟩ := Layers.mem_seen.mp (hseen id hin)
    exact ⟨n, Nat.lt_succ_iff.mp hn, hops⟩
  refine ⟨hwithin, fun hexact => ?_⟩
  obtain ⟨a, ha⟩ := (hexact triangle_clear).ok_iff.mpr hwithin
  have hstays := (closure_of_clear triangle_clear).1.mp ⟨a, ha⟩
  refine (Layers.stays_iff.mp hstays).2 ⟨[], "u", ["v"], hlayer, "v", List.mem_cons_self, by decide +kernel⟩

end Innen.EvidenceClosure
