import Innen.TaskEntry.Rows

/-!
# A request that is an id

A node whose id is the request has the best score there is, and so has every node whose label or id contains the
request. Nodes with one score come by id, and a document of the same name that comes earlier absorbs the node. So the
node is the first row exactly where no node with a smaller id and the best score is in its way (`exactId_first_iff`).
-/

namespace Innen.TaskEntry

open Common Graph

variable {σ : Type}

/-! ## Tables filled key by key -/

section

variable {κ α β : Type*} [LinearOrder κ]

/-- A table that is filled by steps of which each changes its own key. -/
theorem get?_foldl_entries {f : SortedMap κ α → κ × β → SortedMap κ α} {u : κ → β → Option α → Option α}
    (hstep : ∀ m e k, (f m e).get? k = if k = e.1 then u k e.2 (m.get? k) else m.get? k) (source : SortedMap κ β)
    (m : SortedMap κ α) (k : κ) :
    (source.entries.foldl f m).get? k = (source.get? k).elim (m.get? k) fun b => u k b (m.get? k) := by
  have hlist : ∀ (l : List (κ × β)) (m : SortedMap κ α), (l.map Prod.fst).Nodup →
      (l.foldl f m).get? k = (Assoc.get? k l).elim (m.get? k) fun b => u k b (m.get? k) := by
    intro l
    induction l with
    | nil => exact fun m _ => rfl
    | cons e rest ih =>
      intro m hl
      obtain ⟨k', b⟩ := e
      rw [List.map_cons, List.nodup_cons] at hl
      rw [List.foldl_cons, ih _ hl.2, Assoc.get?_cons, hstep]
      by_cases hk : k = k'
      · subst hk
        have hnone : Assoc.get? k rest = none := Assoc.get?_eq_none_iff.mpr hl.1
        rw [hnone, if_pos rfl, if_pos rfl, Option.elim_none, Option.elim_some]
      · rw [if_neg hk, if_neg hk]
  exact hlist source.entries m (Assoc.nodup_keys source.ascending)

/-- The first element that passes, in a list in strict order. -/
theorem find?_eq_some_iff_of_pairwise {γ : Type*} {R : γ → γ → Prop} (hasymm : ∀ a b, R a b → ¬R b a) {l : List γ}
    (hl : l.Pairwise R) {p : γ → Bool} {a : γ} :
    l.find? p = some a ↔ a ∈ l ∧ p a = true ∧ ∀ b ∈ l, R b a → p b = false := by
  rw [List.find?_eq_some_iff_append]
  constructor
  · rintro ⟨hp, before, after, rfl, hbefore⟩
    refine ⟨List.mem_append_right _ List.mem_cons_self, hp, fun b hb hR => ?_⟩
    obtain hb | hb := List.mem_append.mp hb
    · simpa using hbefore b hb
    · obtain rfl | hb := List.mem_cons.mp hb
      · exact absurd hR (hasymm _ _ hR)
      · have hafter := List.rel_of_pairwise_cons (List.pairwise_append.mp hl).2.1 hb
        exact absurd hR (hasymm _ _ hafter)
  · rintro ⟨ha, hp, hbefore⟩
    obtain ⟨before, after, rfl⟩ := List.append_of_mem ha
    refine ⟨hp, before, after, rfl, fun b hb => ?_⟩
    have hR := (List.pairwise_append.mp hl).2.2 b hb a List.mem_cons_self
    simpa using hbefore b (List.mem_append_left _ hb) hR

end

/-! ## Scores -/

/-- What is documented of the engine: folding the case of a text leaves none empty, blank texts have blank words only,
and no score is better than one. -/
structure Engine.Sound [LinearOrder σ] (E : Engine σ) : Prop where
  lower_eq_empty : ∀ s, E.lower s = "" → s = ""
  words_blank : ∀ q, trim q = "" → ∀ w ∈ E.words q, trim w = ""
  zero_lt_one : E.zero < E.one
  search_le : ∀ docs q, ∀ e ∈ E.search docs q, e.2 ≤ E.one
  coverage_le : ∀ hits anchored, E.coverage hits anchored ≤ E.one

section

variable [LinearOrder σ] (E : Engine σ) (r : Request) (nodes : SortedMap String Value)

/-- The scores of the nodes that the search found and the gate lets through. -/
def foundScores : SortedMap String (σ × String) := (ftsScores E r nodes).entries.foldl (addFound E r nodes) ∅

/-- A node has the best score: the search finds nothing better and the gate lets it through, or it is a literal match
with an exact match or full coverage. -/
def Level (id : String) : Prop :=
  ∃ node, nodes.get? id = some node ∧
    (((ftsScores E r nodes).get? id = some E.one ∧ admitsFound E r node = true) ∨
      (literalMatched E r id node = true ∧ literalScore E r id node = E.one))

variable {E r nodes}

omit [LinearOrder σ] in
theorem get?_addFound (scores : SortedMap String (σ × String)) (e : String × σ) (k : String) :
    (addFound E r nodes scores e).get? k = if k = e.1 then
        (nodes.get? k).elim (scores.get? k) fun node =>
          if admitsFound E r node then some (e.2, "fts_identity_match") else scores.get? k
      else scores.get? k := by
  unfold addFound
  by_cases hk : k = e.1
  · rw [if_pos hk, hk]
    cases nodes.get? e.1 with
    | none => rfl
    | some node =>
      dsimp only [Option.elim_some]
      split
      · rw [SortedMap.get?_insert_self]
      · rfl
  · rw [if_neg hk]
    cases nodes.get? e.1 with
    | none => rfl
    | some node =>
      dsimp only
      split
      · rw [SortedMap.get?_insert, if_neg hk]
      · rfl

omit [LinearOrder σ] in
/-- The score of a node that the search found. -/
theorem get?_foundScores (id : String) :
    (foundScores E r nodes).get? id = ((ftsScores E r nodes).get? id).bind fun s =>
      (nodes.get? id).bind fun node => if admitsFound E r node then some (s, "fts_identity_match") else none := by
  rw [foundScores, get?_foldl_entries (u := fun k s old => (nodes.get? k).elim old fun node =>
    if admitsFound E r node then some (s, "fts_identity_match") else old) get?_addFound, SortedMap.get?_empty]
  cases (ftsScores E r nodes).get? id with
  | none => rfl
  | some s => cases nodes.get? id <;> rfl

theorem get?_addLiteral (scores : SortedMap String (σ × String)) (e : String × Value) (k : String) :
    (addLiteral E r scores e).get? k = if k = e.1 then
        if literalMatched E r k e.2 then
          some (if ((scores.get? k).getD (E.zero, "")).1 < literalScore E r k e.2 then
            (literalScore E r k e.2, "literal_match") else (scores.get? k).getD (E.zero, ""))
        else scores.get? k
      else scores.get? k := by
  unfold addLiteral
  by_cases hk : k = e.1
  · subst hk
    rw [if_pos rfl]
    split
    · rw [SortedMap.get?_upsert, if_pos rfl]
    · rfl
  · rw [if_neg hk]
    split
    · rw [SortedMap.get?_upsert, if_neg hk]
    · rfl

/-- The score of a node, with the one of a literal match where it is better. -/
theorem get?_literalCandidateScores (hq : E.lower (trim r.q) ≠ "") (scores : SortedMap String (σ × String))
    (id : String) :
    (literalCandidateScores E r nodes scores).get? id = (nodes.get? id).elim (scores.get? id) fun node =>
      if literalMatched E r id node then
        some (if ((scores.get? id).getD (E.zero, "")).1 < literalScore E r id node then
          (literalScore E r id node, "literal_match") else (scores.get? id).getD (E.zero, ""))
      else scores.get? id := by
  rw [literalCandidateScores, if_neg hq]
  exact get?_foldl_entries (u := fun k node old => if literalMatched E r k node then
      some (if (old.getD (E.zero, "")).1 < literalScore E r k node then
        (literalScore E r k node, "literal_match") else old.getD (E.zero, ""))
    else old) get?_addLiteral nodes scores id

theorem ftsScores_le (h : E.Sound) {id : String} {s : σ} (hs : (ftsScores E r nodes).get? id = some s) :
    s ≤ E.one := by
  have hfold : ∀ (l : List (String × σ)) (m : SortedMap String σ), (∀ k v, m.get? k = some v → v ≤ E.one) →
      (∀ e ∈ l, e.2 ≤ E.one) →
      ∀ k v, (l.foldl (fun found e => found.insert e.1 e.2) m).get? k = some v → v ≤ E.one := by
    intro l
    induction l with
    | nil => exact fun m hm _ => hm
    | cons e rest ih =>
      intro m hm hl
      refine ih (m.insert e.1 e.2) (fun k v hk => ?_) fun e' he' => hl e' (List.mem_cons_of_mem _ he')
      rw [SortedMap.get?_insert] at hk
      split at hk
      · exact Option.some.inj hk ▸ hl e List.mem_cons_self
      · exact hm k v hk
  unfold ftsScores at hs
  split at hs
  · simp at hs
  · exact hfold _ ∅ (fun k v hk => by simp at hk) (h.search_le _ _) id s hs

theorem literalScore_le (h : E.Sound) (id : String) (node : Value) : literalScore E r id node ≤ E.one := by
  unfold literalScore identityCoverageScore
  split
  · exact le_refl _
  · split
    · exact h.zero_lt_one.le
    · exact h.coverage_le _ _

/-! ## Candidates of the whole request -/

/-- The scores that the candidates of the whole request come from. -/
def seedScores (E : Engine σ) (r : Request) (nodes : SortedMap String Value) : SortedMap String (σ × String) :=
  literalCandidateScores E r nodes (foundScores E r nodes)

omit [LinearOrder σ] in
theorem level_iff {id : String} {node : Value} (hnode : nodes.get? id = some node) :
    Level E r nodes id ↔ ((ftsScores E r nodes).get? id = some E.one ∧ admitsFound E r node = true) ∨
      (literalMatched E r id node = true ∧ literalScore E r id node = E.one) := by
  constructor
  · rintro ⟨node', hnode', h⟩
    rwa [Option.some.inj (hnode.symm.trans hnode')]
  · exact fun h => ⟨node, hnode, h⟩

omit [LinearOrder σ] in
/-- A node that the search found has the score of the search. -/
theorem foundScores_eq_some {id : String} {node : Value} (hnode : nodes.get? id = some node) {e : σ × String} :
    (foundScores E r nodes).get? id = some e ↔
      (ftsScores E r nodes).get? id = some e.1 ∧ admitsFound E r node = true ∧ e.2 = "fts_identity_match" := by
  rw [get?_foundScores, hnode]
  obtain ⟨s, why⟩ := e
  cases (ftsScores E r nodes).get? id with
  | none => simp
  | some s' =>
    rw [Option.bind_some, Option.bind_some]
    split
    · rename_i hadmits
      simp [hadmits, eq_comm]
    · rename_i hadmits
      simp [hadmits]

theorem seedScores_none {id : String} (hq : E.lower (trim r.q) ≠ "") (hnode : nodes.get? id = none) :
    (seedScores E r nodes).get? id = none := by
  rw [seedScores, get?_literalCandidateScores hq, hnode, Option.elim_none, get?_foundScores, hnode]
  cases (ftsScores E r nodes).get? id <;> rfl

/-- A candidate of the whole request scores at most one, and one exactly where its node has the best score. -/
theorem seedScores_some (hE : E.Sound) (hq : E.lower (trim r.q) ≠ "") {id : String} {e : σ × String}
    (h : (seedScores E r nodes).get? id = some e) :
    e.1 ≤ E.one ∧ startsWith e.2 "term_coverage:" = false ∧ (e.1 = E.one ↔ Level E r nodes id) := by
  cases hnode : nodes.get? id with
  | none => rw [seedScores_none hq hnode] at h; cases h
  | some node =>
    rw [seedScores, get?_literalCandidateScores hq, hnode, Option.elim_some] at h
    rw [level_iff hnode]
    have hlit : literalScore E r id node ≤ E.one := literalScore_le hE id node
    have hliteral : startsWith "literal_match" "term_coverage:" = false := by decide
    have hunset : startsWith "" "term_coverage:" = false := by decide
    by_cases hmatched : literalMatched E r id node = true
    · rw [if_pos hmatched, Option.some.injEq] at h
      cases hfound : (foundScores E r nodes).get? id with
      | none =>
        have hfts : ¬((ftsScores E r nodes).get? id = some E.one ∧ admitsFound E r node = true) := by
          intro hone
          have hsome := (foundScores_eq_some (e := (E.one, "fts_identity_match")) hnode).mpr ⟨hone.1, hone.2, rfl⟩
          rw [hfound] at hsome
          cases hsome
        rw [hfound, Option.getD_none] at h
        rw [or_iff_right hfts]
        split at h
        · subst h
          exact ⟨hlit, hliteral, by simp [hmatched]⟩
        · rename_i hless
          subst h
          refine ⟨hE.zero_lt_one.le, hunset, ?_⟩
          refine iff_of_false hE.zero_lt_one.ne fun hone => hless ?_
          rw [hone.2]
          exact hE.zero_lt_one
      | some found =>
        obtain ⟨hfts, hadmits, hwhy⟩ := (foundScores_eq_some hnode).mp hfound
        have hle := ftsScores_le hE hfts
        rw [hfound, Option.getD_some] at h
        rw [hfts, Option.some.injEq]
        split at h
        · rename_i hless
          subst h
          refine ⟨hlit, hliteral, ?_⟩
          simp only [hmatched, true_and]
          exact ⟨.inr, fun hone => hone.resolve_left fun hfound => (hless.trans_le hlit).ne hfound.1⟩
        · rename_i hless
          subst h
          refine ⟨hle, by rw [hwhy]; decide, ?_⟩
          simp only [hadmits, hmatched, and_true, true_and]
          refine ⟨.inl, fun hone => hone.elim (fun h => h) fun hlit' => le_antisymm hle ?_⟩
          rw [← hlit']
          exact not_lt.mp hless
    · rw [if_neg hmatched] at h
      obtain ⟨hfts, hadmits, hwhy⟩ := (foundScores_eq_some hnode).mp h
      refine ⟨ftsScores_le hE hfts, by rw [hwhy]; decide, ?_⟩
      simp [hfts, hadmits, hmatched]

/-- A node with the best score is a candidate. -/
theorem seedScores_isSome {id : String} (hq : E.lower (trim r.q) ≠ "") (h : Level E r nodes id) :
    ((seedScores E r nodes).get? id).isSome := by
  obtain ⟨node, hnode, h⟩ := h
  rw [seedScores, get?_literalCandidateScores hq, hnode, Option.elim_some]
  obtain h | h := h
  · have hfound := (foundScores_eq_some (e := (E.one, "fts_identity_match")) hnode).mpr ⟨h.1, h.2, rfl⟩
    split
    · rfl
    · rw [hfound]
      rfl
  · rw [if_pos h.1]
    rfl

theorem mem_wholeCandidates {c : Candidate σ} :
    c ∈ wholeCandidates E r nodes ↔ (seedScores E r nodes).get? c.id = some (c.score, c.why) := by
  rw [wholeCandidates, List.mem_insertionSort, List.mem_map, ← SortedMap.mem_entries_iff]
  constructor
  · rintro ⟨⟨id, score, why⟩, he, rfl⟩
    exact he
  · exact fun h => ⟨_, h, rfl⟩

/-- A candidate comes before another one. -/
def Ahead (a b : Candidate σ) : Prop := b.score < a.score ∨ (a.score = b.score ∧ a.id < b.id)

theorem ahead_asymm (a b : Candidate σ) (h : Ahead a b) : ¬Ahead b a := by
  rintro (h' | h') <;> rcases h with h | h
  · exact lt_asymm h h'
  · exact h'.ne h.1
  · exact h.ne h'.1
  · exact lt_asymm h.2 h'.2

theorem before_total (a b : Candidate σ) : Before a b ∨ Before b a := by
  unfold Before
  rcases lt_trichotomy a.score b.score with h | h | h
  · exact .inr (.inl h)
  · exact (le_total a.id b.id).imp (fun hid => .inr ⟨h, hid⟩) fun hid => .inr ⟨h.symm, hid⟩
  · exact .inl (.inl h)

theorem before_trans {a b c : Candidate σ} (h : Before a b) (h' : Before b c) : Before a c := by
  unfold Before at *
  rcases h with h | h <;> rcases h' with h' | h'
  · exact .inl (h'.trans h)
  · exact .inl (h'.1 ▸ h)
  · exact .inl (h.1 ▸ h')
  · exact .inr ⟨h.1.trans h'.1, h.2.trans h'.2⟩

theorem nodup_wholeCandidates : ((wholeCandidates E r nodes).map Candidate.id).Nodup := by
  rw [wholeCandidates, ((List.perm_insertionSort _ _).map _).nodup_iff, List.map_map]
  exact Assoc.nodup_keys (SortedMap.ascending _)

theorem pairwise_wholeCandidates : (wholeCandidates E r nodes).Pairwise Ahead := by
  have : Std.Total (@Before σ _) := ⟨before_total⟩
  have : IsTrans (Candidate σ) Before := ⟨fun _ _ _ => before_trans⟩
  have hsorted : (wholeCandidates E r nodes).Pairwise Before := List.pairwise_insertionSort Before _
  have hids : (wholeCandidates E r nodes).Pairwise fun a b => a.id ≠ b.id := List.pairwise_map.mp nodup_wholeCandidates
  refine (hsorted.and hids).imp fun ⟨hbefore, hne⟩ => ?_
  exact hbefore.imp_right fun h => ⟨h.1, lt_of_le_of_ne h.2 hne⟩

/-- What comes before a node with the best score has it too, and a smaller id. -/
theorem ahead_iff (hE : E.Sound) (hq : E.lower (trim r.q) ≠ "") {c n : Candidate σ}
    (hc : c ∈ wholeCandidates E r nodes) (hn : n.score = E.one) :
    Ahead c n ↔ Level E r nodes c.id ∧ c.id < n.id := by
  obtain ⟨hle, -, hone⟩ := seedScores_some hE hq (mem_wholeCandidates.mp hc)
  rw [Ahead, hn, ← hone]
  exact or_iff_right (not_lt.mpr hle)

/-- Nodes with the best score are candidates with score one. -/
theorem exists_candidate (hE : E.Sound) (hq : E.lower (trim r.q) ≠ "") {id : String} (h : Level E r nodes id) :
    ∃ c ∈ wholeCandidates E r nodes, c.id = id ∧ c.score = E.one := by
  obtain ⟨e, he⟩ := Option.isSome_iff_exists.mp (seedScores_isSome hq h)
  exact ⟨⟨id, e.1, e.2⟩, mem_wholeCandidates.mpr he, rfl, (seedScores_some hE hq he).2.2.mpr h⟩

/-! ## The first row -/

/-- The document of a node. -/
def documentOf (nodes : SortedMap String Value) (id : String) : Option (String ×ₗ String) :=
  (Item.mk id (nodeKind (nodeOf nodes id)) (nodeText (nodeOf nodes id) "label")).key

/-- The request says something, no node with the best score and a smaller id is the same document, and each is listed
apart or folded into an earlier one. -/
structure Unchallenged (E : Engine σ) (r : Request) (nodes : SortedMap String Value) (listed : List String)
    (id : String) : Prop where
  asks : E.lower (trim r.q) ≠ ""
  document : ∀ m < id, Level E r nodes m → documentOf nodes id = none ∨ documentOf nodes m ≠ documentOf nodes id
  apart : ∀ m < id, Level E r nodes m → m ∈ listed ∨
    ∃ m' < m, Level E r nodes m' ∧ documentOf nodes m ≠ none ∧ documentOf nodes m' = documentOf nodes m

/-- A candidate with the best score is folded away exactly where an earlier one is the same document. -/
theorem repeats_iff (hE : E.Sound) (hq : E.lower (trim r.q) ≠ "") {c : Candidate σ}
    (hc : c ∈ wholeCandidates E r nodes) (hone : c.score = E.one) :
    Repeats (documentKey nodes) (wholeCandidates E r nodes) c ↔
      ∃ m < c.id, Level E r nodes m ∧ documentOf nodes c.id ≠ none ∧ documentOf nodes m = documentOf nodes c.id := by
  have hsorted : (wholeCandidates E r nodes).Pairwise Ahead := pairwise_wholeCandidates
  constructor
  · rintro ⟨before, later, k, hsplit, hkey, b, hb, hbkey⟩
    rw [hsplit] at hsorted
    have hahead := (List.pairwise_append.mp hsorted).2.2 b hb c List.mem_cons_self
    have hmem : b ∈ wholeCandidates E r nodes := hsplit ▸ List.mem_append_left _ hb
    obtain ⟨hlevel, hlt⟩ := (ahead_iff hE hq hmem hone).mp hahead
    refine ⟨b.id, hlt, hlevel, ?_, hbkey.trans hkey.symm⟩
    rw [show documentOf nodes c.id = some k from hkey]
    exact Option.some_ne_none k
  · rintro ⟨m, hlt, hlevel, hne, hsame⟩
    obtain ⟨b, hb, rfl, -⟩ := exists_candidate hE hq hlevel
    obtain ⟨k, hk⟩ := Option.ne_none_iff_exists'.mp hne
    obtain ⟨before, later, hsplit⟩ := List.append_of_mem hc
    have hahead := (ahead_iff hE hq hb hone).mpr ⟨hlevel, hlt⟩
    refine ⟨before, later, k, hsplit, hk, b, ?_, hsame.trans hk⟩
    rw [hsplit] at hb hsorted
    obtain hb | hb := List.mem_append.mp hb
    · exact hb
    · obtain rfl | hb := List.mem_cons.mp hb
      · exact absurd hlt (lt_irrefl _)
      · exact absurd hahead (ahead_asymm _ _ (List.rel_of_pairwise_cons (List.pairwise_append.mp hsorted).2.1 hb))

/-- The first candidate that is neither folded away nor listed apart. -/
theorem find?_whole_iff (hE : E.Sound) {listed : List String} {n : Candidate σ} (hq : E.lower (trim r.q) ≠ "")
    (hn : n ∈ wholeCandidates E r nodes) (hone : n.score = E.one) (hlisted : n.id ∉ listed) :
    (firstOfKey (documentKey nodes) [] (wholeCandidates E r nodes)).find? (fun c => c.id ∉ listed) = some n ↔
      Unchallenged E r nodes listed n.id := by
  have hnodup : (wholeCandidates E r nodes).Nodup := List.Nodup.of_map _ nodup_wholeCandidates
  have hkept : ∀ c, c ∈ firstOfKey (documentKey nodes) [] (wholeCandidates E r nodes) ↔
      c ∈ wholeCandidates E r nodes ∧ ¬Repeats (documentKey nodes) (wholeCandidates E r nodes) c := fun c =>
    ⟨fun h => ⟨(firstOfKey_sublist _ _ _).subset h, fun hrep => not_mem_firstOfKey [] hnodup hrep h⟩,
      fun h => mem_firstOfKey h.1 (fun _ _ => List.not_mem_nil) h.2⟩
  have hsorted := List.Pairwise.sublist (firstOfKey_sublist (documentKey nodes) [] (wholeCandidates E r nodes))
    pairwise_wholeCandidates
  rw [find?_eq_some_iff_of_pairwise ahead_asymm hsorted, hkept, repeats_iff hE hq hn hone]
  constructor
  · rintro ⟨⟨-, hfolded⟩, -, hahead⟩
    refine ⟨hq, fun m hm hlevel => ?_, fun m hm hlevel => ?_⟩
    · by_contra hsame
      rw [not_or, not_not] at hsame
      exact hfolded ⟨m, hm, hlevel, hsame.1, hsame.2⟩
    · obtain ⟨c, hc, rfl, hcone⟩ := exists_candidate hE hq hlevel
      by_cases hrep : Repeats (documentKey nodes) (wholeCandidates E r nodes) c
      · exact .inr ((repeats_iff hE hq hc hcone).mp hrep)
      · have hlist := hahead c ((hkept c).mpr ⟨hc, hrep⟩) ((ahead_iff hE hq hc hone).mpr ⟨hlevel, hm⟩)
        exact .inl (by simpa using hlist)
  · intro h
    refine ⟨⟨hn, ?_⟩, by simpa using hlisted, fun c hc hahead => ?_⟩
    · rintro ⟨m, hm, hlevel, hne, hsame⟩
      exact (h.document m hm hlevel).elim hne fun hdiff => hdiff hsame
    · obtain ⟨hmem, hrep⟩ := (hkept c).mp hc
      obtain ⟨hlevel, hlt⟩ := (ahead_iff hE hq hmem hone).mp hahead
      have hcone : c.score = E.one := (seedScores_some hE hq (mem_wholeCandidates.mp hmem)).2.2.mpr hlevel
      obtain hin | hfolded := h.apart c.id hlt hlevel
      · simpa using hin
      · exact absurd ((repeats_iff hE hq hmem hcone).mpr hfolded) hrep

omit [LinearOrder σ] in
theorem head?_pruneCandidates (W : Weighing σ) {ranked : List (Candidate σ)} {shown : List String} {c : Candidate σ}
    (hc : c.id ∉ shown) :
    (pruneCandidates E W ranked shown false).head? = some c ↔ ranked.find? (fun c => c.id ∉ shown) = some c := by
  unfold pruneCandidates
  dsimp only
  rw [if_neg Bool.false_ne_true]
  by_cases hfresh : (ranked.filter fun c => c.id ∉ shown) = []
  · rw [if_pos hfresh, ← List.head?_filter, hfresh]
    refine iff_of_false (fun hhead => ?_) (by simp)
    have hmem : c ∈ ranked.filter fun c => c.id ∉ shown :=
      List.mem_filter.mpr ⟨List.mem_of_mem_head? hhead, decide_eq_true hc⟩
    rw [hfresh] at hmem
    cases hmem
  · rw [if_neg hfresh, List.head?_filter]

/-! ## Blank requests -/

theorem whitespace_of_trim {s : String} (h : trim s = "") : ∀ c ∈ s.toList, isWhitespace c = true := by
  have hnil : (s.toList.dropWhile isWhitespace).rdropWhile isWhitespace = [] := by
    simpa [trim] using congrArg String.toList h
  refine List.dropWhile_eq_nil_iff.mp ?_
  by_contra hne
  have hhead := List.head_dropWhile_not isWhitespace hne
  have hall := List.rdropWhile_eq_nil_iff.mp hnil _ (List.head_mem hne)
  rw [hhead] at hall
  cases hall

theorem splitOnP_of_forall {α : Type*} {p : α → Bool} {l : List α} (h : ∀ a ∈ l, p a = true) :
    ∀ piece ∈ l.splitOnP p, piece = [] := by
  induction l with
  | nil => simp
  | cons a l ih =>
    rw [List.splitOnP_cons_eq_if_modifyHead, if_pos (h a List.mem_cons_self)]
    intro piece hpiece
    obtain rfl | hpiece := List.mem_cons.mp hpiece
    · rfl
    · exact ih (fun b hb => h b (List.mem_cons_of_mem a hb)) piece hpiece

/-- A blank request has no terms. -/
theorem extractQueryTerms_blank (hE : E.Sound) {q : String} (h : trim q = "") : extractQueryTerms E q = [] := by
  have htokens : (((splitAtChars isTokenEnd q).map trim).filter (· ≠ "")) = [] := by
    refine List.filter_eq_nil_iff.mpr fun token htoken => ?_
    obtain ⟨piece, hpiece, rfl⟩ := List.mem_map.mp htoken
    obtain ⟨cs, hcs, rfl⟩ := List.mem_map.mp hpiece
    have hend : ∀ c ∈ q.toList, isTokenEnd c = true := fun c hc => by
      rw [isTokenEnd, whitespace_of_trim h c hc, Bool.true_or]
    rw [splitOnP_of_forall hend cs hcs]
    decide
  have hwords : ∀ ws : List String, (∀ w ∈ ws, trim w = "") → ws.foldl (addWord E) [] = [] := by
    intro ws
    induction ws with
    | nil => exact fun _ => rfl
    | cons w ws ih =>
      intro hws
      have hstep : addWord E [] w = [] := by
        rw [addWord, hws w List.mem_cons_self]
        rfl
      rw [List.foldl_cons, hstep, ih fun w' hw' => hws w' (List.mem_cons_of_mem w hw')]
  rw [extractQueryTerms, htokens, hwords _ (hE.words_blank q h)]
  rfl

omit [LinearOrder σ] in
theorem request_q (E : Engine σ) (q : String) : (Request.of E q).q = q := rfl

/-- The candidates of a blank request. -/
theorem admitted_blank (hE : E.Sound) {q : String} (h : E.lower (trim q) = "") :
    admitted E (.of E q) nodes = ([], []) := by
  have hblank := hE.lower_eq_empty _ h
  have hidentity : (Request.of E q).identity = [] := by
    rw [Request.of, extractQueryTerms_blank hE hblank]
    rfl
  have hwhole : wholeCandidates E (.of E q) nodes = [] := by
    rw [wholeCandidates, literalCandidateScores, request_q, if_pos h, ftsScores, request_q, if_pos hblank]
    rfl
  rw [admitted, hwhole, hidentity]
  rfl

/-- A blank request has no rows, and nothing is listed apart. -/
theorem pageFor_blank (hE : E.Sound) (W : Weighing σ) (graph : Materialized) {q : String}
    (h : E.lower (trim q) = "") (offset limit : ℕ) :
    (pageFor E W graph q offset limit).rows = [] ∧ (pageFor E W graph q offset limit).constraints = [] := by
  have hprojects : focusProjects E [] graph = .ofList [] := rfl
  have hrows : ∀ terms, graph.edges.filterMap (constraintRow E W graph (.ofList []) terms) = [] := by
    intro terms
    refine List.filterMap_eq_nil_iff.mpr fun edge _ => ?_
    rw [constraintRow, if_pos (.inr (.inr (by simp)))]
  unfold pageFor
  dsimp only
  rw [admitted_blank hE h]
  have hfold : (foldRanked ([] : List (Candidate σ)) graph.nodes).1 = [] := rfl
  rw [hfold, hprojects, projectConstraints, hrows]
  exact ⟨by simp [pruneCandidates], rfl⟩

/-! ## A request that is an id -/

/-- The candidate of the node that the request is the id of. -/
theorem exists_exactCandidate (hE : E.Sound) {id : String} (hq : E.lower (trim r.q) ≠ "")
    (hnode : (nodes.get? id).isSome) (hid : E.lower id = E.lower (trim r.q)) :
    ∃ n ∈ wholeCandidates E r nodes, n.id = id ∧ n.score = E.one := by
  obtain ⟨node, hnode⟩ := Option.isSome_iff_exists.mp hnode
  have hexact : exactId E r id = true := decide_eq_true hid
  refine exists_candidate hE hq ⟨node, hnode, .inr ⟨?_, ?_⟩⟩
  · rw [literalMatched, hexact, Bool.true_or]
  · rw [literalScore, exactMatch, hexact, Bool.true_or, Bool.true_or, if_pos rfl]

/-- A node whose id is the request is the first row, if it is not listed apart, exactly where nothing with the best
score is in its way. -/
theorem exactId_first_iff (hE : E.Sound) (W : Weighing σ) (graph : Materialized) {q id : String} {limit : ℕ}
    (hnode : (graph.nodes.get? id).isSome) (hid : E.lower id = E.lower (trim q)) (hlimit : 1 ≤ limit) :
    (id ∉ (pageFor E W graph q 0 limit).constraints.map ConstraintRow.id →
      ((pageFor E W graph q 0 limit).rows.head?.map Candidate.id) = some id) ↔
    (id ∈ (pageFor E W graph q 0 limit).constraints.map ConstraintRow.id ∨
      Unchallenged E (.of E q) graph.nodes ((pageFor E W graph q 0 limit).constraints.map ConstraintRow.id) id) := by
  by_cases hq : E.lower (trim q) = ""
  · obtain ⟨hrows, hconstraints⟩ := pageFor_blank hE W graph hq 0 limit
    rw [hrows, hconstraints]
    refine iff_of_false (fun h => ?_) fun h => ?_
    · cases h List.not_mem_nil
    · exact h.elim (fun h => absurd h List.not_mem_nil) fun h => h.asks hq
  obtain ⟨r, hr⟩ : ∃ r, Request.of E q = r := ⟨_, rfl⟩
  have hrq : r.q = q := by rw [← hr, request_q]
  rw [← hrq] at hq hid
  obtain ⟨n, hn, rfl, hone⟩ := exists_exactCandidate hE hq hnode hid
  have hadmitted : admitted E r graph.nodes = (wholeCandidates E r graph.nodes, []) := by
    rw [admitted]
    exact if_neg fun h => List.ne_nil_of_mem hn h.1
  have hfolded : (foldRanked (wholeCandidates E r graph.nodes) graph.nodes).1 =
      firstOfKey (documentKey graph.nodes) [] (wholeCandidates E r graph.nodes) :=
    foldRanked_eq nodup_wholeCandidates graph.nodes
  have hpart : ((firstOfKey (documentKey graph.nodes) [] (wholeCandidates E r graph.nodes)).any
      fun c => startsWith c.why "term_coverage:") = false := by
    refine List.any_eq_false.mpr fun c hc => ?_
    have hwhy := (seedScores_some hE hq (mem_wholeCandidates.mp ((firstOfKey_sublist _ _ _).subset hc))).2.1
    rw [hwhy]
    exact Bool.false_ne_true
  obtain ⟨listed, hlisted⟩ : ∃ listed, listed = (pageFor E W graph q 0 limit).constraints.map ConstraintRow.id :=
    ⟨_, rfl⟩
  have hhead : (pageFor E W graph q 0 limit).rows.head? = (pruneCandidates E W
      (firstOfKey (documentKey graph.nodes) [] (wholeCandidates E r graph.nodes)) listed false).head? := by
    rw [hlisted]
    unfold pageFor
    dsimp only
    rw [hr, hadmitted, hfolded, hpart, List.drop_zero, List.head?_take, if_neg (by omega)]
    rfl
  rw [← hlisted, hhead, hr]
  by_cases hin : n.id ∈ listed
  · exact iff_of_true (fun h => absurd hin h) (.inl hin)
  · rw [or_iff_right hin, ← find?_whole_iff hE hq hn hone hin, ← head?_pruneCandidates (E := E) W hin]
    refine ⟨fun h => ?_, fun h _ => by rw [h, Option.map_some]⟩
    obtain ⟨c, hc, hcid⟩ := Option.map_eq_some_iff.mp (h hin)
    have hmem : c ∈ wholeCandidates E r graph.nodes := by
      have hpruned := List.mem_of_mem_head? hc
      unfold pruneCandidates at hpruned
      dsimp only at hpruned
      rw [if_neg Bool.false_ne_true] at hpruned
      split at hpruned
      · exact (firstOfKey_sublist _ _ _).subset hpruned
      · exact (firstOfKey_sublist _ _ _).subset (List.mem_filter.mp hpruned).1
    rw [hc, List.inj_on_of_nodup_map nodup_wholeCandidates hmem hn hcid]

end

/-! ## Two tasks -/

theorem plainEngine_sound : plainEngine.Sound where
  lower_eq_empty s h := by
    have hnil : s.toList.map Char.toLower = [] := by simpa [plainEngine, asciiLower] using congrArg String.toList h
    exact String.toList_eq_nil_iff.mp (List.map_eq_nil_iff.mp hnil)
  words_blank q h w hw := by
    obtain ⟨piece, hpiece, rfl⟩ := List.mem_map.mp hw
    obtain ⟨hpiece, hne⟩ := List.mem_filter.mp hpiece
    rw [splitOnP_of_forall (whitespace_of_trim h) piece hpiece] at hne
    simp at hne
  zero_lt_one := Nat.zero_lt_one
  search_le docs q e he := by
    obtain ⟨doc, -, rfl⟩ := List.mem_map.mp he
    exact le_refl _
  coverage_le hits anchored := by
    dsimp only [plainEngine]
    split <;> decide

/-- A plain weighing: a term is worth one. -/
def plainWeighing : Weighing ℕ where
  sum _ hits := (hits.filter fun e => e.2).length
  halfOf top score := decide (top ≤ 2 * score)

/-- Two tasks; the label of the first one names the second one. -/
def twoTasks : Materialized where
  nodes := SortedMap.insertAll ∅
    [("task:a", .mkObject [("id", .string "task:a"), ("label", .string "after task:b"), ("type", .string "Task")]),
      ("task:b", .mkObject [("id", .string "task:b"), ("label", .string "write"), ("type", .string "Task")])]
  edges := []

/-- The task that no other one is ahead of. -/
theorem exactId_first_task :
    ("task:a" ∉ (pageFor plainEngine plainWeighing twoTasks "task:a" 0 5).constraints.map ConstraintRow.id →
      ((pageFor plainEngine plainWeighing twoTasks "task:a" 0 5).rows.head?.map Candidate.id) = some "task:a") ↔
    ("task:a" ∈ (pageFor plainEngine plainWeighing twoTasks "task:a" 0 5).constraints.map ConstraintRow.id ∨
      Unchallenged plainEngine (.of plainEngine "task:a") twoTasks.nodes
        ((pageFor plainEngine plainWeighing twoTasks "task:a" 0 5).constraints.map ConstraintRow.id) "task:a") :=
  exactId_first_iff plainEngine_sound plainWeighing twoTasks (by decide +kernel) (by decide +kernel) (by decide)

/-- A task whose label names the one that is asked for comes first. -/
theorem named_task_second :
    ¬∀ (E : Engine ℕ) (W : Weighing ℕ) (graph : Materialized) (q id : String) (limit : ℕ), E.Sound →
      (graph.nodes.get? id).isSome → E.lower id = E.lower (trim q) →
      (∀ m ∈ graph.nodes.keys, E.lower m = E.lower (trim q) → m = id) → 1 ≤ limit →
      id ∉ (pageFor E W graph q 0 limit).constraints.map ConstraintRow.id →
      ((pageFor E W graph q 0 limit).rows.head?.map Candidate.id) = some id := by
  intro h
  have hfirst := h plainEngine plainWeighing twoTasks "task:b" "task:b" 5 plainEngine_sound (by decide +kernel)
    (by decide +kernel) (by decide +kernel) (by decide) (by decide +kernel)
  exact absurd hfirst (by decide +kernel)

end Innen.TaskEntry
