import Innen.Artifact.Ledger.Model
import Innen.Common.Chains
import Innen.Common.Transition
import Innen.Json.Pointer

/-!
# Supersession

A supersession says that one receipt replaces another one. The ledger is ordered (`Ordered`) if nothing replaces
itself in the end, only receipts of its own project are linked, and every receipt leads to one head, which the
integrity check looks at.

The operations compare the owners of receipts as they were added, and look at no supersession that there is already.
A run in which accepted requests meet the condition `Sound` keeps the ledger ordered (`ordered_of_run`), and a step
that does not meet it ends that (`ordered_after_iff`).
-/

namespace Innen.Ledger

open Innen.Common Relation

/-! ## Links and owners -/

/-- A receipt replaces another one. -/
def Supersedes (s : State) (a b : String) : Prop :=
  ∃ e ∈ s.events, e.kind = "supersede" ∧ e.receiptId = a ∧ e.supersedes = some b

instance (s : State) (a b : String) : Decidable (Supersedes s a b) := inferInstanceAs (Decidable (∃ e ∈ s.events, _))

/-- The project of a receipt after the events about it. -/
def ownerOf (s : State) (id : String) : Option String :=
  (s.receipts.find? fun r => r.id = id).map fun r => (effective r s.events).ownerProject

theorem not_supersedes_iff {s : State} {b : String} :
    (∀ a, ¬Supersedes s a b) ↔ isSuperseded s.events b = false := by
  rw [isSuperseded, List.any_eq_false]
  constructor
  · intro h e he hsup
    have hsup := of_decide_eq_true hsup
    exact h e.receiptId ⟨e, he, hsup.1, rfl, hsup.2⟩
  · rintro h a ⟨e, he, hkind, -, hb⟩
    exact h e he (decide_eq_true ⟨hkind, hb⟩)

theorem effective_append (r : Receipt) (es : List EventRecord) (e : EventRecord) :
    effective r (es ++ [e]) = if e.receiptId = r.id then applyEvent (effective r es) e else effective r es := by
  rw [effective, List.filter_append, List.foldl_append]
  by_cases h : e.receiptId = r.id
  · rw [if_pos h, List.filter_cons_of_pos (p := fun e : EventRecord => decide (e.receiptId = r.id)) (decide_eq_true h)]
    rfl
  · rw [if_neg h, List.filter_cons_of_neg (p := fun e : EventRecord => decide (e.receiptId = r.id)) (by simpa using h)]
    rfl

theorem applyEvent_ownerProject (r : Receipt) (e : EventRecord) :
    (applyEvent r e).ownerProject =
      if e.kind = "reclassify" then e.newOwnerProject.getD r.ownerProject else r.ownerProject := by
  rw [applyEvent]
  by_cases hrelocate : e.kind = "relocate"
  · rw [if_pos hrelocate, if_neg (by rw [hrelocate]; decide)]
  · rw [if_neg hrelocate]
    split <;> rfl

/-- The owners after one more event. -/
theorem ownerOf_event (s : State) (e : EventRecord) (id : String) :
    ownerOf { s with events := s.events ++ [e] } id = (ownerOf s id).map fun owner =>
      if e.kind = "reclassify" ∧ e.receiptId = id then e.newOwnerProject.getD owner else owner := by
  rw [ownerOf, ownerOf, Option.map_map]
  refine Option.map_congr fun r hr => ?_
  have hid : r.id = id := of_decide_eq_true (List.find?_some hr :)
  rw [Function.comp_apply, effective_append, hid]
  by_cases h : e.receiptId = id
  · rw [if_pos h, applyEvent_ownerProject]
    simp only [h, and_true]
  · rw [if_neg h, if_neg fun hand => h hand.2]

/-- A new receipt changes no owner. -/
theorem ownerOf_receipt (s : State) (r : Receipt) {id owner : String} (h : ownerOf s id = some owner) :
    ownerOf { s with receipts := s.receipts ++ [r] } id = some owner := by
  obtain ⟨r', hr', howner⟩ := Option.map_eq_some_iff.mp h
  rw [ownerOf, List.find?_append, hr', Option.some_or, Option.map_some, howner]

/-- The links after one more event. -/
theorem supersedes_event (s : State) (e : EventRecord) (a b : String) :
    Supersedes { s with events := s.events ++ [e] } a b ↔
      Supersedes s a b ∨ e.kind = "supersede" ∧ e.receiptId = a ∧ e.supersedes = some b := by
  simp only [Supersedes, List.mem_append, List.mem_singleton, or_and_right, exists_or, exists_eq_left]

/-! ## What the operations do -/

theorem require_eq_ok {rs : List Receipt} {id : String} {r : Receipt} (h : require rs id = .ok r) :
    (rs.find? fun r => r.id = id) = some r := by
  rw [require] at h
  cases hfind : rs.find? fun r => r.id = id with
  | none =>
    rw [hfind] at h
    cases h
  | some r' =>
    rw [hfind] at h
    exact congrArg some (Except.ok.inj h)

/-- An accepted supersession links two different receipts that were added to the project. -/
theorem newEvent_supersede {s : State} {a b : String} {date : Option String} {now : String} {e : EventRecord}
    (h : newEvent s (.supersede a b date) now = .ok e) :
    e.kind = "supersede" ∧ e.receiptId = a ∧ e.supersedes = some b ∧ a ≠ b ∧
      (∃ r ∈ s.receipts, r.id = a) ∧ ∃ r ∈ s.receipts, r.id = b := by
  simp only [newEvent, bind_eq_ok, failIf_eq_ok] at h
  obtain ⟨ra, hra, rb, hrb, -, hcheck, he⟩ := h
  obtain rfl := Except.ok.inj he
  have hra := require_eq_ok hra
  have hrb := require_eq_ok hrb
  exact ⟨rfl, rfl, rfl, fun hab => hcheck (.inl hab),
    ⟨ra, List.mem_of_find?_eq_some hra, of_decide_eq_true (List.find?_some hra :)⟩,
    rb, List.mem_of_find?_eq_some hrb, of_decide_eq_true (List.find?_some hrb :)⟩

theorem newEvent_reclassify {s : State} {id relation provenance : String} {owner date : Option String} {now : String}
    {e : EventRecord} (h : newEvent s (.reclassify id owner relation provenance date) now = .ok e) :
    e.kind = "reclassify" ∧ e.receiptId = id ∧ e.newOwnerProject = owner := by
  simp only [newEvent, bind_eq_ok] at h
  obtain ⟨-, -, -, -, -, -, -, -, he⟩ := h
  obtain rfl := Except.ok.inj he
  exact ⟨rfl, rfl, rfl⟩

theorem newEvent_note {s : State} {id note : String} {date : Option String} {now : String} {e : EventRecord}
    (h : newEvent s (.note id note date) now = .ok e) : e.kind = "note" := by
  simp only [newEvent, bind_eq_ok] at h
  obtain ⟨-, -, he⟩ := h
  obtain rfl := Except.ok.inj he
  rfl

theorem newEvent_relocate {s : State} {id expected : String} {file : FileAnswer} {date : Option String}
    {now : String} {e : EventRecord} (h : newEvent s (.relocate id expected file date) now = .ok e) :
    e.kind = "relocate" := by
  simp only [newEvent, bind_eq_ok] at h
  obtain ⟨_, -, _, -, _, -, _, -, _, -, _, -, he⟩ := h
  obtain rfl := Except.ok.inj he
  rfl

/-! ## Ordered ledgers -/

/-- What the integrity check says about a receipt that it looks at. -/
structure Covered (hashAt : String → Except String (Option String)) (s : State) (r : Receipt)
    (report : CheckReport) : Prop where
  active : r.id ∉ report.superseded
  missing : hashAt (current r s.events) = .ok none → r.id ∈ report.missing
  changed : ∀ sha, hashAt (current r s.events) = .ok (some sha) → sha ≠ r.sha256 → r.id ∈ report.changed

/-- What supersession should be in every ledger. -/
structure Ordered (s : State) : Prop where
  acyclic : Acyclic (Supersedes s)
  linked : ∀ a b, Supersedes s a b →
    ownerOf s a = some s.identity.projectId ∧ ownerOf s b = some s.identity.projectId
  head : ∀ r ∈ s.receipts, ∃! h, h ∈ s.receipts ∧ IsHead (Supersedes s) h.id r.id
  covered : ∀ hashAt report, s.check hashAt = .ok report →
    ∀ r ∈ s.receipts, (∀ a, ¬Supersedes s a r.id) → Covered hashAt s r report

/-- What accepted requests have to meet beyond what is checked: a supersession links receipts that belong to the
project when it is made, it does not replace something above the replacement, and what it replaces is the head of a
chain, or has the same head as the replacement already; a receipt that is linked stays with the project. -/
def Sound (s : State) : Request → Prop
  | .event (.supersede a b _) _ =>
    (ownerOf s a = some s.identity.projectId ∧ ownerOf s b = some s.identity.projectId) ∧
      ¬ReflTransGen (Supersedes s) b a ∧
      ((∀ y, ¬Supersedes s y b) ∨ ∃ h, IsHead (Supersedes s) h a ∧ IsHead (Supersedes s) h b)
  | .event (.reclassify id owner _ _ _) _ =>
    (∃ other, Supersedes s id other ∨ Supersedes s other id) →
      owner.getD s.identity.projectId = s.identity.projectId
  | _ => True

/-! ## The integrity check looks at every head -/

section Check

variable {hashAt : String → Except String (Option String)} {es : List EventRecord}

/-- Nothing is taken out of a report. -/
theorem checkReceipt_mono {out out' : CheckReport} {r : Receipt} (h : checkReceipt hashAt es out r = .ok out') :
    (∀ id ∈ out.missing, id ∈ out'.missing) ∧ (∀ id ∈ out.changed, id ∈ out'.changed) := by
  unfold checkReceipt at h
  split at h
  · obtain rfl := Except.ok.inj h
    exact ⟨fun _ => id, fun _ => id⟩
  · obtain ⟨answer, -, h⟩ := bind_eq_ok.mp h
    cases answer with
    | none =>
      obtain rfl := Except.ok.inj h
      exact ⟨fun _ => List.mem_append_left _, fun _ => id⟩
    | some sha =>
      obtain rfl := Except.ok.inj h
      split
      · exact ⟨fun _ => id, fun _ => List.mem_append_left _⟩
      · exact ⟨fun _ => id, fun _ => id⟩

/-- Only receipts that are superseded are reported as such. -/
theorem checkReceipt_superseded {out out' : CheckReport} {r : Receipt} (h : checkReceipt hashAt es out r = .ok out')
    {id : String} (hid : id ∈ out'.superseded) : id ∈ out.superseded ∨ isSuperseded es id = true := by
  unfold checkReceipt at h
  split at h
  · rename_i hsup
    obtain rfl := Except.ok.inj h
    rcases List.mem_append.mp hid with hid | hid
    · exact .inl hid
    · exact .inr (List.mem_singleton.mp hid ▸ hsup)
  · obtain ⟨answer, -, h⟩ := bind_eq_ok.mp h
    cases answer with
    | none =>
      obtain rfl := Except.ok.inj h
      exact .inl hid
    | some sha =>
      obtain rfl := Except.ok.inj h
      split at hid <;> exact .inl hid

theorem check_mono {rs : List Receipt} {out out' : CheckReport} (h : rs.foldlM (checkReceipt hashAt es) out = .ok out') :
    (∀ id ∈ out.missing, id ∈ out'.missing) ∧ (∀ id ∈ out.changed, id ∈ out'.changed) := by
  refine foldlM_ok_induction (fun report => (∀ id ∈ out.missing, id ∈ report.missing) ∧
    ∀ id ∈ out.changed, id ∈ report.changed) (fun b r b' _ hb hstep => ?_) ⟨fun _ => id, fun _ => id⟩ h
  have hmono := checkReceipt_mono hstep
  exact ⟨fun id hid => hmono.1 id (hb.1 id hid), fun id hid => hmono.2 id (hb.2 id hid)⟩

/-- A receipt that is not superseded is looked at. -/
theorem check_covers {rs : List Receipt} {out out' : CheckReport} {r : Receipt}
    (h : rs.foldlM (checkReceipt hashAt es) out = .ok out') (hr : r ∈ rs) (hsup : isSuperseded es r.id = false) :
    (hashAt (current r es) = .ok none → r.id ∈ out'.missing) ∧
      ∀ sha, hashAt (current r es) = .ok (some sha) → sha ≠ r.sha256 → r.id ∈ out'.changed := by
  induction rs generalizing out with
  | nil => cases hr
  | cons r' rest ih =>
    rw [List.foldlM_cons, bind_eq_ok] at h
    obtain ⟨mid, hmid, hrest⟩ := h
    rcases List.mem_cons.mp hr with rfl | hr
    · have hmono := check_mono hrest
      rw [checkReceipt, if_neg (by rw [hsup]; exact Bool.false_ne_true)] at hmid
      obtain ⟨answer, hanswer, hmid⟩ := bind_eq_ok.mp hmid
      rw [mapError_eq_ok] at hanswer
      constructor
      · intro hnone
        obtain rfl := Except.ok.inj (hanswer.symm.trans hnone)
        obtain rfl := Except.ok.inj hmid
        exact hmono.1 _ (List.mem_append_right _ List.mem_cons_self)
      · intro sha hsha hne
        obtain rfl := Except.ok.inj (hanswer.symm.trans hsha)
        obtain rfl := Except.ok.inj hmid
        refine hmono.2 _ ?_
        rw [if_pos hne]
        exact List.mem_append_right _ List.mem_cons_self
    · exact ih hrest hr

theorem check_superseded {rs : List Receipt} {out' : CheckReport} {id : String}
    (h : rs.foldlM (checkReceipt hashAt es) ⟨0, [], [], []⟩ = .ok out') (hid : id ∈ out'.superseded) :
    isSuperseded es id = true :=
  foldlM_ok_induction (fun report => ∀ id ∈ report.superseded, isSuperseded es id = true)
    (fun _ _ _ _ hb hstep id hid => (checkReceipt_superseded hstep hid).elim (hb id) fun h => h)
    (fun _ hid => by cases hid) h id hid

end Check

/-- The integrity check covers what nothing replaces. -/
theorem covered_of_head {hashAt : String → Except String (Option String)} {s : State} {report : CheckReport}
    (h : s.check hashAt = .ok report) {r : Receipt} (hr : r ∈ s.receipts) (htop : ∀ a, ¬Supersedes s a r.id) :
    Covered hashAt s r report := by
  have hsup := not_supersedes_iff.mp htop
  obtain ⟨hmissing, hchanged⟩ := check_covers h hr hsup
  refine ⟨fun hid => ?_, hmissing, hchanged⟩
  rw [check_superseded h hid] at hsup
  cases hsup

/-! ## Every step -/

/-- A digit is not a colon. -/
theorem colon_not_mem_toString (n : ℕ) : ':' ∉ (toString n).toList := by
  rw [toList_toString]
  exact fun h => absurd (Nat.isDigit_of_mem_toDigits (by decide) (by decide) h) (by decide)

/-- The number of a receipt can be read off its id. -/
theorem receiptId_number {sha256Hex : String → String} {identity : Identity} {sha sha' : String} {n n' : ℕ}
    (h : receiptId sha256Hex identity sha n = receiptId sha256Hex identity sha' n') : n = n' := by
  have hlist := congrArg String.toList h
  simp only [receiptId, String.toList_append] at hlist
  have htail := append_sep_inj (colon_not_mem_toString n) (colon_not_mem_toString n')
    ((List.append_assoc _ ":".toList _).symm.trans (hlist.trans (List.append_assoc _ ":".toList _)))
  rw [← Option.some_inj, ← parseIndex_toString, String.toList_inj.mp htail, parseIndex_toString]

/-- The invariant of the runs. -/
structure Kept (sha256Hex : String → String) (s : State) : Prop where
  numbered : ∀ i r, s.receipts[i]? = some r → ∃ sha, r.id = receiptId sha256Hex s.identity sha (i + 1)
  acyclic : Acyclic (Supersedes s)
  linked : ∀ a b, Supersedes s a b →
    ownerOf s a = some s.identity.projectId ∧ ownerOf s b = some s.identity.projectId
  head : ∀ x, ∃! h, IsHead (Supersedes s) h x

/-- The ids of receipts are different. -/
theorem Kept.eq_of_id {sha256Hex : String → String} {s : State} (hs : Kept sha256Hex s) {r r' : Receipt}
    (hr : r ∈ s.receipts) (hr' : r' ∈ s.receipts) (hid : r.id = r'.id) : r = r' := by
  obtain ⟨i, hi⟩ := List.mem_iff_getElem?.mp hr
  obtain ⟨j, hj⟩ := List.mem_iff_getElem?.mp hr'
  obtain ⟨sha, hsha⟩ := hs.numbered i r hi
  obtain ⟨sha', hsha'⟩ := hs.numbered j r' hj
  have hij : i + 1 = j + 1 := receiptId_number (hsha.symm.trans (hid.trans hsha'))
  rw [Nat.succ.inj hij, hj] at hi
  exact (Option.some.inj hi).symm

theorem mem_of_ownerOf {s : State} {id owner : String} (h : ownerOf s id = some owner) :
    ∃ r ∈ s.receipts, r.id = id := by
  obtain ⟨r, hr, -⟩ := Option.map_eq_some_iff.mp h
  exact ⟨r, List.mem_of_find?_eq_some hr, of_decide_eq_true (List.find?_some hr :)⟩

/-- What leads to a receipt is a receipt, when receipts only are linked. -/
theorem mem_of_reaches {s : State} (hlinked : ∀ a b, Supersedes s a b →
      ownerOf s a = some s.identity.projectId ∧ ownerOf s b = some s.identity.projectId)
    {r : Receipt} (hr : r ∈ s.receipts) {h : String} (hh : ReflTransGen (Supersedes s) h r.id) :
    ∃ r' ∈ s.receipts, r'.id = h := by
  rcases ReflTransGen.cases_head hh with rfl | ⟨y, hy, -⟩
  · exact ⟨r, hr, rfl⟩
  · exact mem_of_ownerOf (hlinked h y hy).1

theorem Kept.ordered {sha256Hex : String → String} {s : State} (hs : Kept sha256Hex s) : Ordered s where
  acyclic := hs.acyclic
  linked := hs.linked
  head r hr := by
    obtain ⟨h, hh, huniq⟩ := hs.head r.id
    obtain ⟨r', hr', rfl⟩ := mem_of_reaches hs.linked hr hh.reaches
    refine ⟨r', ⟨hr', hh⟩, ?_⟩
    rintro r'' ⟨hr'', hh''⟩
    exact hs.eq_of_id hr'' hr' (huniq _ hh'')
  covered _ _ h _ hr htop := covered_of_head h hr htop

theorem kept_fresh (sha256Hex : String → String) (o : InitOptions) : Kept sha256Hex (fresh o) := by
  have hnone : ∀ a b, ¬Supersedes (fresh o) a b := by
    rintro a b ⟨e, he, -⟩
    cases he
  refine ⟨fun i r hr => (by cases hr), fun x hx => ?_, fun a b hab => absurd hab (hnone a b), fun x => ?_⟩
  · obtain ⟨y, hy, -⟩ := TransGen.head'_iff.mp hx
    exact hnone x y hy
  · refine ⟨x, isHead_self fun y => hnone y x, fun h hh => ?_⟩
    exact (isHead_self fun y => hnone y x).eq_of_reaches hh.reaches

section Step

variable {sha256Hex : String → String} {s s' : State}

/-- An event that neither links receipts nor gives one away keeps the invariant. -/
theorem Kept.other (hs : Kept sha256Hex s) {e : EventRecord} (hsupersede : e.kind ≠ "supersede")
    (howner : e.kind = "reclassify" → (∃ other, Supersedes s e.receiptId other ∨ Supersedes s other e.receiptId) →
      e.newOwnerProject.getD s.identity.projectId = s.identity.projectId) :
    Kept sha256Hex { s with events := s.events ++ [e] } := by
  have hlinks : Supersedes { s with events := s.events ++ [e] } = Supersedes s := by
    funext a b
    exact propext ((supersedes_event s e a b).trans (or_iff_left fun h => hsupersede h.1))
  have hkeep : ∀ id, (∃ other, Supersedes s id other ∨ Supersedes s other id) →
      ownerOf s id = some s.identity.projectId →
      ownerOf { s with events := s.events ++ [e] } id = some s.identity.projectId := by
    intro id hlink hid
    rw [ownerOf_event, hid, Option.map_some]
    split
    · rename_i hre
      obtain ⟨hkind, rfl⟩ := hre
      exact congrArg some (howner hkind hlink)
    · rfl
  refine ⟨hs.numbered, hlinks ▸ hs.acyclic, fun a b hab => ?_, hlinks ▸ hs.head⟩
  rw [hlinks] at hab
  obtain ⟨ha, hb⟩ := hs.linked a b hab
  exact ⟨hkeep a ⟨b, .inl hab⟩ ha, hkeep b ⟨a, .inr hab⟩ hb⟩

/-- The links after a supersession. -/
theorem supersedes_supersede {e : EventRecord} {a b : String} (hkind : e.kind = "supersede") (ha : e.receiptId = a)
    (hb : e.supersedes = some b) :
    Supersedes { s with events := s.events ++ [e] } = addEdge (Supersedes s) a b := by
  funext x y
  rw [supersedes_event, hb, ha, addEdge]
  simp only [hkind, true_and, Option.some.injEq, eq_comm]

theorem ownerOf_supersede {e : EventRecord} (hkind : e.kind = "supersede") (id : String) :
    ownerOf { s with events := s.events ++ [e] } id = ownerOf s id := by
  rw [ownerOf_event]
  refine (Option.map_congr fun owner _ => ?_).trans Option.map_id'
  rw [if_neg]
  rintro ⟨hre, -⟩
  rw [hkind] at hre
  exact absurd hre (by decide)

/-- A sound supersession keeps the invariant. -/
theorem Kept.supersede (hs : Kept sha256Hex s) {e : EventRecord} {a b : String} {date : Option String} {now : String}
    (hkind : e.kind = "supersede") (ha : e.receiptId = a) (hb : e.supersedes = some b)
    (hsound : Sound s (.event (.supersede a b date) now)) :
    Kept sha256Hex { s with events := s.events ++ [e] } := by
  obtain ⟨⟨howna, hownb⟩, hba, hfree⟩ := hsound
  have hlinks := supersedes_supersede (s := s) hkind ha hb
  refine ⟨hs.numbered, ?_, fun x y hxy => ?_, fun x => ?_⟩
  · rw [hlinks, acyclic_addEdge_iff]
    exact ⟨hs.acyclic, hba⟩
  · rw [ownerOf_supersede hkind, ownerOf_supersede hkind]
    rw [hlinks] at hxy
    rcases hxy with hxy | ⟨rfl, rfl⟩
    · exact hs.linked x y hxy
    · exact ⟨howna, hownb⟩
  · rw [hlinks]
    exact uniqueHead_addEdge hs.head hba hfree x

/-- A new receipt keeps the invariant. -/
theorem Kept.add (hs : Kept sha256Hex s) {o : AddOptions} {file : FileAnswer} {now : String} {r : Receipt}
    (h : newReceipt sha256Hex s o file now = .ok r) :
    Kept sha256Hex { s with receipts := s.receipts ++ [r] } := by
  have hid : ∃ sha, r.id = receiptId sha256Hex s.identity sha (s.receipts.length + 1) := by
    simp only [newReceipt, bind_eq_ok] at h
    obtain ⟨_, -, _, -, _, -, _, -, _, -, _, -, _, -, hash, -, hr⟩ := h
    obtain rfl := Except.ok.inj hr
    exact ⟨hash.1, rfl⟩
  refine ⟨fun i r' hr' => ?_, hs.acyclic, fun a b hab => ?_, hs.head⟩
  · rw [List.getElem?_append] at hr'
    split at hr'
    · exact hs.numbered i r' hr'
    · rename_i hi
      obtain rfl : r' = r := List.mem_singleton.mp (List.mem_of_getElem? hr')
      obtain ⟨hi', -⟩ := List.getElem?_eq_some_iff.mp hr'
      rw [List.length_singleton] at hi'
      obtain rfl : i = s.receipts.length := by omega
      exact hid
  · obtain ⟨ha, hb⟩ := hs.linked a b hab
    exact ⟨ownerOf_receipt s r ha, ownerOf_receipt s r hb⟩

/-- What a request keeps that is sound. -/
theorem Kept.perform (hs : Kept sha256Hex s) {q : Request} (hsound : Sound s q)
    (h : s.perform sha256Hex q = .ok s') : Kept sha256Hex s' := by
  cases q with
  | init o =>
    obtain ⟨-, -, h⟩ := bind_eq_ok.mp h
    exact Except.ok.inj h ▸ hs
  | add o file now =>
    obtain ⟨r, hr, h⟩ := bind_eq_ok.mp h
    exact Except.ok.inj h ▸ hs.add hr
  | event x now =>
    obtain ⟨e, he, h⟩ := bind_eq_ok.mp h
    obtain rfl := Except.ok.inj h
    cases x with
    | note id note date =>
      have hkind := newEvent_note he
      exact hs.other (by rw [hkind]; decide) fun hre => absurd (hkind.symm.trans hre) (by decide)
    | relocate id expected file date =>
      have hkind := newEvent_relocate he
      exact hs.other (by rw [hkind]; decide) fun hre => absurd (hkind.symm.trans hre) (by decide)
    | reclassify id owner relation provenance date =>
      obtain ⟨hkind, rfl, rfl⟩ := newEvent_reclassify he
      exact hs.other (by rw [hkind]; decide) fun _ => hsound
    | supersede a b date =>
      obtain ⟨hkind, ha, hb, -⟩ := newEvent_supersede he
      exact hs.supersede hkind ha hb hsound

/-- The heads of an ordered ledger, as ids. -/
theorem Ordered.uniqueHead (hs : Ordered s) {r : Receipt} (hr : r ∈ s.receipts) :
    ∃! h, IsHead (Supersedes s) h r.id := by
  obtain ⟨r', ⟨hr', hh⟩, huniq⟩ := hs.head r hr
  refine ⟨r'.id, hh, fun h hh' => ?_⟩
  obtain ⟨r'', hr'', rfl⟩ := mem_of_reaches hs.linked hr hh'.reaches
  exact congrArg Receipt.id (huniq r'' ⟨hr'', hh'⟩)

/-- An accepted request leaves an ordered ledger iff it is sound. -/
theorem ordered_perform_iff (hs : Kept sha256Hex s) {q : Request} (h : s.perform sha256Hex q = .ok s') :
    Ordered s' ↔ Sound s q := by
  refine ⟨fun hs' => ?_, fun hsound => (hs.perform hsound h).ordered⟩
  cases q with
  | init o => exact trivial
  | add o file now => exact trivial
  | event x now =>
    obtain ⟨e, he, h⟩ := bind_eq_ok.mp h
    obtain rfl := Except.ok.inj h
    cases x with
    | note id note date => exact trivial
    | relocate id expected file date => exact trivial
    | reclassify id owner relation provenance date =>
      obtain ⟨hkind, rfl, rfl⟩ := newEvent_reclassify he
      rintro ⟨other, hlink⟩
      -- The link is there afterwards too, so the receipt still belongs to the project.
      have hown : ownerOf { s with events := s.events ++ [e] } e.receiptId = some s.identity.projectId :=
        hlink.elim (fun h => (hs'.linked _ _ ((supersedes_event ..).mpr (.inl h))).1)
          fun h => (hs'.linked _ _ ((supersedes_event ..).mpr (.inl h))).2
      have hbefore : ownerOf s e.receiptId = some s.identity.projectId :=
        hlink.elim (fun h => (hs.linked _ _ h).1) fun h => (hs.linked _ _ h).2
      rw [ownerOf_event, hbefore, Option.map_some, if_pos ⟨hkind, rfl⟩] at hown
      exact Option.some.inj hown
    | supersede a b date =>
      obtain ⟨hkind, ha, hb, -, -, hmemb⟩ := newEvent_supersede he
      obtain ⟨rb, hrb, hrbid⟩ := hmemb
      have hlinks := supersedes_supersede (s := s) hkind ha hb
      have hnew : Supersedes { s with events := s.events ++ [e] } a b := hlinks ▸ Or.inr ⟨rfl, rfl⟩
      have howners := hs'.linked a b hnew
      rw [ownerOf_supersede hkind, ownerOf_supersede hkind] at howners
      have hacyclic := hs'.acyclic
      rw [hlinks, acyclic_addEdge_iff] at hacyclic
      have huniq := hs'.uniqueHead hrb
      rw [hlinks, hrbid] at huniq
      exact ⟨howners, hacyclic.2,
        head_of_uniqueHead_addEdge (hs.head a).exists (hs.head b).exists hacyclic.2 huniq⟩

end Step

/-! ## Every run -/

/-- Every request is answered: one that is refused leaves the ledger as it is. -/
def requestStep (sha256Hex : String → String) (s : State) (q : Request) : Option State := some (s.after sha256Hex q)

/-- The condition on a step: if the request is accepted, it is sound. -/
def SoundStep (sha256Hex : String → String) (s : State) (q : Request) : Prop :=
  (s.perform sha256Hex q).isOk → Sound s q

theorem Kept.after {sha256Hex : String → String} {s : State} (hs : Kept sha256Hex s) {q : Request}
    (hsound : SoundStep sha256Hex s q) : Kept sha256Hex (s.after sha256Hex q) := by
  rw [State.after]
  cases h : s.perform sha256Hex q with
  | error e => exact hs
  | ok s' => exact hs.perform (hsound (by rw [h]; rfl)) h

/-- A run whose accepted requests are sound keeps the ledger ordered. -/
theorem ordered_of_run (sha256Hex : String → String) (o : InitOptions) (qs : List Request) (s : State)
    (hrun : GuardedRun (requestStep sha256Hex) (SoundStep sha256Hex) (fresh o) qs s) : Ordered s := by
  have hkept : Kept sha256Hex s :=
    hrun.invariant (fun hs hok hstep => Option.some.inj hstep ▸ hs.after hok) (kept_fresh sha256Hex o)
  exact hkept.ordered

/-- A new archive. -/
def archiveInit : InitOptions := ⟨"archive", "project:a", [], .ok "/archive", some "archive", .ok false⟩

/-- A readable file of the project. -/
def addFile (path sha : String) : Request :=
  .add ⟨none, .document, "source", .intake, "project:a", "belongs_to", none, none, none, some "mail", none, none⟩
    ⟨.ok path, .ok false, .ok (sha, 1)⟩ "2026-01-01T00:00:00Z"

/-- One receipt replaces another one. -/
def supersedeRequest (a b : String) : Request := .event (.supersede a b none) "2026-01-02T00:00:00Z"

/-- The archive key of the examples. -/
def plainKey (_ : String) : String := "0123456789abcdef"

/-- Two receipts that replace each other. -/
def cycleRequests : List Request :=
  [addFile "/archive/a" "aa", addFile "/archive/b" "bb",
    supersedeRequest "receipt:0123456789abcdef:aa:1" "receipt:0123456789abcdef:bb:2",
    supersedeRequest "receipt:0123456789abcdef:bb:2" "receipt:0123456789abcdef:aa:1"]

/-- The ledger after a list of requests. -/
def afterAll (sha256Hex : String → String) (s : State) (qs : List Request) : State := qs.foldl (State.after sha256Hex) s

theorem supersession_cycle : ¬Ordered (afterAll plainKey (fresh archiveInit) cycleRequests) := by
  intro h
  have hab : Supersedes (afterAll plainKey (fresh archiveInit) cycleRequests)
      "receipt:0123456789abcdef:aa:1" "receipt:0123456789abcdef:bb:2" := by decide +kernel
  have hba : Supersedes (afterAll plainKey (fresh archiveInit) cycleRequests)
      "receipt:0123456789abcdef:bb:2" "receipt:0123456789abcdef:aa:1" := by decide +kernel
  exact h.acyclic _ (.tail (.single hab) hba)

/-- With the first supersession only, the ledger is ordered. -/
theorem ordered_first_supersession : Ordered (afterAll plainKey (fresh archiveInit) (cycleRequests.take 3)) := by
  refine ordered_of_run plainKey archiveInit (cycleRequests.take 3) _ (.next (fun _ => trivial) rfl
    (.next (fun _ => trivial) rfl (.next (fun _ => ?_) rfl (.done _))))
  have hnone : ∀ a b, ¬Supersedes (afterAll plainKey (fresh archiveInit) (cycleRequests.take 2)) a b := by
    rintro a b ⟨e, he, -⟩
    rw [show (afterAll plainKey (fresh archiveInit) (cycleRequests.take 2)).events = [] by rfl] at he
    cases he
  refine ⟨by decide +kernel, fun hba => ?_, .inl fun a hab => hnone _ _ hab⟩
  rcases ReflTransGen.cases_head hba with heq | ⟨y, hy, -⟩
  · exact absurd heq (by decide)
  · exact hnone _ _ hy

end Innen.Ledger
