import Innen.Json.Pointer

/-!
# Slots

Some strings of a value may be taken out, each leaving a numbered mark in its place. What was taken out is listed
with the path of its slot. Filling the slots in the order of the list gives the value back (`fill_vacate`), and
only the vacated value is filled to it (`fill_injective`).
-/

namespace Innen

open Common

/-- A string with the path to it. -/
abbrev Slot := List String × String

namespace Value

/-! ## Places -/

/-- A place in a value: a change below its tokens is a change of what is there. -/
def Focus (tokens : List String) (C : Value → Value) : Prop :=
  ∀ f path w, update f (tokens ++ path) (C w) = (update f path w).map C

theorem focus_id : Focus [] fun w => w := fun f path w => by
  rw [List.nil_append, Option.map_id']

theorem Focus.comp {tokens tokens' : List String} {C D : Value → Value} (hC : Focus tokens C)
    (hD : Focus tokens' D) : Focus (tokens ++ tokens') fun w => C (D w) := by
  intro f path w
  rw [List.append_assoc, hC, hD, Option.map_map]
  rfl

theorem updateField_append {done rest : Fields} {key : String} (hkey : key ∉ Assoc.keys done)
    (f : Value → Option Value) (w : Value) :
    updateField key f (done ++ (key, w) :: rest) = (f w).map fun w => done ++ (key, w) :: rest := by
  induction done with
  | nil => rw [List.nil_append, updateField, if_pos rfl]; rfl
  | cons e done ih =>
    obtain ⟨k, v⟩ := e
    have hk : k ≠ key := fun h => hkey (h ▸ List.mem_cons_self)
    rw [List.cons_append, updateField, if_neg hk, ih fun h => hkey (List.mem_cons_of_mem _ h), Option.map_map]
    rfl

/-- The first field of a key. -/
theorem focus_field {done : Fields} {key : String} (hkey : key ∉ Assoc.keys done) (rest : Fields) :
    Focus [key] fun w => .object (done ++ (key, w) :: rest) := by
  intro f path w
  rw [List.singleton_append, update, updateField_append hkey, Option.map_map]
  rfl

theorem updateItem_append (done rest : List Value) (f : Value → Option Value) (w : Value) :
    updateItem f done.length (done ++ w :: rest) = (f w).map fun w => done ++ w :: rest := by
  induction done with
  | nil => rfl
  | cons v done ih =>
    rw [List.cons_append, List.length_cons, updateItem, ih, Option.map_map]
    rfl

/-- An item. -/
theorem focus_item (done rest : List Value) :
    Focus [toString done.length] fun w => .array (done ++ w :: rest) := by
  intro f path w
  rw [List.singleton_append, update, parseIndex_toString, Option.bind_some, updateItem_append, Option.map_map]
  rfl

/-! ## Taking strings out -/

section

variable (P : List String → String → Bool) (mark : ℕ → Value)

mutual

/-- The strings of a value to be taken out, with their paths in the value. Which ones may depend on the path. -/
def slots : Value → List String → List Slot
  | .string s, path => if P path s then [([], s)] else []
  | .array items, path => itemSlots items path 0
  | .object fields, path => fieldSlots fields path
  | _, _ => []

/-- `slots` on items, from an index on. -/
def itemSlots : List Value → List String → ℕ → List Slot
  | [], _, _ => []
  | v :: rest, path, i =>
    (slots v (path ++ [toString i])).map (fun e => (toString i :: e.1, e.2)) ++ itemSlots rest path (i + 1)

/-- `slots` on fields. -/
def fieldSlots : Fields → List String → List Slot
  | [], _ => []
  | (key, v) :: rest, path =>
    (slots v (path ++ [key])).map (fun e => (key :: e.1, e.2)) ++ fieldSlots rest path

end

mutual

/-- The value without these strings, their marks numbered on from a number. -/
def vacate : Value → List String → ℕ → Value
  | .string s, path, n => if P path s then mark n else .string s
  | .array items, path, n => .array (vacateItems items path 0 n)
  | .object fields, path, n => .object (vacateFields fields path n)
  | other, _, _ => other

/-- `vacate` on items, from an index on. -/
def vacateItems : List Value → List String → ℕ → ℕ → List Value
  | [], _, _, _ => []
  | v :: rest, path, i, n =>
    vacate v (path ++ [toString i]) n ::
      vacateItems rest path (i + 1) (n + (slots P v (path ++ [toString i])).length)

/-- `vacate` on fields. -/
def vacateFields : Fields → List String → ℕ → Fields
  | [], _, _ => []
  | (key, v) :: rest, path, n =>
    (key, vacate v (path ++ [key]) n) :: vacateFields rest path (n + (slots P v (path ++ [key])).length)

end

end

/-! ## Putting them back -/

/-- Exchange one value for another. -/
def exchange (old new v : Value) : Option Value := if v = old then some new else none

theorem exchange_injective (old new : Value) : PartialInjective (exchange old new) := by
  intro v v' w h h'
  rw [exchange] at h h'
  split at h
  · split at h'
    · exact ‹v = old›.trans ‹v' = old›.symm
    · cases h'
  · cases h

section

variable {P : List String → String → Bool} {mark : ℕ → Value}

variable (mark) in
/-- Put strings back in place of their marks, which are numbered on from a number. -/
def fill : ℕ → List Slot → Value → Option Value
  | _, [], v => some v
  | n, e :: es, v => (update (exchange (mark n) (.string e.2)) e.1 v).bind (fill (n + 1) es)

theorem fill_append (n : ℕ) (es es' : List Slot) (v : Value) :
    fill mark n (es ++ es') v = (fill mark n es v).bind (fill mark (n + es.length) es') := by
  induction es generalizing n v with
  | nil => rfl
  | cons e es ih =>
    rw [List.cons_append, fill, fill, Option.bind_assoc, List.length_cons]
    refine Option.bind_congr fun w _ => ?_
    rw [ih, Nat.add_assoc, Nat.add_comm 1]

variable (mark) in
/-- Filling the slots of a place fills what is there. -/
theorem fill_focus {tokens : List String} {C : Value → Value} (hC : Focus tokens C) (n : ℕ) (es : List Slot)
    (w : Value) :
    fill mark n (es.map fun e => (tokens ++ e.1, e.2)) (C w) = (fill mark n es w).map C := by
  induction es generalizing n w with
  | nil => rfl
  | cons e es ih =>
    rw [List.map_cons, fill, fill, hC]
    cases update (exchange (mark n) (.string e.2)) e.1 w with
    | none => rfl
    | some w' => exact ih (n + 1) w'

theorem fill_vacateItems {path : List String} {items : List Value} {n : ℕ} (done : List Value)
    (h : ∀ v ∈ items, ∀ path n, fill mark n (slots P v path) (vacate P mark v path n) = some v) :
    fill mark n (itemSlots P items path done.length)
      (.array (done ++ vacateItems P mark items path done.length n)) = some (.array (done ++ items)) := by
  induction items generalizing done n with
  | nil => rfl
  | cons v rest ih =>
    have hitem := fill_focus mark
      (focus_item done (vacateItems P mark rest path (done.length + 1)
        (n + (slots P v (path ++ [toString done.length])).length)))
      n (slots P v (path ++ [toString done.length])) (vacate P mark v (path ++ [toString done.length]) n)
    rw [h v List.mem_cons_self] at hitem
    have hrest := ih (n := n + (slots P v (path ++ [toString done.length])).length) (done ++ [v])
      fun w hw => h w (List.mem_cons_of_mem _ hw)
    rw [List.length_append, List.length_singleton, List.append_assoc, List.append_assoc, List.singleton_append,
      List.singleton_append] at hrest
    rw [itemSlots, vacateItems, fill_append, List.length_map]
    exact (congrArg (Option.bind · _) hitem).trans hrest

theorem fill_vacateFields {path : List String} {fields : Fields} {n : ℕ} (done : Fields)
    (hkeys : (Assoc.keys (done ++ fields)).Nodup)
    (h : ∀ e ∈ fields, ∀ path n, fill mark n (slots P e.2 path) (vacate P mark e.2 path n) = some e.2) :
    fill mark n (fieldSlots P fields path) (.object (done ++ vacateFields P mark fields path n)) =
      some (.object (done ++ fields)) := by
  induction fields generalizing done n with
  | nil => rfl
  | cons e rest ih =>
    obtain ⟨key, v⟩ := e
    have hkey : key ∉ Assoc.keys done := by
      rw [Assoc.keys, List.map_append, List.map_cons] at hkeys
      intro hmem
      exact List.disjoint_of_nodup_append hkeys hmem List.mem_cons_self
    have hfield := fill_focus mark
      (focus_field hkey (vacateFields P mark rest path (n + (slots P v (path ++ [key])).length)))
      n (slots P v (path ++ [key])) (vacate P mark v (path ++ [key]) n)
    rw [h (key, v) List.mem_cons_self] at hfield
    have hrest := ih (n := n + (slots P v (path ++ [key])).length) (done ++ [(key, v)])
      (by rwa [List.append_assoc]) fun e he => h e (List.mem_cons_of_mem _ he)
    rw [List.append_assoc, List.append_assoc, List.singleton_append, List.singleton_append] at hrest
    rw [fieldSlots, vacateFields, fill_append, List.length_map]
    exact (congrArg (Option.bind · _) hfield).trans hrest

/-- Filling the slots gives the value back. -/
theorem fill_vacate (v : Value) (hv : v.WF) (path : List String) (n : ℕ) :
    fill mark n (slots P v path) (vacate P mark v path n) = some v := by
  induction v using Value.induct generalizing path n with
  | string s =>
    rw [slots, vacate]
    split
    · rw [fill, update, exchange, if_pos rfl]
      rfl
    · rfl
  | array items ih =>
    rw [slots, vacate]
    exact fill_vacateItems [] fun v hmem => ih v hmem (wf_array.mp hv v hmem)
  | object fields ih =>
    rw [slots, vacate]
    have hfields := wf_object.mp hv
    exact fill_vacateFields [] (Assoc.nodup_keys hfields.1) fun e he => ih e he (hfields.2 e he)
  | _ => rw [slots, vacate] <;> first | rfl | simp

/-- Only one value is filled to a given one. -/
theorem fill_injective (n : ℕ) (es : List Slot) : PartialInjective (fill mark n es) := by
  induction es generalizing n with
  | nil =>
    intro v v' w h h'
    exact (Option.some.inj h).trans (Option.some.inj h').symm
  | cons e es ih =>
    intro v v' w h h'
    obtain ⟨u, hu, h⟩ := Option.bind_eq_some_iff.mp h
    obtain ⟨u', hu', h'⟩ := Option.bind_eq_some_iff.mp h'
    obtain rfl := ih (n + 1) h h'
    exact update_injective (exchange_injective _ _) e.1 hu hu'

/-! ## What stays -/

theorem mem_itemSlots {path : List String} {items : List Value} {e : Slot} {i : ℕ}
    (h : e ∈ itemSlots P items path i) :
    ∃ j v, items[j]? = some v ∧ ∃ e' ∈ slots P v (path ++ [toString (i + j)]), e = (toString (i + j) :: e'.1, e'.2) := by
  induction items generalizing i with
  | nil => cases h
  | cons v rest ih =>
    rw [itemSlots, List.mem_append, List.mem_map] at h
    rcases h with ⟨e', he', rfl⟩ | h
    · exact ⟨0, v, rfl, e', he', rfl⟩
    · obtain ⟨j, w, hj, e', he', rfl⟩ := ih h
      rw [Nat.add_assoc, Nat.add_comm 1] at he' ⊢
      exact ⟨j + 1, w, hj, e', he', rfl⟩

theorem mem_fieldSlots {path : List String} {fields : Fields} {e : Slot} (h : e ∈ fieldSlots P fields path) :
    ∃ f ∈ fields, ∃ e' ∈ slots P f.2 (path ++ [f.1]), e = (f.1 :: e'.1, e'.2) := by
  induction fields with
  | nil => cases h
  | cons f rest ih =>
    rw [fieldSlots, List.mem_append, List.mem_map] at h
    rcases h with ⟨e', he', rfl⟩ | h
    · exact ⟨f, List.mem_cons_self, e', he', rfl⟩
    · obtain ⟨f', hf', e', he', rfl⟩ := ih h
      exact ⟨f', List.mem_cons_of_mem _ hf', e', he', rfl⟩

/-- A slot holds its string, which is one to be taken out. -/
theorem at?_slot {v : Value} (hv : v.WF) {path : List String} {e : Slot} (h : e ∈ slots P v path) :
    v.at? e.1 = some (.string e.2) ∧ P (path ++ e.1) e.2 = true := by
  induction v using Value.induct generalizing path e with
  | string s =>
    rw [slots] at h
    split at h
    · obtain rfl := List.mem_singleton.mp h
      exact ⟨rfl, by rwa [List.append_nil]⟩
    · cases h
  | array items ih =>
    rw [slots] at h
    obtain ⟨j, w, hj, e', he', rfl⟩ := mem_itemSlots h
    rw [Nat.zero_add] at he' ⊢
    have hmem := List.mem_of_getElem? hj
    obtain ⟨hat, hP⟩ := ih w hmem (wf_array.mp hv w hmem) he'
    refine ⟨?_, by rwa [List.append_assoc, List.singleton_append] at hP⟩
    rw [at?, parseIndex_toString, Option.bind_some, hj, Option.bind_some, hat]
  | object fields ih =>
    rw [slots] at h
    obtain ⟨f, hf, e', he', rfl⟩ := mem_fieldSlots h
    have hfields := wf_object.mp hv
    obtain ⟨hat, hP⟩ := ih f hf (hfields.2 f hf) he'
    refine ⟨?_, by rwa [List.append_assoc, List.singleton_append] at hP⟩
    rw [at?, hfields.1.mem_iff.mp hf, Option.bind_some, hat]
  | _ => cases h

variable (P mark) in
theorem getElem?_vacateItems (items : List Value) (path : List String) (i n j : ℕ) :
    ∃ n', (vacateItems P mark items path i n)[j]? =
      items[j]?.map fun v => vacate P mark v (path ++ [toString (i + j)]) n' := by
  induction items generalizing i n j with
  | nil => exact ⟨0, rfl⟩
  | cons v rest ih =>
    cases j with
    | zero => exact ⟨n, rfl⟩
    | succ j =>
      obtain ⟨n', hn'⟩ := ih (i + 1) (n + (slots P v (path ++ [toString i])).length) j
      exact ⟨n', by rw [vacateItems, List.getElem?_cons_succ, hn', Nat.add_assoc, Nat.add_comm 1]; rfl⟩

variable (P mark) in
theorem get?_vacateFields (fields : Fields) (path : List String) (n : ℕ) (key : String) :
    ∃ n', Assoc.get? key (vacateFields P mark fields path n) =
      (Assoc.get? key fields).map fun v => vacate P mark v (path ++ [key]) n' := by
  induction fields generalizing n with
  | nil => exact ⟨0, rfl⟩
  | cons f rest ih =>
    obtain ⟨k, v⟩ := f
    obtain ⟨n', hn'⟩ := ih (n + (slots P v (path ++ [k])).length)
    rw [vacateFields]
    by_cases hk : key = k
    · subst hk
      exact ⟨n, by rw [Assoc.get?_cons, Assoc.get?_cons, if_pos rfl, if_pos rfl]; rfl⟩
    · exact ⟨n', by rw [Assoc.get?_cons, Assoc.get?_cons, if_neg hk, if_neg hk, hn']⟩

/-- What is at a path is vacated in its place. -/
theorem at?_vacate {v w : Value} {tokens : List String} (h : v.at? tokens = some w) (path : List String) (n : ℕ) :
    ∃ path' n', (vacate P mark v path n).at? tokens = some (vacate P mark w path' n') := by
  induction tokens generalizing v path n with
  | nil =>
    obtain rfl := Option.some.inj h
    exact ⟨path, n, rfl⟩
  | cons token tokens ih =>
    cases v with
    | object fields =>
      obtain ⟨u, hu, hw⟩ := Option.bind_eq_some_iff.mp h
      obtain ⟨n', hn'⟩ := get?_vacateFields P mark fields path n token
      obtain ⟨path'', n'', heq⟩ := ih hw (path ++ [token]) n'
      exact ⟨path'', n'', by rw [vacate, at?, hn', hu, Option.map_some, Option.bind_some, heq]⟩
    | array items =>
      obtain ⟨i, hi, h⟩ := Option.bind_eq_some_iff.mp h
      obtain ⟨u, hu, hw⟩ := Option.bind_eq_some_iff.mp h
      obtain ⟨n', hn'⟩ := getElem?_vacateItems P mark items path 0 n i
      obtain ⟨path'', n'', heq⟩ := ih hw (path ++ [toString (0 + i)]) n'
      exact ⟨path'', n'', by rw [vacate, at?, hi, Option.bind_some, hn', hu, Option.map_some, Option.bind_some, heq]⟩
    | _ => cases h

variable (P mark) in
theorem keys_vacateFields (fields : Fields) (path : List String) (n : ℕ) :
    Assoc.keys (vacateFields P mark fields path n) = Assoc.keys fields := by
  induction fields generalizing n with
  | nil => rfl
  | cons f rest ih => exact congrArg (f.1 :: ·) (ih _)

theorem mem_vacateItems {items : List Value} {path : List String} {i n : ℕ} {w : Value}
    (h : w ∈ vacateItems P mark items path i n) : ∃ v ∈ items, ∃ path' n', w = vacate P mark v path' n' := by
  obtain ⟨j, hj⟩ := List.mem_iff_getElem?.mp h
  obtain ⟨n', hn'⟩ := getElem?_vacateItems P mark items path i n j
  rw [hj] at hn'
  obtain ⟨v, hv, rfl⟩ := Option.map_eq_some_iff.mp hn'.symm
  exact ⟨v, List.mem_of_getElem? hv, _, n', rfl⟩

theorem mem_vacateFields {fields : Fields} {path : List String} {n : ℕ} {f : String × Value}
    (h : f ∈ vacateFields P mark fields path n) : ∃ e ∈ fields, ∃ path' n', f.2 = vacate P mark e.2 path' n' := by
  induction fields generalizing n with
  | nil => cases h
  | cons e rest ih =>
    rcases List.mem_cons.mp h with rfl | h
    · exact ⟨e, List.mem_cons_self, _, n, rfl⟩
    · obtain ⟨e', he', hf⟩ := ih h
      exact ⟨e', List.mem_cons_of_mem _ he', hf⟩

theorem wf_vacate (hmark : ∀ n, (mark n).WF) {v : Value} (hv : v.WF) (path : List String) (n : ℕ) :
    (vacate P mark v path n).WF := by
  induction v using Value.induct generalizing path n with
  | string s =>
    rw [vacate]
    split
    · exact hmark n
    · exact wf_string s
  | array items ih =>
    rw [vacate, wf_array]
    intro w hw
    obtain ⟨v, hmem, path', n', rfl⟩ := mem_vacateItems hw
    exact ih v hmem (wf_array.mp hv v hmem) path' n'
  | object fields ih =>
    rw [vacate, wf_object]
    have hfields := wf_object.mp hv
    refine ⟨?_, fun f hf => ?_⟩
    · have hkeys : (Assoc.keys fields).Pairwise (· < ·) := List.pairwise_map.mpr hfields.1
      rw [← keys_vacateFields P mark fields path n] at hkeys
      exact List.pairwise_map.mp hkeys
    · obtain ⟨e, he, path', n', heq⟩ := mem_vacateFields hf
      rw [heq]
      exact ih e he (hfields.2 e he) path' n'
  | _ => rw [vacate] <;> first | exact hv | simp

end

end Value

end Innen
