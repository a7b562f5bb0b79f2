import Innen.Json.Value
import Mathlib.Tactic.IntervalCases

/-!
# JSON pointers

A pointer names a place in a value by the tokens on the way to it. `Value::pointer` reads the value there and
`pointer_mut` changes it. Keys are escaped in the text of a pointer, and its tokens can be read back
(`pointerTokens_pointerText`).
-/

namespace Innen

open Common

/-! ## The text of a pointer -/

/-- A key as a token. -/
def escapeToken (key : String) : String := replaceText (replaceText key "~" "~0") "/" "~1"

/-- The key of a token. -/
def unescapeToken (token : String) : String := replaceText (replaceText token "~1" "/") "~0" "~"

/-- The pointer of a path. -/
def pointerText (path : List String) : String := String.join (path.map fun key => "/" ++ escapeToken key)

/-- The path of a pointer. -/
def pointerTokens (pointer : String) : Option (List String) :=
  match pointer.toList with
  | [] => some []
  | '/' :: cs => some ((cs.splitOn '/').map fun token => unescapeToken (String.ofList token))
  | _ => none

/-- A character of a key in a token. -/
def escapeKeyChar (c : Char) : List Char := if c = '~' then ['~', '0'] else if c = '/' then ['~', '1'] else [c]

/-- A character of a key in a token of which the slashes are back. -/
def escapeTilde (c : Char) : List Char := if c = '~' then ['~', '0'] else [c]

/-- Replacing one character works character by character. -/
theorem replaceChars_singleton (a : Char) (new cs : List Char) :
    replaceChars [a] new 0 cs = cs.flatMap fun c => if c = a then new else [c] := by
  induction cs with
  | nil => rfl
  | cons c cs ih =>
    rw [replaceChars, List.flatMap_cons]
    by_cases hc : c = a
    · rw [if_pos (by simp [hc]), if_pos hc, List.length_singleton, ih]
    · rw [if_neg (by simp [Ne.symm hc]), if_neg hc, ih]
      rfl

theorem toList_escapeToken (key : String) : (escapeToken key).toList = key.toList.flatMap escapeKeyChar := by
  have h0 : "~0".toList = ['~', '0'] := rfl
  have h1 : "~1".toList = ['~', '1'] := rfl
  have ht : "~".toList = ['~'] := rfl
  have hs : "/".toList = ['/'] := rfl
  simp only [escapeToken, replaceText, String.toList_ofList, h0, h1, ht, hs, replaceChars_singleton,
    List.flatMap_assoc]
  refine List.flatMap_congr fun c _ => ?_
  rw [escapeKeyChar]
  by_cases hc : c = '~'
  · rw [if_pos hc, if_pos hc]
    rfl
  · rw [if_neg hc, if_neg hc]
    simp

theorem replaceChars_slash (cs : List Char) :
    replaceChars ['~', '1'] ['/'] 0 (cs.flatMap escapeKeyChar) = cs.flatMap escapeTilde := by
  induction cs with
  | nil => rfl
  | cons c cs ih =>
    rw [List.flatMap_cons, List.flatMap_cons, ← ih, escapeKeyChar, escapeTilde]
    by_cases ht : c = '~'
    · rw [if_pos ht, if_pos ht]
      rfl
    · rw [if_neg ht, if_neg ht]
      by_cases hs : c = '/'
      · rw [if_pos hs, hs]
        rfl
      · rw [if_neg hs, List.singleton_append, replaceChars, if_neg (by simp [Ne.symm ht]), List.singleton_append]

theorem replaceChars_tilde (cs : List Char) : replaceChars ['~', '0'] ['~'] 0 (cs.flatMap escapeTilde) = cs := by
  induction cs with
  | nil => rfl
  | cons c cs ih =>
    rw [List.flatMap_cons, escapeTilde]
    by_cases ht : c = '~'
    · rw [if_pos ht, ht]
      exact congrArg ('~' :: ·) ih
    · rw [if_neg ht, List.singleton_append, replaceChars, if_neg (by simp [Ne.symm ht]), ih]

/-- A key is read back from its token. -/
theorem unescapeToken_escapeToken (key : String) : unescapeToken (escapeToken key) = key := by
  have h0 : "~0".toList = ['~', '0'] := rfl
  have h1 : "~1".toList = ['~', '1'] := rfl
  have ht : "~".toList = ['~'] := rfl
  have hs : "/".toList = ['/'] := rfl
  simp only [unescapeToken, replaceText, String.toList_ofList, h0, h1, ht, hs, toList_escapeToken,
    replaceChars_slash, replaceChars_tilde, String.ofList_toList]

theorem slash_not_mem_escapeToken (key : String) : '/' ∉ (escapeToken key).toList := by
  rw [toList_escapeToken, List.mem_flatMap]
  rintro ⟨c, -, hc⟩
  rw [escapeKeyChar] at hc
  split at hc
  · simp at hc
  · split at hc
    · simp at hc
    · rename_i hs
      rw [List.mem_singleton] at hc
      exact hs hc.symm

@[simp] theorem pointerText_nil : pointerText [] = "" := rfl

theorem pointerText_append (path path' : List String) :
    pointerText (path ++ path') = pointerText path ++ pointerText path' := by
  rw [pointerText, List.map_append, String.join_append]
  rfl

theorem pointerText_concat (path : List String) (key : String) :
    pointerText (path ++ [key]) = pointerText path ++ "/" ++ escapeToken key := by
  rw [pointerText_append, pointerText, pointerText, String.append_assoc]
  rw [List.map_singleton, String.join_cons, String.join_nil, String.append_empty]

theorem toList_pointerText_cons (key : String) (path : List String) :
    (pointerText (key :: path)).toList = '/' :: ((escapeToken key).toList ++ (pointerText path).toList) := by
  have hs : "/".toList = ['/'] := rfl
  rw [pointerText, List.map_cons, String.join_cons, String.toList_append, String.toList_append, hs,
    List.append_assoc, List.singleton_append, pointerText]

/-- The pieces of a pointer are its tokens. -/
theorem splitOn_pointerText (key : String) (path : List String) :
    ((escapeToken key).toList ++ (pointerText path).toList).splitOn '/' =
      (key :: path).map fun key => (escapeToken key).toList := by
  induction path generalizing key with
  | nil =>
    rw [pointerText_nil, String.toList_empty, List.append_nil]
    exact List.splitOn_eq_singleton (slash_not_mem_escapeToken key)
  | cons next path ih =>
    rw [toList_pointerText_cons, List.splitOn_append_cons_self_of_not_mem (slash_not_mem_escapeToken key), ih]
    rfl

/-- A path is read back from its pointer. -/
theorem pointerTokens_pointerText (path : List String) : pointerTokens (pointerText path) = some path := by
  cases path with
  | nil => rfl
  | cons key path =>
    rw [pointerTokens, toList_pointerText_cons]
    simp only [splitOn_pointerText, List.map_map, Option.some.injEq]
    refine (List.map_congr_left fun key _ => ?_).trans (List.map_id _)
    rw [Function.comp_apply, String.ofList_toList, unescapeToken_escapeToken]
    rfl

/-- Pointers of different paths are different. -/
theorem pointerText_injective : Function.Injective pointerText := fun path path' h =>
  Option.some.inj ((pointerTokens_pointerText path).symm.trans (h ▸ pointerTokens_pointerText path'))

/-! ## Indices -/

/-- `parse_index`: a decimal number without a sign and without leading zeros. -/
def parseIndex (token : String) : Option ℕ :=
  if startsWith token "+" ∨ (startsWith token "0" ∧ token.utf8ByteSize ≠ 1) then none
  else if token.toList ≠ [] ∧ token.toList.all Char.isDigit then some (Nat.ofDigitChars 10 token.toList 0) else none

theorem toList_toString (n : ℕ) : (toString n).toList = Nat.toDigits 10 n := by
  rw [Nat.toString_eq_ofList_toDigits, String.toList_ofList]

/-- A number starts with a digit other than zero, unless it is zero. -/
theorem head?_toDigits (n : ℕ) : (Nat.toDigits 10 n).head? = some '0' → n = 0 := by
  induction n using Nat.strongRecOn with
  | ind n ih =>
    intro h
    by_cases hn : n < 10
    · rw [Nat.toDigits_of_lt_base hn, List.head?_cons, Option.some.injEq] at h
      interval_cases n <;> first | rfl | exact absurd h (by decide)
    · have hlast := Nat.toDigits_of_base_le (b := 10) (by decide) (Nat.le_of_not_lt hn)
      rw [hlast, List.head?_append_of_ne_nil _ Nat.toDigits_ne_nil] at h
      have hdiv := ih (n / 10) (by omega) h
      omega

/-- An index is read back from its token. -/
@[simp] theorem parseIndex_toString (n : ℕ) : parseIndex (toString n) = some n := by
  have hdigit : ∀ c ∈ Nat.toDigits 10 n, c.isDigit := fun c hc =>
    Nat.isDigit_of_mem_toDigits (by decide) (by decide) hc
  obtain ⟨c, cs, hcs⟩ := List.exists_cons_of_ne_nil (Nat.toDigits_ne_nil (n := n) (b := 10))
  have hplus : startsWith (toString n) "+" = false := by
    have hp : "+".toList = ['+'] := rfl
    rw [startsWith, toList_toString, hp, hcs]
    have hc := hdigit c (hcs ▸ List.mem_cons_self)
    have hne : '+' ≠ c := by
      rintro rfl
      exact absurd hc (by decide)
    simp [List.isPrefixOf, hne]
  have hzero : ¬(startsWith (toString n) "0" = true ∧ (toString n).utf8ByteSize ≠ 1) := by
    rintro ⟨hstart, hlen⟩
    have hz : "0".toList = ['0'] := rfl
    rw [startsWith, toList_toString, hz, hcs] at hstart
    have hc : '0' = c := by simpa using hstart
    have hn : n = 0 := head?_toDigits n (by rw [hcs, ← hc]; rfl)
    subst hn
    exact hlen (by decide)
  rw [parseIndex, if_neg (by rw [hplus]; simpa using hzero), toList_toString, if_pos, Nat.ofDigitChars_ten_toDigits]
  exact ⟨Nat.toDigits_ne_nil, List.all_eq_true.mpr hdigit⟩

/-- The token of an index needs no escape. -/
@[simp] theorem escapeToken_toString (n : ℕ) : escapeToken (toString n) = toString n := by
  have hplain : ∀ c ∈ (toString n).toList, escapeKeyChar c = [c] := by
    intro c hc
    rw [toList_toString] at hc
    have hdigit := Nat.isDigit_of_mem_toDigits (by decide) (by decide) hc
    rw [escapeKeyChar, if_neg, if_neg]
    · rintro rfl
      exact absurd hdigit (by decide)
    · rintro rfl
      exact absurd hdigit (by decide)
  rw [← String.toList_inj, toList_escapeToken, List.flatMap_congr hplain, List.flatMap_singleton']

namespace Value

/-! ## Reading and changing at a path -/

/-- The value at a path. -/
def at? : List String → Value → Option Value
  | [], v => some v
  | token :: path, .object fields => (Assoc.get? token fields).bind (at? path)
  | token :: path, .array items => (parseIndex token).bind fun i => items[i]?.bind (at? path)
  | _ :: _, _ => none

/-- Change the first field of a key. -/
def updateField (key : String) (f : Value → Option Value) : Fields → Option Fields
  | [] => none
  | (k, v) :: rest =>
    if k = key then (f v).map fun w => (k, w) :: rest else (updateField key f rest).map fun rest => (k, v) :: rest

/-- Change the item at an index. -/
def updateItem (f : Value → Option Value) : ℕ → List Value → Option (List Value)
  | _, [] => none
  | 0, v :: rest => (f v).map fun w => w :: rest
  | i + 1, v :: rest => (updateItem f i rest).map fun rest => v :: rest

/-- Change the value at a path. -/
def update (f : Value → Option Value) : List String → Value → Option Value
  | [], v => f v
  | token :: path, .object fields => (updateField token (update f path) fields).map .object
  | token :: path, .array items => (parseIndex token).bind fun i => (updateItem (update f path) i items).map .array
  | _ :: _, _ => none

/-- `Value::pointer`. -/
def pointer (v : Value) (p : String) : Option Value := (pointerTokens p).bind fun path => v.at? path

theorem pointer_pointerText (v : Value) (path : List String) : v.pointer (pointerText path) = v.at? path := by
  rw [pointer, pointerTokens_pointerText, Option.bind_some]

/-! ## Changes that can be undone -/

/-- A partial function that never maps two values to the same one. -/
def PartialInjective (f : Value → Option Value) : Prop := ∀ ⦃v v' w⦄, f v = some w → f v' = some w → v = v'

theorem updateField_injective {f : Value → Option Value} (hf : PartialInjective f) {key : String}
    {fields fields' out : Fields} (h : updateField key f fields = some out)
    (h' : updateField key f fields' = some out) : fields = fields' := by
  induction fields generalizing fields' out with
  | nil => cases h
  | cons e rest ih =>
    obtain ⟨k, v⟩ := e
    cases fields' with
    | nil => cases h'
    | cons e' rest' =>
      obtain ⟨k', v'⟩ := e'
      rw [updateField] at h h'
      by_cases hk : k = key
      · rw [if_pos hk] at h
        obtain ⟨w, hw, rfl⟩ := Option.map_eq_some_iff.mp h
        by_cases hk' : k' = key
        · rw [if_pos hk'] at h'
          obtain ⟨w', hw', heq⟩ := Option.map_eq_some_iff.mp h'
          simp only [List.cons.injEq, Prod.mk.injEq] at heq
          obtain ⟨⟨rfl, rfl⟩, rfl⟩ := heq
          rw [hf hw hw']
        · rw [if_neg hk'] at h'
          obtain ⟨out', -, heq⟩ := Option.map_eq_some_iff.mp h'
          simp only [List.cons.injEq, Prod.mk.injEq] at heq
          exact absurd (heq.1.1.trans hk) hk'
      · rw [if_neg hk] at h
        obtain ⟨out', hout, rfl⟩ := Option.map_eq_some_iff.mp h
        by_cases hk' : k' = key
        · rw [if_pos hk'] at h'
          obtain ⟨w', -, heq⟩ := Option.map_eq_some_iff.mp h'
          simp only [List.cons.injEq, Prod.mk.injEq] at heq
          exact absurd (heq.1.1.symm.trans hk') hk
        · rw [if_neg hk'] at h'
          obtain ⟨out'', hout', heq⟩ := Option.map_eq_some_iff.mp h'
          simp only [List.cons.injEq, Prod.mk.injEq] at heq
          obtain ⟨⟨rfl, rfl⟩, rfl⟩ := heq
          rw [ih hout hout']

theorem updateItem_injective {f : Value → Option Value} (hf : PartialInjective f) {i : ℕ}
    {items items' out : List Value} (h : updateItem f i items = some out)
    (h' : updateItem f i items' = some out) : items = items' := by
  induction items generalizing i items' out with
  | nil => cases i <;> cases h
  | cons v rest ih =>
    cases items' with
    | nil => cases i <;> cases h'
    | cons v' rest' =>
      cases i with
      | zero =>
        obtain ⟨w, hw, rfl⟩ := Option.map_eq_some_iff.mp h
        obtain ⟨w', hw', heq⟩ := Option.map_eq_some_iff.mp h'
        simp only [List.cons.injEq] at heq
        obtain ⟨rfl, rfl⟩ := heq
        rw [hf hw hw']
      | succ i =>
        obtain ⟨out', hout, rfl⟩ := Option.map_eq_some_iff.mp h
        obtain ⟨out'', hout', heq⟩ := Option.map_eq_some_iff.mp h'
        simp only [List.cons.injEq] at heq
        obtain ⟨rfl, rfl⟩ := heq
        rw [ih hout hout']

/-- A change at a path can be undone if the change itself can. -/
theorem update_injective {f : Value → Option Value} (hf : PartialInjective f) (path : List String) :
    PartialInjective (update f path) := by
  induction path with
  | nil => exact hf
  | cons token path ih =>
    intro v v' w h h'
    cases v with
    | object fields =>
      obtain ⟨out, hout, rfl⟩ := Option.map_eq_some_iff.mp h
      cases v' with
      | object fields' =>
        obtain ⟨out', hout', heq⟩ := Option.map_eq_some_iff.mp h'
        obtain rfl := Value.object.inj heq
        rw [updateField_injective ih hout hout']
      | array items' =>
        obtain ⟨i, -, h'⟩ := Option.bind_eq_some_iff.mp h'
        obtain ⟨out', -, heq⟩ := Option.map_eq_some_iff.mp h'
        cases heq
      | _ => cases h'
    | array items =>
      obtain ⟨i, hi, h⟩ := Option.bind_eq_some_iff.mp h
      obtain ⟨out, hout, rfl⟩ := Option.map_eq_some_iff.mp h
      cases v' with
      | object fields' =>
        obtain ⟨out', -, heq⟩ := Option.map_eq_some_iff.mp h'
        cases heq
      | array items' =>
        obtain ⟨i', hi', h'⟩ := Option.bind_eq_some_iff.mp h'
        obtain rfl := Option.some.inj (hi.symm.trans hi')
        obtain ⟨out', hout', heq⟩ := Option.map_eq_some_iff.mp h'
        obtain rfl := Value.array.inj heq
        rw [updateItem_injective ih hout hout']
      | _ => cases h'
    | _ => cases h

end Value

end Innen
