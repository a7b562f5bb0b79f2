import Innen.Json.Text

/-!
# Braces in JSON text

A scan of text that counts the braces open outside of string literals. The text of a value leaves the
count as it was and never falls below it on the way, so a struct cut short leaves a brace open
(`opened_of_cut`).
-/

namespace Innen

/-- Where a scan stands: the braces that are open, and whether it is inside a string literal and behind
a backslash there. -/
structure Braces where
  opened : ℕ
  quoted : Bool
  escaped : Bool
deriving DecidableEq

namespace Braces

/-- Take in one character. -/
def next (b : Braces) (c : Char) : Braces :=
  if b.quoted then
    if b.escaped then { b with escaped := false }
    else if c = '\\' then { b with escaped := true }
    else if c = '"' then { b with quoted := false }
    else b
  else if c = '"' then { b with quoted := true }
  else if c = '\x7b' then { b with opened := b.opened + 1 }
  else if c = '\x7d' then { b with opened := b.opened - 1 }
  else b

/-- Outside of string literals, with `n` braces open. -/
def outside (n : ℕ) : Braces := ⟨n, false, false⟩

/-- Inside a string literal, with `n` braces open. -/
def inside (n : ℕ) : Braces := ⟨n, true, false⟩

/-- The scan of a text. -/
def scan (b : Braces) (cs : List Char) : Braces := cs.foldl next b

@[simp] theorem scan_nil (b : Braces) : b.scan [] = b := rfl

@[simp] theorem scan_cons (b : Braces) (c : Char) (cs : List Char) : b.scan (c :: cs) = (b.next c).scan cs := rfl

theorem scan_append (b : Braces) (cs ds : List Char) : b.scan (cs ++ ds) = (b.scan cs).scan ds :=
  List.foldl_append

/-- At least `n` braces are open all along the text, its two ends included. -/
def Keeps (n : ℕ) (b : Braces) : List Char → Prop
  | [] => n ≤ b.opened
  | c :: cs => n ≤ b.opened ∧ Keeps n (b.next c) cs

theorem Keeps.start {n : ℕ} {b : Braces} {cs : List Char} (h : Keeps n b cs) : n ≤ b.opened := by
  cases cs with
  | nil => exact h
  | cons c cs => exact h.1

theorem Keeps.append {n : ℕ} {b : Braces} {cs ds : List Char} (hcs : Keeps n b cs)
    (hds : Keeps n (b.scan cs) ds) : Keeps n b (cs ++ ds) := by
  induction cs generalizing b with
  | nil => exact hds
  | cons c cs ih => exact ⟨hcs.1, ih hcs.2 hds⟩

/-- What is kept along a text is kept at the end of every part it starts with. -/
theorem Keeps.cut {n : ℕ} {b : Braces} {cs ds : List Char} (h : Keeps n b (cs ++ ds)) :
    n ≤ (b.scan cs).opened := by
  induction cs generalizing b with
  | nil => exact h.start
  | cons c cs ih => exact ih h.2

end Braces

open Braces

/-- A text that can stand anywhere outside of string literals without changing the open braces. -/
def Level (s : String) : Prop :=
  ∀ n, Keeps n (outside n) s.toList ∧ (outside n).scan s.toList = outside n

theorem Level.append {s t : String} (hs : Level s) (ht : Level t) : Level (s ++ t) := by
  intro n
  obtain ⟨hkeep, hscan⟩ := hs n
  obtain ⟨hkeep', hscan'⟩ := ht n
  rw [String.toList_append]
  refine ⟨hkeep.append (hscan.symm ▸ hkeep'), ?_⟩
  rw [scan_append, hscan, hscan']

/-- A character that means nothing to a scan outside of string literals. -/
def isPlain (c : Char) : Bool := c ≠ '"' ∧ c ≠ '\x7b' ∧ c ≠ '\x7d'

/-- A text of such characters. -/
def Plain (s : String) : Prop := ∀ c ∈ s.toList, isPlain c = true

instance (s : String) : Decidable (Plain s) :=
  List.decidableBAll (fun c => isPlain c = true) s.toList

theorem next_outside_of_isPlain {c : Char} (h : isPlain c = true) (n : ℕ) :
    (outside n).next c = outside n := by
  simp only [isPlain, ne_eq, decide_eq_true_eq] at h
  simp [next, outside, h]

theorem Plain.level {s : String} (h : Plain s) : Level s := by
  intro n
  have hall : ∀ cs : List Char, (∀ c ∈ cs, isPlain c = true) →
      Keeps n (outside n) cs ∧ (outside n).scan cs = outside n := by
    intro cs
    induction cs with
    | nil => exact fun _ => ⟨le_refl n, rfl⟩
    | cons c cs ih =>
      intro hcs
      have hc := next_outside_of_isPlain (hcs c List.mem_cons_self) n
      obtain ⟨hkeep, hscan⟩ := ih fun d hd => hcs d (List.mem_cons_of_mem c hd)
      exact ⟨⟨le_refl n, hc.symm ▸ hkeep⟩, by rw [scan_cons, hc, hscan]⟩
  exact hall s.toList h

theorem level_empty : Level "" := Plain.level (by decide)

/-! ## String literals -/

theorem next_inside {c : Char} (hslash : c ≠ '\\') (hquote : c ≠ '"') (n : ℕ) :
    (inside n).next c = inside n := by
  simp [next, inside, hslash, hquote]

theorem hexDigit_ordinary (n : ℕ) : hexDigit n ≠ '\\' ∧ hexDigit n ≠ '"' := by
  by_cases h : n < 16
  · have hall : ∀ m < 16, hexDigit m ≠ '\\' ∧ hexDigit m ≠ '"' := by decide
    exact hall n h
  · have hlen : "0123456789abcdef".toList.length ≤ n := not_lt.mp h
    rw [hexDigit, List.getD_eq_getElem?_getD, List.getElem?_eq_none hlen]
    decide

/-- An escaped character leaves the scan inside the literal. -/
theorem scan_escapeChar (c : Char) (n : ℕ) :
    Keeps n (inside n) (escapeChar c) ∧ (inside n).scan (escapeChar c) = inside n := by
  -- a backslash and one more character
  have hpair : ∀ d, Keeps n (inside n) ['\\', d] ∧ (inside n).scan ['\\', d] = inside n := by
    intro d
    exact ⟨⟨le_refl n, le_refl n, le_refl n⟩, rfl⟩
  unfold escapeChar
  split_ifs with hquote hslash
  · exact hpair _
  · exact hpair _
  · exact hpair _
  · exact hpair _
  · exact hpair _
  · exact hpair _
  · exact hpair _
  · have hhigh := hexDigit_ordinary (c.toNat / 16)
    have hlow := hexDigit_ordinary (c.toNat % 16)
    have hscan : ∀ a b : Char, (a ≠ '\\' ∧ a ≠ '"') → (b ≠ '\\' ∧ b ≠ '"') →
        Keeps n (inside n) ['\\', 'u', '0', '0', a, b] ∧
          (inside n).scan ['\\', 'u', '0', '0', a, b] = inside n := by
      rintro a b ⟨ha, ha'⟩ ⟨hb, hb'⟩
      have hzero := next_inside (c := '0') (by decide) (by decide) n
      have hfirst := next_inside ha ha' n
      have hsecond := next_inside hb hb' n
      have hu : ((inside n).next '\\').next 'u' = inside n := rfl
      simp only [Keeps, scan_cons, scan_nil, hu, hzero, hfirst, hsecond, and_true]
      exact ⟨le_refl n, le_refl n, le_refl n, le_refl n, le_refl n, le_refl n, le_refl n⟩
    exact hscan _ _ hhigh hlow
  · have hone := next_inside hslash hquote n
    exact ⟨⟨le_refl n, hone.symm ▸ le_refl n⟩, hone⟩

theorem level_quote (s : String) : Level (quote s) := by
  intro n
  have hbody : ∀ cs : List Char, Keeps n (inside n) (cs.flatMap escapeChar) ∧
      (inside n).scan (cs.flatMap escapeChar) = inside n := by
    intro cs
    induction cs with
    | nil => exact ⟨le_refl n, rfl⟩
    | cons c cs ih =>
      obtain ⟨hkeep, hscan⟩ := scan_escapeChar c n
      rw [List.flatMap_cons]
      exact ⟨hkeep.append (hscan.symm ▸ ih.1), by rw [scan_append, hscan, ih.2]⟩
  obtain ⟨hkeep, hscan⟩ := hbody s.toList
  have hopen : (outside n).next '"' = inside n := rfl
  have hclose : Keeps n (inside n) ['"'] ∧ (inside n).scan ['"'] = outside n :=
    ⟨⟨le_refl n, le_refl n⟩, rfl⟩
  rw [quote, String.toList_ofList]
  refine ⟨⟨le_refl n, hopen ▸ hkeep.append (hscan.symm ▸ hclose.1)⟩, ?_⟩
  rw [scan_cons, hopen, scan_append, hscan, hclose.2]

/-! ## Values -/

theorem plain_nat (n : ℕ) : Plain (toString n) := by
  intro c hc
  have hdigit : c.isDigit := by
    rw [Nat.toString_eq_ofList_toDigits, String.toList_ofList] at hc
    exact Nat.isDigit_of_mem_toDigits (by decide) (by decide) hc
  unfold isPlain
  rw [decide_eq_true_eq]
  refine ⟨?_, ?_, ?_⟩ <;> rintro rfl <;> exact absurd hdigit (by decide)

/-- A text between braces. -/
theorem Level.braced {s : String} (h : Level s) : Level ("\x7b" ++ s ++ "\x7d") := by
  intro n
  obtain ⟨hkeep, hscan⟩ := h (n + 1)
  have hweak : ∀ (cs : List Char) (b : Braces), Keeps (n + 1) b cs → Keeps n b cs := by
    intro cs
    induction cs with
    | nil => exact fun b hb => Nat.le_of_succ_le hb
    | cons c cs ih => exact fun b hb => ⟨Nat.le_of_succ_le hb.1, ih _ hb.2⟩
  have hopen : (outside n).next '\x7b' = outside (n + 1) := rfl
  have hclose : Keeps n (outside (n + 1)) ['\x7d'] ∧ (outside (n + 1)).scan ['\x7d'] = outside n :=
    ⟨⟨Nat.le_succ n, le_refl n⟩, rfl⟩
  have hchars : ("\x7b" ++ s ++ "\x7d").toList = '\x7b' :: (s.toList ++ ['\x7d']) := by
    rw [String.toList_append, String.toList_append]
    rfl
  rw [hchars]
  refine ⟨⟨le_refl n, hopen ▸ (hweak _ _ hkeep).append (hscan.symm ▸ hclose.1)⟩, ?_⟩
  rw [scan_cons, hopen, scan_append, hscan, hclose.2]

section

variable {floatText : UInt64 → String}

theorem Value.level_itemsText {items : List Value} (h : ∀ v ∈ items, Level (v.toText floatText)) :
    Level (Value.itemsText floatText items) := by
  induction items with
  | nil => exact level_empty
  | cons v rest ih =>
    have hsep : Level (if rest.isEmpty then "" else ",") := by
      split <;> exact Plain.level (by decide)
    exact ((h v List.mem_cons_self).append hsep).append
      (ih fun w hw => h w (List.mem_cons_of_mem v hw))

theorem Value.level_fieldsText {fields : Fields} (h : ∀ e ∈ fields, Level (e.2.toText floatText)) :
    Level (Value.fieldsText floatText fields) := by
  induction fields with
  | nil => exact level_empty
  | cons e rest ih =>
    obtain ⟨k, v⟩ := e
    have hsep : Level (if rest.isEmpty then "" else ",") := by
      split <;> exact Plain.level (by decide)
    have hcolon : Level ":" := Plain.level (by decide)
    exact ((((level_quote k).append hcolon).append (h (k, v) List.mem_cons_self)).append hsep).append
      (ih fun w hw => h w (List.mem_cons_of_mem _ hw))

/-- The text of a value closes the braces it opens. -/
theorem Value.level_toText (hfloat : ∀ bits, Plain (floatText bits)) (v : Value) :
    Level (v.toText floatText) := by
  induction v using Value.induct with
  | null =>
    rw [Value.toText]
    exact Plain.level (by decide)
  | bool b =>
    rw [Value.toText]
    cases b <;> exact Plain.level (by decide)
  | number n =>
    cases n with
    | posInt n => exact (plain_nat n).level
    | negInt n =>
      have hminus : Level "-" := Plain.level (by decide)
      exact hminus.append (plain_nat (n + 1)).level
    | float bits => exact (hfloat bits).level
  | string s => exact level_quote s
  | array items ih =>
    have hopen : Level "[" := Plain.level (by decide)
    have hclose : Level "]" := Plain.level (by decide)
    exact (hopen.append (Value.level_itemsText ih)).append hclose
  | object fields ih => exact (Value.level_fieldsText ih).braced

/-- The text of a struct that is cut short has an open brace, unless nothing is left of it. -/
theorem opened_of_cut (hfloat : ∀ bits, Plain (floatText bits)) {fields : Fields} {cs ds : List Char}
    (h : (structText floatText fields).toList = cs ++ ds) (hcs : cs ≠ []) (hds : ds ≠ []) :
    0 < ((outside 0).scan cs).opened := by
  have hlevel : Level (Value.fieldsText floatText fields) :=
    Value.level_fieldsText fun e _ => e.2.level_toText hfloat
  have hchars : (structText floatText fields).toList =
      '\x7b' :: ((Value.fieldsText floatText fields).toList ++ ['\x7d']) := by
    rw [structText, String.toList_append, String.toList_append]
    rfl
  obtain ⟨c, cs, rfl⟩ := List.exists_cons_of_ne_nil hcs
  obtain ⟨ds, d, rfl⟩ := (List.eq_nil_or_concat ds).resolve_left hds
  rw [hchars, List.cons_append, List.cons.injEq, List.concat_eq_append, ← List.append_assoc] at h
  obtain ⟨rfl, h⟩ := h
  have hbody : (Value.fieldsText floatText fields).toList = cs ++ ds := List.append_inj_left' h rfl
  -- the first brace is open, and what is left of the fields never falls below it
  have hkeep := (hlevel 1).1
  rw [hbody] at hkeep
  exact hkeep.cut

end

end Innen
