import Innen.Json.Text

/-!
# Text determines the value

Behind the text of a value comes a comma, a closing bracket or nothing. So two texts of values that start alike are
texts of the same value (`Value.Printed.told`), and the text of a struct determines its fields
(`structText_append_inj`). The text of a number with a decimal point is a parameter: either the values have none, or the
printer of numbers is injective and prints them as numbers (`NumberPrinter`).
-/

namespace Innen

open Common

namespace Value

/-! ## Values without decimal points -/

mutual

/-- No number in the value is a `f64`. -/
def Floatless : Value → Prop
  | .number (.float _) => False
  | .array items => FloatlessItems items
  | .object fields => FloatlessFields fields
  | _ => True

/-- `Floatless` on items. -/
def FloatlessItems : List Value → Prop
  | [] => True
  | v :: rest => v.Floatless ∧ FloatlessItems rest

/-- `Floatless` on fields. -/
def FloatlessFields : Fields → Prop
  | [] => True
  | (_, v) :: rest => v.Floatless ∧ FloatlessFields rest

end

theorem floatlessItems_iff {items : List Value} : FloatlessItems items ↔ ∀ v ∈ items, v.Floatless := by
  induction items with
  | nil => simp [FloatlessItems]
  | cons v rest ih => rw [FloatlessItems, ih, List.forall_mem_cons]

theorem floatlessFields_iff {fields : Fields} : FloatlessFields fields ↔ ∀ e ∈ fields, e.2.Floatless := by
  induction fields with
  | nil => simp [FloatlessFields]
  | cons e rest ih => rw [FloatlessFields, ih, List.forall_mem_cons]

/-! ## First characters -/

/-- What the first character of a text tells about the value. -/
inductive Shape where
  | null | true | false | number | quote | bracket | brace
deriving DecidableEq

/-- The shape that starts with a character. -/
def Shape.of (c : Char) : Option Shape :=
  if c = 'n' then some .null else if c = 't' then some .true else if c = 'f' then some .false
  else if c = '"' then some .quote else if c = '[' then some .bracket else if c = '\x7b' then some .brace
  else if c.isDigit ∨ c = '-' then some .number else none

/-- The shape of a value. -/
def shape : Value → Shape
  | .null => .null
  | .bool b => if b then .true else .false
  | .number _ => .number
  | .string _ => .quote
  | .array _ => .bracket
  | .object _ => .brace

/-- A character that texts of numbers are made of. -/
def isNumeric (c : Char) : Bool := c.isDigit || c = '-' || c = '+' || c = '.' || c = 'e' || c = 'E'

/-- What may stand behind a value: the end, a comma or a closing bracket. -/
def Ends (cs : List Char) : Prop := ∀ c ∈ cs.head?, c = ',' ∨ c = ']' ∨ c = '\x7d'

theorem Ends.not_numeric {cs : List Char} (h : Ends cs) : ∀ c ∈ cs.head?, isNumeric c = false := by
  intro c hc
  rcases h c hc with rfl | rfl | rfl <;> decide

theorem shape_of_digit {c : Char} (h : c.isDigit = true) : Shape.of c = some .number := by
  have hne : ∀ d : Char, d.isDigit = false → c ≠ d := fun d hd heq => by rw [heq, hd] at h; cases h
  simp only [Shape.of, hne 'n' (by decide), hne 't' (by decide), hne 'f' (by decide), hne '"' (by decide),
    hne '[' (by decide), hne '\x7b' (by decide), if_false, h, true_or, if_true]

/-- A set of values, closed under parts, whose numbers are printed readably: in characters of numbers only, and
different numbers differently. -/
structure Printed (floatText : UInt64 → String) (good : Value → Prop) : Prop where
  items : ∀ {items}, good (.array items) → ∀ v ∈ items, good v
  fields : ∀ {fields}, good (.object fields) → ∀ e ∈ fields, good e.2
  starts : ∀ {n}, good (.number n) →
    ∃ c cs, (n.toText floatText).toList = c :: cs ∧ Shape.of c = some .number
  numeric : ∀ {n}, good (.number n) → ∀ c ∈ (n.toText floatText).toList, isNumeric c = true
  inj : ∀ {n m}, good (.number n) → good (.number m) → n.toText floatText = m.toText floatText → n = m

section

variable {floatText : UInt64 → String} {good : Value → Prop}

/-- A text starts with the shape of its value. -/
theorem Printed.exists_shape (hP : Printed floatText good) {v : Value} (hv : good v) :
    ∃ c cs, (v.toText floatText).toList = c :: cs ∧ Shape.of c = some v.shape := by
  cases v with
  | null =>
    rw [toText]
    exact ⟨'n', ['u', 'l', 'l'], rfl, rfl⟩
  | bool b =>
    rw [toText]
    cases b with
    | true => exact ⟨'t', ['r', 'u', 'e'], rfl, rfl⟩
    | false => exact ⟨'f', ['a', 'l', 's', 'e'], rfl, rfl⟩
  | string s =>
    rw [toText, quote, String.toList_ofList]
    exact ⟨'"', _, rfl, rfl⟩
  | array items =>
    refine ⟨'[', (itemsText floatText items).toList ++ [']'], ?_, rfl⟩
    rw [toText, String.toList_append, String.toList_append, List.append_assoc]
    rfl
  | object fields =>
    refine ⟨'\x7b', (fieldsText floatText fields).toList ++ ['\x7d'], ?_, rfl⟩
    rw [toText, String.toList_append, String.toList_append, List.append_assoc]
    rfl
  | number n => exact hP.starts hv

/-- Texts that start alike are texts of values of one shape. -/
theorem Printed.shape_eq (hP : Printed floatText good) {v w : Value} (hv : good v) (hw : good w) {x y : List Char}
    (h : (v.toText floatText).toList ++ x = (w.toText floatText).toList ++ y) : v.shape = w.shape := by
  obtain ⟨c, cs, hcs, hc⟩ := hP.exists_shape hv
  obtain ⟨d, ds, hds, hd⟩ := hP.exists_shape hw
  rw [hcs, hds, List.cons_append, List.cons_append, List.cons.injEq] at h
  rw [h.1, hd] at hc
  exact (Option.some.inj hc).symm

/-! ## Numbers -/

/-- Words in some letters that no such letter follows are the same when they start alike. -/
theorem append_inj_of_forall {p : Char → Bool} {a b x y : List Char} (ha : ∀ c ∈ a, p c = true)
    (hb : ∀ c ∈ b, p c = true) (hx : ∀ c ∈ x.head?, p c = false) (hy : ∀ c ∈ y.head?, p c = false)
    (h : a ++ x = b ++ y) : a = b ∧ x = y := by
  have hspan : ∀ l z : List Char, (∀ c ∈ l, p c = true) → (∀ c ∈ z.head?, p c = false) → (l ++ z).takeWhile p = l := by
    intro l z hl hz
    have hnone : z.takeWhile p = [] := by
      cases z with
      | nil => rfl
      | cons c z => exact List.takeWhile_cons_of_neg (by simp [hz c rfl])
    rw [List.takeWhile_append_of_pos hl, hnone, List.append_nil]
  obtain rfl : a = b := by rw [← hspan a x ha hx, h, hspan b y hb hy]
  exact ⟨rfl, List.append_cancel_left h⟩

theorem toList_toString_nat (n : ℕ) : (toString n).toList = Nat.toDigits 10 n := by
  rw [Nat.toString_eq_ofList_toDigits, String.toList_ofList]

theorem isDigit_of_mem_toString {n : ℕ} {c : Char} (hc : c ∈ (toString n).toList) : c.isDigit = true := by
  rw [toList_toString_nat] at hc
  exact Nat.isDigit_of_mem_toDigits (by decide) (by decide) hc

/-- Different numbers have different numerals. -/
theorem toString_nat_inj {n m : ℕ} (h : toString n = toString m) : n = m := by
  have hdigits : Nat.toDigits 10 n = Nat.toDigits 10 m := by
    rw [← toList_toString_nat, h, toList_toString_nat]
  rw [← Nat.ofDigitChars_ten_toDigits (n := n), hdigits, Nat.ofDigitChars_ten_toDigits]

/-- Numbers that nothing numeric follows are the same when their texts start alike. -/
theorem Printed.number_append_inj (hP : Printed floatText good) {n m : Number} (hn : good (.number n))
    (hm : good (.number m)) {x y : List Char} (hx : Ends x) (hy : Ends y)
    (h : (n.toText floatText).toList ++ x = (m.toText floatText).toList ++ y) : n = m ∧ x = y := by
  obtain ⟨htext, hxy⟩ := append_inj_of_forall (hP.numeric hn) (hP.numeric hm) hx.not_numeric hy.not_numeric h
  exact ⟨hP.inj hn hm (String.toList_inj.mp htext), hxy⟩

/-! ## All values -/

/-- A value that is told from every other good one by a text that starts with it. -/
def Told (floatText : UInt64 → String) (good : Value → Prop) (v : Value) : Prop :=
  ∀ (w : Value) (x y : List Char), good w → Ends x → Ends y →
    (v.toText floatText).toList ++ x = (w.toText floatText).toList ++ y → v = w ∧ x = y

theorem ends_cons {c : Char} {cs : List Char} (h : c = ',' ∨ c = ']' ∨ c = '\x7d') : Ends (c :: cs) := by
  intro d hd
  obtain rfl := Option.some.inj hd
  exact h

theorem toList_itemsText_cons (v : Value) (rest : List Value) :
    (itemsText floatText (v :: rest)).toList =
      (v.toText floatText).toList ++ if rest = [] then [] else ',' :: (itemsText floatText rest).toList := by
  rw [itemsText, String.toList_append, String.toList_append]
  cases rest with
  | nil => simp [itemsText]
  | cons w rest => simp

theorem toList_fieldsText_cons (k : String) (v : Value) (rest : Fields) :
    (fieldsText floatText ((k, v) :: rest)).toList = (quote k).toList ++ ':' :: ((v.toText floatText).toList ++
      if rest = [] then [] else ',' :: (fieldsText floatText rest).toList) := by
  rw [fieldsText, String.toList_append, String.toList_append, String.toList_append, String.toList_append]
  cases rest with
  | nil => simp [fieldsText]
  | cons e rest => simp

/-- The text of a value does not start with a bracket that closes. -/
theorem Printed.toText_ne_close (hP : Printed floatText good) {v : Value} (hv : good v) {c : Char}
    (hc : Shape.of c = none) (x y : List Char) : (v.toText floatText).toList ++ x ≠ c :: y := by
  obtain ⟨d, ds, hds, hd⟩ := hP.exists_shape hv
  rw [hds, List.cons_append]
  rintro heq
  rw [(List.cons.inj heq).1, hc] at hd
  cases hd

/-- What follows an item or a field: nothing more, or a comma and the rest. -/
theorem rest_cases {α : Type*} {as bs : List α} {cs ds x y : List Char} {c : Char} (hc : c ≠ ',')
    (h : (if as = [] then [] else ',' :: cs) ++ c :: x = (if bs = [] then [] else ',' :: ds) ++ c :: y) :
    (as = [] ∧ bs = [] ∧ x = y) ∨ cs ++ c :: x = ds ++ c :: y := by
  by_cases has : as = [] <;> by_cases hbs : bs = []
  · rw [if_pos has, if_pos hbs] at h
    exact .inl ⟨has, hbs, List.tail_eq_of_cons_eq h⟩
  · rw [if_pos has, if_neg hbs] at h
    exact absurd (List.cons.inj h).1 hc
  · rw [if_neg has, if_pos hbs] at h
    exact absurd (List.cons.inj h).1.symm hc
  · rw [if_neg has, if_neg hbs] at h
    exact .inr (List.tail_eq_of_cons_eq h)

theorem ends_rest {α : Type*} (as : List α) (cs : List Char) {c : Char} (hc : c = ']' ∨ c = '\x7d') (x : List Char) :
    Ends ((if as = [] then [] else ',' :: cs) ++ c :: x) := by
  split_ifs
  · exact ends_cons (.inr hc)
  · exact ends_cons (.inl rfl)

/-- Items up to the closing bracket. -/
theorem Printed.itemsText_inj (hP : Printed floatText good) {vs ws : List Value}
    (hvs : ∀ v ∈ vs, v.Told floatText good) (hgood : ∀ v ∈ vs, good v) (hws : ∀ w ∈ ws, good w) {x y : List Char}
    (h : (itemsText floatText vs).toList ++ ']' :: x = (itemsText floatText ws).toList ++ ']' :: y) :
    vs = ws ∧ x = y := by
  induction vs generalizing ws with
  | nil =>
    cases ws with
    | nil => exact ⟨rfl, List.tail_eq_of_cons_eq (List.append_cancel_left h)⟩
    | cons w ws =>
      rw [itemsText, toList_itemsText_cons, List.append_assoc] at h
      exact absurd h.symm (hP.toText_ne_close (hws w List.mem_cons_self) rfl _ _)
  | cons v vs ih =>
    cases ws with
    | nil =>
      rw [itemsText, toList_itemsText_cons, List.append_assoc] at h
      exact absurd h (hP.toText_ne_close (hgood v List.mem_cons_self) rfl _ _)
    | cons w ws =>
      rw [toList_itemsText_cons, toList_itemsText_cons, List.append_assoc, List.append_assoc] at h
      obtain ⟨rfl, hrest⟩ := hvs v List.mem_cons_self w _ _ (hws w List.mem_cons_self)
        (ends_rest vs _ (.inl rfl) x) (ends_rest ws _ (.inl rfl) y) h
      rcases rest_cases (c := ']') (by decide) hrest with ⟨rfl, rfl, rfl⟩ | hrest
      · exact ⟨rfl, rfl⟩
      · obtain ⟨rfl, rfl⟩ := ih (fun u hu => hvs u (List.mem_cons_of_mem v hu))
          (fun u hu => hgood u (List.mem_cons_of_mem v hu)) (fun u hu => hws u (List.mem_cons_of_mem _ hu)) hrest
        exact ⟨rfl, rfl⟩

/-- Fields up to the closing brace. -/
theorem fieldsText_inj {es fs : Fields} (hes : ∀ e ∈ es, e.2.Told floatText good) (hfs : ∀ f ∈ fs, good f.2)
    {x y : List Char}
    (h : (fieldsText floatText es).toList ++ '\x7d' :: x = (fieldsText floatText fs).toList ++ '\x7d' :: y) :
    es = fs ∧ x = y := by
  have hclose : ∀ (k : String) (u z : List Char), (quote k).toList ++ u ≠ '\x7d' :: z := by
    intro k u z heq
    rw [quote, String.toList_ofList, List.cons_append] at heq
    exact absurd (List.cons.inj heq).1 (by decide)
  induction es generalizing fs with
  | nil =>
    cases fs with
    | nil => exact ⟨rfl, List.tail_eq_of_cons_eq (List.append_cancel_left h)⟩
    | cons f fs =>
      rw [fieldsText, toList_fieldsText_cons, List.append_assoc] at h
      exact absurd h.symm (hclose _ _ _)
  | cons e es ih =>
    cases fs with
    | nil =>
      rw [fieldsText, toList_fieldsText_cons, List.append_assoc] at h
      exact absurd h (hclose _ _ _)
    | cons f fs =>
      obtain ⟨k, v⟩ := e
      obtain ⟨l, w⟩ := f
      rw [toList_fieldsText_cons, toList_fieldsText_cons, List.append_assoc, List.append_assoc] at h
      obtain ⟨rfl, hvalue⟩ := quote_append_chars_inj h
      rw [List.cons_append, List.cons_append, List.cons.injEq, List.append_assoc, List.append_assoc] at hvalue
      obtain ⟨rfl, hrest⟩ := hes _ List.mem_cons_self w _ _ (hfs _ List.mem_cons_self)
        (ends_rest es _ (.inr rfl) x) (ends_rest fs _ (.inr rfl) y) hvalue.2
      rcases rest_cases (c := '\x7d') (by decide) hrest with ⟨rfl, rfl, rfl⟩ | hrest
      · exact ⟨rfl, rfl⟩
      · obtain ⟨rfl, rfl⟩ := ih (fun u hu => hes u (List.mem_cons_of_mem _ hu))
          (fun u hu => hfs u (List.mem_cons_of_mem _ hu)) hrest
        exact ⟨rfl, rfl⟩

/-- A text that starts with the text of a value is that of no other value. -/
theorem Printed.told (hP : Printed floatText good) {v : Value} (hv : good v) : v.Told floatText good := by
  intro w x y hw hx hy h
  have hshape := hP.shape_eq hv hw h
  induction v using Value.induct generalizing w x y with
  | null =>
    cases w with
    | null => exact ⟨rfl, List.append_cancel_left h⟩
    | bool b => cases b <;> cases hshape
    | _ => cases hshape
  | bool b =>
    cases w with
    | bool c =>
      obtain rfl : b = c := by revert hshape; cases b <;> cases c <;> decide
      exact ⟨rfl, List.append_cancel_left h⟩
    | _ => cases b <;> cases hshape
  | string s =>
    cases w with
    | string t =>
      rw [toText, toText] at h
      obtain ⟨rfl, hrest⟩ := quote_append_chars_inj h
      exact ⟨rfl, hrest⟩
    | bool b => cases b <;> cases hshape
    | _ => cases hshape
  | number n =>
    cases w with
    | number m =>
      obtain ⟨rfl, hrest⟩ := hP.number_append_inj hv hw hx hy h
      exact ⟨rfl, hrest⟩
    | bool b => cases b <;> cases hshape
    | _ => cases hshape
  | array items ih =>
    have hgood := hP.items hv
    cases w with
    | array ws =>
      rw [toText, toText] at h
      simp only [String.toList_append, List.append_assoc] at h
      obtain ⟨rfl, hrest⟩ := hP.itemsText_inj (fun v hmem w x y hw hx hy h =>
        ih v hmem (hgood v hmem) w x y hw hx hy h (hP.shape_eq (hgood v hmem) hw h)) hgood (hP.items hw)
        (List.append_cancel_left h)
      exact ⟨rfl, hrest⟩
    | bool b => cases b <;> cases hshape
    | _ => cases hshape
  | object fields ih =>
    have hgood := hP.fields hv
    cases w with
    | object fs =>
      rw [toText, toText] at h
      simp only [String.toList_append, List.append_assoc] at h
      obtain ⟨rfl, hrest⟩ := fieldsText_inj (fun e hmem w x y hw hx hy h =>
        ih e hmem (hgood e hmem) w x y hw hx hy h (hP.shape_eq (hgood e hmem) hw h)) (hP.fields hw)
        (List.append_cancel_left h)
      exact ⟨rfl, hrest⟩
    | bool b => cases b <;> cases hshape
    | _ => cases hshape

/-- Structs of good fields whose texts start alike have the same fields. -/
theorem Printed.structText_append_inj (hP : Printed floatText good) {es fs : Fields} (hes : ∀ e ∈ es, good e.2)
    (hfs : ∀ f ∈ fs, good f.2) {x y : String} (h : structText floatText es ++ x = structText floatText fs ++ y) :
    es = fs ∧ x = y := by
  have htext := congrArg String.toList h
  simp only [structText, String.toList_append, List.append_assoc] at htext
  obtain ⟨rfl, hxy⟩ := fieldsText_inj (fun e he => hP.told (hes e he)) hfs (List.append_cancel_left htext)
  exact ⟨rfl, String.toList_inj.mp hxy⟩

end

/-! ## Integers and other numbers -/

theorem starts_posInt (n : ℕ) : ∃ c cs, (toString n).toList = c :: cs ∧ Shape.of c = some .number := by
  obtain ⟨c, cs, hcs⟩ := List.exists_cons_of_ne_nil (Nat.toDigits_ne_nil (n := n) (b := 10))
  rw [toList_toString_nat, hcs]
  exact ⟨c, cs, rfl, shape_of_digit (Nat.isDigit_of_mem_toDigits (by decide) (by decide) (hcs ▸ List.mem_cons_self))⟩

theorem isNumeric_of_digit {c : Char} (h : c.isDigit = true) : isNumeric c = true := by
  rw [isNumeric, h]
  rfl

/-- Integers are printed readably, so only what is asked of the numbers with a decimal point is left. -/
theorem Printed.of_floats {floatText : UInt64 → String} {good : Value → Prop}
    (items : ∀ {items}, good (.array items) → ∀ v ∈ items, good v)
    (fields : ∀ {fields}, good (.object fields) → ∀ e ∈ fields, good e.2)
    (starts : ∀ bits, good (.number (.float bits)) →
      ∃ c cs, (floatText bits).toList = c :: cs ∧ Shape.of c = some .number)
    (numeric : ∀ bits, good (.number (.float bits)) → ∀ c ∈ (floatText bits).toList, isNumeric c = true)
    (inj : ∀ {n m}, good (.number n) → good (.number m) → n.toText floatText = m.toText floatText → n = m) :
    Printed floatText good where
  items := items
  fields := fields
  starts := by
    intro n hn
    cases n with
    | posInt n => exact starts_posInt n
    | negInt n =>
      refine ⟨'-', (toString (n + 1)).toList, ?_, rfl⟩
      rw [Number.toText, String.toList_append]
      rfl
    | float bits => exact starts bits hn
  numeric := by
    intro n hn c hc
    cases n with
    | posInt n => exact isNumeric_of_digit (isDigit_of_mem_toString hc)
    | negInt n =>
      rw [Number.toText, String.toList_append, List.mem_append] at hc
      rcases hc with hc | hc
      · obtain rfl : c = '-' := List.mem_singleton.mp hc
        rfl
      · exact isNumeric_of_digit (isDigit_of_mem_toString hc)
    | float bits => exact numeric bits hn c hc
  inj := inj

/-- The numeral of a natural number has no sign. -/
theorem toString_ne_minus (n : ℕ) (s : String) : toString n ≠ "-" ++ s := by
  intro h
  have hminus : '-' ∈ (toString n).toList := by
    rw [h, String.toList_append]
    exact List.mem_append_left _ List.mem_cons_self
  exact absurd (isDigit_of_mem_toString hminus) (by decide)

/-- Values without a `f64` are printed readably, however these are printed. -/
theorem printed_floatless (floatText : UInt64 → String) : Printed floatText Floatless := by
  refine Printed.of_floats floatlessItems_iff.mp floatlessFields_iff.mp (fun _ h => absurd h (by simp [Floatless]))
    (fun _ h => absurd h (by simp [Floatless])) ?_
  intro n m hn hm h
  cases n with
  | float bits => exact absurd hn (by simp [Floatless])
  | posInt n =>
    cases m with
    | float bits => exact absurd hm (by simp [Floatless])
    | posInt m => rw [toString_nat_inj h]
    | negInt m => exact absurd h (toString_ne_minus n _)
  | negInt n =>
    cases m with
    | float bits => exact absurd hm (by simp [Floatless])
    | posInt m => exact absurd h.symm (toString_ne_minus m _)
    | negInt m =>
      have hlists := congrArg String.toList h
      simp only [Number.toText, String.toList_append] at hlists
      have hnat := toString_nat_inj (String.toList_inj.mp (List.append_cancel_left hlists))
      rw [Nat.succ.inj hnat]

end Value

/-- What the printer of numbers is known for: a number is a digit or a sign, then characters of numbers, and different
numbers are printed differently. -/
structure NumberPrinter (floatText : UInt64 → String) : Prop where
  starts : ∀ bits, ∃ c cs, (floatText bits).toList = c :: cs ∧ (c.isDigit = true ∨ c = '-')
  numeric : ∀ bits, ∀ c ∈ (floatText bits).toList, Value.isNumeric c = true
  inj : Function.Injective (Number.toText floatText)

/-- With such a printer all values are printed readably. -/
theorem NumberPrinter.printed {floatText : UInt64 → String} (h : NumberPrinter floatText) :
    Value.Printed floatText fun _ => True := by
  refine Value.Printed.of_floats (fun _ _ _ => trivial) (fun _ _ _ => trivial) ?_ (fun bits _ => h.numeric bits)
    fun _ _ heq => h.inj heq
  rintro bits -
  obtain ⟨c, cs, hcs, hc⟩ := h.starts bits
  refine ⟨c, cs, hcs, ?_⟩
  rcases hc with hc | rfl
  · exact Value.shape_of_digit hc
  · rfl

/-- A printer that writes the bits of a `f64` as a numeral with a decimal point. -/
def bitsText (bits : UInt64) : String := toString bits.toNat ++ ".0"

theorem bitsText_ne_toString (bits : UInt64) (n : ℕ) : bitsText bits ≠ toString n := by
  intro h
  have hpoint : '.' ∈ (toString n).toList := by
    rw [← h, bitsText, String.toList_append]
    exact List.mem_append_right _ List.mem_cons_self
  exact absurd (Value.isDigit_of_mem_toString hpoint) (by decide)

theorem numberPrinter_bitsText : NumberPrinter bitsText where
  starts := by
    intro bits
    obtain ⟨c, cs, hcs⟩ := List.exists_cons_of_ne_nil (Nat.toDigits_ne_nil (n := bits.toNat) (b := 10))
    have hlist : (toString bits.toNat).toList = c :: cs := by rw [Value.toList_toString_nat, hcs]
    refine ⟨c, cs ++ ".0".toList, ?_, .inl (Value.isDigit_of_mem_toString (hlist ▸ List.mem_cons_self))⟩
    rw [bitsText, String.toList_append, hlist, List.cons_append]
  numeric := by
    intro bits c hc
    rw [bitsText, String.toList_append, List.mem_append] at hc
    rcases hc with hc | hc
    · exact Value.isNumeric_of_digit (Value.isDigit_of_mem_toString hc)
    · have hfraction : ".0".toList = ['.', '0'] := rfl
      rw [hfraction, List.mem_cons, List.mem_singleton] at hc
      rcases hc with rfl | rfl <;> decide
  inj := by
    have hminus : ∀ (bits : UInt64) (s : String), bitsText bits ≠ "-" ++ s := by
      intro bits s h
      have hlists := congrArg String.toList h
      obtain ⟨c, cs, hcs⟩ := List.exists_cons_of_ne_nil (Nat.toDigits_ne_nil (n := bits.toNat) (b := 10))
      have hlist : (toString bits.toNat).toList = c :: cs := by rw [Value.toList_toString_nat, hcs]
      rw [bitsText, String.toList_append, String.toList_append, hlist, List.cons_append] at hlists
      have hc : c = '-' := (List.cons.inj hlists).1
      exact absurd (Value.isDigit_of_mem_toString (hlist ▸ List.mem_cons_self)) (by rw [hc]; decide)
    -- Integers are told apart already; a decimal point tells the others from them.
    have hints : ∀ {n m : Number}, (Value.number n).Floatless → (Value.number m).Floatless →
        n.toText bitsText = m.toText bitsText → n = m := (Value.printed_floatless bitsText).inj
    intro n m h
    cases n with
    | posInt n =>
      cases m with
      | float bits => exact absurd h.symm (bitsText_ne_toString bits n)
      | _ => exact hints (by simp [Value.Floatless]) (by simp [Value.Floatless]) h
    | negInt n =>
      cases m with
      | float bits => exact absurd h.symm (hminus bits _)
      | _ => exact hints (by simp [Value.Floatless]) (by simp [Value.Floatless]) h
    | float bits =>
      cases m with
      | posInt m => exact absurd h (bitsText_ne_toString bits m)
      | negInt m => exact absurd h (hminus bits _)
      | float bits' =>
        have hlists := congrArg String.toList h
        simp only [Number.toText, bitsText, String.toList_append] at hlists
        have hnat := Value.toString_nat_inj (String.toList_inj.mp (List.append_cancel_right hlists))
        rw [UInt64.toNat_inj.mp hnat]

/-- Texts of structs that start alike are the texts of the same fields. -/
theorem structText_append_inj {floatText : UInt64 → String} {es fs : Fields} (hes : Value.FloatlessFields es)
    (hfs : Value.FloatlessFields fs) {x y : String}
    (h : structText floatText es ++ x = structText floatText fs ++ y) : es = fs ∧ x = y :=
  (Value.printed_floatless floatText).structText_append_inj (Value.floatlessFields_iff.mp hes)
    (Value.floatlessFields_iff.mp hfs) h

end Innen
