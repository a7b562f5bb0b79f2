import Innen.Json.Value

/-!
# JSON text

The compact printer behind `Value::to_string`, `to_vec` and `to_string`: no white space, object fields
in map order, control characters escaped, everything else raw UTF-8. Only the decimal text of a
finite `f64` is left to a parameter, `floatText`.
-/

namespace Innen

open Common

/-- The lower-case hexadecimal digit of a number below 16. -/
def hexDigit (n : ℕ) : Char := "0123456789abcdef".toList.getD n '0'

/-- A character of a string literal, escaped where JSON asks for it. -/
def escapeChar (c : Char) : List Char :=
  if c = '"' then ['\\', '"']
  else if c = '\\' then ['\\', '\\']
  else if c = '\x08' then ['\\', 'b']
  else if c = '\x0c' then ['\\', 'f']
  else if c = '\n' then ['\\', 'n']
  else if c = '\r' then ['\\', 'r']
  else if c = '\t' then ['\\', 't']
  else if c.toNat < 0x20 then
    ['\\', 'u', '0', '0', hexDigit (c.toNat / 16), hexDigit (c.toNat % 16)]
  else [c]

/-- A string literal with its quotes. -/
def quote (s : String) : String := String.ofList ('"' :: (s.toList.flatMap escapeChar ++ ['"']))

/-- The text of a number. -/
def Number.toText (floatText : UInt64 → String) : Number → String
  | .posInt n => toString n
  | .negInt n => "-" ++ toString (n + 1)
  | .float bits => floatText bits

namespace Value

variable (floatText : UInt64 → String)

mutual

/-- The compact text of a value (`Value::to_string`). -/
def toText : Value → String
  | .null => "null"
  | .bool b => if b then "true" else "false"
  | .number n => n.toText floatText
  | .string s => quote s
  | .array items => "[" ++ itemsText items ++ "]"
  | .object fields => "\x7b" ++ fieldsText fields ++ "\x7d"

/-- Items separated by commas. -/
def itemsText : List Value → String
  | [] => ""
  | v :: rest => toText v ++ (if rest.isEmpty then "" else ",") ++ itemsText rest

/-- Fields separated by commas. -/
def fieldsText : Fields → String
  | [] => ""
  | (k, v) :: rest => quote k ++ ":" ++ toText v ++ (if rest.isEmpty then "" else ",") ++ fieldsText rest

end

end Value

/-- The text of a struct: its fields in declaration order, whatever their keys. -/
def structText (floatText : UInt64 → String) (fields : Fields) : String :=
  "\x7b" ++ Value.fieldsText floatText fields ++ "\x7d"

/-! ## Length -/

theorem utf8Len_escapeChar_le (c : Char) : String.utf8Len (escapeChar c) ≤ 6 * c.utf8Size := by
  have hpos := c.utf8Size_pos
  have hsix : ∀ n < 0x20, String.utf8Len ['\\', 'u', '0', '0', hexDigit (n / 16), hexDigit (n % 16)] = 6 := by
    decide
  by_cases hplain : escapeChar c = [c]
  · simp only [hplain, String.utf8Len_cons, String.utf8Len_nil]
    omega
  · refine le_trans ?_ (Nat.mul_le_mul_left 6 hpos)
    unfold escapeChar at hplain ⊢
    split_ifs at hplain ⊢ with _ _ _ _ _ _ _ hcontrol
    all_goals first | decide | exact (hsix _ hcontrol).le | exact absurd rfl hplain

theorem utf8Len_flatMap_escapeChar_le (l : List Char) :
    String.utf8Len (l.flatMap escapeChar) ≤ 6 * String.utf8Len l := by
  induction l with
  | nil => simp
  | cons c rest ih =>
    have := utf8Len_escapeChar_le c
    rw [List.flatMap_cons, String.utf8Len_append, String.utf8Len_cons]
    omega

/-- A string literal is at most six times as long as what it stands for, quotes apart. -/
theorem utf8ByteSize_quote_le (s : String) : (quote s).utf8ByteSize ≤ 6 * s.utf8ByteSize + 2 := by
  have hlen : s.utf8ByteSize = String.utf8Len s.toList := by rw [← String.utf8ByteSize_ofList, String.ofList_toList]
  have hquote : '"'.utf8Size = 1 := rfl
  have := utf8Len_flatMap_escapeChar_le s.toList
  rw [quote, String.utf8ByteSize_ofList, String.utf8Len_cons, String.utf8Len_append, String.utf8Len_cons,
    String.utf8Len_nil, hlen, hquote]
  omega

namespace Value

variable (floatText : UInt64 → String)

/-- The length of a number as text. -/
def numberSize : Number → ℕ
  | .posInt n => (toString n).utf8ByteSize
  | .negInt n => 1 + (toString (n + 1)).utf8ByteSize
  | .float bits => (floatText bits).utf8ByteSize

mutual

/-- The length of a value as text, in bytes. -/
def textSize : Value → ℕ
  | .null => 4
  | .bool b => if b then 4 else 5
  | .number n => numberSize floatText n
  | .string s => (quote s).utf8ByteSize
  | .array items => 1 + itemsSize items + 1
  | .object fields => 1 + fieldsSize fields + 1

/-- `textSize` on items. -/
def itemsSize : List Value → ℕ
  | [] => 0
  | v :: rest => textSize v + (if rest.isEmpty then 0 else 1) + itemsSize rest

/-- `textSize` on fields. -/
def fieldsSize : Fields → ℕ
  | [] => 0
  | (k, v) :: rest =>
    (quote k).utf8ByteSize + 1 + textSize v + (if rest.isEmpty then 0 else 1) + fieldsSize rest

end

theorem utf8ByteSize_itemsText {items : List Value}
    (h : ∀ v ∈ items, (v.toText floatText).utf8ByteSize = v.textSize floatText) :
    (itemsText floatText items).utf8ByteSize = itemsSize floatText items := by
  induction items with
  | nil => rfl
  | cons v rest ih =>
    rw [itemsText, itemsSize, String.utf8ByteSize_append, String.utf8ByteSize_append, h v List.mem_cons_self,
      ih fun w hw => h w (List.mem_cons_of_mem _ hw)]
    split <;> rfl

theorem utf8ByteSize_fieldsText {fields : Fields}
    (h : ∀ e ∈ fields, (e.2.toText floatText).utf8ByteSize = e.2.textSize floatText) :
    (fieldsText floatText fields).utf8ByteSize = fieldsSize floatText fields := by
  induction fields with
  | nil => rfl
  | cons e rest ih =>
    rw [fieldsText, fieldsSize, String.utf8ByteSize_append, String.utf8ByteSize_append,
      String.utf8ByteSize_append, String.utf8ByteSize_append, h e List.mem_cons_self,
      ih fun w hw => h w (List.mem_cons_of_mem _ hw)]
    split <;> rfl

/-- The length of the text can be told without the text. -/
theorem utf8ByteSize_toText (v : Value) : (v.toText floatText).utf8ByteSize = v.textSize floatText := by
  induction v using Value.induct with
  | null => rfl
  | bool b => cases b <;> rfl
  | number n =>
    cases n with
    | negInt n => exact String.utf8ByteSize_append
    | _ => rfl
  | string s => rfl
  | array items ih =>
    rw [toText, textSize, String.utf8ByteSize_append, String.utf8ByteSize_append,
      utf8ByteSize_itemsText floatText ih]
    rfl
  | object fields ih =>
    rw [toText, textSize, String.utf8ByteSize_append, String.utf8ByteSize_append,
      utf8ByteSize_fieldsText floatText ih]
    rfl

mutual

/-- A bound for the length of the text that reads no character. -/
def sizeBound : Value → ℕ
  | .null => 4
  | .bool _ => 5
  | .number n => numberSize floatText n
  | .string s => 6 * s.utf8ByteSize + 2
  | .array items => itemsBound items + 2
  | .object fields => fieldsBound fields + 2

/-- `sizeBound` on items. -/
def itemsBound : List Value → ℕ
  | [] => 0
  | v :: rest => sizeBound v + 1 + itemsBound rest

/-- `sizeBound` on fields. -/
def fieldsBound : Fields → ℕ
  | [] => 0
  | (k, v) :: rest => 6 * k.utf8ByteSize + 4 + sizeBound v + fieldsBound rest

end

theorem itemsSize_le_bound {items : List Value} (h : ∀ v ∈ items, v.textSize floatText ≤ v.sizeBound floatText) :
    itemsSize floatText items ≤ itemsBound floatText items := by
  induction items with
  | nil => rfl
  | cons v rest ih =>
    have hv := h v List.mem_cons_self
    have hrest := ih fun w hw => h w (List.mem_cons_of_mem _ hw)
    rw [itemsSize, itemsBound]
    split <;> omega

theorem fieldsSize_le_bound {fields : Fields} (h : ∀ e ∈ fields, e.2.textSize floatText ≤ e.2.sizeBound floatText) :
    fieldsSize floatText fields ≤ fieldsBound floatText fields := by
  induction fields with
  | nil => rfl
  | cons e rest ih =>
    have hv := h e List.mem_cons_self
    have hk := utf8ByteSize_quote_le e.1
    have hrest := ih fun w hw => h w (List.mem_cons_of_mem _ hw)
    rw [fieldsSize, fieldsBound]
    split <;> omega

theorem textSize_le_bound (v : Value) : v.textSize floatText ≤ v.sizeBound floatText := by
  induction v using Value.induct with
  | null => rfl
  | bool b => cases b <;> simp [textSize, sizeBound]
  | number n => rfl
  | string s => exact utf8ByteSize_quote_le s
  | array items ih =>
    have := itemsSize_le_bound floatText ih
    rw [textSize, sizeBound]
    omega
  | object fields ih =>
    have := fieldsSize_le_bound floatText ih
    rw [textSize, sizeBound]
    omega

end Value

/-! ## No line breaks -/

/-- A character that ends or could end a line. -/
def isLineBreak (c : Char) : Bool := c = '\n' ∨ c = '\r'

/-- A text without line breaks. -/
def OneLine (s : String) : Prop := ∀ c ∈ s.toList, isLineBreak c = false

instance (s : String) : Decidable (OneLine s) :=
  List.decidableBAll (fun c => isLineBreak c = false) s.toList

theorem OneLine.append {s t : String} (hs : OneLine s) (ht : OneLine t) : OneLine (s ++ t) := by
  intro c hc
  rw [String.toList_append, List.mem_append] at hc
  exact hc.elim (hs c) (ht c)

theorem OneLine.newline_not_mem {s : String} (h : OneLine s) : '\n' ∉ s.toList :=
  fun hmem => absurd (h _ hmem) (by decide)

theorem OneLine.getLast?_ne {s : String} (h : OneLine s) : s.toList.getLast? ≠ some '\r' :=
  fun hlast => absurd (h _ (List.mem_of_getLast? hlast)) (by decide)

private theorem hexDigit_not_lineBreak (n : ℕ) : isLineBreak (hexDigit n) = false := by
  by_cases h : n < 16
  · have hall : ∀ m < 16, isLineBreak (hexDigit m) = false := by decide
    exact hall n h
  · have hlen : "0123456789abcdef".toList.length ≤ n := not_lt.mp h
    rw [hexDigit, List.getD_eq_getElem?_getD, List.getElem?_eq_none hlen]
    decide

theorem escapeChar_not_lineBreak (c : Char) : ∀ d ∈ escapeChar c, isLineBreak d = false := by
  unfold escapeChar
  repeat' split
  all_goals simp only [List.mem_cons, List.not_mem_nil, or_false, forall_eq_or_imp, forall_eq]
  all_goals try decide
  · exact ⟨by decide, by decide, by decide, by decide, hexDigit_not_lineBreak _,
      hexDigit_not_lineBreak _⟩
  · simp_all [isLineBreak]

theorem oneLine_quote (s : String) : OneLine (quote s) := by
  intro c hc
  simp only [quote, String.toList_ofList, List.mem_cons, List.mem_append, List.mem_flatMap,
    List.not_mem_nil, or_false] at hc
  rcases hc with rfl | ⟨d, -, hd⟩ | rfl
  · decide
  · exact escapeChar_not_lineBreak d c hd
  · decide

theorem oneLine_nat (n : ℕ) : OneLine (toString n) := by
  intro c hc
  have hdigit : c.isDigit := by
    rw [Nat.toString_eq_ofList_toDigits, String.toList_ofList] at hc
    exact Nat.isDigit_of_mem_toDigits (by decide) (by decide) hc
  unfold isLineBreak
  rw [decide_eq_false_iff_not]
  rintro (rfl | rfl) <;> exact absurd hdigit (by decide)

/-- A text given by its few characters. -/
private theorem oneLine_of_all {s : String} (h : s.toList.all (fun c => !isLineBreak c) = true) :
    OneLine s := by
  intro c hc
  simpa using List.all_eq_true.mp h c hc

section

variable {floatText : UInt64 → String}

theorem Value.oneLine_itemsText {items : List Value}
    (h : ∀ v ∈ items, OneLine (v.toText floatText)) : OneLine (Value.itemsText floatText items) := by
  induction items with
  | nil => exact oneLine_of_all rfl
  | cons v rest ih =>
    have hsep : OneLine (if rest.isEmpty then "" else ",") := by
      split <;> exact oneLine_of_all rfl
    exact ((h v List.mem_cons_self).append hsep).append
      (ih fun w hw => h w (List.mem_cons_of_mem v hw))

theorem Value.oneLine_fieldsText {fields : Fields}
    (h : ∀ e ∈ fields, OneLine (e.2.toText floatText)) : OneLine (Value.fieldsText floatText fields) := by
  induction fields with
  | nil => exact oneLine_of_all rfl
  | cons e rest ih =>
    obtain ⟨k, v⟩ := e
    have hsep : OneLine (if rest.isEmpty then "" else ",") := by
      split <;> exact oneLine_of_all rfl
    have hcolon : OneLine ":" := oneLine_of_all rfl
    exact ((((oneLine_quote k).append hcolon).append (h (k, v) List.mem_cons_self)).append hsep).append
      (ih fun w hw => h w (List.mem_cons_of_mem _ hw))

/-- Compact JSON text is one line. -/
theorem Value.oneLine_toText (hfloat : ∀ bits, OneLine (floatText bits)) (v : Value) :
    OneLine (v.toText floatText) := by
  induction v using Value.induct with
  | null =>
    rw [Value.toText]
    exact oneLine_of_all rfl
  | bool b =>
    rw [Value.toText]
    cases b <;> exact oneLine_of_all rfl
  | number n =>
    cases n with
    | posInt n => exact oneLine_nat n
    | negInt n =>
      have hminus : OneLine "-" := oneLine_of_all rfl
      exact hminus.append (oneLine_nat (n + 1))
    | float bits => exact hfloat bits
  | string s => exact oneLine_quote s
  | array items ih =>
    have hopen : OneLine "[" := oneLine_of_all rfl
    have hclose : OneLine "]" := oneLine_of_all rfl
    exact (hopen.append (Value.oneLine_itemsText ih)).append hclose
  | object fields ih =>
    have hopen : OneLine "\x7b" := oneLine_of_all rfl
    have hclose : OneLine "\x7d" := oneLine_of_all rfl
    exact (hopen.append (Value.oneLine_fieldsText ih)).append hclose

/-- So is the text of a struct. -/
theorem oneLine_structText (hfloat : ∀ bits, OneLine (floatText bits)) (fields : Fields) :
    OneLine (structText floatText fields) := by
  have hopen : OneLine "\x7b" := oneLine_of_all rfl
  have hclose : OneLine "\x7d" := oneLine_of_all rfl
  exact (hopen.append (Value.oneLine_fieldsText fun e _ => e.2.oneLine_toText hfloat)).append hclose

end

/-! ## String literals delimit themselves -/

/-- The value of a hexadecimal digit. -/
def hexValue (c : Char) : ℕ := "0123456789abcdef".toList.idxOf c

/-- Read one character of a string literal off the text behind it. -/
def unescape : List Char → Option (Char × List Char)
  | '\\' :: 'u' :: '0' :: '0' :: a :: b :: r => some (Char.ofNat (hexValue a * 16 + hexValue b), r)
  | '\\' :: 'b' :: r => some ('\x08', r)
  | '\\' :: 'f' :: r => some ('\x0c', r)
  | '\\' :: 'n' :: r => some ('\n', r)
  | '\\' :: 'r' :: r => some ('\r', r)
  | '\\' :: 't' :: r => some ('\t', r)
  | '\\' :: c :: r => some (c, r)
  | c :: r => some (c, r)
  | [] => none

/-- Whatever follows, an escaped character is read back. -/
theorem unescape_escapeChar (c : Char) (r : List Char) : unescape (escapeChar c ++ r) = some (c, r) := by
  unfold escapeChar
  split_ifs with h1 h2 h3 h4 h5 h6 h7 h8
  · subst h1; rfl
  · subst h2; rfl
  · subst h3; rfl
  · subst h4; rfl
  · subst h5; rfl
  · subst h6; rfl
  · subst h7; rfl
  · have hall : ∀ n < 0x20, hexValue (hexDigit (n / 16)) * 16 + hexValue (hexDigit (n % 16)) = n := by
      decide
    simp only [List.cons_append, List.nil_append, unescape, hall c.toNat h8, Char.ofNat_toNat]
  · have hslash : c ≠ '\\' := h2
    simp only [List.cons_append, List.nil_append]
    unfold unescape
    split <;> simp_all

theorem escapeChar_ne_nil (c : Char) : ∃ d r, escapeChar c = d :: r ∧ d ≠ '"' := by
  unfold escapeChar
  split_ifs with h1 <;> refine ⟨_, _, rfl, ?_⟩ <;> first | exact h1 | decide

/-- Two string literals with something behind them start alike only when they are the same. -/
theorem quote_append_chars_inj {s t : String} {x y : List Char} (h : (quote s).toList ++ x = (quote t).toList ++ y) :
    s = t ∧ x = y := by
  have hchars : ∀ (l l' r r' : List Char),
      l.flatMap escapeChar ++ '"' :: r = l'.flatMap escapeChar ++ '"' :: r' → l = l' ∧ r = r' := by
    intro l
    induction l with
    | nil =>
      intro l' r r' heq
      cases l' with
      | nil => exact ⟨rfl, List.tail_eq_of_cons_eq heq⟩
      | cons d l' =>
        obtain ⟨e, q, hd, hne⟩ := escapeChar_ne_nil d
        simp only [List.flatMap_nil, List.nil_append, List.flatMap_cons, hd, List.cons_append,
          List.cons.injEq] at heq
        exact absurd heq.1.symm hne
    | cons c l ih =>
      intro l' r r' heq
      cases l' with
      | nil =>
        obtain ⟨e, q, hc, hne⟩ := escapeChar_ne_nil c
        simp only [List.flatMap_nil, List.nil_append, List.flatMap_cons, hc, List.cons_append,
          List.cons.injEq] at heq
        exact absurd heq.1 hne
      | cons d l' =>
        rw [List.flatMap_cons, List.flatMap_cons, List.append_assoc, List.append_assoc] at heq
        have hread := congrArg unescape heq
        rw [unescape_escapeChar, unescape_escapeChar, Option.some.injEq, Prod.mk.injEq] at hread
        obtain ⟨rfl, hrest⟩ := hread
        obtain ⟨rfl, rfl⟩ := ih l' r r' hrest
        exact ⟨rfl, rfl⟩
  simp only [quote, String.toList_ofList, List.cons_append, List.append_assoc, List.nil_append,
    List.cons.injEq, true_and] at h
  obtain ⟨hs, hx⟩ := hchars _ _ _ _ h
  exact ⟨String.toList_inj.mp hs, hx⟩

theorem quote_append_inj {s t x y : String} (h : quote s ++ x = quote t ++ y) : s = t ∧ x = y := by
  have hlists := congrArg String.toList h
  rw [String.toList_append, String.toList_append] at hlists
  obtain ⟨rfl, hx⟩ := quote_append_chars_inj hlists
  exact ⟨rfl, String.toList_inj.mp hx⟩

end Innen
