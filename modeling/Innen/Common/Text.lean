import Mathlib.Data.List.Basic
import Mathlib.Data.List.DropRight
import Mathlib.Data.List.Infix
import Mathlib.Data.String.Basic

/-!
# Text as the standard library reads it

Line splitting, Unicode white space and ASCII case folding, on the characters of a string. A string
is UTF-8, and everything here cuts at ASCII characters only, so working on characters and working on
bytes give the same pieces.

* `splitInclusive` keeps each terminator with its line and loses nothing (`splitInclusive_flatten`).
* `lines` strips the terminators. Appending a terminated line to terminated text appends exactly one
  line (`lines_append_line`).
-/

namespace Innen.Common

/-! ## Splitting into lines -/

/-- Split after every `sep`, keeping it at the end of its piece (`split_inclusive`). -/
def splitInclusive (sep : Char) : List Char → List (List Char)
  | [] => []
  | c :: cs =>
      if c = sep then [c] :: splitInclusive sep cs
      else match splitInclusive sep cs with
        | [] => [[c]]
        | piece :: rest => (c :: piece) :: rest

/-- No character is lost or reordered by `splitInclusive`. -/
@[simp] theorem splitInclusive_flatten (sep : Char) (cs : List Char) :
    (splitInclusive sep cs).flatten = cs := by
  induction cs with
  | nil => rfl
  | cons c cs ih =>
    simp only [splitInclusive]
    split
    · simp [ih]
    · split
      · rename_i h
        rw [h] at ih
        simp [← ih]
      · rename_i piece rest h
        rw [h] at ih
        simp [← ih]

/-- Every piece of a split is nonempty. -/
theorem ne_nil_of_mem_splitInclusive {sep : Char} {cs piece : List Char}
    (h : piece ∈ splitInclusive sep cs) : piece ≠ [] := by
  induction cs generalizing piece with
  | nil => simp [splitInclusive] at h
  | cons c cs ih =>
    simp only [splitInclusive] at h
    split at h
    · rcases List.mem_cons.mp h with rfl | h
      · simp
      · exact ih h
    · split at h
      · simp_all
      · rename_i p rest hsplit
        rcases List.mem_cons.mp h with rfl | h
        · simp
        · exact ih (hsplit ▸ List.mem_cons_of_mem _ h)

/-- A text without separator is one piece. -/
theorem splitInclusive_of_not_mem {sep : Char} {cs : List Char} (h : sep ∉ cs) (hne : cs ≠ []) :
    splitInclusive sep cs = [cs] := by
  induction cs with
  | nil => exact absurd rfl hne
  | cons c cs ih =>
    obtain ⟨hc, hcs⟩ := not_or.mp (List.mem_cons.not.mp h)
    rw [splitInclusive, if_neg (fun heq => hc heq.symm)]
    cases cs with
    | nil => rfl
    | cons d ds => rw [ih hcs (by simp)]

/-- The text is empty or ends with the separator. -/
def Terminated (sep : Char) (cs : List Char) : Prop := cs = [] ∨ ∃ pre, cs = pre ++ [sep]

instance (sep : Char) (cs : List Char) : Decidable (Terminated sep cs) :=
  decidable_of_iff (cs = [] ∨ cs.getLast? = some sep) (by
    refine or_congr_right ⟨fun h => ?_, fun ⟨pre, h⟩ => by simp [h]⟩
    exact ⟨cs.dropLast, (List.dropLast_append_getLast? sep h).symm⟩)

theorem terminated_nil (sep : Char) : Terminated sep [] := .inl rfl

theorem terminated_append_sep (sep : Char) (cs : List Char) : Terminated sep (cs ++ [sep]) :=
  .inr ⟨cs, rfl⟩

theorem Terminated.append {sep : Char} {xs ys : List Char} (hx : Terminated sep xs)
    (hy : Terminated sep ys) : Terminated sep (xs ++ ys) := by
  rcases hy with rfl | ⟨pre, rfl⟩
  · simpa using hx
  · exact .inr ⟨xs ++ pre, by simp⟩

theorem Terminated.of_cons {sep c : Char} {cs : List Char} (h : Terminated sep (c :: cs)) :
    Terminated sep cs := by
  rcases h with h | ⟨pre, h⟩
  · simp at h
  · cases pre with
    | nil =>
      simp only [List.nil_append, List.cons.injEq] at h
      exact h.2 ▸ terminated_nil sep
    | cons p pre =>
      simp only [List.cons_append, List.cons.injEq] at h
      exact .inr ⟨pre, h.2⟩

/-- Behind terminated text a split starts afresh. -/
theorem splitInclusive_append {sep : Char} {xs : List Char} (h : Terminated sep xs)
    (ys : List Char) : splitInclusive sep (xs ++ ys) = splitInclusive sep xs ++ splitInclusive sep ys := by
  induction xs with
  | nil => rfl
  | cons c cs ih =>
    have ih := ih h.of_cons
    simp only [List.cons_append, splitInclusive]
    split
    · simp [ih]
    · rename_i hc
      rw [ih]
      have hne : splitInclusive sep cs ≠ [] := by
        intro hnil
        have hcs : cs = [] := by rw [← splitInclusive_flatten sep cs, hnil]; rfl
        subst hcs
        rcases h with h | ⟨pre, h⟩
        · simp at h
        · cases pre with
          | nil => simp at h; exact hc h
          | cons p pre => simp at h
      cases hsplit : splitInclusive sep cs with
      | nil => exact absurd hsplit hne
      | cons piece rest => rfl

/-- One line without inner separator, then its separator, is one piece. -/
theorem splitInclusive_line {sep : Char} {cs : List Char} (h : sep ∉ cs) :
    splitInclusive sep (cs ++ [sep]) = [cs ++ [sep]] := by
  induction cs with
  | nil => simp [splitInclusive]
  | cons c cs ih =>
    obtain ⟨hc, hcs⟩ := not_or.mp (List.mem_cons.not.mp h)
    rw [List.cons_append, splitInclusive, if_neg (fun heq => hc heq.symm), ih hcs]

/-- Strip a final `\n`, and a `\r` before it; a piece without `\n` stays as it is. -/
def stripEol (piece : List Char) : List Char :=
  if piece.getLast? = some '\n' then
    if piece.dropLast.getLast? = some '\r' then piece.dropLast.dropLast else piece.dropLast
  else piece

/-- The lines of a text without their terminators (`str::lines`). -/
def linesOf (cs : List Char) : List (List Char) := (splitInclusive '\n' cs).map stripEol

/-- The lines of a string (`str::lines`). -/
def lines (s : String) : List String := (linesOf s.toList).map String.ofList

@[simp] theorem lines_empty : lines "" = [] := rfl

/-- Appending to terminated text appends the lines. -/
theorem lines_append {s : String} (h : Terminated '\n' s.toList) (t : String) :
    lines (s ++ t) = lines s ++ lines t := by
  simp [lines, linesOf, splitInclusive_append h]

/-- Strip one carriage return at the end. -/
def stripCr (l : String) : String :=
  String.ofList (if l.toList.getLast? = some '\r' then l.toList.dropLast else l.toList)

theorem stripCr_of_getLast? {l : String} (h : l.toList.getLast? ≠ some '\r') : stripCr l = l := by
  rw [stripCr, if_neg h, String.ofList_toList]

/-- Stripping takes away a carriage return or nothing. -/
theorem stripCr_cases (l : String) : stripCr l = l ∨ l = stripCr l ++ "\r" := by
  by_cases h : l.toList.getLast? = some '\r'
  · right
    apply String.toList_inj.mp
    rw [stripCr, if_pos h, String.toList_append, String.toList_ofList]
    exact (List.dropLast_append_getLast? '\r' h).symm
  · exact .inl (stripCr_of_getLast? h)

/-- A text without newline and the newline behind it are one line. -/
theorem lines_newline {l : String} (hn : '\n' ∉ l.toList) : lines (l ++ "\n") = [stripCr l] := by
  have h : (l ++ "\n").toList = l.toList ++ ['\n'] := by simp
  rw [lines, linesOf, h, splitInclusive_line hn]
  simp [stripEol, stripCr]

/-- A single line and its newline read back as that line. -/
theorem lines_line {l : String} (hn : '\n' ∉ l.toList) (hr : l.toList.getLast? ≠ some '\r') :
    lines (l ++ "\n") = [l] := by rw [lines_newline hn, stripCr_of_getLast? hr]

/-- A text without a newline is one line. -/
theorem lines_of_not_mem {l : String} (hn : '\n' ∉ l.toList) (hne : l ≠ "") : lines l = [l] := by
  have hnil : l.toList ≠ [] := fun h => hne (String.toList_inj.mp h)
  have hlast : l.toList.getLast? ≠ some '\n' := fun h => hn (List.mem_of_getLast? h)
  rw [lines, linesOf, splitInclusive_of_not_mem hn hnil, List.map_singleton, stripEol, if_neg hlast,
    List.map_singleton, String.ofList_toList]

/-- Appending a terminated line to terminated text appends exactly that line. -/
theorem lines_append_line {s l : String} (h : Terminated '\n' s.toList) (hn : '\n' ∉ l.toList)
    (hr : l.toList.getLast? ≠ some '\r') : lines (s ++ (l ++ "\n")) = lines s ++ [l] := by
  rw [lines_append h, lines_line hn hr]

/-- A piece of a split holds the separator at its end only. -/
theorem sep_at_end {sep : Char} {cs piece : List Char} (h : piece ∈ splitInclusive sep cs) :
    sep ∉ piece ∨ ∃ pre, piece = pre ++ [sep] ∧ sep ∉ pre := by
  induction cs generalizing piece with
  | nil => simp [splitInclusive] at h
  | cons c cs ih =>
    simp only [splitInclusive] at h
    split at h
    · rename_i hc
      rcases List.mem_cons.mp h with rfl | h
      · exact .inr ⟨[], by simp [hc], List.not_mem_nil⟩
      · exact ih h
    · rename_i hc
      split at h
      · obtain rfl := List.mem_singleton.mp h
        exact .inl fun hmem => hc (List.mem_singleton.mp hmem).symm
      · rename_i first rest hsplit
        have hpieces : ∀ p ∈ first :: rest, sep ∉ p ∨ ∃ pre, p = pre ++ [sep] ∧ sep ∉ pre :=
          fun p hp => ih (hsplit ▸ hp)
        rcases List.mem_cons.mp h with rfl | h
        · rcases hpieces first List.mem_cons_self with hno | ⟨pre, rfl, hno⟩
          · exact .inl fun hmem => (List.mem_cons.mp hmem).elim (fun h => hc h.symm) hno
          · refine .inr ⟨c :: pre, rfl, fun hmem => ?_⟩
            exact (List.mem_cons.mp hmem).elim (fun h => hc h.symm) hno
        · exact hpieces piece (List.mem_cons_of_mem first h)

/-- Lines contain no newline. -/
theorem newline_not_mem_of_mem_lines {s l : String} (h : l ∈ lines s) : '\n' ∉ l.toList := by
  obtain ⟨cs, hcs, rfl⟩ := List.mem_map.mp h
  obtain ⟨piece, hpiece, rfl⟩ := List.mem_map.mp hcs
  rw [String.toList_ofList]
  rcases sep_at_end hpiece with hno | ⟨pre, rfl, hno⟩
  · unfold stripEol
    rw [if_neg fun hlast => hno (List.mem_of_getLast? hlast)]
    exact hno
  · simp only [stripEol, List.getLast?_append, List.getLast?_singleton, Option.some_or, if_true,
      List.dropLast_concat]
    split
    · exact fun hmem => hno (List.dropLast_subset _ hmem)
    · exact hno

/-! ## The text behind the last newline -/

/-- What stands behind the last newline. -/
def unfinished (s : String) : String := String.ofList (s.toList.rtakeWhile (· ≠ '\n'))

/-- What stands up to and including the last newline. -/
def finished (s : String) : String := String.ofList (s.toList.rdropWhile (· ≠ '\n'))

theorem finished_append_unfinished (s : String) : finished s ++ unfinished s = s := by
  apply String.toList_inj.mp
  rw [finished, unfinished, String.toList_append, String.toList_ofList, String.toList_ofList,
    List.rdropWhile_append_rtakeWhile]

theorem newline_not_mem_unfinished (s : String) : '\n' ∉ (unfinished s).toList := by
  intro h
  rw [unfinished, String.toList_ofList] at h
  have := List.mem_rtakeWhile_imp h
  simp at this

theorem terminated_finished (s : String) : Terminated '\n' (finished s).toList := by
  rw [finished, String.toList_ofList]
  by_cases hnil : s.toList.rdropWhile (· ≠ '\n') = []
  · rw [hnil]
    exact terminated_nil '\n'
  · have hlast := List.rdropWhile_last_not (fun c => decide (c ≠ '\n')) s.toList hnil
    refine .inr ⟨(s.toList.rdropWhile (· ≠ '\n')).dropLast, ?_⟩
    have hsep : (s.toList.rdropWhile (· ≠ '\n')).getLast hnil = '\n' := by simpa using hlast
    conv_lhs => rw [← List.dropLast_append_getLast hnil, hsep]

/-- Terminated text leaves nothing unfinished. -/
theorem unfinished_of_terminated {s : String} (h : Terminated '\n' s.toList) : unfinished s = "" := by
  rcases h with h | ⟨pre, h⟩
  · rw [unfinished, h]
    rfl
  · rw [unfinished, h, List.rtakeWhile_concat_neg _ _ _ (by simp), String.ofList_nil]

/-- The unfinished text is a line of its own. -/
theorem lines_eq_finished (s : String) :
    lines s = lines (finished s) ++ if unfinished s = "" then [] else [unfinished s] := by
  have hrest : lines (unfinished s) = if unfinished s = "" then [] else [unfinished s] := by
    split
    · rename_i h
      rw [h]
      rfl
    · rename_i h
      have hne : (unfinished s).toList ≠ [] := fun hnil => h (String.toList_inj.mp hnil)
      have hno := newline_not_mem_unfinished s
      rw [lines, linesOf, splitInclusive_of_not_mem hno hne]
      have hlast : (unfinished s).toList.getLast? ≠ some '\n' := fun hl => hno (List.mem_of_getLast? hl)
      simp [stripEol, hlast]
  conv_lhs => rw [← finished_append_unfinished s, lines_append (terminated_finished s), hrest]

/-- A line appended to any text continues what is unfinished. -/
theorem lines_append_newline (s : String) {l : String} (hn : '\n' ∉ l.toList) :
    lines (s ++ (l ++ "\n")) = lines (finished s) ++ [stripCr (unfinished s ++ l)] := by
  have hsplit : s ++ (l ++ "\n") = finished s ++ (unfinished s ++ l ++ "\n") := by
    conv_lhs => rw [← finished_append_unfinished s]
    simp only [String.append_assoc]
  have hno : '\n' ∉ (unfinished s ++ l).toList := by
    rw [String.toList_append, List.mem_append]
    exact fun h => h.elim (newline_not_mem_unfinished s) hn
  rw [hsplit, lines_append (terminated_finished s), lines_newline hno]

theorem terminated_append_newline (s : String) : Terminated '\n' (s ++ "\n").toList := by
  rw [String.toList_append]
  exact terminated_append_sep '\n' s.toList

/-! ## Lines read back what was written -/

/-- The text that writes each line and a newline. -/
def joinLines (ls : List String) : String := ls.foldl (fun acc l => acc ++ l ++ "\n") ""

theorem foldl_joinLines (ls : List String) (acc : String) :
    ls.foldl (fun acc l => acc ++ l ++ "\n") acc = acc ++ joinLines ls := by
  induction ls generalizing acc with
  | nil => simp [joinLines]
  | cons l ls ih =>
    rw [joinLines, List.foldl_cons, List.foldl_cons, ih, ih ("" ++ l ++ "\n")]
    simp [String.append_assoc]

theorem joinLines_cons (l : String) (ls : List String) :
    joinLines (l :: ls) = l ++ "\n" ++ joinLines ls := by
  rw [joinLines, List.foldl_cons, foldl_joinLines]
  simp

theorem terminated_joinLines (ls : List String) : Terminated '\n' (joinLines ls).toList := by
  induction ls with
  | nil => exact terminated_nil '\n'
  | cons l ls ih =>
    rw [joinLines_cons, String.toList_append]
    exact (terminated_append_newline l).append ih

/-- Lines are read back as they were written, up to a carriage return at their end. -/
theorem lines_joinLines {ls : List String} (h : ∀ l ∈ ls, '\n' ∉ l.toList) :
    lines (joinLines ls) = ls.map stripCr := by
  induction ls with
  | nil => rfl
  | cons l ls ih =>
    have hrest := ih fun l hl => h l (List.mem_cons_of_mem _ hl)
    rw [joinLines_cons, lines_append (terminated_append_newline l), lines_newline (h l List.mem_cons_self),
      hrest]
    rfl

/-! ## White space and letter case -/

/-- The Unicode `White_Space` property (`char::is_whitespace`). -/
def isWhitespace (c : Char) : Bool :=
  let n := c.toNat
  (9 ≤ n && n ≤ 13) || n == 0x20 || n == 0x85 || n == 0xA0 || n == 0x1680 ||
    (0x2000 ≤ n && n ≤ 0x200A) || n == 0x2028 || n == 0x2029 || n == 0x202F || n == 0x205F ||
    n == 0x3000

/-- `s.trim().is_empty()`: the string has no character but white space. -/
def blank (s : String) : Bool := s.toList.all isWhitespace

/-- `str::trim`. -/
def trim (s : String) : String :=
  String.ofList ((s.toList.dropWhile isWhitespace).rdropWhile isWhitespace)

/-- A text between two characters that are no white space is trimmed already. -/
theorem trim_of_ends {s : String} {first last : Char} {cs : List Char}
    (hs : s.toList = first :: (cs ++ [last])) (hfirst : isWhitespace first = false)
    (hlast : isWhitespace last = false) : trim s = s := by
  have hrev : (first :: (cs ++ [last])).rdropWhile isWhitespace = first :: (cs ++ [last]) := by
    rw [← List.cons_append, List.rdropWhile_concat_neg _ _ _ (by simp [hlast])]
  rw [trim, hs, List.dropWhile_cons_of_neg (by simp [hfirst]), hrev, ← hs, String.ofList_toList]

/-- `str::trim_matches` with one character. -/
def trimMatches (c : Char) (s : String) : String :=
  String.ofList ((s.toList.dropWhile (· = c)).rdropWhile (· = c))

/-- `str::split_whitespace`. -/
def splitWhitespace (s : String) : List String :=
  ((s.toList.splitOnP isWhitespace).filter (· ≠ [])).map String.ofList

/-- `str::starts_with`. -/
def startsWith (s start : String) : Bool := start.toList.isPrefixOf s.toList

/-- `str::strip_prefix`. -/
def stripStart (s start : String) : Option String :=
  if startsWith s start then some (String.ofList (s.toList.drop start.length)) else none

/-- Split characters at the first place where a text begins. -/
def splitOnceChars (sep : List Char) : List Char → Option (List Char × List Char)
  | [] => if sep = [] then some ([], []) else none
  | c :: cs =>
    if sep.isPrefixOf (c :: cs) then some ([], (c :: cs).drop sep.length)
    else (splitOnceChars sep cs).map fun p => (c :: p.1, p.2)

/-- `str::split_once`. -/
def splitOnce (s sep : String) : Option (String × String) :=
  (splitOnceChars sep.toList s.toList).map fun p => (String.ofList p.1, String.ofList p.2)

/-- `str::strip_suffix`. -/
def stripEnd (s tail : String) : Option String :=
  if tail.toList.isSuffixOf s.toList then some (String.ofList (s.toList.take (s.length - tail.length))) else none

/-- `str::contains` with a text. -/
def containsText (s part : String) : Bool := decide (part.toList <:+: s.toList)

/-- Replace a text in characters from left to right, after a number of characters to drop. -/
def replaceChars (old new : List Char) : ℕ → List Char → List Char
  | _, [] => []
  | skip + 1, _ :: cs => replaceChars old new skip cs
  | 0, c :: cs =>
    if old.isPrefixOf (c :: cs) then new ++ replaceChars old new (old.length - 1) cs
    else c :: replaceChars old new 0 cs

/-- `str::replace` of a text that is not empty. -/
def replaceText (s old new : String) : String := String.ofList (replaceChars old.toList new.toList 0 s.toList)

/-- The first characters of a text. -/
def takeChars (n : ℕ) (s : String) : String := String.ofList (s.toList.take n)

/-- `to_ascii_uppercase`. -/
def asciiUpper (s : String) : String := String.ofList (s.toList.map Char.toUpper)

/-- `to_ascii_lowercase`. -/
def asciiLower (s : String) : String := String.ofList (s.toList.map Char.toLower)

/-! ## Separators -/

section Separator

variable {α : Type*} [DecidableEq α] {sep : α} {xs xs' ys ys' : List α}

/-- What is behind the last separator is determined by all of it. -/
theorem append_sep_inj (hy : sep ∉ ys) (hy' : sep ∉ ys') (h : xs ++ sep :: ys = xs' ++ sep :: ys') : ys = ys' := by
  have hlast : ∀ {xs ys : List α}, sep ∉ ys → (xs ++ sep :: ys).rtakeWhile (· ≠ sep) = ys := by
    intro xs ys hys
    have hall : ∀ c ∈ ys.reverse, decide (c ≠ sep) = true := fun c hc =>
      decide_eq_true fun heq => hys (heq ▸ List.mem_reverse.mp hc)
    rw [List.rtakeWhile, List.reverse_append, List.reverse_cons, List.append_assoc,
      List.takeWhile_append_of_pos hall, List.singleton_append, List.takeWhile_cons_of_neg (by simp),
      List.append_nil, List.reverse_reverse]
  rw [← hlast hy, h, hlast hy']

/-- What is before the first separator is determined by all of it, and so is what is behind. -/
theorem sep_append_inj (hx : sep ∉ xs) (hx' : sep ∉ xs') (h : xs ++ sep :: ys = xs' ++ sep :: ys') :
    xs = xs' ∧ ys = ys' := by
  have hreverse : ys.reverse ++ sep :: xs.reverse = ys'.reverse ++ sep :: xs'.reverse := by
    have h := congrArg List.reverse h
    rwa [List.reverse_append, List.reverse_append, List.reverse_cons, List.reverse_cons, List.append_assoc,
      List.append_assoc] at h
  have heq : xs = xs' := List.reverse_injective
    (append_sep_inj (by rwa [List.mem_reverse]) (by rwa [List.mem_reverse]) hreverse)
  subst heq
  exact ⟨rfl, (List.cons.inj (List.append_cancel_left h)).2⟩

end Separator

/-- A character of a joined text is in a part or in the separator. -/
theorem not_mem_intercalate {c : Char} {sep : String} {parts : List String} (hsep : c ∉ sep.toList)
    (h : ∀ s ∈ parts, c ∉ s.toList) : c ∉ (sep.intercalate parts).toList := by
  induction parts with
  | nil =>
    rw [String.intercalate_nil]
    exact List.not_mem_nil
  | cons s rest ih =>
    have hs := h s List.mem_cons_self
    have hrest := ih fun s' hs' => h s' (List.mem_cons_of_mem s hs')
    cases rest with
    | nil => rwa [String.intercalate_singleton]
    | cons s' rest =>
      rw [String.intercalate_cons_cons, String.toList_append, String.toList_append, List.mem_append, List.mem_append]
      exact fun hc => hc.elim (·.elim hs hsep) hrest

/-! ## Canonical UTC timestamps -/

/-- The fixed-width shape `YYYY-MM-DDTHH:MM:SSZ`. Every position that passes is ASCII, so positions in
characters and in bytes agree. -/
def utcShape (s : String) : Bool :=
  let b := s.toList
  b.length == 20 &&
    [(4, '-'), (7, '-'), (10, 'T'), (13, ':'), (16, ':'), (19, 'Z')].all (fun p => b[p.1]? == some p.2) &&
    [0, 1, 2, 3, 5, 6, 8, 9, 11, 12, 14, 15, 17, 18].all (fun i => b[i]?.any Char.isDigit)

/-- The decimal number written by the characters at positions `a, …, z - 1`. -/
def decimalAt (s : String) (a z : ℕ) : ℕ :=
  ((s.toList.drop a).take (z - a)).foldl (fun n c => 10 * n + (c.toNat - '0'.toNat)) 0

/-- The number of days of a month, `0` for a month that does not exist. -/
def daysInMonth (y m : ℕ) : ℕ :=
  if m ∈ [1, 3, 5, 7, 8, 10, 12] then 31
  else if m ∈ [4, 6, 9, 11] then 30
  else if m = 2 then if y % 4 = 0 ∧ (y % 100 ≠ 0 ∨ y % 400 = 0) then 29 else 28
  else 0

/-- A canonical timestamp whose fields name an existing date and time of day. -/
def utcCalendar (s : String) : Bool :=
  utcShape s && 0 < decimalAt s 8 10 &&
    decimalAt s 8 10 ≤ daysInMonth (decimalAt s 0 4) (decimalAt s 5 7) &&
    decimalAt s 11 13 < 24 && decimalAt s 14 16 < 60 && decimalAt s 17 19 < 60

example : utcCalendar "2024-02-29T23:59:59Z" = true := by decide

end Innen.Common
