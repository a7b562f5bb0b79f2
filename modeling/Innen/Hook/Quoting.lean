import Innen.Common.Shell
import Innen.Hook.Install
import Mathlib.Data.Bool.AllAny

/-!
# Quoting paths in hook commands

The command of a hook is one string that a shell splits into words. A path that is not plain is put in double quotes, in
which its double quotes are escaped but its backslashes, dollar signs and backquotes are not. The words of a command are
the ones it was built from iff neither path is empty or has such a character where it is special
(`command_words_iff`).
-/

namespace Innen.Hook

open Innen.Common Shell

/-! ## Paths that are kept -/

/-- A text in double quotes. -/
def escapeQuotes (cs : List Char) : List Char := cs.flatMap fun c => if c = '"' then ['\\', '"'] else [c]

/-- Characters that take a backslash before them away, in double quotes. -/
def takesBackslash (c : Char) : Bool := decide (c ∈ ['$', '\x60', '"', '\\', '\n'])

/-- Whether characters stay what they are in double quotes when only double quotes are escaped. -/
def keptInQuotes : List Char → Bool
  | [] => true
  | c :: rest =>
    decide (c ≠ '$' ∧ c ≠ '\x60') && (decide (c ≠ '\\') || rest.head?.any fun d => !takesBackslash d) && keptInQuotes rest

/-- A path that is one unchanged word when it is quoted. -/
def Kept (path : String) : Prop := path ≠ "" ∧ keptInQuotes path.toList = true

theorem escapeQuotes_cons (c : Char) (cs : List Char) :
    escapeQuotes (c :: cs) = (if c = '"' then ['\\', '"'] else [c]) ++ escapeQuotes cs := List.flatMap_cons

/-! ## What double quotes keep -/

/-- Splittings that do not rule out what stands for itself. -/
def Permits (ruledOut : Quoting → Char → Bool) : Prop :=
  ∀ c, ruledOut .double c = false ∧ (c ≠ '\x27' → ruledOut .bare c = false)

theorem permits_all : Permits fun _ _ => false := fun _ => ⟨rfl, fun _ => rfl⟩

theorem permits_lossy : Permits lossy := by
  intro c
  simp [lossy, hides, losesBackslash]

section

variable {ruledOut : Quoting → Char → Bool} (hpermits : Permits ruledOut) (word : Option (List Char)) (rest : List Char)
include hpermits

/-- In double quotes most characters stand for themselves. -/
theorem wordsWith_double {c : Char} (hc : c ∉ ['"', '\\', '$', '\x60']) :
    wordsWith ruledOut .double word (c :: rest) = wordsWith ruledOut .double (add word c) rest := by
  simp only [List.mem_cons, List.not_mem_nil, or_false, not_or] at hc
  rw [wordsWith, (hpermits c).1]
  simp [step, hc]

theorem wordsWith_double_close :
    wordsWith ruledOut .double word ('"' :: rest) = wordsWith ruledOut .bare word rest := by
  rw [wordsWith, (hpermits '"').1]
  simp [step]

theorem wordsWith_double_escape :
    wordsWith ruledOut .double word ('\\' :: rest) = wordsWith ruledOut .doubleEscape word rest := by
  rw [wordsWith, (hpermits '\\').1]
  simp [step]

theorem wordsWith_double_expand {c : Char} (hc : c = '$' ∨ c = '\x60') :
    wordsWith ruledOut .double word (c :: rest) = none := by
  rw [wordsWith, (hpermits c).1]
  rcases hc with rfl | rfl <;> simp [step]

end

/-- An escaped double quote. -/
theorem wordsWith_escaped_quote {ruledOut : Quoting → Char → Bool} (hruled : ruledOut .doubleEscape '"' = false)
    (word : Option (List Char)) (rest : List Char) :
    wordsWith ruledOut .doubleEscape word ('"' :: rest) = wordsWith ruledOut .double (add word '"') rest := by
  rw [wordsWith, hruled]
  simp [step, escapable]

/-- A backslash in double quotes stays before most characters. -/
theorem wordsWith_kept_backslash {ruledOut : Quoting → Char → Bool} {c : Char} (hruled : ruledOut .doubleEscape c = false)
    (hc : takesBackslash c = false) (word : Option (List Char)) (rest : List Char) :
    wordsWith ruledOut .doubleEscape word (c :: rest) = wordsWith ruledOut .double (add (add word '\\') c) rest := by
  simp only [takesBackslash, List.mem_cons, List.not_mem_nil, or_false, decide_eq_false_iff_not, not_or] at hc
  rw [wordsWith, hruled]
  simp [step, escapable, hc]

theorem keptInQuotes_cons {c : Char} {cs : List Char} : keptInQuotes (c :: cs) = true ↔
    (c ≠ '$' ∧ c ≠ '\x60') ∧ (c = '\\' → ∃ d ds, cs = d :: ds ∧ takesBackslash d = false) ∧ keptInQuotes cs = true := by
  rw [keptInQuotes, Bool.and_eq_true, Bool.and_eq_true, decide_eq_true_eq, and_assoc]
  refine and_congr_right fun _ => and_congr_left fun _ => ?_
  rw [Bool.or_eq_true, decide_eq_true_eq, ← imp_iff_not_or]
  refine imp_congr_right fun _ => ?_
  cases cs with
  | nil => simp
  | cons d ds => simp

/-- A text that is kept is read up to its closing double quote, also behind a backslash that is kept. -/
theorem words_kept (rest cs : List Char) (w : List Char) (hkept : keptInQuotes cs = true) :
    wordsWith (fun _ _ => false) .double (some w) (escapeQuotes cs ++ '"' :: rest) =
        wordsWith (fun _ _ => false) .bare (some (w ++ cs)) rest ∧
      ∀ d ds, cs = d :: ds → takesBackslash d = false →
        wordsWith (fun _ _ => false) .doubleEscape (some w) (escapeQuotes cs ++ '"' :: rest) =
          wordsWith (fun _ _ => false) .bare (some (w ++ '\\' :: cs)) rest := by
  induction cs generalizing w with
  | nil =>
    refine ⟨?_, fun d ds h => by cases h⟩
    rw [List.append_nil]
    exact wordsWith_double_close permits_all _ _
  | cons c cs ih =>
    obtain ⟨⟨hdollar, htick⟩, hnext, hrest⟩ := keptInQuotes_cons.mp hkept
    constructor
    · rw [escapeQuotes_cons]
      by_cases hquote : c = '"'
      · rw [if_pos hquote, List.append_assoc, List.cons_append, List.singleton_append,
          wordsWith_double_escape permits_all, wordsWith_escaped_quote rfl, add, Option.getD_some, (ih _ hrest).1,
          List.append_assoc, hquote, List.singleton_append]
      · rw [if_neg hquote, List.append_assoc, List.singleton_append]
        by_cases hback : c = '\\'
        · obtain ⟨d, ds, hcs, hd⟩ := hnext hback
          rw [hback, wordsWith_double_escape permits_all, (ih w hrest).2 d ds hcs hd]
        · rw [wordsWith_double permits_all _ _ (by simp [hquote, hback, hdollar, htick]), add, Option.getD_some,
            (ih _ hrest).1, List.append_assoc, List.singleton_append]
    · rintro d ds h hd
      obtain ⟨rfl, rfl⟩ := List.cons_eq_cons.mp h
      have hquote : c ≠ '"' := by
        rintro rfl
        exact absurd hd (by decide)
      rw [escapeQuotes_cons, if_neg hquote, List.append_assoc, List.singleton_append,
        wordsWith_kept_backslash rfl hd, add, add, Option.getD_some, Option.getD_some, (ih _ hrest).1]
      simp only [List.append_assoc, List.cons_append, List.nil_append]

/-! ## What a splitting without loss says -/

/-- A quoted text is read to its end and was kept, or its last backslash escapes the double quote that was to close
it. -/
def Closed (rest : List Char) (out : List (List Char)) (w cs : List Char) : Prop :=
  (keptInQuotes cs = true ∧ wordsWith lossy .bare (some (w ++ cs)) rest = some out) ∨
    ∃ front, cs = front ++ ['\\'] ∧ wordsWith lossy .double (some (w ++ front ++ ['"'])) rest = some out

theorem Closed.cons {rest : List Char} {out : List (List Char)} {w cs : List Char} {c : Char}
    (h : Closed rest out (w ++ [c]) cs) (hc : c ≠ '$' ∧ c ≠ '\x60')
    (hnext : c = '\\' → ∃ d ds, cs = d :: ds ∧ takesBackslash d = false) : Closed rest out w (c :: cs) := by
  rcases h with ⟨hkept, hread⟩ | ⟨front, rfl, hread⟩
  · refine .inl ⟨keptInQuotes_cons.mpr ⟨hc, hnext, hkept⟩, ?_⟩
    rwa [List.append_assoc, List.singleton_append] at hread
  · refine .inr ⟨c :: front, rfl, ?_⟩
    rwa [List.append_assoc w, List.singleton_append] at hread

theorem lossy_doubleEscape {c : Char} : lossy .doubleEscape c = decide (c ∈ ['$', '\x60', '\\', '\n']) := by
  simp [lossy, hides, losesBackslash]

theorem closed_of_lossy (rest cs w : List Char) (out : List (List Char)) :
    (wordsWith lossy .double (some w) (escapeQuotes cs ++ '"' :: rest) = some out → Closed rest out w cs) ∧
      (wordsWith lossy .doubleEscape (some w) (escapeQuotes cs ++ '"' :: rest) = some out →
        (cs = [] ∧ wordsWith lossy .double (some (w ++ ['"'])) rest = some out) ∨
          ∃ d ds, cs = d :: ds ∧ takesBackslash d = false ∧ Closed rest out (w ++ ['\\']) cs) := by
  have hquoteRuled : lossy .doubleEscape '"' = false := by decide
  induction cs generalizing w with
  | nil =>
    constructor
    · intro h
      have hread := (wordsWith_double_close permits_lossy _ _).symm.trans h
      exact .inl ⟨rfl, by rwa [List.append_nil]⟩
    · intro h
      have hread := (wordsWith_escaped_quote hquoteRuled _ _).symm.trans h
      exact .inl ⟨rfl, hread⟩
  | cons c cs ih =>
    constructor
    · intro h
      rw [escapeQuotes_cons] at h
      by_cases hquote : c = '"'
      · rw [if_pos hquote, List.append_assoc, List.cons_append, List.singleton_append,
          wordsWith_double_escape permits_lossy, wordsWith_escaped_quote hquoteRuled] at h
        rw [hquote]
        exact ((ih _).1 h).cons (by decide) (fun h => absurd h (by decide))
      · rw [if_neg hquote, List.append_assoc, List.singleton_append] at h
        by_cases hexpand : c = '$' ∨ c = '\x60'
        · rw [wordsWith_double_expand permits_lossy _ _ hexpand] at h
          cases h
        · have hexpand := not_or.mp hexpand
          by_cases hback : c = '\\'
          · rw [hback, wordsWith_double_escape permits_lossy] at h
            rw [hback]
            rcases (ih _).2 h with ⟨rfl, hread⟩ | ⟨d, ds, hcs, hd, hclosed⟩
            · exact .inr ⟨[], rfl, by rwa [List.append_nil]⟩
            · exact hclosed.cons (by decide) fun _ => ⟨d, ds, hcs, hd⟩
          · rw [wordsWith_double permits_lossy _ _ (by simp [hquote, hback, hexpand])] at h
            exact ((ih _).1 h).cons hexpand fun heq => absurd heq hback
    · intro h
      refine .inr ⟨c, cs, rfl, ?_⟩
      have hruled : ∀ {d : Char} {ds : List Char},
          wordsWith lossy .doubleEscape (some w) (d :: ds) = some out → d ∉ ['$', '\x60', '\\', '\n'] := by
        intro d ds hread hd
        have hfalse := (wordsWith_cons.mp hread).1
        rw [lossy_doubleEscape, decide_eq_false_iff_not] at hfalse
        exact hfalse hd
      rw [escapeQuotes_cons] at h
      have hquote : c ≠ '"' := by
        rintro rfl
        rw [if_pos rfl, List.append_assoc, List.cons_append] at h
        exact absurd (hruled h) (by simp)
      rw [if_neg hquote, List.append_assoc, List.singleton_append] at h
      have hc := hruled h
      simp only [List.mem_cons, List.not_mem_nil, or_false, not_or] at hc
      have htakes : takesBackslash c = false := by simp [takesBackslash, hquote, hc]
      rw [wordsWith_kept_backslash (by rw [lossy_doubleEscape]; simp [hc]) htakes] at h
      exact ⟨htakes, ((ih _).1 h).cons ⟨hc.1, hc.2.1⟩ fun heq => absurd heq hc.2.2.1⟩

/-- A character that is read bare, behind the double quote that was to open a quotation, leaves a splitting without loss
only if what follows ends in a backslash, and then the last word ends in a double quote. -/
theorem ends_of_bare (cs : List Char) (word : Option (List Char)) (out : List (List Char))
    (h : wordsWith lossy .bare word (escapeQuotes cs ++ ['"']) = some out) :
    ∃ front words last, cs = front ++ ['\\'] ∧ out = words ++ [last ++ ['"']] := by
  induction cs generalizing word out with
  | nil =>
    obtain ⟨-, next, later, hstep, hlater, -⟩ := wordsWith_cons.mp h
    obtain rfl := Option.some.inj hstep
    cases hlater
  | cons c cs ih =>
    have hcons : ∀ {emitted later : List (List Char)},
        (∃ front words last, cs = front ++ ['\\'] ∧ later = words ++ [last ++ ['"']]) →
        ∃ front words last, c :: cs = front ++ ['\\'] ∧ emitted ++ later = words ++ [last ++ ['"']] := by
      rintro emitted later ⟨front, words, last, rfl, rfl⟩
      exact ⟨c :: front, emitted ++ words, last, rfl, by rw [List.append_assoc]⟩
    rw [escapeQuotes_cons] at h
    by_cases hquote : c = '"'
    · rw [if_pos hquote, List.append_assoc, List.cons_append, List.singleton_append] at h
      obtain ⟨-, next, later, hstep, hlater, rfl⟩ := wordsWith_cons.mp h
      obtain rfl := Option.some.inj hstep
      obtain ⟨-, next, last, hstep, hlast, rfl⟩ := wordsWith_cons.mp hlater
      obtain rfl := Option.some.inj hstep
      exact hcons (ih _ _ hlast)
    · rw [if_neg hquote, List.append_assoc, List.singleton_append] at h
      obtain ⟨hruled, next, later, hstep, hlater, rfl⟩ := wordsWith_cons.mp h
      simp only [step] at hstep
      split_ifs at hstep with hblank hback hsingle hspecial hcomment htilde <;> obtain rfl := Option.some.inj hstep
      · exact hcons (ih _ _ hlater)
      · -- The backslash is not lost, so it stands before the double quote at the end.
        rcases cs with _ | ⟨d, ds⟩
        · obtain ⟨-, next, last, hstep, hlast, rfl⟩ := wordsWith_cons.mp hlater
          obtain rfl := Option.some.inj hstep
          obtain rfl := Option.some.inj hlast
          exact ⟨[], [], word.getD [], by rw [hback]; rfl, rfl⟩
        · exfalso
          rw [escapeQuotes_cons] at hlater
          by_cases hd : d = '"'
          · rw [if_pos hd] at hlater
            exact absurd (wordsWith_cons.mp hlater).1 (by simp [lossy, hides, losesBackslash])
          · rw [if_neg hd] at hlater
            exact absurd (wordsWith_cons.mp hlater).1 (by simp [lossy, hides, losesBackslash, hd])
      · exact absurd hruled (by simp [lossy, hides, hsingle])
      · exfalso
        obtain ⟨d, ds, hds⟩ := List.exists_cons_of_ne_nil (List.append_ne_nil_of_right_ne_nil (escapeQuotes cs)
          (List.cons_ne_nil '"' []))
        rw [hds] at hlater
        exact absurd (wordsWith_cons.mp hlater).1 (by simp [lossy, hides])
      · exact hcons (ih _ _ hlater)

/-! ## Plain text -/

/-- A character that needs no quotes. -/
def plainChar (isAlphanumeric : Char → Bool) (c : Char) : Bool := isAlphanumeric c || "-_./:=,".toList.contains c

/-- `shell_quote` on characters. -/
def quoted (isAlphanumeric : Char → Bool) (cs : List Char) : List Char :=
  if cs.all (plainChar isAlphanumeric) then cs else '"' :: escapeQuotes cs ++ ['"']

theorem toList_shellQuote (isAlphanumeric : Char → Bool) (s : String) :
    (shellQuote isAlphanumeric s).toList = quoted isAlphanumeric s.toList := by
  unfold shellQuote quoted plainChar escapeQuotes
  split_ifs with hplain
  · rfl
  · simp only [String.toList_append, String.toList_ofList, List.cons_append]
    rfl

/-- The table of alphanumeric characters, where it is ASCII. -/
def AsciiTable (isAlphanumeric : Char → Bool) : Prop := ∀ c, c.toNat < 128 → isAlphanumeric c = c.isAlphanum

section

variable {isAlphanumeric : Char → Bool} (htable : AsciiTable isAlphanumeric)
include htable

/-- No character that is special to a shell is plain. -/
theorem plainChar_special : ∀ c ∈ [' ', '\t', '\\', '\x27', '"', '#', '~'] ++ specials,
    plainChar isAlphanumeric c = false := by
  have hascii : ∀ c ∈ [' ', '\t', '\\', '\x27', '"', '#', '~'] ++ specials,
      c.toNat < 128 ∧ c.isAlphanum = false ∧ "-_./:=,".toList.contains c = false :=
    List.all_iff_forall_prop.mp (by decide)
  intro c hc
  obtain ⟨hlow, halnum, hother⟩ := hascii c hc
  rw [plainChar, htable c hlow, halnum, hother, Bool.or_self]

theorem step_plain {c : Char} (hc : plainChar isAlphanumeric c = true) (word : Option (List Char)) :
    step .bare word c = some (.bare, add word c, []) ∧ c ∉ ['"', '\\', '$', '\x60'] ∧ c ≠ '\x27' := by
  have hne : ∀ d ∈ [' ', '\t', '\\', '\x27', '"', '#', '~'] ++ specials, c ≠ d := by
    rintro d hd rfl
    rw [plainChar_special htable c hd] at hc
    cases hc
  have hspecial : c ∉ specials := fun hmem => hne c (List.mem_append_right _ hmem) rfl
  have hback := hne '\\' (by decide)
  have hsingle := hne '\x27' (by decide)
  have hdouble := hne '"' (by decide)
  refine ⟨?_, ?_, hsingle⟩
  · simp [step, hne ' ' (by decide), hne '\t' (by decide), hne '#' (by decide), hne '~' (by decide), hback, hsingle,
      hdouble, hspecial]
  · simp [hback, hdouble, hne '$' (by decide), hne '\x60' (by decide)]

theorem keptInQuotes_of_plain {cs : List Char} (h : cs.all (plainChar isAlphanumeric) = true) :
    keptInQuotes cs = true := by
  induction cs with
  | nil => rfl
  | cons c cs ih =>
    obtain ⟨hc, hcs⟩ := Bool.and_eq_true_iff.mp h
    have hplain := (step_plain htable hc none).2.1
    simp only [List.mem_cons, List.not_mem_nil, or_false, not_or] at hplain
    exact keptInQuotes_cons.mpr ⟨hplain.2.2, fun heq => absurd heq hplain.2.1, ih hcs⟩

section

variable {ruledOut : Quoting → Char → Bool} (hpermits : Permits ruledOut) (rest : List Char)
include hpermits

theorem wordsWith_plain (w : List Char) {cs : List Char} (h : cs.all (plainChar isAlphanumeric) = true) :
    wordsWith ruledOut .bare (some w) (cs ++ rest) = wordsWith ruledOut .bare (some (w ++ cs)) rest := by
  induction cs generalizing w with
  | nil => rw [List.append_nil, List.nil_append]
  | cons c cs ih =>
    obtain ⟨hc, hcs⟩ := Bool.and_eq_true_iff.mp h
    obtain ⟨hstep, -, hsingle⟩ := step_plain htable hc (some w)
    rw [List.cons_append, wordsWith, (hpermits c).2 hsingle, hstep]
    simp only [Bool.false_eq_true, if_false, Option.bind_eq_bind, Option.bind_some, add, Option.getD_some, ih _ hcs,
      List.append_assoc, List.singleton_append, List.nil_append]
    simp

/-- A plain text that is not empty is a word. -/
theorem wordsWith_plain_word {cs : List Char} (h : cs.all (plainChar isAlphanumeric) = true) (hne : cs ≠ []) :
    wordsWith ruledOut .bare none (cs ++ rest) = wordsWith ruledOut .bare (some cs) rest := by
  obtain ⟨c, cs, rfl⟩ := List.exists_cons_of_ne_nil hne
  obtain ⟨hc, hcs⟩ := Bool.and_eq_true_iff.mp h
  obtain ⟨hstep, -, hsingle⟩ := step_plain htable hc none
  have hplain := wordsWith_plain htable hpermits rest [c] hcs
  rw [List.cons_append, wordsWith, (hpermits c).2 hsingle, hstep]
  simp only [Bool.false_eq_true, if_false, Option.bind_eq_bind, Option.bind_some, add, Option.getD_none,
    List.nil_append, hplain, List.singleton_append]
  simp

omit htable in
theorem wordsWith_blank (w : List Char) :
    wordsWith ruledOut .bare (some w) (' ' :: rest) = (wordsWith ruledOut .bare none rest).map ([w] ++ ·) := by
  have hstep : step .bare (some w) ' ' = some (.bare, none, [w]) := rfl
  rw [wordsWith, (hpermits ' ').2 (by decide), hstep]
  rcases hread : wordsWith ruledOut .bare none rest with _ | later <;> simp [hread]

/-- Plain words behind a word are words. -/
theorem wordsWith_mids (mids : List (List Char)) (w : List Char)
    (hmids : ∀ m ∈ mids, m ≠ [] ∧ m.all (plainChar isAlphanumeric) = true) :
    wordsWith ruledOut .bare (some w) (mids.flatMap (' ' :: ·) ++ ' ' :: rest) =
      (wordsWith ruledOut .bare none rest).map (w :: mids ++ ·) := by
  induction mids generalizing w with
  | nil => exact wordsWith_blank hpermits rest w
  | cons m mids ih =>
    obtain ⟨hne, hplain⟩ := hmids m List.mem_cons_self
    rw [List.flatMap_cons, List.append_assoc, List.cons_append, wordsWith_blank hpermits,
      wordsWith_plain_word htable hpermits _ hplain hne, ih m fun m' hm' => hmids m' (List.mem_cons_of_mem _ hm'),
      Option.map_map]
    rfl

/-- In double quotes plain words and the blanks between them are only characters. -/
theorem wordsWith_double_text (text w : List Char) (htext : ∀ c ∈ text, c = ' ' ∨ plainChar isAlphanumeric c = true) :
    wordsWith ruledOut .double (some w) (text ++ rest) = wordsWith ruledOut .double (some (w ++ text)) rest := by
  induction text generalizing w with
  | nil => rw [List.append_nil, List.nil_append]
  | cons c text ih =>
    have hc : c ∉ ['"', '\\', '$', '\x60'] := by
      rcases htext c List.mem_cons_self with rfl | hc
      · decide
      · exact (step_plain htable hc none).2.1
    rw [List.cons_append, wordsWith_double hpermits _ _ hc, add, Option.getD_some,
      ih _ fun d hd => htext d (List.mem_cons_of_mem _ hd), List.append_assoc, List.singleton_append]

end

/-! ## Quoted paths -/

/-- A path that is kept is one word when it is quoted. -/
theorem words_quoted {path : String} (hkept : Kept path) (rest : List Char) :
    wordsWith (fun _ _ => false) .bare none (quoted isAlphanumeric path.toList ++ rest) =
      wordsWith (fun _ _ => false) .bare (some path.toList) rest := by
  obtain ⟨hne, hkept⟩ := hkept
  rw [quoted]
  split_ifs with hplain
  · exact wordsWith_plain_word htable permits_all _ hplain fun h => hne (String.toList_eq_nil_iff.mp h)
  · rw [List.append_assoc, List.cons_append, List.singleton_append, wordsWith]
    simp only [step, Bool.false_eq_true, if_false]
    simpa using (words_kept rest path.toList [] hkept).1

/-- What a splitting without loss says of a quoted path at the end of a command. -/
theorem kept_of_last {path : String}
    (h : wordsWith lossy .bare none (quoted isAlphanumeric path.toList) = some [path.toList]) : Kept path := by
  rw [quoted] at h
  split_ifs at h with hplain
  · refine ⟨?_, keptInQuotes_of_plain htable hplain⟩
    rintro rfl
    cases h
  · obtain ⟨-, next, later, hstep, hlater, hout⟩ := wordsWith_cons.mp h
    obtain rfl := Option.some.inj hstep
    rw [List.nil_append] at hout
    rw [← hout] at hlater
    rcases (closed_of_lossy [] path.toList [] _).1 hlater with ⟨hkept, -⟩ | ⟨front, -, hread⟩
    · refine ⟨?_, hkept⟩
      rintro rfl
      exact hplain rfl
    · cases hread

/-- A splitting without loss into the words a command was built from keeps both paths. -/
theorem kept_of_lossy {program kb : String} {mids : List (List Char)} (hsome : mids ≠ [])
    (hmids : ∀ m ∈ mids, m ≠ [] ∧ m.all (plainChar isAlphanumeric) = true)
    (h : wordsWith lossy .bare none (quoted isAlphanumeric program.toList ++
      (mids.flatMap (' ' :: ·) ++ ' ' :: quoted isAlphanumeric kb.toList)) = some (program.toList :: mids ++ [kb.toList])) :
    Kept program ∧ Kept kb := by
  -- Once the program is read as its word, the knowledge base is what is left.
  have hlast : wordsWith lossy .bare (some program.toList) (mids.flatMap (' ' :: ·) ++
      ' ' :: quoted isAlphanumeric kb.toList) = some (program.toList :: mids ++ [kb.toList]) → Kept kb := by
    intro hread
    rw [wordsWith_mids htable permits_lossy _ _ _ hmids] at hread
    obtain ⟨later, hlater, heq⟩ := Option.map_eq_some_iff.mp hread
    rw [List.append_cancel_left heq] at hlater
    exact kept_of_last htable hlater
  rw [quoted] at h
  split_ifs at h with hplain
  · by_cases hne : program.toList = []
    · exfalso
      obtain ⟨m, mids, rfl⟩ := List.exists_cons_of_ne_nil hsome
      obtain ⟨hm, hmplain⟩ := hmids m List.mem_cons_self
      rw [hne, List.nil_append, List.flatMap_cons, List.append_assoc, List.cons_append] at h
      obtain ⟨-, next, later, hstep, hlater, hout⟩ := wordsWith_cons.mp h
      obtain rfl := Option.some.inj hstep
      dsimp only at hlater
      rw [wordsWith_plain_word htable permits_lossy _ hmplain hm, wordsWith_mids htable permits_lossy _ _ _
        fun m' hm' => hmids m' (List.mem_cons_of_mem _ hm')] at hlater
      obtain ⟨last, -, rfl⟩ := Option.map_eq_some_iff.mp hlater
      exact hm (List.cons_eq_cons.mp hout).1.symm
    · rw [wordsWith_plain_word htable permits_lossy _ hplain hne] at h
      exact ⟨⟨fun heq => hne (by rw [heq]; rfl), keptInQuotes_of_plain htable hplain⟩, hlast h⟩
  · rw [List.append_assoc, List.cons_append, List.singleton_append] at h
    obtain ⟨-, next, later, hstep, hlater, hout⟩ := wordsWith_cons.mp h
    obtain rfl := Option.some.inj hstep
    rw [List.nil_append] at hout
    rw [← hout] at hlater
    rcases (closed_of_lossy _ program.toList [] _).1 hlater with ⟨hkept, hread⟩ | ⟨front, hprogram, hread⟩
    · refine ⟨⟨?_, hkept⟩, hlast hread⟩
      rintro rfl
      exact hplain rfl
    · -- The quotation goes on, so it is the knowledge base that is read bare.
      exfalso
      have htext : ∀ c ∈ mids.flatMap (' ' :: ·) ++ [' '], c = ' ' ∨ plainChar isAlphanumeric c = true := by
        intro c hc
        rcases List.mem_append.mp hc with hc | hc
        · obtain ⟨m, hm, hcm⟩ := List.mem_flatMap.mp hc
          exact (List.mem_cons.mp hcm).imp_right fun hcm => List.all_eq_true.mp (hmids m hm).2 c hcm
        · exact .inl (List.mem_singleton.mp hc)
      have hsplit : ∀ cs : List Char, mids.flatMap (' ' :: ·) ++ ' ' :: cs = mids.flatMap (' ' :: ·) ++ [' '] ++ cs := by
        intro cs
        rw [List.append_assoc, List.singleton_append]
      rw [hsplit, wordsWith_double_text htable permits_lossy _ _ _ htext] at hread
      rw [quoted] at hread
      split_ifs at hread with hkb
      · have hnone := wordsWith_double_text htable permits_lossy [] kb.toList
          ([] ++ front ++ ['"'] ++ (mids.flatMap (' ' :: ·) ++ [' '])) fun c hc => .inr (List.all_eq_true.mp hkb c hc)
        rw [List.append_nil] at hnone
        rw [hnone] at hread
        cases hread
      · rw [List.cons_append, wordsWith_double_close permits_lossy] at hread
        obtain ⟨last, words, word, hkbLast, hwords⟩ := ends_of_bare _ _ _ hread
        have hword := (List.append_inj' hwords rfl).2
        rw [List.singleton_inj, hkbLast] at hword
        have hend := (List.append_inj' hword rfl).2
        exact absurd hend (by decide)

/-! ## The commands -/

omit htable in
/-- A quoted text has its single quotes and hashes, and a backslash for each of its backslashes and double quotes at
most. -/
theorem counts_quoted (isAlphanumeric : Char → Bool) (cs : List Char) : marks (quoted isAlphanumeric cs) = marks cs ∧
    (quoted isAlphanumeric cs).count '\\' ≤ escaped cs := by
  have hescape : ∀ cs : List Char, marks (escapeQuotes cs) = marks cs ∧ (escapeQuotes cs).count '\\' = escaped cs := by
    intro cs
    induction cs with
    | nil => exact ⟨rfl, rfl⟩
    | cons c cs ih =>
      have hmarks := marks_append [c] cs
      have hescaped := escaped_append [c] cs
      rw [List.singleton_append] at hmarks hescaped
      rw [escapeQuotes_cons, marks_append, List.count_append, ih.1, ih.2, hmarks, hescaped]
      by_cases hquote : c = '"'
      · simp [hquote, marks, escaped]
      · simp [hquote, escaped]
  rw [quoted]
  split_ifs with hplain
  · exact ⟨rfl, Nat.le_add_right _ _⟩
  · obtain ⟨hmarks, hback⟩ := hescape cs
    have hsplit : '"' :: escapeQuotes cs ++ ['"'] = ['"'] ++ escapeQuotes cs ++ ['"'] := rfl
    rw [hsplit, marks_append, marks_append, List.count_append, List.count_append, hmarks, hback]
    simp [marks]

/-- A command made of a quoted program, plain words and a quoted path is split into these words iff both paths are
kept. -/
theorem words_command_iff {program kb : String} {mids : List (List Char)} (hsome : mids ≠ [])
    (hmids : ∀ m ∈ mids, m ≠ [] ∧ m.all (plainChar isAlphanumeric) = true) :
    words (quoted isAlphanumeric program.toList ++ (mids.flatMap (' ' :: ·) ++ ' ' :: quoted isAlphanumeric kb.toList)) =
      some (program.toList :: mids ++ [kb.toList]) ↔ Kept program ∧ Kept kb := by
  constructor
  · intro h
    have hblank : ∀ {n : List Char → ℕ}, (∀ cs ds, n (cs ++ ds) = n cs + n ds) → n [' '] = 0 → n [] = 0 →
        n (mids.flatMap (' ' :: ·)) = n mids.flatten := by
      intro n hadd hspace hnil
      clear h hsome hmids
      induction mids with
      | nil => rfl
      | cons m mids ih =>
        rw [List.flatMap_cons, hadd, ih, List.flatten_cons, hadd, ← List.singleton_append, hadd, hspace, Nat.zero_add]
    have hcons : ∀ cs : List Char, ' ' :: cs = [' '] ++ cs := fun cs => rfl
    have hout : (program.toList :: mids ++ [kb.toList]).flatten = program.toList ++ (mids.flatten ++ kb.toList) := by
      simp
    have hmarks := hblank marks_append (by decide) (by decide)
    have hback := hblank (n := List.count '\\') (fun cs ds => List.count_append) (by decide) (by decide)
    obtain ⟨hprogram, hprogramBack⟩ := counts_quoted isAlphanumeric program.toList
    obtain ⟨hkb, hkbBack⟩ := counts_quoted isAlphanumeric kb.toList
    refine kept_of_lossy htable hsome hmids (strict_of_balance h ?_ ?_)
    · rw [hout, hcons]
      simp only [marks_append, hmarks, hprogram, hkb]
      have : marks [' '] = 0 := by decide
      omega
    · rw [hout, hcons]
      simp only [List.count_append, escaped_append, hback]
      have : [' '].count '\\' = 0 := by decide
      have : mids.flatten.count '\\' ≤ escaped mids.flatten := Nat.le_add_right _ _
      omega
  · rintro ⟨hprogram, hkb⟩
    have hlast := words_quoted htable hkb []
    rw [List.append_nil] at hlast
    rw [words, words_quoted htable hprogram, wordsWith_mids htable permits_all _ _ _ hmids, hlast]
    rfl

end

/-- The words of a command line. -/
def shellWords (command : String) : Option (List String) := (words command.toList).map (·.map String.ofList)

/-- The events whose hooks are installed. -/
def hookEvents : List String := ["session-end", "compact", "stop"]

/-- The path of the program that a hook calls. -/
def Env.programPath (env : Env) : String := env.executable.getD "innen"

theorem shellWords_eq_some {command : String} {out : List String} :
    shellWords command = some out ↔ words command.toList = some (out.map String.toList) := by
  have hchars : ∀ {l : List (List Char)} {out : List String}, l.map String.ofList = out ↔ l = out.map String.toList := by
    intro l out
    constructor
    · rintro rfl
      simp [Function.comp_def]
    · rintro rfl
      simp [Function.comp_def]
  rw [shellWords, Option.map_eq_some_iff]
  simp only [hchars, exists_eq_right]

/-- The program stands in a command as `shell_quote` writes it. -/
theorem program_eq {env : Env} (htable : AsciiTable env.isAlphanumeric) :
    env.program.toList = quoted env.isAlphanumeric env.programPath.toList := by
  rw [Env.program, Env.programPath]
  cases env.executable with
  | some path => exact toList_shellQuote _ path
  | none =>
    have hplain : "innen".toList.all (plainChar env.isAlphanumeric) = true := by
      have hchars : ∀ c ∈ "innen".toList, c.toNat < 128 ∧ c.isAlphanum = true :=
        List.all_iff_forall_prop.mp (by decide)
      refine List.all_eq_true.mpr fun c hc => ?_
      rw [plainChar, htable c (hchars c hc).1, (hchars c hc).2, Bool.true_or]
    rw [Option.getD_none, quoted, if_pos hplain]
    rfl

/-- Plain words are plain whatever the table says of other characters than ASCII ones. -/
theorem plain_of_ascii {isAlphanumeric : Char → Bool} (htable : AsciiTable isAlphanumeric) {m : List Char}
    (h : ∀ c ∈ m, c.toNat < 128 ∧ (c.isAlphanum || "-_./:=,".toList.contains c) = true) :
    m.all (plainChar isAlphanumeric) = true := by
  refine List.all_eq_true.mpr fun c hc => ?_
  rw [plainChar, htable c (h c hc).1, (h c hc).2]

/-- A command is split into the words it was built from iff its two paths are not empty and, in each, no dollar sign or
backquote stands, and no backslash at the end or before a character that takes it away. -/
theorem command_words_iff (env : Env) (htable : AsciiTable env.isAlphanumeric) :
    (∀ event ∈ hookEvents, shellWords (runCommand env event) =
        some [env.programPath, "hook", "run", "--event", event, "--kb-root", env.kb] ↔
      Kept env.programPath ∧ Kept env.kb) ∧
    (shellWords (pendingCommand env) = some [env.programPath, "hook", "pending", "--root", env.kb] ↔
      Kept env.programPath ∧ Kept env.kb) := by
  have hplain : ∀ {mids : List (List Char)}, (∀ m ∈ mids, m ≠ [] ∧
      (m.all fun c => c.toNat < 128 ∧ (c.isAlphanum || "-_./:=,".toList.contains c) = true) = true) →
      ∀ m ∈ mids, m ≠ [] ∧ m.all (plainChar env.isAlphanumeric) = true :=
    fun h m hm => ⟨(h m hm).1, plain_of_ascii htable (List.all_iff_forall_prop.mp (h m hm).2)⟩
  constructor
  · intro event hevent
    have hmids : ∀ event ∈ hookEvents, ∀ m ∈ ["hook".toList, "run".toList, "--event".toList, event.toList,
        "--kb-root".toList], m ≠ [] ∧
        (m.all fun c => c.toNat < 128 ∧ (c.isAlphanum || "-_./:=,".toList.contains c) = true) = true := by decide
    have hcommand : (runCommand env event).toList = quoted env.isAlphanumeric env.programPath.toList ++
        (["hook".toList, "run".toList, "--event".toList, event.toList, "--kb-root".toList].flatMap (' ' :: ·) ++
          ' ' :: quoted env.isAlphanumeric env.kb.toList) := by
      simp only [runCommand, String.toList_append, program_eq htable, toList_shellQuote, List.append_assoc]
      simp
    rw [shellWords_eq_some, hcommand]
    exact words_command_iff htable (by simp) (hplain (hmids event hevent))
  · have hmids : ∀ m ∈ ["hook".toList, "pending".toList, "--root".toList], m ≠ [] ∧
        (m.all fun c => c.toNat < 128 ∧ (c.isAlphanum || "-_./:=,".toList.contains c) = true) = true := by decide
    have hcommand : (pendingCommand env).toList = quoted env.isAlphanumeric env.programPath.toList ++
        (["hook".toList, "pending".toList, "--root".toList].flatMap (' ' :: ·) ++
          ' ' :: quoted env.isAlphanumeric env.kb.toList) := by
      simp only [pendingCommand, String.toList_append, program_eq htable, toList_shellQuote, List.append_assoc]
      simp
    rw [shellWords_eq_some, hcommand]
    exact words_command_iff htable (by simp) (hplain hmids)

/-- Blanks and double quotes in a path are kept. -/
theorem command_words_iff_blank :
    shellWords (pendingCommand ⟨Char.isAlphanum, some "/opt/my \"tools\"/innen", "/home/me/kb"⟩) =
      some ["/opt/my \"tools\"/innen", "hook", "pending", "--root", "/home/me/kb"] :=
  (command_words_iff ⟨Char.isAlphanum, some "/opt/my \"tools\"/innen", "/home/me/kb"⟩ fun _ _ => rfl).2.mpr
    ⟨⟨by decide, by decide⟩, ⟨by decide, by decide⟩⟩

/-- A dollar sign in the path of a knowledge base begins an expansion. -/
theorem dollar_path_expanded : ¬∀ env : Env, AsciiTable env.isAlphanumeric →
    shellWords (pendingCommand env) = some [env.programPath, "hook", "pending", "--root", env.kb] := by
  intro h
  have hexpanded := h ⟨Char.isAlphanum, some "/usr/bin/innen", "/home/me/$kb"⟩ fun _ _ => rfl
  revert hexpanded
  decide +kernel

end Innen.Hook
