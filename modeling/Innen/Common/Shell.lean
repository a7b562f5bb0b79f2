import Mathlib.Data.List.Basic
import Mathlib.Data.List.Count

/-!
# Words of a shell command

A simple command is split into words at blanks that are not quoted. A backslash and single or double quotes take
the special meaning from characters; in double quotes a few keep it. Where a command is more than its words, because a
parameter or a pattern is expanded in it, another command follows or a quote is not closed, it has no splitting.

Characters are used up by quoting: a splitting that gives as many quotes and backslashes as it must is one
in which no backslash is lost (`strict_of_balance`).
-/

namespace Innen.Common.Shell

/-- How the next character is quoted. -/
inductive Quoting
  | bare
  | bareEscape
  | single
  | double
  | doubleEscape
  | comment
deriving DecidableEq

/-- The word so far with one more character. -/
def add (word : Option (List Char)) (c : Char) : Option (List Char) := some (word.getD [] ++ [c])

/-- Characters that, not quoted, begin an expansion or a pattern, or end the command. -/
def specials : List Char := ['$', '\x60', '*', '?', '[', '|', '&', ';', '<', '>', '(', ')', '\n']

/-- Characters before which a backslash is taken away in double quotes. -/
def escapable : List Char := ['$', '\x60', '"', '\\']

/-- What a character does: how the next one is quoted, the word so far if one has begun, and the word that is ended by
it. -/
def step : Quoting → Option (List Char) → Char → Option (Quoting × Option (List Char) × List (List Char))
  | .bare, word, c =>
    if c = ' ' ∨ c = '\t' then some (.bare, none, word.toList)
    else if c = '\\' then some (.bareEscape, word, [])
    else if c = '\x27' then some (.single, some (word.getD []), [])
    else if c = '"' then some (.double, some (word.getD []), [])
    else if c ∈ specials then none
    else if c = '#' ∧ word = none then some (.comment, none, [])
    else if c = '~' ∧ word = none then none
    else some (.bare, add word c, [])
  | .bareEscape, word, c => if c = '\n' then some (.bare, word, []) else some (.bare, add word c, [])
  | .single, word, c => if c = '\x27' then some (.bare, word, []) else some (.single, add word c, [])
  | .double, word, c =>
    if c = '"' then some (.bare, word, [])
    else if c = '\\' then some (.doubleEscape, word, [])
    else if c = '$' ∨ c = '\x60' then none
    else some (.double, add word c, [])
  | .doubleEscape, word, c =>
    if c = '\n' then some (.double, word, [])
    else if c ∈ escapable then some (.double, add word c, [])
    else some (.double, add (add word '\\') c, [])
  | .comment, word, c => if c = '\n' then none else some (.comment, word, [])

/-- The words that are left at the end of the command. -/
def finish : Quoting → Option (List Char) → Option (List (List Char))
  | .bare, word | .comment, word => some word.toList
  | _, _ => none

/-- The words of what is left of a command; characters that are ruled out stop the splitting. -/
def wordsWith (ruledOut : Quoting → Char → Bool) : Quoting → Option (List Char) → List Char → Option (List (List Char))
  | quoting, word, [] => finish quoting word
  | quoting, word, c :: rest =>
    if ruledOut quoting c then none
    else do
      let next ← step quoting word c
      let later ← wordsWith ruledOut next.1 next.2.1 rest
      return next.2.2 ++ later

/-- The words of a command. -/
def words (command : List Char) : Option (List (List Char)) := wordsWith (fun _ _ => false) .bare none command

/-! ## Runs -/

theorem getD_add (word : Option (List Char)) (c : Char) : (add word c).getD [] = word.getD [] ++ [c] := rfl

theorem flatten_toList (word : Option (List Char)) : word.toList.flatten = word.getD [] := by
  cases word with
  | none => rfl
  | some cs => exact List.append_nil cs

/-- A character that is read is not ruled out, and what follows is split behind it. -/
theorem wordsWith_cons {ruledOut : Quoting → Char → Bool} {quoting : Quoting} {word : Option (List Char)} {c : Char}
    {rest : List Char} {out : List (List Char)} :
    wordsWith ruledOut quoting word (c :: rest) = some out ↔ ruledOut quoting c = false ∧
      ∃ next later, step quoting word c = some next ∧ wordsWith ruledOut next.1 next.2.1 rest = some later ∧
        out = next.2.2 ++ later := by
  rw [wordsWith]
  cases ruledOut quoting c with
  | true => simp
  | false =>
    simp only [Bool.false_eq_true, if_false, true_and, Option.bind_eq_bind, Option.bind_eq_some_iff, Option.pure_def,
      Option.some.injEq]
    constructor
    · rintro ⟨next, hnext, later, hlater, rfl⟩
      exact ⟨next, later, hnext, hlater, rfl⟩
    · rintro ⟨next, later, hnext, hlater, rfl⟩
      exact ⟨next, hnext, later, hlater, rfl⟩

/-- What a character gives to the words. -/
def given : Quoting → Option (List Char) → Char → List Char
  | .bare, word, c => if c ∈ [' ', '\t', '\\', '\x27', '"'] ∨ (c = '#' ∧ word = none) then [] else [c]
  | .bareEscape, _, c => if c = '\n' then [] else [c]
  | .single, _, c => if c = '\x27' then [] else [c]
  | .double, _, c => if c = '"' ∨ c = '\\' then [] else [c]
  | .doubleEscape, _, c => if c = '\n' then [] else if c ∈ escapable then [c] else ['\\', c]
  | .comment, _, _ => []

/-- A step puts what it gives behind the word so far, which may end there. -/
theorem flatten_step {quoting : Quoting} {word : Option (List Char)} {c : Char}
    {next : Quoting × Option (List Char) × List (List Char)} (h : step quoting word c = some next) :
    next.2.2.flatten ++ next.2.1.getD [] = word.getD [] ++ given quoting word c := by
  cases quoting with
  | bare =>
    simp only [step] at h
    split_ifs at h with hblank
    · obtain rfl := Option.some.inj h
      rcases hblank with rfl | rfl <;> simp [given, flatten_toList]
    all_goals
      obtain rfl := Option.some.inj h
      simp_all [given, getD_add]
  | bareEscape | single | double | doubleEscape | comment =>
    simp only [step] at h
    split_ifs at h <;> obtain rfl := Option.some.inj h <;> simp_all [given, getD_add]

/-! ## The balance of a splitting -/

/-- A single quote that begins a quotation, or a character of a comment. -/
def hides (quoting : Quoting) (c : Char) : Bool := decide ((quoting = .bare ∧ c = '\x27') ∨ quoting = .comment)

/-- A backslash that is taken away before another character than a double quote. -/
def losesBackslash (quoting : Quoting) (c : Char) : Bool :=
  decide ((quoting = .bareEscape ∧ c ≠ '"') ∨ (quoting = .doubleEscape ∧ c ∈ ['$', '\x60', '\\', '\n']))

/-- What is ruled out in a splitting that loses nothing. -/
def lossy (quoting : Quoting) (c : Char) : Bool := hides quoting c || losesBackslash quoting c

/-- How many characters of some are single quotes or hashes. -/
def marks (cs : List Char) : ℕ := cs.count '\x27' + cs.count '#'

/-- How many characters of some are backslashes or double quotes, which need a backslash to stand in a word. -/
def escaped (cs : List Char) : ℕ := cs.count '\\' + cs.count '"'

/-- The backslash that waits for the next character. -/
def held (quoting : Quoting) : ℕ := if quoting = .bareEscape ∨ quoting = .doubleEscape then 1 else 0

@[simp] theorem marks_append (cs ds : List Char) : marks (cs ++ ds) = marks cs + marks ds := by
  simp only [marks, List.count_append]
  omega

@[simp] theorem escaped_append (cs ds : List Char) : escaped (cs ++ ds) = escaped cs + escaped ds := by
  simp only [escaped, List.count_append]
  omega

/-- No character gives more single quotes and hashes than there are; one that begins a quotation or a comment gives
none. -/
theorem marks_given {quoting : Quoting} {word : Option (List Char)} {c : Char}
    {next : Quoting × Option (List Char) × List (List Char)} (h : step quoting word c = some next) :
    marks (given quoting word c) ≤ marks [c] ∧
      (quoting ≠ .comment → hides quoting c = true ∨ next.1 = .comment → marks (given quoting word c) < marks [c]) := by
  have hle : marks (given quoting word c) ≤ marks [c] := by
    by_cases hc : c = '\x27' ∨ c = '#'
    · rcases hc with rfl | rfl <;> cases quoting <;> simp only [given] <;> (try split_ifs) <;> simp [marks]
    · obtain ⟨hsingle, hhash⟩ := not_or.mp hc
      cases quoting <;> simp only [given] <;> (try split_ifs) <;> simp [marks, hsingle, hhash]
  refine ⟨hle, fun hquoting hlost => ?_⟩
  rcases hlost with hhides | hcomment
  · obtain ⟨rfl, rfl⟩ : quoting = .bare ∧ c = '\x27' := (of_decide_eq_true hhides).resolve_right hquoting
    simp [given, marks]
  · cases quoting with
    | comment => exact absurd rfl hquoting
    | bare =>
      simp only [step] at h
      split_ifs at h with hblank hback hsingle hdouble hspecial hhash htilde <;> obtain rfl := Option.some.inj h
      · cases hcomment
      · cases hcomment
      · cases hcomment
      · cases hcomment
      · simp [given, hhash, marks]
      · cases hcomment
    | bareEscape | single | double | doubleEscape =>
      simp only [step] at h
      split_ifs at h <;> obtain rfl := Option.some.inj h <;> cases hcomment

/-- Outside single quotes a character gives no more than the backslashes are worth, and less where one is lost. -/
theorem escaped_given {quoting : Quoting} {word : Option (List Char)} {c : Char}
    {next : Quoting × Option (List Char) × List (List Char)} (h : step quoting word c = some next)
    (hquoting : quoting ≠ .single) (hhides : hides quoting c = false) : next.1 ≠ .single ∧
      escaped (given quoting word c) + held next.1 + (losesBackslash quoting c).toNat ≤
        held quoting + [c].count '\\' := by
  have hother : ∀ {d : Char}, d ≠ '\\' → d ≠ '"' → escaped [d] = 0 := by
    intro d hback hquote
    simp [escaped, hback, hquote]
  cases quoting with
  | single => exact absurd rfl hquoting
  | bare =>
    simp only [step] at h
    split_ifs at h with hblank hback hsingle hdouble hspecial hcomment htilde <;> obtain rfl := Option.some.inj h
    · rcases hblank with rfl | rfl <;> simp [given, escaped, held, losesBackslash]
    · rw [hback]
      exact ⟨by simp, by simp [given, escaped, held, losesBackslash]⟩
    · exact absurd hsingle (by simpa [hides] using hhides)
    · rw [hdouble]
      exact ⟨by simp, by simp [given, escaped, held, losesBackslash]⟩
    · exact ⟨by simp, by simp [given, hcomment, escaped, held, losesBackslash]⟩
    · refine ⟨by simp, ?_⟩
      have hgiven : given .bare word c = [c] := by
        rw [given, if_neg]
        simp_all
      simp [hgiven, hother hback hdouble, held, losesBackslash]
  | bareEscape =>
    simp only [step] at h
    split_ifs at h with hline <;> obtain rfl := Option.some.inj h
    · simp [given, hline, escaped, held, losesBackslash]
    · refine ⟨by simp, ?_⟩
      rw [given, if_neg hline]
      by_cases hdouble : c = '"'
      · simp [hdouble, escaped, held, losesBackslash]
      · have hlost : losesBackslash .bareEscape c = true := by simp [losesBackslash, hdouble]
        have hnone : [c].count '"' = 0 := by simp [hdouble]
        simp [hlost, escaped, hnone, held, Nat.add_comm]
  | double =>
    simp only [step] at h
    split_ifs at h with hdouble hback <;> obtain rfl := Option.some.inj h
    · simp [given, hdouble, escaped, held, losesBackslash]
    · simp [given, hback, escaped, held, losesBackslash]
    · simp [given, hdouble, hback, hother hback hdouble, held, losesBackslash]
  | doubleEscape =>
    simp only [step] at h
    split_ifs at h with hline hescapable <;> obtain rfl := Option.some.inj h
    · simp [given, hline, escaped, held, losesBackslash]
    · refine ⟨by simp, ?_⟩
      rw [given, if_neg hline, if_pos hescapable]
      simp only [escapable, List.mem_cons, List.not_mem_nil, or_false] at hescapable
      rcases hescapable with rfl | rfl | rfl | rfl <;> simp [escaped, held, losesBackslash]
    · simp only [escapable, List.mem_cons, List.not_mem_nil, or_false, not_or] at hescapable
      simp [given, hline, escapable, hescapable, escaped, held, losesBackslash]
  | comment => exact absurd hhides (by simp [hides])

/-- What a step outside single quotes does to the counts of what needs a backslash. -/
theorem escaped_step {quoting : Quoting} {word : Option (List Char)} {c : Char}
    {next : Quoting × Option (List Char) × List (List Char)} (h : step quoting word c = some next)
    (hquoting : quoting ≠ .single) (hhides : hides quoting c = false) : next.1 ≠ .single ∧
      escaped next.2.2.flatten + escaped (next.2.1.getD []) + held next.1 + (losesBackslash quoting c).toNat ≤
        escaped (word.getD []) + held quoting + [c].count '\\' := by
  have hgiven := congrArg escaped (flatten_step h)
  rw [escaped_append, escaped_append] at hgiven
  obtain ⟨hnext, hle⟩ := escaped_given h hquoting hhides
  exact ⟨hnext, by omega⟩

theorem eq_toList_of_finish {quoting : Quoting} {word : Option (List Char)} {out : List (List Char)}
    (h : finish quoting word = some out) : out.flatten = word.getD [] := by
  cases quoting <;> simp only [finish] at h
  case bare | comment =>
    obtain rfl := Option.some.inj h
    exact flatten_toList word
  all_goals cases h

theorem marks_le {ruledOut : Quoting → Char → Bool} {command : List Char} {quoting : Quoting}
    {word : Option (List Char)} {out : List (List Char)} (h : wordsWith ruledOut quoting word command = some out) :
    marks out.flatten ≤ marks (word.getD []) + marks command := by
  induction command generalizing quoting word out with
  | nil =>
    rw [eq_toList_of_finish h]
    exact Nat.le_add_right _ _
  | cons c rest ih =>
    obtain ⟨-, next, later, hstep, hrest, rfl⟩ := wordsWith_cons.mp h
    have hgiven := congrArg marks (flatten_step hstep)
    have hle := (marks_given hstep).1
    have hlater := ih hrest
    have hcommand := marks_append [c] rest
    rw [List.singleton_append] at hcommand
    rw [marks_append, marks_append] at hgiven
    rw [List.flatten_append, marks_append]
    omega

/-- A splitting that gives all single quotes and hashes hides nothing with them. -/
theorem without_hiding {command : List Char} {quoting : Quoting} {word : Option (List Char)} {out : List (List Char)}
    (h : wordsWith (fun _ _ => false) quoting word command = some out) (hquoting : quoting ≠ .comment)
    (hall : marks (word.getD []) + marks command ≤ marks out.flatten) :
    wordsWith hides quoting word command = some out := by
  induction command generalizing quoting word out with
  | nil => exact h
  | cons c rest ih =>
    obtain ⟨-, next, later, hstep, hrest, rfl⟩ := wordsWith_cons.mp h
    obtain ⟨hle, hlost⟩ := marks_given hstep
    have hgiven := congrArg marks (flatten_step hstep)
    have hlater := marks_le hrest
    have hcommand := marks_append [c] rest
    rw [List.singleton_append] at hcommand
    rw [marks_append, marks_append] at hgiven
    rw [List.flatten_append, marks_append] at hall
    have hkept : ¬(hides quoting c = true ∨ next.1 = .comment) := by
      intro hor
      have := hlost hquoting hor
      omega
    obtain ⟨hhides, hnext⟩ := not_or.mp hkept
    exact wordsWith_cons.mpr ⟨Bool.eq_false_iff.mpr hhides, next, later, hstep, ih hrest hnext (by omega), rfl⟩

theorem count_cons_eq (d c : Char) (rest : List Char) : (c :: rest).count d = [c].count d + rest.count d := by
  rw [← List.count_append, List.singleton_append]

theorem escaped_le {command : List Char} {quoting : Quoting} {word : Option (List Char)} {out : List (List Char)}
    (h : wordsWith hides quoting word command = some out) (hquoting : quoting ≠ .single) :
    escaped out.flatten ≤ escaped (word.getD []) + held quoting + command.count '\\' := by
  induction command generalizing quoting word out with
  | nil =>
    rw [eq_toList_of_finish h, Nat.add_assoc]
    exact Nat.le_add_right _ _
  | cons c rest ih =>
    obtain ⟨hhides, next, later, hstep, hrest, rfl⟩ := wordsWith_cons.mp h
    obtain ⟨hnext, hle⟩ := escaped_step hstep hquoting hhides
    have hlater := ih hrest hnext
    have hcommand := count_cons_eq '\\' c rest
    rw [List.flatten_append, escaped_append]
    omega

/-- A splitting that gives a double quote or a backslash for every backslash loses none of them. -/
theorem without_loss {command : List Char} {quoting : Quoting} {word : Option (List Char)} {out : List (List Char)}
    (h : wordsWith hides quoting word command = some out) (hquoting : quoting ≠ .single)
    (hall : escaped (word.getD []) + held quoting + command.count '\\' ≤ escaped out.flatten) :
    wordsWith lossy quoting word command = some out := by
  induction command generalizing quoting word out with
  | nil => exact h
  | cons c rest ih =>
    obtain ⟨hhides, next, later, hstep, hrest, rfl⟩ := wordsWith_cons.mp h
    obtain ⟨hnext, hle⟩ := escaped_step hstep hquoting hhides
    have hlater := escaped_le hrest hnext
    have hcommand := count_cons_eq '\\' c rest
    rw [List.flatten_append, escaped_append] at hall
    refine wordsWith_cons.mpr ⟨?_, next, later, hstep, ih hrest hnext (by omega), rfl⟩
    rw [lossy, hhides, Bool.false_or]
    cases hloses : losesBackslash quoting c with
    | false => rfl
    | true =>
      rw [hloses, Bool.toNat_true] at hle
      omega

/-- A splitting that gives back as many single quotes and hashes as there are, and a double quote or a backslash for every
backslash, quotes nothing with single quotes, has no comment and loses no backslash. -/
theorem strict_of_balance {command : List Char} {out : List (List Char)} (h : words command = some out)
    (hmarks : marks command ≤ marks out.flatten) (hescaped : command.count '\\' ≤ escaped out.flatten) :
    wordsWith lossy .bare none command = some out := by
  refine without_loss (without_hiding h (by simp) ?_) (by simp) ?_
  · simpa [marks] using hmarks
  · simpa [escaped, held] using hescaped

/-- What is split without ruling anything out is split. -/
theorem words_of_strict {ruledOut : Quoting → Char → Bool} {command : List Char} {quoting : Quoting}
    {word : Option (List Char)} {out : List (List Char)} (h : wordsWith ruledOut quoting word command = some out) :
    wordsWith (fun _ _ => false) quoting word command = some out := by
  induction command generalizing quoting word out with
  | nil => exact h
  | cons c rest ih =>
    obtain ⟨-, next, later, hstep, hrest, rfl⟩ := wordsWith_cons.mp h
    exact wordsWith_cons.mpr ⟨rfl, next, later, hstep, ih hrest, rfl⟩

end Innen.Common.Shell
