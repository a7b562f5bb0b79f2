import Mathlib.Algebra.GroupWithZero.Nat
import Innen.Journal.Model
import Innen.Trace.Routes

/-!
# Passages of a file

A text file is cut into passages: its lines, and a long line into parts of at most 4096 bytes that end where a character
ends. Blank parts are left out. A heading that names a speaker gives the role of what follows. Each passage has the
place of its bytes in the file and their hash.
-/

namespace Innen.Trace

open Common Graph Journal

/-! ## Bytes of characters -/

/-- How many bytes characters have. -/
def byteLen (cs : List Char) : ℕ := (cs.map Char.utf8Size).sum

@[simp] theorem byteLen_nil : byteLen [] = 0 := rfl

@[simp] theorem byteLen_cons (c : Char) (cs : List Char) : byteLen (c :: cs) = c.utf8Size + byteLen cs := by
  rw [byteLen, List.map_cons, List.sum_cons, byteLen]

@[simp] theorem byteLen_append (cs ds : List Char) : byteLen (cs ++ ds) = byteLen cs + byteLen ds := by
  rw [byteLen, List.map_append, List.sum_append, byteLen, byteLen]

theorem byteLen_flatten (pieces : List (List Char)) : byteLen pieces.flatten = (pieces.map byteLen).sum := by
  induction pieces with
  | nil => rfl
  | cons piece rest ih => rw [List.flatten_cons, byteLen_append, ih, List.map_cons, List.sum_cons]

/-- The bytes of characters. -/
def bytesOf (cs : List Char) : ByteArray := (String.ofList cs).toUTF8

/-! ## Parts of a line -/

/-- How long a part may be. -/
def partBytes : ℕ := 4096

/-- Cut a line into parts, each as long as may be; some room is left in the first one. -/
def cutParts (room : ℕ) (part : List Char) : List Char → List (List Char)
  | [] => if part = [] then [] else [part]
  | c :: rest =>
    if c.utf8Size ≤ room then cutParts (room - c.utf8Size) (part ++ [c]) rest
    else part :: cutParts (partBytes - c.utf8Size) [c] rest

/-- The parts are the line. -/
theorem flatten_cutParts (line : List Char) (room : ℕ) (part : List Char) :
    (cutParts room part line).flatten = part ++ line := by
  induction line generalizing room part with
  | nil =>
    rw [cutParts]
    split_ifs with hpart
    · rw [hpart]
      rfl
    · rw [List.flatten_singleton, List.append_nil]
  | cons c rest ih =>
    rw [cutParts]
    split_ifs
    · rw [ih, List.append_assoc, List.singleton_append]
    · rw [List.flatten_cons, ih, List.singleton_append]

/-! ## Passages -/

/-- `Passage`. -/
structure Passage where
  line : ℕ
  endLine : ℕ
  role : String
  timestamp : Option String
  text : String
  hash : String
  startByte : Option ℕ
  endByte : Option ℕ
  sourcePointer : Option String
  scalarSha256 : Option String
  ordinal : Option ℕ
deriving DecidableEq

/-- `PassageScan`. -/
structure PassageScan where
  passages : List Passage
  records : ℕ
  truncated : Bool

variable (P : Platform) (T : Tables)

/-- The passage of a part of a line. -/
def passageOf (line : ℕ) (role : String) (start : ℕ) (part : List Char) : Passage :=
  ⟨line, line, role, none, String.ofList part, P.sha256Hex (bytesOf part), some start, some (start + byteLen part), none,
    none, none⟩

/-- Push the parts of a line that are not blank; say if there are more of them than may be. -/
def pushParts (limit line : ℕ) (role : String) : ℕ → List (List Char) → List Passage → List Passage × Bool
  | _, [], out => (out, false)
  | start, part :: rest, out =>
    if part.all isWhitespace then pushParts limit line role (start + byteLen part) rest out
    else if limit ≤ out.length then (out, true)
    else pushParts limit line role (start + byteLen part) rest (out ++ [passageOf P line role start part])

/-- The role of a line and of what follows it. -/
def roleAfter (role : String) (line : List Char) : String :=
  let heading := T.lower (trim (trimMatches '*' (trim (trimMatches '#' (trim (String.ofList line))))))
  if heading = "user" ∨ heading = "使用者" then "user"
  else if heading = "assistant" ∨ heading = "助理" then "assistant"
  else role

/-- Read the lines that are left, behind a number of lines. -/
def scanLines (limit : ℕ) : ℕ → ℕ → String → List (List Char) → List Passage → PassageScan
  | i, _, _, [], out => ⟨out, i, false⟩
  | i, start, role, line :: rest, out =>
    if limit ≤ i then ⟨out, i, true⟩
    else
      let pushed := pushParts P limit (i + 1) (roleAfter T role line) start (cutParts partBytes [] line) out
      if pushed.2 then ⟨pushed.1, i + 1, true⟩
      else scanLines limit (i + 1) (start + byteLen line) (roleAfter T role line) rest pushed.1

/-- `file_passages`. -/
def filePassages (text : List Char) (limit : ℕ) : PassageScan :=
  scanLines P T limit 0 0 "source" (splitInclusive '\n' text) []

/-! ## Where passages are -/

/-- A passage is a part of a text: what is before it has as many bytes as its place says. -/
def IsPart (text : List Char) (p : Passage) : Prop :=
  ∃ before later, text = before ++ p.text.toList ++ later ∧ p.startByte = some (byteLen before) ∧
    p.endByte = some (byteLen before + byteLen p.text.toList) ∧ p.hash = P.sha256Hex (bytesOf p.text.toList)

variable {P T}

theorem pushParts_isPart {limit line : ℕ} {role : String} {text : List Char} (parts : List (List Char))
    {before : List Char} (later : List Char) {out : List Passage} (htext : text = before ++ parts.flatten ++ later)
    (hout : ∀ p ∈ out, IsPart P text p) :
    ∀ p ∈ (pushParts P limit line role (byteLen before) parts out).1, IsPart P text p := by
  induction parts generalizing before out with
  | nil => exact hout
  | cons part rest ih =>
    rw [List.flatten_cons] at htext
    have hrest : text = (before ++ part) ++ rest.flatten ++ later := by simpa using htext
    rw [pushParts]
    split_ifs
    · rw [← byteLen_append]
      exact ih hrest hout
    · exact hout
    · rw [← byteLen_append]
      refine ih hrest fun p hp => ?_
      rcases List.mem_append.mp hp with hp | hp
      · exact hout p hp
      · rw [List.mem_singleton.mp hp]
        refine ⟨before, rest.flatten ++ later, ?_, rfl, ?_, ?_⟩
        · simpa [passageOf] using htext
        · simp [passageOf]
        · simp [passageOf]

theorem scanLines_isPart {limit : ℕ} {text : List Char} (lines : List (List Char)) {i : ℕ} {role : String}
    (before : List Char) {out : List Passage} (htext : text = before ++ lines.flatten)
    (hout : ∀ p ∈ out, IsPart P text p) :
    ∀ p ∈ (scanLines P T limit i (byteLen before) role lines out).passages, IsPart P text p := by
  induction lines generalizing i role before out with
  | nil => exact hout
  | cons line rest ih =>
    rw [List.flatten_cons] at htext
    have hpushed : ∀ p ∈ (pushParts P limit (i + 1) (roleAfter T role line) (byteLen before) (cutParts partBytes [] line)
        out).1, IsPart P text p := by
      refine pushParts_isPart _ rest.flatten ?_ hout
      rw [flatten_cutParts, List.nil_append, htext, List.append_assoc]
    unfold scanLines
    dsimp only
    split_ifs
    · exact hout
    · exact hpushed
    · rw [← byteLen_append]
      exact ih _ (by rw [htext, List.append_assoc]) hpushed

/-- Each passage of a file is the part of its text at its place. -/
theorem filePassages_isPart {text : List Char} {limit : ℕ} :
    ∀ p ∈ (filePassages P T text limit).passages, IsPart P text p :=
  scanLines_isPart (splitInclusive '\n' text) [] (by rw [List.nil_append, splitInclusive_flatten])
    fun p hp => absurd hp List.not_mem_nil

/-! ## What is left out -/

theorem pushParts_texts {limit line : ℕ} {role : String} (parts : List (List Char)) {start : ℕ} {out : List Passage}
    (hall : (pushParts P limit line role start parts out).2 = false) :
    (pushParts P limit line role start parts out).1.map (·.text.toList) =
      out.map (·.text.toList) ++ parts.filter fun part => !part.all isWhitespace := by
  induction parts generalizing start out with
  | nil => rw [pushParts, List.filter_nil, List.append_nil]
  | cons part rest ih =>
    rw [pushParts] at hall ⊢
    by_cases hblank : part.all isWhitespace = true
    · rw [if_pos hblank] at hall ⊢
      rw [ih hall, List.filter_cons_of_neg (by simp [hblank])]
    rw [if_neg hblank] at hall ⊢
    by_cases hfull : limit ≤ out.length
    · rw [if_pos hfull] at hall
      cases hall
    · rw [if_neg hfull] at hall ⊢
      rw [ih hall, List.filter_cons_of_pos (by simp [hblank]), List.map_append, List.append_assoc, List.map_singleton,
        passageOf, String.toList_ofList, List.singleton_append]

theorem scanLines_texts {limit : ℕ} (lines : List (List Char)) {i start : ℕ} {role : String} {out : List Passage}
    (hall : (scanLines P T limit i start role lines out).truncated = false) :
    (scanLines P T limit i start role lines out).passages.map (·.text.toList) =
      out.map (·.text.toList) ++ (lines.flatMap (cutParts partBytes [])).filter fun part => !part.all isWhitespace := by
  induction lines generalizing i start role out with
  | nil => rw [scanLines, List.flatMap_nil, List.filter_nil, List.append_nil]
  | cons line rest ih =>
    unfold scanLines at hall ⊢
    dsimp only at hall ⊢
    split_ifs at hall ⊢ with hfull hpushed
    rw [ih hall, pushParts_texts _ (Bool.eq_false_iff.mpr hpushed), List.flatMap_cons, List.filter_append,
      List.append_assoc]

/-- Where nothing was cut off, the passages are all parts of lines that are not blank. -/
theorem filePassages_texts {text : List Char} {limit : ℕ} (hall : (filePassages P T text limit).truncated = false) :
    (filePassages P T text limit).passages.map (·.text.toList) =
      ((splitInclusive '\n' text).flatMap (cutParts partBytes [])).filter fun part => !part.all isWhitespace :=
  (scanLines_texts _ hall).trans (List.nil_append _)

end Innen.Trace
