import Innen.Credentials.Matchers
import Mathlib.Data.Bool.AllAny
import Mathlib.Data.Nat.Find

/-!
# The credential matchers agree

What each pattern accepts at a place is told apart from the loops (`Pattern.Accepts`). A pattern is reported iff it
accepts somewhere (`mem_scanCredentials`), and the offset of seven patterns is the first place where they accept. The
offset of `upstash-token` is the first place of its name, which agrees with the other loop exactly where that name is
assigned to (`offset_agrees_iff`).
-/

namespace Innen.Credentials.Bytes

open Innen.Common

/-! ## Patterns -/

/-- The patterns. -/
inductive Pattern
  | awsAccessKey
  | githubToken
  | privateKey
  | clientSecret
  | slackToken
  | anthropicKey
  | openaiKey
  | upstashToken
deriving DecidableEq

/-- The name of a pattern. -/
def Pattern.name : Pattern → String
  | .awsAccessKey => "aws-access-key"
  | .githubToken => "github-token"
  | .privateKey => "private-key"
  | .clientSecret => "client-secret"
  | .slackToken => "slack-token"
  | .anthropicKey => "anthropic-key"
  | .openaiKey => "openai-key"
  | .upstashToken => "upstash-token"

/-- A text with so many bytes of a kind behind it at least. -/
def RunAt (needle : String) (isTail : UInt8 → Bool) (least : ℕ) (bytes : List UInt8) (i : ℕ) : Prop :=
  ∃ tail, least ≤ tail.length ∧ (∀ b ∈ tail, isTail b = true) ∧ ascii needle ++ tail <+: bytes.drop i

/-- A text that is assigned to. -/
def AssignedAt (needle : String) (bytes : List UInt8) (i : ℕ) : Prop :=
  ∃ space sep, (∀ b ∈ space, isAsciiWs b = true) ∧ sep ∈ ascii ":=" ∧ ascii needle ++ (space ++ [sep]) <+: bytes.drop i

/-- What a pattern accepts at a place of some bytes. -/
def Pattern.Accepts (bytes : List UInt8) (i : ℕ) : Pattern → Prop
  | .awsAccessKey => ∃ tail, tail.length = 16 ∧ (∀ b ∈ tail, isAwsTail b = true) ∧ ascii "AKIA" ++ tail <+: bytes.drop i
  | .githubToken => RunAt "ghp_" isGhpTail 36 bytes i
  | .privateKey => ∃ middle, 10 ∉ middle ∧ ascii "-----BEGIN " ++ (middle ++ ascii "PRIVATE KEY") <+: bytes.drop i
  | .clientSecret => AssignedAt "client_secret" bytes i
  | .slackToken => ∃ kind ∈ ["xoxb-", "xoxa-", "xoxp-"], ascii kind <+: bytes.drop i
  | .anthropicKey => startsToken bytes i = true ∧ RunAt "sk-ant-" isAnthropicTail 1 bytes i
  | .openaiKey => startsToken bytes i = true ∧ RunAt "sk-" isOpenaiTail 20 bytes i
  | .upstashToken => AssignedAt "UPSTASH_REDIS_REST_TOKEN" bytes i

/-- The first place with a property. -/
def IsFirst (P : ℕ → Prop) (i : ℕ) : Prop := P i ∧ ∀ j < i, ¬P j

theorem IsFirst.unique {P : ℕ → Prop} {i j : ℕ} (hi : IsFirst P i) (hj : IsFirst P j) : i = j := by
  rcases lt_trichotomy i j with hlt | heq | hgt
  · exact absurd hi.1 (hj.2 i hlt)
  · exact heq
  · exact absurd hj.1 (hi.2 j hgt)

theorem isFirst_congr {P Q : ℕ → Prop} (h : ∀ i, P i ↔ Q i) {i : ℕ} : IsFirst P i ↔ IsFirst Q i :=
  and_congr (h i) (forall₂_congr fun j _ => not_congr (h j))

/-- The first place behind so many bytes. -/
theorem isFirst_shift {P Q : ℕ → Prop} {n : ℕ} (h : ∀ i, P i ↔ ∃ j, i = n + j ∧ Q j) {i : ℕ} :
    IsFirst P i ↔ ∃ j, i = n + j ∧ IsFirst Q j := by
  constructor
  · rintro ⟨hi, hmin⟩
    obtain ⟨j, rfl, hj⟩ := (h i).mp hi
    exact ⟨j, rfl, hj, fun k hk hQ => hmin (n + k) (Nat.add_lt_add_left hk n) ((h _).mpr ⟨k, rfl, hQ⟩)⟩
  · rintro ⟨j, rfl, hj, hmin⟩
    refine ⟨(h _).mpr ⟨j, rfl, hj⟩, fun i hi hP => ?_⟩
    obtain ⟨k, rfl, hk⟩ := (h i).mp hP
    exact hmin k (Nat.lt_of_add_lt_add_left hi) hk

theorem exists_isFirst {P : ℕ → Prop} : (∃ i, IsFirst P i) ↔ ∃ i, P i := by
  classical
  refine ⟨fun ⟨i, hi⟩ => ⟨i, hi.1⟩, fun h => ⟨Nat.find h, Nat.find_spec h, fun j hj => Nat.find_min h hj⟩⟩

/-! ## The loops -/

variable {bytes : List UInt8} {i : ℕ}

theorem findPlace_eq_some {least width : ℕ} {check : List UInt8 → ℕ → Bool} {P : ℕ → Prop} (hwidth : width ≤ least)
    (hcheck : ∀ j, check bytes j = true ↔ P j) (hroom : ∀ j, P j → j + least ≤ bytes.length) :
    findPlace least width check bytes = some i ↔ IsFirst P i := by
  unfold findPlace
  split_ifs with hshort
  · refine ⟨False.elim, fun h => ?_⟩
    have := hroom i h.1
    omega
  · rw [List.find?_range_eq_some, hcheck, List.mem_range]
    refine ⟨fun ⟨hi, _, hmin⟩ => ⟨hi, fun j hj hP => ?_⟩, fun h => ⟨h.1, ?_, fun j hj => ?_⟩⟩
    · have hfalse := hmin j hj
      rw [(hcheck j).mpr hP] at hfalse
      exact absurd hfalse (by decide)
    · have := hroom i h.1
      omega
    · rw [Bool.not_eq_true', Bool.eq_false_iff]
      exact fun hj' => h.2 j hj ((hcheck j).mp hj')

theorem anyPlace_eq (least width : ℕ) (check : List UInt8 → ℕ → Bool) (bytes : List UInt8) :
    anyPlace least width check bytes = (findPlace least width check bytes).isSome := by
  unfold anyPlace findPlace
  split_ifs
  · rfl
  · rw [Bool.eq_iff_iff, List.any_eq_true, List.find?_isSome]

theorem anyPlace_iff {least width : ℕ} {check : List UInt8 → ℕ → Bool} {P : ℕ → Prop} (hwidth : width ≤ least)
    (hcheck : ∀ j, check bytes j = true ↔ P j) (hroom : ∀ j, P j → j + least ≤ bytes.length) :
    anyPlace least width check bytes = true ↔ ∃ i, P i := by
  rw [anyPlace_eq, Option.isSome_iff_exists, ← exists_isFirst (P := P)]
  exact exists_congr fun i => findPlace_eq_some hwidth hcheck hroom

/-! ## The checks -/

/-- A text that is not empty and at a place ends within the bytes. -/
theorem room_of_prefix {word : List UInt8} (hpos : 0 < word.length) (h : word <+: bytes.drop i) :
    i + word.length ≤ bytes.length := by
  have hle := h.length_le
  rw [List.length_drop] at hle
  omega

theorem startsAt_iff {needle : String} : startsAt needle bytes i = true ↔ ascii needle <+: bytes.drop i :=
  List.isPrefixOf_iff_prefix

/-- A text is at a place and another one behind it. -/
theorem append_prefix_drop {word more : List UInt8} :
    word ++ more <+: bytes.drop i ↔ word <+: bytes.drop i ∧ more <+: bytes.drop (i + word.length) := by
  constructor
  · rintro ⟨rest, hrest⟩
    rw [List.append_assoc] at hrest
    refine ⟨⟨more ++ rest, hrest⟩, rest, ?_⟩
    rw [← List.drop_drop, ← hrest, List.drop_left]
  · rintro ⟨⟨rest, hrest⟩, hmore⟩
    rw [← List.drop_drop, ← hrest, List.drop_left] at hmore
    rw [← hrest]
    exact (List.prefix_append_right_inj word).mpr hmore

/-- A run of so many bytes is at the start iff the longest run is so long. -/
theorem le_length_takeWhile {isTail : UInt8 → Bool} {least : ℕ} {text : List UInt8} :
    least ≤ (text.takeWhile isTail).length ↔
      ∃ tail, least ≤ tail.length ∧ (∀ b ∈ tail, isTail b = true) ∧ tail <+: text := by
  refine ⟨fun h => ⟨_, h, fun b hb => List.mem_takeWhile_imp hb, List.takeWhile_prefix isTail⟩, ?_⟩
  rintro ⟨tail, hlen, htail, rest, rfl⟩
  rw [List.takeWhile_append_of_pos htail, List.length_append]
  omega

theorem runCheck_iff {needle : String} {isTail : UInt8 → Bool} {least : ℕ} :
    runCheck needle isTail least bytes i = true ↔ RunAt needle isTail least bytes i := by
  rw [runCheck, Bool.and_eq_true, startsAt_iff, decide_eq_true_iff, le_length_takeWhile, RunAt]
  constructor
  · rintro ⟨hneedle, tail, hlen, htail, hstarts⟩
    exact ⟨tail, hlen, htail, append_prefix_drop.mpr ⟨hneedle, hstarts⟩⟩
  · rintro ⟨tail, hlen, htail, hstarts⟩
    obtain ⟨hneedle, hstarts⟩ := append_prefix_drop.mp hstarts
    exact ⟨hneedle, tail, hlen, htail, hstarts⟩

theorem getElem?_length_takeWhile {α : Type*} (p : α → Bool) (l : List α) :
    l[(l.takeWhile p).length]? = (l.dropWhile p).head? := by
  induction l with
  | nil => rfl
  | cons a l ih =>
    by_cases ha : p a = true
    · rw [List.takeWhile_cons_of_pos ha, List.dropWhile_cons_of_pos ha, List.length_cons, List.getElem?_cons_succ, ih]
    · rw [List.takeWhile_cons_of_neg ha, List.dropWhile_cons_of_neg ha]
      rfl

/-- A colon or an equals sign is no white space. -/
theorem isAsciiWs_sep : ∀ b ∈ ascii ":=", isAsciiWs b = false := List.all_iff_forall_prop.mp (by decide)

theorem assignedCheck_iff {needle : String} : assignedCheck needle bytes i = true ↔ AssignedAt needle bytes i := by
  rw [assignedCheck, Bool.and_eq_true, startsAt_iff, AssignedAt]
  generalize htext : bytes.drop (i + (ascii needle).length) = text
  have hspace : ((text[(text.takeWhile isAsciiWs).length]?).any fun b => decide (b ∈ ascii ":=")) = true ↔
      ∃ space sep, (∀ b ∈ space, isAsciiWs b = true) ∧ sep ∈ ascii ":=" ∧ space ++ [sep] <+: text := by
    constructor
    · intro h
      rw [getElem?_length_takeWhile] at h
      rcases hrest : text.dropWhile isAsciiWs with _ | ⟨sep, rest⟩
      · rw [hrest] at h
        exact absurd h (by decide)
      · rw [hrest] at h
        refine ⟨text.takeWhile isAsciiWs, sep, fun b hb => List.mem_takeWhile_imp hb, of_decide_eq_true h, rest, ?_⟩
        rw [List.append_assoc, List.singleton_append, ← hrest, List.takeWhile_append_dropWhile]
    · rintro ⟨space, sep, hws, hsep, rest, rfl⟩
      have hblank : ¬isAsciiWs sep = true := Bool.eq_false_iff.mp (isAsciiWs_sep sep hsep)
      rw [getElem?_length_takeWhile, List.append_assoc, List.dropWhile_append_of_pos hws, List.singleton_append,
        List.dropWhile_cons_of_neg hblank, List.head?_cons]
      exact decide_eq_true hsep
  rw [hspace]
  constructor
  · rintro ⟨hneedle, space, sep, hws, hsep, hstarts⟩
    exact ⟨space, sep, hws, hsep, append_prefix_drop.mpr ⟨hneedle, htext ▸ hstarts⟩⟩
  · rintro ⟨space, sep, hws, hsep, hstarts⟩
    obtain ⟨hneedle, hstarts⟩ := append_prefix_drop.mp hstarts
    exact ⟨hneedle, space, sep, hws, hsep, htext ▸ hstarts⟩

theorem awsCheck_iff : awsCheck bytes i = true ↔ Pattern.Accepts bytes i .awsAccessKey := by
  rw [awsCheck, Bool.and_eq_true, Bool.and_eq_true, startsAt_iff, decide_eq_true_iff, List.all_eq_true, Pattern.Accepts]
  constructor
  · rintro ⟨⟨hneedle, hroom⟩, hall⟩
    refine ⟨(bytes.drop (i + 4)).take 16, ?_, hall, append_prefix_drop.mpr ⟨hneedle, List.take_prefix 16 _⟩⟩
    rw [List.length_take, List.length_drop]
    omega
  · rintro ⟨tail, hlen, hall, hstarts⟩
    have hroom := room_of_prefix (by rw [List.length_append, hlen]; omega) hstarts
    obtain ⟨hneedle, hstarts⟩ := append_prefix_drop.mp hstarts
    have htail : (bytes.drop (i + 4)).take 16 = tail := hlen ▸ (List.prefix_iff_eq_take.mp hstarts).symm
    rw [List.length_append, hlen] at hroom
    exact ⟨⟨hneedle, hroom⟩, htail ▸ hall⟩

theorem slackCheck_iff : slackCheck bytes i = true ↔ Pattern.Accepts bytes i .slackToken := by
  rw [slackCheck, Bool.or_eq_true, Bool.or_eq_true, startsAt_iff, startsAt_iff, startsAt_iff, Pattern.Accepts]
  simp [or_assoc]

theorem anthropicCheck_iff : anthropicCheck bytes i = true ↔ Pattern.Accepts bytes i .anthropicKey := by
  rw [anthropicCheck, Bool.and_eq_true, Bool.and_eq_true, Bool.and_eq_true, startsAt_iff, decide_eq_true_iff,
    Pattern.Accepts, ← runCheck_iff, runCheck, Bool.and_eq_true, startsAt_iff, decide_eq_true_iff]
  have htail : (i + 7 < bytes.length ∧ (bytes[i + 7]?).any isAnthropicTail = true) ↔
      1 ≤ ((bytes.drop (i + (ascii "sk-ant-").length)).takeWhile isAnthropicTail).length := by
    have hlength : (ascii "sk-ant-").length = 7 := rfl
    have hhead : (bytes.drop (i + 7)).head? = bytes[i + 7]? := List.head?_drop
    rw [hlength, ← hhead]
    rcases hdrop : bytes.drop (i + 7) with _ | ⟨b, rest⟩
    · simp
    · have hlen := congrArg List.length hdrop
      rw [List.length_drop, List.length_cons] at hlen
      by_cases hb : isAnthropicTail b = true
      · rw [List.takeWhile_cons_of_pos hb]
        simp [hb]
        omega
      · rw [List.takeWhile_cons_of_neg hb]
        simp [hb]
  rw [← htail]
  tauto

theorem openaiCheck_iff : openaiCheck bytes i = true ↔ Pattern.Accepts bytes i .openaiKey := by
  rw [openaiCheck, Bool.and_eq_true, runCheck_iff, Pattern.Accepts]

/-! ## Places and room -/

theorem RunAt.room {needle : String} {isTail : UInt8 → Bool} {least n : ℕ} (h : RunAt needle isTail least bytes i)
    (hn : n ≤ (ascii needle).length + least) (hpos : 0 < (ascii needle).length) : i + n ≤ bytes.length := by
  obtain ⟨tail, hlen, -, hstarts⟩ := h
  have hroom := room_of_prefix (by rw [List.length_append]; omega) hstarts
  rw [List.length_append] at hroom
  omega

theorem AssignedAt.startsAt {needle : String} (h : AssignedAt needle bytes i) :
    Bytes.startsAt needle bytes i = true := by
  obtain ⟨space, sep, -, -, hstarts⟩ := h
  exact startsAt_iff.mpr (append_prefix_drop.mp hstarts).1

theorem AssignedAt.room {needle : String} (h : AssignedAt needle bytes i) (hpos : 0 < (ascii needle).length) :
    i + (ascii needle).length ≤ bytes.length :=
  room_of_prefix hpos (startsAt_iff.mp h.startsAt)

/-! ## Private keys in a line -/

/-- A marker in a line, with `PRIVATE KEY` behind it. -/
def KeyAt (line : List UInt8) (i : ℕ) : Prop :=
  ∃ middle, ascii "-----BEGIN " ++ (middle ++ ascii "PRIVATE KEY") <+: line.drop i

theorem findText_eq_some {needle : String} (hpos : 0 < (ascii needle).length) :
    findText needle bytes = some i ↔ IsFirst (fun j => ascii needle <+: bytes.drop j) i := by
  rw [findText, List.find?_range_eq_some, startsAt_iff, List.mem_range]
  refine ⟨fun ⟨hi, _, hmin⟩ => ⟨hi, fun j hj hstarts => ?_⟩, fun h => ⟨h.1, ?_, fun j hj => ?_⟩⟩
  · have hfalse := hmin j hj
    rw [startsAt_iff.mpr hstarts] at hfalse
    exact absurd hfalse (by decide)
  · have := room_of_prefix hpos h.1
    omega
  · rw [Bool.not_eq_true', Bool.eq_false_iff]
    exact fun hstarts => h.2 j hj (startsAt_iff.mp hstarts)

theorem keyAt_iff {line : List UInt8} : KeyAt line i ↔ ascii "-----BEGIN " <+: line.drop i ∧
    ∃ k, i + (ascii "-----BEGIN ").length ≤ k ∧ ascii "PRIVATE KEY" <+: line.drop k := by
  constructor
  · rintro ⟨middle, hstarts⟩
    obtain ⟨hmarker, hstarts⟩ := append_prefix_drop.mp hstarts
    exact ⟨hmarker, _, Nat.le_add_right _ middle.length, (append_prefix_drop.mp hstarts).2⟩
  · rintro ⟨hmarker, k, hk, hkey⟩
    obtain ⟨m, rfl⟩ := Nat.exists_eq_add_of_le hk
    refine ⟨(line.drop (i + (ascii "-----BEGIN ").length)).take m, append_prefix_drop.mpr ⟨hmarker, ?_⟩⟩
    rw [← List.drop_drop] at hkey
    have h := (List.prefix_append_right_inj ((line.drop (i + (ascii "-----BEGIN ").length)).take m)).mpr hkey
    rwa [List.take_append_drop] at h

/-- The first marker with `PRIVATE KEY` behind it is the first marker. -/
theorem privateKeyIn_eq_some {line : List UInt8} : privateKeyIn line = some i ↔ IsFirst (KeyAt line) i := by
  have hmarker : 0 < (ascii "-----BEGIN ").length := by decide
  have hkey : 0 < (ascii "PRIVATE KEY").length := by decide
  have hsome : ∀ text, (findText "PRIVATE KEY" text).isSome = true ↔ ∃ m, ascii "PRIVATE KEY" <+: text.drop m :=
    fun text => by
      rw [Option.isSome_iff_exists, ← exists_isFirst (P := fun m => ascii "PRIVATE KEY" <+: text.drop m)]
      exact exists_congr fun m => findText_eq_some hkey
  have hiff : privateKeyIn line = some i ↔ findText "-----BEGIN " line = some i ∧
      ∃ m, ascii "PRIVATE KEY" <+: (line.drop (i + (ascii "-----BEGIN ").length)).drop m := by
    rw [← hsome, privateKeyIn, Option.bind_eq_bind, Option.bind_eq_some_iff]
    constructor
    · rintro ⟨pos, hpos, hif⟩
      split_ifs at hif with hbehind
      obtain rfl := Option.some.inj hif
      exact ⟨hpos, hbehind⟩
    · rintro ⟨hpos, hbehind⟩
      exact ⟨i, hpos, if_pos hbehind⟩
  rw [hiff, findText_eq_some hmarker]
  constructor
  · rintro ⟨⟨hstarts, hmin⟩, m, hm⟩
    rw [List.drop_drop] at hm
    exact ⟨keyAt_iff.mpr ⟨hstarts, _, Nat.le_add_right _ m, hm⟩, fun j hj h => hmin j hj (keyAt_iff.mp h).1⟩
  · rintro ⟨hkeyAt, hmin⟩
    obtain ⟨hstarts, k, hk, hbehind⟩ := keyAt_iff.mp hkeyAt
    obtain ⟨m, rfl⟩ := Nat.exists_eq_add_of_le hk
    refine ⟨⟨hstarts, fun j hj hj' => hmin j hj (keyAt_iff.mpr ⟨hj', _, ?_, hbehind⟩)⟩, m, ?_⟩
    · omega
    · rwa [List.drop_drop]

/-- A text whose last byte is not in what is added is in the bytes before. -/
theorem prefix_of_last {word l more : List UInt8} {b : UInt8} (h : word ++ [b] <+: l ++ more) (hb : b ∉ more) :
    word ++ [b] <+: l := by
  obtain ⟨rest, hrest⟩ := h
  rcases List.append_eq_append_iff.mp hrest with ⟨extra, hl, -⟩ | ⟨extra, hword, hmore⟩
  · exact ⟨extra, hl.symm⟩
  · rcases List.eq_nil_or_concat extra with rfl | ⟨init, last, rfl⟩
    · exact ⟨[], by rw [List.append_nil, hword, List.append_nil]⟩
    · rw [List.concat_eq_append, ← List.append_assoc] at hword
      obtain ⟨-, hlast⟩ := List.append_inj' hword rfl
      obtain rfl := List.singleton_inj.mp hlast
      exact absurd (by rw [hmore]; simp) hb

/-- The end of a line is in no match. -/
theorem keyAt_append {line ending : List UInt8} (hending : 89 ∉ ending) :
    KeyAt (line ++ ending) i ↔ KeyAt line i := by
  have hkey : ascii "PRIVATE KEY" = ascii "PRIVATE KE" ++ [89] := rfl
  constructor
  · rintro ⟨middle, hstarts⟩
    refine ⟨middle, ?_⟩
    rw [hkey, ← List.append_assoc, ← List.append_assoc] at hstarts ⊢
    rw [List.drop_append] at hstarts
    exact prefix_of_last hstarts fun hmem => hending (List.mem_of_mem_drop hmem)
  · rintro ⟨middle, hstarts⟩
    refine ⟨middle, hstarts.trans ?_⟩
    rw [List.drop_append]
    exact List.prefix_append _ _

/-! ## Private keys in a text -/

/-- Bytes cut into lines: newlines are at the end of lines, and only the last line may have none. -/
inductive Cut : List (List UInt8) → Prop
  | nil : Cut []
  | last {line : List UInt8} : 10 ∉ line → Cut [line]
  | line {line : List UInt8} {rest : List (List UInt8)} : 10 ∉ line → Cut rest → Cut ((line ++ [10]) :: rest)

theorem cut_splitBytes (bytes : List UInt8) : Cut (splitBytes bytes) := by
  induction bytes with
  | nil => exact .nil
  | cons b bytes ih =>
    rw [splitBytes]
    split_ifs with hb
    · rw [hb]
      have hnil : (10 : UInt8) ∉ [] := List.not_mem_nil
      exact Cut.line hnil ih
    · have hcons : ∀ line : List UInt8, 10 ∉ line → 10 ∉ b :: line := fun line hline hmem =>
        (List.mem_cons.mp hmem).elim (fun h => hb h.symm) hline
      rcases hsplit : splitBytes bytes with _ | ⟨piece, pieces⟩
      · exact .last (hcons [] List.not_mem_nil)
      · rw [hsplit] at ih
        cases ih with
        | last hline => exact .last (hcons _ hline)
        | line hline hrest => exact Cut.line (hcons _ hline) hrest

/-- In a line, what is between the marker and `PRIVATE KEY` has no newline. -/
theorem accepts_line {line : List UInt8} (hline : 10 ∉ line) :
    Pattern.Accepts line i .privateKey ↔ KeyAt line i := by
  refine ⟨fun ⟨middle, _, hstarts⟩ => ⟨middle, hstarts⟩, fun ⟨middle, hstarts⟩ => ⟨middle, fun hmem => ?_, hstarts⟩⟩
  exact hline (List.mem_of_mem_drop (hstarts.subset (by simp [hmem])))

theorem prefix_of_not_mem {word l more : List UInt8} {b : UInt8} (h : word <+: l ++ b :: more) (hb : b ∉ word) :
    word <+: l := by
  obtain ⟨rest, hrest⟩ := h
  rcases List.append_eq_append_iff.mp hrest with ⟨extra, hl, -⟩ | ⟨extra, hword, hmore⟩
  · exact ⟨extra, hl.symm⟩
  · rcases extra with _ | ⟨c, extra⟩
    · exact ⟨[], by rw [List.append_nil, hword, List.append_nil]⟩
    · obtain ⟨rfl, -⟩ := List.cons_eq_cons.mp hmore
      exact absurd (by rw [hword]; simp) hb

/-- A match is in one line. -/
theorem accepts_lines {line rest : List UInt8} (hline : 10 ∉ line) :
    Pattern.Accepts (line ++ [10] ++ rest) i .privateKey ↔
      KeyAt line i ∨ ∃ j, i = (line ++ [10]).length + j ∧ Pattern.Accepts rest j .privateKey := by
  constructor
  · rintro ⟨middle, hmiddle, hstarts⟩
    by_cases hi : i ≤ line.length
    · have hword : 10 ∉ ascii "-----BEGIN " ++ (middle ++ ascii "PRIVATE KEY") := fun hmem => by
        rcases List.mem_append.mp hmem with h | h
        · exact absurd h (by decide)
        · exact (List.mem_append.mp h).elim hmiddle fun h => absurd h (by decide)
      rw [List.append_assoc, List.drop_append_of_le_length hi] at hstarts
      exact .inl ⟨middle, prefix_of_not_mem hstarts hword⟩
    · have hlen : (line ++ [10]).length = line.length + 1 := List.length_append
      obtain ⟨j, rfl⟩ := Nat.exists_eq_add_of_le (show (line ++ [10]).length ≤ i by omega)
      rw [List.drop_length_add_append] at hstarts
      exact .inr ⟨j, rfl, middle, hmiddle, hstarts⟩
  · rintro (hkey | ⟨j, rfl, middle, hmiddle, hstarts⟩)
    · obtain ⟨middle, hmiddle, hstarts⟩ := (accepts_line hline).mpr hkey
      refine ⟨middle, hmiddle, hstarts.trans ?_⟩
      rw [List.append_assoc, List.drop_append]
      exact List.prefix_append _ _
    · exact ⟨middle, hmiddle, by rwa [List.drop_length_add_append]⟩

theorem KeyAt.le_length {line : List UInt8} (h : KeyAt line i) : i ≤ line.length := by
  have hroom := room_of_prefix (by decide) (keyAt_iff.mp h).1
  omega

/-- The loop over the lines finds the first match. -/
theorem privateKeyFrom_eq_some {lines : List (List UInt8)} (h : Cut lines) {base o : ℕ} :
    privateKeyFrom base lines = some o ↔
      ∃ i, o = base + i ∧ IsFirst (fun i => Pattern.Accepts lines.flatten i .privateKey) i := by
  induction h generalizing base with
  | nil =>
    rw [privateKeyFrom]
    refine ⟨fun h => absurd h.symm (Option.some_ne_none o), fun ⟨i, _, ⟨middle, _, hstarts⟩, _⟩ => ?_⟩
    have hroom := room_of_prefix (by decide) (append_prefix_drop.mp hstarts).1
    rw [List.flatten_nil, List.length_nil, show (ascii "-----BEGIN ").length = 11 from rfl] at hroom
    omega
  | @last line hline =>
    have haccepts : ∀ i, Pattern.Accepts [line].flatten i .privateKey ↔ KeyAt line i := fun i => by
      rw [List.flatten_singleton]
      exact accepts_line hline
    simp only [isFirst_congr haccepts, ← privateKeyIn_eq_some]
    rw [privateKeyFrom]
    rcases privateKeyIn line with _ | pos
    · exact ⟨fun h => absurd h.symm (Option.some_ne_none o), fun ⟨i, _, h⟩ => absurd h.symm (Option.some_ne_none i)⟩
    · exact ⟨fun h => ⟨pos, (Option.some.inj h).symm, rfl⟩, fun ⟨i, ho, h⟩ => by rw [ho, Option.some.inj h]⟩
  | @line line rest hline hrest ih =>
    have haccepts : ∀ i, Pattern.Accepts ((line ++ [10]) :: rest).flatten i .privateKey ↔
        KeyAt line i ∨ ∃ j, i = (line ++ [10]).length + j ∧ Pattern.Accepts rest.flatten j .privateKey := fun i => by
      rw [List.flatten_cons]
      exact accepts_lines hline
    have hkey : ∀ i, KeyAt (line ++ [10]) i ↔ KeyAt line i := fun i => keyAt_append (by decide)
    have hin : ∀ i, privateKeyIn (line ++ [10]) = some i ↔ IsFirst (KeyAt line) i := fun i => by
      rw [privateKeyIn_eq_some, isFirst_congr hkey]
    simp only [isFirst_congr haccepts]
    rw [privateKeyFrom]
    rcases hpos : privateKeyIn (line ++ [10]) with _ | pos
    · have hnone : ∀ i, ¬KeyAt line i := fun i hi => by
        obtain ⟨j, hj⟩ := exists_isFirst.mpr ⟨i, hi⟩
        rw [(hin j).mpr hj] at hpos
        exact absurd hpos (Option.some_ne_none j)
      have hshift : ∀ i, (KeyAt line i ∨ ∃ j, i = (line ++ [10]).length + j ∧
          Pattern.Accepts rest.flatten j .privateKey) ↔ ∃ j, i = (line ++ [10]).length + j ∧
            Pattern.Accepts rest.flatten j .privateKey := fun i => or_iff_right (hnone i)
      simp only [isFirst_shift hshift]
      rw [ih]
      constructor
      · rintro ⟨j, rfl, hj⟩
        exact ⟨_, Nat.add_assoc _ _ _, j, rfl, hj⟩
      · rintro ⟨i, rfl, j, rfl, hj⟩
        exact ⟨j, (Nat.add_assoc _ _ _).symm, hj⟩
    · have hfirst := (hin pos).mp hpos
      have hwhole : IsFirst (fun i => KeyAt line i ∨ ∃ j, i = (line ++ [10]).length + j ∧
          Pattern.Accepts rest.flatten j .privateKey) pos := by
        refine ⟨.inl hfirst.1, fun j hj => ?_⟩
        rintro (hj' | ⟨k, rfl, -⟩)
        · exact hfirst.2 j hj hj'
        · have := hfirst.1.le_length
          rw [List.length_append] at hj
          omega
      constructor
      · exact fun h => ⟨pos, (Option.some.inj h).symm, hwhole⟩
      · rintro ⟨i, rfl, hi⟩
        rw [hi.unique hwhole]

theorem findPrivateKeyOffset_eq_some {text : String} {o : ℕ} :
    findPrivateKeyOffset text = some o ↔ IsFirst (fun i => Pattern.Accepts (ascii text) i .privateKey) o := by
  rw [findPrivateKeyOffset, ← splitBytes_utf8Bytes, privateKeyFrom_eq_some (cut_splitBytes _)]
  change (∃ i, o = 0 + i ∧ IsFirst (fun i => Pattern.Accepts (splitBytes (ascii text)).flatten i .privateKey) i) ↔ _
  rw [flatten_splitBytes]
  refine ⟨fun ⟨i, hi, h⟩ => ?_, fun h => ⟨o, (Nat.zero_add o).symm, h⟩⟩
  rw [hi, Nat.zero_add]
  exact h

theorem isSome_privateKeyFrom (base : ℕ) (lines : List (List UInt8)) :
    (privateKeyFrom base lines).isSome = lines.any fun line => (privateKeyIn line).isSome := by
  induction lines generalizing base with
  | nil => rfl
  | cons line rest ih =>
    rw [privateKeyFrom, List.any_cons]
    rcases privateKeyIn line with _ | pos
    · exact ih _
    · rfl

/-- A line without its ending has a private key iff the line has. -/
theorem isSome_privateKeyIn_stripEol (piece : List Char) :
    (privateKeyIn (utf8Bytes (stripEol piece))).isSome = (privateKeyIn (utf8Bytes piece)).isSome := by
  have hending : ∃ ending, piece = stripEol piece ++ ending ∧ 89 ∉ utf8Bytes ending := by
    rw [stripEol]
    split_ifs with hnewline hreturn
    · refine ⟨['\r', '\n'], ?_, by decide⟩
      conv_lhs => rw [← List.dropLast_append_getLast? '\n' hnewline, ← List.dropLast_append_getLast? '\r' hreturn]
      rw [List.append_assoc]
      rfl
    · exact ⟨['\n'], (List.dropLast_append_getLast? '\n' hnewline).symm, by decide⟩
    · exact ⟨[], (List.append_nil piece).symm, by decide⟩
  obtain ⟨ending, hpiece, hY⟩ := hending
  have hsome : ∀ line, (privateKeyIn line).isSome = true ↔ ∃ i, KeyAt line i := fun line => by
    rw [Option.isSome_iff_exists, ← exists_isFirst (P := KeyAt line)]
    exact exists_congr fun i => privateKeyIn_eq_some
  conv_rhs => rw [hpiece, utf8Bytes_append]
  rw [Bool.eq_iff_iff, hsome, hsome]
  exact exists_congr fun i => (keyAt_append hY).symm

theorem hasPrivateKey_eq (text : String) : hasPrivateKey text = (findPrivateKeyOffset text).isSome := by
  rw [findPrivateKeyOffset, isSome_privateKeyFrom, hasPrivateKey, lines, linesOf, List.map_map, List.any_map,
    List.any_map]
  refine List.any_congr rfl fun piece => ?_
  rw [Function.comp_apply, Function.comp_apply, ascii, String.toList_ofList]
  exact isSome_privateKeyIn_stripEol piece

/-! ## Agreement -/

theorem mem_ite_singleton {name other : String} {b : Bool} :
    name ∈ (if b then [other] else []) ↔ b = true ∧ name = other := by
  cases b <;> simp

/-- Whether the loop of a pattern says that there is a match. -/
def Pattern.has (text : String) : Pattern → Bool
  | .awsAccessKey => hasAwsKey (ascii text)
  | .githubToken => hasGithubToken (ascii text)
  | .privateKey => hasPrivateKey text
  | .clientSecret => hasClientSecret (ascii text)
  | .slackToken => hasSlackToken (ascii text)
  | .anthropicKey => hasAnthropicKey (ascii text)
  | .openaiKey => hasOpenaiKey (ascii text)
  | .upstashToken => hasUpstashToken (ascii text)

theorem mem_scanCredentials_iff_has (text : String) (p : Pattern) :
    p.name ∈ scanCredentials text ↔ p.has text = true := by
  simp only [scanCredentials, List.mem_append, mem_ite_singleton]
  cases p <;> simp [Pattern.name, Pattern.has, ascii]

/-- The least number of bytes that the loop of a pattern looks at. -/
def Pattern.least : Pattern → ℕ
  | .awsAccessKey => 20
  | .githubToken => 4
  | .privateKey => 11
  | .clientSecret => 13
  | .slackToken => 5
  | .anthropicKey => 8
  | .openaiKey => 23
  | .upstashToken => 24

/-- No pattern accepts nearer to the end than that. -/
theorem Pattern.Accepts.room {p : Pattern} (h : p.Accepts bytes i) : i + p.least ≤ bytes.length := by
  cases p with
  | awsAccessKey =>
    obtain ⟨tail, hlen, -, hstarts⟩ := h
    have hroom := room_of_prefix (by rw [List.length_append, hlen]; omega) hstarts
    rwa [List.length_append, hlen] at hroom
  | githubToken => exact RunAt.room h (by decide) (by decide)
  | privateKey =>
    obtain ⟨middle, -, hstarts⟩ := h
    exact room_of_prefix (by decide) (append_prefix_drop.mp hstarts).1
  | clientSecret => exact AssignedAt.room h (by decide)
  | slackToken =>
    obtain ⟨kind, hkind, hstarts⟩ := h
    have hlen : ∀ kind ∈ ["xoxb-", "xoxa-", "xoxp-"], (ascii kind).length = 5 := by decide
    have hroom := room_of_prefix (by rw [hlen kind hkind]; omega) hstarts
    rwa [hlen kind hkind] at hroom
  | anthropicKey => exact RunAt.room h.2 (by decide) (by decide)
  | openaiKey => exact RunAt.room h.2 (by decide) (by decide)
  | upstashToken => exact AssignedAt.room h (by decide)

/-- A pattern is reported iff it accepts somewhere. -/
theorem mem_scanCredentials (text : String) (p : Pattern) :
    p.name ∈ scanCredentials text ↔ ∃ i, p.Accepts (ascii text) i := by
  rw [mem_scanCredentials_iff_has]
  cases p with
  | awsAccessKey => exact anyPlace_iff (by decide) (fun j => awsCheck_iff) fun j h => Pattern.Accepts.room h
  | githubToken =>
    exact anyPlace_iff (by decide) (fun j => runCheck_iff) fun j h => Pattern.Accepts.room (p := .githubToken) h
  | privateKey =>
    rw [Pattern.has, hasPrivateKey_eq, Option.isSome_iff_exists,
      ← exists_isFirst (P := fun i => Pattern.Accepts (ascii text) i .privateKey)]
    exact exists_congr fun i => findPrivateKeyOffset_eq_some
  | clientSecret =>
    exact anyPlace_iff (by decide) (fun j => assignedCheck_iff) fun j h => Pattern.Accepts.room (p := .clientSecret) h
  | slackToken => exact anyPlace_iff (by decide) (fun j => slackCheck_iff) fun j h => Pattern.Accepts.room h
  | anthropicKey => exact anyPlace_iff (by decide) (fun j => anthropicCheck_iff) fun j h => Pattern.Accepts.room h
  | openaiKey => exact anyPlace_iff (by decide) (fun j => openaiCheck_iff) fun j h => Pattern.Accepts.room h
  | upstashToken =>
    exact anyPlace_iff (by decide) (fun j => assignedCheck_iff) fun j h => Pattern.Accepts.room (p := .upstashToken) h

/-- The offset of a pattern is the first place where it accepts, but for the pattern whose loop looks for its name. -/
theorem offsetOf_eq_some {text : String} {p : Pattern} (hp : p ≠ .upstashToken) {o : ℕ} :
    offsetOf text p.name = some o ↔ IsFirst (fun i => p.Accepts (ascii text) i) o := by
  cases p with
  | awsAccessKey => exact findPlace_eq_some (by decide) (fun j => awsCheck_iff) fun j h => Pattern.Accepts.room h
  | githubToken =>
    exact findPlace_eq_some (by decide) (fun j => runCheck_iff) fun j h => Pattern.Accepts.room (p := .githubToken) h
  | privateKey => exact findPrivateKeyOffset_eq_some
  | clientSecret =>
    exact findPlace_eq_some (by decide) (fun j => assignedCheck_iff) fun j h =>
      Pattern.Accepts.room (p := .clientSecret) h
  | slackToken => exact findPlace_eq_some (by decide) (fun j => slackCheck_iff) fun j h => Pattern.Accepts.room h
  | anthropicKey =>
    exact findPlace_eq_some (by decide) (fun j => anthropicCheck_iff) fun j h => Pattern.Accepts.room h
  | openaiKey => exact findPlace_eq_some (by decide) (fun j => openaiCheck_iff) fun j h => Pattern.Accepts.room h
  | upstashToken => exact absurd rfl hp

theorem offsetOf_upstash {text : String} {o : ℕ} : offsetOf text Pattern.upstashToken.name = some o ↔
    IsFirst (fun i => startsAt "UPSTASH_REDIS_REST_TOKEN" (ascii text) i = true) o :=
  findPlace_eq_some (by decide) (fun j => Iff.rfl) fun j h => room_of_prefix (by decide) (startsAt_iff.mp h)

/-! ## Previews -/

theorem getElem?_of_prefix {word : List UInt8} {b : UInt8} (hb : word.head? = some b) (h : word <+: bytes.drop i) :
    bytes[i]? = some b := by
  obtain ⟨rest, hrest⟩ := h
  rw [← List.head?_drop, ← hrest, List.head?_append, hb]
  rfl

/-- A pattern accepts at a first byte of a character. -/
theorem Pattern.Accepts.exists_first {p : Pattern} (h : p.Accepts bytes i) :
    ∃ b ∈ ascii "Ag-cxsU", bytes[i]? = some b := by
  have hword : ∀ {word : String} {more : List UInt8} {b : UInt8}, (ascii word).head? = some b → b ∈ ascii "Ag-cxsU" →
      ascii word ++ more <+: bytes.drop i → ∃ b ∈ ascii "Ag-cxsU", bytes[i]? = some b := fun hb hmem hstarts =>
    ⟨_, hmem, getElem?_of_prefix hb (append_prefix_drop.mp hstarts).1⟩
  cases p with
  | awsAccessKey =>
    obtain ⟨tail, -, -, hstarts⟩ := h
    exact hword rfl (by decide) hstarts
  | githubToken =>
    obtain ⟨tail, -, -, hstarts⟩ := h
    exact hword rfl (by decide) hstarts
  | privateKey =>
    obtain ⟨middle, -, hstarts⟩ := h
    exact hword rfl (by decide) hstarts
  | clientSecret =>
    obtain ⟨space, sep, -, -, hstarts⟩ := h
    exact hword rfl (by decide) hstarts
  | slackToken =>
    obtain ⟨kind, hkind, hstarts⟩ := h
    have hhead : ∀ kind ∈ ["xoxb-", "xoxa-", "xoxp-"], (ascii kind).head? = some 120 := by decide
    exact ⟨120, by decide, getElem?_of_prefix (hhead kind hkind) hstarts⟩
  | anthropicKey =>
    obtain ⟨-, tail, -, -, hstarts⟩ := h
    exact hword rfl (by decide) hstarts
  | openaiKey =>
    obtain ⟨-, tail, -, -, hstarts⟩ := h
    exact hword rfl (by decide) hstarts
  | upstashToken =>
    obtain ⟨space, sep, -, -, hstarts⟩ := h
    exact hword rfl (by decide) hstarts

/-- Where a pattern accepts, the preview shows six characters at most. -/
theorem credentialPreview_eq {text : String} {p : Pattern} {o : ℕ} (ho : offsetOf text p.name = some o)
    (h : p.Accepts (ascii text) o) : ∃ before tail, text = before ++ tail ∧ before.utf8ByteSize = o ∧
      credentialPreview text p.name = String.ofList (tail.toList.take 6) ++ "***" := by
  obtain ⟨b, hb, hget⟩ := h.exists_first
  have hfirst : ∀ b ∈ ascii "Ag-cxsU", continues (some b) = false := List.all_iff_forall_prop.mp (by decide)
  have hboundary : isCharBoundary text o = true := by
    unfold isCharBoundary
    rw [show utf8Bytes text.toList = ascii text from rfl, hget]
    simp [hfirst b hb]
  obtain ⟨before, tail, htext, hsize⟩ := isCharBoundary_iff.mp hboundary
  have hslice : slice text o text.utf8ByteSize = some tail :=
    slice_eq_some.mpr ⟨before, "", by rw [String.append_empty, htext], hsize, by
      rw [htext, String.utf8ByteSize_append, hsize]⟩
  refine ⟨before, tail, htext, hsize, ?_⟩
  rw [credentialPreview, ho, Option.bind_some, hslice]

/-! ## Agreement -/

/-- The loops of a pattern agree on a text: the pattern is reported iff there is an offset, the offset is the first
place where the pattern accepts, and the preview shows at most six characters from there. -/
structure Agrees (text : String) (p : Pattern) : Prop where
  reported : p.name ∈ scanCredentials text ↔ ∃ o, offsetOf text p.name = some o
  first : ∀ o, offsetOf text p.name = some o → IsFirst (fun i => p.Accepts (ascii text) i) o
  preview : ∀ o, offsetOf text p.name = some o → ∃ before tail, text = before ++ tail ∧ before.utf8ByteSize = o ∧
    credentialPreview text p.name = String.ofList (tail.toList.take 6) ++ "***"

theorem agrees_of_offset {text : String} {p : Pattern}
    (h : ∀ o, offsetOf text p.name = some o ↔ IsFirst (fun i => p.Accepts (ascii text) i) o) : Agrees text p := by
  refine ⟨?_, fun o ho => (h o).mp ho, fun o ho => credentialPreview_eq ho ((h o).mp ho).1⟩
  rw [mem_scanCredentials, ← exists_isFirst (P := fun i => p.Accepts (ascii text) i)]
  exact exists_congr fun o => (h o).symm

/-- The loops agree for seven patterns on every text, and for `upstash-token` exactly on the texts whose first place of
the name is one where the name is assigned to. -/
theorem offset_agrees_iff (text : String) (p : Pattern) : Agrees text p ↔ (p = .upstashToken →
    ∀ i, IsFirst (fun i => startsAt "UPSTASH_REDIS_REST_TOKEN" (ascii text) i = true) i →
      AssignedAt "UPSTASH_REDIS_REST_TOKEN" (ascii text) i) := by
  by_cases hp : p = .upstashToken
  · subst hp
    constructor
    · exact fun h _ i hi => (h.first i (offsetOf_upstash.mpr hi)).1
    · intro h
      refine agrees_of_offset fun o => offsetOf_upstash.trans ⟨fun ho => ?_, fun ho => ?_⟩
      · exact ⟨h rfl o ho, fun j hj hassigned => ho.2 j hj (AssignedAt.startsAt hassigned)⟩
      · obtain ⟨first, hfirst⟩ : ∃ i, IsFirst (fun i => startsAt "UPSTASH_REDIS_REST_TOKEN" (ascii text) i = true) i :=
          exists_isFirst.mpr ⟨o, AssignedAt.startsAt ho.1⟩
        rcases lt_trichotomy first o with hlt | rfl | hgt
        · exact absurd (h rfl first hfirst) (ho.2 first hlt)
        · exact hfirst
        · exact absurd (AssignedAt.startsAt ho.1) (hfirst.2 o hgt)
  · exact ⟨fun _ h => absurd h hp, fun _ => agrees_of_offset fun o => offsetOf_eq_some hp⟩

/-- A name that is not assigned to has an offset, and its pattern is not reported. -/
theorem unassigned_name_found : ¬∀ text p, Agrees text p := by
  intro h
  have hreported := (h "UPSTASH_REDIS_REST_TOKEN" .upstashToken).reported.mpr ⟨0, by decide +kernel⟩
  revert hreported
  decide +kernel

end Innen.Credentials.Bytes
