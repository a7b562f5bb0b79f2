import Innen.Trace.Coverage

/-!
# An excerpt shows a match

An excerpt begins 120 bytes before the first place where a term of the query occurs, and it has 600 characters. It shows
a term if an occurrence is over by then, and without capital sigma only then (`keepsMatch_of_fits`). A word of 601
letters is found, but it is not shown (`long_word_cut`).
-/

namespace Innen.Trace

open Common

/-! ## Lower case -/

/-- What words rely on of the Unicode tables. -/
structure Tables.Lawful (T : Tables) : Prop where
  /-- The lower case of a text is that of its characters, apart from a capital sigma, where it depends on the
  neighbours. -/
  lower_chars : ∀ cs : List Char, ∃ pieces : List (List Char), (T.lower (String.ofList cs)).toList = pieces.flatten ∧
    List.Forall₂ (fun c piece => c ≠ 'Σ' → piece = (T.lower (String.singleton c)).toList) cs pieces
  /-- A part of a text in small letters stays as it is. -/
  lower_part : ∀ (text : String) (cs : List Char), cs <:+: (T.lower text).toList →
    T.lower (String.ofList cs) = String.ofList cs
  /-- Only marks follow the first character of a lower case. -/
  mark : ∀ c, ∀ d ∈ (T.lower (String.singleton c)).toList.tail, isCjk d = false ∧ T.isAlphanumeric d = false

variable {T : Tables}

theorem foldedChars_append (cs ds : List Char) : foldedChars T (cs ++ ds) = foldedChars T cs ++ foldedChars T ds := by
  simp only [foldedChars, List.flatMap_append]

theorem flatten_eq_foldedChars {cs : List Char} {pieces : List (List Char)}
    (h : List.Forall₂ (fun c piece => c ≠ 'Σ' → piece = (T.lower (String.singleton c)).toList) cs pieces)
    (hsigma : 'Σ' ∉ cs) : pieces.flatten = foldedChars T cs := by
  induction h with
  | nil => rfl
  | @cons c piece cs pieces hpiece _ ih =>
    rw [List.mem_cons, not_or] at hsigma
    rw [List.flatten_cons, hpiece (Ne.symm hsigma.1), ih hsigma.2]
    rfl

/-- A text without capital sigma is lowercased character by character. -/
theorem Tables.Lawful.lower_eq (hT : T.Lawful) {cs : List Char} (hsigma : 'Σ' ∉ cs) :
    (T.lower (String.ofList cs)).toList = foldedChars T cs := by
  obtain ⟨pieces, hlower, hpieces⟩ := hT.lower_chars cs
  rw [hlower, flatten_eq_foldedChars hpieces hsigma]

/-- So is a part without capital sigma, whatever is around it. -/
theorem Tables.Lawful.foldedChars_part (hT : T.Lawful) (front : List Char) {cs : List Char} (back : List Char)
    (hsigma : 'Σ' ∉ cs) : foldedChars T cs <:+: (T.lower (String.ofList (front ++ cs ++ back))).toList := by
  obtain ⟨pieces, hlower, hpieces⟩ := hT.lower_chars (front ++ cs ++ back)
  rw [List.append_assoc] at hpieces
  have hrest := List.forall₂_drop_append pieces front (cs ++ back) hpieces.flip
  have hcs := (List.forall₂_take_append _ cs back hrest).flip
  rw [hlower, ← flatten_eq_foldedChars hcs hsigma]
  refine ⟨(pieces.take front.length).flatten, ((pieces.drop front.length).drop cs.length).flatten, ?_⟩
  rw [← List.flatten_append, ← List.flatten_append, List.append_assoc, List.take_append_drop, List.take_append_drop]

/-! ## Words are parts of a text -/

/-- A word begins with a character of words, and it is a part of the text. -/
structure IsWord (T : Tables) (text word : List Char) : Prop where
  part : word <:+: text
  start : ∃ c cs, word = c :: cs ∧ (isCjk c = true ∨ T.isAlphanumeric c = true)

theorem IsWord.append {text word : List Char} (h : IsWord T text word) (cs : List Char) : IsWord T (text ++ cs) word :=
  ⟨h.part.trans (List.prefix_append text cs).isInfix, h.start⟩

theorem mem_pushWord {word : List Char} {out : List String} {w : String} (h : w ∈ pushWord word out) :
    w ∈ out ∨ (w = String.ofList word ∧ word ≠ []) := by
  unfold pushWord at h
  split_ifs at h with hskip
  · exact .inl h
  · rcases List.mem_append.mp h with hout | hword
    · exact .inl hout
    · exact .inr ⟨List.mem_singleton.mp hword, fun hnil => hskip (.inl hnil)⟩

/-- What is read so far comes from the text so far. -/
structure ReadingInv (T : Tables) (seen : List Char) (r : Reading) : Prop where
  word : r.word <:+ seen
  letters : ∀ c ∈ r.word, T.isAlphanumeric c = true
  previous : ∀ c, r.previous = some c → [c] <:+ seen ∧ isCjk c = true
  out : ∀ w ∈ r.out, IsWord T seen w.toList

theorem ReadingInv.pushWord {seen : List Char} {r : Reading} (h : ReadingInv T seen r) {w : String}
    (hw : w ∈ pushWord r.word r.out) : IsWord T seen w.toList := by
  rcases mem_pushWord hw with hout | ⟨rfl, hne⟩
  · exact h.out w hout
  · obtain ⟨c, cs, hcs⟩ := List.exists_cons_of_ne_nil hne
    rw [String.toList_ofList]
    exact ⟨h.word.isInfix, c, cs, hcs, .inr (h.letters c (hcs ▸ List.mem_cons_self))⟩

theorem ReadingInv.next {seen : List Char} {r : Reading} (h : ReadingInv T seen r) (c : Char) :
    ReadingInv T (seen ++ [c]) (r.next T c) := by
  have hkept : ∀ w ∈ Trace.pushWord r.word r.out, IsWord T (seen ++ [c]) w.toList := fun w hw =>
    (h.pushWord hw).append [c]
  unfold Reading.next
  split_ifs with hcjk halnum
  · have hsingle : ∀ w ∈ Trace.pushWord [c] (Trace.pushWord r.word r.out), IsWord T (seen ++ [c]) w.toList := by
      intro w hw
      rcases mem_pushWord hw with hout | ⟨rfl, -⟩
      · exact hkept w hout
      · rw [String.toList_ofList]
        exact ⟨(List.suffix_append seen [c]).isInfix, c, [], rfl, .inl hcjk⟩
    refine ⟨List.nil_suffix, by simp, ?_, ?_⟩
    · rintro d hd
      cases hd
      exact ⟨List.suffix_append seen [c], hcjk⟩
    · cases hprevious : r.previous with
      | none => exact hsingle
      | some p =>
        intro w hw
        rcases mem_pushWord hw with hout | ⟨rfl, -⟩
        · exact hsingle w hout
        · obtain ⟨⟨before, hbefore⟩, hp⟩ := h.previous p hprevious
          rw [String.toList_ofList]
          exact ⟨⟨before, [], by simp [← hbefore]⟩, p, [c], rfl, .inl hp⟩
  · refine ⟨?_, ?_, by simp, fun w hw => (h.out w hw).append [c]⟩
    · obtain ⟨before, hbefore⟩ := h.word
      exact ⟨before, by simp [← hbefore]⟩
    · intro d hd
      rcases List.mem_append.mp hd with hword | hc
      · exact h.letters d hword
      · exact List.mem_singleton.mp hc ▸ halnum
  · exact ⟨List.nil_suffix, by simp, by simp, hkept⟩

theorem readingInv_foldl (cs : List Char) {seen : List Char} {r : Reading} (h : ReadingInv T seen r) :
    ReadingInv T (seen ++ cs) (cs.foldl (Reading.next T) r) := by
  induction cs generalizing seen r with
  | nil => simpa using h
  | cons c cs ih => simpa using ih (h.next c)

/-- The words of a text are parts of it in small letters. -/
theorem isWord_of_mem_tokens {text term : String} (h : term ∈ tokens T text) :
    IsWord T (T.lower text).toList term.toList := by
  have hread : ReadingInv T ([] ++ (T.lower text).toList) _ :=
    readingInv_foldl (T.lower text).toList (r := ⟨[], none, []⟩) ⟨List.nil_suffix, by simp, by simp, by simp⟩
  rw [List.nil_append] at hread
  exact hread.pushWord h

/-- A term of a query is searched for as it is. -/
theorem Tables.Lawful.lower_term (hT : T.Lawful) {q term : String} (h : term ∈ tokens T q) : T.lower term = term := by
  simpa using hT.lower_part q term.toList (isWord_of_mem_tokens h).part

/-! ## Occurrences -/

/-- A term of a query occurs at the start of a text. -/
def Begins (T : Tables) (query : List String) (cs : List Char) : Prop :=
  ∃ term ∈ query, term.toList <+: foldedChars T cs

/-- The first place of a text where a term of a query occurs. -/
structure First (T : Tables) (query : List String) (before rest : List Char) : Prop where
  begins : Begins T query rest
  least : ∀ as bs, before ++ rest = as ++ bs → Begins T query bs → before.length ≤ as.length

theorem Begins.append {query : List String} {cs : List Char} (h : Begins T query cs) (ds : List Char) :
    Begins T query (cs ++ ds) := by
  obtain ⟨term, hterm, hbegins⟩ := h
  exact ⟨term, hterm, foldedChars_append (T := T) cs ds ▸ hbegins.trans (List.prefix_append _ _)⟩

/-- A term occurs in a text at the start of a character. -/
theorem begins_of_occurs (hT : T.Lawful) {text word cs : List Char} (hword : IsWord T text word)
    (h : word <:+: foldedChars T cs) : ∃ as bs, cs = as ++ bs ∧ word <+: foldedChars T bs := by
  obtain ⟨c, rest, rfl, hc⟩ := hword.start
  induction cs with
  | nil => simp [foldedChars] at h
  | cons d ds ih =>
    -- The occurrence starts here, at a mark of this character, or behind it.
    obtain ⟨front, back, hsplit⟩ := h
    rcases front with - | ⟨e, front⟩
    · exact ⟨[], d :: ds, rfl, back, by simpa using hsplit⟩
    · have hfold : foldedChars T (d :: ds) = (T.lower (String.singleton d)).toList ++ foldedChars T ds := rfl
      rw [hfold, List.append_assoc, List.append_eq_append_iff] at hsplit
      rcases hsplit with ⟨mid, hmid, hrest⟩ | ⟨mid, hmid, hrest⟩
      · rcases mid with - | ⟨x, mid⟩
        · obtain ⟨as, bs, rfl, hbs⟩ := ih ⟨[], back, by simpa using hrest⟩
          exact ⟨d :: as, bs, rfl, hbs⟩
        · have hx : c = x := by simpa using (List.cons.inj hrest).1
          have hmark := hT.mark d x (by simp [hmid])
          simp [hx, hmark.1, hmark.2] at hc
      · obtain ⟨as, bs, rfl, hbs⟩ := ih ⟨mid, back, by simpa using hrest.symm⟩
        exact ⟨d :: as, bs, rfl, hbs⟩

/-! ## Where the excerpt begins -/

theorem firstByte_some {term cs : List Char} {start found : ℕ} (h : firstByte T term start cs = some found) :
    ∃ as bs, cs = as ++ bs ∧ term <+: foldedChars T bs ∧ found = start + byteLen as := by
  induction cs generalizing start with
  | nil => cases h
  | cons c cs ih =>
    unfold firstByte at h
    split_ifs at h with hhere
    · exact ⟨[], c :: cs, rfl, hhere ▸ List.take_prefix _ _, by simpa using h.symm⟩
    · obtain ⟨as, bs, rfl, hbs, hfound⟩ := ih h
      exact ⟨c :: as, bs, rfl, hbs, by rw [byteLen_cons, hfound]; omega⟩

theorem firstByte_le (start : ℕ) (as : List Char) {term bs : List Char} (hne : term ≠ []) (h : term <+: foldedChars T bs) :
    ∃ found, firstByte T term start (as ++ bs) = some found ∧ found ≤ start + byteLen as := by
  induction as generalizing start with
  | nil =>
    rcases bs with - | ⟨c, cs⟩
    · exact absurd (List.prefix_nil.mp h) hne
    · exact ⟨start, by rw [List.nil_append, firstByte, if_pos (List.prefix_iff_eq_take.mp h).symm], by simp⟩
  | cons a as ih =>
    rw [List.cons_append, firstByte]
    split_ifs with hhere
    · exact ⟨start, rfl, by omega⟩
    · obtain ⟨there, hfound, hle⟩ := ih (start + a.utf8Size)
      exact ⟨there, hfound, by rw [byteLen_cons]; omega⟩

theorem byteLen_le_of_length {as bs cs ds : List Char} (h : as ++ bs = cs ++ ds) (hlen : as.length ≤ cs.length) :
    byteLen as ≤ byteLen cs := by
  obtain ⟨more, rfl⟩ := List.prefix_of_prefix_length_le (List.prefix_append as bs) (h ▸ List.prefix_append cs ds) hlen
  rw [byteLen_append]
  omega

/-- Terms that are searched for as they are. -/
structure Searchable (T : Tables) (query : List String) : Prop where
  lower : ∀ term ∈ query, T.lower term = term
  nonempty : ∀ term ∈ query, term.toList ≠ []

theorem Tables.Lawful.searchable_tokens (hT : T.Lawful) (q : String) : Searchable T (tokens T q) :=
  ⟨fun _ h => hT.lower_term h, fun _ h => by
    obtain ⟨c, cs, hcs, -⟩ := (isWord_of_mem_tokens h).start
    simp [hcs]⟩

/-- The search finds the first place where a term occurs. -/
theorem firstMatchByte_eq {query : List String} (hquery : Searchable T query) {before rest : List Char}
    (h : First T query before rest) : firstMatchByte T (before ++ rest) query = byteLen before := by
  have hmin : ((((query.map fun q => (T.lower q).toList).filter (· ≠ [])).filterMap
      fun term => firstByte T term 0 (before ++ rest)).min?) = some (byteLen before) := by
    have hleast : ∀ found ∈ ((query.map fun q => (T.lower q).toList).filter (· ≠ [])).filterMap
        fun term => firstByte T term 0 (before ++ rest), byteLen before ≤ found := by
      intro found hfound
      obtain ⟨word, hword, hat⟩ := List.mem_filterMap.mp hfound
      obtain ⟨term, hterm, rfl⟩ := List.mem_map.mp (List.mem_filter.mp hword).1
      rw [hquery.lower term hterm] at hat
      obtain ⟨as, bs, hsplit, hbegins, rfl⟩ := firstByte_some hat
      rw [Nat.zero_add]
      exact byteLen_le_of_length hsplit (h.least as bs hsplit ⟨term, hterm, hbegins⟩)
    obtain ⟨term, hterm, hbegins⟩ := h.begins
    obtain ⟨found, hfound, hle⟩ := firstByte_le 0 before (hquery.nonempty term hterm) hbegins
    have hmem : found ∈ ((query.map fun q => (T.lower q).toList).filter (· ≠ [])).filterMap
        fun term => firstByte T term 0 (before ++ rest) := by
      refine List.mem_filterMap.mpr ⟨term.toList, List.mem_filter.mpr ⟨List.mem_map.mpr ⟨term, hterm, ?_⟩, ?_⟩, hfound⟩
      · rw [hquery.lower term hterm]
      · simpa using hquery.nonempty term hterm
    have heq : found = byteLen before := by
      have := hleast found hmem
      omega
    exact List.min?_eq_some_iff.mpr ⟨heq ▸ hmem, hleast⟩
  rw [firstMatchByte, hmin]
  rfl

/-- Where a term occurs, it occurs for a first time. -/
theorem exists_first (as : List Char) {query : List String} {bs : List Char} (h : Begins T query bs) :
    ∃ before rest, as ++ bs = before ++ rest ∧ First T query before rest := by
  classical
  have hsome : ∃ n, ∃ before rest, as ++ bs = before ++ rest ∧ Begins T query rest ∧ before.length = n :=
    ⟨as.length, as, bs, rfl, h, rfl⟩
  obtain ⟨before, rest, hsplit, hbegins, hlength⟩ := Nat.find_spec hsome
  refine ⟨before, rest, hsplit, hbegins, fun cs ds hcs hds => ?_⟩
  rw [hlength]
  exact Nat.find_min' hsome ⟨cs, ds, hsplit.trans hcs, hds, rfl⟩

theorem skipBytes_suffix (n : ℕ) (cs : List Char) : skipBytes n cs <:+ cs := by
  induction cs generalizing n with
  | nil => exact List.nil_suffix
  | cons c cs ih =>
    unfold skipBytes
    split_ifs with hskip
    · exact (ih _).trans (List.suffix_cons c cs)
    · exact List.suffix_rfl

theorem skipBytes_append {n : ℕ} {cs : List Char} (ds : List Char) (h : n ≤ byteLen cs) :
    skipBytes n (cs ++ ds) = skipBytes n cs ++ ds := by
  induction cs generalizing n with
  | nil =>
    obtain rfl : n = 0 := Nat.le_zero.mp h
    cases ds with
    | nil => rfl
    | cons d ds => simp [skipBytes, Nat.not_le.mpr d.utf8Size_pos]
  | cons c cs ih =>
    rw [byteLen_cons] at h
    rw [List.cons_append, skipBytes, skipBytes]
    split_ifs with hskip
    · exact ih (by omega)
    · rfl

/-! ## What the excerpt shows -/

/-- The excerpt is a part of the text, apart from the marks at its ends, and it has a term of the query. -/
def ShowsMatch (T : Tables) (text : String) (query : List String) : Prop :=
  ∃ lead trail, (lead = [] ∨ lead = ['…']) ∧ (trail = [] ∨ trail = ['…']) ∧
    (excerpt T text query).toList = lead ++ excerptBody T text.toList query ++ trail ∧
    excerptBody T text.toList query <:+: text.toList ∧
    ∃ term ∈ query, term.toList <:+: (T.lower (String.ofList (excerptBody T text.toList query))).toList

/-- If a term is a word of a text, the excerpt shows a term. -/
def KeepsMatch (T : Tables) (text : String) (query : List String) : Prop :=
  ∀ term ∈ query, term ∈ tokens T text → ShowsMatch T text query

/-- An occurrence without capital sigma is over within 600 characters from 120 bytes before the first occurrence. -/
def Fits (T : Tables) (text : List Char) (query : List String) : Prop :=
  ∃ before gap found after, text = before ++ gap ++ found ++ after ∧ First T query before (gap ++ found ++ after) ∧
    Begins T query found ∧ 'Σ' ∉ found ∧ (skipBytes (byteLen before - 120) (before ++ gap ++ found)).length ≤ 600

theorem excerpt_toList (text : String) (query : List String) :
    ∃ lead trail, (lead = [] ∨ lead = ['…']) ∧ (trail = [] ∨ trail = ['…']) ∧
      (excerpt T text query).toList = lead ++ excerptBody T text.toList query ++ trail := by
  refine ⟨_, _, ?_, ?_, String.toList_ofList⟩
  · exact (ite_eq_or_eq _ _ _).symm
  · exact (ite_eq_or_eq _ _ _).symm

theorem excerptBody_part (text : List Char) (query : List String) : excerptBody T text query <:+: text :=
  (List.take_prefix _ _).isInfix.trans (skipBytes_suffix _ _).isInfix

theorem length_excerptBody_le (text : List Char) (query : List String) : (excerptBody T text query).length ≤ 600 :=
  List.length_take_le _ _

/-- The slice of the text decides. -/
theorem showsMatch_iff {text : String} {query : List String} : ShowsMatch T text query ↔
    ∃ term ∈ query, term.toList <:+: (T.lower (String.ofList (excerptBody T text.toList query))).toList := by
  constructor
  · rintro ⟨-, -, -, -, -, -, hshown⟩
    exact hshown
  · intro hshown
    obtain ⟨lead, trail, hlead, htrail, heq⟩ := excerpt_toList (T := T) text query
    exact ⟨lead, trail, hlead, htrail, heq, excerptBody_part text.toList query, hshown⟩

/-- What is over in time is in the slice. -/
theorem Fits.shown (hT : T.Lawful) {text : String} {query : List String} (hquery : Searchable T query)
    (h : Fits T text.toList query) : ShowsMatch T text query := by
  obtain ⟨before, gap, found, after, htext, hfirst, ⟨term, hterm, hbegins⟩, hsigma, hlength⟩ := h
  have hat : firstMatchByte T text.toList query = byteLen before := by
    rw [htext, List.append_assoc, List.append_assoc, ← List.append_assoc gap]
    exact firstMatchByte_eq hquery hfirst
  have hskip : ∀ cs, skipBytes (byteLen before - 120) (before ++ cs) = skipBytes (byteLen before - 120) before ++ cs :=
    fun cs => skipBytes_append cs (Nat.sub_le _ _)
  have hbody : skipBytes (byteLen before - 120) before ++ gap ++ found <+: excerptBody T text.toList query := by
    rw [List.append_assoc, hskip, ← List.append_assoc] at hlength
    rw [excerptBody, hat, htext, List.append_assoc before, List.append_assoc before, hskip]
    exact List.prefix_take_iff.mpr ⟨⟨after, by simp⟩, hlength⟩
  obtain ⟨more, hmore⟩ := hbody
  refine showsMatch_iff.mpr ⟨term, hterm, hbegins.isInfix.trans ?_⟩
  rw [← hmore]
  exact hT.foldedChars_part _ more hsigma

/-- In a text without capital sigma, what is in the slice is over in time. -/
theorem ShowsMatch.fits (hT : T.Lawful) {text : List Char} {q : String} (hsigma : 'Σ' ∉ text)
    (h : ShowsMatch T (String.ofList text) (tokens T q)) : Fits T text (tokens T q) := by
  obtain ⟨term, hterm, hin⟩ := showsMatch_iff.mp h
  rw [String.toList_ofList] at hin
  have hplain : 'Σ' ∉ excerptBody T text (tokens T q) := fun hmem =>
    hsigma ((excerptBody_part text (tokens T q)).subset hmem)
  rw [hT.lower_eq hplain] at hin
  obtain ⟨skipped, found, hbody, hbegins⟩ := begins_of_occurs hT (isWord_of_mem_tokens hterm) hin
  have hfound : Begins T (tokens T q) found := ⟨term, hterm, hbegins⟩
  have hfoundPlain : 'Σ' ∉ found := fun hmem => hplain (hbody ▸ List.mem_append_right skipped hmem)
  obtain ⟨n, hn⟩ : ∃ n, n = firstMatchByte T text (tokens T q) - 120 := ⟨_, rfl⟩
  obtain ⟨behind, hbehind⟩ : ∃ behind, behind = (skipBytes n text).drop 600 := ⟨_, rfl⟩
  have hwhole : excerptBody T text (tokens T q) ++ behind = skipBytes n text := by
    rw [excerptBody, ← hn, hbehind, List.take_append_drop]
  obtain ⟨front, hfront⟩ := skipBytes_suffix n text
  have htext : text = front ++ skipped ++ (found ++ behind) := by
    rw [List.append_assoc, ← List.append_assoc skipped, ← hbody, hwhole, hfront]
  obtain ⟨before, rest, hsplit, hfirst⟩ := exists_first (front ++ skipped) (hfound.append behind)
  have hle := hfirst.least _ _ hsplit.symm (hfound.append behind)
  obtain ⟨gap, hgap⟩ := List.prefix_of_prefix_length_le (List.prefix_append before rest)
    (hsplit ▸ List.prefix_append (front ++ skipped) _) hle
  have hrest : rest = gap ++ found ++ behind := by
    rw [← hgap, List.append_assoc, List.append_cancel_left_eq, ← List.append_assoc] at hsplit
    exact hsplit.symm
  have hat : firstMatchByte T text (tokens T q) = byteLen before := by
    rw [htext, hsplit]
    exact firstMatchByte_eq (hT.searchable_tokens q) hfirst
  have hcut : skipBytes n (before ++ gap ++ found) = excerptBody T text (tokens T q) := by
    -- The first occurrence is not over before the slice begins, so what follows the slice plays no part.
    have hn' : n ≤ byteLen (before ++ gap ++ found) := by
      rw [hn, hat, byteLen_append, byteLen_append]
      omega
    have hskip := skipBytes_append behind hn'
    rw [hgap, List.append_assoc (front ++ skipped), ← htext, ← hwhole] at hskip
    rw [hgap]
    exact (List.append_cancel_right hskip).symm
  refine ⟨before, gap, found, behind, ?_, hrest ▸ hfirst, hfound, hfoundPlain, ?_⟩
  · rw [hgap, List.append_assoc, ← htext]
  · rw [← hat, ← hn, hcut]
    exact length_excerptBody_le _ _

/-- The excerpt shows a term if an occurrence without capital sigma is over in time, and in a text without capital sigma
only then. -/
theorem keepsMatch_of_fits (hT : T.Lawful) (text q : String) :
    ((∀ term ∈ tokens T q, term ∈ tokens T text → Fits T text.toList (tokens T q)) → KeepsMatch T text (tokens T q)) ∧
      ('Σ' ∉ text.toList → KeepsMatch T text (tokens T q) →
        ∀ term ∈ tokens T q, term ∈ tokens T text → Fits T text.toList (tokens T q)) := by
  constructor
  · intro hfits term hterm htext
    exact (hfits term hterm htext).shown hT (hT.searchable_tokens q)
  · intro hsigma hkeeps term hterm htext
    have hshown := hkeeps term hterm htext
    rw [← String.ofList_toList (s := text)] at hshown
    exact hshown.fits hT hsigma

/-! ## A long word -/

/-- Plain text in small letters stays as it is. -/
theorem plainTables_lawful : plainTables.Lawful where
  lower_chars cs := ⟨cs.map fun c => [c], by simp [plainTables, ← List.flatMap_def], by
    simp [List.forall₂_map_right_iff, List.forall₂_same, plainTables]⟩
  lower_part _ _ _ := rfl
  mark c d hd := by simp [plainTables] at hd

/-- A word of letters is read letter by letter. -/
theorem foldl_letters (n : ℕ) (word : List Char) :
    (List.replicate n 'a').foldl (Reading.next plainTables) ⟨word, none, []⟩ =
      ⟨word ++ List.replicate n 'a', none, []⟩ := by
  induction n generalizing word with
  | zero => simp
  | succ n ih =>
    have hnext : Reading.next plainTables ⟨word, none, []⟩ 'a' = ⟨word ++ ['a'], none, []⟩ := rfl
    rw [List.replicate_succ, List.foldl_cons, hnext, ih, List.append_assoc]
    rfl

/-- A word of so many letters. -/
def letters (n : ℕ) : String := String.ofList (List.replicate n 'a')

theorem tokens_letters {n : ℕ} (h : 4 < n) : tokens plainTables (letters n) = [letters n] := by
  have hword : List.replicate n 'a' ≠ [] := by
    rw [Ne, List.replicate_eq_nil_iff]
    omega
  have hstop : letters n ∉ stopWords := by
    intro hmem
    have hshort : ∀ w ∈ stopWords, w.toList.length ≤ 4 := by decide
    have hfour := hshort (letters n) hmem
    rw [letters, String.toList_ofList, List.length_replicate] at hfour
    omega
  have hlower : (plainTables.lower (letters n)).toList = List.replicate n 'a' := String.toList_ofList
  unfold tokens
  rw [hlower, foldl_letters, List.nil_append]
  exact if_neg (not_or.mpr ⟨hword, hstop⟩)

/-- The excerpt has 600 letters of a longer word. -/
theorem letters_not_kept {n : ℕ} (h : 600 < n) :
    ¬KeepsMatch plainTables (letters n) (tokens plainTables (letters n)) := by
  intro hkeeps
  have hmem : letters n ∈ tokens plainTables (letters n) := by
    rw [tokens_letters (by omega)]
    exact List.mem_singleton_self _
  obtain ⟨term, hterm, hin⟩ := showsMatch_iff.mp (hkeeps (letters n) hmem hmem)
  obtain rfl : term = letters n := by
    rw [tokens_letters (by omega)] at hterm
    exact List.mem_singleton.mp hterm
  have hword : (letters n).toList.length = n := by rw [letters, String.toList_ofList, List.length_replicate]
  have hshown : (plainTables.lower (String.ofList (excerptBody plainTables (letters n).toList
      (tokens plainTables (letters n))))).toList.length ≤ 600 := by
    rw [plainTables, String.toList_ofList]
    exact length_excerptBody_le _ _
  have hlength := hin.length_le
  omega

/-- A word of 601 letters is not shown. -/
theorem long_word_cut : ¬∀ (T : Tables) (text q : String), T.Lawful → KeepsMatch T text (tokens T q) := by
  intro h
  exact letters_not_kept (Nat.lt_succ_self 600) (h plainTables (letters 601) (letters 601) plainTables_lawful)

/-- A word that is long enough to be one, and no longer than the excerpt. -/
theorem letters_fit {n : ℕ} (hword : 4 < n) (hfit : n ≤ 600) :
    Fits plainTables (letters n).toList (tokens plainTables (letters n)) := by
  have hbegins : Begins plainTables (tokens plainTables (letters n)) (letters n).toList := by
    refine ⟨letters n, ?_, [], ?_⟩
    · rw [tokens_letters hword]
      exact List.mem_singleton_self _
    · simp [foldedChars, plainTables]
  have hletters : (letters n).toList = List.replicate n 'a' := String.toList_ofList
  refine ⟨[], [], (letters n).toList, [], by simp, ⟨by simpa using hbegins, by simp⟩, hbegins, ?_, ?_⟩
  · intro hsigma
    rw [hletters] at hsigma
    exact absurd (List.eq_of_mem_replicate hsigma) (by decide)
  · refine (skipBytes_suffix _ _).length_le.trans ?_
    rw [List.append_nil, List.nil_append, hletters, List.length_replicate]
    exact hfit

/-- A word of 600 letters is shown. -/
theorem whole_word_shown : KeepsMatch plainTables (letters 600) (tokens plainTables (letters 600)) :=
  (keepsMatch_of_fits plainTables_lawful (letters 600) (letters 600)).1 fun _ _ _ =>
    letters_fit (by decide) (Nat.le_refl 600)

end Innen.Trace
