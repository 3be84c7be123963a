/-
Where a text breaks off: inside a start tag, or not.

`endsInTag` follows the reader through a text and says whether the text ends before the last start tag in it is closed.
If it does not, then a blank and anything behind it is read apart from the text: every token of the text stands as it
did, only the last one may go on (`scan_append`). So what stands behind the blank is not met among the attributes of a
tag of the text (`tokens_append`).
-/
import LiveMarkup.Proofs.Markup.Rest
import LiveMarkup.Proofs.Markup.RoundTrip

namespace LiveMarkup.Markup

/-! ## The definition -/

/-- what follows a `<` that begins a start tag breaks off before the tag is closed: one more character is still read
as part of it -/
def staysOpen : List Char → Bool
  | '!' :: _ => false
  | '/' :: _ => false
  | body => (attributeList (body.dropWhile isNameChar ++ ['x'])).2.2.isEmpty

/-- the text breaks off inside a start tag -/
def endsInTag : List Char → Bool
  | [] => false
  | c :: cs => c = '<' && startsMarkup cs && staysOpen cs || endsInTag (scan c cs).2
termination_by cs => cs.length
decreasing_by
  have := length_scan c cs
  simp only [List.length_cons]; omega

/-! ## Attributes -/

theorem dropWhile_append_cons {p : Char → Bool} {cs : List Char} {d : Char} {ds : List Char}
    (h : cs.dropWhile p = d :: ds) (more : List Char) : (cs ++ more).dropWhile p = d :: (ds ++ more) := by
  rw [List.dropWhile_append, h]
  rfl

theorem dropWhile_append_nil {p : Char → Bool} {cs : List Char} (h : cs.dropWhile p = []) (more : List Char) :
    (cs ++ more).dropWhile p = more.dropWhile p := by
  rw [List.dropWhile_append, h]
  rfl

theorem takeWhile_append_cons {p : Char → Bool} {cs : List Char} {d : Char} {ds : List Char}
    (h : cs.dropWhile p = d :: ds) (more : List Char) : (cs ++ more).takeWhile p = cs.takeWhile p := by
  induction cs with
  | nil => cases h
  | cons c cs ih =>
    by_cases hc : p c = true
    · rw [List.dropWhile_cons_of_pos hc] at h
      rw [List.cons_append, List.takeWhile_cons_of_pos hc, List.takeWhile_cons_of_pos hc, ih h]
    · rw [List.cons_append, List.takeWhile_cons_of_neg hc, List.takeWhile_cons_of_neg hc]

theorem skipPast_append_ne {stop : Char} {cs : List Char} (h : stop ∈ cs) (more : List Char) :
    skipPast stop (cs ++ more) = skipPast stop cs ++ more ∧
      (cs ++ more).takeWhile (· ≠ stop) = cs.takeWhile (· ≠ stop) := by
  cases hd : cs.dropWhile (· ≠ stop) with
  | nil =>
    have := List.dropWhile_eq_nil_iff.1 hd stop h
    simp at this
  | cons d ds =>
    refine ⟨?_, takeWhile_append_cons hd more⟩
    rw [skipPast, skipPast, dropWhile_append_cons hd, hd]
    rfl

theorem valueAfterName_equals {cs rest : List Char} (h : cs.dropWhile isBlank = '=' :: rest) :
    valueAfterName cs = attributeValue (rest.dropWhile isBlank) := by
  rw [valueAfterName, h]
  rfl

theorem valueAfterName_other {cs rest : List Char} {d : Char} (h : cs.dropWhile isBlank = d :: rest) (hd : d ≠ '=') :
    valueAfterName cs = ([], d :: rest) := by
  rw [valueAfterName, h]
  split
  · next rest' he => exact absurd (List.cons.inj he).1 hd
  · rfl

theorem attributeValue_append (d : Char) (ds : List Char) :
    (∀ more, attributeValue (d :: (ds ++ more)) = ((attributeValue (d :: ds)).1, (attributeValue (d :: ds)).2 ++ more)) ∨
      (attributeValue (d :: (ds ++ ['x']))).2 = [] := by
  unfold attributeValue
  by_cases hq : (decide (d = '"') || decide (d = '\'')) = true
  · simp only [if_pos hq]
    by_cases hm : d ∈ ds
    · left
      intro more
      rw [(skipPast_append_ne hm more).1, (skipPast_append_ne hm more).2]
    · right
      have hx : d ≠ 'x' := by rintro rfl; exact absurd hq (by decide)
      have hall : ∀ c ∈ ds ++ ['x'], decide (c ≠ d) = true := by
        intro c hc
        refine decide_eq_true fun he => ?_
        rcases List.mem_append.1 (he ▸ hc) with hd | hd
        · exact hm hd
        · exact hx (List.mem_singleton.1 hd)
      rw [skipPast, List.dropWhile_eq_nil_iff.2 hall]
      rfl
  · simp only [if_neg hq]
    cases hb : (d :: ds).dropWhile isBareChar with
    | nil =>
      right
      rw [← List.cons_append, dropWhile_append_nil hb]
      rfl
    | cons e es =>
      left
      intro more
      rw [← List.cons_append, dropWhile_append_cons hb, takeWhile_append_cons hb]
      rfl

/-- a value in a text either ends in the text, whatever follows, or one more character is the last that is read -/
theorem valueAfterName_append (cs : List Char) :
    (∀ more, valueAfterName (cs ++ more) = ((valueAfterName cs).1, (valueAfterName cs).2 ++ more)) ∨
      (valueAfterName (cs ++ ['x'])).2 = [] ∨ (valueAfterName (cs ++ ['x'])).2 = ['x'] := by
  cases hb : cs.dropWhile isBlank with
  | nil => exact .inr (.inr (by rw [valueAfterName_other (dropWhile_append_nil hb ['x']) (by decide)]))
  | cons d rest =>
    by_cases hd : d = '='
    · subst hd
      cases hr : rest.dropWhile isBlank with
      | nil =>
        right; left
        rw [valueAfterName_equals (dropWhile_append_cons hb ['x']), dropWhile_append_nil hr]
        rfl
      | cons e es =>
        rcases attributeValue_append e es with h | h
        · left
          intro more
          rw [valueAfterName_equals (dropWhile_append_cons hb more), dropWhile_append_cons hr,
            valueAfterName_equals hb, hr]
          exact h more
        · right; left
          rw [valueAfterName_equals (dropWhile_append_cons hb ['x']), dropWhile_append_cons hr]
          exact h
    · left
      intro more
      rw [valueAfterName_other (dropWhile_append_cons hb more) hd, valueAfterName_other hb hd]
      rfl

theorem attributeList_selfClosed (rest : List Char) : attributeList ('/' :: '>' :: rest) = ([], .selfClosed, rest) := by
  rw [attributeList.eq_def]
  rfl

theorem attributeList_equals (rest : List Char) : attributeList ('=' :: rest) = attributeList rest := by
  rw [attributeList.eq_def]
  rfl

theorem attributeList_slash {rest : List Char} (hr : ∀ ds, rest ≠ '>' :: ds) :
    attributeList ('/' :: rest) = attributeList rest := by
  have hd : ('/' :: rest).dropWhile isBlank = '/' :: rest := List.dropWhile_cons_of_neg (by decide)
  rw [attributeList.eq_def]
  split
  · next h => rw [hd] at h; cases h
  · next h => rw [hd] at h; cases h
  · next h => rw [hd] at h; cases h; exact absurd rfl (hr _)
  · next h => rw [hd] at h; cases h; rfl
  · next h => rw [hd] at h; cases h
  · next _ _ hs _ h => rw [hd] at h; cases h; exact (hs rfl).elim

/-- the first character of a start tag's rest that is neither blank nor special begins a name -/
theorem isNameChar_of_dropWhile {cs rest : List Char} {c : Char} (h : cs.dropWhile isBlank = c :: rest)
    (hgt : c ≠ '>') (hslash : c ≠ '/') (heq : c ≠ '=') : isNameChar c = true := by
  have hblank : isBlank c = false := by
    have := List.head?_dropWhile_not isBlank cs
    rw [h] at this
    simpa using this
  have hascii : isAsciiBlank c = false :=
    Bool.eq_false_iff.2 fun ha => Bool.eq_false_iff.1 hblank (isBlank_of_isAsciiBlank ha)
  simp [isNameChar, hascii, hgt, hslash, heq]

/-- the attributes in a text either end in the text, whatever follows, or one more character is part of the tag -/
theorem attributeList_append (cs : List Char) :
    (∀ more, attributeList (cs ++ more) =
      ((attributeList cs).1, (attributeList cs).2.1, (attributeList cs).2.2 ++ more)) ∨
      (attributeList (cs ++ ['x'])).2.2 = [] := by
  have hnil : (attributeList []).2.2 = [] := by
    rw [attributeList.eq_def]
    rfl
  have hx : (attributeList ['x']).2.2 = [] := by
    rw [attributeList_name (show ['x'].dropWhile isBlank = 'x' :: [] from rfl) (by decide)]
    exact hnil
  fun_induction attributeList cs with
  | case1 cs h =>
    right
    rw [attributeList_congr (dropWhile_append_nil h ['x']), hx]
  | case2 cs rest h =>
    left
    intro more
    have hgt : attributeList (cs ++ more) = attributeList ('>' :: (rest ++ more)) :=
      attributeList_congr (by rw [dropWhile_append_cons h]; rfl)
    rw [hgt, attributeList_gt]
  | case3 cs rest h =>
    left
    intro more
    have hclosed : attributeList (cs ++ more) = attributeList ('/' :: '>' :: (rest ++ more)) :=
      attributeList_congr (by rw [dropWhile_append_cons h]; rfl)
    rw [hclosed, attributeList_selfClosed]
  | case4 cs rest hne h ih =>
    have hdrop : ∀ more, attributeList (cs ++ more) = attributeList ('/' :: (rest ++ more)) := fun more =>
      attributeList_congr (by rw [dropWhile_append_cons h]; rfl)
    rcases rest with - | ⟨d, rest⟩
    · right
      rw [hdrop, attributeList_slash (by simp)]
      exact hx
    · have hstep : ∀ more, attributeList (cs ++ more) = attributeList (d :: rest ++ more) := fun more =>
        (hdrop more).trans (attributeList_slash fun ds he => hne rest (by rw [(List.cons.inj he).1]))
      simp only [hstep]
      exact ih
  | case5 cs rest h ih =>
    have hdrop : ∀ more, attributeList (cs ++ more) = attributeList ('=' :: (rest ++ more)) := fun more =>
      attributeList_congr (by rw [dropWhile_append_cons h]; rfl)
    simp only [hdrop, attributeList_equals]
    exact ih
  | case6 cs c rest hgt hslash' hslash heq h value others ih =>
    have hc : isNameChar c = true := isNameChar_of_dropWhile h hgt hslash heq
    have hstep : ∀ more, attributeList (cs ++ more) = _ := fun more =>
      attributeList_name (dropWhile_append_cons h more) hc
    cases hn : rest.dropWhile isNameChar with
    | nil =>
      right
      rw [hstep, dropWhile_append_nil hn]
      exact hnil
    | cons d ds =>
      simp only [hstep, takeWhile_append_cons hn, dropWhile_append_cons hn, ← List.cons_append, ← hn]
      rcases valueAfterName_append (rest.dropWhile isNameChar) with hv | hv | hv
      · simp only [hv]
        rcases ih with ih | ih
        · left
          intro more
          rw [ih]
        · exact .inr ih
      · right
        rw [hv]
        exact hnil
      · right
        rw [hv]
        exact hx

/-! ## Tokens -/

/-- the tag and the attributes of a token that begins with a start tag -/
def Token.opens : Token → Option (String × Attributes)
  | node (.element tag attributes _) => some (tag, attributes)
  | node _ => none
  | start tag attributes => some (tag, attributes)
  | stop _ => none

/-- of a text with a blank and `more` behind it, `rest'` is left where `rest` is left of the text alone: either the
piece that is read ends within the text, or it goes on behind it -/
def LeftWith (more rest rest' : List Char) : Prop :=
  rest' = rest ++ ' ' :: more ∨ rest = [] ∧ rest' <:+ ' ' :: more

variable {more : List Char}

theorem prefix_of_append_blank {mark cs : List Char} (hm : ' ' ∉ mark) (h : mark <+: cs ++ ' ' :: more) :
    mark <+: cs := by
  rcases List.prefix_or_prefix_of_prefix h (List.prefix_append cs _) with hp | ⟨tail, ht⟩
  · exact hp
  · rw [← ht, List.prefix_append_right_inj] at h
    rcases tail with - | ⟨d, tail⟩
    · exact ⟨[], (List.append_nil mark).trans (ht.symm.trans (List.append_nil cs))⟩
    · obtain rfl : d = ' ' := (List.cons_prefix_cons.1 h).1
      exact absurd (ht ▸ List.mem_append_right cs List.mem_cons_self) hm

theorem leftWith_cutAt {mark : List Char} (hm : ' ' ∉ mark) (cs : List Char) :
    LeftWith more (cutAt mark cs).2 (cutAt mark (cs ++ ' ' :: more)).2 := by
  induction cs with
  | nil => exact .inr ⟨rfl, cutAt_suffix _ _⟩
  | cons c cs ih =>
    by_cases h : mark.isPrefixOf (c :: cs) = true
    · have h' : mark.isPrefixOf (c :: (cs ++ ' ' :: more)) = true :=
        List.isPrefixOf_iff_prefix.2 ((List.isPrefixOf_iff_prefix.1 h).trans (List.prefix_append (c :: cs) _))
      left
      rw [List.cons_append, cutAt, if_pos h', cutAt, if_pos h, ← List.cons_append,
        List.drop_append_of_le_length (List.isPrefixOf_iff_prefix.1 h).length_le]
    · have h' : ¬ mark.isPrefixOf (c :: (cs ++ ' ' :: more)) = true := fun hp => by
        have hlong : mark <+: (c :: cs) ++ ' ' :: more := List.isPrefixOf_iff_prefix.1 hp
        exact h (List.isPrefixOf_iff_prefix.2 (prefix_of_append_blank hm hlong))
      rw [List.cons_append, cutAt, if_neg h, cutAt, if_neg h']
      exact ih

theorem leftWith_skipPast {stop : Char} (cs : List Char) :
    LeftWith more (skipPast stop cs) (skipPast stop (cs ++ ' ' :: more)) := by
  cases hd : cs.dropWhile (· ≠ stop) with
  | nil =>
    right
    rw [skipPast, skipPast, dropWhile_append_nil hd, hd]
    exact ⟨rfl, skipPast_suffix stop _⟩
  | cons d ds =>
    left
    rw [skipPast, skipPast, dropWhile_append_cons hd, hd]
    rfl

theorem startsMarkup_iff {cs : List Char} : startsMarkup cs = true ↔
    ['!', '-', '-'] <+: cs ∨ ∃ c, isLetter c = true ∧ (['/', c] <+: cs ∨ [c] <+: cs) := by
  constructor
  · intro h
    unfold startsMarkup at h
    split at h
    · next rest => exact .inl ⟨rest, rfl⟩
    · next c rest => exact .inr ⟨c, h, .inl ⟨rest, rfl⟩⟩
    · next c rest _ _ => exact .inr ⟨c, h, .inr ⟨rest, rfl⟩⟩
    · cases h
  · rintro (⟨rest, rfl⟩ | ⟨c, hc, ⟨rest, rfl⟩ | ⟨rest, rfl⟩⟩)
    · rfl
    · exact hc
    · exact startsMarkup_of_isLetter hc rest

theorem startsMarkup_append (cs : List Char) : startsMarkup (cs ++ ' ' :: more) = startsMarkup cs := by
  have hblank : ∀ {c : Char}, isLetter c = true → c ≠ ' ' := by
    rintro c hc rfl
    exact absurd hc (by decide)
  rw [Bool.eq_iff_iff, startsMarkup_iff, startsMarkup_iff]
  constructor
  · rintro (h | ⟨c, hc, h | h⟩)
    · exact .inl (prefix_of_append_blank (by decide) h)
    · exact .inr ⟨c, hc, .inl (prefix_of_append_blank (by simpa using (hblank hc).symm) h)⟩
    · exact .inr ⟨c, hc, .inr (prefix_of_append_blank (by simpa using (hblank hc).symm) h)⟩
  · have happ := List.prefix_append cs (' ' :: more)
    rintro (h | ⟨c, hc, h | h⟩)
    · exact .inl (h.trans happ)
    · exact .inr ⟨c, hc, .inl (h.trans happ)⟩
    · exact .inr ⟨c, hc, .inr (h.trans happ)⟩

theorem leftWith_textRun (cs : List Char) : LeftWith more (textRun cs).2 (textRun (cs ++ ' ' :: more)).2 := by
  induction cs with
  | nil => exact .inr ⟨rfl, textRun_suffix _⟩
  | cons c cs ih =>
    rw [List.cons_append, textRun, textRun, startsMarkup_append]
    split
    · exact .inl rfl
    · exact ih

theorem leftWith_rawRun {tag : List Char} (ht : ' ' ∉ tag) (cs : List Char) :
    LeftWith more (rawRun tag cs).2 (rawRun tag (cs ++ ' ' :: more)).2 := by
  induction cs with
  | nil => exact .inr ⟨rfl, rawRun_suffix _ _⟩
  | cons c cs ih =>
    by_cases h : '<' :: '/' :: tag <+: lowerChars (c :: cs)
    · left
      have h' : '<' :: '/' :: tag <+: lowerChars (c :: cs ++ ' ' :: more) :=
        h.trans ((List.prefix_append _ _).map Char.toLower)
      rw [rawRun_of_stays h, rawRun_of_stays h']
    · have h' : ¬ '<' :: '/' :: tag <+: lowerChars (c :: (cs ++ ' ' :: more)) := fun hp => by
        rw [← List.cons_append, lowerChars, List.map_append] at hp
        have hlong : '<' :: '/' :: tag <+: lowerChars (c :: cs) ++ ' ' :: lowerChars more := hp
        exact h (prefix_of_append_blank (by simpa using ht) hlong)
      rw [List.cons_append, rawRun_cons h, rawRun_cons h']
      exact ih

theorem LeftWith.skipPast {rest rest' : List Char} (h : LeftWith more rest rest') (stop : Char) :
    LeftWith more (Markup.skipPast stop rest) (Markup.skipPast stop rest') := by
  rcases h with rfl | ⟨rfl, h⟩
  · exact leftWith_skipPast rest
  · exact .inr ⟨rfl, (skipPast_suffix stop rest').trans h⟩

theorem blank_not_mem_rawTag {tag : List Char} (h : isRawText (String.ofList tag) = true) : ' ' ∉ lowerChars tag := by
  obtain ⟨raw, hraw, hs⟩ := List.any_eq_true.1 h
  rw [← String.toList_ofList (l := tag), ← sameLetters_iff.1 hs]
  simp only [rawTextTags, List.mem_cons, List.not_mem_nil, or_false] at hraw
  rcases hraw with rfl | rfl | rfl | rfl <;> decide

/-- what is left of an element whose start tag has been read -/
theorem leftWith_elementToken (tag : List Char) (attributes : Attributes) (closing : Closing) (cs : List Char) :
    LeftWith more (elementToken tag attributes closing cs).2
      (elementToken tag attributes closing (cs ++ ' ' :: more)).2 := by
  unfold elementToken
  dsimp only
  split
  · exact .inl rfl
  · split
    · next h => exact (leftWith_rawRun (blank_not_mem_rawTag h) cs).skipPast '>'
    · exact .inl rfl

theorem opens_elementToken (tag : List Char) (attributes : Attributes) (closing : Closing) (cs : List Char) :
    (elementToken tag attributes closing cs).1.opens = some (String.ofList tag, attributes) := by
  unfold elementToken
  dsimp only
  split
  · rfl
  · split <;> rfl

theorem dropWhile_isNameChar_append (body : List Char) :
    (body ++ ' ' :: more).dropWhile isNameChar = body.dropWhile isNameChar ++ ' ' :: more ∧
      (body ++ ' ' :: more).takeWhile isNameChar = body.takeWhile isNameChar := by
  cases hd : body.dropWhile isNameChar with
  | nil =>
    have hall := List.dropWhile_eq_nil_iff.1 hd
    refine ⟨dropWhile_append_nil hd _, ?_⟩
    rw [List.takeWhile_append_of_pos hall, List.takeWhile_cons_of_neg (by decide), List.append_nil,
      List.takeWhile_eq_self_iff.2 hall]
  | cons d ds => exact ⟨dropWhile_append_cons hd _, takeWhile_append_cons hd _⟩

theorem scan_stop {c : Char} (hc : isLetter c = true) (cs : List Char) :
    scan '<' ('/' :: c :: cs) = (.stop (String.ofList ((c :: cs).takeWhile isNameChar)),
      skipPast '>' ((c :: cs).dropWhile isNameChar)) :=
  if_pos (show (decide ('<' = '<') && startsMarkup ('/' :: c :: cs)) = true from hc)

theorem scan_start {c : Char} (hc : isLetter c = true) (cs : List Char) :
    scan '<' (c :: cs) = elementToken ((c :: cs).takeWhile isNameChar) (attributeList ((c :: cs).dropWhile isNameChar)).1
      (attributeList ((c :: cs).dropWhile isNameChar)).2.1 (attributeList ((c :: cs).dropWhile isNameChar)).2.2 := by
  have hne : c ≠ '!' ∧ c ≠ '/' := by
    constructor <;> (rintro rfl; exact absurd hc (by decide))
  rw [scan, startsMarkup_of_isLetter hc]
  · exact if_pos rfl
  · exact fun body he => hne.1 (List.cons.inj he).1
  · exact fun body he => hne.2 (List.cons.inj he).1

theorem staysOpen_start {c : Char} (hc : isLetter c = true) (cs : List Char) :
    staysOpen (c :: cs) = (attributeList ((c :: cs).dropWhile isNameChar ++ ['x'])).2.2.isEmpty := by
  have hne : c ≠ '!' ∧ c ≠ '/' := by
    constructor <;> (rintro rfl; exact absurd hc (by decide))
  rw [staysOpen]
  · exact fun body he => hne.1 (List.cons.inj he).1
  · exact fun body he => hne.2 (List.cons.inj he).1

/-- a token is read as in the text alone, unless it is a start tag that stays open -/
theorem scan_append {c : Char} {cs : List Char} (h : (decide (c = '<') && startsMarkup cs && staysOpen cs) = false) :
    (scan c (cs ++ ' ' :: more)).1.opens = (scan c cs).1.opens ∧
      LeftWith more (scan c cs).2 (scan c (cs ++ ' ' :: more)).2 := by
  by_cases hm : (decide (c = '<') && startsMarkup cs) = true
  · rw [hm, Bool.true_and] at h
    obtain ⟨hlt, hs⟩ := Bool.and_eq_true_iff.1 hm
    obtain rfl := of_decide_eq_true hlt
    rcases startsMarkup_iff.1 hs with ⟨body, rfl⟩ | ⟨c, hc, ⟨body, rfl⟩ | ⟨body, rfl⟩⟩
    · -- a comment
      exact ⟨rfl, leftWith_cutAt (by decide) body⟩
    · -- an end tag
      have hname := @dropWhile_isNameChar_append more (c :: body)
      show (scan '<' ('/' :: c :: (body ++ ' ' :: more))).1.opens = (scan '<' ('/' :: c :: body)).1.opens ∧
        LeftWith more (scan '<' ('/' :: c :: body)).2 (scan '<' ('/' :: c :: (body ++ ' ' :: more))).2
      rw [scan_stop hc, scan_stop hc, ← List.cons_append, hname.1]
      exact ⟨rfl, leftWith_skipPast _⟩
    · -- a start tag, which closes in the text
      have hname := @dropWhile_isNameChar_append more (c :: body)
      have hopen : (attributeList ((c :: body).dropWhile isNameChar ++ ['x'])).2.2 ≠ [] := by
        rw [List.singleton_append, staysOpen_start hc] at h
        exact fun he => absurd (he ▸ h) (by simp)
      have hlist := (attributeList_append ((c :: body).dropWhile isNameChar)).resolve_right hopen (' ' :: more)
      show (scan '<' (c :: (body ++ ' ' :: more))).1.opens = (scan '<' (c :: body)).1.opens ∧
        LeftWith more (scan '<' (c :: body)).2 (scan '<' (c :: (body ++ ' ' :: more))).2
      rw [scan_start hc, scan_start hc, ← List.cons_append, hname.1, hname.2, hlist, opens_elementToken,
        opens_elementToken]
      exact ⟨rfl, leftWith_elementToken _ _ _ _⟩
  · have hscan : ∀ cs, (decide (c = '<') && startsMarkup cs) = false →
        scan c cs = (.node (.text (decode (c :: (textRun cs).1))), (textRun cs).2) := fun cs hcs =>
      if_neg (Bool.eq_false_iff.1 hcs)
    have hm := Bool.eq_false_iff.2 hm
    rw [hscan cs hm, hscan (cs ++ ' ' :: more) (by rw [startsMarkup_append, hm])]
    exact ⟨rfl, leftWith_textRun cs⟩

/-- the start tags of a text that does not break off inside a tag are read as in the text alone, and then reading goes
on somewhere behind the text -/
theorem tokens_append {cs : List Char} (h : endsInTag cs = false) :
    ∃ rest, rest <:+ ' ' :: more ∧ (tokens (cs ++ ' ' :: more)).filterMap Token.opens =
      (tokens cs).filterMap Token.opens ++ (tokens rest).filterMap Token.opens := by
  fun_induction endsInTag cs with
  | case1 => exact ⟨_, List.suffix_refl _, by rw [tokens]; rfl⟩
  | case2 c cs ih =>
    obtain ⟨hopen, hlater⟩ := Bool.or_eq_false_iff.1 h
    obtain ⟨hone, hleft⟩ := @scan_append more _ _ hopen
    rw [List.cons_append, tokens_cons, tokens_cons]
    simp only [List.filterMap_cons, hone]
    rcases hleft with hleft | ⟨hnil, hleft⟩
    · obtain ⟨rest, hrest, htokens⟩ := ih hlater
      refine ⟨rest, hrest, ?_⟩
      rw [hleft, htokens]
      cases (scan c cs).1.opens <;> rfl
    · refine ⟨_, hleft, ?_⟩
      rw [hnil, show tokens [] = [] by rw [tokens]]
      cases (scan c cs).1.opens <;> rfl

end LiveMarkup.Markup
