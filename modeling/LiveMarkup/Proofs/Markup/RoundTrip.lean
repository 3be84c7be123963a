/-
Reading what was printed.

The printed form of a well-formed, normal forest is cut into the tokens of that forest, whatever its texts and attribute
values are (`tokens_print`), and those tokens build the forest again (`forest_tokensOf`).

- `decode_escape`: escaped text is decoded to the text;
- `read_print`: a well-formed, normal forest is read back as it is;
- `read_print_normalize`: a well-formed forest is read back with empty texts dropped and neighbouring texts joined.
-/
import Mathlib.Data.List.DropRight
import LiveMarkup.Proofs.Markup.Normal

namespace LiveMarkup.Markup

/-! ## References -/

theorem decodeChars_cons_of_ne {c : Char} (h : c ≠ '&') (cs : List Char) :
    decodeChars (c :: cs) = c :: decodeChars cs := by
  rw [decodeChars, if_neg h]

theorem decodeChars_reference {cs rest : List Char} {c : Char} (h : referenceAt? cs = some (c, rest)) :
    decodeChars ('&' :: cs) = c :: decodeChars rest := by
  rw [decodeChars, if_pos rfl]
  split
  · next d rest' h' =>
    rw [h] at h'
    cases h'
    rfl
  · next h' => rw [h] at h'; cases h'

theorem decodeChars_escapeChar (place : Place) (c : Char) (cs : List Char) :
    decodeChars (escapeChar place c ++ cs) = c :: decodeChars cs := by
  unfold escapeChar
  split
  · exact decodeChars_reference rfl
  · exact decodeChars_reference rfl
  · exact decodeChars_reference rfl
  · cases place with
    | content => exact decodeChars_cons_of_ne (by decide) cs
    | attributeValue => exact decodeChars_reference rfl
  · next h _ _ _ => exact decodeChars_cons_of_ne h cs

/-- escaped text is decoded to the text -/
theorem decode_escape (place : Place) (s : String) : decode (escape place s).toList = s := by
  have h : ∀ cs : List Char, decodeChars (cs.flatMap (escapeChar place)) = cs := by
    intro cs
    induction cs with
    | nil => simp [decodeChars]
    | cons c cs ih => rw [List.flatMap_cons, decodeChars_escapeChar, ih]
  rw [decode, escape, String.toList_ofList, h, String.ofList_toList]

theorem lt_not_mem_escape (place : Place) (s : String) : '<' ∉ (escape place s).toList := by
  rw [escape, String.toList_ofList, List.mem_flatMap]
  rintro ⟨c, -, hc⟩
  unfold escapeChar at hc
  split at hc
  · exact absurd hc (by decide)
  · exact absurd hc (by decide)
  · exact absurd hc (by decide)
  · cases place <;> exact absurd hc (by decide)
  · next _ h _ _ => exact h (List.mem_singleton.1 hc).symm

theorem quote_not_mem_escape (s : String) : '"' ∉ (escape .attributeValue s).toList := by
  rw [escape, String.toList_ofList, List.mem_flatMap]
  rintro ⟨c, -, hc⟩
  unfold escapeChar at hc
  split at hc
  · exact absurd hc (by decide)
  · exact absurd hc (by decide)
  · exact absurd hc (by decide)
  · exact absurd hc (by decide)
  · next _ _ _ h => exact h (List.mem_singleton.1 hc).symm

theorem escape_eq_empty_iff {place : Place} {s : String} : (escape place s).toList = [] ↔ s = "" := by
  constructor
  · intro h
    have hd := decode_escape place s
    rw [h] at hd
    rw [← hd]
    simp [decode, decodeChars]
  · rintro rfl
    rfl

/-! ## Pieces -/

theorem takeWhile_append_stop {p : Char → Bool} {cs : List Char} (h : ∀ c ∈ cs, p c = true) {d : Char}
    (hd : p d = false) (rest : List Char) : (cs ++ d :: rest).takeWhile p = cs := by
  rw [List.takeWhile_append_of_pos h, List.takeWhile_cons_of_neg (by simp [hd]), List.append_nil]

theorem dropWhile_append_stop {p : Char → Bool} {cs : List Char} (h : ∀ c ∈ cs, p c = true) {d : Char}
    (hd : p d = false) (rest : List Char) : (cs ++ d :: rest).dropWhile p = d :: rest := by
  rw [List.dropWhile_append_of_pos h, List.dropWhile_cons_of_neg (by simp [hd])]

theorem takeWhile_ne_append {cs : List Char} {d : Char} (h : d ∉ cs) (rest : List Char) :
    (cs ++ d :: rest).takeWhile (· ≠ d) = cs :=
  takeWhile_append_stop (fun _ hc => decide_eq_true (ne_of_mem_of_not_mem hc h)) (by simp) rest

theorem skipPast_append {cs : List Char} {d : Char} (h : d ∉ cs) (rest : List Char) :
    skipPast d (cs ++ d :: rest) = rest := by
  rw [skipPast, dropWhile_append_stop (fun _ hc => decide_eq_true (ne_of_mem_of_not_mem hc h)) (by simp),
    List.tail_cons]

/-- what text can be followed by without reaching into it -/
def IsClear (cs : List Char) : Prop := cs = [] ∨ ∃ rest, cs = '<' :: rest ∧ startsMarkup rest = true

theorem textRun_append {cs rest : List Char} (h : '<' ∉ cs) (hr : IsClear rest) :
    textRun (cs ++ rest) = (cs, rest) := by
  induction cs with
  | nil =>
    rcases hr with rfl | ⟨rest, rfl, hr⟩
    · rfl
    · simp [textRun, hr]
  | cons c cs ih =>
    have hc : ¬ c = '<' := fun e => h (e ▸ List.mem_cons_self)
    have := ih (fun hm => h (List.mem_cons_of_mem c hm))
    simp [textRun, hc, this]

/-- a comment ends at the first place where its end begins, even if its data ends with dashes -/
theorem cutAt_comment {data : List Char} (h : ¬ ['-', '-', '>'] <:+: data) (rest : List Char) :
    cutAt ['-', '-', '>'] (data ++ '-' :: '-' :: '>' :: rest) = (data, rest) := by
  induction data with
  | nil => simp [cutAt]
  | cons c data ih =>
    have hp : ¬ ['-', '-', '>'] <+: c :: (data ++ '-' :: '-' :: '>' :: rest) := by
      intro hp
      rcases data with - | ⟨d, - | ⟨e, data⟩⟩
      · simp at hp
      · simp at hp
      · obtain ⟨rfl, rfl, rfl⟩ : '-' = c ∧ '-' = d ∧ '>' = e := by simpa using hp
        exact h ⟨[], data, rfl⟩
    have := ih (fun hi => h (hi.trans (List.infix_cons_iff.2 (.inr List.infix_rfl))))
    rw [List.cons_append, cutAt, if_neg (by simpa using hp), this]

theorem lt_not_mem_rawTag {tag : String} (h : isRawText tag = true) : '<' ∉ lowerChars tag.toList := by
  obtain ⟨raw, hraw, hs⟩ := List.any_eq_true.1 h
  rw [← sameLetters_iff.1 hs]
  simp only [rawTextTags, List.mem_cons, List.not_mem_nil, or_false] at hraw
  rcases hraw with rfl | rfl | rfl | rfl <;> decide

theorem rawRun_of_stays {tag cs : List Char} (h : '<' :: '/' :: tag <+: lowerChars cs) : rawRun tag cs = ([], cs) := by
  cases cs with
  | nil => rfl
  | cons c cs => rw [rawRun]; exact if_pos (lowerChars_take_eq_iff.2 h)

theorem rawRun_cons {tag cs : List Char} {c : Char} (h : ¬ '<' :: '/' :: tag <+: lowerChars (c :: cs)) :
    rawRun tag (c :: cs) = (c :: (rawRun tag cs).1, (rawRun tag cs).2) := by
  rw [rawRun]
  exact if_neg fun he => h (lowerChars_take_eq_iff.1 he)

/-- raw text ends where the end tag begins, since no end tag overlaps itself -/
theorem rawRun_append {tag : String} (hr : isRawText tag = true) {data : List Char}
    (h : ¬ endMark tag <:+: lowerChars data) (rest : List Char) :
    rawRun (lowerChars tag.toList) (data ++ '<' :: '/' :: (tag.toList ++ rest)) =
      (data, '<' :: '/' :: (tag.toList ++ rest)) := by
  induction data with
  | nil =>
    refine rawRun_of_stays ⟨lowerChars rest, ?_⟩
    simp [lowerChars]
  | cons c data ih =>
    have hp : ¬ endMark tag <+: lowerChars (c :: (data ++ '<' :: '/' :: (tag.toList ++ rest))) := by
      intro hp
      rw [← List.cons_append, lowerChars, List.map_append] at hp
      rcases List.prefix_or_prefix_of_prefix hp (List.prefix_append _ _) with hin | ⟨m, hm⟩
      · exact h hin.isInfix
      · rw [← hm, List.prefix_append_right_inj] at hp
        rcases m with - | ⟨d, m⟩
        · rw [List.append_nil] at hm
          exact h (hm ▸ List.infix_rfl)
        · -- the part of the end mark beyond the data would begin with `<`
          obtain rfl : d = '<' := by simpa using (List.cons_prefix_cons.1 hp).1
          have hmem : '<' ∈ '/' :: lowerChars tag.toList := by
            have ht := congrArg List.tail hm
            rw [List.map_cons, List.cons_append, List.tail_cons, endMark, List.tail_cons] at ht
            rw [← ht]
            exact List.mem_append_right _ List.mem_cons_self
          rcases List.mem_cons.1 hmem with h' | h'
          · exact absurd h' (by decide)
          · exact lt_not_mem_rawTag hr h'
    have hrest := ih (fun hi => h (hi.trans (List.infix_cons_iff.2 (.inr List.infix_rfl))))
    rw [List.cons_append, rawRun_cons hp, hrest]

/-! ## Attributes -/

theorem attributeList_congr {cs ds : List Char} (h : cs.dropWhile isBlank = ds.dropWhile isBlank) :
    attributeList cs = attributeList ds := by
  rw [attributeList.eq_def cs, attributeList.eq_def ds]
  generalize cs.dropWhile isBlank = x at h
  subst h
  rfl

theorem attributeList_gt (rest : List Char) : attributeList ('>' :: rest) = ([], .open, rest) := by
  rw [attributeList.eq_def]
  rfl

/-- an attribute: its name goes up to the next character that is in no name -/
theorem attributeList_name {cs rest : List Char} {c : Char} (h : cs.dropWhile isBlank = c :: rest)
    (hc : isNameChar c = true) :
    attributeList cs =
      ((String.ofList (c :: rest.takeWhile isNameChar), decode (valueAfterName (rest.dropWhile isNameChar)).1) ::
        (attributeList (valueAfterName (rest.dropWhile isNameChar)).2).1,
        (attributeList (valueAfterName (rest.dropWhile isNameChar)).2).2) := by
  rw [attributeList.eq_def]
  split
  · next h' => rw [h] at h'; cases h'
  · next h' => rw [h] at h'; cases h'; exact absurd hc (by decide)
  · next h' => rw [h] at h'; cases h'; exact absurd hc (by decide)
  · next h' => rw [h] at h'; cases h'; exact absurd hc (by decide)
  · next h' => rw [h] at h'; cases h'; exact absurd hc (by decide)
  · next h' => rw [h] at h'; cases h'; rfl

/-- the value of a printed attribute with the equals sign before it; nothing if it is empty -/
def valueChars (value : String) : List Char :=
  if value = "" then [] else '=' :: '"' :: ((escape .attributeValue value).toList ++ ['"'])

theorem toList_printAttribute (name value : String) :
    (printAttribute name value).toList = ' ' :: (name.toList ++ valueChars value) := by
  by_cases h : value = ""
  · simp [printAttribute, valueChars, h]
  · have hv : value.isEmpty = false := by simpa using h
    simp [printAttribute, valueChars, h, hv]

theorem valueAfterName_quoted {value : List Char} (h : '"' ∉ value) (rest : List Char) :
    valueAfterName ('=' :: '"' :: (value ++ '"' :: rest)) = (value, rest) := by
  have hb : ∀ ds : List Char, ('"' :: ds).dropWhile isBlank = '"' :: ds :=
    fun ds => List.dropWhile_cons_of_neg (by decide)
  unfold valueAfterName
  rw [List.dropWhile_cons_of_neg (by decide)]
  simp only [hb]
  rw [attributeValue, if_pos (by decide), takeWhile_ne_append h, skipPast_append h]

/-- text that is read as these attributes, where the start tag ends right behind it -/
structure ReadsAsAttributes (cs : List Char) (attributes : Attributes) : Prop where
  /-- a name before it ends there -/
  stop : ∀ rest, ∃ d ds, cs ++ '>' :: rest = d :: ds ∧ isNameChar d = false
  /-- it does not look like the value of an attribute before it -/
  noValue : ∀ rest, ∃ d ds, (cs ++ '>' :: rest).dropWhile isBlank = d :: ds ∧ d ≠ '='
  list : ∀ rest, attributeList (cs ++ '>' :: rest) = (attributes, .open, rest)

namespace ReadsAsAttributes

variable {cs : List Char} {attributes : Attributes}

theorem nil : ReadsAsAttributes [] [] where
  stop rest := ⟨'>', rest, rfl, by decide⟩
  noValue rest := ⟨'>', rest, rfl, by decide⟩
  list rest := attributeList_gt rest

theorem blank (h : ReadsAsAttributes cs attributes) : ReadsAsAttributes (' ' :: cs) attributes where
  stop rest := ⟨' ', cs ++ '>' :: rest, rfl, by decide⟩
  noValue rest := by
    rw [List.cons_append, List.dropWhile_cons_of_pos (by decide)]
    exact h.noValue rest
  list rest := by
    rw [List.cons_append, ← h.list rest]
    exact attributeList_congr (List.dropWhile_cons_of_pos (by decide))

theorem valueAfterName_nil (h : ReadsAsAttributes cs attributes) (rest : List Char) :
    valueAfterName (cs ++ '>' :: rest) = ([], (cs ++ '>' :: rest).dropWhile isBlank) := by
  obtain ⟨d, ds, hd, hne⟩ := h.noValue rest
  unfold valueAfterName
  rw [hd]
  split
  · next he => exact absurd (List.cons.inj he).1 hne
  · rfl

theorem named {name : String} (hn : IsAttributeName name) (value : String) (h : ReadsAsAttributes cs attributes) :
    ReadsAsAttributes (' ' :: (name.toList ++ (valueChars value ++ cs))) ((name, value) :: attributes) := by
  obtain ⟨⟨c, ds, hc, hb⟩, hn⟩ := hn
  have hds : ∀ d ∈ ds, isNameChar d = true := fun d hd => hn d (hc ▸ List.mem_cons_of_mem c hd)
  have hblank : ∀ rest, (' ' :: (name.toList ++ (valueChars value ++ cs)) ++ '>' :: rest).dropWhile isBlank =
      c :: (ds ++ (valueChars value ++ (cs ++ '>' :: rest))) := by
    intro rest
    rw [List.cons_append, List.dropWhile_cons_of_pos (by decide), hc, List.cons_append, List.cons_append,
      List.dropWhile_cons_of_neg (by simp [hb]), List.append_assoc, List.append_assoc]
  refine ⟨fun rest => ⟨' ', _, rfl, by decide⟩, fun rest => ⟨c, _, hblank rest, ?_⟩, fun rest => ?_⟩
  · rintro rfl
    exact absurd (hn '=' (hc ▸ List.mem_cons_self)) (by decide)
  · obtain ⟨d, es, hd, hstop⟩ : ∃ d es, valueChars value ++ (cs ++ '>' :: rest) = d :: es ∧ isNameChar d = false := by
      by_cases he : value = ""
      · rw [valueChars, if_pos he]
        exact h.stop rest
      · rw [valueChars, if_neg he]
        exact ⟨'=', _, rfl, by decide⟩
    have htake : (ds ++ (valueChars value ++ (cs ++ '>' :: rest))).takeWhile isNameChar = ds := by
      rw [hd]
      exact takeWhile_append_stop hds hstop es
    have hdrop : (ds ++ (valueChars value ++ (cs ++ '>' :: rest))).dropWhile isNameChar =
        valueChars value ++ (cs ++ '>' :: rest) := by
      rw [hd]
      exact dropWhile_append_stop hds hstop es
    have hvalue : decode (valueAfterName (valueChars value ++ (cs ++ '>' :: rest))).1 = value ∧
        attributeList (valueAfterName (valueChars value ++ (cs ++ '>' :: rest))).2 = (attributes, .open, rest) := by
      by_cases he : value = ""
      · rw [valueChars, if_pos he, List.nil_append, h.valueAfterName_nil rest]
        refine ⟨by rw [he]; simp [decode, decodeChars], ?_⟩
        rw [attributeList_congr (List.dropWhile_idempotent _ _)]
        exact h.list rest
      · rw [valueChars, if_neg he]
        simp only [List.cons_append, List.append_assoc, List.nil_append]
        rw [valueAfterName_quoted (quote_not_mem_escape value)]
        exact ⟨decode_escape _ _, h.list rest⟩
    rw [attributeList_name (hblank rest) (hn c (hc ▸ List.mem_cons_self)), htake, hdrop, hvalue.1, hvalue.2, ← hc,
      String.ofList_toList]

/-- printed attributes are read back -/
theorem print {attributes : Attributes} (ha : ∀ a ∈ attributes, IsAttributeName a.1) :
    ReadsAsAttributes (printAttributes attributes).toList attributes := by
  induction attributes with
  | nil => exact nil
  | cons a attributes ih =>
    obtain ⟨name, value⟩ := a
    rw [List.forall_mem_cons] at ha
    rw [printAttributes, String.toList_append, toList_printAttribute, List.cons_append, List.append_assoc]
    exact (ih ha.2).named ha.1 value

end ReadsAsAttributes

/-! ## Tokens -/

theorem tokens_cons (c : Char) (cs : List Char) : tokens (c :: cs) = (scan c cs).1 :: tokens (scan c cs).2 := by
  rw [tokens]

theorem tokens_text {cs rest : List Char} (hne : cs ≠ []) (h : '<' ∉ cs) (hr : IsClear rest) :
    tokens (cs ++ rest) = .node (.text (decode cs)) :: tokens rest := by
  rcases cs with - | ⟨c, cs⟩
  · exact absurd rfl hne
  · have hc : ¬ c = '<' := fun e => h (e ▸ List.mem_cons_self)
    have hrun := textRun_append (fun hm => h (List.mem_cons_of_mem c hm)) hr
    rw [List.cons_append, tokens_cons]
    simp [scan, hc, hrun]

theorem tokens_comment {data : List Char} (h : ¬ ['-', '-', '>'] <:+: data) (rest : List Char) :
    tokens ('<' :: '!' :: '-' :: '-' :: (data ++ '-' :: '-' :: '>' :: rest)) =
      .node (.comment (String.ofList data)) :: tokens rest := by
  rw [tokens_cons]
  simp [scan, startsMarkup, cutAt_comment h]

/-- what begins with a letter is neither a comment nor an end tag -/
theorem startsMarkup_of_isLetter {c : Char} (h : isLetter c = true) (cs : List Char) :
    startsMarkup (c :: cs) = true := by
  unfold startsMarkup
  split
  · rfl
  · next he => cases he; exact absurd h (by decide)
  · next he => cases he; exact h
  · next he => cases he

theorem tokens_stop {tag : String} (ht : IsTag tag) (rest : List Char) :
    tokens ('<' :: '/' :: (tag.toList ++ '>' :: rest)) = .stop tag :: tokens rest := by
  obtain ⟨⟨c, cs, hc, hl⟩, hn⟩ := ht
  have hs : startsMarkup ('/' :: (tag.toList ++ '>' :: rest)) = true := by
    rw [hc, List.cons_append]; exact hl
  have hgt : '>' ∉ ([] : List Char) := List.not_mem_nil
  rw [tokens_cons]
  simp only [scan, hs]
  rw [takeWhile_append_stop hn (by decide), dropWhile_append_stop hn (by decide), String.ofList_toList]
  exact congrArg (_ :: tokens ·) (skipPast_append hgt rest)

theorem tokens_start {tag : String} {cs : List Char} {attributes : Attributes} (ht : IsTag tag)
    (h : ReadsAsAttributes cs attributes) (rest : List Char) :
    tokens ('<' :: (tag.toList ++ (cs ++ '>' :: rest))) =
      (elementToken tag.toList attributes .open rest).1 :: tokens (elementToken tag.toList attributes .open rest).2 := by
  obtain ⟨⟨c, ds, hc, hl⟩, hn⟩ := ht
  obtain ⟨d, es, hd, hdn⟩ := h.stop rest
  have htake : (tag.toList ++ (cs ++ '>' :: rest)).takeWhile isNameChar = tag.toList := by
    rw [hd]; exact takeWhile_append_stop hn hdn es
  have hdrop : (tag.toList ++ (cs ++ '>' :: rest)).dropWhile isNameChar = cs ++ '>' :: rest := by
    rw [hd]; exact dropWhile_append_stop hn hdn es
  rw [tokens_cons]
  suffices scan '<' (tag.toList ++ (cs ++ '>' :: rest)) = elementToken tag.toList attributes .open rest by
    rw [this]
  unfold scan
  rw [if_pos (by rw [hc, List.cons_append, startsMarkup_of_isLetter hl]; rfl)]
  split
  · next he =>
    rw [hc, List.cons_append] at he
    exact absurd ((List.cons.inj he).1 ▸ hl) (by decide)
  · next he =>
    rw [hc, List.cons_append] at he
    exact absurd ((List.cons.inj he).1 ▸ hl) (by decide)
  · rw [htake, hdrop, h.list]

theorem elementToken_void {tag : String} (hv : isVoid tag = true) (attributes : Attributes) (cs : List Char) :
    elementToken tag.toList attributes .open cs = (.node (.element tag attributes []), cs) := by
  simp [elementToken, hv]

theorem elementToken_normal {tag : String} (hv : isVoid tag = false) (hr : isRawText tag = false)
    (attributes : Attributes) (cs : List Char) :
    elementToken tag.toList attributes .open cs = (.start tag attributes, cs) := by
  simp [elementToken, hv, hr]

theorem elementToken_raw {tag : String} (hv : isVoid tag = false) (hr : isRawText tag = true)
    (hn : ∀ c ∈ tag.toList, isNameChar c = true) (attributes : Attributes) {data : List Char}
    (hd : ¬ endMark tag <:+: lowerChars data) (rest : List Char) :
    elementToken tag.toList attributes .open (data ++ '<' :: '/' :: (tag.toList ++ '>' :: rest)) =
      (.node (.element tag attributes (if data.isEmpty then [] else [.text (String.ofList data)])), rest) := by
  have hgt : '>' ∉ '<' :: '/' :: tag.toList := by
    intro h
    simp only [List.mem_cons] at h
    rcases h with h | h | h
    · exact absurd h (by decide)
    · exact absurd h (by decide)
    · exact absurd (hn '>' h) (by decide)
  have hskip : skipPast '>' ('<' :: '/' :: (tag.toList ++ '>' :: rest)) = rest := skipPast_append hgt rest
  simp [elementToken, hv, hr, rawRun_append hr hd, hskip]

/-! ## Forests as tokens -/

mutual
def Node.tokens : Node → List Token
  | .element tag attributes children =>
    if isVoid tag || isRawText tag then [.node (.element tag attributes children)]
    else .start tag attributes :: (tokensOf children ++ [.stop tag])
  | .text data => [.node (.text data)]
  | .comment data => [.node (.comment data)]
def tokensOf : List Node → List Token
  | [] => []
  | n :: ns => n.tokens ++ tokensOf ns
end

theorem Nest.foldl_add (ns : List Node) (done : List Node) :
    ns.foldl (fun nest n => nest.add n) (⟨done, []⟩ : Nest) = ⟨done ++ ns, []⟩ := by
  induction ns generalizing done with
  | nil => simp
  | cons n ns ih => rw [List.foldl_cons, Nest.add, ih, List.append_assoc]; rfl

theorem Nest.foldl_add_frame (ns : List Node) (done : List Node) (f : Frame) (fs : List Frame) :
    ns.foldl (fun nest n => nest.add n) (⟨done, f :: fs⟩ : Nest) =
      ⟨done, { f with children := f.children ++ ns } :: fs⟩ := by
  induction ns generalizing f with
  | nil => simp
  | cons n ns ih => rw [List.foldl_cons, Nest.add, ih]; simp

mutual
theorem Node.foldl_tokens : (n : Node) → (nest : Nest) → n.tokens.foldl Nest.step nest = nest.add n
  | .element tag attributes children, nest => by
    rw [Node.tokens]
    split
    · rfl
    · rw [List.foldl_cons, List.foldl_append, foldl_tokensOf children, Nest.step, Nest.foldl_add_frame]
      simp [Nest.step, Nest.closeTag, List.findIdx?_cons, Nest.popMany, Nest.pop, Frame.close]
  | .text _, _ => rfl
  | .comment _, _ => rfl
theorem foldl_tokensOf : (ns : List Node) → (nest : Nest) →
    (tokensOf ns).foldl Nest.step nest = ns.foldl (fun nest n => nest.add n) nest
  | [], _ => rfl
  | n :: ns, nest => by
    rw [tokensOf, List.foldl_append, Node.foldl_tokens n, foldl_tokensOf ns, List.foldl_cons]
end

/-- the tokens of a forest build that forest -/
theorem forest_tokensOf (ns : List Node) : forest (tokensOf ns) = ns := by
  rw [forest, foldl_tokensOf, Nest.foldl_add]
  rfl

/-! ## Printed forests -/

theorem toList_printText {parent : Option String} (hp : parent.any isRawText = false) (data : String) :
    (printText parent data).toList = (escape .content data).toList := by
  rw [printText, hp]
  rfl

theorem toList_printStart (tag : String) (attributes : Attributes) (rest : List Char) :
    (printStart tag attributes).toList ++ rest =
      '<' :: (tag.toList ++ ((printAttributes attributes).toList ++ '>' :: rest)) := by
  simp [printStart]

theorem toList_printEnd {tag : String} (hv : isVoid tag = false) (rest : List Char) :
    (printEnd tag).toList ++ rest = '<' :: '/' :: (tag.toList ++ '>' :: rest) := by
  simp [printEnd, hv]

theorem isClear_printEnd {tag : String} (ht : IsTag tag) (rest : List Char) :
    IsClear ('<' :: '/' :: (tag.toList ++ '>' :: rest)) := by
  obtain ⟨⟨c, cs, hc, hl⟩, -⟩ := ht
  exact .inr ⟨_, rfl, by rw [hc, List.cons_append]; exact hl⟩

/-- what is printed begins with markup unless it begins with a text -/
theorem isClear_printAll {ns : List Node} (hw : WellFormed ns) (hb : beginsWithText ns = false)
    {parent : Option String} {rest : List Char} (hr : IsClear rest) :
    IsClear ((printAll parent ns).toList ++ rest) := by
  rcases ns with - | ⟨n, ns⟩
  · exact hr
  · rw [printAll, String.toList_append, List.append_assoc]
    cases n with
    | text => cases hb
    | comment data =>
      refine .inr ⟨'!' :: '-' :: '-' :: (data.toList ++ '-' :: '-' :: '>' :: ((printAll parent ns).toList ++ rest)),
        ?_, rfl⟩
      simp [Node.print, printComment]
    | element tag attributes children =>
      obtain ⟨⟨c, cs, hc, hl⟩, -⟩ := hw.1.1
      have h := toList_printStart tag attributes ((printAll (some tag) children).toList ++ ((printEnd tag).toList ++
        ((printAll parent ns).toList ++ rest)))
      rw [hc, List.cons_append] at h
      rw [Node.print, String.toList_append, String.toList_append, List.append_assoc, List.append_assoc]
      exact .inr ⟨_, h, startsMarkup_of_isLetter hl _⟩

/-- an element is read from its start tag, the text of its content and its end tag -/
theorem tokens_element {tag : String} {attributes : Attributes} {children : List Node} {cs content : List Char}
    (ht : IsTag tag) (ha : ReadsAsAttributes cs attributes)
    (hv : isVoid tag = true → children = [] ∧ content = [])
    (hr : isRawText tag = true → ¬ endMark tag <:+: lowerChars content ∧
      (if content.isEmpty then [] else [Node.text (String.ofList content)]) = children)
    (hc : isRawText tag = false → ∀ rest, IsClear rest → tokens (content ++ rest) = tokensOf children ++ tokens rest)
    (rest : List Char) :
    tokens ('<' :: (tag.toList ++ (cs ++ '>' :: (content ++ ((printEnd tag).toList ++ rest))))) =
      (Node.element tag attributes children).tokens ++ tokens rest := by
  rw [Node.tokens, tokens_start ht ha]
  by_cases hvoid : isVoid tag = true
  · obtain ⟨rfl, rfl⟩ := hv hvoid
    have hend : (printEnd tag).toList = [] := by rw [printEnd, if_pos hvoid]; rfl
    rw [elementToken_void hvoid, hvoid, hend]
    rfl
  · have hvoid : isVoid tag = false := Bool.eq_false_iff.2 hvoid
    rw [toList_printEnd hvoid]
    by_cases hraw : isRawText tag = true
    · obtain ⟨hend, hchildren⟩ := hr hraw
      rw [elementToken_raw hvoid hraw ht.2 attributes hend, hchildren, hraw, Bool.or_true]
      rfl
    · have hraw : isRawText tag = false := Bool.eq_false_iff.2 hraw
      rw [elementToken_normal hvoid hraw, hc hraw _ (isClear_printEnd ht rest), tokens_stop ht, hvoid, hraw]
      simp

/-- the content of a raw text element is read back -/
theorem raw_content {tag : String} {children : List Node} (hr : isRawText tag = true) (hc : IsRawContent tag children)
    (hn : IsNormal children) :
    ¬ endMark tag <:+: lowerChars (printAll (some tag) children).toList ∧
      (if (printAll (some tag) children).toList.isEmpty then []
        else [Node.text (String.ofList (printAll (some tag) children).toList)]) = children := by
  rcases hc with rfl | ⟨data, rfl, hd⟩
  · exact ⟨by simp [printAll, endMark, lowerChars], rfl⟩
  · have hprint : printAll (some tag) [Node.text data] = data := by
      simp [printAll, Node.print, printText, hr]
    have hne : data ≠ "" := hn.1
    rw [hprint]
    exact ⟨hd, by simp [hne]⟩

mutual
theorem Node.tokens_print : (n : Node) → n.WellFormed → n.IsNormal → {parent : Option String} →
    parent.any isRawText = false → (rest : List Char) → (n.isText = true → IsClear rest) →
    Markup.tokens ((n.print parent).toList ++ rest) = n.tokens ++ Markup.tokens rest
  | .element tag attributes children, ⟨ht, ha, hv, hr, hw⟩, hn, parent, _, rest, _ => by
    rw [Node.print, String.toList_append, String.toList_append, List.append_assoc, List.append_assoc, toList_printStart]
    refine tokens_element ht (.print ha) (fun h => ⟨hv h, ?_⟩) (fun h => raw_content h (hr h) hn) (fun h => ?_) rest
    · rw [hv h]
      rfl
    · exact tokens_printAll children hw hn (show (some tag).any isRawText = false from h)
  | .text data, _, hn, parent, hp, rest, hc => by
    rw [Node.print, toList_printText hp, tokens_text (mt escape_eq_empty_iff.1 hn) (lt_not_mem_escape _ _) (hc rfl),
      decode_escape]
    rfl
  | .comment data, hw, _, _, _, rest, _ => by
    have h := tokens_comment hw rest
    rw [String.ofList_toList] at h
    rw [Node.tokens, List.singleton_append, ← h]
    simp [Node.print, printComment]
/-- a printed forest is cut into its tokens -/
theorem tokens_printAll : (ns : List Node) → WellFormed ns → IsNormal ns → {parent : Option String} →
    parent.any isRawText = false → (rest : List Char) → IsClear rest →
    tokens ((printAll parent ns).toList ++ rest) = tokensOf ns ++ tokens rest
  | [], _, _, _, _, _, _ => rfl
  | n :: ns, ⟨hw, hws⟩, ⟨hn, hb, hns⟩, parent, hp, rest, hr => by
    rw [printAll, String.toList_append, List.append_assoc, Node.tokens_print n hw hn hp _
      (fun h => isClear_printAll hws (hb h) hr), tokens_printAll ns hws hns hp rest hr, tokensOf, List.append_assoc]
end

/-- a well-formed, normal forest is read back as it is -/
theorem read_print {ns : List Node} (hw : WellFormed ns) (hn : IsNormal ns) : read (print ns) = ns := by
  have h := tokens_printAll ns hw hn (show (none : Option String).any isRawText = false from rfl) [] (.inl rfl)
  rw [List.append_nil] at h
  rw [read, print, h, show tokens [] = [] from by rw [tokens], List.append_nil, forest_tokensOf]

/-- a well-formed forest is read back with empty texts dropped and neighbouring texts joined -/
theorem read_print_normalize {ns : List Node} (hw : WellFormed ns) : read (print ns) = normalize ns := by
  rw [← print_normalize, read_print (wellFormed_normalize ns hw) (isNormal_normalize ns)]

end LiveMarkup.Markup
