/-
Well-formed forests: those whose printed form says what they are.

A tag begins with a letter and an attribute name with no blank, and both consist of name characters; void elements are
empty; a raw text element holds at most one text, which does not contain its own end tag; a comment does not contain its
own end. Text may be anything.

- `wellFormed_iff`: a forest is well-formed if each of its nodes is;
- `wellFormed_read`: whatever text is read, the forest is well-formed.
-/
import Mathlib.Data.List.TakeWhile
import LiveMarkup.Proofs.Markup.Nest

namespace LiveMarkup.Markup

/-! ## Names -/

/-- a name that is read as one tag -/
def IsTag (name : String) : Prop :=
  (∃ c cs, name.toList = c :: cs ∧ isLetter c = true) ∧ ∀ c ∈ name.toList, isNameChar c = true

/-- a name that is read as one attribute name -/
def IsAttributeName (name : String) : Prop :=
  (∃ c cs, name.toList = c :: cs ∧ isBlank c = false) ∧ ∀ c ∈ name.toList, isNameChar c = true

/-- what the end tag of a raw text element begins with, capitals folded -/
def endMark (tag : String) : List Char := '<' :: '/' :: lowerChars tag.toList

/-- the content that a raw text element can have -/
def IsRawContent (tag : String) (children : List Node) : Prop :=
  children = [] ∨ ∃ data, children = [.text data] ∧ ¬ endMark tag <:+: lowerChars data.toList

mutual
def Node.WellFormed : Node → Prop
  | .element tag attributes children =>
    IsTag tag ∧ (∀ a ∈ attributes, IsAttributeName a.1) ∧ (isVoid tag = true → children = []) ∧
      (isRawText tag = true → IsRawContent tag children) ∧ WellFormed children
  | .text _ => True
  | .comment data => ¬ ['-', '-', '>'] <:+: data.toList
/-- a forest whose printed form says what it is -/
def WellFormed : List Node → Prop
  | [] => True
  | n :: ns => n.WellFormed ∧ WellFormed ns
end

theorem wellFormed_iff {ns : List Node} : WellFormed ns ↔ ∀ n ∈ ns, n.WellFormed := by
  induction ns with
  | nil => simp [WellFormed]
  | cons n ns ih => simp [WellFormed, ih]

theorem isNameChar_of_isLetter {c : Char} (h : isLetter c = true) : isNameChar c = true := by
  rw [isNameChar, Bool.not_eq_true', Bool.eq_false_iff]
  simp only [isAsciiBlank, ne_eq, Bool.or_eq_true, beq_iff_eq]
  rintro (((((((rfl | rfl) | rfl) | rfl) | rfl) | rfl) | rfl) | rfl) <;> exact absurd h (by decide)

/-! ## Pieces of text -/

theorem isPrefix_cutAt (mark cs : List Char) : (cutAt mark cs).1 <+: cs := by
  induction cs with
  | nil => simp [cutAt]
  | cons c cs ih =>
    unfold cutAt
    split
    · exact List.nil_prefix
    · exact (List.prefix_cons_inj c).2 ih

theorem not_infix_cutAt {mark : List Char} (hm : mark ≠ []) (cs : List Char) : ¬ mark <:+: (cutAt mark cs).1 := by
  induction cs with
  | nil => simpa [cutAt] using hm
  | cons c cs ih =>
    unfold cutAt
    split
    · simpa using hm
    · next hp =>
      intro hi
      rcases List.infix_cons_iff.1 hi with h | h
      · refine hp (List.isPrefixOf_iff_prefix.2 (h.trans ?_))
        exact (List.prefix_cons_inj c).2 (isPrefix_cutAt mark cs)
      · exact ih h

theorem isPrefix_rawRun (tag cs : List Char) : (rawRun tag cs).1 <+: cs := by
  induction cs with
  | nil => simp [rawRun]
  | cons c cs ih =>
    unfold rawRun
    dsimp only
    split
    · exact List.nil_prefix
    · exact (List.prefix_cons_inj c).2 ih

/-- raw text goes up to the first place where its end tag begins -/
theorem lowerChars_take_eq_iff {mark cs : List Char} :
    lowerChars (cs.take mark.length) = mark ↔ mark <+: lowerChars cs := by
  rw [lowerChars, List.map_take, List.prefix_iff_eq_take, eq_comm, lowerChars]

theorem not_infix_rawRun (tag cs : List Char) : ¬ ('<' :: '/' :: tag) <:+: lowerChars (rawRun tag cs).1 := by
  induction cs with
  | nil => simp [rawRun, lowerChars]
  | cons c cs ih =>
    unfold rawRun
    dsimp only
    split
    · simp [lowerChars]
    · next hp =>
      intro hi
      rcases List.infix_cons_iff.1 hi with h | h
      · refine hp (lowerChars_take_eq_iff.2 (h.trans ?_))
        exact ((List.prefix_cons_inj c).2 (isPrefix_rawRun tag cs)).map Char.toLower
      · exact ih h

/-! ## What is read -/

def Token.WellFormed : Token → Prop
  | node n => n.WellFormed
  | start tag attributes =>
    IsTag tag ∧ (∀ a ∈ attributes, IsAttributeName a.1) ∧ isVoid tag = false ∧ isRawText tag = false
  | stop _ => True

theorem isTag_takeWhile {c : Char} {cs : List Char} (h : isLetter c = true) :
    IsTag (String.ofList ((c :: cs).takeWhile isNameChar)) := by
  have hc := isNameChar_of_isLetter h
  refine ⟨⟨c, cs.takeWhile isNameChar, by simp [hc], h⟩, fun d hd => ?_⟩
  rw [String.toList_ofList] at hd
  exact List.mem_takeWhile_imp hd

theorem attributeList_names (cs : List Char) : ∀ a ∈ (attributeList cs).1, IsAttributeName a.1 := by
  fun_induction attributeList cs with
  | case1 => simp
  | case2 => simp
  | case3 => simp
  | case4 cs rest _ _ ih => exact ih
  | case5 cs rest _ ih => exact ih
  | case6 cs c rest hgt hslash' hslash heq hd value others ih =>
    intro a ha
    rcases List.mem_cons.1 ha with rfl | ha
    · have hblank : isBlank c = false := by
        have := List.head?_dropWhile_not isBlank cs
        rw [hd] at this
        simpa using this
      have hname : isNameChar c = true := by
        have hascii : isAsciiBlank c = false := by
          rw [Bool.eq_false_iff]
          exact fun h => Bool.eq_false_iff.1 hblank (isBlank_of_isAsciiBlank h)
        have h1 : c ≠ '>' := fun h => hgt h
        have h2 : c ≠ '/' := fun h => hslash h
        have h3 : c ≠ '=' := fun h => heq h
        simp [isNameChar, hascii, h1, h2, h3]
      refine ⟨⟨c, _, String.toList_ofList, hblank⟩, fun d hdm => ?_⟩
      rw [String.toList_ofList] at hdm
      rcases List.mem_cons.1 hdm with rfl | hdm
      · exact hname
      · exact List.mem_takeWhile_imp hdm
    · exact ih a ha

theorem elementToken_wellFormed {tag : List Char} {attributes : Attributes} (ht : IsTag (String.ofList tag))
    (ha : ∀ a ∈ attributes, IsAttributeName a.1) (closing : Closing) (cs : List Char) :
    (elementToken tag attributes closing cs).1.WellFormed := by
  unfold elementToken
  dsimp only
  split
  · exact ⟨ht, ha, fun _ => rfl, fun _ => .inl rfl, trivial⟩
  · next hv =>
    simp only [Bool.or_eq_true, decide_eq_true_eq, not_or, Bool.not_eq_true] at hv
    split
    · refine ⟨ht, ha, fun h => ?_, fun _ => ?_, ?_⟩
      · rw [hv.2] at h; cases h
      · by_cases hr : (rawRun (lowerChars tag) cs).1.isEmpty = true
        · exact .inl (if_pos hr)
        · refine .inr ⟨_, if_neg hr, ?_⟩
          rw [String.toList_ofList, endMark, String.toList_ofList]
          exact not_infix_rawRun _ _
      · by_cases hr : (rawRun (lowerChars tag) cs).1.isEmpty = true
        · rw [if_pos hr]; trivial
        · rw [if_neg hr]; exact ⟨trivial, trivial⟩
    · next hr => exact ⟨ht, ha, hv.2, Bool.eq_false_iff.2 hr⟩

theorem scan_wellFormed (c : Char) (cs : List Char) : (scan c cs).1.WellFormed := by
  unfold scan
  split
  · next h =>
    simp only [Bool.and_eq_true, decide_eq_true_eq] at h
    split
    · next body =>
      show ¬ _ <:+: _
      rw [String.toList_ofList]
      exact not_infix_cutAt (by simp) body
    · trivial
    · next body hcomment hstop =>
      obtain ⟨d, ds, rfl⟩ : ∃ d ds, cs = d :: ds := by
        cases cs with
        | nil => exact absurd h.2 (by decide)
        | cons d ds => exact ⟨d, ds, rfl⟩
      have hd : isLetter d = true := by
        have h2 := h.2
        unfold startsMarkup at h2
        split at h2
        · next heq => exact absurd heq (hcomment _)
        · next heq => exact absurd heq (hstop _)
        · next heq => rwa [(List.cons.inj heq).1]
        · cases h2
      exact elementToken_wellFormed (isTag_takeWhile hd) (attributeList_names _) _ _
  · trivial

theorem tokens_wellFormed (cs : List Char) : ∀ t ∈ tokens cs, t.WellFormed := by
  fun_induction tokens cs with
  | case1 => simp
  | case2 c cs ih =>
    intro t ht
    rcases List.mem_cons.1 ht with rfl | ht
    · exact scan_wellFormed c cs
    · exact ih t ht

/-- whatever text is read, the forest is well-formed -/
theorem wellFormed_read (s : String) : WellFormed (read s) := by
  refine wellFormed_iff.2 (forest_all (fun n hn => tokens_wellFormed _ _ hn) ?_)
  intro tag attributes children ht hc
  obtain ⟨h1, h2, h3, h4⟩ := tokens_wellFormed _ _ ht
  refine ⟨h1, h2, fun h => ?_, fun h => ?_, wellFormed_iff.2 hc⟩
  · rw [h3] at h; cases h
  · rw [h4] at h; cases h

end LiveMarkup.Markup
