/-
What follows a piece of markup is an end of the text.

Every piece of the reader gives back what it has not read, and that is a suffix of what it was given: nothing is read
twice and nothing is put together anew.
-/
import LiveMarkup.Proofs.Markup.RoundTrip

namespace LiveMarkup.Markup

theorem cutAt_suffix (mark cs : List Char) : (cutAt mark cs).2 <:+ cs := by
  induction cs with
  | nil => exact List.suffix_refl []
  | cons c cs ih =>
    unfold cutAt
    split
    · exact List.drop_suffix _ _
    · exact ih.trans (List.suffix_cons c cs)

theorem skipPast_suffix (stop : Char) (cs : List Char) : skipPast stop cs <:+ cs :=
  (List.tail_suffix _).trans (List.dropWhile_suffix _)

theorem textRun_suffix (cs : List Char) : (textRun cs).2 <:+ cs := by
  induction cs with
  | nil => exact List.suffix_refl []
  | cons c cs ih =>
    unfold textRun
    split
    · exact List.suffix_refl _
    · exact ih.trans (List.suffix_cons c cs)

theorem rawRun_suffix (tag cs : List Char) : (rawRun tag cs).2 <:+ cs := by
  induction cs with
  | nil => exact List.suffix_refl []
  | cons c cs ih =>
    unfold rawRun
    dsimp only
    split
    · exact List.suffix_refl _
    · exact ih.trans (List.suffix_cons c cs)

theorem attributeValue_suffix (cs : List Char) : (attributeValue cs).2 <:+ cs := by
  fun_cases attributeValue cs with
  | case1 => exact List.suffix_refl []
  | case2 c cs => exact (skipPast_suffix c cs).trans (List.suffix_cons c cs)
  | case3 => exact List.dropWhile_suffix _

theorem valueAfterName_suffix (cs : List Char) : (valueAfterName cs).2 <:+ cs := by
  have h := List.dropWhile_suffix isBlank (l := cs)
  unfold valueAfterName
  split
  · next rest hd =>
    rw [hd] at h
    exact (attributeValue_suffix _).trans ((List.dropWhile_suffix _).trans ((List.suffix_cons _ _).trans h))
  · exact h

theorem valueAfterName_congr {cs ds : List Char} (h : cs.dropWhile isBlank = ds.dropWhile isBlank) :
    valueAfterName cs = valueAfterName ds := by
  unfold valueAfterName
  rw [h]

/-- after a token of an element, what follows its start tag or an end of that -/
theorem elementToken_suffix (tag : List Char) (attributes : Attributes) (closing : Closing) (cs : List Char) :
    (elementToken tag attributes closing cs).2 <:+ cs := by
  unfold elementToken
  dsimp only
  split
  · exact List.suffix_refl cs
  · split
    · exact (skipPast_suffix _ _).trans (rawRun_suffix _ _)
    · exact List.suffix_refl cs

end LiveMarkup.Markup
