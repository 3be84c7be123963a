/-
Tokens of markup: what a reader meets from left to right, with no nesting yet.

`tokens` cuts any text into tokens and never fails. A `<` begins a comment, an end tag or a start tag only if `!--`, a
letter, or `/` and a letter follows it (`startsMarkup`); any other character begins text, which runs up to the next `<`
that begins markup. What is missing at the end of the input (a closing quote, `-->`, `>`) counts as standing there.
Void elements, self-closing elements and raw text elements are complete when their start tag has been read.
`length_scan`: after its first character, a token leaves no more than there was.
-/
import LiveMarkup.Text.Blank
import LiveMarkup.Markup.Basic
import LiveMarkup.Markup.Entity

namespace LiveMarkup.Markup

/-- a token: a complete node, or the start or end tag of an element with content -/
inductive Token where
  | node (n : Node)
  | start (tag : String) (attributes : Attributes)
  | stop (tag : String)
deriving DecidableEq, Repr, Inhabited

/-! ## Pieces -/

/-- what is before and after the first occurrence of `mark`; everything and nothing if there is none -/
def cutAt (mark : List Char) : List Char → List Char × List Char
  | [] => ([], [])
  | c :: cs =>
    if mark.isPrefixOf (c :: cs) then ([], (c :: cs).drop mark.length)
    else (c :: (cutAt mark cs).1, (cutAt mark cs).2)

/-- what follows the first `stop`; nothing if there is none -/
def skipPast (stop : Char) (cs : List Char) : List Char := (cs.dropWhile (· ≠ stop)).tail

def isNameChar (c : Char) : Bool := !(isAsciiBlank c || c == '>' || c == '/' || c == '=')

/-- a character of an attribute value without quotes -/
def isBareChar (c : Char) : Bool := !(isAsciiBlank c || c == '>')

/-- whether `<` begins markup, given what follows it -/
def startsMarkup : List Char → Bool
  | '!' :: '-' :: '-' :: _ => true
  | '/' :: c :: _ => isLetter c
  | c :: _ => isLetter c
  | [] => false

/-- text up to the next `<` that begins markup, and what follows -/
def textRun : List Char → List Char × List Char
  | [] => ([], [])
  | c :: cs =>
    if c = '<' && startsMarkup cs then ([], c :: cs)
    else (c :: (textRun cs).1, (textRun cs).2)

/-- raw text up to the end tag of an element with folded tag `tag`, and what follows -/
def rawRun (tag : List Char) : List Char → List Char × List Char
  | [] => ([], [])
  | c :: cs =>
    let mark := '<' :: '/' :: tag
    if lowerChars ((c :: cs).take mark.length) = mark then ([], c :: cs)
    else (c :: (rawRun tag cs).1, (rawRun tag cs).2)

theorem length_cutAt (mark cs : List Char) : (cutAt mark cs).2.length ≤ cs.length := by
  induction cs with
  | nil => simp [cutAt]
  | cons c cs ih =>
    unfold cutAt
    split
    · simp
    · simp only [List.length_cons]
      omega

theorem length_skipPast (stop : Char) (cs : List Char) : (skipPast stop cs).length ≤ cs.length := by
  have := (List.dropWhile_suffix (· ≠ stop) (l := cs)).length_le
  simp only [skipPast, List.length_tail]; omega

theorem length_textRun (cs : List Char) : (textRun cs).2.length ≤ cs.length := by
  induction cs with
  | nil => simp [textRun]
  | cons c cs ih =>
    unfold textRun
    split
    · simp
    · simp only [List.length_cons]
      omega

theorem length_rawRun (tag cs : List Char) : (rawRun tag cs).2.length ≤ cs.length := by
  induction cs with
  | nil => simp [rawRun]
  | cons c cs ih =>
    unfold rawRun
    dsimp only
    split
    · simp
    · simp only [List.length_cons]
      omega

/-! ## Attributes -/

def attributeValue : List Char → List Char × List Char
  | [] => ([], [])
  | c :: cs =>
    if c = '"' || c = '\'' then (cs.takeWhile (· ≠ c), skipPast c cs)
    else ((c :: cs).takeWhile isBareChar, (c :: cs).dropWhile isBareChar)

/-- the value after an attribute's name, if an equals sign follows, and what follows it -/
def valueAfterName (cs : List Char) : List Char × List Char :=
  match cs.dropWhile isBlank with
  | '=' :: rest => attributeValue (rest.dropWhile isBlank)
  | rest => ([], rest)

theorem length_attributeValue (cs : List Char) : (attributeValue cs).2.length ≤ cs.length := by
  fun_cases attributeValue cs with
  | case1 => simp
  | case2 c cs h =>
    have := length_skipPast c cs
    simp only [List.length_cons]; omega
  | case3 c cs h => exact (List.dropWhile_suffix _).length_le

theorem length_valueAfterName (cs : List Char) : (valueAfterName cs).2.length ≤ cs.length := by
  unfold valueAfterName
  have h := (List.dropWhile_suffix isBlank (l := cs)).length_le
  split
  · next rest hd =>
    have h1 := length_attributeValue (rest.dropWhile isBlank)
    have h2 := (List.dropWhile_suffix isBlank (l := rest)).length_le
    rw [hd, List.length_cons] at h
    omega
  · simpa using h

inductive Closing where
  | open
  | selfClosed
deriving DecidableEq, Repr

/-- the attributes of a start tag, how it ends and what follows it; a lone `/` and a stray `=` are skipped -/
def attributeList (cs : List Char) : Attributes × Closing × List Char :=
  match _h : cs.dropWhile isBlank with
  | [] => ([], .open, [])
  | '>' :: rest => ([], .open, rest)
  | '/' :: '>' :: rest => ([], .selfClosed, rest)
  | '/' :: rest => attributeList rest
  | '=' :: rest => attributeList rest
  | c :: rest =>
    let value := valueAfterName (rest.dropWhile isNameChar)
    let others := attributeList value.2
    ((String.ofList (c :: rest.takeWhile isNameChar), decode value.1) :: others.1, others.2)
termination_by cs.length
decreasing_by
  all_goals
    have h1 := (List.dropWhile_suffix isBlank (l := cs)).length_le
    rw [_h, List.length_cons] at h1
  · omega
  · omega
  · have h2 := length_valueAfterName (rest.dropWhile isNameChar)
    have h3 := (List.dropWhile_suffix isNameChar (l := rest)).length_le
    omega

/-! ## Tokens -/

/-- the token of an element whose start tag has been read, and what follows it -/
def elementToken (tag : List Char) (attributes : Attributes) (closing : Closing) (cs : List Char) :
    Token × List Char :=
  let name := String.ofList tag
  if closing = .selfClosed || isVoid name then (.node (.element name attributes []), cs)
  else if isRawText name then
    let run := rawRun (lowerChars tag) cs
    let content := if run.1.isEmpty then [] else [Node.text (String.ofList run.1)]
    (.node (.element name attributes content), skipPast '>' run.2)
  else (.start name attributes, cs)

/-- the first token of `c :: cs` and what follows it -/
def scan (c : Char) (cs : List Char) : Token × List Char :=
  if c = '<' && startsMarkup cs then
    match cs with
    | '!' :: '-' :: '-' :: body =>
      let cut := cutAt ['-', '-', '>'] body
      (.node (.comment (String.ofList cut.1)), cut.2)
    | '/' :: body =>
      (.stop (String.ofList (body.takeWhile isNameChar)), skipPast '>' (body.dropWhile isNameChar))
    | body =>
      let list := attributeList (body.dropWhile isNameChar)
      elementToken (body.takeWhile isNameChar) list.1 list.2.1 list.2.2
  else
    let run := textRun cs
    (.node (.text (decode (c :: run.1))), run.2)

theorem length_attributeList (cs : List Char) : (attributeList cs).2.2.length ≤ cs.length := by
  fun_induction attributeList cs with
  | case1 cs h => simp
  | case2 cs rest h =>
    have h1 := (List.dropWhile_suffix isBlank (l := cs)).length_le
    rw [h, List.length_cons] at h1; dsimp only; omega
  | case3 cs rest h =>
    have h1 := (List.dropWhile_suffix isBlank (l := cs)).length_le
    rw [h, List.length_cons, List.length_cons] at h1; dsimp only; omega
  | case4 cs rest _ h ih =>
    have h1 := (List.dropWhile_suffix isBlank (l := cs)).length_le
    rw [h, List.length_cons] at h1; omega
  | case5 cs rest h ih =>
    have h1 := (List.dropWhile_suffix isBlank (l := cs)).length_le
    rw [h, List.length_cons] at h1; omega
  | case6 cs c rest _ _ _ _ h value others ih =>
    have h1 := (List.dropWhile_suffix isBlank (l := cs)).length_le
    have h2 := length_valueAfterName (rest.dropWhile isNameChar)
    have h3 := (List.dropWhile_suffix isNameChar (l := rest)).length_le
    rw [h, List.length_cons] at h1
    dsimp only [others, value] at ih ⊢; omega

theorem length_elementToken (tag : List Char) (attributes : Attributes) (closing : Closing) (cs : List Char) :
    (elementToken tag attributes closing cs).2.length ≤ cs.length := by
  unfold elementToken
  dsimp only
  split
  · exact Nat.le_refl _
  · split
    · exact Nat.le_trans (length_skipPast _ _) (length_rawRun _ _)
    · exact Nat.le_refl _

/-- a token takes at least its first character -/
theorem length_scan (c : Char) (cs : List Char) : (scan c cs).2.length ≤ cs.length := by
  have ha : ∀ body : List Char, (body.dropWhile isNameChar).length ≤ body.length :=
    fun body => (List.dropWhile_suffix isNameChar).length_le
  unfold scan
  split
  · split
    · exact Nat.le_trans (length_cutAt _ _) (by simp only [List.length_cons]; omega)
    · exact Nat.le_trans (length_skipPast _ _) (Nat.le_trans (ha _) (Nat.le_succ _))
    · exact Nat.le_trans (length_elementToken _ _ _ _) (Nat.le_trans (length_attributeList _) (ha _))
  · exact length_textRun cs

def tokens : List Char → List Token
  | [] => []
  | c :: cs => (scan c cs).1 :: tokens (scan c cs).2
termination_by cs => cs.length
decreasing_by
  have := length_scan c cs
  simp only [List.length_cons]; omega

end LiveMarkup.Markup
