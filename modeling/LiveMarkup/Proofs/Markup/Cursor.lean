/-
Reading by byte offsets.

A cursor is an offset into the whole text. Every step looks at a slice of the text, finds offsets in it or in a text
that is derived from it, and moves on by sums of these and of literal steps. Any slice may be refused, and a round of a
loop that does not come forward, or that leaves the text, is refused as well.

`Reads` says that a call succeeds and what is left where it ends, for each call in turn:

- `decode?_eq`: decoding, whose rounds each leave less;
- `tagRound?_reads`, `tagRounds?_reads`: a round of reading a start tag, and all of them;
- `textEnd?_eq`, `round?_reads`: where text ends, and the next token;
- `rounds?_eq`: rounds from a place on take in the tokens of what is left there;
- `parse?_advances`: nothing is refused, every round comes forward, and what is read is the forest of the text.
-/
import LiveMarkup.Markup.Reader
import LiveMarkup.Proofs.Text.Slices
import LiveMarkup.Proofs.Markup.Break

namespace LiveMarkup.Markup.Cursor

open Bytes
open String (utf8Len utf8Len_nil utf8Len_cons utf8Len_append)

/-! ## Moving on -/

/-- a name, and where it ends -/
def takeName? (input : List Char) (pos : Nat) : Option (List Char × Nat) := do
  let rest ← after? pos input
  let stop := (offset? (!isNameChar ·) rest).getD (utf8Len rest)
  let name ← before? stop rest
  return (name, pos + stop)

/-- where the next character is that is no blank -/
def skipBlanks? (input : List Char) (pos : Nat) : Option Nat := do
  let rest ← after? pos input
  return pos + (utf8Len rest - utf8Len (rest.dropWhile isBlank))

/-- what comes after the next `stop` -/
def skipPast? (stop : Char) (input : List Char) (pos : Nat) : Option Nat := do
  let rest ← after? pos input
  return pos + ((offset? (· == stop) rest).map (· + stop.utf8Size)).getD (utf8Len rest)

/-! ## References -/

/-- what is between the `&` that comes first and the next `;`, if it is not too long for a name -/
def referenceName? (rest : List Char) : Option (Option (List Char)) := do
  let inner ← after? 1 rest
  let name ← match offset? (· == ';') inner with
    | some stop => (between? 1 (stop + 1) rest).map some
    | none => some none
  return name.filter (utf8Len · ≤ longestReference)

/-- one round of decoding: what it writes, and what is left unless it was the last -/
def decodeRound? (rest : List Char) : Option (List Char × Option (List Char)) :=
  match offset? (· == '&') rest with
  | none => some (rest, none)
  | some amp => do
    let plain ← before? amp rest
    let rest ← after? amp rest
    let name ← referenceName? rest
    match name.bind reference? with
    | some c =>
      let left ← after? ((name.map utf8Len).getD 0 + 2) rest
      return (plain ++ [c], some left)
    | none =>
      let left ← after? 1 rest
      return (plain ++ ['&'], some left)

/-- decodes round by round -/
def decodeFrom? (rest : List Char) : Option (List Char) :=
  match decodeRound? rest with
  | none => none
  | some (written, none) => some written
  | some (written, some left) => if utf8Len left < utf8Len rest then (decodeFrom? left).map (written ++ ·) else none
termination_by utf8Len rest

/-- text with its references replaced, if it has any -/
def decode? (text : List Char) : Option String :=
  if text.contains '&' then (decodeFrom? text).map String.ofList else some (String.ofList text)

/-! ## Start tags -/

def isQuote (c : Char) : Bool := c == '"' || c == '\''

/-- an attribute value, and where it ends -/
def attributeValue? (input : List Char) (pos : Nat) : Option (String × Nat) := do
  let rest ← after? pos input
  match rest.head?.filter isQuote with
  | some quote =>
    let inner ← after? 1 rest
    match offset? (· == quote) inner with
    | some stop =>
      let value ← (between? 1 (stop + 1) rest).bind decode?
      return (value, pos + (stop + 2))
    | none =>
      let value ← (after? 1 rest).bind decode?
      return (value, pos + utf8Len rest)
  | none =>
    let stop := (offset? (!isBareChar ·) rest).getD (utf8Len rest)
    let value ← (before? stop rest).bind decode?
    return (value, pos + stop)

/-- the value after an attribute's name, if an equals sign follows, and where it ends -/
def valueAfterName? (input : List Char) (pos : Nat) : Option (String × Nat) := do
  let pos ← skipBlanks? input pos
  let rest ← after? pos input
  if ['='].isPrefixOf rest then
    let pos ← skipBlanks? input (pos + 1)
    attributeValue? input pos
  else return ("", pos)

/-- what a round of reading a start tag comes to: the end of the tag, or an attribute if there is one; and where that
ends -/
inductive TagRound where
  | done (closing : Closing) (pos : Nat)
  | next (found : Option (String × String)) (pos : Nat)
deriving DecidableEq, Repr

/-- one round of reading a start tag -/
def tagRound? (input : List Char) (pos : Nat) : Option TagRound := do
  let pos ← skipBlanks? input pos
  let rest ← after? pos input
  if rest.isEmpty then return .done .open pos
  else if ['/', '>'].isPrefixOf rest then return .done .selfClosed (pos + 2)
  else if ['>'].isPrefixOf rest then return .done .open (pos + 1)
  else if ['/'].isPrefixOf rest then return .next none (pos + 1)
  else
    let (name, pos) ← takeName? input pos
    if name.isEmpty then return .next none (pos + 1)
    else
      let (value, pos) ← valueAfterName? input pos
      return .next (some (String.ofList name, value)) pos

/-- reads a start tag after its name, round by round -/
def tagRounds? (input : List Char) (pos : Nat) : Option ((Attributes × Closing) × Nat) :=
  match tagRound? input pos with
  | none => none
  | some (.done closing next) => if pos ≤ next ∧ next ≤ utf8Len input then some (([], closing), next) else none
  | some (.next found next) =>
    if pos < next ∧ next ≤ utf8Len input then
      (tagRounds? input next).map fun ((attributes, closing), last) => ((found.toList ++ attributes, closing), last)
    else none
termination_by utf8Len input - pos

/-! ## Elements and text -/

/-- the content of a raw text element, and where its end tag ends -/
def rawText? (tag : List Char) (input : List Char) (pos : Nat) : Option (List Node × Nat) := do
  let rest ← after? pos input
  let stop := (offsetOf? ('<' :: '/' :: lowerChars tag) (lowerChars rest)).getD (utf8Len rest)
  let content ← if 0 < stop then (before? stop rest).map fun data => [Node.text (String.ofList data)] else some []
  let next ← skipPast? '>' input (pos + stop)
  return (content, next)

def beginsWithLetter (cs : List Char) : Bool := cs.head?.any isLetter

/-- whether the `<` that comes first begins markup -/
def startsMarkup? (rest : List Char) : Option Bool := do
  let inner ← after? 1 rest
  if ['!', '-', '-'].isPrefixOf inner || beginsWithLetter inner then return true
  else if ['/'].isPrefixOf inner then
    let name ← after? 1 inner
    return beginsWithLetter name
  else return false

/-- goes on from one `<` to the next until one begins markup -/
def textEnd? (rest : List Char) (stop : Nat) : Option Nat :=
  if stop < utf8Len rest then
    match (after? stop rest).bind startsMarkup?, after? (stop + 1) rest with
    | none, _ => none
    | some true, _ => some stop
    | some false, none => none
    | some false, some later =>
      let next := ((offset? (· == '<') later).map (stop + 1 + ·)).getD (utf8Len rest)
      if stop < next then textEnd? rest next else none
  else some stop
termination_by utf8Len rest - stop

def comment? (rest : List Char) (pos : Nat) : Option (Token × Nat) :=
  let body := rest.drop 4
  match offsetOf? ['-', '-', '>'] body with
  | some stop => do
    let data ← before? stop body
    return (.node (.comment (String.ofList data)), pos + (4 + stop + 3))
  | none => some (.node (.comment (String.ofList body)), pos + utf8Len rest)

def endTag? (input : List Char) (pos : Nat) : Option (Token × Nat) := do
  let (tag, pos) ← takeName? input (pos + 2)
  let pos ← skipPast? '>' input pos
  return (.stop (String.ofList tag), pos)

/-- a start tag with what is read along with it, and where that ends -/
def startTag? (input : List Char) (pos : Nat) : Option (Token × Nat) := do
  let (tag, pos) ← takeName? input (pos + 1)
  let ((attributes, closing), pos) ← tagRounds? input pos
  let name := String.ofList tag
  if closing = .selfClosed || isVoid name then return (.node (.element name attributes []), pos)
  else if isRawText name then
    let (content, pos) ← rawText? tag input pos
    return (.node (.element name attributes content), pos)
  else return (.start name attributes, pos)

def text? (rest : List Char) (pos : Nat) : Option (Token × Nat) := do
  let first := (rest.head?.map Char.utf8Size).getD 1
  let later ← after? first rest
  let stop ← textEnd? rest (((offset? (· == '<') later).map (first + ·)).getD (utf8Len rest))
  let data ← (before? stop rest).bind decode?
  return (.node (.text data), pos + stop)

/-- whether `mark` comes first and a letter `n` bytes later -/
def letterAfter? (mark : List Char) (n : Nat) (rest : List Char) : Option Bool :=
  if mark.isPrefixOf rest then (after? n rest).map beginsWithLetter else some false

/-- one round of reading: a token, and where it ends -/
def round? (input : List Char) (pos : Nat) : Option (Token × Nat) := do
  let rest ← after? pos input
  if ['<', '!', '-', '-'].isPrefixOf rest then comment? rest pos
  else if ← letterAfter? ['<', '/'] 2 rest then endTag? input pos
  else if ← letterAfter? ['<'] 1 rest then startTag? input pos
  else text? rest pos

def rounds? (input : List Char) (pos : Nat) (nest : Nest) : Option Nest :=
  if pos < utf8Len input then
    match round? input pos with
    | none => none
    | some (token, next) => if pos < next ∧ next ≤ utf8Len input then rounds? input next (nest.step token) else none
  else some nest
termination_by utf8Len input - pos

/-- the forest of a text -/
def parse? (s : String) : Option (List Node) := (rounds? s.toList 0 ⟨[], []⟩).map Nest.finish

/-! ## Moving on -/

/-- the call succeeds with this result, and this is left where it ends -/
def Reads {A : Type} (input : List Char) (result : Option (A × Nat)) (a : A) (left : List Char) : Prop :=
  ∃ next, result = some (a, next) ∧ after? next input = some left

/-- the same of a call that only moves on -/
def Moves (input : List Char) (result : Option Nat) (left : List Char) : Prop :=
  ∃ next, result = some next ∧ after? next input = some left

section

variable {input rest : List Char} {pos : Nat} (h : after? pos input = some rest)
include h

theorem takeName?_reads :
    Reads input (takeName? input pos) (rest.takeWhile isNameChar) (rest.dropWhile isNameChar) := by
  have hstop : (offset? (!isNameChar ·) rest).getD (utf8Len rest) = utf8Len (rest.takeWhile isNameChar) := by
    rw [offset?_getD]
    simp only [Bool.not_not]
  refine ⟨pos + utf8Len (rest.takeWhile isNameChar), ?_, after?_dropWhile h isNameChar⟩
  simp [takeName?, h, hstop, before?_takeWhile]

theorem skipBlanks?_moves : Moves input (skipBlanks? input pos) (rest.dropWhile isBlank) := by
  have hsize : utf8Len rest - utf8Len (rest.dropWhile isBlank) = utf8Len (rest.takeWhile isBlank) := by
    have hsplit := congrArg utf8Len (List.takeWhile_append_dropWhile (p := isBlank) (l := rest))
    rw [utf8Len_append] at hsplit
    omega
  refine ⟨pos + utf8Len (rest.takeWhile isBlank), ?_, after?_dropWhile h isBlank⟩
  simp [skipBlanks?, h, hsize]

theorem skipPast?_moves (stop : Char) : Moves input (skipPast? stop input pos) (skipPast stop rest) := by
  by_cases hin : stop ∈ rest
  · refine ⟨_, ?_, after?_past h hin⟩
    simp [skipPast?, h, offset?_of_mem hin]
  · refine ⟨pos + utf8Len rest, ?_, ?_⟩
    · simp [skipPast?, h, offset?_of_not_mem hin]
    · rw [skipPast, dropWhile_ne_of_not_mem hin]
      exact after?_end h

end

/-! ## References -/

/-- digits of any base are of one byte -/
theorem utf8Size_of_digit? {base d : Nat} {c : Char} (h : digit? base c = some d) : c.utf8Size = 1 := by
  have hascii : ∀ t : Char, t.val ≤ 127 → c.val ≤ t.val → c.utf8Size = 1 := fun t ht hc =>
    Char.utf8Size_eq_one_iff.2 (UInt32.le_trans hc ht)
  have hv := (Option.filter_eq_some_iff.1 h).1
  unfold digitValue at hv
  split at hv
  · next hd => exact hascii '9' (by decide) (of_decide_eq_true (Bool.and_eq_true_iff.1 hd).2)
  · split at hv
    · next hd => exact hascii 'z' (by decide) (of_decide_eq_true (Bool.and_eq_true_iff.1 hd).2)
    · split at hv
      · next hd => exact hascii 'Z' (by decide) (of_decide_eq_true hd).2
      · cases hv

theorem utf8Len_of_digitRow? {base high n : Nat} {cs : List Char} (h : digitRow? base high cs = some n) :
    utf8Len cs = cs.length := by
  induction cs generalizing high with
  | nil => rfl
  | cons c cs ih =>
    rw [digitRow?] at h
    cases hd : digit? base c with
    | none =>
      rw [hd] at h
      cases h
    | some d =>
      rw [hd] at h
      rw [utf8Len_cons, ih h, utf8Size_of_digit? hd, List.length_cons]

theorem utf8Len_of_digits? {base n : Nat} {cs : List Char} (h : digits? base cs = some n) : utf8Len cs = cs.length := by
  cases cs with
  | nil => cases h
  | cons c cs => exact utf8Len_of_digitRow? h

theorem utf8Len_of_number? {base n : Nat} {cs : List Char} (h : number? base cs = some n) : utf8Len cs = cs.length := by
  unfold number? at h
  split at h
  · rw [utf8Len_cons, utf8Len_of_digits? h, List.length_cons]
    rfl
  · exact utf8Len_of_digits? h

/-- names of references are of one byte for each character -/
theorem utf8Len_of_reference? {name : List Char} {c : Char} (h : reference? name = some c) :
    utf8Len name = name.length := by
  have hnumber : ∀ {base cs}, (number? base cs).bind charOfCode? = some c → utf8Len cs = cs.length := fun hb => by
    obtain ⟨n, hn, -⟩ := Option.bind_eq_some_iff.1 hb
    exact utf8Len_of_number? hn
  unfold reference? at h
  split at h
  case h_7 | h_8 =>
    rw [utf8Len_cons, utf8Len_cons, hnumber h]
    rfl
  case h_9 =>
    rw [utf8Len_cons, hnumber h]
    rfl
  case h_10 => cases h
  all_goals rfl

theorem decodeChars_append {a : List Char} (h : '&' ∉ a) (b : List Char) :
    decodeChars (a ++ b) = a ++ decodeChars b := by
  induction a with
  | nil => rfl
  | cons c a ih =>
    rw [List.mem_cons, not_or] at h
    rw [List.cons_append, decodeChars_cons_of_ne (Ne.symm h.1), ih h.2, List.cons_append]

theorem decodeChars_amp {cs : List Char} (h : referenceAt? cs = none) :
    decodeChars ('&' :: cs) = '&' :: decodeChars cs := by
  rw [decodeChars, if_pos rfl]
  split
  · next hd =>
    rw [h] at hd
    cases hd
  · rfl

/-- the name that is found is that of the reference at this place, if there is one -/
theorem referenceName?_finds (b : List Char) : ∃ name, referenceName? ('&' :: b) = some name ∧
    match name.bind reference? with
    | some c => ∃ left, after? ((name.map utf8Len).getD 0 + 2) ('&' :: b) = some left ∧ referenceAt? b = some (c, left)
    | none => referenceAt? b = none := by
  have hinner : after? 1 ('&' :: b) = some b := after?_head '&' b
  by_cases hend : ';' ∈ b
  · have hleft := after?_past hinner hend
    have hoffset := offset?_of_mem hend
    have hbetween := between?_append ['&'] (b.takeWhile (· ≠ ';')) (';' :: (b.dropWhile (· ≠ ';')).tail)
    rw [← split_at_stop hend] at hbetween
    have hat : referenceAt? b = if (b.takeWhile (· ≠ ';')).length ≤ longestReference then
        (reference? (b.takeWhile (· ≠ ';'))).map (·, (b.dropWhile (· ≠ ';')).tail) else none := by
      unfold referenceAt?
      dsimp only
      rw [dropWhile_ne_of_mem hend]
      rfl
    generalize b.takeWhile (· ≠ ';') = name at hleft hoffset hbetween hat
    have hwithin : between? 1 (utf8Len name + 1) ('&' :: b) = some name := Nat.add_comm 1 (utf8Len name) ▸ hbetween
    refine ⟨(some name).filter (utf8Len · ≤ longestReference), ?_, ?_⟩
    · simp [referenceName?, hinner, hoffset, hwithin]
    · rw [hat]
      cases hr : reference? name with
      | none =>
        have hno : ((some name).filter (utf8Len · ≤ longestReference)).bind reference? = none := by
          simp [Option.filter, hr]
        rw [hno]
        simp
      | some c =>
        -- a name that stands for something has one byte for each character
        have hsize := utf8Len_of_reference? hr
        by_cases hle : name.length ≤ longestReference
        · have hfilter : (some name).filter (utf8Len · ≤ longestReference) = some name := by
            simp [Option.filter, hsize, hle]
          rw [hfilter, if_pos hle, Option.bind_some, hr]
          refine ⟨_, ?_, rfl⟩
          have hpast : 1 + (utf8Len name + Char.utf8Size ';') = utf8Len name + 2 := by
            rw [show Char.utf8Size ';' = 1 from rfl]
            omega
          exact hpast ▸ hleft
        · have hfilter : (some name).filter (utf8Len · ≤ longestReference) = none := by
            simp [Option.filter, hsize, hle]
          rw [hfilter, if_neg hle]
          rfl
  · have hat : referenceAt? b = none := by
      unfold referenceAt?
      dsimp only
      rw [dropWhile_ne_of_not_mem hend]
    refine ⟨none, ?_, hat⟩
    simp [referenceName?, hinner, offset?_of_not_mem hend]

/-- a round of decoding does what decoding does up to there, and leaves less -/
theorem decodeRound?_decodes (rest : List Char) :
    (decodeRound? rest = some (rest, none) ∧ decodeChars rest = rest) ∨
      ∃ written left, decodeRound? rest = some (written, some left) ∧ utf8Len left < utf8Len rest ∧
        decodeChars rest = written ++ decodeChars left := by
  by_cases hamp : '&' ∈ rest
  · right
    have hsplit := split_at_stop hamp
    have hplain : '&' ∉ rest.takeWhile (· ≠ '&') := fun hin => by
      have := List.mem_takeWhile_imp hin
      simp at this
    rw [decodeRound?, offset?_of_mem hamp]
    generalize rest.takeWhile (· ≠ '&') = a at hsplit hplain ⊢
    generalize (rest.dropWhile (· ≠ '&')).tail = b at hsplit
    subst hsplit
    obtain ⟨name, hname, hfinds⟩ := referenceName?_finds b
    simp only [before?_append, after?_append, hname, Option.bind_eq_bind, Option.bind_some]
    cases hr : name.bind reference? with
    | some c =>
      rw [hr] at hfinds
      obtain ⟨left, hleft, hat⟩ := hfinds
      refine ⟨a ++ [c], left, by rw [hleft]; rfl, ?_, ?_⟩
      · have hsize := utf8Len_of_after? hleft
        rw [utf8Len_append]
        omega
      · rw [decodeChars_append hplain, decodeChars_reference hat, List.append_assoc]
        rfl
    | none =>
      rw [hr] at hfinds
      have hinner : after? 1 ('&' :: b) = some b := after?_head '&' b
      refine ⟨a ++ ['&'], b, by rw [hinner]; rfl, ?_, ?_⟩
      · rw [utf8Len_append, utf8Len_cons]
        have := Char.utf8Size_pos '&'
        omega
      · rw [decodeChars_append hplain, decodeChars_amp hfinds, List.append_assoc]
        rfl
  · left
    rw [decodeRound?, offset?_of_not_mem hamp]
    have hplain := decodeChars_append hamp []
    rw [List.append_nil] at hplain
    exact ⟨rfl, by rw [hplain, decodeChars, List.append_nil]⟩

theorem decodeFrom?_eq (rest : List Char) : decodeFrom? rest = some (decodeChars rest) := by
  induction hn : utf8Len rest using Nat.strongRecOn generalizing rest with
  | ind n ih =>
    rw [decodeFrom?]
    rcases decodeRound?_decodes rest with ⟨hround, hchars⟩ | ⟨written, left, hround, hless, hchars⟩
    · rw [hround, hchars]
    · rw [hround, hchars]
      dsimp only
      rw [if_pos hless, ih _ (hn ▸ hless) left rfl]
      rfl

/-- decoding is never refused -/
theorem decode?_eq (text : List Char) : decode? text = some (decode text) := by
  rw [decode?]
  split
  · rw [decodeFrom?_eq]
    rfl
  · next h =>
    have hplain := decodeChars_append (a := text) (fun hin => h (List.contains_iff_mem.2 hin)) []
    rw [List.append_nil, decodeChars, List.append_nil] at hplain
    rw [decode, hplain]

/-! ## Start tags -/

theorem attributeValue_quoted {c : Char} (h : isQuote c = true) (cs : List Char) :
    attributeValue (c :: cs) = (cs.takeWhile (· ≠ c), skipPast c cs) := by
  simp only [isQuote, Bool.or_eq_true, beq_iff_eq] at h
  simp [attributeValue, h]

theorem attributeValue_bare {c : Char} (h : isQuote c = false) (cs : List Char) :
    attributeValue (c :: cs) = ((c :: cs).takeWhile isBareChar, (c :: cs).dropWhile isBareChar) := by
  simp only [isQuote, Bool.or_eq_false_iff, beq_eq_false_iff_ne] at h
  simp [attributeValue, h.1, h.2]

theorem attributeValue?_reads {input rest : List Char} {pos : Nat} (h : after? pos input = some rest) :
    Reads input (attributeValue? input pos) (decode (attributeValue rest).1) (attributeValue rest).2 := by
  have hbare : rest.head?.filter isQuote = none → Reads input (attributeValue? input pos)
      (decode (rest.takeWhile isBareChar)) (rest.dropWhile isBareChar) := by
    intro hquote
    have hstop : (offset? (!isBareChar ·) rest).getD (utf8Len rest) = utf8Len (rest.takeWhile isBareChar) := by
      rw [offset?_getD]
      simp only [Bool.not_not]
    refine ⟨pos + utf8Len (rest.takeWhile isBareChar), ?_, after?_dropWhile h isBareChar⟩
    simp [attributeValue?, h, hquote, hstop, before?_takeWhile, decode?_eq]
  cases rest with
  | nil => exact hbare rfl
  | cons c cs =>
    cases hc : isQuote c with
    | false =>
      rw [attributeValue_bare hc]
      exact hbare (by simp [Option.filter, hc])
    | true =>
      have hquote : (c :: cs).head?.filter isQuote = some c := by simp [Option.filter, hc]
      have hone : c.utf8Size = 1 := by
        simp only [isQuote, Bool.or_eq_true, beq_iff_eq] at hc
        rcases hc with rfl | rfl <;> rfl
      have hinner : after? 1 (c :: cs) = some cs := hone ▸ after?_head c cs
      rw [attributeValue_quoted hc]
      by_cases hend : c ∈ cs
      · have hwithin : between? 1 (utf8Len (cs.takeWhile (· ≠ c)) + 1) (c :: cs) = some (cs.takeWhile (· ≠ c)) := by
          have hbetween := between?_append [c] (cs.takeWhile (· ≠ c)) (c :: (cs.dropWhile (· ≠ c)).tail)
          rw [← split_at_stop hend, utf8Len_cons, hone] at hbetween
          rw [Nat.add_comm]
          exact hbetween
        have hpast := after?_past (after?_next h) hend
        rw [hone] at hpast
        refine ⟨pos + (utf8Len (cs.takeWhile (· ≠ c)) + 2), ?_, ?_⟩
        · simp only [attributeValue?, h, hquote, hinner, offset?_of_mem hend, hwithin, decode?_eq, Option.bind_eq_bind,
            Option.bind_some]
          rfl
        · rw [show pos + (utf8Len (cs.takeWhile (· ≠ c)) + 2) = pos + 1 + (utf8Len (cs.takeWhile (· ≠ c)) + 1) by omega]
          exact hpast
      · refine ⟨pos + utf8Len (c :: cs), ?_, ?_⟩
        · simp only [attributeValue?, h, hquote, hinner, offset?_of_not_mem hend, decode?_eq, Option.bind_eq_bind,
            Option.bind_some]
          rw [takeWhile_ne_of_not_mem hend]
          rfl
        · rw [skipPast, dropWhile_ne_of_not_mem hend]
          exact after?_end h

theorem decode_nil : decode [] = "" := by rw [decode, decodeChars]

theorem singleton_isPrefixOf (d c : Char) (cs : List Char) : [d].isPrefixOf (c :: cs) = (d == c) := by
  rw [List.isPrefixOf_cons_cons, List.isPrefixOf_nil_left, Bool.and_true]

theorem valueAfterName?_reads {input rest : List Char} {pos : Nat} (h : after? pos input = some rest) :
    Reads input (valueAfterName? input pos) (decode (valueAfterName rest).1) (valueAfterName rest).2 := by
  obtain ⟨start, hstart, hleft⟩ := skipBlanks?_moves h
  simp only [valueAfterName?, hstart, hleft, Option.bind_eq_bind, Option.bind_some]
  cases hb : rest.dropWhile isBlank with
  | nil =>
    rw [valueAfterName, hb, decode_nil]
    exact ⟨start, rfl, hleft.trans (congrArg some hb)⟩
  | cons c cs =>
    rw [hb] at hleft
    by_cases hc : c = '='
    · subst hc
      have hyes : ['='].isPrefixOf ('=' :: cs) = true := singleton_isPrefixOf '=' '=' cs
      obtain ⟨next, hnext, hvalue⟩ := skipBlanks?_moves (after?_next hleft)
      rw [valueAfterName_equals hb, hyes, if_pos rfl, show start + 1 = start + Char.utf8Size '=' from rfl, hnext]
      exact attributeValue?_reads hvalue
    · have hno : ['='].isPrefixOf (c :: cs) = false := by
        rw [singleton_isPrefixOf]
        exact beq_false_of_ne (Ne.symm hc)
      rw [valueAfterName_other hb hc, decode_nil, hno]
      exact ⟨start, rfl, hleft⟩

/-- a round of reading a start tag is a round of reading its attributes -/
theorem tagRound?_reads {input rest : List Char} {pos : Nat} (h : after? pos input = some rest) :
    (∃ closing next left, tagRound? input pos = some (.done closing next) ∧ after? next input = some left ∧
      left.length ≤ rest.length ∧ attributeList rest = ([], closing, left)) ∨
    ∃ found next left, tagRound? input pos = some (.next found next) ∧ after? next input = some left ∧
      left.length < rest.length ∧
      attributeList rest = (found.toList ++ (attributeList left).1, (attributeList left).2) := by
  obtain ⟨start, hstart, hleft⟩ := skipBlanks?_moves h
  have hlength := (List.dropWhile_suffix isBlank (l := rest)).length_le
  simp only [tagRound?, hstart, hleft, Option.bind_eq_bind, Option.bind_some]
  fun_cases attributeList rest with
  | case1 hd =>
    rw [hd] at hleft ⊢
    exact .inl ⟨.open, start, [], rfl, hleft, Nat.zero_le _, rfl⟩
  | case2 left hd =>
    rw [hd] at hleft hlength ⊢
    rw [List.length_cons] at hlength
    exact .inl ⟨.open, start + 1, left, rfl, after?_next hleft, by omega, rfl⟩
  | case3 left hd =>
    rw [hd] at hleft hlength ⊢
    rw [List.length_cons, List.length_cons] at hlength
    exact .inl ⟨.selfClosed, start + 2, left, rfl, after?_next (after?_next hleft), by omega, rfl⟩
  | case4 left hne hd =>
    rw [hd] at hleft hlength ⊢
    rw [List.length_cons] at hlength
    have hno : ['>'].isPrefixOf left = false := by
      cases left with
      | nil => rfl
      | cons d ds =>
        rw [singleton_isPrefixOf]
        exact beq_false_of_ne fun he => hne ds (by rw [he])
    refine .inr ⟨none, start + 1, left, ?_, after?_next hleft, by omega, rfl⟩
    simp [List.isPrefixOf_cons_cons, hno]
  | case5 left hd =>
    rw [hd] at hleft hlength ⊢
    rw [List.length_cons] at hlength
    obtain ⟨next, hname, hat⟩ := takeName?_reads hleft
    refine .inr ⟨none, next + 1, left, ?_, after?_next hat, by omega, rfl⟩
    rw [hname]
    rfl
  | case6 c left hgt hslash' hslash heq hd =>
    rw [hd] at hleft hlength ⊢
    rw [List.length_cons] at hlength
    have hc : isNameChar c = true := isNameChar_of_dropWhile hd hgt hslash heq
    obtain ⟨stop, hname, hat⟩ := takeName?_reads hleft
    rw [List.takeWhile_cons_of_pos hc] at hname
    rw [List.dropWhile_cons_of_pos hc] at hat
    obtain ⟨next, hvalue, hnext⟩ := valueAfterName?_reads hat
    have hshort := length_valueAfterName (left.dropWhile isNameChar)
    have hdrop := (List.dropWhile_suffix isNameChar (l := left)).length_le
    refine .inr ⟨some (_, _), next, _, ?_, hnext, by omega, rfl⟩
    have hnoslash : ('/' == c) = false := beq_false_of_ne (Ne.symm hslash)
    have hnogt : ('>' == c) = false := beq_false_of_ne (Ne.symm hgt)
    simp only [List.isPrefixOf_cons_cons, hnoslash, hnogt, Bool.false_and, hname, hvalue, Option.bind_some,
      List.isEmpty_cons, Bool.false_eq_true, if_false]
    rfl

/-- all rounds together read all attributes, and where the tag ends -/
theorem tagRounds?_reads {input rest : List Char} {pos : Nat} (h : after? pos input = some rest) :
    Reads input (tagRounds? input pos) ((attributeList rest).1, (attributeList rest).2.1) (attributeList rest).2.2 := by
  induction hn : rest.length using Nat.strongRecOn generalizing rest pos with
  | ind n ih =>
    rw [tagRounds?]
    rcases tagRound?_reads h with ⟨closing, next, left, hround, hnext, hless, hlist⟩ |
      ⟨found, next, left, hround, hnext, hless, hlist⟩
    · rw [hround, hlist]
      exact ⟨next, if_pos ⟨le_of_length_le h hnext hless, le_of_after? hnext⟩, hnext⟩
    · rw [hround, hlist]
      dsimp only
      obtain ⟨last, hrounds, hlast⟩ := ih left.length (hn ▸ hless) hnext rfl
      rw [if_pos ⟨lt_of_length_lt h hnext hless, le_of_after? hnext⟩, hrounds]
      exact ⟨last, rfl, hlast⟩

/-! ## Elements and text -/

theorem rawRun_split (tag cs : List Char) : (rawRun tag cs).1 ++ (rawRun tag cs).2 = cs := by
  induction cs with
  | nil => rfl
  | cons c cs ih =>
    unfold rawRun
    dsimp only
    split
    · rfl
    · exact congrArg (c :: ·) ih

/-- the end tag is where it is in the folded text -/
theorem offsetOf?_rawRun (tag cs : List Char) :
    (offsetOf? ('<' :: '/' :: tag) (lowerChars cs)).getD (utf8Len cs) = utf8Len (rawRun tag cs).1 := by
  induction cs with
  | nil => rfl
  | cons c cs ih =>
    have htest : ('<' :: '/' :: tag).isPrefixOf (lowerChars (c :: cs)) = true ↔
        lowerChars ((c :: cs).take ('<' :: '/' :: tag).length) = '<' :: '/' :: tag := by
      rw [List.isPrefixOf_iff_prefix, lowerChars_take_eq_iff]
    have hfold : lowerChars (c :: cs) = c.toLower :: lowerChars cs := rfl
    unfold rawRun
    dsimp only
    rw [hfold, offsetOf?, ← hfold]
    by_cases hhere : ('<' :: '/' :: tag).isPrefixOf (lowerChars (c :: cs)) = true
    · rw [if_pos hhere, if_pos (htest.1 hhere)]
      rfl
    · rw [if_neg hhere, if_neg fun h => hhere (htest.2 h)]
      dsimp only
      rw [utf8Len_cons, utf8Len_cons, utf8Size_toLower, ← ih]
      cases offsetOf? ('<' :: '/' :: tag) (lowerChars cs) <;> rfl

theorem rawText?_reads {input rest : List Char} {pos : Nat} (h : after? pos input = some rest) (tag : List Char) :
    Reads input (rawText? tag input pos)
      (if (rawRun (lowerChars tag) rest).1.isEmpty then [] else
        [Node.text (String.ofList (rawRun (lowerChars tag) rest).1)])
      (skipPast '>' (rawRun (lowerChars tag) rest).2) := by
  have hstop := offsetOf?_rawRun (lowerChars tag) rest
  have hsplit := rawRun_split (lowerChars tag) rest
  generalize (rawRun (lowerChars tag) rest).1 = data at hstop hsplit ⊢
  generalize (rawRun (lowerChars tag) rest).2 = left at hsplit ⊢
  subst hsplit
  obtain ⟨next, hnext, hafter⟩ := skipPast?_moves (after?_add h) '>'
  refine ⟨next, ?_, hafter⟩
  simp only [rawText?, h, hstop, hnext, before?_append, Option.bind_eq_bind, Option.bind_some]
  cases data with
  | nil => rfl
  | cons c data =>
    have hpos : 0 < utf8Len (c :: data) := Nat.lt_of_lt_of_le c.utf8Size_pos (Nat.le_add_left _ _)
    rw [if_pos hpos]
    rfl

theorem startsMarkup_slash (cs : List Char) : startsMarkup ('/' :: cs) = beginsWithLetter cs := by
  cases cs with
  | nil => decide
  | cons d ds => rfl

/-- what follows a character of one byte is looked at as it is -/
theorem startsMarkup?_eq {c : Char} (hc : c.utf8Size = 1) (rest : List Char) :
    startsMarkup? (c :: rest) = some (startsMarkup rest) := by
  have hinner : after? 1 (c :: rest) = some rest := hc ▸ after?_head c rest
  simp only [startsMarkup?, hinner, Option.bind_eq_bind, Option.bind_some]
  split
  · next h =>
    refine congrArg some (Eq.symm ?_)
    rcases Bool.or_eq_true_iff.1 h with h | h
    · exact startsMarkup_iff.2 (.inl (List.isPrefixOf_iff_prefix.1 h))
    · cases rest with
      | nil => cases h
      | cons d ds => exact startsMarkup_of_isLetter h ds
  · next h =>
    rw [Bool.or_eq_true, not_or] at h
    split
    · next hslash =>
      obtain ⟨ds, rfl⟩ := List.isPrefixOf_iff_prefix.1 hslash
      have hname : after? 1 (['/'] ++ ds) = some ds := after?_head '/' ds
      rw [hname]
      exact congrArg some (startsMarkup_slash ds).symm
    · next hslash =>
      refine congrArg some (Eq.symm (Bool.eq_false_iff.2 fun hs => ?_))
      rcases startsMarkup_iff.1 hs with hcomment | ⟨d, hd, ⟨ds, rfl⟩ | ⟨ds, rfl⟩⟩
      · exact h.1 (List.isPrefixOf_iff_prefix.2 hcomment)
      · exact hslash (singleton_isPrefixOf '/' '/' (d :: ds))
      · exact h.2 hd

/-! ## Text -/

theorem textRun_split (cs : List Char) : (textRun cs).1 ++ (textRun cs).2 = cs := by
  induction cs with
  | nil => rfl
  | cons c cs ih =>
    unfold textRun
    split
    · rfl
    · exact congrArg (c :: ·) ih

/-- text goes on at least to the next `<` -/
theorem textRun_plain (cs : List Char) : (textRun cs).1 =
    cs.takeWhile (· ≠ '<') ++ (textRun (cs.dropWhile (· ≠ '<'))).1 := by
  induction cs with
  | nil => rfl
  | cons c cs ih =>
    by_cases hc : c = '<'
    · simp [hc]
    · have hrun : (textRun (c :: cs)).1 = c :: (textRun cs).1 := by simp [textRun, hc]
      rw [hrun, ih]
      simp [hc]

/-- the next `<`, or the end of a text of that size -/
theorem nextStop_eq {k size : Nat} {cs : List Char} (h : k + utf8Len cs = size) :
    ((offset? (· == '<') cs).map (k + ·)).getD size = k + utf8Len (cs.takeWhile (· ≠ '<')) := by
  by_cases hin : '<' ∈ cs
  · rw [offset?_of_mem hin]
    rfl
  · rw [offset?_of_not_mem hin, takeWhile_ne_of_not_mem hin, h]
    rfl

theorem head?_dropWhile_ne (stop : Char) (cs : List Char) : ∀ c ∈ (cs.dropWhile (· ≠ stop)).head?, c = stop := by
  intro c hc
  by_cases hin : stop ∈ cs
  · rw [dropWhile_ne_of_mem hin] at hc
    exact (Option.some_inj.1 hc).symm
  · rw [dropWhile_ne_of_not_mem hin] at hc
    cases hc

/-- from where a `<` comes or nothing is left, text ends where it does -/
theorem textEnd?_eq {text rest : List Char} {stop : Nat} (h : after? stop text = some rest)
    (hat : ∀ c ∈ rest.head?, c = '<') : textEnd? text stop = some (stop + utf8Len (textRun rest).1) := by
  induction hn : rest.length using Nat.strongRecOn generalizing rest stop with
  | ind n ih =>
    have hsize := utf8Len_of_after? h
    rw [textEnd?]
    cases rest with
    | nil =>
      rw [if_neg (by rw [utf8Len_nil] at hsize; omega)]
      rfl
    | cons c cs =>
      obtain rfl := hat c rfl
      have hone : Char.utf8Size '<' = 1 := rfl
      rw [utf8Len_cons, hone] at hsize
      have hlater : after? (stop + 1) text = some cs := after?_next h
      rw [if_pos (show stop < utf8Len text by omega), h, Option.bind_some, startsMarkup?_eq rfl, hlater]
      cases hm : startsMarkup cs with
      | true => simp [textRun, hm]
      | false =>
        -- a `<` that begins nothing is text, and so is what comes before the next one
        have hrun : (textRun ('<' :: cs)).1 = '<' :: (textRun cs).1 := by simp [textRun, hm]
        have hnext := after?_dropWhile hlater (· ≠ '<')
        have hshort := (List.dropWhile_suffix (· ≠ '<') (l := cs)).length_le
        dsimp only
        rw [nextStop_eq (show stop + 1 + utf8Len cs = utf8Len text by omega), if_pos (by omega),
          ih _ (by rw [← hn, List.length_cons]; omega) hnext (head?_dropWhile_ne '<' cs) rfl, hrun, textRun_plain cs,
          utf8Len_cons, utf8Len_append, hone]
        congr 1
        omega

/-! ## Rounds -/

/-- the end of a comment, and what it is of -/
theorem offsetOf?_cutAt (mark cs : List Char) (hmark : mark ≠ []) :
    (offsetOf? mark cs = some (utf8Len (cutAt mark cs).1) ∧ cs = (cutAt mark cs).1 ++ (mark ++ (cutAt mark cs).2)) ∨
      (offsetOf? mark cs = none ∧ cutAt mark cs = (cs, [])) := by
  induction cs with
  | nil =>
    right
    cases mark with
    | nil => exact absurd rfl hmark
    | cons d ds => exact ⟨rfl, rfl⟩
  | cons c cs ih =>
    rw [offsetOf?, cutAt]
    by_cases hhere : mark.isPrefixOf (c :: cs) = true
    · left
      obtain ⟨later, hlater⟩ := List.isPrefixOf_iff_prefix.1 hhere
      rw [if_pos hhere, if_pos hhere, ← hlater]
      exact ⟨rfl, by rw [List.drop_left, List.nil_append]⟩
    · rw [if_neg hhere, if_neg hhere]
      rcases ih with ⟨hfound, hcut⟩ | ⟨hnone, hcut⟩
      · left
        rw [hfound]
        exact ⟨rfl, congrArg (c :: ·) hcut⟩
      · right
        rw [hnone, hcut]
        exact ⟨rfl, rfl⟩

theorem comment?_reads {input body : List Char} {pos : Nat}
    (h : after? pos input = some ('<' :: '!' :: '-' :: '-' :: body)) :
    Reads input (comment? ('<' :: '!' :: '-' :: '-' :: body) pos)
      (.node (.comment (String.ofList (cutAt ['-', '-', '>'] body).1))) (cutAt ['-', '-', '>'] body).2 := by
  have hbody : after? (pos + 4) input = some body := after?_add (a := ['<', '!', '-', '-']) h
  rcases offsetOf?_cutAt ['-', '-', '>'] body (List.cons_ne_nil _ _) with ⟨hfound, hcut⟩ | ⟨hnone, hcut⟩
  · generalize (cutAt ['-', '-', '>'] body).1 = data at hfound hcut ⊢
    generalize (cutAt ['-', '-', '>'] body).2 = left at hcut ⊢
    subst hcut
    refine ⟨pos + (4 + utf8Len data + 3), ?_, ?_⟩
    · simp only [comment?, List.drop_succ_cons, List.drop_zero, hfound, before?_append, Option.bind_eq_bind,
        Option.bind_some]
      rfl
    · rw [show pos + (4 + utf8Len data + 3) = pos + 4 + utf8Len data + 3 by omega]
      exact after?_add (a := ['-', '-', '>']) (after?_add hbody)
  · rw [hcut]
    refine ⟨pos + utf8Len ('<' :: '!' :: '-' :: '-' :: body), ?_, after?_end h⟩
    simp only [comment?, List.drop_succ_cons, List.drop_zero, hnone]

theorem endTag?_reads {input body : List Char} {pos : Nat} (h : after? pos input = some ('<' :: '/' :: body)) :
    Reads input (endTag? input pos) (.stop (String.ofList (body.takeWhile isNameChar)))
      (skipPast '>' (body.dropWhile isNameChar)) := by
  have hbody : after? (pos + 2) input = some body := after?_add (a := ['<', '/']) h
  obtain ⟨stop, hname, hstop⟩ := takeName?_reads hbody
  obtain ⟨next, hskip, hnext⟩ := skipPast?_moves hstop '>'
  refine ⟨next, ?_, hnext⟩
  simp only [endTag?, hname, hskip, Option.bind_eq_bind, Option.bind_some]
  rfl

theorem startTag?_reads {input body : List Char} {pos : Nat} (h : after? pos input = some ('<' :: body)) :
    let list := attributeList (body.dropWhile isNameChar)
    let token := elementToken (body.takeWhile isNameChar) list.1 list.2.1 list.2.2
    Reads input (startTag? input pos) token.1 token.2 := by
  have hbody : after? (pos + 1) input = some body := after?_next h
  obtain ⟨stop, hname, hstop⟩ := takeName?_reads hbody
  obtain ⟨last, hlist, hlast⟩ := tagRounds?_reads hstop
  generalize attributeList (body.dropWhile isNameChar) = list at hlist hlast ⊢
  generalize body.takeWhile isNameChar = tag at hname ⊢
  simp only [startTag?, hname, hlist, Option.bind_eq_bind, Option.bind_some]
  unfold elementToken
  dsimp only
  split
  · exact ⟨last, rfl, hlast⟩
  · split
    · obtain ⟨next, hraw, hnext⟩ := rawText?_reads hlast tag
      rw [hraw]
      exact ⟨next, rfl, hnext⟩
    · exact ⟨last, rfl, hlast⟩

theorem text?_reads {input cs : List Char} {c : Char} {pos : Nat} (h : after? pos input = some (c :: cs)) :
    Reads input (text? (c :: cs) pos) (.node (.text (decode (c :: (textRun cs).1)))) (textRun cs).2 := by
  have hlater : after? c.utf8Size (c :: cs) = some cs := after?_head c cs
  have hstop : textEnd? (c :: cs) (((offset? (· == '<') cs).map (c.utf8Size + ·)).getD (utf8Len (c :: cs))) =
      some (utf8Len (c :: (textRun cs).1)) := by
    rw [nextStop_eq (show c.utf8Size + utf8Len cs = utf8Len (c :: cs) from Nat.add_comm _ _),
      textEnd?_eq (after?_dropWhile hlater (· ≠ '<')) (head?_dropWhile_ne '<' cs), textRun_plain cs, utf8Len_cons,
      utf8Len_append]
    congr 1
    omega
  have hdata : c :: cs = (c :: (textRun cs).1) ++ (textRun cs).2 := congrArg (c :: ·) (textRun_split cs).symm
  refine ⟨pos + utf8Len (c :: (textRun cs).1), ?_, after?_add (h.trans (congrArg some hdata))⟩
  have hbefore : before? (utf8Len (c :: (textRun cs).1)) (c :: cs) = some (c :: (textRun cs).1) := by
    conv_lhs => rw [hdata]
    exact before?_append _ _
  simp only [text?, List.head?_cons, Option.map_some, Option.getD_some, hlater, hstop, hbefore, decode?_eq,
    Option.bind_eq_bind, Option.bind_some]
  rfl

theorem letterAfter?_append (mark cs : List Char) :
    letterAfter? mark (utf8Len mark) (mark ++ cs) = some (beginsWithLetter cs) := by
  rw [letterAfter?, if_pos (List.isPrefixOf_iff_prefix.2 (List.prefix_append mark cs)), after?_append]
  rfl

theorem letterAfter?_eq_false (mark : List Char) {rest : List Char}
    (h : ∀ cs, rest = mark ++ cs → beginsWithLetter cs = false) :
    letterAfter? mark (utf8Len mark) rest = some false := by
  by_cases hp : mark <+: rest
  · obtain ⟨cs, rfl⟩ := hp
    rw [letterAfter?_append, h cs rfl]
  · exact if_neg fun hmark => hp (List.isPrefixOf_iff_prefix.1 hmark)

theorem beginsWithLetter_of_startsMarkup {cs : List Char} (h : startsMarkup cs = false) :
    beginsWithLetter cs = false := by
  cases cs with
  | nil => rfl
  | cons d ds => exact Bool.eq_false_iff.2 fun hd => Bool.eq_false_iff.1 h (startsMarkup_of_isLetter hd ds)

theorem scan_stop {d : Char} (h : isLetter d = true) (ds : List Char) : scan '<' ('/' :: d :: ds) =
    (.stop (String.ofList ((d :: ds).takeWhile isNameChar)), skipPast '>' ((d :: ds).dropWhile isNameChar)) := by
  have hs : startsMarkup ('/' :: d :: ds) = true := h
  unfold scan
  rw [hs]
  rfl

theorem scan_start {d : Char} (h : isLetter d = true) (ds : List Char) :
    let list := attributeList ((d :: ds).dropWhile isNameChar)
    scan '<' (d :: ds) = elementToken ((d :: ds).takeWhile isNameChar) list.1 list.2.1 list.2.2 := by
  unfold scan
  dsimp only
  rw [if_pos (by rw [startsMarkup_of_isLetter h]; rfl)]
  split
  · next he =>
    cases he
    exact absurd h (by decide)
  · next he =>
    cases he
    exact absurd h (by decide)
  · rfl

theorem scan_text {c : Char} {cs : List Char} (h : c = '<' → startsMarkup cs = false) :
    scan c cs = (.node (.text (decode (c :: (textRun cs).1))), (textRun cs).2) := by
  unfold scan
  rw [if_neg]
  rintro hs
  simp only [Bool.and_eq_true, decide_eq_true_eq] at hs
  exact Bool.eq_false_iff.1 (h hs.1) hs.2

/-- a round of reading is the next token -/
theorem round?_reads {input cs : List Char} {c : Char} {pos : Nat} (h : after? pos input = some (c :: cs)) :
    Reads input (round? input pos) (scan c cs).1 (scan c cs).2 := by
  simp only [round?, h, Option.bind_eq_bind, Option.bind_some]
  by_cases hs : c = '<' ∧ startsMarkup cs = true
  · obtain ⟨rfl, hs⟩ := hs
    rcases startsMarkup_iff.1 hs with ⟨body, rfl⟩ | ⟨d, hd, ⟨ds, rfl⟩ | ⟨ds, rfl⟩⟩
    · exact comment?_reads h
    · have hletter : letterAfter? ['<', '/'] 2 ('<' :: '/' :: d :: ds) = some (isLetter d) :=
        letterAfter?_append ['<', '/'] (d :: ds)
      simp only [List.cons_append, List.nil_append, hletter, hd, Option.bind_some, if_true] at h ⊢
      rw [scan_stop hd]
      exact endTag?_reads h
    · have hother : ∀ e, isLetter e = false → e ≠ d := by
        rintro e he rfl
        rw [hd] at he
        cases he
      have hcomment : ['<', '!', '-', '-'].isPrefixOf ('<' :: d :: ds) = false := by
        simp [List.isPrefixOf_cons_cons, hother '!' (by decide)]
      have hstop : letterAfter? ['<', '/'] 2 ('<' :: d :: ds) = some false :=
        letterAfter?_eq_false ['<', '/'] fun es he => by
          cases he
          exact absurd hd (by decide)
      have hletter : letterAfter? ['<'] 1 ('<' :: d :: ds) = some (isLetter d) :=
        letterAfter?_append ['<'] (d :: ds)
      simp only [List.cons_append, List.nil_append, hcomment, hstop, hletter, hd, Option.bind_some, if_true,
        Bool.false_eq_true, if_false] at h ⊢
      rw [scan_start hd]
      exact startTag?_reads h
  · have hlt : c = '<' → startsMarkup cs = false := fun hc => Bool.eq_false_iff.2 fun hm => hs ⟨hc, hm⟩
    have hcomment : ['<', '!', '-', '-'].isPrefixOf (c :: cs) = false := by
      refine Bool.eq_false_iff.2 fun hp => ?_
      obtain ⟨body, he⟩ := List.isPrefixOf_iff_prefix.1 hp
      cases he
      cases hlt rfl
    have hstop : letterAfter? ['<', '/'] 2 (c :: cs) = some false :=
      letterAfter?_eq_false ['<', '/'] fun es he => by
        cases he
        exact (startsMarkup_slash es).symm.trans (hlt rfl)
    have hstart : letterAfter? ['<'] 1 (c :: cs) = some false :=
      letterAfter?_eq_false ['<'] fun es he => by
        cases he
        exact beginsWithLetter_of_startsMarkup (hlt rfl)
    simp only [hcomment, hstop, hstart, Option.bind_some, Bool.false_eq_true, if_false]
    rw [scan_text hlt]
    exact text?_reads h

/-- rounds from a place on take in the tokens of what is left there -/
theorem rounds?_eq {input rest : List Char} {pos : Nat} (h : after? pos input = some rest) (nest : Nest) :
    rounds? input pos nest = some ((tokens rest).foldl Nest.step nest) := by
  induction hn : rest.length using Nat.strongRecOn generalizing rest pos nest with
  | ind n ih =>
    have hsize := utf8Len_of_after? h
    rw [rounds?]
    cases rest with
    | nil =>
      rw [if_neg (by rw [utf8Len_nil] at hsize; omega), tokens]
      rfl
    | cons c cs =>
      have hmore : pos < utf8Len input := by
        have := Char.utf8Size_pos c
        rw [utf8Len_cons] at hsize
        omega
      have hless : (scan c cs).2.length < (c :: cs).length := Nat.lt_succ_of_le (length_scan c cs)
      obtain ⟨next, hround, hnext⟩ := round?_reads h
      rw [if_pos hmore, hround]
      dsimp only
      rw [if_pos ⟨lt_of_length_lt h hnext hless, le_of_after? hnext⟩, ih _ (hn ▸ hless) hnext _ rfl, tokens_cons]
      rfl

/-! ## Whole texts -/

/-- an offset between two characters of a text, or at one of its ends -/
def IsPlace (s : String) (pos : Nat) : Prop := (⟨pos⟩ : String.Pos.Raw).IsValid s

theorem isPlace_iff {s : String} {pos : Nat} : IsPlace s pos ↔ ∃ rest, after? pos s.toList = some rest := by
  rw [IsPlace, ← isSome_after?_iff, Option.isSome_iff_exists]

theorem utf8Len_toList (s : String) : utf8Len s.toList = s.utf8ByteSize := by
  rw [← String.utf8ByteSize_ofList, String.ofList_toList]

/-- the offset `next` comes after `pos`, within the text and between two of its characters -/
def Advances (s : String) (pos next : Nat) : Prop := pos < next ∧ next ≤ s.utf8ByteSize ∧ IsPlace s next

theorem Advances.of_length {s : String} {pos next : Nat} {rest left : List Char} (h : after? pos s.toList = some rest)
    (hnext : after? next s.toList = some left) (hless : left.length < rest.length) : Advances s pos next :=
  ⟨lt_of_length_lt h hnext hless, utf8Len_toList s ▸ le_of_after? hnext, isPlace_iff.2 ⟨left, hnext⟩⟩

/-- **Reading by offsets never fails and always comes forward.** From any place before the end of a text, a round of
reading takes all its slices and ends at a later place of the text. From any place, so does a round of reading a start
tag, unless it is the last one. So no text is refused, and what is read is its forest. -/
theorem parse?_advances (s : String) :
    (∀ pos, IsPlace s pos → pos < s.utf8ByteSize →
      ∃ token next, round? s.toList pos = some (token, next) ∧ Advances s pos next) ∧
    (∀ pos, IsPlace s pos →
      (∃ closing next, tagRound? s.toList pos = some (.done closing next) ∧
        pos ≤ next ∧ next ≤ s.utf8ByteSize ∧ IsPlace s next) ∨
      ∃ found next, tagRound? s.toList pos = some (.next found next) ∧ Advances s pos next) ∧
    parse? s = some (read s) := by
  refine ⟨fun pos hplace hless => ?_, fun pos hplace => ?_, ?_⟩
  · obtain ⟨rest, h⟩ := isPlace_iff.1 hplace
    have hsize := utf8Len_of_after? h
    rw [utf8Len_toList] at hsize
    cases rest with
    | nil =>
      rw [utf8Len_nil] at hsize
      omega
    | cons c cs =>
      obtain ⟨next, hround, hnext⟩ := round?_reads h
      exact ⟨(scan c cs).1, next, hround, .of_length h hnext (Nat.lt_succ_of_le (length_scan c cs))⟩
  · obtain ⟨rest, h⟩ := isPlace_iff.1 hplace
    rcases tagRound?_reads h with ⟨closing, next, left, hround, hnext, hle, -⟩ |
      ⟨found, next, left, hround, hnext, hless, -⟩
    · exact .inl ⟨closing, next, hround, le_of_length_le h hnext hle, utf8Len_toList s ▸ le_of_after? hnext,
        isPlace_iff.2 ⟨left, hnext⟩⟩
    · exact .inr ⟨found, next, hround, .of_length h hnext hless⟩
  · rw [parse?, rounds?_eq (show after? 0 s.toList = some s.toList from by rw [after?])]
    rfl

/-- behind a character of two bytes, with the quote and the tag left open -/
theorem parse?_advances_unclosed :
    let s := "é<p à='ü&amp"
    ¬ IsPlace s 1 ∧ IsPlace s 2 ∧ 2 < s.utf8ByteSize ∧
      (∃ token next, round? s.toList 2 = some (token, next) ∧ Advances s 2 next) ∧ parse? s = some (read s) := by
  have hinside : ¬ IsPlace "é<p à='ü&amp" 1 := fun h => by
    obtain ⟨rest, hrest⟩ := isPlace_iff.1 h
    cases hrest
  have hbehind : IsPlace "é<p à='ü&amp" 2 := isPlace_iff.2 ⟨"<p à='ü&amp".toList, by decide⟩
  have hless : 2 < "é<p à='ü&amp".utf8ByteSize := by decide
  obtain ⟨hround, -, hread⟩ := parse?_advances "é<p à='ü&amp"
  exact ⟨hinside, hbehind, hless, hround 2 hbehind hless, hread⟩

end LiveMarkup.Markup.Cursor
