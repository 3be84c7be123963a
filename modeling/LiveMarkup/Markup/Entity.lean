/-
Character references: how text stands in markup.

`escape` writes text and `decode` reads it. Writing replaces the three characters that would start or end markup, and
the double quote inside attribute values; reading knows six names and every decimal or hexadecimal code point, and
leaves anything else as it stands.
-/
import LiveMarkup.Text.Numeral

namespace LiveMarkup.Markup

/-! ## Writing -/

/-- where a text stands -/
inductive Place where
  | content
  | attributeValue
deriving DecidableEq, Repr

def escapeChar (place : Place) (c : Char) : List Char :=
  match c with
  | '&' => ['&', 'a', 'm', 'p', ';']
  | '<' => ['&', 'l', 't', ';']
  | '>' => ['&', 'g', 't', ';']
  | '"' => match place with
    | .content => ['"']
    | .attributeValue => ['&', 'q', 'u', 'o', 't', ';']
  | c => [c]

/-- text as it is written at `place` -/
def escape (place : Place) (s : String) : String := String.ofList (s.toList.flatMap (escapeChar place))

/-! ## Reading -/

/-- the longest name, in characters, that can stand between `&` and `;` -/
def longestReference : Nat := 10

/-- the character with this code point, if it is a scalar value -/
def charOfCode? (n : Nat) : Option Char :=
  if h : n.isValidChar then some (Char.ofNatAux n h) else none

/-- the character that a reference stands for, given what is between `&` and `;` -/
def reference? : List Char → Option Char
  | ['a', 'm', 'p'] => some '&'
  | ['l', 't'] => some '<'
  | ['g', 't'] => some '>'
  | ['q', 'u', 'o', 't'] => some '"'
  | ['a', 'p', 'o', 's'] => some '\''
  | ['n', 'b', 's', 'p'] => some '\u00a0'
  | '#' :: 'x' :: hex => (number? 16 hex).bind charOfCode?
  | '#' :: 'X' :: hex => (number? 16 hex).bind charOfCode?
  | '#' :: decimal => (number? 10 decimal).bind charOfCode?
  | _ => none

/-- a reference at the start of what follows `&`: its character and what follows `;` -/
def referenceAt? (cs : List Char) : Option (Char × List Char) :=
  let name := cs.takeWhile (· ≠ ';')
  match cs.dropWhile (· ≠ ';') with
  | [] => none
  | _ :: rest => if name.length ≤ longestReference then (reference? name).map (·, rest) else none

theorem referenceAt?_length {cs rest : List Char} {c : Char} (h : referenceAt? cs = some (c, rest)) :
    rest.length < cs.length := by
  unfold referenceAt? at h
  have hs := (List.dropWhile_suffix (· ≠ ';') (l := cs)).length_le
  split at h
  · simp at h
  · next hd =>
    rw [hd, List.length_cons] at hs
    simp only [Option.ite_none_right_eq_some, Option.map_eq_some_iff, Prod.mk.injEq] at h
    obtain ⟨_, _, _, _, rfl⟩ := h
    omega

/-- text with its references replaced by the characters they stand for -/
def decodeChars : List Char → List Char
  | [] => []
  | c :: cs =>
    if c = '&' then
      match _h : referenceAt? cs with
      | some (d, rest) => d :: decodeChars rest
      | none => '&' :: decodeChars cs
    else c :: decodeChars cs
termination_by cs => cs.length
decreasing_by
  · have := referenceAt?_length _h
    simp only [List.length_cons]; omega
  · simp
  · simp

def decode (cs : List Char) : String := String.ofList (decodeChars cs)

end LiveMarkup.Markup
