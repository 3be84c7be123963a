/-
Byte offsets into a text.

A text is a list of characters, an offset counts the bytes that they take in UTF-8. A slice that would begin or end
inside a character or past the end is refused, and so is one that would end before it begins. `offset?` and `offsetOf?`
look for a character or a text and give the offset where it begins.

- `after?_eq_some_iff`, `isSome_after?_iff`: what follows an offset, and that the offsets with something after them are
  the valid positions of a string;
- `after?_add`: from such an offset, one comes to another by going on by the size of what is read;
- `lt_of_length_lt`: the less is left, the farther the offset;
- `offset?_getD`, `offset?_of_mem`, `after?_past`: what is found, and what comes after it.
-/
import Mathlib.Data.List.TakeWhile
import Mathlib.Data.String.Basic
import LiveMarkup.Text.Case

namespace LiveMarkup.Bytes

open String (utf8Len utf8Len_nil utf8Len_cons utf8Len_append)

/-! ## Slices -/

/-- the text from a byte offset on -/
def after? : Nat → List Char → Option (List Char)
  | 0, cs => some cs
  | _ + 1, [] => none
  | n + 1, c :: cs => if c.utf8Size ≤ n + 1 then after? (n + 1 - c.utf8Size) cs else none

/-- the text up to a byte offset -/
def before? : Nat → List Char → Option (List Char)
  | 0, _ => some []
  | _ + 1, [] => none
  | n + 1, c :: cs => if c.utf8Size ≤ n + 1 then (before? (n + 1 - c.utf8Size) cs).map (c :: ·) else none

/-- the text between two byte offsets -/
def between? (m n : Nat) (cs : List Char) : Option (List Char) :=
  if m ≤ n then (after? m cs).bind (before? (n - m)) else none

section

variable {n m : Nat} {cs a b rest rest' : List Char}

theorem after?_cons {c : Char} (h : c.utf8Size ≤ n) : after? n (c :: cs) = after? (n - c.utf8Size) cs := by
  cases n with
  | zero => exact absurd h (Nat.not_le.2 c.utf8Size_pos)
  | succ n => rw [after?, if_pos h]

theorem before?_cons {c : Char} (h : c.utf8Size ≤ n) :
    before? n (c :: cs) = (before? (n - c.utf8Size) cs).map (c :: ·) := by
  cases n with
  | zero => exact absurd h (Nat.not_le.2 c.utf8Size_pos)
  | succ n => rw [before?, if_pos h]

theorem after?_append (a b : List Char) : after? (utf8Len a) (a ++ b) = some b := by
  induction a with
  | nil => rw [utf8Len_nil, List.nil_append, after?]
  | cons c a ih =>
    rw [utf8Len_cons, List.cons_append, after?_cons (Nat.le_add_left _ _), Nat.add_sub_cancel, ih]

theorem after?_head (c : Char) (cs : List Char) : after? c.utf8Size (c :: cs) = some cs := by
  rw [after?_cons (Nat.le_refl _), Nat.sub_self, after?]

theorem before?_append (a b : List Char) : before? (utf8Len a) (a ++ b) = some a := by
  induction a with
  | nil => rw [utf8Len_nil, before?]
  | cons c a ih =>
    rw [utf8Len_cons, List.cons_append, before?_cons (Nat.le_add_left _ _), Nat.add_sub_cancel, ih]
    rfl

/-- what follows an offset follows characters of that size -/
theorem after?_eq_some_iff : after? n cs = some rest ↔ ∃ a, cs = a ++ rest ∧ utf8Len a = n := by
  constructor
  · intro h
    fun_induction after? n cs with
    | case1 cs =>
      cases h
      exact ⟨[], rfl, rfl⟩
    | case2 n => cases h
    | case3 n c cs hle ih =>
      obtain ⟨a, rfl, ha⟩ := ih h
      exact ⟨c :: a, rfl, by rw [utf8Len_cons]; omega⟩
    | case4 n c cs hle => cases h
  · rintro ⟨a, rfl, rfl⟩
    exact after?_append a rest

/-- the offsets with something after them are the valid positions of a string -/
theorem isSome_after?_iff (s : String) (n : Nat) : (after? n s.toList).isSome ↔ (⟨n⟩ : String.Pos.Raw).IsValid s := by
  rw [Option.isSome_iff_exists, String.Pos.Raw.isValid_iff_exists_append]
  constructor
  · rintro ⟨rest, h⟩
    obtain ⟨a, hs, rfl⟩ := after?_eq_some_iff.1 h
    refine ⟨String.ofList a, String.ofList rest, ?_, ?_⟩
    · rw [← String.ofList_append, ← hs, String.ofList_toList]
    · rw [String.rawEndPos_ofList]
  · rintro ⟨s₁, s₂, rfl, hn⟩
    refine ⟨s₂.toList, after?_eq_some_iff.2 ⟨s₁.toList, String.toList_append, ?_⟩⟩
    rw [← String.utf8ByteSize_ofList, String.ofList_toList]
    exact (congrArg String.Pos.Raw.byteIdx hn).symm

/-- from an offset one comes to another by going on by the size of what is read -/
theorem after?_add (h : after? n cs = some (a ++ b)) : after? (n + utf8Len a) cs = some b := by
  obtain ⟨pre, rfl, rfl⟩ := after?_eq_some_iff.1 h
  rw [← utf8Len_append, ← List.append_assoc]
  exact after?_append (pre ++ a) b

theorem after?_next {c : Char} (h : after? n cs = some (c :: rest)) : after? (n + c.utf8Size) cs = some rest := by
  have hone : utf8Len [c] = c.utf8Size := Nat.zero_add _
  rw [← hone]
  exact after?_add h

theorem after?_end (h : after? n cs = some rest) : after? (n + utf8Len rest) cs = some [] :=
  after?_add ((List.append_nil rest).symm ▸ h)

theorem utf8Len_of_after? (h : after? n cs = some rest) : n + utf8Len rest = utf8Len cs := by
  obtain ⟨a, rfl, rfl⟩ := after?_eq_some_iff.1 h
  rw [utf8Len_append]

theorem le_of_after? (h : after? n cs = some rest) : n ≤ utf8Len cs := utf8Len_of_after? h ▸ Nat.le_add_right _ _

/-- the less is left, the farther the offset -/
theorem le_of_length_le (h : after? n cs = some rest) (h' : after? m cs = some rest')
    (hl : rest'.length ≤ rest.length) : n ≤ m := by
  obtain ⟨a, rfl, -⟩ := after?_eq_some_iff.1 h
  obtain ⟨a', ha', -⟩ := after?_eq_some_iff.1 h'
  have hsuffix : rest' <:+ rest := List.suffix_of_suffix_length_le ⟨a', ha'.symm⟩ (List.suffix_append a rest) hl
  have hsize := String.utf8Len_le_of_suffix hsuffix
  have hn := utf8Len_of_after? h
  have hm := utf8Len_of_after? h'
  omega

theorem lt_of_length_lt (h : after? n cs = some rest) (h' : after? m cs = some rest')
    (hl : rest'.length < rest.length) : n < m := by
  refine Nat.lt_of_le_of_ne (le_of_length_le h h' hl.le) fun he => ?_
  rw [he, h', Option.some_inj] at h
  exact Nat.ne_of_lt hl (congrArg List.length h)

theorem between?_append (a b c : List Char) :
    between? (utf8Len a) (utf8Len a + utf8Len b) (a ++ (b ++ c)) = some b := by
  rw [between?, if_pos (Nat.le_add_right _ _), after?_append, Nat.add_sub_cancel_left]
  exact before?_append b c

end

/-! ## Looking for something -/

/-- the byte offset of the first character with a property -/
def offset? (p : Char → Bool) : List Char → Option Nat
  | [] => none
  | c :: cs => if p c then some 0 else (offset? p cs).map (· + c.utf8Size)

/-- the byte offset of the first occurrence of a text -/
def offsetOf? (mark : List Char) : List Char → Option Nat
  | [] => if mark.isEmpty then some 0 else none
  | c :: cs => if mark.isPrefixOf (c :: cs) then some 0 else (offsetOf? mark cs).map (· + c.utf8Size)

/-- what is before the first character with a property has its offset as its size -/
theorem offset?_eq (p : Char → Bool) (cs : List Char) : offset? p cs =
    if cs.dropWhile (!p ·) = [] then none else some (utf8Len (cs.takeWhile (!p ·))) := by
  induction cs with
  | nil => rfl
  | cons c cs ih =>
    rw [offset?, List.dropWhile_cons, List.takeWhile_cons]
    cases hp : p c with
    | true => simp
    | false =>
      rw [ih]
      simp only [Bool.false_eq_true, if_false, Bool.not_false, if_true, utf8Len_cons]
      split <;> rfl

theorem offset?_getD (p : Char → Bool) (cs : List Char) :
    (offset? p cs).getD (utf8Len cs) = utf8Len (cs.takeWhile (!p ·)) := by
  rw [offset?_eq]
  split
  · next h =>
    have hall := List.takeWhile_append_dropWhile (p := (!p ·)) (l := cs)
    rw [h, List.append_nil] at hall
    rw [hall]
    rfl
  · rfl

theorem before?_takeWhile (p : Char → Bool) (cs : List Char) :
    before? (utf8Len (cs.takeWhile p)) cs = some (cs.takeWhile p) := by
  have h := before?_append (cs.takeWhile p) (cs.dropWhile p)
  rwa [List.takeWhile_append_dropWhile] at h

theorem after?_dropWhile {n : Nat} {cs rest : List Char} (h : after? n cs = some rest) (p : Char → Bool) :
    after? (n + utf8Len (rest.takeWhile p)) cs = some (rest.dropWhile p) :=
  after?_add (by rw [List.takeWhile_append_dropWhile]; exact h)

/-- a text at its first `stop` -/
theorem split_at_stop {stop : Char} {cs : List Char} (h : stop ∈ cs) :
    cs = cs.takeWhile (· ≠ stop) ++ stop :: (cs.dropWhile (· ≠ stop)).tail := by
  induction cs with
  | nil => cases h
  | cons c cs ih =>
    by_cases hc : c = stop
    · simp [hc]
    · have hrest := ih (List.mem_of_ne_of_mem (Ne.symm hc) h)
      simp only [List.takeWhile_cons, List.dropWhile_cons, ne_eq, hc, not_false_eq_true, decide_true, if_true,
        List.cons_append]
      exact congrArg (c :: ·) hrest

theorem dropWhile_ne_of_mem {stop : Char} {cs : List Char} (h : stop ∈ cs) :
    cs.dropWhile (· ≠ stop) = stop :: (cs.dropWhile (· ≠ stop)).tail :=
  List.append_cancel_left ((List.takeWhile_append_dropWhile).trans (split_at_stop h))

theorem offset?_of_mem {stop : Char} {cs : List Char} (h : stop ∈ cs) :
    offset? (· == stop) cs = some (utf8Len (cs.takeWhile (· ≠ stop))) := by
  induction cs with
  | nil => cases h
  | cons c cs ih =>
    by_cases hc : c = stop
    · simp [offset?, hc]
    · rw [offset?, if_neg (by simpa using hc), ih (List.mem_of_ne_of_mem (Ne.symm hc) h)]
      simp [hc]

theorem offset?_of_not_mem {stop : Char} {cs : List Char} (h : stop ∉ cs) : offset? (· == stop) cs = none := by
  induction cs with
  | nil => rfl
  | cons c cs ih =>
    rw [List.mem_cons, not_or] at h
    rw [offset?, if_neg (by simpa using Ne.symm h.1), ih h.2]
    rfl

/-- what comes after the first `stop` -/
theorem after?_past {stop : Char} {n : Nat} {cs rest : List Char} (h : after? n cs = some rest) (hin : stop ∈ rest) :
    after? (n + (utf8Len (rest.takeWhile (· ≠ stop)) + stop.utf8Size)) cs =
      some (rest.dropWhile (· ≠ stop)).tail := by
  have hsize : utf8Len (rest.takeWhile (· ≠ stop)) + stop.utf8Size = utf8Len (rest.takeWhile (· ≠ stop) ++ [stop]) := by
    rw [utf8Len_append, utf8Len_cons, utf8Len_nil, Nat.zero_add]
  rw [hsize]
  refine after?_add ?_
  rw [List.append_assoc, List.singleton_append, ← split_at_stop hin]
  exact h

theorem dropWhile_ne_of_not_mem {stop : Char} {cs : List Char} (h : stop ∉ cs) : cs.dropWhile (· ≠ stop) = [] :=
  List.dropWhile_eq_nil_iff.2 fun _ hc => decide_eq_true fun he => h (he ▸ hc)

theorem takeWhile_ne_of_not_mem {stop : Char} {cs : List Char} (h : stop ∉ cs) : cs.takeWhile (· ≠ stop) = cs :=
  List.takeWhile_eq_self_iff.2 fun _ hc => decide_eq_true fun he => h (he ▸ hc)

/-- folding a letter keeps its size -/
theorem utf8Size_toLower (c : Char) : c.toLower.utf8Size = c.utf8Size := by
  unfold Char.toLower
  split
  · next h =>
    -- a capital and its small letter take one byte each
    have hupper : c.val ≤ 127 := UInt32.le_trans h.2 (by decide)
    have hlower : c.val + ('a'.val - 'A'.val) ≤ 127 := by
      have hn : c.val.toNat ≤ 90 := UInt32.le_iff_toNat_le.1 h.2
      rw [UInt32.le_iff_toNat_le, UInt32.toNat_add]
      change (c.val.toNat + 32) % 2 ^ 32 ≤ 127
      omega
    rw [Char.utf8Size_eq_one_iff.2 hupper, Char.utf8Size_eq_one_iff.2 hlower]
  · rfl

end LiveMarkup.Bytes
