/-
Printing a number in decimal and reading it back.

`Numeral n` says which texts stand for `n` in decimal; it is the grammar beside the reader.

- `digitRow?_of_isDigit`: a row of decimal digits has the value that the library gives to it;
- `number?_eq_some_iff`: exactly the numerals are read, each with its value;
- `numberBelow?_eq_some_iff`: below a limit, and a numeral that reaches it is refused;
- `numeral_toDigits`: the decimal digits of a number stand for it.
-/
import LiveMarkup.Text.Numeral

namespace LiveMarkup

theorem digit?_of_isDigit {c : Char} (h : c.isDigit = true) : digit? 10 c = some (c.toNat - '0'.toNat) := by
  have hv : digitValue c = some (c.toNat - '0'.toNat) := by simp [digitValue, h]
  have hc : c.toNat - '0'.toNat < 10 := by
    simp only [Char.isDigit, Bool.and_eq_true, decide_eq_true_eq] at h
    have h9 : c.toNat ≤ 57 := by simpa [UInt32.le_iff_toNat_le] using h.2
    have h0 : '0'.toNat = 48 := rfl
    omega
  simpa [digit?, hv] using hc

/-- a row of decimal digits has the value that the library gives to it -/
theorem digitRow?_of_isDigit {cs : List Char} (h : ∀ c ∈ cs, c.isDigit = true) (high : Nat) :
    digitRow? 10 high cs = some (Nat.ofDigitChars 10 cs high) := by
  induction cs generalizing high with
  | nil => simp [digitRow?]
  | cons c cs ih =>
    rw [digitRow?, digit?_of_isDigit (h c List.mem_cons_self), Nat.ofDigitChars_cons]
    simp only [Nat.mul_comm 10 high]
    exact ih (fun d hd => h d (List.mem_cons_of_mem c hd)) _

theorem isDigit_of_mem_toDigits {n : Nat} {c : Char} (h : c ∈ Nat.toDigits 10 n) : c.isDigit = true :=
  Nat.isDigit_of_mem_toDigits (by decide) (by decide) h

/-! ## What is read -/

theorem isDigit_of_digit? {c : Char} {d : Nat} (h : digit? 10 c = some d) : c.isDigit = true := by
  obtain ⟨hv, hd⟩ := Option.filter_eq_some_iff.1 h
  have hd : d < 10 := of_decide_eq_true hd
  cases hc : c.isDigit with
  | true => rfl
  | false =>
    -- a letter has at least the value ten
    simp only [digitValue, hc, Bool.false_eq_true, if_false] at hv
    split at hv
    · cases hv
      omega
    · split at hv
      · cases hv
        omega
      · cases hv

theorem digitRow?_eq_some_iff {cs : List Char} {high n : Nat} :
    digitRow? 10 high cs = some n ↔ (∀ c ∈ cs, c.isDigit = true) ∧ Nat.ofDigitChars 10 cs high = n := by
  constructor
  · intro h
    have hdigits : ∀ c ∈ cs, c.isDigit = true := by
      induction cs generalizing high with
      | nil => simp
      | cons c cs ih =>
        rw [digitRow?] at h
        split at h
        · next d hd => exact List.forall_mem_cons.2 ⟨isDigit_of_digit? hd, ih h⟩
        · cases h
    exact ⟨hdigits, Option.some.inj ((digitRow?_of_isDigit hdigits high).symm.trans h)⟩
  · rintro ⟨hdigits, rfl⟩
    exact digitRow?_of_isDigit hdigits high

/-- the text is one or more decimal digits with the value `n` -/
structure Digits (n : Nat) (cs : List Char) : Prop where
  nonempty : cs ≠ []
  digits : ∀ c ∈ cs, c.isDigit = true
  value : Nat.ofDigitChars 10 cs 0 = n

/-- the text stands for `n` in decimal: digits with that value, and at most a plus sign before them -/
inductive Numeral (n : Nat) : List Char → Prop where
  | bare {cs : List Char} : Digits n cs → Numeral n cs
  | plus {cs : List Char} : Digits n cs → Numeral n ('+' :: cs)

/-- the decimal digits of a number stand for it -/
theorem numeral_toDigits (n : Nat) : Numeral n (Nat.toDigits 10 n) :=
  .bare ⟨Nat.toDigits_ne_nil, fun _ hc => isDigit_of_mem_toDigits hc, Nat.ofDigitChars_ten_toDigits⟩

theorem digits?_eq_some_iff {cs : List Char} {n : Nat} : digits? 10 cs = some n ↔ Digits n cs := by
  cases cs with
  | nil => exact ⟨nofun, fun h => absurd rfl h.nonempty⟩
  | cons c cs =>
    rw [digits?, digitRow?_eq_some_iff]
    · exact ⟨fun h => ⟨List.cons_ne_nil c cs, h.1, h.2⟩, fun h => ⟨h.digits, h.value⟩⟩
    · exact List.cons_ne_nil c cs

/-- exactly the numerals are read, each with its value -/
theorem number?_eq_some_iff {cs : List Char} {n : Nat} : number? 10 cs = some n ↔ Numeral n cs := by
  by_cases hplus : ∃ ds, cs = '+' :: ds
  · obtain ⟨ds, rfl⟩ := hplus
    rw [number?, digits?_eq_some_iff]
    refine ⟨.plus, fun h => ?_⟩
    cases h with
    | bare h => exact absurd (h.digits '+' List.mem_cons_self) (by decide)
    | plus h => exact h
  · rw [number?, digits?_eq_some_iff]
    · refine ⟨.bare, fun h => ?_⟩
      cases h with
      | bare h => exact h
      | plus _ => exact absurd ⟨_, rfl⟩ hplus
    · exact fun ds hds => hplus ⟨ds, hds⟩

theorem numberBelow?_eq_some_iff {limit n : Nat} {cs : List Char} :
    numberBelow? limit 10 cs = some n ↔ Numeral n cs ∧ n < limit := by
  rw [numberBelow?, Option.filter_eq_some_iff, number?_eq_some_iff, decide_eq_true_eq]

/-- a text stands for at most one number -/
theorem Numeral.unique {m n : Nat} {cs : List Char} (hm : Numeral m cs) (hn : Numeral n cs) : m = n :=
  Option.some.inj ((number?_eq_some_iff.2 hm).symm.trans (number?_eq_some_iff.2 hn))

end LiveMarkup
