/-
The names of markers.

A text spells a marker if it is the stem of the marker's category in any letter case, and then a numeral that stands for
the marker's index; so leading zeros and one plus sign are allowed. This is said by the stem and by the value of the
digits, without the readers. No stem is the beginning of another, so a text spells at most one marker. The readers of tags
and of attribute names accept exactly the spellings of the markers of their kind whose index is below the limit; an index
that reaches the limit is refused, not reduced.

- `Spells.unique`, `name_inj`: a text spells at most one marker, so printed names differ;
- `ofTag?_eq_some_iff`, `ofAttribute?_eq_some_iff`: what is read as which marker;
- `ofTag?_of_sameLetters`, `ofAttribute?_of_sameLetters`: a printed name is read back, in any letter case;
- `names_unambiguous`: printed names and all other texts, through both readers.
-/
import LiveMarkup.Template.Marker
import LiveMarkup.Proofs.Text.Numeral

namespace LiveMarkup

/-! ## Letter case -/

theorem isLetter_not_isDigit {c : Char} (h : isLetter c = true) : c.isDigit = false := by
  rw [Bool.eq_false_iff]
  intro hd
  have h : (decide (c.val ≥ 'A'.val ∧ c.val ≤ 'Z'.val) ||
    (decide (c.val ≥ 'a'.val) && decide (c.val ≤ 'z'.val))) = true := h
  simp only [Char.isDigit, Bool.or_eq_true, Bool.and_eq_true, decide_eq_true_eq] at h hd
  rcases h with h | h
  · exact absurd (UInt32.le_trans h.1 hd.2) (by decide)
  · exact absurd (UInt32.le_trans h.1 hd.2) (by decide)

/-- folding makes no letter of anything else, and nothing else of a letter -/
theorem toLower_eq_iff {c d : Char} (hd : isLetter d = false) : c.toLower = d ↔ c = d := by
  by_cases hc : 'A'.val ≤ c.val ∧ c.val ≤ 'Z'.val
  · have hsmall : 'a'.val ≤ c.toLower.val ∧ c.toLower.val ≤ 'z'.val := by
      have hlow : c.toLower.val = c.val + ('a'.val - 'A'.val) := congrArg Char.val (dif_pos hc)
      have hlower := UInt32.le_iff_toNat_le.1 hc.1
      have hupper := UInt32.le_iff_toNat_le.1 hc.2
      rw [hlow, UInt32.le_iff_toNat_le, UInt32.le_iff_toNat_le, UInt32.toNat_add]
      change 65 ≤ c.val.toNat at hlower
      change c.val.toNat ≤ 90 at hupper
      change 97 ≤ (c.val.toNat + 32) % 2 ^ 32 ∧ (c.val.toNat + 32) % 2 ^ 32 ≤ 122
      omega
    have hletters : isLetter c = true ∧ isLetter c.toLower = true :=
      ⟨Bool.or_eq_true_iff.2 (.inl (decide_eq_true hc)),
        Bool.or_eq_true_iff.2 (.inr (Bool.and_eq_true_iff.2 ⟨decide_eq_true hsmall.1, decide_eq_true hsmall.2⟩))⟩
    constructor
    · rintro rfl
      rw [hletters.2] at hd
      cases hd
    · rintro rfl
      rw [hletters.1] at hd
      cases hd
  · have hlow : c.toLower = c := dif_neg hc
    rw [hlow]

theorem lowerChars_eq_iff {cs ds : List Char} (hds : ∀ d ∈ ds, isLetter d = false) :
    lowerChars cs = ds ↔ cs = ds := by
  induction ds generalizing cs with
  | nil => simp [lowerChars]
  | cons d ds ih =>
    obtain ⟨hd, hds⟩ := List.forall_mem_cons.1 hds
    cases cs with
    | nil => simp [lowerChars]
    | cons c cs =>
      have hrest := @ih cs hds
      rw [lowerChars] at hrest ⊢
      rw [List.map_cons, List.cons.injEq, List.cons.injEq, toLower_eq_iff hd, hrest]

theorem Digits.isLetter_eq_false {n : Nat} {cs : List Char} (h : Digits n cs) : ∀ c ∈ cs, isLetter c = false := by
  intro c hc
  rw [Bool.eq_false_iff]
  intro hletter
  have hdigit := h.digits c hc
  rw [isLetter_not_isDigit hletter] at hdigit
  cases hdigit

/-- a numeral holds no letters -/
theorem Numeral.isLetter_eq_false {n : Nat} {cs : List Char} (h : Numeral n cs) : ∀ c ∈ cs, isLetter c = false := by
  cases h with
  | bare h => exact h.isLetter_eq_false
  | plus h => exact List.forall_mem_cons.2 ⟨rfl, h.isLetter_eq_false⟩

/-- so folding leaves it as it is -/
theorem Numeral.lowerChars_eq {n : Nat} {cs : List Char} (h : Numeral n cs) : lowerChars cs = cs :=
  (lowerChars_eq_iff h.isLetter_eq_false).2 rfl

namespace Marker

/-! ## Stems -/

theorem afterHead?_eq_some_iff {head cs rest : List Char} : afterHead? head cs = some rest ↔ cs = head ++ rest := by
  induction head generalizing cs with
  | nil => simp [afterHead?]
  | cons h head ih =>
    cases cs with
    | nil => simp [afterHead?]
    | cons c cs =>
      by_cases hc : h = c
      · simp [afterHead?, hc, ih]
      · simp [afterHead?, hc, Ne.symm hc]

/-- no stem is the beginning of another -/
theorem stem_append_inj {a b : Category} {xs ys : List Char}
    (h : (stem a).toList ++ xs = (stem b).toList ++ ys) : a = b := by
  cases a <;> cases b <;> first
    | rfl
    | simp [stem] at h

theorem lowerChars_stem (category : Category) : lowerChars (stem category).toList = (stem category).toList := by
  cases category <;> decide

theorem lowerChars_append (cs ds : List Char) : lowerChars (cs ++ ds) = lowerChars cs ++ lowerChars ds :=
  List.map_append

/-! ## Spellings -/

/-- the text is the stem of the marker's category in any letter case, and then a numeral for its index -/
def Spells (s : String) (m : Marker) : Prop :=
  ∃ head numeral, s.toList = head ++ numeral ∧ lowerChars head = (stem m.category).toList ∧ Numeral m.index numeral

variable {s : String} {m n : Marker}

theorem spells_iff : Spells s m ↔
    ∃ numeral, lowerChars s.toList = (stem m.category).toList ++ numeral ∧ Numeral m.index numeral := by
  constructor
  · rintro ⟨head, numeral, hs, hhead, hnumeral⟩
    refine ⟨numeral, ?_, hnumeral⟩
    rw [hs, lowerChars_append, hhead, hnumeral.lowerChars_eq]
  · rintro ⟨numeral, hs, hnumeral⟩
    obtain ⟨head, rest, hsplit, hhead, hrest⟩ := List.map_eq_append_iff.1 hs
    obtain rfl := (lowerChars_eq_iff hnumeral.isLetter_eq_false).1 hrest
    exact ⟨head, rest, hsplit, hhead, hnumeral⟩

theorem Spells.stem_begins (h : Spells s m) : (stem m.category).toList <+: lowerChars s.toList := by
  obtain ⟨numeral, hs, -⟩ := spells_iff.1 h
  exact hs ▸ List.prefix_append _ _

/-- a text spells at most one marker -/
theorem Spells.unique (hm : Spells s m) (hn : Spells s n) : m = n := by
  obtain ⟨ds, hds, hi⟩ := spells_iff.1 hm
  obtain ⟨es, hes, hj⟩ := spells_iff.1 hn
  obtain ⟨category, i⟩ := m
  obtain ⟨category', j⟩ := n
  obtain rfl : category = category' := stem_append_inj (hds.symm.trans hes)
  obtain rfl : ds = es := List.append_cancel_left (hds.symm.trans hes)
  obtain rfl : i = j := hi.unique hj
  rfl

/-! ## Printed names -/

theorem toList_name (m : Marker) : m.name.toList = (stem m.category).toList ++ Nat.toDigits 10 m.index := by
  simp [name]

theorem lowerChars_name (m : Marker) : lowerChars m.name.toList = m.name.toList := by
  rw [toList_name, lowerChars_append, lowerChars_stem, (numeral_toDigits m.index).lowerChars_eq]

/-- the printed name spells the marker, in any letter case -/
theorem spells_of_sameLetters (h : sameLetters s m.name = true) : Spells s m := by
  refine spells_iff.2 ⟨Nat.toDigits 10 m.index, ?_, numeral_toDigits m.index⟩
  rw [sameLetters_iff.1 h, lowerChars_name, toList_name]

theorem spells_name (m : Marker) : Spells m.name m := spells_of_sameLetters (sameLetters_self _)

/-- printed names differ, also for indices that no name is read back as -/
theorem name_inj (h : m.name = n.name) : m = n := (spells_name m).unique (h ▸ spells_name n)

/-! ## Readers -/

theorem ofName?_eq_some_iff {category : Category} :
    ofName? s category = some m ↔ m.category = category ∧ m.index < indexLimit ∧ Spells s m := by
  rw [spells_iff]
  simp only [ofName?, Option.bind_eq_bind, Option.bind_eq_some_iff, afterHead?_eq_some_iff, numberBelow?_eq_some_iff]
  constructor
  · rintro ⟨numeral, hs, index, ⟨hnumeral, hlt⟩, h⟩
    obtain rfl : ⟨category, index⟩ = m := Option.some.inj h
    exact ⟨rfl, hlt, numeral, hs, hnumeral⟩
  · rintro ⟨rfl, hlt, numeral, hs, hnumeral⟩
    exact ⟨numeral, hs, m.index, ⟨hnumeral, hlt⟩, rfl⟩

/-- the first category that reads a text is the only one -/
theorem findSome?_ofName?_eq_some_iff {categories : List Category} :
    categories.findSome? (ofName? s) = some m ↔ m.category ∈ categories ∧ m.index < indexLimit ∧ Spells s m := by
  induction categories with
  | nil => simp
  | cons a categories ih =>
    rw [List.findSome?_cons]
    cases ha : ofName? s a with
    | some n =>
      obtain ⟨rfl, hlt, hn⟩ := ofName?_eq_some_iff.1 ha
      constructor
      · intro h
        obtain rfl : n = m := Option.some.inj h
        exact ⟨List.mem_cons_self, hlt, hn⟩
      · rintro ⟨-, -, hm⟩
        rw [hn.unique hm]
    | none =>
      refine ih.trans ⟨fun ⟨hc, hm⟩ => ⟨List.mem_cons_of_mem a hc, hm⟩, fun ⟨hc, hm⟩ => ⟨?_, hm⟩⟩
      rcases List.mem_cons.1 hc with rfl | hc
      · rw [ofName?_eq_some_iff.2 ⟨rfl, hm⟩] at ha
        cases ha
      · exact hc

theorem ofTag?_eq_some_iff : ofTag? s = some m ↔ m.category.inTag = false ∧ m.index < indexLimit ∧ Spells s m := by
  rw [ofTag?, findSome?_ofName?_eq_some_iff]
  cases m.category <;> simp [Category.inTag]

theorem ofAttribute?_eq_some_iff :
    ofAttribute? s = some m ↔ m.category.inTag = true ∧ m.index < indexLimit ∧ Spells s m := by
  rw [ofAttribute?, findSome?_ofName?_eq_some_iff]
  cases m.category <;> simp [Category.inTag]

theorem index_lt_of_ofTag? (h : ofTag? s = some m) : m.index < indexLimit := (ofTag?_eq_some_iff.1 h).2.1

theorem index_lt_of_ofAttribute? (h : ofAttribute? s = some m) : m.index < indexLimit :=
  (ofAttribute?_eq_some_iff.1 h).2.1

/-- a spelling is not read as another marker -/
theorem Spells.eq_of_ofTag? (h : Spells s m) (hn : ofTag? s = some n) : n = m :=
  (ofTag?_eq_some_iff.1 hn).2.2.unique h

theorem Spells.eq_of_ofAttribute? (h : Spells s m) (hn : ofAttribute? s = some n) : n = m :=
  (ofAttribute?_eq_some_iff.1 hn).2.2.unique h

theorem eq_of_ofTag?_name (h : ofTag? m.name = some n) : n = m := (spells_name m).eq_of_ofTag? h

theorem eq_of_ofAttribute?_name (h : ofAttribute? m.name = some n) : n = m := (spells_name m).eq_of_ofAttribute? h

/-- it is read by the reader of its marker's kind only, and by none if the index is too large -/
theorem Spells.ofTag?_eq_none (h : Spells s m) (hm : m.category.inTag = true ∨ indexLimit ≤ m.index) :
    ofTag? s = none := by
  refine Option.eq_none_iff_forall_ne_some.2 fun n hn => ?_
  obtain rfl := h.eq_of_ofTag? hn
  obtain ⟨hkind, hlt, -⟩ := ofTag?_eq_some_iff.1 hn
  rcases hm with hm | hm
  · rw [hkind] at hm
    cases hm
  · exact absurd hlt (Nat.not_lt.2 hm)

theorem Spells.ofAttribute?_eq_none (h : Spells s m) (hm : m.category.inTag = false ∨ indexLimit ≤ m.index) :
    ofAttribute? s = none := by
  refine Option.eq_none_iff_forall_ne_some.2 fun n hn => ?_
  obtain rfl := h.eq_of_ofAttribute? hn
  obtain ⟨hkind, hlt, -⟩ := ofAttribute?_eq_some_iff.1 hn
  rcases hm with hm | hm
  · rw [hkind] at hm
    cases hm
  · exact absurd hlt (Nat.not_lt.2 hm)

/-! ## Printed names are read back -/

theorem ofTag?_of_sameLetters (hc : m.category.inTag = false) (hm : m.index < indexLimit)
    (h : sameLetters s m.name = true) : ofTag? s = some m :=
  ofTag?_eq_some_iff.2 ⟨hc, hm, spells_of_sameLetters h⟩

theorem ofAttribute?_of_sameLetters (hc : m.category.inTag = true) (hm : m.index < indexLimit)
    (h : sameLetters s m.name = true) : ofAttribute? s = some m :=
  ofAttribute?_eq_some_iff.2 ⟨hc, hm, spells_of_sameLetters h⟩

theorem ofTag?_name (hc : m.category.inTag = false) (hm : m.index < indexLimit) : ofTag? m.name = some m :=
  ofTag?_of_sameLetters hc hm (sameLetters_self _)

theorem ofAttribute?_name (hc : m.category.inTag = true) (hm : m.index < indexLimit) : ofAttribute? m.name = some m :=
  ofAttribute?_of_sameLetters hc hm (sameLetters_self _)

/-- The printed name of a marker, in any letter case, is read back by the reader of its kind, and the other reader
takes it for no marker. Names of different markers differ in more than letter case. A text is read as a marker exactly
if it spells that marker, the reader is the one of its kind and the index is below the limit; so the index that is read is
the value of the digits, and a spelling whose index reaches the limit is read by neither. -/
theorem names_unambiguous :
    (∀ category index s, index < indexLimit → sameLetters s (name ⟨category, index⟩) = true →
      if category.inTag then ofAttribute? s = some ⟨category, index⟩ ∧ ofTag? s = none
      else ofTag? s = some ⟨category, index⟩ ∧ ofAttribute? s = none) ∧
    (∀ m n : Marker, m ≠ n → sameLetters m.name n.name = false) ∧
    (∀ s m, ofTag? s = some m ↔ m.category.inTag = false ∧ m.index < indexLimit ∧ Spells s m) ∧
    (∀ s m, ofAttribute? s = some m ↔ m.category.inTag = true ∧ m.index < indexLimit ∧ Spells s m) ∧
    ∀ s m, Spells s m → indexLimit ≤ m.index → ofTag? s = none ∧ ofAttribute? s = none := by
  refine ⟨fun category index s hlt hs => ?_, fun m n hne => ?_, fun _ _ => ofTag?_eq_some_iff,
    fun _ _ => ofAttribute?_eq_some_iff,
    fun s m hs hlt => ⟨hs.ofTag?_eq_none (.inr hlt), hs.ofAttribute?_eq_none (.inr hlt)⟩⟩
  · have hspells := spells_of_sameLetters hs
    split
    · next hkind => exact ⟨ofAttribute?_of_sameLetters hkind hlt hs, hspells.ofTag?_eq_none (.inl hkind)⟩
    · next hkind =>
      have hkind : category.inTag = false := Bool.eq_false_iff.2 hkind
      exact ⟨ofTag?_of_sameLetters hkind hlt hs, hspells.ofAttribute?_eq_none (.inl hkind)⟩
  · rw [Bool.eq_false_iff]
    -- the one name would spell both markers
    exact fun hsame => hne ((spells_name m).unique (spells_of_sameLetters hsame))

/-- the largest index in capitals, the next larger one, a sign with leading zeros, and a name that begins another -/
theorem names_unambiguous_largest :
    (18446744073709551615 < indexLimit ∧
      sameLetters "MC-Slot-18446744073709551615" (name ⟨.slot, 18446744073709551615⟩) = true ∧
      ofTag? "MC-Slot-18446744073709551615" = some ⟨.slot, 18446744073709551615⟩ ∧
      ofAttribute? "MC-Slot-18446744073709551615" = none) ∧
    (Spells "mc-slot-18446744073709551616" ⟨.slot, 18446744073709551616⟩ ∧
      indexLimit ≤ 18446744073709551616 ∧ ofTag? "mc-slot-18446744073709551616" = none) ∧
    (Category.event.inTag = true ∧ 7 < indexLimit ∧ Spells "Data-Event-+007" ⟨.event, 7⟩ ∧
      ofAttribute? "Data-Event-+007" = some ⟨.event, 7⟩) ∧
    (⟨.text, 1⟩ : Marker) ≠ ⟨.text, 10⟩ ∧ sameLetters (name ⟨.text, 1⟩) (name ⟨.text, 10⟩) = false := by
  have hcapitals : sameLetters "MC-Slot-18446744073709551615" (name ⟨.slot, 18446744073709551615⟩) = true := by
    decide +kernel
  have hlarge : Spells "mc-slot-18446744073709551616" ⟨.slot, 18446744073709551616⟩ :=
    ⟨"mc-slot-".toList, "18446744073709551616".toList, by decide, by decide,
      .bare ⟨by decide, List.all_eq_true.1 (by decide), by decide +kernel⟩⟩
  have hsigned : Spells "Data-Event-+007" ⟨.event, 7⟩ :=
    ⟨"Data-Event-".toList, "+007".toList, by decide, by decide,
      .plus ⟨by decide, List.all_eq_true.1 (by decide), by decide⟩⟩
  obtain ⟨hread, hdiffer, -, hattribute, hrefused⟩ := names_unambiguous
  obtain ⟨htag, hother⟩ := hread .slot 18446744073709551615 _ (by decide) hcapitals
  exact ⟨⟨by decide, hcapitals, htag, hother⟩, ⟨hlarge, by decide, (hrefused _ _ hlarge (by decide)).1⟩,
    ⟨rfl, by decide, hsigned, (hattribute _ _).2 ⟨rfl, by decide, hsigned⟩⟩, by decide, hdiffer _ _ (by decide)⟩

end Marker

end LiveMarkup
