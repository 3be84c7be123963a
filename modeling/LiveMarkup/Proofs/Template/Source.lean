/-
Where the stems of markers stand in the source of a skeleton.

If no segment contains a stem in any letter case, a stem stands only where a marker was put: at the name of an attribute
marker, or at one of the two names of an element marker. `stem_at` says so for any end of the source, together with what
comes after the marker. So reading from any point on meets markers in their order and none twice.
-/
import LiveMarkup.Template.Skeleton
import LiveMarkup.Proofs.Template.Marker

namespace LiveMarkup

open Marker

variable {A T : Type}

/-- no stem of a marker stands in the segment, in any letter case -/
def MarkerFree (segment : String) : Prop :=
  ∀ category, ¬ (stem category).toList <:+: lowerChars segment.toList

/-- the markers of placeholders that begin with number `index` -/
def markersFor (index : Nat) : List (Placeholder A T) → List Marker
  | [] => []
  | p :: ps => ⟨p.category, index⟩ :: markersFor (index + 1) ps

/-- trimmed segments and the placeholders between them, from number `index` on -/
structure Source (A T : Type) where
  index : Nat
  segments : List String
  placeholders : List (Placeholder A T)

namespace Source

/-- the text of the skeleton from there on -/
def chars (u : Source A T) : List Char := (skeletonSource u.index u.segments u.placeholders).toList

def markers (u : Source A T) : List Marker := markersFor u.index u.placeholders

/-- no segment from there on contains a stem, and between any two of them stands a placeholder -/
structure Free (u : Source A T) : Prop where
  segments : ∀ segment ∈ u.segments, MarkerFree segment
  length : u.segments.length ≤ u.placeholders.length + 1

end Source

/-! ## Stems in names -/

theorem stem_head (category : Category) : ∃ c cs, (stem category).toList = c :: cs ∧ isLetter c = true := by
  cases category <;> exact ⟨_, _, rfl, by decide⟩

theorem not_mem_stem {c : Char} (h : c = ' ' ∨ c = '<' ∨ c = '>' ∨ c.isDigit = true) (category : Category) :
    c ∉ (stem category).toList := by
  have hall : ∀ category,
      (stem category).toList.all (fun d => d != ' ' && d != '<' && d != '>' && !d.isDigit) = true := by
    intro category
    cases category <;> decide
  intro hc
  have hone := List.all_eq_true.1 (hall category) c hc
  simp only [Bool.and_eq_true, bne_iff_ne, Bool.not_eq_true'] at hone
  obtain ⟨⟨⟨h1, h2⟩, h3⟩, h4⟩ := hone
  rcases h with rfl | rfl | rfl | h
  · exact h1 rfl
  · exact h2 rfl
  · exact h3 rfl
  · rw [h] at h4; cases h4

/-- a stem stands nowhere inside another -/
theorem not_stem_infix_tail (a b : Category) : ¬ (stem a).toList <:+: (stem b).toList.tail := by
  cases a <;> cases b <;> decide +kernel

theorem prefix_of_not_mem {l xs ys : List Char} {d : Char} (h : l <+: xs ++ d :: ys) (hd : d ∉ l) : l <+: xs := by
  rcases List.prefix_or_prefix_of_prefix h (List.prefix_append xs (d :: ys)) with hl | ⟨r, hr⟩
  · exact hl
  · rw [← hr, List.prefix_append_right_inj] at h
    rcases r with - | ⟨e, r⟩
    · exact ⟨[], (List.append_nil l).trans (hr.symm.trans (List.append_nil xs))⟩
    · obtain rfl : e = d := (List.cons_prefix_cons.1 h).1
      exact absurd (hr ▸ List.mem_append_right xs List.mem_cons_self) hd

theorem suffix_append_cases {s xs ys : List Char} (h : s <:+ xs ++ ys) :
    s <:+ ys ∨ ∃ zs, zs ≠ [] ∧ zs <:+ xs ∧ s = zs ++ ys := by
  rcases List.suffix_or_suffix_of_suffix h (List.suffix_append xs ys) with hs | ⟨zs, rfl⟩
  · exact .inl hs
  · by_cases hz : zs = []
    · exact .inl (by rw [hz]; exact List.suffix_refl ys)
    · exact .inr ⟨zs, hz, List.suffix_append_self_iff.1 h, rfl⟩

/-- a stem stands in a marker's name at its beginning only -/
theorem stem_suffix_name {m : Marker} {category : Category} {s : List Char} (hs : s <:+ m.name.toList)
    (h : (stem category).toList <+: s) : s = m.name.toList ∧ m.category = category := by
  obtain ⟨c, cs, hc, hl⟩ := stem_head category
  rw [toList_name] at hs ⊢
  have hdigit : ∀ d ∈ Nat.toDigits 10 m.index, d.isDigit = true := fun d hd => isDigit_of_mem_toDigits hd
  rcases suffix_append_cases hs with hs | ⟨zs, hz, hzs, rfl⟩
  · have hmem : c ∈ Nat.toDigits 10 m.index := hs.subset (h.subset (hc ▸ List.mem_cons_self))
    have hd := hdigit c hmem
    rw [isLetter_not_isDigit hl] at hd
    cases hd
  · have hp : (stem category).toList <+: zs := by
      cases hdigits : Nat.toDigits 10 m.index with
      | nil => rwa [hdigits, List.append_nil] at h
      | cons d ds =>
        rw [hdigits] at h hdigit
        exact prefix_of_not_mem h (not_mem_stem (.inr (.inr (.inr (hdigit d List.mem_cons_self)))) category)
    cases hstem : (stem m.category).toList with
    | nil => rw [hstem] at hzs; exact absurd (List.suffix_nil.1 hzs) hz
    | cons e es =>
      rw [hstem] at hzs
      rcases List.suffix_cons_iff.1 hzs with rfl | hes
      · refine ⟨rfl, ?_⟩
        obtain ⟨r, hr⟩ := hp
        exact stem_append_inj (show _ ++ [] = _ ++ r by rw [hr, List.append_nil, hstem])
      · have htail : (stem category).toList <:+: (stem m.category).toList.tail := by
          rw [hstem]
          exact hp.isInfix.trans hes.isInfix
        exact absurd htail (not_stem_infix_tail category m.category)

theorem lowerChars_suffix_name {m : Marker} {s : List Char} (hs : s <:+ m.name.toList) : lowerChars s = s := by
  obtain ⟨xs, hxs⟩ := hs
  have h := lowerChars_name m
  rw [← hxs, lowerChars_append] at h
  exact (List.append_inj h (by simp [lowerChars])).2

/-! ## Stems in the source -/

/-- where the name of marker `m` can stand in the text `whole`, and what comes after the marker -/
inductive Spot (whole s : List Char) (m : Marker) (after : List Char) : Prop where
  | inTag (h : m.category.inTag = true) (hs : s = m.name.toList ++ ' ' :: after)
  | tag (h : m.category.inTag = false)
      (hs : s = m.name.toList ++ '>' :: '<' :: '/' :: (m.name.toList ++ '>' :: after))
  | endTag (h : m.category.inTag = false) (hs : s = m.name.toList ++ '>' :: after) (hslash : '/' :: s <:+ whole)

/-- a stem right before a character that is in no stem stands in the text before that -/
theorem stem_prefix_before {xs ys : List Char} {d : Char} {category : Category} (hd : d = ' ' ∨ d = '<' ∨ d = '>')
    (h : (stem category).toList <+: lowerChars (xs ++ d :: ys)) : (stem category).toList <+: lowerChars xs := by
  have hlow : d.toLower = d := by rcases hd with rfl | rfl | rfl <;> rfl
  rw [lowerChars_append, lowerChars, lowerChars, List.map_cons, hlow] at h
  refine prefix_of_not_mem h (not_mem_stem ?_ category)
  rcases hd with h | h | h
  · exact .inl h
  · exact .inr (.inl h)
  · exact .inr (.inr (.inl h))

/-- a stem in a name that ends right there stands at the beginning of the name -/
theorem stem_in_name {m : Marker} {xs ys : List Char} {d : Char} {category : Category} (hxs : xs <:+ m.name.toList)
    (hd : d = ' ' ∨ d = '<' ∨ d = '>') (h : (stem category).toList <+: lowerChars (xs ++ d :: ys)) :
    xs = m.name.toList ∧ m.category = category :=
  stem_suffix_name hxs (lowerChars_suffix_name hxs ▸ stem_prefix_before hd h)

/-- no stem begins with anything but a letter -/
theorem isLetter_of_stem_prefix {category : Category} {c : Char} {cs : List Char}
    (h : (stem category).toList <+: lowerChars (c :: cs)) : isLetter c.toLower = true := by
  obtain ⟨d, ds, hd, hl⟩ := stem_head category
  rw [hd, lowerChars, List.map_cons] at h
  exact (List.cons_prefix_cons.1 h).1 ▸ hl

/-- where in a marker's own text a stem stands -/
theorem stem_at_marker {m : Marker} {s after whole : List Char} {category : Category} (hne : ¬ s <:+ after)
    (hs : s <:+ (Marker.source m).toList ++ after) (hw : (Marker.source m).toList ++ after <:+ whole)
    (h : (stem category).toList <+: lowerChars s) : m.category = category ∧ Spot whole s m after := by
  have hstop : ∀ {c : Char} {cs : List Char}, s = c :: cs → isLetter c.toLower = true := by
    rintro c cs rfl
    exact isLetter_of_stem_prefix h
  by_cases hm : m.category.inTag = true
  · have hsource : (Marker.source m).toList ++ after = [' '] ++ (m.name.toList ++ ' ' :: after) := by
      simp [Marker.source, hm]
    rw [hsource] at hs
    rcases suffix_append_cases hs with hs | ⟨zs, hz, hzs, rfl⟩
    · rcases suffix_append_cases hs with hs | ⟨zs, -, hzs, rfl⟩
      · rcases List.suffix_cons_iff.1 hs with hs | hs
        · exact absurd (hstop hs) (by decide)
        · exact absurd hs hne
      · obtain ⟨rfl, hc⟩ := stem_in_name hzs (.inl rfl) h
        exact ⟨hc, .inTag hm rfl⟩
    · rcases List.suffix_cons_iff.1 hzs with rfl | hzs
      · exact absurd (hstop rfl) (by decide)
      · exact absurd (List.suffix_nil.1 hzs) hz
  · have hm : m.category.inTag = false := Bool.eq_false_iff.2 hm
    have hsource : (Marker.source m).toList ++ after =
        '<' :: (m.name.toList ++ '>' :: '<' :: '/' :: (m.name.toList ++ '>' :: after)) := by
      simp [Marker.source, hm]
    rw [hsource] at hs hw
    rcases List.suffix_cons_iff.1 hs with hs | hs
    · exact absurd (hstop hs) (by decide)
    rcases suffix_append_cases hs with hs | ⟨zs, -, hzs, rfl⟩
    · rcases List.suffix_cons_iff.1 hs with hs | hs
      · exact absurd (hstop hs) (by decide)
      rcases List.suffix_cons_iff.1 hs with hs | hs
      · exact absurd (hstop hs) (by decide)
      rcases List.suffix_cons_iff.1 hs with hs | hs
      · exact absurd (hstop hs) (by decide)
      rcases suffix_append_cases hs with hs | ⟨zs, -, hzs, rfl⟩
      · rcases List.suffix_cons_iff.1 hs with hs | hs
        · exact absurd (hstop hs) (by decide)
        · exact absurd hs hne
      · obtain ⟨rfl, hc⟩ := stem_in_name hzs (.inr (.inr rfl)) h
        refine ⟨hc, .endTag hm rfl (List.IsSuffix.trans ?_ hw)⟩
        exact ⟨'<' :: (m.name.toList ++ ['>', '<']), by simp⟩
    · obtain ⟨rfl, hc⟩ := stem_in_name hzs (.inr (.inr rfl)) h
      exact ⟨hc, .tag hm rfl⟩

/-- a stem stands only where a marker was put, and only later markers come after it -/
theorem stem_at (u : Source A T) (hu : u.Free) {s : List Char} (hs : s <:+ u.chars) {category : Category}
    (h : (stem category).toList <+: lowerChars s) :
    ∃ (m : Marker) (v : Source A T), m.category = category ∧ v.Free ∧ (m :: v.markers).Sublist u.markers ∧
      Spot u.chars s m v.chars := by
  obtain ⟨index, segments, placeholders⟩ := u
  induction segments generalizing index placeholders with
  | nil =>
    have hs : s = [] := List.suffix_nil.1 hs
    obtain ⟨c, cs, hc, -⟩ := stem_head category
    rw [hs, hc] at h
    exact absurd (List.prefix_nil.1 h) (by simp)
  | cons segment segments ih =>
    have hin : ∀ zs, zs <:+ segment.toList → ¬ (stem category).toList <+: lowerChars zs :=
      fun zs hzs hp => hu.segments segment List.mem_cons_self category
        (hp.isInfix.trans (hzs.map Char.toLower).isInfix)
    cases placeholders with
    | nil =>
      have hlast : segments = [] := List.length_eq_zero_iff.1 (Nat.le_zero.1 (Nat.le_of_succ_le_succ hu.length))
      have hchars : Source.chars (⟨index, segment :: segments, []⟩ : Source A T) = segment.toList := by
        simp [Source.chars, skeletonSource, hlast]
      exact absurd h (hin s (hchars ▸ hs))
    | cons p ps =>
      have hrest : Source.Free (⟨index + 1, segments, ps⟩ : Source A T) :=
        ⟨fun t ht => hu.segments t (List.mem_cons_of_mem _ ht), Nat.le_of_succ_le_succ hu.length⟩
      have hchars : Source.chars (⟨index, segment :: segments, p :: ps⟩ : Source A T) =
          segment.toList ++ ((Marker.source ⟨p.category, index⟩).toList ++
            Source.chars (⟨index + 1, segments, ps⟩ : Source A T)) := by
        simp [Source.chars, skeletonSource]
      have hw := List.suffix_append segment.toList ((Marker.source ⟨p.category, index⟩).toList ++
        Source.chars (⟨index + 1, segments, ps⟩ : Source A T))
      rw [← hchars] at hw
      rw [hchars] at hs
      by_cases hlater : s <:+ Source.chars (⟨index + 1, segments, ps⟩ : Source A T)
      · obtain ⟨m, v, hc, hv, hm, hspot⟩ := ih (index + 1) ps hrest hlater
        refine ⟨m, v, hc, hv, hm.trans (List.sublist_cons_self _ _), ?_⟩
        cases hspot with
        | inTag h hs => exact .inTag h hs
        | tag h hs => exact .tag h hs
        | endTag h hs hslash =>
          exact .endTag h hs (hslash.trans ((List.suffix_append _ _).trans hw))
      · rcases suffix_append_cases hs with hs | ⟨zs, -, hzs, rfl⟩
        · obtain ⟨hc, hspot⟩ := stem_at_marker hlater hs hw h
          exact ⟨_, _, hc, hrest, List.Sublist.refl _, hspot⟩
        · obtain ⟨d, ds, hd, hstop⟩ : ∃ d ds, (Marker.source ⟨p.category, index⟩).toList ++
              Source.chars (⟨index + 1, segments, ps⟩ : Source A T) = d :: ds ∧ (d = ' ' ∨ d = '<' ∨ d = '>') := by
            by_cases hm : p.category.inTag = true
            · exact ⟨' ', _, by simp [Marker.source, hm]; rfl, .inl rfl⟩
            · exact ⟨'<', _, by simp [Marker.source, hm]; rfl, .inr (.inl rfl)⟩
          rw [hd] at h
          exact absurd (stem_prefix_before hstop h) (hin zs hzs)

end LiveMarkup
