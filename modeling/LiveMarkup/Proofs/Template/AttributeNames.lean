/-
Names of attribute placeholders.

Classification goes back from the equals sign to the last blank of the segment and takes everything in between for the
name. So a name is neither empty nor has a blank, but it need not be one that markup can have: it is one exactly if none
of `=`, `>` and `/` is in it. What is taken for the name is cut off before the source is read, so whether a marker is
met depends on what stands before the blank: if the text up to there does not end inside a start tag, the definition is
refused, since the marker does not survive.

- `Classified.before`: the source up to the marker of a placeholder;
- `marker_not_read`: a marker behind a text that does not end in a tag is not met;
- `attribute_names`: both facts about the names of a definition.
-/
import Mathlib.Data.List.Nodup
import LiveMarkup.Proofs.Markup.Break
import LiveMarkup.Proofs.Template.Skeleton

namespace LiveMarkup

open Markup Marker

variable {A T : Type}

/-! ## Names in markup -/

/-- a start tag with this text as its only attribute is read as such -/
def ReadsAsName (name : String) : Prop := read ("<p " ++ name ++ "></p>") = [.element "p" [(name, "")] []]

theorem readsAsName_iff {name : String} (hne : name ≠ "") (hb : ∀ c ∈ name.toList, isBlank c = false) :
    ReadsAsName name ↔ ∀ c ∈ name.toList, c ≠ '=' ∧ c ≠ '>' ∧ c ≠ '/' := by
  constructor
  · intro h c hc
    have hw : WellFormed (read ("<p " ++ name ++ "></p>")) := wellFormed_read _
    rw [h] at hw
    have hchar := (hw.1.2.1 (name, "") List.mem_cons_self).2 c hc
    refine ⟨?_, ?_, ?_⟩ <;> (rintro rfl; exact absurd hchar (by decide))
  · intro h
    have hname : ∀ c ∈ name.toList, isNameChar c = true := by
      intro c hc
      have hascii : isAsciiBlank c = false :=
        Bool.eq_false_iff.2 fun ha => Bool.eq_false_iff.1 (hb c hc) (isBlank_of_isAsciiBlank ha)
      simp [isNameChar, hascii, h c hc]
    obtain ⟨c, cs, hc⟩ := List.exists_cons_of_ne_nil fun hnil => hne (String.toList_eq_nil_iff.1 hnil)
    have hw : WellFormed [.element "p" [(name, "")] []] := by
      refine ⟨⟨⟨⟨'p', [], rfl, by decide⟩, List.all_eq_true.1 (by decide)⟩, fun a ha => ?_, fun _ => rfl, fun _ => .inl rfl, trivial⟩, trivial⟩
      rw [List.mem_singleton.1 ha]
      exact ⟨⟨c, cs, hc, hb c (hc ▸ List.mem_cons_self)⟩, hname⟩
    have hprint : print [.element "p" [(name, "")] []] = "<p " ++ name ++ "></p>" := by
      have hv : isVoid "p" = false := by decide
      rw [← String.toList_inj]
      simp [print, printAll, Node.print, printStart, printAttributes, printAttribute, printEnd, hv]
    rw [ReadsAsName, ← hprint]
    exact read_print hw (by simp [IsNormal, Node.IsNormal, beginsWithText])

/-! ## The source before a marker -/

theorem Trims.length {segments trimmed : List String} {placeholders : List (Placeholder A T)}
    (h : Trims segments trimmed placeholders) : trimmed.length = placeholders.length + 1 := by
  induction h with
  | last => rfl
  | cons _ _ ih => rw [List.length_cons, ih, List.length_cons]

theorem classify_trims {segments : List String} {holes : List (Hole A)} {c : Classified A}
    (h : classify segments holes = .ok c) : Trims segments c.segments c.placeholders := by
  unfold classify at h
  split at h
  · next hl => exact classifyFrom_trims hl h
  · cases h

/-- the source of the skeleton up to the marker of a placeholder: the literal text, with the names of attributes cut
off, and the markers in it -/
def Classified.before (c : Classified A) (i : Nat) : String :=
  skeletonSource 0 (c.segments.take (i + 1)) (c.placeholders.take i)

/-- the source around the marker of a placeholder -/
theorem skeletonSource_split {index i : Nat} {segments : List String} {placeholders : List (Placeholder A T)}
    {p : Placeholder A T} (hp : placeholders[i]? = some p) (hl : i < segments.length) :
    skeletonSource index segments placeholders =
      skeletonSource index (segments.take (i + 1)) (placeholders.take i) ++ (Marker.source ⟨p.category, index + i⟩ ++
        skeletonSource (index + i + 1) (segments.drop (i + 1)) (placeholders.drop (i + 1))) := by
  induction i generalizing index segments placeholders with
  | zero =>
    rcases segments with - | ⟨segment, segments⟩
    · cases hl
    rcases placeholders with - | ⟨q, placeholders⟩
    · cases hp
    obtain rfl : q = p := Option.some.inj hp
    simp [skeletonSource, String.append_assoc]
  | succ i ih =>
    rcases segments with - | ⟨segment, segments⟩
    · cases hl
    rcases placeholders with - | ⟨q, placeholders⟩
    · cases hp
    have hp : placeholders[i]? = some p := hp
    rw [skeletonSource, ih hp (Nat.lt_of_succ_lt_succ hl)]
    simp [skeletonSource, String.append_assoc, Nat.add_assoc, Nat.add_comm 1]

theorem mem_markersFor_lt {index : Nat} {placeholders : List (Placeholder A T)} {m : Marker}
    (h : m ∈ markersFor index placeholders) : m.index < index + placeholders.length := by
  induction placeholders generalizing index with
  | nil => cases h
  | cons p ps ih =>
    rw [List.length_cons]
    rcases List.mem_cons.1 h with rfl | h
    · exact Nat.lt_add_of_pos_right (Nat.succ_pos _)
    · have := ih h
      omega

/-! ## Markers that are not read -/

/-- the markers of a token are those of the start tag that it begins with -/
theorem tokenMarkers_scan (c : Char) (cs : List Char) :
    tokenMarkers (scan c cs).1 = ((scan c cs).1.opens.map fun e => startMarkers e.1 e.2).getD [] := by
  unfold scan
  split
  · split
    · rfl
    · rfl
    · rw [elementToken_markers, opens_elementToken]
      rfl
  · rfl

theorem flatMap_tokenMarkers (cs : List Char) :
    (tokens cs).flatMap tokenMarkers = ((tokens cs).filterMap Token.opens).flatMap fun e => startMarkers e.1 e.2 := by
  fun_induction tokens cs with
  | case1 => rfl
  | case2 c cs ih =>
    rw [List.flatMap_cons, ih, tokenMarkers_scan, List.filterMap_cons]
    cases (scan c cs).1.opens with
    | none => rfl
    | some e => rw [List.flatMap_cons]; rfl

theorem markersOfAll_forest (ts : List Token) : markersOfAll (forest ts) = ts.flatMap tokenMarkers := by
  rw [markersOfAll_eq, forest_flatMap markersOf_element]
  rfl

/-- reading from any point of the source on meets no marker that is not yet to come -/
theorem markers_of_suffix {u : Source A T} (hu : u.Free) {s : List Char} (hs : s <:+ u.chars) :
    ((tokens s).flatMap tokenMarkers).Sublist u.markers := by
  obtain ⟨us, h⟩ := tokens_source _ s (Nat.le_refl _) u hu hs
  have hforest : forest (tokens s) = forest us := by rw [forest, forest, h.same]
  rw [← markersOfAll_forest, hforest, markersOfAll_forest]
  exact h.markers

theorem lt_not_mem_name (m : Marker) : '<' ∉ m.name.toList := by
  rw [toList_name]
  intro h
  rcases List.mem_append.1 h with h | h
  · exact not_mem_stem (.inr (.inl rfl)) m.category h
  · exact absurd (isDigit_of_mem_toDigits h) (by decide)

theorem textRun_append_rest {cs : List Char} (h : '<' ∉ cs) (rest : List Char) :
    (textRun (cs ++ rest)).2 = (textRun rest).2 := by
  induction cs with
  | nil => rfl
  | cons c cs ih =>
    rw [List.mem_cons, not_or] at h
    rw [List.cons_append, textRun, if_neg (by simp [Ne.symm h.1])]
    exact ih h.2

/-- from a point of a marker's name on, reading goes on to the next `<` behind it -/
theorem markers_of_blank_suffix {u : Source A T} (hu : u.Free) (m : Marker) {s : List Char}
    (hs : s <:+ ' ' :: (m.name.toList ++ ' ' :: u.chars)) : ((tokens s).flatMap tokenMarkers).Sublist u.markers := by
  have hlt : '<' ∉ ' ' :: (m.name.toList ++ [' ']) := by
    simp [lt_not_mem_name m]
  have hs : s <:+ (' ' :: (m.name.toList ++ [' '])) ++ u.chars := by simpa using hs
  rcases suffix_append_cases hs with hs | ⟨zs, hz, hzs, rfl⟩
  · exact markers_of_suffix hu hs
  · obtain ⟨c, zs, rfl⟩ := List.exists_cons_of_ne_nil hz
    have hlt : '<' ∉ c :: zs := fun h => hlt (hzs.subset h)
    rw [List.mem_cons, not_or] at hlt
    have hscan : scan c (zs ++ u.chars) = (.node (.text _), (textRun (zs ++ u.chars)).2) :=
      if_neg (by simp [Ne.symm hlt.1])
    rw [List.cons_append, tokens_cons, hscan, List.flatMap_cons, textRun_append_rest hlt.2]
    exact markers_of_suffix hu (textRun_suffix _)

/-- a marker behind a text that does not end in a tag is not met -/
theorem marker_not_read {u : Source A T} (hu : u.Free) {i : Nat} {p : Placeholder A T} (hi : u.placeholders[i]? = some p)
    (hl : i < u.segments.length) (hp : p.category = .attribute) (hindex : u.index = 0)
    (h : endsInTag (skeletonSource 0 (u.segments.take (i + 1)) (u.placeholders.take i)).toList = false) :
    (⟨.attribute, i⟩ : Marker) ∉ markersOfAll (forest (tokens u.chars)) := by
  obtain ⟨index, segments, placeholders⟩ := u
  obtain rfl : index = 0 := hindex
  have hip : i < placeholders.length := (List.getElem?_eq_some_iff.1 hi).1
  have hlength : segments.length ≤ placeholders.length + 1 := hu.length
  have hbefore : Source.Free (⟨0, segments.take (i + 1), placeholders.take i⟩ : Source A T) := by
    refine ⟨fun s hs => hu.segments s (List.mem_of_mem_take hs), ?_⟩
    simp only [List.length_take]
    omega
  have hafter : Source.Free (⟨i + 1, segments.drop (i + 1), placeholders.drop (i + 1)⟩ : Source A T) := by
    refine ⟨fun s hs => hu.segments s (List.mem_of_mem_drop hs), ?_⟩
    simp only [List.length_drop]
    omega
  have hchars : Source.chars (⟨0, segments, placeholders⟩ : Source A T) =
      Source.chars (⟨0, segments.take (i + 1), placeholders.take i⟩ : Source A T) ++
        ' ' :: ((⟨.attribute, i⟩ : Marker).name.toList ++ ' ' ::
          Source.chars (⟨i + 1, segments.drop (i + 1), placeholders.drop (i + 1)⟩ : Source A T)) := by
    rw [Source.chars, skeletonSource_split hi hl, hp]
    simp [Source.chars, Marker.source, Category.inTag]
  obtain ⟨rest, hrest, htokens⟩ := @tokens_append ((⟨.attribute, i⟩ : Marker).name.toList ++ ' ' ::
    Source.chars (⟨i + 1, segments.drop (i + 1), placeholders.drop (i + 1)⟩ : Source A T)) _ h
  rw [markersOfAll_forest, flatMap_tokenMarkers, hchars, Source.chars, htokens, List.flatMap_append,
    ← flatMap_tokenMarkers, ← flatMap_tokenMarkers]
  intro hm
  rcases List.mem_append.1 hm with hm | hm
  · -- markers that are met in the text have smaller numbers
    have hmem := (markers_of_suffix hbefore (List.suffix_refl _)).subset hm
    have := mem_markersFor_lt hmem
    simp only [List.length_take] at this
    omega
  · -- markers that are met behind the text have greater numbers
    have hmem := (markers_of_blank_suffix hafter ⟨.attribute, i⟩ hrest).subset hm
    exact absurd (le_index_of_mem_markersFor hmem) (Nat.not_succ_le_self i)

/-- if the marker of a placeholder is not met and none is met twice, the first one that is missing is reported -/
theorem checkMarkers_of_missing {found : List Marker} (hn : found.Nodup) {index i : Nat}
    {placeholders : List (Placeholder A T)} {p : Placeholder A T} (hi : placeholders[i]? = some p)
    (hm : ⟨p.category, index + i⟩ ∉ found) :
    ∃ j ≤ index + i, ∃ category, checkMarkers found index placeholders = .error (.missingMarker j category) := by
  induction placeholders generalizing index i with
  | nil => cases hi
  | cons q qs ih =>
    rw [checkMarkers]
    have hone := List.nodup_iff_count_le_one.1 hn ⟨q.category, index⟩
    split
    · exact ⟨index, Nat.le_add_right _ _, _, rfl⟩
    · cases i with
      | zero =>
        next hcount =>
        obtain rfl : q = p := Option.some.inj hi
        exact absurd (List.count_eq_zero_of_not_mem hm) (by rw [Nat.add_zero, hcount]; decide)
      | succ i =>
        have hm : ⟨p.category, index + 1 + i⟩ ∉ found := by rwa [Nat.add_assoc, Nat.add_comm 1]
        obtain ⟨j, hj, category, h⟩ := ih hi hm
        exact ⟨j, by omega, category, h⟩
    · next h0 h1 =>
      exact (h1 (Nat.le_antisymm hone (Nat.pos_of_ne_zero h0))).elim

/-! ## Names of a definition -/

/-- what classification cuts off before a placeholder is not empty and has no blank -/
theorem classified_name {segments : List String} {holes : List (Hole A)} {c : Classified A}
    (hc : classify segments holes = .ok c) {prop name : String} (hp : .attribute prop name ∈ c.placeholders) :
    name ≠ "" ∧ ∀ d ∈ name.toList, isBlank d = false :=
  let ⟨hne, hb, _⟩ := (classify_trims hc).named hp
  ⟨hne, hb⟩

/-- the first missing marker is the fault of a definition in which an attribute's marker stands outside of tags -/
theorem define_of_not_in_tag {segments : List String} {holes : List (Hole A)} {c : Classified A}
    (hc : classify segments holes = .ok c) (hfree : ∀ segment ∈ segments, MarkerFree segment) {i : Nat}
    {prop name : String} (hp : c.placeholders[i]? = some (.attribute prop name))
    (h : endsInTag (c.before i).toList = false) :
    ∃ j ≤ i, ∃ category, Template.define segments holes = .error (.missingMarker j category) := by
  have ht := classify_trims hc
  have hi : i < c.placeholders.length := (List.getElem?_eq_some_iff.1 hp).1
  have hu : Source.Free (⟨0, c.segments, c.placeholders⟩ : Source A (Template A)) := ht.free hfree 0
  have hmissing := marker_not_read hu hp (by rw [ht.length]; exact Nat.lt_succ_of_lt hi) rfl rfl h
  have hnodup : (markersOfAll (forest (tokens (Source.chars ⟨0, c.segments, c.placeholders⟩)))).Nodup :=
    (nodup_markersFor 0 c.placeholders).sublist (read_source _ hu).2
  obtain ⟨j, hj, category, hcheck⟩ := checkMarkers_of_missing hnodup hp (by rw [Nat.zero_add]; exact hmissing)
  refine ⟨j, by omega, category, ?_⟩
  have hcheck : checkMarkers (markersOfAll (read (skeletonSource 0 c.segments c.placeholders))) 0 c.placeholders =
      .error (.missingMarker j category) := hcheck
  simp only [Template.define, hc, skeletonOf, hcheck, bind, Except.bind]

/-- **Names of attributes.** What a definition takes for the name of an attribute is not empty and has no blank. Markup
can have it as a name exactly if none of `=`, `>` and `/` is in it. And where the text before it does not end in a tag,
the definition is refused with a missing marker, if no segment contains the stem of one. -/
theorem attribute_names {segments : List String} {holes : List (Hole A)} {c : Classified A}
    (hc : classify segments holes = .ok c) {i : Nat} {prop name : String}
    (hp : c.placeholders[i]? = some (.attribute prop name)) :
    name ≠ "" ∧ (∀ d ∈ name.toList, isBlank d = false) ∧
      (ReadsAsName name ↔ ∀ d ∈ name.toList, d ≠ '=' ∧ d ≠ '>' ∧ d ≠ '/') ∧
      ((∀ segment ∈ segments, MarkerFree segment) → endsInTag (c.before i).toList = false →
        ∃ j ≤ i, ∃ category, Template.define segments holes = .error (.missingMarker j category)) :=
  have ⟨hne, hb⟩ := classified_name hc (List.mem_of_getElem? hp)
  ⟨hne, hb, readsAsName_iff hne hb, fun hfree h => define_of_not_in_tag hc hfree hp h⟩

/-- a sum in a text is refused, but where no blank is before it, the end of a tag becomes part of the name -/
theorem attribute_names_sum :
    (∃ j ≤ 0, ∃ category, Template.define (A := Unit) ["<p>2 + 2=", "</p>"] [.name "x"] =
      .error (.missingMarker j category)) ∧
    ∃ t : Template Unit, Template.define ["<p title=\"x\">2+2=", "</p>"] [.name "x"] = .ok t ∧
      t.placeholders = [.attribute "x" "title=\"x\">2+2"] ∧ ¬ ReadsAsName "title=\"x\">2+2" := by
  have hall : ∀ segment ∈ ["<p>2 + 2=", "</p>"], ∀ category ∈ Category.all,
      ¬ (stem category).toList <:+: lowerChars segment.toList := by
    decide +kernel
  have hfree : ∀ segment ∈ ["<p>2 + 2=", "</p>"], MarkerFree segment :=
    fun segment h category => hall segment h category (by cases category <;> decide)
  have hrefused : classify (A := Unit) ["<p>2 + 2=", "</p>"] [.name "x"] =
      .ok ⟨["<p>2 + ", "</p>"], [.attribute "x" "2"]⟩ := rfl
  have htaken : classify (A := Unit) ["<p title=\"x\">2+2=", "</p>"] [.name "x"] =
      .ok ⟨["<p ", "</p>"], [.attribute "x" "title=\"x\">2+2"]⟩ := rfl
  have hread : read (skeletonSource 0 ["<p ", "</p>"] ([.attribute "x" ""] : List (Placeholder Unit (Template Unit)))) =
      [.element "p" [("data-attribute-0", ""), ("<", ""), ("p", "")] []] := by
    rw [Template.skeletonSource_congr ([.attribute "" ""] : List (Placeholder Unit Unit)) rfl]
    decide +kernel
  constructor
  · exact (attribute_names hrefused (i := 0) rfl).2.2.2 hfree (by decide +kernel)
  · refine ⟨_, Template.define_eq_ok htaken hread rfl, rfl, fun h => ?_⟩
    exact ((attribute_names htaken (i := 0) rfl).2.2.1.1 h '>' (by decide)).2.1 rfl

end LiveMarkup
