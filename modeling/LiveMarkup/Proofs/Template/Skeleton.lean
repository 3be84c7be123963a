/-
The skeleton of a definition without stems in its segments.

Reading the source meets the markers in their order, each at most once (`tokens_source`): an element marker is a start
tag with its end tag right behind it, an attribute marker is an attribute with exactly its name. Since a definition is
accepted only if every marker is met, the skeleton of an accepted one carries exactly the markers of its placeholders,
in their order, and carries them cleanly.

- `Clean`: markers have their exact names, and element markers are empty;
- `Sound`: what a skeleton has to be for its placeholders;
- `Accepted.sound`: accepted definitions without stems have sound skeletons.
-/
import LiveMarkup.Proofs.Markup.Rest
import LiveMarkup.Proofs.Template.Source

namespace LiveMarkup

open Markup Marker

variable {A T : Type}

/-! ## Clean skeletons -/

/-- attribute markers have their exact names -/
def CleanAttributes (attributes : Attributes) : Prop :=
  ∀ a ∈ attributes, ∀ m, ofAttribute? a.1 = some m → a.1 = m.name

mutual
def Markup.Node.Clean : Markup.Node → Prop
  | .element tag attributes children =>
    (∀ m, ofTag? tag = some m → tag = m.name ∧ attributes = [] ∧ children = []) ∧ CleanAttributes attributes ∧
      Clean children
  | .text _ => True
  | .comment _ => True
/-- markers in a forest have their exact names, and element markers are empty -/
def Clean : List Markup.Node → Prop
  | [] => True
  | n :: ns => n.Clean ∧ Clean ns
end

theorem clean_iff {ns : List Markup.Node} : Clean ns ↔ ∀ n ∈ ns, n.Clean := by
  induction ns with
  | nil => simp [Clean]
  | cons n ns ih => simp [Clean, ih]

def Markup.Token.Clean : Token → Prop
  | .node n => n.Clean
  | .start tag attributes => ofTag? tag = none ∧ CleanAttributes attributes
  | .stop _ => True

def attributeMarkers (attributes : Attributes) : List Marker := attributes.filterMap fun a => ofAttribute? a.1

theorem attributeMarkers_cons (name value : String) (attributes : Attributes) :
    attributeMarkers ((name, value) :: attributes) = (ofAttribute? name).toList ++ attributeMarkers attributes := by
  cases h : ofAttribute? name <;> simp [attributeMarkers, h]

def startMarkers (tag : String) (attributes : Attributes) : List Marker :=
  (ofTag? tag).toList ++ attributeMarkers attributes

theorem markersOfAll_eq (ns : List Markup.Node) : markersOfAll ns = ns.flatMap markersOf := by
  induction ns with
  | nil => rfl
  | cons n ns ih => rw [markersOfAll, ih, List.flatMap_cons]

theorem markersOf_element (tag : String) (attributes : Attributes) (children : List Markup.Node) :
    markersOf (.element tag attributes children) = startMarkers tag attributes ++ children.flatMap markersOf := by
  rw [markersOf, markersOfAll_eq]
  rfl


def tokenMarkers (t : Token) : List Marker := t.listed markersOf startMarkers

/-! ## Names of markers as markup -/

theorem isNameChar_of_isDigit {c : Char} (h : c.isDigit = true) : isNameChar c = true := by
  rw [isNameChar, Bool.not_eq_true', Bool.eq_false_iff]
  simp only [isAsciiBlank, ne_eq, Bool.or_eq_true, beq_iff_eq]
  rintro (((((((rfl | rfl) | rfl) | rfl) | rfl) | rfl) | rfl) | rfl) <;> exact absurd h (by decide)

theorem isTag_name (m : Marker) : IsTag m.name := by
  have hstem : ∀ category : Category, ∀ c ∈ (stem category).toList, isNameChar c = true := by
    intro category
    refine List.all_eq_true.1 ?_
    cases category <;> decide
  obtain ⟨c, cs, hc, hl⟩ := stem_head m.category
  refine ⟨⟨c, cs ++ Nat.toDigits 10 m.index, by rw [toList_name, hc]; rfl, hl⟩, fun d hd => ?_⟩
  rw [toList_name] at hd
  rcases List.mem_append.1 hd with hd | hd
  · exact hstem m.category d hd
  · exact isNameChar_of_isDigit (isDigit_of_mem_toDigits hd)

theorem special_not_stem {tag : String} (h : tag ∈ voidTags ++ rawTextTags) (category : Category) :
    ¬ (stem category).toList <+: lowerChars tag.toList := by
  have hall : ∀ tag ∈ voidTags ++ rawTextTags, ∀ category ∈ Category.all,
      ¬ (stem category).toList <+: lowerChars tag.toList := by
    decide +kernel
  exact hall tag h category (by cases category <;> decide)

/-- the tag of a marker is neither void nor raw text -/
theorem isVoid_name (m : Marker) : isVoid m.name = false ∧ isRawText m.name = false := by
  have h : ∀ tag ∈ voidTags ++ rawTextTags, sameLetters tag m.name = false := by
    intro tag ht
    rw [Bool.eq_false_iff]
    intro hs
    refine special_not_stem ht m.category ?_
    rw [sameLetters_iff.1 hs, lowerChars_name, toList_name]
    exact List.prefix_append _ _
  constructor
  · rw [isVoid, Bool.eq_false_iff, ne_eq, List.any_eq_true]
    rintro ⟨tag, ht, hs⟩
    rw [h tag (List.mem_append_left _ ht)] at hs
    cases hs
  · rw [isRawText, Bool.eq_false_iff, ne_eq, List.any_eq_true]
    rintro ⟨tag, ht, hs⟩
    rw [h tag (List.mem_append_right _ ht)] at hs
    cases hs

theorem stem_prefix_of_ofTag? {tag : String} {m : Marker} (h : ofTag? tag = some m) :
    (stem m.category).toList <+: lowerChars tag.toList :=
  (ofTag?_eq_some_iff.1 h).2.2.stem_begins

theorem stem_prefix_of_ofAttribute? {name : String} {m : Marker} (h : ofAttribute? name = some m) :
    (stem m.category).toList <+: lowerChars name.toList :=
  (ofAttribute?_eq_some_iff.1 h).2.2.stem_begins

/-! ## Reading the source -/

/-- attributes read from a point of the source on -/
theorem attributeList_source (cs : List Char) : ∀ u : Source A T, u.Free → cs.dropWhile isBlank <:+ u.chars →
    CleanAttributes (attributeList cs).1 ∧ ∃ v : Source A T, v.Free ∧ (attributeList cs).2.2 <:+ v.chars ∧
      (attributeMarkers (attributeList cs).1 ++ v.markers).Sublist u.markers := by
  fun_induction attributeList cs with
  | case1 => exact fun u hu _ => ⟨fun a ha => absurd ha List.not_mem_nil, u, hu, List.nil_suffix, List.Sublist.refl _⟩
  | case2 cs rest h =>
    intro u hu hs
    rw [h] at hs
    exact ⟨fun a ha => absurd ha List.not_mem_nil, u, hu, (List.suffix_cons _ _).trans hs, List.Sublist.refl _⟩
  | case3 cs rest h =>
    intro u hu hs
    rw [h] at hs
    exact ⟨fun a ha => absurd ha List.not_mem_nil, u, hu,
      (List.suffix_cons _ _).trans ((List.suffix_cons _ _).trans hs), List.Sublist.refl _⟩
  | case4 cs rest _ h ih =>
    intro u hu hs
    rw [h] at hs
    exact ih u hu ((List.dropWhile_suffix _).trans ((List.suffix_cons _ _).trans hs))
  | case5 cs rest h ih =>
    intro u hu hs
    rw [h] at hs
    exact ih u hu ((List.dropWhile_suffix _).trans ((List.suffix_cons _ _).trans hs))
  | case6 cs c rest _ _ _ _ h value others ih =>
    intro u hu hs
    rw [h] at hs
    cases hm : ofAttribute? (String.ofList (c :: rest.takeWhile isNameChar)) with
    | none =>
      have hrest : value.2.dropWhile isBlank <:+ u.chars :=
        (List.dropWhile_suffix _).trans ((valueAfterName_suffix _).trans ((List.dropWhile_suffix _).trans
          ((List.suffix_cons _ _).trans hs)))
      obtain ⟨hclean, v, hv, hsuffix, hsub⟩ := ih u hu hrest
      refine ⟨fun a ha m hma => ?_, v, hv, hsuffix, ?_⟩
      · rcases List.mem_cons.1 ha with rfl | ha
        · rw [hm] at hma; cases hma
        · exact hclean a ha m hma
      · rwa [attributeMarkers_cons, hm]
    | some m =>
      have hp : (stem m.category).toList <+: lowerChars (c :: rest) := by
        have := stem_prefix_of_ofAttribute? hm
        rw [String.toList_ofList] at this
        refine this.trans (List.IsPrefix.map Char.toLower ?_)
        exact (List.prefix_cons_inj c).2 (List.takeWhile_prefix _)
      obtain ⟨n, v, hn, hv, hsub, hspot⟩ := stem_at u hu hs hp
      have hin : n.category.inTag = true := hn ▸ (ofAttribute?_eq_some_iff.1 hm).1
      cases hspot with
      | tag h => rw [hin] at h; cases h
      | endTag h => rw [hin] at h; cases h
      | inTag _ hs' =>
        -- the name of the marker, with a space behind it
        obtain ⟨⟨d, ds, hd, -⟩, hchars⟩ := isTag_name n
        rw [hd, List.cons_append] at hs'
        obtain ⟨rfl, rfl⟩ := List.cons.inj hs'
        rw [hd] at hchars
        have hds : ∀ e ∈ ds, isNameChar e = true := fun e he => hchars e (List.mem_cons_of_mem _ he)
        have htake : (ds ++ ' ' :: v.chars).takeWhile isNameChar = ds := takeWhile_append_stop hds (by decide) _
        have hdrop : (ds ++ ' ' :: v.chars).dropWhile isNameChar = ' ' :: v.chars :=
          dropWhile_append_stop hds (by decide) _
        rw [htake, ← hd, String.ofList_toList] at hm ⊢
        obtain rfl := eq_of_ofAttribute?_name hm
        have hvalue : value.2 <:+ v.chars := by
          have hcongr : valueAfterName (' ' :: v.chars) = valueAfterName v.chars :=
            valueAfterName_congr (List.dropWhile_cons_of_pos (by decide))
          dsimp only [value]
          rw [hdrop, hcongr]
          exact valueAfterName_suffix _
        obtain ⟨hclean, v', hv', hsuffix, hsub'⟩ := ih v hv ((List.dropWhile_suffix _).trans hvalue)
        refine ⟨fun a ha m' hma => ?_, v', hv', hsuffix, ?_⟩
        · rcases List.mem_cons.1 ha with rfl | ha
          · rw [hm] at hma; cases hma; rfl
          · exact hclean a ha m' hma
        · rw [attributeMarkers_cons, hm]
          exact (hsub'.cons_cons m).trans hsub

theorem elementToken_clean {tag : List Char} {attributes : Attributes} (ht : ofTag? (String.ofList tag) = none)
    (ha : CleanAttributes attributes) (closing : Closing) (cs : List Char) :
    (elementToken tag attributes closing cs).1.Clean := by
  have hnone : ∀ m, ofTag? (String.ofList tag) = some m → ∀ q : Prop, q := by
    intro m hm
    rw [ht] at hm
    cases hm
  unfold elementToken
  dsimp only
  split
  · exact ⟨fun m hm => hnone m hm _, ha, trivial⟩
  · split
    · refine ⟨fun m hm => hnone m hm _, ha, ?_⟩
      split
      · trivial
      · exact ⟨trivial, trivial⟩
    · exact ⟨ht, ha⟩

theorem elementToken_markers (tag : List Char) (attributes : Attributes) (closing : Closing) (cs : List Char) :
    tokenMarkers (elementToken tag attributes closing cs).1 = startMarkers (String.ofList tag) attributes := by
  unfold elementToken
  dsimp only
  split
  · rw [tokenMarkers, Token.listed, markersOf_element, List.flatMap_nil, List.append_nil]
  · split
    · rw [tokenMarkers, Token.listed, markersOf_element]
      split <;> simp [markersOf]
    · rfl

/-- what a part of the source is read as: tokens that build the same, are clean and carry later markers in order -/
structure Reads (u : Source A T) (ts : List Token) (us : List Token) : Prop where
  same : ∀ nest, us.foldl Nest.step nest = ts.foldl Nest.step nest
  clean : ∀ t ∈ us, t.Clean
  markers : (us.flatMap tokenMarkers).Sublist u.markers

theorem Reads.cons {u v : Source A T} {ts us : List Token} {t : Token} (ht : t.Clean)
    (hm : (tokenMarkers t ++ v.markers).Sublist u.markers) (h : Reads v ts us) : Reads u (t :: ts) (t :: us) := by
  refine ⟨fun nest => h.same _, fun x hx => ?_, ?_⟩
  · rcases List.mem_cons.1 hx with rfl | hx
    · exact ht
    · exact h.clean x hx
  · rw [List.flatMap_cons]
    exact ((List.Sublist.refl _).append h.markers).trans hm

/-- the start tag of an element marker comes with its end tag right behind it -/
theorem tokens_marker {m : Marker} (rest : List Char) :
    tokens ('<' :: (m.name.toList ++ '>' :: '<' :: '/' :: (m.name.toList ++ '>' :: rest))) =
      .start m.name [] :: .stop m.name :: tokens rest := by
  obtain ⟨hv, hr⟩ := isVoid_name m
  have h := tokens_start (isTag_name m) .nil ('<' :: '/' :: (m.name.toList ++ '>' :: rest))
  rw [elementToken_normal hv hr, tokens_stop (isTag_name m)] at h
  exact h

theorem Reads.marker {u v : Source A T} {ts us : List Token} {m : Marker} (hc : m.category.inTag = false)
    (hi : m.index < indexLimit) (hm : (m :: v.markers).Sublist u.markers) (h : Reads v ts us) :
    Reads u (.start m.name [] :: .stop m.name :: ts) (.node (.element m.name [] []) :: us) := by
  have htag := ofTag?_name hc hi
  refine ⟨fun nest => ?_, fun x hx => ?_, ?_⟩
  · rw [List.foldl_cons, List.foldl_cons, List.foldl_cons, Nest.step_start_stop nest [] (sameLetters_self m.name)]
    exact h.same _
  · rcases List.mem_cons.1 hx with rfl | hx
    · refine ⟨fun n hn => ?_, fun _ h => absurd h List.not_mem_nil, trivial⟩
      rw [eq_of_ofTag?_name hn]
      exact ⟨rfl, rfl, rfl⟩
    · exact h.clean x hx
  · have hone : tokenMarkers (.node (.element m.name [] [])) = [m] := by
      rw [tokenMarkers, Token.listed, markersOf_element, startMarkers, htag]
      rfl
    rw [List.flatMap_cons, hone]
    exact (h.markers.cons_cons m).trans hm

/-- reading from any point of the source on -/
theorem tokens_source (n : Nat) : ∀ s : List Char, s.length ≤ n → ∀ u : Source A T, u.Free → s <:+ u.chars →
    ∃ us, Reads u (tokens s) us := by
  induction n with
  | zero =>
    intro s hn u _ _
    obtain rfl := List.length_eq_zero_iff.1 (Nat.le_zero.1 hn)
    exact ⟨[], fun _ => by rw [tokens], fun _ h => absurd h List.not_mem_nil, List.nil_sublist _⟩
  | succ n ih =>
    intro s hn u hu hs
    rcases s with - | ⟨c, cs⟩
    · exact ⟨[], fun _ => by rw [tokens], fun _ h => absurd h List.not_mem_nil, List.nil_sublist _⟩
    have hcs : cs.length ≤ n := Nat.le_of_succ_le_succ hn
    have hsuffix : cs <:+ u.chars := (List.suffix_cons c cs).trans hs
    -- a token without markers, with an end of the rest behind it
    have hplain : ∀ (t : Token) (rest : List Char), scan c cs = (t, rest) → t.Clean → tokenMarkers t = [] →
        rest <:+ cs → ∃ us, Reads u (tokens (c :: cs)) us := by
      intro t rest hscan ht hm hrest
      obtain ⟨us, h⟩ := ih rest (hrest.length_le.trans hcs) u hu (hrest.trans hsuffix)
      rw [tokens_cons, hscan]
      exact ⟨t :: us, h.cons ht (by rw [hm]; exact List.Sublist.refl _)⟩
    by_cases hmarkup : (decide (c = '<') && startsMarkup cs) = true
    · have hscan : scan c cs = _ := if_pos hmarkup
      have hc : c = '<' := by
        simp only [Bool.and_eq_true, decide_eq_true_eq] at hmarkup
        exact hmarkup.1
      split at hscan
      · next body =>
        refine hplain _ _ hscan trivial (by simp [tokenMarkers, Token.listed, markersOf]) ?_
        exact (cutAt_suffix _ body).trans ⟨['!', '-', '-'], rfl⟩
      · next body =>
        refine hplain _ _ hscan trivial rfl ?_
        exact (skipPast_suffix _ _).trans ((List.dropWhile_suffix _).trans (List.suffix_cons _ _))
      · next body _ _ =>
        cases hm : ofTag? (String.ofList (cs.takeWhile isNameChar)) with
        | none =>
          have hdrop : (cs.dropWhile isNameChar).dropWhile isBlank <:+ u.chars :=
            (List.dropWhile_suffix _).trans ((List.dropWhile_suffix _).trans hsuffix)
          obtain ⟨hclean, v, hv, hrest, hsub⟩ := attributeList_source (cs.dropWhile isNameChar) u hu hdrop
          have hlen : (elementToken (cs.takeWhile isNameChar) (attributeList (cs.dropWhile isNameChar)).1
              (attributeList (cs.dropWhile isNameChar)).2.1 (attributeList (cs.dropWhile isNameChar)).2.2).2.length ≤
              n := by
            refine (length_elementToken _ _ _ _).trans ((length_attributeList _).trans (Nat.le_trans ?_ hcs))
            exact (List.dropWhile_suffix isNameChar).length_le
          obtain ⟨us, h⟩ := ih _ hlen v hv ((elementToken_suffix _ _ _ _).trans hrest)
          rw [tokens_cons, hscan]
          refine ⟨_, h.cons (elementToken_clean hm hclean _ _) ?_⟩
          rw [elementToken_markers, startMarkers, hm]
          exact hsub
        | some m =>
          have hp : (stem m.category).toList <+: lowerChars cs := by
            have := stem_prefix_of_ofTag? hm
            rw [String.toList_ofList] at this
            exact this.trans ((List.takeWhile_prefix _).map Char.toLower)
          obtain ⟨k, v, hk, hv, hsub, hspot⟩ := stem_at u hu hsuffix hp
          have hin : k.category.inTag = false := hk ▸ (ofTag?_eq_some_iff.1 hm).1
          cases hspot with
          | inTag h => rw [hin] at h; cases h
          | endTag _ _ hslash =>
            have := List.IsSuffix.eq_of_length (List.suffix_of_suffix_length_le hslash hs (by simp)) (by simp)
            rw [hc] at this
            cases this
          | tag _ hcs' =>
            rw [hcs', takeWhile_append_stop (isTag_name k).2 (by decide), String.ofList_toList] at hm
            obtain rfl := eq_of_ofTag?_name hm
            have hlen : v.chars.length ≤ n := by
              rw [hcs'] at hcs
              simp only [List.length_append, List.length_cons] at hcs
              omega
            obtain ⟨us, h⟩ := ih v.chars hlen v hv (List.suffix_refl _)
            rw [hc, hcs', tokens_marker]
            exact ⟨_, h.marker hin (index_lt_of_ofTag? hm) hsub⟩
    · exact hplain _ _ (if_neg hmarkup) trivial (by simp [tokenMarkers, Token.listed, markersOf]) (textRun_suffix cs)

/-- the forest that a whole source is read as -/
theorem read_source (u : Source A T) (hu : u.Free) :
    Clean (forest (tokens u.chars)) ∧ (markersOfAll (forest (tokens u.chars))).Sublist u.markers := by
  obtain ⟨us, h⟩ := tokens_source _ u.chars (Nat.le_refl _) u hu (List.suffix_refl _)
  have hforest : forest (tokens u.chars) = forest us := by rw [forest, forest, h.same]
  rw [hforest]
  constructor
  · refine clean_iff.2 (forest_all (fun n hn => h.clean _ hn) fun tag attributes children ht hc => ?_)
    obtain ⟨htag, ha⟩ := h.clean _ ht
    refine ⟨fun m hm => ?_, ha, clean_iff.2 hc⟩
    rw [htag] at hm
    cases hm
  · rw [markersOfAll_eq, forest_flatMap markersOf_element]
    exact h.markers

/-! ## Accepted definitions -/

theorem isPrefix_attributeBefore? {segment before name : String} (h : attributeBefore? segment = some (before, name)) :
    before.toList <+: segment.toList := by
  rw [← attributeBefore?_eq h, String.toList_append, String.toList_append, List.append_assoc]
  exact List.prefix_append _ _

theorem before_infix {segment before name : String} (h : attributeBefore? segment = some (before, name)) :
    name.toList <:+: segment.toList := by
  rw [← attributeBefore?_eq h, String.toList_append, String.toList_append]
  exact ⟨before.toList, "=".toList, rfl⟩

theorem requireName_bind {B : Type} {name : String} {index : Nat} {role : NameRole} {f : Unit → Except DefinitionFault B}
    {b : B} (h : (requireName name index role >>= f) = .ok b) : f () = .ok b := by
  unfold requireName at h
  split at h
  · cases h
  · exact h

/-- a hole keeps its segment, except for an attribute, whose name is cut off with the equals sign -/
theorem classifyHole_cases {index : Nat} {segment trimmed : String} {hole : Hole A}
    {p : Placeholder A (Template A)} (h : classifyHole index segment hole = .ok (trimmed, p)) :
    (trimmed = segment ∧ p.category ≠ .attribute) ∨
      ∃ prop name, p = .attribute prop name ∧ attributeBefore? segment = some (trimmed, name) ∧ name ≠ "" := by
  cases hole with
  | name prop =>
    have h := requireName_bind h
    split at h
    · next before name hb =>
      split at h
      · cases h
      · next hn =>
        cases h
        exact .inr ⟨prop, name, rfl, hb, by simpa using hn⟩
    · cases h
      exact .inl ⟨rfl, by simp [Placeholder.category]⟩
  | directive d =>
    left
    cases d with
    | event event topic =>
      have h := requireName_bind (requireName_bind h)
      cases h
      exact ⟨rfl, by simp [Placeholder.category]⟩
    | action run param =>
      cases param with
      | none =>
        cases h
        exact ⟨rfl, by simp [Placeholder.category]⟩
      | some name =>
        have h := requireName_bind h
        cases h
        exact ⟨rfl, by simp [Placeholder.category]⟩
    | slot name =>
      have h := requireName_bind h
      cases h
      exact ⟨rfl, by simp [Placeholder.category]⟩
    | component template segments outer =>
      rw [classifyHole] at h
      split at h
      · cases hb : classifyBindings index 0 segments outer with
        | error fault => rw [hb] at h; cases h
        | ok bindings =>
          rw [hb] at h
          cases h
          exact ⟨rfl, by simp [Placeholder.category]⟩
      · cases h

/-- a trimmed segment before a placeholder, and the segment that it comes from -/
structure TrimmedBefore (segment trimmed : String) (p : Placeholder A T) : Prop where
  starts : trimmed.toList <+: segment.toList
  named : ∀ prop name, p = .attribute prop name →
    name ≠ "" ∧ (∀ c ∈ name.toList, isBlank c = false) ∧ name.toList <:+: segment.toList

theorem classifyHole_trimmed {index : Nat} {segment trimmed : String} {hole : Hole A}
    {p : Placeholder A (Template A)} (h : classifyHole index segment hole = .ok (trimmed, p)) :
    TrimmedBefore segment trimmed p := by
  rcases classifyHole_cases h with ⟨rfl, hp⟩ | ⟨prop, name, rfl, hb, hn⟩
  · refine ⟨List.prefix_refl _, fun prop name he => absurd ?_ hp⟩
    rw [he]
    rfl
  · refine ⟨isPrefix_attributeBefore? hb, fun prop' name' he => ?_⟩
    cases he
    refine ⟨hn, fun c hc => ?_, before_infix hb⟩
    unfold attributeBefore? at hb
    split at hb
    · cases hb
      rw [String.toList_ofList, List.mem_reverse] at hc
      simpa using List.mem_takeWhile_imp hc
    · cases hb

/-- what classification makes of segments: they are trimmed one by one, and the last one is left as it is -/
inductive Trims : List String → List String → List (Placeholder A T) → Prop
  | last (segment : String) : Trims [segment] [segment] []
  | cons {segment trimmed : String} {p : Placeholder A T} {ss ts : List String} {ps : List (Placeholder A T)}
      (h : TrimmedBefore segment trimmed p) (rest : Trims ss ts ps) :
      Trims (segment :: ss) (trimmed :: ts) (p :: ps)

theorem classifyFrom_trims {segments : List String} {holes : List (Hole A)} {index : Nat} {c : Classified A}
    (hl : segments.length = holes.length + 1) (h : classifyFrom index segments holes = .ok c) :
    Trims segments c.segments c.placeholders := by
  induction holes generalizing segments index c with
  | nil =>
    obtain ⟨segment, rfl⟩ := List.length_eq_one_iff.1 hl
    cases h
    exact .last segment
  | cons hole holes ih =>
    rcases segments with - | ⟨segment, segments⟩
    · cases hl
    · rw [classifyFrom] at h
      cases hh : classifyHole index segment hole with
      | error fault => rw [hh] at h; cases h
      | ok tp =>
        obtain ⟨trimmed, p⟩ := tp
        rw [hh] at h
        cases hr : classifyFrom (index + 1) segments holes with
        | error fault => simp only [bind, Except.bind, hr] at h; cases h
        | ok rest =>
          simp only [bind, Except.bind, hr] at h
          cases h
          exact .cons (classifyHole_trimmed hh) (ih (Nat.succ.inj hl) hr)

theorem checkMarkers_eq_ok_iff {found : List Marker} {index : Nat} {placeholders : List (Placeholder A T)} :
    checkMarkers found index placeholders = .ok () ↔ ∀ m ∈ markersFor index placeholders, found.count m = 1 := by
  induction placeholders generalizing index with
  | nil => simp [checkMarkers, markersFor]
  | cons p ps ih =>
    rw [checkMarkers, markersFor, List.forall_mem_cons, ← ih]
    split
    · next h => simp [h]
    · next h => simp [h]
    · next h0 h1 => simp [show ¬ _ from h1]

/-- what classification makes of the segments before a marker-free definition's placeholders -/
theorem Trims.free {segments trimmed : List String} {placeholders : List (Placeholder A T)}
    (h : Trims segments trimmed placeholders) (hfree : ∀ segment ∈ segments, MarkerFree segment) (index : Nat) :
    Source.Free ⟨index, trimmed, placeholders⟩ := by
  induction h generalizing index with
  | last segment => exact ⟨hfree, Nat.le_refl _⟩
  | @cons segment trimmed p ss ts ps hp rest ih =>
    have hrest := ih (fun s hs => hfree s (List.mem_cons_of_mem _ hs)) (index + 1)
    refine ⟨fun t ht category hi => ?_, Nat.succ_le_succ hrest.length⟩
    rcases List.mem_cons.1 ht with rfl | ht
    · exact hfree segment List.mem_cons_self category (hi.trans (hp.starts.map Char.toLower).isInfix)
    · exact hrest.segments t ht category hi

/-- the attribute names that classification finds -/
theorem Trims.named {segments trimmed : List String} {placeholders : List (Placeholder A T)}
    (h : Trims segments trimmed placeholders) {prop name : String} (hp : .attribute prop name ∈ placeholders) :
    name ≠ "" ∧ (∀ c ∈ name.toList, isBlank c = false) ∧ ∃ segment ∈ segments, name.toList <:+: segment.toList := by
  induction h with
  | last => exact absurd hp List.not_mem_nil
  | @cons segment trimmed p ss ts ps hs rest ih =>
    rcases List.mem_cons.1 hp with hp | hp
    · obtain ⟨hn, hb, hi⟩ := hs.named prop name hp.symm
      exact ⟨hn, hb, segment, List.mem_cons_self, hi⟩
    · obtain ⟨hn, hb, s, hs, hi⟩ := ih hp
      exact ⟨hn, hb, s, List.mem_cons_of_mem _ hs, hi⟩

theorem le_index_of_mem_markersFor {index : Nat} {placeholders : List (Placeholder A T)} {m : Marker}
    (h : m ∈ markersFor index placeholders) : index ≤ m.index := by
  induction placeholders generalizing index with
  | nil => exact absurd h List.not_mem_nil
  | cons p ps ih =>
    rcases List.mem_cons.1 h with rfl | h
    · exact Nat.le_refl _
    · exact Nat.le_of_succ_le (ih h)

theorem nodup_markersFor (index : Nat) (placeholders : List (Placeholder A T)) :
    (markersFor index placeholders).Nodup := by
  induction placeholders generalizing index with
  | nil => exact List.nodup_nil
  | cons p ps ih =>
    refine List.nodup_cons.2 ⟨fun h => ?_, ih (index + 1)⟩
    exact absurd (le_index_of_mem_markersFor h) (Nat.not_succ_le_self index)

/-- the markers that are met in order, none twice and all of them, are all markers -/
theorem markers_eq {found : List Marker} {placeholders : List (Placeholder A T)}
    (hs : found.Sublist (markersFor 0 placeholders)) (h : checkMarkers found 0 placeholders = .ok ()) :
    found = markersFor 0 placeholders := by
  refine hs.eq_of_length_le (List.Nodup.length_le_of_subset (nodup_markersFor 0 placeholders) fun m hm => ?_)
  exact List.count_pos_iff.1 (by rw [checkMarkers_eq_ok_iff.1 h m hm]; exact Nat.one_pos)

namespace Template

/-- a template that some definition has -/
def Accepted (t : Template A) : Prop := ∃ segments holes, define segments holes = .ok t

/-- no segment of the template contains the stem of a marker -/
def MarkerFree (t : Template A) : Prop := ∀ segment ∈ t.segments, LiveMarkup.MarkerFree segment

/-- a template whose skeleton carries exactly the markers of its placeholders, in order and cleanly -/
structure Sound (t : Template A) : Prop where
  wellFormed : WellFormed t.skeleton
  clean : Clean t.skeleton
  markers : markersOfAll t.skeleton = markersFor 0 t.placeholders
  named : ∀ prop name, .attribute prop name ∈ t.placeholders →
    name ≠ "" ∧ (∀ c ∈ name.toList, isBlank c = false) ∧ ofAttribute? name = none

/-- what a definition is made into -/
theorem define_cases {segments : List String} {holes : List (Hole A)} {t : Template A}
    (h : define segments holes = .ok t) : t.segments = segments ∧ ∃ trimmed, Trims segments trimmed t.placeholders ∧
      t.skeleton = read (skeletonSource 0 trimmed t.placeholders) ∧
      checkMarkers (markersOfAll t.skeleton) 0 t.placeholders = .ok () := by
  unfold define at h
  cases hc : classify segments holes with
  | error fault => rw [hc] at h; cases h
  | ok c =>
    rw [hc] at h
    unfold classify at hc
    split at hc
    · next hl =>
      cases hm : checkMarkers (markersOfAll (read (skeletonSource 0 c.segments c.placeholders))) 0 c.placeholders with
      | error fault =>
        simp only [bind, Except.bind, skeletonOf, hm] at h
        cases h
      | ok u =>
        simp only [bind, Except.bind, skeletonOf, hm] at h
        cases h
        exact ⟨rfl, c.segments, classifyFrom_trims hl hc, rfl, hm⟩
    · cases hc

/-- the source depends on the categories of the placeholders only -/
theorem skeletonSource_congr {B U : Type} {ps : List (Placeholder A (Template A))} (qs : List (Placeholder B U))
    (h : ps.map Placeholder.category = qs.map Placeholder.category) (index : Nat) (segments : List String) :
    skeletonSource index segments ps = skeletonSource index segments qs := by
  induction segments generalizing index ps qs with
  | nil => rfl
  | cons segment segments ih =>
    rcases ps with - | ⟨p, ps⟩ <;> rcases qs with - | ⟨q, qs⟩
    · rw [skeletonSource, skeletonSource, ih [] rfl]
    · cases h
    · cases h
    · obtain ⟨hc, hr⟩ := List.cons.inj h
      rw [skeletonSource, skeletonSource, ih qs hr, hc]

/-- what definition a template has, given what its source is read as -/
theorem define_eq_ok {segments : List String} {holes : List (Hole A)} {c : Classified A} {nodes : List Markup.Node}
    (hc : classify segments holes = .ok c) (hr : read (skeletonSource 0 c.segments c.placeholders) = nodes)
    (hm : checkMarkers (markersOfAll nodes) 0 c.placeholders = .ok ()) :
    define segments holes = .ok ⟨segments, c.placeholders, nodes⟩ := by
  subst hr
  simp only [define, hc, skeletonOf, hm, bind, Except.bind]
  rfl

/-- the skeleton of an accepted template without stems is sound -/
theorem Accepted.sound {t : Template A} (h : t.Accepted) (hfree : t.MarkerFree) : t.Sound := by
  obtain ⟨segments, holes, h⟩ := h
  obtain ⟨rfl, trimmed, ht, hs, hm⟩ := define_cases h
  have hsource := read_source (T := Template A) ⟨0, trimmed, t.placeholders⟩ (ht.free hfree 0)
  have hread : forest (tokens (Source.chars (⟨0, trimmed, t.placeholders⟩ : Source A (Template A)))) = t.skeleton :=
    hs.symm
  rw [hread] at hsource
  refine ⟨hs ▸ wellFormed_read _, hsource.1, markers_eq hsource.2 hm, fun prop name hp => ?_⟩
  obtain ⟨hn, hb, segment, hseg, hi⟩ := ht.named hp
  refine ⟨hn, hb, Option.eq_none_iff_forall_ne_some.2 fun m ha => ?_⟩
  refine hfree segment hseg m.category ?_
  exact (stem_prefix_of_ofAttribute? ha).isInfix.trans (hi.map Char.toLower)

mutual
/-- a property of a template and of every template embedded in it, at any depth -/
def Everywhere (P : Template A → Prop) : Template A → Prop
  | ⟨segments, placeholders, skeleton⟩ => P ⟨segments, placeholders, skeleton⟩ ∧ EverywhereIn P placeholders
/-- a property of every template embedded at one of these placeholders, at any depth -/
def EverywhereIn (P : Template A → Prop) : List (Placeholder A (Template A)) → Prop
  | [] => True
  | .child t _ :: ps => t.Everywhere P ∧ EverywhereIn P ps
  | _ :: ps => EverywhereIn P ps
end

mutual
theorem Everywhere.imp {P Q R : Template A → Prop} (hi : ∀ t, P t → Q t → R t) :
    (t : Template A) → t.Everywhere P → t.Everywhere Q → t.Everywhere R
  | ⟨_, placeholders, _⟩, ⟨hp, hps⟩, ⟨hq, hqs⟩ => ⟨hi _ hp hq, EverywhereIn.imp hi placeholders hps hqs⟩
theorem EverywhereIn.imp {P Q R : Template A → Prop} (hi : ∀ t, P t → Q t → R t) :
    (ps : List (Placeholder A (Template A))) → EverywhereIn P ps → EverywhereIn Q ps → EverywhereIn R ps
  | [], _, _ => trivial
  | .child t _ :: ps, ⟨hp, hps⟩, ⟨hq, hqs⟩ => ⟨Everywhere.imp hi t hp hq, EverywhereIn.imp hi ps hps hqs⟩
  | .text _ :: ps, hps, hqs => EverywhereIn.imp hi ps hps hqs
  | .attribute _ _ :: ps, hps, hqs => EverywhereIn.imp hi ps hps hqs
  | .event _ _ :: ps, hps, hqs => EverywhereIn.imp hi ps hps hqs
  | .action _ _ :: ps, hps, hqs => EverywhereIn.imp hi ps hps hqs
  | .slot _ :: ps, hps, hqs => EverywhereIn.imp hi ps hps hqs
end

/-- accepted templates without stems are sound at every depth -/
theorem Everywhere.sound {t : Template A} (h : t.Everywhere Accepted) (hfree : t.Everywhere MarkerFree) :
    t.Everywhere Sound :=
  Everywhere.imp (fun _ ha hf => ha.sound hf) t h hfree

end Template

end LiveMarkup
