/-
Printed layouts are accepted, with the skeleton that is meant.

The source of a printed layout is cut into the tokens of the tree in which every placeholder is a marker: an attribute
marker is written with blanks around it, which a list of attributes skips, and an element marker with its end tag right
behind it. That tree has the markers of the placeholders in the order of printing, so all checks pass.

- `tokens_sourceAll`: the tokens of the source;
- `markersOfAll_mark`: the markers of the tree;
- `define_printed`: the template of a printed layout.
-/
import Mathlib.Data.List.Nodup
import LiveMarkup.Proofs.Template.Layout

namespace LiveMarkup.Layout

open Markup Marker

variable {A : Type}

/-! ## Numbers of placeholders -/

theorem boundIn_append (cs ds : List (Chunk A)) : boundIn (cs ++ ds) = boundIn cs ++ boundIn ds := by
  induction cs with
  | nil => rfl
  | cons c cs ih =>
    cases c with
    | text t => exact ih
    | hole cut h p => exact congrArg (p :: ·) ih

theorem length_boundIn_items (items : List (Item A)) :
    (boundIn (items.flatMap Item.print)).length = items.countP Item.isHole := by
  induction items with
  | nil => rfl
  | cons i items ih =>
    rw [List.flatMap_cons, boundIn_append, List.length_append, ih, List.countP_cons, Nat.add_comm]
    cases i <;> rfl

mutual
theorem Piece.length_boundIn (parent : Option String) : (p : Piece A) → (boundIn (p.print parent)).length = p.count
  | .element tag items children => by
    rw [Piece.print, Piece.count, boundIn, boundIn_append, List.length_append, length_boundIn_items, boundIn,
      boundIn_append, List.length_append, length_boundIn (some tag) children]
    rfl
  | .text _ => rfl
  | .comment _ => rfl
  | .hole _ => rfl
theorem length_boundIn (parent : Option String) : (ps : List (Piece A)) → (boundIn (printAll parent ps)).length = count ps
  | [] => rfl
  | p :: ps => by
    rw [printAll, boundIn_append, List.length_append, Piece.length_boundIn parent p, length_boundIn parent ps, count]
end

theorem sourceOf_append (index : Nat) (cs ds : List (Chunk A)) :
    sourceOf index (cs ++ ds) = sourceOf index cs ++ sourceOf (index + (boundIn cs).length) ds := by
  induction cs generalizing index with
  | nil => simp [sourceOf, boundIn]
  | cons c cs ih =>
    cases c with
    | text t => rw [List.cons_append, sourceOf, ih, sourceOf, String.append_assoc, boundIn]
    | hole cut h p =>
      rw [List.cons_append, sourceOf, ih, sourceOf, String.append_assoc, boundIn, List.length_cons, Nat.add_right_comm,
        Nat.add_assoc index]

/-! ## Markers as text -/

theorem TagHole.inTag (h : TagHole A) : h.placeholder.category.inTag = true := by
  cases h <;> rfl

theorem NodeHole.inTag (h : NodeHole A) : h.placeholder.category.inTag = false := by
  cases h <;> rfl

theorem isAttributeName_name (m : Marker) : IsAttributeName m.name := by
  have hstem : ∃ c cs, (stem m.category).toList = c :: cs ∧ isBlank c = false := by
    cases m.category <;> exact ⟨_, _, rfl, by decide⟩
  obtain ⟨c, cs, hc, hb⟩ := hstem
  exact ⟨⟨c, cs ++ Nat.toDigits 10 m.index, by rw [toList_name, hc]; rfl, hb⟩, (isTag_name m).2⟩

theorem tokens_markerNode {m : Marker} (h : m.category.inTag = false) (rest : List Char) :
    tokens ((Marker.source m).toList ++ rest) = (Markup.Node.element m.name [] []).tokens ++ tokens rest := by
  have hsource : (Marker.source m).toList ++ rest =
      '<' :: (m.name.toList ++ '>' :: '<' :: '/' :: (m.name.toList ++ '>' :: rest)) := by
    simp [Marker.source, h]
  obtain ⟨hv, hr⟩ := isVoid_name m
  rw [hsource, tokens_marker, Node.tokens, hv, hr]
  rfl

/-- the attributes of a start tag are read, markers among them -/
theorem readsAsAttributes_items {items : List (Item A)} (hw : ∀ i ∈ items, i.WellPlaced) (index : Nat) :
    ReadsAsAttributes (sourceOf index (items.flatMap Item.print)).toList (markItems index items) := by
  induction items generalizing index with
  | nil => exact .nil
  | cons i items ih =>
    rw [List.forall_mem_cons] at hw
    cases i with
    | literal name value =>
      have hchars : (sourceOf index ((Item.literal name value :: items).flatMap Item.print)).toList =
          ' ' :: (name.toList ++ (valueChars value ++ (sourceOf index (items.flatMap Item.print)).toList)) := by
        simp [Item.print, sourceOf, toList_printAttribute]
      rw [hchars]
      exact (ih hw.2 index).named hw.1.1 value
    | hole h =>
      -- a blank before the marker, from the text before the hole, and one on either side of it
      have hchars : (sourceOf index ((Item.hole h :: items).flatMap Item.print)).toList =
          ' ' :: ' ' :: ((⟨h.placeholder.category, index⟩ : Marker).name.toList ++
            (valueChars "" ++ ' ' :: (sourceOf (index + 1) (items.flatMap Item.print)).toList)) := by
        simp [Item.print, sourceOf, Marker.source, h.inTag, valueChars]
      rw [hchars]
      exact ((ih hw.2 (index + 1)).blank.named (isAttributeName_name _) "").blank

/-! ## Tokens of the source -/

/-- what is printed begins with markup unless it begins with a text -/
theorem isClear_sourceAll {ps : List (Piece A)} (hw : WellPlaced ps) (hb : beginsWithText ps = false) (index : Nat)
    {parent : Option String} {rest : List Char} (hr : IsClear rest) :
    IsClear ((sourceOf index (printAll parent ps)).toList ++ rest) := by
  rcases ps with - | ⟨p, ps⟩
  · exact hr
  · cases p with
    | text => cases hb
    | comment data =>
      refine .inr ⟨'!' :: '-' :: '-' :: (data.toList ++ '-' :: '-' :: '>' ::
        ((sourceOf index (printAll parent ps)).toList ++ rest)), ?_, rfl⟩
      simp [printAll, Piece.print, sourceOf, printComment]
    | element tag items children =>
      obtain ⟨⟨c, cs, hc, hl⟩, -⟩ := hw.1.1
      rw [printAll, Piece.print, List.cons_append, sourceOf, String.append_assoc, String.toList_append,
        String.toList_append, hc]
      exact .inr ⟨_, rfl, startsMarkup_of_isLetter hl _⟩
    | hole h =>
      obtain ⟨⟨c, cs, hc, hl⟩, -⟩ := isTag_name ⟨h.placeholder.category, index⟩
      rw [printAll, Piece.print, List.cons_append, sourceOf, Marker.source, h.inTag, String.toList_append]
      simp only [Bool.false_eq_true, if_false, String.toList_append, hc]
      exact .inr ⟨_, rfl, startsMarkup_of_isLetter hl _⟩

/-- the content of a raw text element, which has no placeholders -/
theorem raw_source {tag : String} {children : List (Piece A)} (hr : isRawText tag = true) (hw : WellPlaced children)
    (hc : children = [] ∨ ∃ data, children = [.text data] ∧ ¬ endMark tag <:+: lowerChars data.toList) (index : Nat) :
    ¬ endMark tag <:+: lowerChars (sourceOf index (printAll (some tag) children)).toList ∧
      (if (sourceOf index (printAll (some tag) children)).toList.isEmpty then []
        else [Markup.Node.text (String.ofList (sourceOf index (printAll (some tag) children)).toList)]) =
        mark index children := by
  rcases hc with rfl | ⟨data, rfl, hd⟩
  · exact ⟨by simp [printAll, sourceOf, endMark, lowerChars], rfl⟩
  · have hsource : sourceOf index (printAll (some tag) [Piece.text (A := A) data]) = data := by
      simp [printAll, Piece.print, sourceOf, printText, hr]
    have hne : data ≠ "" := hw.1
    rw [hsource]
    exact ⟨hd, by simp [hne, mark, Piece.mark]⟩

mutual
theorem Piece.tokens_source : (p : Piece A) → p.WellPlaced → {parent : Option String} →
    parent.any isRawText = false → (index : Nat) → (rest : List Char) → (∀ data, p.text? = some data → IsClear rest) →
    tokens ((sourceOf index (p.print parent)).toList ++ rest) = (p.mark index).tokens ++ tokens rest
  | .element tag items children, ⟨ht, _, hi, hv, hr, hw⟩, parent, _, index, rest, _ => by
    have hchars : (sourceOf index (Piece.print parent (.element tag items children))).toList ++ rest =
        '<' :: (tag.toList ++ ((sourceOf index (items.flatMap Item.print)).toList ++ '>' ::
          ((sourceOf (index + items.countP Item.isHole) (printAll (some tag) children)).toList ++
            ((printEnd tag).toList ++ rest)))) := by
      simp [Piece.print, sourceOf, sourceOf_append, length_boundIn_items]
    rw [hchars, Piece.mark]
    refine tokens_element ht (readsAsAttributes_items hi index) (fun h => ?_) (fun h => raw_source h hw (hr h) _)
      (fun h => ?_) rest
    · rw [hv h]
      exact ⟨rfl, rfl⟩
    · exact tokens_sourceAll children hw (show (some tag).any isRawText = false from h) _
  | .text data, hw, parent, hp, index, rest, hc => by
    have hchars : (sourceOf index (Piece.print (A := A) parent (.text data))).toList = (escape .content data).toList := by
      simp [Piece.print, sourceOf, printText, hp]
    rw [hchars, tokens_text (mt escape_eq_empty_iff.1 hw) (lt_not_mem_escape _ _) (hc data rfl), decode_escape]
    rfl
  | .comment data, hw, parent, _, index, rest, _ => by
    have hchars : (sourceOf index (Piece.print (A := A) parent (.comment data))).toList ++ rest =
        '<' :: '!' :: '-' :: '-' :: (data.toList ++ '-' :: '-' :: '>' :: rest) := by
      simp [Piece.print, sourceOf, printComment]
    rw [hchars, tokens_comment hw, String.ofList_toList]
    rfl
  | .hole h, _, parent, _, index, rest, _ => by
    rw [Piece.print, sourceOf, sourceOf, String.append_empty]
    exact tokens_markerNode h.inTag rest
/-- the source of a printed layout is cut into the tokens of the tree that is meant -/
theorem tokens_sourceAll : (ps : List (Piece A)) → WellPlaced ps → {parent : Option String} →
    parent.any isRawText = false → (index : Nat) → (rest : List Char) → IsClear rest →
    tokens ((sourceOf index (printAll parent ps)).toList ++ rest) = tokensOf (mark index ps) ++ tokens rest
  | [], _, _, _, _, _, _ => rfl
  | p :: ps, ⟨hp, ht, hps⟩, parent, hparent, index, rest, hr => by
    rw [printAll, sourceOf_append, Piece.length_boundIn, String.toList_append, List.append_assoc,
      Piece.tokens_source p hp hparent index _ fun data hd => isClear_sourceAll hps (ht data hd).1 _ hr,
      tokens_sourceAll ps hps hparent (index + p.count) rest hr, mark, tokensOf, List.append_assoc]
end

/-- the skeleton of a printed layout is the tree that is meant -/
theorem read_sourceOf {ps : List (Piece A)} (h : WellPlaced ps) : read (sourceOf 0 (printAll none ps)) = mark 0 ps := by
  have ht := tokens_sourceAll ps h (show (none : Option String).any isRawText = false from rfl) 0 [] (.inl rfl)
  rw [List.append_nil] at ht
  rw [Markup.read, ht, show tokens [] = [] from by rw [tokens], List.append_nil, forest_tokensOf]

/-! ## Markers of the tree -/

theorem markersFor_append (index : Nat) (ps qs : List (Placeholder A (Template A))) :
    markersFor index (ps ++ qs) = markersFor index ps ++ markersFor (index + ps.length) qs := by
  induction ps generalizing index with
  | nil => rfl
  | cons p ps ih =>
    rw [List.cons_append, markersFor, ih, markersFor, List.length_cons, Nat.add_right_comm, Nat.add_assoc index]
    rfl

theorem attributeMarkers_mark {items : List (Item A)} (hw : ∀ i ∈ items, i.WellPlaced) {index : Nat}
    (hi : index + items.countP Item.isHole ≤ indexLimit) :
    attributeMarkers (markItems index items) = markersFor index (boundIn (items.flatMap Item.print)) := by
  induction items generalizing index with
  | nil => rfl
  | cons i items ih =>
    rw [List.forall_mem_cons] at hw
    rw [List.countP_cons] at hi
    cases i with
    | literal name value =>
      rw [markItems, attributeMarkers_cons, hw.1.2]
      exact ih hw.2 hi
    | hole h =>
      have hi : index + 1 + items.countP Item.isHole ≤ indexLimit := by
        rw [Nat.add_assoc, Nat.add_comm 1]
        exact hi
      have hlt : index < indexLimit := by omega
      rw [markItems, attributeMarkers_cons, ofAttribute?_name h.inTag hlt, ih hw.2 hi]
      rfl

mutual
theorem Piece.markersOf_mark : (p : Piece A) → p.WellPlaced → (parent : Option String) → {index : Nat} →
    index + p.count ≤ indexLimit → markersOf (p.mark index) = markersFor index (boundIn (p.print parent))
  | .element tag items children, ⟨_, htag, hi, _, _, hw⟩, parent, index, hl => by
    rw [Piece.count, ← Nat.add_assoc] at hl
    have hitems := attributeMarkers_mark hi (Nat.le_trans (Nat.le_add_right _ _) hl)
    have hchildren := markersOfAll_mark children hw (some tag) hl
    have hbound : boundIn (Piece.print parent (.element tag items children)) =
        boundIn (items.flatMap Item.print) ++ boundIn (printAll (some tag) children) := by
      rw [Piece.print, boundIn, boundIn_append, boundIn, boundIn_append]
      exact congrArg _ (List.append_nil _)
    rw [Piece.mark, markersOf, htag, hbound, markersFor_append, length_boundIn_items, ← hchildren, ← hitems]
    rfl
  | .text _, _, _, _, _ => rfl
  | .comment _, _, _, _, _ => rfl
  | .hole h, _, _, index, hl => by
    have htag := ofTag?_name (m := ⟨h.placeholder.category, index⟩) h.inTag hl
    rw [Piece.mark, markersOf, htag]
    rfl
/-- the markers of the tree are those of the placeholders, in the order of printing -/
theorem markersOfAll_mark : (ps : List (Piece A)) → WellPlaced ps → (parent : Option String) → {index : Nat} →
    index + count ps ≤ indexLimit → markersOfAll (mark index ps) = markersFor index (boundIn (printAll parent ps))
  | [], _, _, _, _ => rfl
  | p :: ps, ⟨hp, _, hps⟩, parent, index, hl => by
    rw [count, ← Nat.add_assoc] at hl
    rw [mark, markersOfAll, Piece.markersOf_mark p hp parent (Nat.le_trans (Nat.le_add_right _ _) hl),
      markersOfAll_mark ps hps parent hl, printAll, boundIn_append, markersFor_append, Piece.length_boundIn]
end

/-! ## The template -/

/-- **Printed layouts are accepted.** The definition that a well-placed layout is printed as is accepted. Its placeholders
are those of the layout in the order of printing, and its skeleton is the layout with the marker of every placeholder at
its spot. Indices fit in 64 bits, and so does the number of placeholders. -/
theorem define_printed {ps : List (Piece A)} (h : WellPlaced ps) (hcount : count ps ≤ indexLimit) :
    Template.define (segments ps) (holes ps) = .ok ⟨segments ps, placeholders ps, mark 0 ps⟩ := by
  refine Template.define_eq_ok (classify_printed h) ?_ (checkMarkers_eq_ok_iff.2 fun m hm => ?_)
  · rw [source_printed, read_sourceOf h]
  · have hmarkers : markersOfAll (mark 0 ps) = markersFor 0 (placeholders ps) :=
      markersOfAll_mark ps h none (by rwa [Nat.zero_add])
    rw [hmarkers]
    exact List.count_eq_one_of_mem (nodup_markersFor 0 _) hm

/-- a card with every kind of placeholder, a void element and raw text -/
def card : List (Piece Unit) :=
  [.element "section" [.literal "class" "a=b", .hole (.bound "title" "t"), .hole (.event "click" (some "save")),
      .hole (.action () none)]
    [.text "1 < 2 ", .hole (.text "name"), .comment " x= ", .element "br" [] [], .hole (.text "note"),
      .element "script" [] [.text "a<b"], .hole (.slot none)],
    .text "sum =", .hole (.child ⟨["<p></p>"], [], [.element "p" [] []]⟩ [⟨"x ", ⟨"label", "t"⟩⟩] "")]

theorem define_printed_card :
    WellPlaced card ∧ count card ≤ indexLimit ∧
      Template.define
        ["<section class=\"a=b\" title=", " ", " ", ">1 &lt; 2 ", "<!-- x= --><br>", "<script>a<b</script>",
          "</section>sum =", ""]
        [.name "t", .directive (.event "click" (some "save")), .directive (.action () none), .name "name",
          .name "note", .directive (.slot none),
          .directive (.component ⟨["<p></p>"], [], [.element "p" [] []]⟩ ["x label=", ""] ["t"])] =
      .ok ⟨["<section class=\"a=b\" title=", " ", " ", ">1 &lt; 2 ", "<!-- x= --><br>", "<script>a<b</script>",
          "</section>sum =", ""],
        [.attribute "t" "title", .event "click" "save", .action () none, .text "name", .text "note", .slot "default",
          .child ⟨["<p></p>"], [], [.element "p" [] []]⟩ [⟨"label", "t"⟩]],
        [.element "section" [("class", "a=b"), ("data-attribute-0", ""), ("data-event-1", ""), ("data-action-2", "")]
          [.text "1 < 2 ", .element "mc-text-3" [] [], .comment " x= ", .element "br" [] [],
            .element "mc-text-4" [] [], .element "script" [] [.text "a<b"], .element "mc-slot-5" [] []],
          .text "sum =", .element "mc-child-6" [] []]⟩ := by
  have hplain : ∀ name : String, name.toList.any isBlank = false → ∀ c ∈ name.toList, isBlank c = false :=
    fun name h c hc => Bool.eq_false_iff.2 (List.any_eq_false.1 h c hc)
  have hclass : Item.WellPlaced (A := Unit) (.literal "class" "a=b") :=
    ⟨⟨⟨'c', _, rfl, by decide⟩, List.all_eq_true.1 (by decide)⟩, by decide +kernel⟩
  have hsection : IsTag "section" ∧ ofTag? "section" = none :=
    ⟨⟨⟨'s', _, rfl, by decide⟩, List.all_eq_true.1 (by decide)⟩, by decide +kernel⟩
  have hitems : ∀ i ∈ [Item.literal "class" "a=b", .hole (.bound "title" "t"), .hole (.event "click" (some "save")),
      .hole (.action () none)], i.WellPlaced := by
    simp only [List.forall_mem_cons]
    exact ⟨hclass, ⟨by decide, hplain "title" (by decide), by decide⟩, ⟨by decide, by decide⟩, nofun, nofun⟩
  have hbr : Piece.WellPlaced (A := Unit) (.element "br" [] []) :=
    ⟨⟨⟨'b', _, rfl, by decide⟩, List.all_eq_true.1 (by decide)⟩, by decide +kernel, nofun, fun _ => rfl,
      fun _ => .inl rfl, trivial⟩
  have hscript : Piece.WellPlaced (A := Unit) (.element "script" [] [.text "a<b"]) :=
    ⟨⟨⟨'s', _, rfl, by decide⟩, List.all_eq_true.1 (by decide)⟩, by decide +kernel, nofun,
      fun h => absurd h (by decide), fun _ => .inr ⟨_, rfl, by decide +kernel⟩,
      show "a<b" ≠ "" by decide, fun _ _ => ⟨rfl, fun _ => rfl⟩, trivial⟩
  have hchildren : WellPlaced (A := Unit) [.text "1 < 2 ", .hole (.text "name"), .comment " x= ", .element "br" [] [],
      .hole (.text "note"), .element "script" [] [.text "a<b"], .hole (.slot none)] := by
    refine ⟨show "1 < 2 " ≠ "" by decide, fun data hd => ⟨rfl, fun heq => ?_⟩, show "name" ≠ "" by decide, nofun,
      show ¬ ['-', '-', '>'] <:+: " x= ".toList by decide, nofun, hbr, nofun, show "note" ≠ "" by decide, nofun, hscript,
      nofun, show (none : Option String) ≠ some "" by decide, nofun, trivial⟩
    cases hd
    exact absurd heq (by decide)
  have hforward : Piece.WellPlaced (A := Unit)
      (.hole (.child ⟨["<p></p>"], [], [.element "p" [] []]⟩ [⟨"x ", ⟨"label", "t"⟩⟩] "")) := by
    intro f hf
    obtain rfl := List.mem_singleton.1 hf
    exact ⟨by decide, by decide, hplain "label" (by decide), fun c hc => by cases hc; decide⟩
  have h : WellPlaced card :=
    ⟨⟨hsection.1, hsection.2, hitems, fun h => absurd h (by decide), fun h => absurd h (by decide), hchildren⟩, nofun,
      show "sum =" ≠ "" by decide, fun _ _ => ⟨rfl, fun _ => rfl⟩, hforward, nofun, trivial⟩
  have hcount : count card ≤ indexLimit := by decide
  exact ⟨h, hcount, define_printed h hcount⟩

end LiveMarkup.Layout
