/-
Slots of one name, and content that is handed out once.

Rendering looks the content of a slot up at every placeholder of its name. `Template.renderOnce` writes it at the first
one only. The two are the same text unless a slot with several placeholders has content that is not empty, and then the
second is shorter.

- `renderOnce_eq_render_iff`: when the two are the same;
- `renderOnce_eq_print`: for contents that are texts, `renderOnce` writes the skeleton with a text node in the place of the
  first marker of each slot, and nothing in the place of the others.
-/
import LiveMarkup.Proofs.Template.Spots

namespace LiveMarkup

open Markup Marker

variable {A T : Type}

/-! ## Placeholders of slots -/

def Placeholder.slot? : Placeholder A T → Option String
  | .slot name => some name
  | _ => none

/-- the slots that placeholders are for, in order -/
def slotNames (ps : List (Placeholder A T)) : List String := ps.filterMap Placeholder.slot?

/-- the contents but for that of one slot -/
def SlotMarkup.without (slots : SlotMarkup) (name : String) : SlotMarkup := fun n => if n = name then Option.none else slots n

/-- what placeholders write if the content of each slot is written once, at its first placeholder -/
def piecesOnce (props : Props) (slots : SlotMarkup) : List (Placeholder A (Template A)) → List Piece
  | [] => []
  | .slot name :: ps => .slot ((slots name).getD "") :: piecesOnce props (slots.without name) ps
  | p :: ps => piecesOf props slots [p] ++ piecesOnce props slots ps

/-- a template as markup in which the content of each slot stands once -/
def Template.renderOnce (props : Props) (slots : SlotMarkup) (t : Template A) : String :=
  writeNodes (piecesOnce props slots t.placeholders) none t.skeleton

/-- what a placeholder writes that is not for a slot -/
def Placeholder.piece (props : Props) : Placeholder A (Template A) → Piece
  | .text prop => .text (props.text prop)
  | .attribute prop name => .attribute name (props.text prop)
  | .child t bindings => .child (t.render (childProps bindings props) SlotMarkup.none)
  | _ => .silent

section

variable {props : Props} {slots slots' : SlotMarkup} {p : Placeholder A (Template A)} {ps : List (Placeholder A (Template A))}

theorem piecesOf_slot (name : String) : piecesOf props slots (.slot name :: ps) =
    .slot ((slots name).getD "") :: piecesOf props slots ps := by rw [piecesOf]

theorem piecesOf_cons (hp : p.slot? = none) : piecesOf props slots (p :: ps) = p.piece props :: piecesOf props slots ps := by
  cases p with
  | slot name => cases hp
  | _ => rw [piecesOf]; rfl

theorem piecesOnce_cons (hp : p.slot? = none) :
    piecesOnce props slots (p :: ps) = p.piece props :: piecesOnce props slots ps := by
  rw [piecesOnce, piecesOf_cons hp, piecesOf]
  · rfl
  · rintro name rfl
    cases hp

theorem slotNames_cons (hp : p.slot? = none) : slotNames (p :: ps) = slotNames ps := List.filterMap_cons_none hp

theorem slotNames_slot (name : String) : slotNames (.slot name :: ps) = name :: slotNames ps := rfl

/-- a placeholder is for a slot or not -/
theorem Placeholder.slot?_cases (p : Placeholder A T) : (∃ name, p = .slot name) ∨ p.slot? = none := by
  cases p with
  | slot name => exact .inl ⟨name, rfl⟩
  | _ => exact .inr rfl

/-- if every slot that has content has one placeholder, its content is written once either way -/
theorem piecesOnce_eq_piecesOf
    (h : ∀ name markup, slots name = some markup → markup ≠ "" → (slotNames ps).count name ≤ 1) :
    piecesOnce props slots ps = piecesOf props slots ps := by
  induction ps generalizing slots with
  | nil => rfl
  | cons p ps ih =>
    rcases p.slot?_cases with ⟨name, rfl⟩ | hp
    · rw [piecesOnce, piecesOf_slot, ih fun n markup hn hne => ?_]
      · refine congrArg _ (piecesOf_congr (fun _ _ _ _ => rfl) fun n hn => ?_)
        have hn : n ∈ slotNames ps := List.mem_filterMap.2 ⟨_, hn, rfl⟩
        rw [SlotMarkup.without]
        split
        · next hname =>
          subst hname
          by_contra hne
          obtain ⟨markup, hm, hmne⟩ : ∃ markup, slots n = some markup ∧ markup ≠ "" := by
            cases hm : slots n with
            | none => rw [hm] at hne; exact absurd rfl hne
            | some markup => exact ⟨markup, rfl, fun e => hne (by rw [hm, e]; rfl)⟩
          have hcount := h n markup hm hmne
          rw [slotNames_slot, List.count_cons_self] at hcount
          have := List.one_le_count_iff.2 hn
          omega
        · rfl
      · rw [SlotMarkup.without] at hn
        split at hn
        · cases hn
        · have hcount := h n markup hn hne
          rw [slotNames_slot, List.count_cons] at hcount
          omega
    · rw [piecesOnce_cons hp, piecesOf_cons hp, ih]
      rw [slotNames_cons hp] at h
      exact h

/-! ## Lengths -/

/-- a piece in the place of another that writes the same, or an empty slot -/
def Piece.Blanks (p q : Piece) : Prop := p = q ∨ p = .slot "" ∧ ∃ markup, q = .slot markup

/-- the slots of the first list are those of the second, some of them empty -/
def Blanked : List Piece → List Piece → Prop := List.Forall₂ Piece.Blanks

theorem Blanked.getElem? {pieces pieces' : List Piece} (h : Blanked pieces pieces') (i : Nat) :
    pieces[i]? = pieces'[i]? ∨ pieces[i]? = some (.slot "") ∧ ∃ markup, pieces'[i]? = some (.slot markup) := by
  induction h generalizing i with
  | nil => exact .inl rfl
  | cons hp _ ih =>
    cases i with
    | zero =>
      rcases hp with rfl | ⟨rfl, markup, rfl⟩
      · exact .inl rfl
      · exact .inr ⟨rfl, markup, rfl⟩
    | succ i => exact ih i

theorem blanked_piecesOnce (props : Props) (ps : List (Placeholder A (Template A)))
    (h : ∀ name, slots name = slots' name ∨ slots name = none) :
    Blanked (piecesOnce props slots ps) (piecesOf props slots' ps) := by
  induction ps generalizing slots with
  | nil => exact .nil
  | cons p ps ih =>
    rcases p.slot?_cases with ⟨name, rfl⟩ | hp
    · rw [piecesOnce, piecesOf_slot]
      refine .cons ?_ (ih fun n => ?_)
      · rcases h name with hn | hn
        · exact .inl (by rw [hn])
        · exact .inr ⟨by rw [hn]; rfl, _, rfl⟩
      · rw [SlotMarkup.without]
        split
        · exact .inr rfl
        · exact h n
    · rw [piecesOnce_cons hp, piecesOf_cons hp]
      exact .cons (.inl rfl) (ih h)

/-- the content of a slot that has more than one placeholder is missing at one of them -/
theorem exists_blank (props : Props) (slots : SlotMarkup) {name : String}
    (h : 1 < (slotNames ps).count name ∨ slots name = none ∧ 0 < (slotNames ps).count name) :
    ∃ i : Nat, ps[i]? = some (.slot name) ∧ (piecesOnce props slots ps)[i]? = some (.slot "") := by
  induction ps generalizing slots with
  | nil =>
    rcases h with h | ⟨-, h⟩
    · exact absurd h (Nat.not_lt_zero _)
    · exact absurd h (Nat.not_lt_zero _)
  | cons p ps ih =>
    rcases p.slot?_cases with ⟨n, rfl⟩ | hp
    · rw [slotNames_slot, List.count_cons] at h
      rw [piecesOnce]
      by_cases hn : n = name
      · subst hn
        rcases h with h | ⟨hnone, -⟩
        · rw [if_pos (beq_self_eq_true n)] at h
          obtain ⟨i, hi, hblank⟩ := ih (slots.without n)
            (.inr ⟨if_pos rfl, Nat.lt_of_succ_lt_succ h⟩)
          exact ⟨i + 1, hi, hblank⟩
        · exact ⟨0, rfl, by rw [hnone]; rfl⟩
      · rw [if_neg (by simpa using hn), Nat.add_zero] at h
        have hsame : slots.without n name = slots name := if_neg (Ne.symm hn)
        obtain ⟨i, hi, hblank⟩ := ih (slots.without n) (by rw [hsame]; exact h)
        exact ⟨i + 1, hi, hblank⟩
    · rw [slotNames_cons hp] at h
      obtain ⟨i, hi, hblank⟩ := ih slots h
      exact ⟨i + 1, hi, by rw [piecesOnce_cons hp]; exact hblank⟩

theorem getElem?_piecesOf (props : Props) (slots : SlotMarkup) {name : String} {i : Nat} (h : ps[i]? = some (.slot name)) :
    (piecesOf props slots ps)[i]? = some (.slot ((slots name).getD "")) := by
  induction ps generalizing i with
  | nil => cases h
  | cons p ps ih =>
    cases i with
    | zero =>
      obtain rfl : p = .slot name := Option.some.inj h
      rw [piecesOf_slot]
      rfl
    | succ i =>
      rcases p.slot?_cases with ⟨n, rfl⟩ | hp
      · rw [piecesOf_slot]
        exact ih h
      · rw [piecesOf_cons hp]
        exact ih h

end

section

variable {pieces pieces' : List Piece}

theorem Blanked.boundAttribute?_eq (h : Blanked pieces pieces') (name : String) :
    boundAttribute? pieces name = boundAttribute? pieces' name := by
  unfold boundAttribute?
  rcases ofAttribute? name with - | ⟨category, index⟩
  · rfl
  · cases category <;> try rfl
    rcases h.getElem? index with hi | ⟨hi, markup, hi'⟩
    · dsimp only
      rw [hi]
    · dsimp only
      rw [hi, hi']

theorem Blanked.boundNames_eq (h : Blanked pieces pieces') (as : Attributes) :
    boundNames pieces as = boundNames pieces' as :=
  List.filterMap_congr fun a _ => by rw [h.boundAttribute?_eq]

theorem Blanked.settleAttributes_eq (h : Blanked pieces pieces') (bound : List String) (as : Attributes) :
    settleAttributes pieces bound as = settleAttributes pieces' bound as := by
  induction as with
  | nil => rfl
  | cons a as ih => rw [settleAttributes, settleAttributes, ih, h.boundAttribute?_eq, h.boundNames_eq]

theorem Blanked.length_writeMarker (h : Blanked pieces pieces') (parent : Option String) (m : Marker) :
    (writeMarker pieces parent m).length ≤ (writeMarker pieces' parent m).length := by
  unfold writeMarker
  rcases h.getElem? m.index with hi | ⟨hi, markup, hi'⟩
  · rw [hi]
  · rw [hi, hi']
    cases m.category <;> exact Nat.zero_le _

mutual
theorem Blanked.length_writeNode (h : Blanked pieces pieces') : (n : Markup.Node) → (parent : Option String) →
    (writeNode pieces parent n).length ≤ (writeNode pieces' parent n).length
  | .element tag attributes children, parent => by
    rw [writeNode, writeNode]
    cases ofTag? tag with
    | some m => exact h.length_writeMarker parent m
    | none =>
      have hchildren := h.length_writeNodes children (some tag)
      dsimp only
      rw [h.boundNames_eq, h.settleAttributes_eq]
      simp only [String.length_append]
      omega
  | .text data, parent => by rw [writeNode, writeNode]
  | .comment data, parent => by rw [writeNode, writeNode]
/-- with emptier slots, no more is written -/
theorem Blanked.length_writeNodes (h : Blanked pieces pieces') : (ns : List Markup.Node) → (parent : Option String) →
    (writeNodes pieces parent ns).length ≤ (writeNodes pieces' parent ns).length
  | [], _ => Nat.le_refl _
  | n :: ns, parent => by
    have hn := h.length_writeNode n parent
    have hns := h.length_writeNodes ns parent
    rw [writeNodes, writeNodes, String.length_append, String.length_append]
    omega
end

variable {i : Nat} {markup : String}

mutual
theorem Blanked.length_writeNode_lt (h : Blanked pieces pieces') (hi : pieces[i]? = some (.slot ""))
    (hi' : pieces'[i]? = some (.slot markup)) (hne : markup ≠ "") : (n : Markup.Node) → (parent : Option String) →
      n.Exposes ⟨.slot, i⟩ → (writeNode pieces parent n).length < (writeNode pieces' parent n).length
  | .element tag attributes children, parent, hm => by
    rw [writeNode, writeNode]
    rcases hm with hm | ⟨hm, hchildren⟩
    · rw [hm]
      dsimp only [writeMarker]
      rw [hi, hi']
      have hlength : markup.length ≠ 0 := fun hz => hne (String.length_eq_zero_iff.1 hz)
      show 0 < markup.length
      omega
    · rw [hm]
      have hlt := h.length_writeNodes_lt hi hi' hne children (some tag) hchildren
      dsimp only
      rw [h.boundNames_eq, h.settleAttributes_eq]
      simp only [String.length_append]
      omega
/-- where a slot is emptier, less is written -/
theorem Blanked.length_writeNodes_lt (h : Blanked pieces pieces') (hi : pieces[i]? = some (.slot ""))
    (hi' : pieces'[i]? = some (.slot markup)) (hne : markup ≠ "") : (ns : List Markup.Node) → (parent : Option String) →
      Exposes ⟨.slot, i⟩ ns → (writeNodes pieces parent ns).length < (writeNodes pieces' parent ns).length
  | n :: ns, parent, hm => by
    have hn := h.length_writeNode n parent
    have hns := h.length_writeNodes ns parent
    rw [writeNodes, writeNodes, String.length_append, String.length_append]
    rcases hm with hm | hm
    · have := h.length_writeNode_lt hi hi' hne n parent hm
      omega
    · have := h.length_writeNodes_lt hi hi' hne ns parent hm
      omega
end

end

namespace Template

/-- **When slots may be filled once.** The two renderings are the same iff each slot with content that is not empty has
one placeholder at most. -/
theorem renderOnce_eq_render_iff {t : Template A} (hs : t.Sound) (props : Props) (slots : SlotMarkup) :
    t.renderOnce props slots = t.render props slots ↔
      ∀ name markup, slots name = some markup → markup ≠ "" → (slotNames t.placeholders).count name ≤ 1 := by
  have hrender : t.render props slots = writeNodes (piecesOf props slots t.placeholders) none t.skeleton := by
    cases t with
    | mk segments placeholders skeleton => rw [render]
  rw [hrender, renderOnce]
  constructor
  · intro heq name markup hname hne
    by_contra hcount
    obtain ⟨i, hi, hblank⟩ := exists_blank props slots (.inl (Nat.lt_of_not_le hcount))
    have hfull := getElem?_piecesOf props slots hi
    rw [hname] at hfull
    have hm : (⟨.slot, i⟩ : Marker) ∈ markersOfAll t.skeleton := by
      rw [hs.markers]
      exact mem_markersFor_zero.2 ⟨_, hi, rfl⟩
    have hlt := (blanked_piecesOnce props t.placeholders fun name => .inl (Eq.refl (slots name))).length_writeNodes_lt
      hblank hfull hne t.skeleton none (exposes_of_clean rfl _ hs.clean hm)
    rw [heq] at hlt
    exact Nat.lt_irrefl _ hlt
  · intro h
    rw [piecesOnce_eq_piecesOf h]

end Template

/-! ## Texts as contents -/

def textMarkup (texts : Entries String) : SlotMarkup := fun name => (texts.get? name).map (escape .content)

/-- gives the slot placeholders, from number `index` on, their texts; the first placeholder of a name has the text -/
def handOut (index : Nat) : List (Placeholder A T) → Entries String → List (Nat × String)
  | [], _ => []
  | .slot name :: ps, texts =>
    match texts.get? name with
    | some data => (index, data) :: handOut (index + 1) ps (texts.erase name)
    | none => handOut (index + 1) ps texts
  | _ :: ps, texts => handOut (index + 1) ps texts

/-- what placeholders stand for if each text is given to the first placeholder of its slot -/
def partsOnce (props : Props) (texts : Entries String) : List (Placeholder A (Template A)) → List Part
  | [] => []
  | .slot name :: ps => .slot ((texts.get? name).map .text).toList :: partsOnce props (texts.erase name) ps
  | p :: ps => p.part props :: partsOnce props texts ps

theorem textMarkup_without (texts : Entries String) (name : String) :
    (textMarkup texts).without name = textMarkup (texts.erase name) := by
  funext n
  rw [SlotMarkup.without, textMarkup, textMarkup, Entries.get?_erase]
  split
  · rfl
  · rfl

section

variable {p : Placeholder A (Template A)} {ps : List (Placeholder A (Template A))}

theorem partsOnce_cons (props : Props) (texts : Entries String) (hp : p.slot? = none) :
    partsOnce props texts (p :: ps) = p.part props :: partsOnce props texts ps := by
  rw [partsOnce]
  rintro name rfl
  cases hp

theorem handOut_cons (index : Nat) (texts : Entries String) (hp : p.slot? = none) :
    handOut index (p :: ps) texts = handOut (index + 1) ps texts := by
  rw [handOut]
  rintro name rfl
  cases hp

theorem le_of_mem_handOut {index : Nat} {texts : Entries String} {e : Nat × String} (h : e ∈ handOut index ps texts) :
    index ≤ e.1 := by
  induction ps generalizing index texts with
  | nil => cases h
  | cons p ps ih =>
    rcases p.slot?_cases with ⟨name, rfl⟩ | hp
    · rw [handOut] at h
      split at h
      · rcases List.mem_cons.1 h with rfl | h
        · exact Nat.le_refl _
        · exact Nat.le_of_succ_le (ih h)
      · exact Nat.le_of_succ_le (ih h)
    · rw [handOut_cons index texts hp] at h
      exact Nat.le_of_succ_le (ih h)

theorem lookup_handOut_of_lt {index i : Nat} (texts : Entries String) (h : i < index) :
    (handOut index ps texts).lookup i = none :=
  lookup_eq_none fun hin => by
    obtain ⟨e, he, rfl⟩ := List.mem_map.1 hin
    exact Nat.not_lt.2 (le_of_mem_handOut he) h

/-- what a slot placeholder stands for is the text that it was given -/
theorem getElem?_partsOnce_slot {props : Props} {texts : Entries String} {name : String} (index : Nat) {i : Nat}
    (h : ps[i]? = some (.slot name)) : (partsOnce props texts ps)[i]? =
      some (.slot (((handOut index ps texts).lookup (index + i)).map .text).toList) := by
  induction ps generalizing index i texts with
  | nil => cases h
  | cons p ps ih =>
    rcases p.slot?_cases with ⟨n, rfl⟩ | hp
    · rw [partsOnce, handOut]
      cases i with
      | zero =>
        obtain rfl := Placeholder.slot.inj (Option.some.inj h)
        cases hget : texts.get? n with
        | none =>
          dsimp only
          rw [Nat.add_zero, lookup_handOut_of_lt texts (Nat.lt_add_one index)]
          rfl
        | some data =>
          dsimp only
          rw [Nat.add_zero, List.lookup_cons_self]
          rfl
      | succ i =>
        have hshift : index + (i + 1) = index + 1 + i := by omega
        rw [hshift, List.getElem?_cons_succ, ih (index + 1) h]
        cases hget : texts.get? n with
        | none => rw [Entries.erase_of_not_mem (Entries.get?_eq_none_iff.1 hget)]
        | some data =>
          dsimp only
          rw [List.lookup_cons, beq_false_of_ne (show index + 1 + i ≠ index by omega)]
    · rw [partsOnce_cons props texts hp, handOut_cons index texts hp]
      cases i with
      | zero =>
        obtain rfl := Option.some.inj h
        cases hp
      | succ i =>
        rw [show index + (i + 1) = index + 1 + i by omega]
        exact ih (index + 1) h

theorem getElem?_partsOnce {props : Props} {texts : Entries String} {i : Nat} (h : ps[i]? = some p)
    (hp : p.slot? = none) : (partsOnce props texts ps)[i]? = some (p.part props) := by
  induction ps generalizing i texts with
  | nil => cases h
  | cons q ps ih =>
    cases i with
    | zero =>
      obtain rfl : q = p := Option.some.inj h
      rw [partsOnce_cons props texts hp]
      rfl
    | succ i =>
      rcases q.slot?_cases with ⟨n, rfl⟩ | hq
      · rw [partsOnce]
        exact ih h
      · rw [partsOnce_cons props texts hq]
        exact ih h

theorem length_partsOnce (props : Props) (texts : Entries String) : (partsOnce props texts ps).length = ps.length := by
  induction ps generalizing texts with
  | nil => rfl
  | cons p ps ih =>
    rcases p.slot?_cases with ⟨n, rfl⟩ | hp
    · rw [partsOnce, List.length_cons, List.length_cons, ih]
    · rw [partsOnce_cons props texts hp, List.length_cons, List.length_cons, ih]

/-- texts do not change which attributes are bound -/
theorem bindingOf?_partsOnce (props : Props) (texts : Entries String) (name : String) :
    bindingOf? (partsOnce props texts ps) name = bindingOf? (partsOf props ps) name := by
  unfold bindingOf?
  split
  · next index _ =>
    rw [partsOf_eq_map, List.getElem?_map]
    cases hp : ps[index]? with
    | none =>
      rw [List.getElem?_eq_none_iff, ← length_partsOnce props texts] at hp
      rw [List.getElem?_eq_none hp]
      rfl
    | some p =>
      rcases p.slot?_cases with ⟨n, rfl⟩ | hslot
      · rw [getElem?_partsOnce_slot 0 hp]
        rfl
      · rw [getElem?_partsOnce hp hslot]
        rfl
  · rfl

/-- texts are written as text nodes -/
theorem writes_partsOnce (hps : Template.EverywhereIn (fun t => WellFormed t.skeleton) ps) (props : Props)
    (texts : Entries String) : Writes (piecesOnce props (textMarkup texts) ps) (partsOnce props texts ps) := by
  induction ps generalizing texts with
  | nil => exact .nil
  | cons p ps ih =>
    rcases p.slot?_cases with ⟨name, rfl⟩ | hp
    · rw [piecesOnce, partsOnce, textMarkup_without]
      refine .cons (.inl ?_) (ih hps (texts.erase name))
      rw [textMarkup, Part.piece]
      cases texts.get? name with
      | none => rfl
      | some data => exact congrArg Piece.slot (String.append_empty).symm
    · rw [piecesOnce_cons hp, partsOnce_cons props texts hp]
      cases p with
      | slot name => cases hp
      | child t bindings =>
        exact .cons (.inl (congrArg Piece.child (t.render_eq_print hps.1 (childProps bindings props)))) (ih hps.2 texts)
      | _ => exact .cons (.inl rfl) (ih hps texts)

end

namespace Template

/-- rendering each text once writes the skeleton with each text at the first placeholder of its slot -/
theorem renderOnce_eq_print {t : Template A} (hw : t.Everywhere fun t => WellFormed t.skeleton) (props : Props)
    (texts : Entries String) :
    t.renderOnce props (textMarkup texts) = print (fillNodes (partsOnce props texts t.placeholders) t.skeleton) := by
  cases t with
  | mk segments placeholders skeleton => exact writeNodes_eq (writes_partsOnce hw.2 props texts) skeleton hw.1 none rfl

end Template

end LiveMarkup
