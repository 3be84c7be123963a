/-
Whether the markers of a skeleton are found by their names.

A definition is accepted if each marker is in the skeleton once, under any name that is read as the marker. Mounting
looks for the exact name, one marker after another, in a skeleton that it is already changing: text markers are gone once
their turn is over, with all that is below them, and a bound attribute may bring a name back. `Findable` says that each
search has something to find.

- `Accepted.marked`: each marker is in an accepted skeleton once;
- `has_fillBy_planted`: what is found in a live skeleton, said of the skeleton;
- `Sound.findable`: where skeletons are sound, all markers are found.
-/
import LiveMarkup.Proofs.Template.Planted

namespace LiveMarkup

open Markup Marker Forest

variable {A : Type}

/-! ## What a search comes to -/

mutual
def Markup.Node.Offers (gone : Marker → Prop) (m : Marker) : Markup.Node → Prop
  | .element tag attributes children =>
    (∀ k, ofTag? tag = some k → ¬ gone k) ∧
      ((Kind.element tag attributes).answers m = true ∨ Offers gone m children)
  | .text _ => False
  | .comment _ => False
/-- a search for a marker comes to something in a forest, where the markers in `gone` are gone -/
def Offers (gone : Marker → Prop) (m : Marker) : List Markup.Node → Prop
  | [] => False
  | n :: ns => n.Offers gone m ∨ Offers gone m ns
end

namespace Forest

variable {f g : Forest Bare} {m : Marker} {fills : List (Marker × Forest Bare)}

theorem not_has_nil : ¬ (nil : Forest Bare).Has m := fun ⟨_, h, _⟩ => absurd h List.not_mem_nil

theorem has_append : (f ++ g).Has m ↔ f.Has m ∨ g.Has m := by
  simp only [Has, labels_append, List.mem_append, or_and_right, exists_or]

theorem has_tree {n : Bare} : (tree n f).Has m ↔ n.kind.answers m = true ∨ f.Has m := by
  simp only [Has, labels_tree, List.mem_cons, or_and_right, exists_or, exists_eq_left]

mutual
theorem has_fillBy_plantNode {gone : Marker → Prop} (hg : ∀ k, gone k ↔ fills.lookup k ≠ none)
    (hf : ∀ e ∈ fills, ¬ e.2.Has m) : (n : Markup.Node) → (id : NodeId) →
      (((Document.plant.plantNode n id).1.fillBy fills).Has m ↔ n.Offers gone m)
  | .element tag attributes children, id => by
    have ih := has_fillBy_planted hg hf children (id + 1)
    rw [planted] at ih
    rw [Document.plant.plantNode, Markup.Node.Offers]
    cases hx : (ofTag? tag).bind (fills.lookup ·) with
    | some x =>
      obtain ⟨k, hk, hl⟩ := Option.bind_eq_some_iff.1 hx
      rw [fillBy, fill_tree_of_some (x := x) hx]
      refine ⟨fun h => absurd h (hf _ (mem_of_lookup hl)), fun h => absurd ((hg k).2 ?_) (h.1 k hk)⟩
      rw [hl]
      exact Option.some_ne_none x
    | none =>
      have hgone : ∀ k, ofTag? tag = some k → ¬ gone k := fun k hk h => by
        rw [hk] at hx
        exact (hg k).1 h hx
      rw [fillBy, fill_tree_of_none hx, has_tree]
      exact ⟨fun h => ⟨hgone, h.imp_right ih.1⟩, fun h => h.2.imp_right ih.2⟩
  | .text _, _ => by
    refine ⟨fun ⟨k, hk, ha⟩ => ?_, fun h => h.elim⟩
    cases List.mem_singleton.1 hk
    simp [Kind.answers, Kind.tag?, Kind.attributes] at ha
  | .comment _, _ => by
    refine ⟨fun ⟨k, hk, ha⟩ => ?_, fun h => h.elim⟩
    cases List.mem_singleton.1 hk
    simp [Kind.answers, Kind.tag?, Kind.attributes] at ha
/-- what a search comes to in a live skeleton is what it comes to in the skeleton without the markers that are filled -/
theorem has_fillBy_planted {gone : Marker → Prop} (hg : ∀ k, gone k ↔ fills.lookup k ≠ none)
    (hf : ∀ e ∈ fills, ¬ e.2.Has m) : (ns : List Markup.Node) → (id : NodeId) →
      (((planted ns id).fillBy fills).Has m ↔ Offers gone m ns)
  | [], _ => ⟨fun h => absurd h not_has_nil, fun h => h.elim⟩
  | n :: ns, id => by
    have ih := has_fillBy_planted hg hf ns (Document.plant.plantNode (L := Empty) n id).2
    rw [planted] at ih
    rw [planted, Document.plant, Offers, ← has_fillBy_plantNode hg hf n id, ← ih, ← has_append, fillBy, fill_append]
    rfl
end

end Forest

/-! ## Markers around markers -/

mutual
def Markup.Node.Exposes (m : Marker) : Markup.Node → Prop
  | .element tag _ children => ofTag? tag = some m ∨ (ofTag? tag = none ∧ Exposes m children)
  | .text _ => False
  | .comment _ => False
/-- the element of a marker is in a forest, and no marker is around it -/
def Exposes (m : Marker) : List Markup.Node → Prop
  | [] => False
  | n :: ns => n.Exposes m ∨ Exposes m ns
end

namespace Forest

variable {m : Marker} {fills : List (Marker × Forest Bare)}

mutual
theorem exposed_plantNode (hm : fills.lookup m = none) (α : NodeId → Attributes → Attributes) :
    (n : Markup.Node) → (id : NodeId) → n.Exposes m →
      ∃ k ∈ (Document.plant.plantNode (L := Empty) n id).1.labels, k.kind.marker? = some m ∧
        k.id ∈ (((Document.plant.plantNode n id).1.attrs α).fillBy fills).ids
  | .element tag attributes children, id, h => by
    rw [Document.plant.plantNode]
    rw [Markup.Node.Exposes] at h
    have hnone : (ofTag? tag).bind (fills.lookup ·) = none := by
      rcases h with h | ⟨h, -⟩ <;> rw [h]
      · exact hm
      · rfl
    have hfill := fill_tree_of_none
      (e := fun n : Bare => n.kind.marker?.bind (fills.lookup ·)) (a := ⟨id, .element tag (α id attributes), [], 0⟩)
      hnone (((Document.plant children (id + 1)).1).attrs α)
    rcases h with h | ⟨-, h⟩
    · refine ⟨_, List.mem_cons_self, h, ?_⟩
      show id ∈ ((tree ⟨id, .element tag (α id attributes), [], 0⟩
        (((Document.plant children (id + 1)).1).attrs α)).fillBy fills).ids
      rw [fillBy, hfill, ids_tree]
      exact List.mem_cons_self
    · obtain ⟨k, hk, hmark, hin⟩ := exposed_planted hm α children (id + 1) h
      refine ⟨k, ?_, hmark, ?_⟩
      · rw [labels_tree]
        exact List.mem_cons_of_mem _ hk
      · show k.id ∈ ((tree ⟨id, .element tag (α id attributes), [], 0⟩
          (((Document.plant children (id + 1)).1).attrs α)).fillBy fills).ids
        rw [fillBy, hfill, ids_tree]
        exact List.mem_cons_of_mem _ hin
  | .text _, _, h => h.elim
  | .comment _, _, h => h.elim
/-- an exposed marker that is not filled is in a live skeleton, whatever else is filled -/
theorem exposed_planted (hm : fills.lookup m = none) (α : NodeId → Attributes → Attributes) :
    (ns : List Markup.Node) → (id : NodeId) → Exposes m ns →
      ∃ k ∈ (planted ns id).labels, k.kind.marker? = some m ∧ k.id ∈ (((planted ns id).attrs α).fillBy fills).ids
  | [], _, h => h.elim
  | n :: ns, id, h => by
    have hsplit : (planted (n :: ns) id) = (Document.plant.plantNode n id).1 ++
        planted ns (Document.plant.plantNode (L := Empty) n id).2 := rfl
    rw [hsplit, attrs, map_append, fillBy, fill_append, ids_append, labels_append]
    rcases h with h | h
    · obtain ⟨k, hk, hmark, hin⟩ := exposed_plantNode hm α n id h
      exact ⟨k, List.mem_append_left _ hk, hmark, List.mem_append_left _ hin⟩
    · obtain ⟨k, hk, hmark, hin⟩ := exposed_planted hm α ns _ h
      exact ⟨k, List.mem_append_right _ hk, hmark, List.mem_append_right _ hin⟩
end

end Forest

mutual
theorem exposes_node {m : Marker} (hm : m.category.inTag = false) :
    (n : Markup.Node) → n.Clean → m ∈ markersOf n → n.Exposes m
  | .element tag attributes children, ⟨ht, _, hc⟩, h => by
    rw [markersOf, List.append_assoc, List.mem_append, List.mem_append, Option.mem_toList] at h
    rw [Markup.Node.Exposes]
    rcases h with h | h | h
    · exact .inl h
    · obtain ⟨a, -, ham⟩ := List.mem_filterMap.1 h
      have := (ofAttribute?_eq_some_iff.1 ham).1
      rw [hm] at this
      cases this
    · refine .inr ⟨?_, exposes_of_clean hm children hc h⟩
      cases htag : ofTag? tag with
      | none => rfl
      | some k =>
        obtain ⟨-, -, rfl⟩ := ht k htag
        cases h
  | .text _, _, h => by cases h
  | .comment _, _, h => by cases h
/-- in a clean skeleton, no marker is around another -/
theorem exposes_of_clean {m : Marker} (hm : m.category.inTag = false) :
    (ns : List Markup.Node) → Clean ns → m ∈ markersOfAll ns → Exposes m ns
  | [], _, h => by cases h
  | n :: ns, ⟨hn, hns⟩, h => by
    rw [markersOfAll, List.mem_append] at h
    exact h.imp (exposes_node hm n hn) (exposes_of_clean hm ns hns)
end

/-! ## Templates -/

namespace Template

/-- a template and those embedded in it, at any depth, by child markers that have no marker around them -/
inductive Exposed : Template A → Template A → Prop
  | self (t : Template A) : Exposed t t
  | child {t u v : Template A} {i : Nat} {bindings : List Binding} (hi : t.placeholders[i]? = some (.child u bindings))
      (he : Exposes ⟨.child, i⟩ t.skeleton) (h : Exposed u v) : Exposed t v

/-- no child's marker has a marker around it -/
def Open (t : Template A) : Prop :=
  ∀ (i : Nat) u bindings, t.placeholders[i]? = some (.child u bindings) → Exposes ⟨.child, i⟩ t.skeleton

mutual
/-- where no child's marker has a marker around it, all embedded templates are exposed -/
theorem Everywhere.of_exposed {P : Template A → Prop} : (t : Template A) → t.Everywhere Open →
    (∀ u, t.Exposed u → P u) → t.Everywhere P
  | ⟨segments, placeholders, skeleton⟩, ⟨ho, hos⟩, h => by
    refine ⟨h _ (.self _), EverywhereIn.of_exposed placeholders hos fun u bindings hu v hv => h v ?_⟩
    obtain ⟨i, hi⟩ := List.mem_iff_getElem?.1 hu
    exact .child (t := ⟨segments, placeholders, skeleton⟩) hi (ho i u bindings hi) hv
theorem EverywhereIn.of_exposed {P : Template A → Prop} : (ps : List (Placeholder A (Template A))) →
    EverywhereIn Open ps → (∀ u bindings, .child u bindings ∈ ps → ∀ v, u.Exposed v → P v) → EverywhereIn P ps
  | [], _, _ => trivial
  | .child t bindings :: ps, ⟨ht, hps⟩, h =>
    ⟨Everywhere.of_exposed t ht (h t bindings List.mem_cons_self),
      EverywhereIn.of_exposed ps hps fun u bs hu => h u bs (List.mem_cons_of_mem _ hu)⟩
  | .text _ :: ps, hps, h => EverywhereIn.of_exposed ps hps fun u bs hu => h u bs (List.mem_cons_of_mem _ hu)
  | .attribute _ _ :: ps, hps, h => EverywhereIn.of_exposed ps hps fun u bs hu => h u bs (List.mem_cons_of_mem _ hu)
  | .event _ _ :: ps, hps, h => EverywhereIn.of_exposed ps hps fun u bs hu => h u bs (List.mem_cons_of_mem _ hu)
  | .action _ _ :: ps, hps, h => EverywhereIn.of_exposed ps hps fun u bs hu => h u bs (List.mem_cons_of_mem _ hu)
  | .slot _ :: ps, hps, h => EverywhereIn.of_exposed ps hps fun u bs hu => h u bs (List.mem_cons_of_mem _ hu)
end

/-- each marker is in the skeleton once -/
def Marked (t : Template A) : Prop := ∀ m ∈ markersFor 0 t.placeholders, (markersOfAll t.skeleton).count m = 1

/-- the text markers that are gone when the turn of `m` comes -/
def GoneBefore (t : Template A) (m k : Marker) : Prop :=
  k ∈ markersFor 0 t.placeholders ∧ k.category = .text ∧ (m.category = .text → k.index < m.index)

/-- an attribute that is bound before the turn of `m` comes has the name that is searched for -/
def Restores (t : Template A) (m : Marker) : Prop :=
  m.category.inTag = true ∧ ∃ j prop, t.placeholders[j]? = some (.attribute prop m.name) ∧
    (m.category = .attribute → j < m.index)

/-- when its turn comes, the name of each marker leads somewhere -/
def Findable (t : Template A) : Prop :=
  ∀ m ∈ markersFor 0 t.placeholders, Offers (t.GoneBefore m) m t.skeleton ∨ t.Restores m

theorem Accepted.marked {t : Template A} (h : t.Accepted) : t.Marked := by
  obtain ⟨segments, holes, h⟩ := h
  obtain ⟨-, -, -, -, hm⟩ := define_cases h
  exact checkMarkers_eq_ok_iff.1 hm

theorem Sound.marked {t : Template A} (h : t.Sound) : t.Marked := by
  intro m hm
  rw [h.markers]
  exact List.count_eq_one_of_mem (nodup_markersFor 0 t.placeholders) hm

end Template

/-! ## A marker that is not found -/

namespace Template

/-- a text whose marker stands in a comment, next to an element that is read as the marker -/
def commentedOut : Template A :=
  ⟨["<!--", "--><mc-text-00></mc-text-00>"], [.text "x"],
    [.comment "<mc-text-0></mc-text-0>", .element "mc-text-00" [] []]⟩

theorem commentedOut_accepted : (commentedOut : Template A).Everywhere Accepted := by
  refine ⟨⟨["<!--", "--><mc-text-00></mc-text-00>"], [.name "x"],
    define_eq_ok (c := ⟨["<!--", "--><mc-text-00></mc-text-00>"], [.text "x"]⟩) rfl ?_ rfl⟩, trivial⟩
  rw [skeletonSource_congr ([.text ""] : List (Placeholder Unit Unit)) rfl]
  show read (skeletonSource 0 ["<!--", "--><mc-text-00></mc-text-00>"] _) = _
  decide +kernel

theorem commentedOut_not_findable : ¬ (commentedOut : Template A).Findable := by
  intro h
  have hname : (Kind.element "mc-text-00" []).answers ⟨.text, 0⟩ = false := by decide +kernel
  rcases h ⟨.text, 0⟩ List.mem_cons_self with (h | ⟨-, h | h⟩ | h) | h
  · exact h
  · exact Bool.false_ne_true (hname.symm.trans h)
  · exact h
  · exact h
  · cases h.1

end Template

/-! ## Sound skeletons -/

mutual
theorem offers_node {gone : Marker → Prop} {m : Marker} (hg : ∀ k, gone k → k.category.inTag = false ∧ k ≠ m) :
    (n : Markup.Node) → n.Clean → m ∈ markersOf n → n.Offers gone m
  | .element tag attributes children, ⟨ht, ha, hc⟩, hm => by
    rw [markersOf, List.append_assoc, List.mem_append, List.mem_append, Option.mem_toList] at hm
    rw [Markup.Node.Offers]
    rcases hm with hm | hm | hm
    · obtain ⟨rfl, -, -⟩ := ht m hm
      have hin := (ofTag?_eq_some_iff.1 hm).1
      refine ⟨fun k hk hgone => (hg k hgone).2 (Option.some.inj (hk.symm.trans hm)), .inl ?_⟩
      simp [Kind.answers, hin, Kind.tag?]
    · obtain ⟨a, haa, ham⟩ := List.mem_filterMap.1 hm
      refine ⟨fun k hk => ?_, .inl ((Kind.answers_inTag (ofAttribute?_eq_some_iff.1 ham).1).2 ?_)⟩
      · obtain ⟨-, rfl, -⟩ := ht k hk
        cases haa
      · rw [← ha a haa m ham]
        exact List.mem_map_of_mem haa
    · refine ⟨fun k hk => ?_, .inr (offers hg children hc hm)⟩
      obtain ⟨-, -, rfl⟩ := ht k hk
      cases hm
  | .text _, _, hm => by cases hm
  | .comment _, _, hm => by cases hm
/-- in a clean skeleton, a search for a marker that it carries comes to something -/
theorem offers {gone : Marker → Prop} {m : Marker} (hg : ∀ k, gone k → k.category.inTag = false ∧ k ≠ m) :
    (ns : List Markup.Node) → Clean ns → m ∈ markersOfAll ns → Offers gone m ns
  | [], _, hm => by cases hm
  | n :: ns, ⟨hn, hns⟩, hm => by
    rw [markersOfAll, List.mem_append] at hm
    exact hm.imp (offers_node hg n hn) (offers hg ns hns)
end

namespace Template

/-- where the skeleton is sound, all markers are found -/
theorem Sound.findable {t : Template A} (h : t.Sound) : t.Findable := by
  intro m hm
  refine .inl (offers (fun k hk => ⟨by rw [hk.2.1]; rfl, ?_⟩) t.skeleton h.clean (h.markers ▸ hm))
  rintro rfl
  exact Nat.lt_irrefl _ (hk.2.2 hk.2.1)

end Template

end LiveMarkup
