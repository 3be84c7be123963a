/-
Forests with distinct labels.

The subtrees of a forest are listed in document order, so every look-up is a search in that list, and a search for
something that occurs once does not depend on the order (`find?_eq_subtrees`, `parentOf?_eq_subtrees`). Two forests are
the same up to the order of their roots if their lists of trees are permutations of each other; `Same` is kept by every
operation.

`fill` replaces nodes by forests, all at once and from the outside in. Taking nodes out is filling with nothing
(`prune_eq_fill`), filling twice is filling once (`fill_fill`), and putting a tree before a node and then taking that
node out is replacing it (`prune_graft_insertBefore`).
-/
import Mathlib.Algebra.Order.Group.Multiset
import Mathlib.Data.List.Flatten
import Mathlib.Data.List.Nodup
import Mathlib.Data.List.Perm.Basic
import Mathlib.Tactic.Abel
import LiveMarkup.Document.Forest

namespace LiveMarkup.Forest

variable {α β : Type}

/-! ## Appending -/

@[simp] theorem nil_append (g : Forest α) : nil ++ g = g := rfl

@[simp] theorem cons_append (a : α) (cs rest g : Forest α) : cons a cs rest ++ g = cons a cs (rest ++ g) := rfl

@[simp] theorem append_nil (f : Forest α) : f ++ nil = f := by
  induction f with
  | nil => rfl
  | cons a cs rest _ ih => rw [cons_append, ih]

theorem append_assoc (f g h : Forest α) : f ++ g ++ h = f ++ (g ++ h) := by
  induction f with
  | nil => rfl
  | cons a cs rest _ ih => rw [cons_append, cons_append, cons_append, ih]

theorem tree_append (a : α) (cs rest : Forest α) : tree a cs ++ rest = cons a cs rest := rfl

@[simp] theorem labels_tree (a : α) (cs : Forest α) : (tree a cs).labels = a :: cs.labels := by
  simp [tree, labels]

/-! ## Trees and subtrees -/

/-- the trees of a forest: the label of each root and what is below it -/
def trees : Forest α → List (α × Forest α)
  | nil => []
  | cons a cs rest => (a, cs) :: rest.trees

/-- all subtrees in document order -/
def subtrees : Forest α → List (α × Forest α)
  | nil => []
  | cons a cs rest => (a, cs) :: (cs.subtrees ++ rest.subtrees)

/-- the same trees in some order -/
def Same (f g : Forest α) : Prop := f.trees.Perm g.trees

@[simp] theorem trees_append (f g : Forest α) : (f ++ g).trees = f.trees ++ g.trees := by
  induction f with
  | nil => rfl
  | cons a cs rest _ ih => rw [cons_append, trees, ih]; rfl

@[simp] theorem trees_tree (a : α) (cs : Forest α) : (tree a cs).trees = [(a, cs)] := rfl

theorem subtrees_append (f g : Forest α) : (f ++ g).subtrees = f.subtrees ++ g.subtrees := by
  induction f with
  | nil => rfl
  | cons a cs rest _ ih => rw [cons_append, subtrees, ih, subtrees, List.cons_append, List.append_assoc]

theorem roots_eq_trees (f : Forest α) : f.roots = f.trees.map (·.1) := by
  induction f with
  | nil => rfl
  | cons a cs rest _ ih => rw [roots, trees, ih]; rfl

theorem labels_eq_subtrees (f : Forest α) : f.labels = f.subtrees.map (·.1) := by
  induction f with
  | nil => rfl
  | cons a cs rest ihc ihr => rw [labels, subtrees, ihc, ihr, List.map_cons, List.map_append]

theorem subtrees_eq_trees (f : Forest α) : f.subtrees = f.trees.flatMap fun t => t :: t.2.subtrees := by
  induction f with
  | nil => rfl
  | cons a cs rest _ ih => rw [subtrees, trees, List.flatMap_cons, ih]; rfl

theorem trees_subset_subtrees (f : Forest α) : f.trees ⊆ f.subtrees := by
  intro t ht
  rw [subtrees_eq_trees]
  exact List.mem_flatMap.2 ⟨t, ht, List.mem_cons_self⟩

theorem find?_eq_subtrees (pick : α → Bool) (f : Forest α) : f.find? pick = f.subtrees.find? (pick ·.1) := by
  induction f with
  | nil => rfl
  | cons a cs rest ihc ihr =>
    rw [find?, subtrees, List.find?_cons, List.find?_append, ihc, ihr]
    cases pick a <;> rfl

theorem parentOf?_eq_subtrees (pick : α → Bool) (f : Forest α) :
    f.parentOf? pick = (f.subtrees.find? (·.2.roots.any pick)).map (·.1) := by
  induction f with
  | nil => rfl
  | cons a cs rest ihc ihr =>
    rw [parentOf?, subtrees, List.find?_cons, List.find?_append, ihc, ihr]
    cases cs.roots.any pick
    · cases List.find? (·.2.roots.any pick) cs.subtrees <;> rfl
    · rfl

/-- what is below a subtree is a subtree -/
theorem subtrees_trans {f : Forest α} {a b : α} {cs ds : Forest α} (h : (a, cs) ∈ f.subtrees)
    (h' : (b, ds) ∈ cs.subtrees) : (b, ds) ∈ f.subtrees := by
  induction f with
  | nil => cases h
  | cons e es rest ihc ihr =>
    rw [subtrees] at h ⊢
    rcases List.mem_cons.1 h with h | h
    · cases h
      exact List.mem_cons_of_mem _ (List.mem_append_left _ h')
    · rcases List.mem_append.1 h with h | h
      · exact List.mem_cons_of_mem _ (List.mem_append_left _ (ihc h))
      · exact List.mem_cons_of_mem _ (List.mem_append_right _ (ihr h))

theorem labels_subset_of_subtree {f : Forest α} {a : α} {cs : Forest α} (h : (a, cs) ∈ f.subtrees) :
    cs.labels ⊆ f.labels := by
  intro b hb
  rw [labels_eq_subtrees] at hb ⊢
  obtain ⟨t, ht, rfl⟩ := List.mem_map.1 hb
  exact List.mem_map_of_mem (subtrees_trans h ht)

theorem mem_labels_of_subtree {f : Forest α} {a : α} {cs : Forest α} (h : (a, cs) ∈ f.subtrees) : a ∈ f.labels := by
  rw [labels_eq_subtrees]
  exact List.mem_map_of_mem h

theorem roots_sublist_labels (f : Forest α) : f.roots.Sublist f.labels := by
  induction f with
  | nil => exact List.Sublist.refl _
  | cons a cs rest _ ih => exact (ih.trans (List.sublist_append_right _ _)).cons_cons a

theorem roots_subset_labels (f : Forest α) : f.roots ⊆ f.labels := (roots_sublist_labels f).subset

/-- every node is a root or a child of one node -/
theorem labels_perm_children (f : Forest α) : f.labels.Perm (f.roots ++ f.subtrees.flatMap (·.2.roots)) := by
  induction f with
  | nil => exact List.Perm.refl _
  | cons a cs rest ihc ihr =>
    rw [labels, roots, subtrees, List.flatMap_cons, List.flatMap_append, List.cons_append]
    refine List.Perm.cons a ((ihc.append ihr).trans ?_)
    simp only [← Multiset.coe_eq_coe, ← Multiset.coe_add]
    abel

namespace Same

variable {f g h : Forest α}

theorem refl (f : Forest α) : f.Same f := List.Perm.refl _

theorem of_eq (e : f = g) : f.Same g := e ▸ refl f

theorem symm (s : f.Same g) : g.Same f := List.Perm.symm s

theorem trans (s : f.Same g) (t : g.Same h) : f.Same h := List.Perm.trans s t

theorem append {f' g' : Forest α} (s : f.Same f') (t : g.Same g') : (f ++ g).Same (f' ++ g') := by
  rw [Same, trees_append, trees_append]
  exact List.Perm.append s t

theorem comm (f g : Forest α) : (f ++ g).Same (g ++ f) := by
  rw [Same, trees_append, trees_append]
  exact List.perm_append_comm

theorem left_comm (f g h : Forest α) : (f ++ (g ++ h)).Same (g ++ (f ++ h)) := by
  rw [← append_assoc, ← append_assoc]
  exact append (comm f g) (refl h)

theorem right_comm (f g h : Forest α) : (f ++ g ++ h).Same (f ++ h ++ g) := by
  rw [append_assoc, append_assoc]
  exact append (refl f) (comm g h)

theorem subtrees (s : f.Same g) : f.subtrees.Perm g.subtrees := by
  rw [subtrees_eq_trees, subtrees_eq_trees]
  exact List.Perm.flatMap_right _ s

theorem labels (s : f.Same g) : f.labels.Perm g.labels := by
  rw [labels_eq_subtrees, labels_eq_subtrees]
  exact s.subtrees.map _

theorem roots (s : f.Same g) : f.roots.Perm g.roots := by
  rw [roots_eq_trees, roots_eq_trees]
  exact List.Perm.map _ s

end Same

/-! ## Operations, tree by tree -/

/-- changes every label, perhaps to another type -/
def map (h : α → β) : Forest α → Forest β
  | nil => nil
  | cons a cs rest => cons (h a) (map h cs) (map h rest)

@[simp] theorem map_append (h : α → β) (f g : Forest α) : (f ++ g).map h = f.map h ++ g.map h := by
  induction f with
  | nil => rfl
  | cons a cs rest _ ih => rw [cons_append, map, ih]; rfl

theorem labels_map (h : α → β) (f : Forest α) : (f.map h).labels = f.labels.map h := by
  induction f with
  | nil => rfl
  | cons a cs rest ihc ihr => rw [map, labels, labels, ihc, ihr, List.map_cons, List.map_append]

theorem roots_map (h : α → β) (f : Forest α) : (f.map h).roots = f.roots.map h := by
  induction f with
  | nil => rfl
  | cons a cs rest _ ih => rw [map, roots, roots, ih, List.map_cons]

theorem subtrees_map (h : α → β) (f : Forest α) : (f.map h).subtrees = f.subtrees.map fun t => (h t.1, t.2.map h) := by
  induction f with
  | nil => rfl
  | cons a cs rest ihc ihr => rw [map, subtrees, subtrees, ihc, ihr, List.map_cons, List.map_append]

section

variable {h : α → β} {p : α → Bool} {q : β → Bool} (hq : ∀ a, q (h a) = p a)
include hq

theorem map_update {g : α → α} {g' : β → β} (hg : ∀ a, h (g a) = g' (h a)) (f : Forest α) :
    (f.update p g).map h = (f.map h).update q g' := by
  induction f with
  | nil => rfl
  | cons a cs rest ihc ihr =>
    rw [update, map, map, update, hq, ihc, ihr]
    cases p a with
    | true => rw [if_pos rfl, if_pos rfl, hg]
    | false => rfl

theorem map_prune (f : Forest α) : (f.prune p).map h = (f.map h).prune q := by
  induction f with
  | nil => rfl
  | cons a cs rest ihc ihr =>
    rw [prune, map, prune, hq, ← ihc, ← ihr]
    split <;> rfl

theorem map_insertBefore (x f : Forest α) : (insertBefore p x f).map h = insertBefore q (x.map h) (f.map h) := by
  induction f with
  | nil => rfl
  | cons a cs rest _ ih =>
    rw [insertBefore, map, insertBefore, hq, ← ih]
    split
    · rw [map_append]; rfl
    · rfl

theorem map_graft {g : Forest α → Forest α} {g' : Forest β → Forest β} (hg : ∀ cs, (g cs).map h = g' (cs.map h))
    (f : Forest α) : (f.graft p g).map h = (f.map h).graft q g' := by
  induction f with
  | nil => rfl
  | cons a cs rest ihc ihr =>
    rw [graft, map, map, graft, hq, ← ihr]
    cases p a with
    | true => rw [if_pos rfl, if_pos rfl, hg, ihc]
    | false => rw [if_neg Bool.false_ne_true, if_neg Bool.false_ne_true, ihc]

theorem map_retain (f : Forest α) : (f.retain p).map h = (f.map h).retain q := by
  induction f with
  | nil => rfl
  | cons a cs rest ihc ihr =>
    rw [retain, map, retain, hq, ← ihc, ← ihr]
    split
    · rfl
    · rw [map_append]

end

section

variable (pick : α → Bool)

theorem update_self (f : Forest α) : f.update pick (fun a => a) = f := by
  induction f with
  | nil => rfl
  | cons a cs rest ihc ihr =>
    rw [update, ihc, ihr]
    split <;> rfl

@[simp] theorem update_append (h : α → α) (f g : Forest α) :
    (f ++ g).update pick h = f.update pick h ++ g.update pick h := by
  induction f with
  | nil => rfl
  | cons a cs rest _ ih => rw [cons_append, update, ih]; rfl

@[simp] theorem prune_append (f g : Forest α) : (f ++ g).prune pick = f.prune pick ++ g.prune pick := by
  induction f with
  | nil => rfl
  | cons a cs rest _ ih =>
    rw [cons_append, prune, prune, ih]
    split <;> rfl

@[simp] theorem graft_append (h : Forest α → Forest α) (f g : Forest α) :
    (f ++ g).graft pick h = f.graft pick h ++ g.graft pick h := by
  induction f with
  | nil => rfl
  | cons a cs rest _ ih => rw [cons_append, graft, ih]; rfl

@[simp] theorem retain_append (f g : Forest α) : (f ++ g).retain pick = f.retain pick ++ g.retain pick := by
  induction f with
  | nil => rfl
  | cons a cs rest _ ih =>
    rw [cons_append, retain, retain, ih]
    split
    · rfl
    · rw [append_assoc]

end

namespace Same

variable {f g : Forest α}

/-- what is done to a forest tree by tree is done to the same trees in any order -/
theorem of_trees {op : Forest α → Forest β} (hn : op nil = nil)
    (hc : ∀ a cs rest, op (cons a cs rest) = op (tree a cs) ++ op rest) (s : f.Same g) : (op f).Same (op g) := by
  have h : ∀ f : Forest α, (op f).trees = f.trees.flatMap fun t => (op (tree t.1 t.2)).trees := by
    intro f
    induction f with
    | nil => rw [hn]; rfl
    | cons a cs rest _ ih => rw [hc, trees_append, ih, trees, List.flatMap_cons]
  rw [Same, h, h]
  exact List.Perm.flatMap_right _ s

theorem update (pick : α → Bool) (h : α → α) (s : f.Same g) : (f.update pick h).Same (g.update pick h) :=
  of_trees rfl (fun a cs rest => update_append pick h (tree a cs) rest) s

theorem prune (pick : α → Bool) (s : f.Same g) : (f.prune pick).Same (g.prune pick) :=
  of_trees rfl (fun a cs rest => prune_append pick (tree a cs) rest) s

theorem graft (pick : α → Bool) (h : Forest α → Forest α) (s : f.Same g) : (f.graft pick h).Same (g.graft pick h) :=
  of_trees rfl (fun a cs rest => graft_append pick h (tree a cs) rest) s

theorem retain (pick : α → Bool) (s : f.Same g) : (f.retain pick).Same (g.retain pick) :=
  of_trees rfl (fun a cs rest => retain_append pick (tree a cs) rest) s

end Same

/-! ## Filling -/

/-- replaces nodes by forests, from the outside in; what is below a replaced node goes with it -/
def fill (e : α → Option (Forest α)) : Forest α → Forest α
  | nil => nil
  | cons a cs rest =>
    match e a with
    | some x => x ++ fill e rest
    | none => cons a (fill e cs) (fill e rest)

section

variable (e : α → Option (Forest α))

@[simp] theorem fill_append (f g : Forest α) : (f ++ g).fill e = f.fill e ++ g.fill e := by
  induction f with
  | nil => rfl
  | cons a cs rest _ ih =>
    rw [cons_append, fill, fill, ih]
    split
    · rw [append_assoc]
    · rfl

theorem fill_cons (a : α) (cs rest : Forest α) : (cons a cs rest).fill e = (tree a cs).fill e ++ rest.fill e :=
  fill_append e (tree a cs) rest

variable {e}

theorem fill_tree_of_none {a : α} (h : e a = none) (cs : Forest α) : (tree a cs).fill e = tree a (cs.fill e) := by
  rw [tree, fill, h]; rfl

theorem fill_tree_of_some {a : α} {x : Forest α} (h : e a = some x) (cs : Forest α) : (tree a cs).fill e = x := by
  rw [tree, fill, h]
  exact append_nil x

theorem fill_congr {e' : α → Option (Forest α)} {f : Forest α} (h : ∀ a ∈ f.labels, e a = e' a) :
    f.fill e = f.fill e' := by
  induction f with
  | nil => rfl
  | cons a cs rest ihc ihr =>
    rw [fill, fill, h a List.mem_cons_self,
      ihc fun b hb => h b (List.mem_cons_of_mem _ (List.mem_append_left _ hb)),
      ihr fun b hb => h b (List.mem_cons_of_mem _ (List.mem_append_right _ hb))]

theorem fill_of_none {f : Forest α} (h : ∀ a ∈ f.labels, e a = none) : f.fill e = f := by
  induction f with
  | nil => rfl
  | cons a cs rest ihc ihr =>
    rw [fill, h a List.mem_cons_self, ihc fun b hb => h b (List.mem_cons_of_mem _ (List.mem_append_left _ hb)),
      ihr fun b hb => h b (List.mem_cons_of_mem _ (List.mem_append_right _ hb))]

/-- filling twice is filling once: what was put in is filled as well -/
theorem fill_fill (e e' : α → Option (Forest α)) (f : Forest α) :
    (f.fill e).fill e' = f.fill fun a => match e a with
      | some x => some (x.fill e')
      | none => e' a := by
  induction f with
  | nil => rfl
  | cons a cs rest ihc ihr =>
    rw [fill, fill]
    cases he : e a with
    | some x => rw [fill_append, ihr]
    | none => rw [fill_cons, ihr]; cases he' : e' a with
      | some y => rw [fill_tree_of_some he']
      | none => rw [fill_tree_of_none he', ihc]; rfl

/-- a label of a filled forest was there or was put in -/
theorem mem_labels_fill {a : α} {f : Forest α} (h : a ∈ (f.fill e).labels) :
    (a ∈ f.labels ∧ e a = none) ∨ ∃ b ∈ f.labels, ∃ x, e b = some x ∧ a ∈ x.labels := by
  induction f with
  | nil => cases h
  | cons b cs rest ihc ihr =>
    have hleft : ∀ {c : α}, c ∈ cs.labels → c ∈ (cons b cs rest).labels :=
      fun hc => List.mem_cons_of_mem _ (List.mem_append_left _ hc)
    have hright : ∀ {c : α}, c ∈ rest.labels → c ∈ (cons b cs rest).labels :=
      fun hc => List.mem_cons_of_mem _ (List.mem_append_right _ hc)
    rw [fill] at h
    cases he : e b with
    | some x =>
      rw [he, labels_append] at h
      rcases List.mem_append.1 h with h | h
      · exact .inr ⟨b, List.mem_cons_self, x, he, h⟩
      · rcases ihr h with ⟨h, hn⟩ | ⟨c, hc, x, hx, h⟩
        · exact .inl ⟨hright h, hn⟩
        · exact .inr ⟨c, hright hc, x, hx, h⟩
    | none =>
      rw [he, labels] at h
      rcases List.mem_cons.1 h with rfl | h
      · exact .inl ⟨List.mem_cons_self, he⟩
      · rcases List.mem_append.1 h with h | h
        · rcases ihc h with ⟨h, hn⟩ | ⟨c, hc, x, hx, h⟩
          · exact .inl ⟨hleft h, hn⟩
          · exact .inr ⟨c, hleft hc, x, hx, h⟩
        · rcases ihr h with ⟨h, hn⟩ | ⟨c, hc, x, hx, h⟩
          · exact .inl ⟨hright h, hn⟩
          · exact .inr ⟨c, hright hc, x, hx, h⟩

theorem update_fill {pick : α → Bool} {h : α → α} (he : ∀ a, e (if pick a then h a else a) = e a) (f : Forest α) :
    (f.fill e).update pick h = (f.update pick h).fill fun a => (e a).map (·.update pick h) := by
  induction f with
  | nil => rfl
  | cons a cs rest ihc ihr =>
    rw [update, fill, fill, he]
    cases e a with
    | some x => rw [update_append, ihr]; rfl
    | none => rw [update, ihc, ihr]; rfl

end

/-! ## Nodes that are absent -/

section

variable {pick : α → Bool} {f : Forest α}

theorem update_of_none (hf : ∀ a ∈ f.labels, pick a = false) (h : α → α) : f.update pick h = f := by
  induction f with
  | nil => rfl
  | cons a cs rest ihc ihr =>
    rw [update, hf a List.mem_cons_self, ihc fun b hb => hf b (List.mem_cons_of_mem _ (List.mem_append_left _ hb)),
      ihr fun b hb => hf b (List.mem_cons_of_mem _ (List.mem_append_right _ hb))]
    rfl

theorem prune_of_none (hf : ∀ a ∈ f.labels, pick a = false) : f.prune pick = f := by
  induction f with
  | nil => rfl
  | cons a cs rest ihc ihr =>
    rw [prune, hf a List.mem_cons_self, ihc fun b hb => hf b (List.mem_cons_of_mem _ (List.mem_append_left _ hb)),
      ihr fun b hb => hf b (List.mem_cons_of_mem _ (List.mem_append_right _ hb))]
    rfl

theorem graft_of_none (hf : ∀ a ∈ f.labels, pick a = false) (h : Forest α → Forest α) : f.graft pick h = f := by
  induction f with
  | nil => rfl
  | cons a cs rest ihc ihr =>
    rw [graft, hf a List.mem_cons_self, ihc fun b hb => hf b (List.mem_cons_of_mem _ (List.mem_append_left _ hb)),
      ihr fun b hb => hf b (List.mem_cons_of_mem _ (List.mem_append_right _ hb))]
    rfl

/-- a forest whose roots are all kept stays as it is -/
theorem retain_of_roots (hf : ∀ a ∈ f.roots, pick a = true) : f.retain pick = f := by
  induction f with
  | nil => rfl
  | cons a cs rest _ ih =>
    rw [retain, if_pos (hf a List.mem_cons_self), ih fun b hb => hf b (List.mem_cons_of_mem _ hb)]

/-- what is left of a forest was in it -/
theorem labels_retain_sublist (pick : α → Bool) (f : Forest α) : (f.retain pick).labels.Sublist f.labels := by
  induction f with
  | nil => exact List.Sublist.refl _
  | cons a cs rest ihc ihr =>
    rw [retain]
    split
    · exact (((List.Sublist.refl _).append ihr).cons_cons a)
    · rw [labels_append, labels]
      exact (ihc.append ihr).cons a

theorem labels_prune_sublist (pick : α → Bool) (f : Forest α) : (f.prune pick).labels.Sublist f.labels := by
  induction f with
  | nil => exact List.Sublist.refl _
  | cons a cs rest ihc ihr =>
    rw [prune]
    split
    · exact ((ihr.trans (List.sublist_append_right _ _)).trans (List.sublist_cons_self _ _))
    · exact (ihc.append ihr).cons_cons a

end

/-- taking nodes out is filling them with nothing -/
theorem prune_eq_fill (pick : α → Bool) (f : Forest α) :
    f.prune pick = f.fill fun a => if pick a then some nil else none := by
  induction f with
  | nil => rfl
  | cons a cs rest ihc ihr =>
    rw [prune, fill, ihc, ihr]
    cases pick a <;> rfl

/-! ## Nodes that occur once -/

def count (pick : α → Bool) (f : Forest α) : Nat := f.labels.countP pick

section

variable (pick : α → Bool)

@[simp] theorem count_nil : count pick (nil : Forest α) = 0 := rfl

@[simp] theorem count_cons (a : α) (cs rest : Forest α) :
    count pick (cons a cs rest) = (if pick a then 1 else 0) + count pick cs + count pick rest := by
  rw [count, labels, List.countP_cons, List.countP_append, count, count]
  omega

variable {pick} {f : Forest α}

theorem count_eq_zero_iff : count pick f = 0 ↔ ∀ a ∈ f.labels, pick a = false := by
  rw [count, List.countP_eq_zero]
  exact ⟨fun h a ha => Bool.eq_false_iff.2 (h a ha), fun h a ha => Bool.eq_false_iff.1 (h a ha)⟩

theorem count_pos_of_mem {a : α} (ha : a ∈ f.labels) (hp : pick a = true) : 0 < count pick f :=
  List.countP_pos_iff.2 ⟨a, ha, hp⟩

theorem count_pos_of_subtree {a : α} {cs : Forest α} (h : (a, cs) ∈ f.subtrees) (hp : pick a = true) :
    0 < count pick f :=
  count_pos_of_mem (mem_labels_of_subtree h) hp

end

section

variable {pick : α → Bool} {f : Forest α}

/-- taking out a node takes out what is below it -/
theorem labels_prune_perm (h1 : count pick f = 1) {a : α} {cs : Forest α} (h : (a, cs) ∈ f.subtrees)
    (ha : pick a = true) : f.labels.Perm ((f.prune pick).labels ++ a :: cs.labels) := by
  induction f with
  | nil => cases h
  | cons b ds rest ihc ihr =>
    rw [count_cons] at h1
    rw [subtrees] at h
    rw [prune, labels]
    rcases List.mem_cons.1 h with h | h
    · cases h
      rw [if_pos ha] at h1 ⊢
      rw [prune_of_none (count_eq_zero_iff.1 (by omega))]
      exact (List.perm_append_comm : List.Perm ((a :: cs.labels) ++ rest.labels) _)
    · rcases List.mem_append.1 h with h | h
      · have hpos := count_pos_of_subtree h ha
        have hb : pick b = false := by
          cases hb : pick b with
          | false => rfl
          | true => rw [hb, if_pos rfl] at h1; omega
        rw [hb] at h1 ⊢
        simp only [Bool.false_eq_true, if_false, labels] at h1 ⊢
        rw [prune_of_none (f := rest) (count_eq_zero_iff.1 (by omega)), List.cons_append]
        refine List.Perm.cons b (((ihc (by omega) h).append_right _).trans ?_)
        rw [List.append_assoc, List.append_assoc]
        exact List.Perm.append_left _ List.perm_append_comm
      · have hpos := count_pos_of_subtree h ha
        have hb : pick b = false := by
          cases hb : pick b with
          | false => rfl
          | true => rw [hb, if_pos rfl] at h1; omega
        rw [hb] at h1 ⊢
        simp only [Bool.false_eq_true, if_false, labels] at h1 ⊢
        rw [prune_of_none (f := ds) (count_eq_zero_iff.1 (by omega)), List.cons_append, List.append_assoc]
        exact List.Perm.cons b ((ihr (by omega) h).append_left _)

theorem labels_insertBefore_perm (pick : α → Bool) (x f : Forest α) :
    (insertBefore pick x f).labels.Perm (f.labels ++ x.labels) := by
  induction f with
  | nil => exact List.Perm.refl _
  | cons a cs rest _ ih =>
    rw [insertBefore]
    split
    · rw [labels_append]
      exact List.perm_append_comm
    · rw [labels, labels, List.cons_append, List.append_assoc]
      exact List.Perm.cons a (ih.append_left _)

/-- putting a forest below a node adds its labels -/
theorem labels_graft_perm (h1 : count pick f = 1) {g : Forest α → Forest α} {x : List α}
    (hg : ∀ cs, (g cs).labels.Perm (cs.labels ++ x)) : (f.graft pick g).labels.Perm (f.labels ++ x) := by
  induction f with
  | nil => cases h1
  | cons a cs rest ihc ihr =>
    rw [count_cons] at h1
    rw [graft, labels, labels, List.cons_append]
    refine List.Perm.cons a ?_
    cases ha : pick a with
    | true =>
      rw [ha, if_pos rfl] at h1
      rw [if_pos rfl, graft_of_none (f := cs) (count_eq_zero_iff.1 (by omega)),
        graft_of_none (f := rest) (count_eq_zero_iff.1 (by omega))]
      refine ((hg cs).append_right _).trans ?_
      rw [List.append_assoc, List.append_assoc]
      exact List.Perm.append_left _ List.perm_append_comm
    | false =>
      rw [ha] at h1
      simp only [Bool.false_eq_true, if_false] at h1 ⊢
      rcases Nat.eq_zero_or_pos (count pick cs) with hz | hp
      · rw [graft_of_none (f := cs) (count_eq_zero_iff.1 hz), List.append_assoc]
        exact (ihr (by omega)).append_left _
      · rw [graft_of_none (f := rest) (count_eq_zero_iff.1 (by omega))]
        refine ((ihc (by omega)).append_right _).trans ?_
        rw [List.append_assoc, List.append_assoc]
        exact List.Perm.append_left _ List.perm_append_comm

/-- what is put before a node whose own place is then cleared replaces it -/
theorem prune_insertBefore {x : Forest α} (hx : count pick x = 0) (h1 : count pick f = 1) (hr : f.roots.any pick = true) :
    (insertBefore pick x f).prune pick = f.fill fun a => if pick a then some x else none := by
  induction f with
  | nil => cases h1
  | cons a cs rest _ ih =>
    rw [count_cons] at h1
    rw [roots, List.any_cons, Bool.or_eq_true] at hr
    rw [insertBefore, fill]
    cases ha : pick a with
    | true =>
      rw [ha, if_pos rfl] at h1
      have hrest : ∀ b ∈ rest.labels, pick b = false := count_eq_zero_iff.1 (by omega)
      rw [if_pos rfl, prune_append, prune_of_none (count_eq_zero_iff.1 hx), prune, ha, if_pos rfl, prune_of_none hrest]
      simp only [if_true]
      rw [fill_of_none fun b hb => by rw [hrest b hb]; rfl]
    | false =>
      rw [ha] at h1 hr
      have hr : rest.roots.any pick = true := hr.resolve_left Bool.false_ne_true
      obtain ⟨b, hb, hpb⟩ := List.any_eq_true.1 hr
      have hpos := count_pos_of_mem (roots_subset_labels rest hb) hpb
      simp only [Bool.false_eq_true, if_false] at h1 ⊢
      have hcs : ∀ b ∈ cs.labels, pick b = false := count_eq_zero_iff.1 (by omega)
      rw [prune, ha, ih (by omega) hr, prune_of_none hcs, fill_of_none (f := cs) fun b hb => by rw [hcs b hb]; rfl]
      rfl

/-- putting a forest before a node and then taking that node out is replacing it -/
theorem prune_graft_insertBefore {at_ : α → Bool} {x : Forest α} (hx : count pick x = 0) (h1 : count pick f = 1)
    (hp : count at_ f = 1) {a : α} {cs : Forest α} (h : (a, cs) ∈ f.subtrees) (ha : at_ a = true)
    (hr : cs.roots.any pick = true) :
    (f.graft at_ (insertBefore pick x)).prune pick = f.fill fun a => if pick a then some x else none := by
  obtain ⟨b, hb, hpb⟩ := List.any_eq_true.1 hr
  have hbelow : ∀ {f : Forest α}, (a, cs) ∈ f.subtrees → 0 < count pick f :=
    fun h => count_pos_of_mem (labels_subset_of_subtree h (roots_subset_labels cs hb)) hpb
  have hnone : ∀ {f : Forest α}, count pick f = 0 → (f.fill fun a => if pick a then some x else none) = f :=
    fun h => fill_of_none fun b hb => by rw [count_eq_zero_iff.1 h b hb]; rfl
  induction f with
  | nil => cases h
  | cons c ds rest ihc ihr =>
    rw [count_cons] at h1 hp
    rw [subtrees] at h
    rw [graft, fill]
    rcases List.mem_cons.1 h with h | h
    · cases h
      rw [if_pos ha] at hp ⊢
      have hpos := count_pos_of_mem (roots_subset_labels cs hb) hpb
      have hpa : pick a = false := by
        cases hpa : pick a with
        | false => rfl
        | true => rw [hpa, if_pos rfl] at h1; omega
      rw [hpa] at h1
      simp only [hpa, Bool.false_eq_true, if_false] at h1 ⊢
      rw [graft_of_none (f := cs) (count_eq_zero_iff.1 (by omega)),
        graft_of_none (f := rest) (count_eq_zero_iff.1 (by omega)), prune, hpa,
        prune_insertBefore hx (by omega) hr, prune_of_none (f := rest) (count_eq_zero_iff.1 (by omega)),
        hnone (f := rest) (by omega)]
      rfl
    · have hpos : 0 < count pick ds + count pick rest := by
        rcases List.mem_append.1 h with h | h
        · have := hbelow h; omega
        · have := hbelow h; omega
      have hpos' : 0 < count at_ ds + count at_ rest := by
        rcases List.mem_append.1 h with h | h
        · have := count_pos_of_subtree h ha; omega
        · have := count_pos_of_subtree h ha; omega
      have hpc : pick c = false := by
        cases hpc : pick c with
        | false => rfl
        | true => rw [hpc, if_pos rfl] at h1; omega
      have hac : at_ c = false := by
        cases hac : at_ c with
        | false => rfl
        | true => rw [hac, if_pos rfl] at hp; omega
      rw [hpc] at h1
      rw [hac] at hp
      simp only [hpc, hac, Bool.false_eq_true, if_false] at h1 hp ⊢
      rcases List.mem_append.1 h with h | h
      · have h2 := hbelow h
        have h3 := count_pos_of_subtree h ha
        rw [graft_of_none (f := rest) (count_eq_zero_iff.1 (by omega)), prune, hpc,
          ihc (by omega) (by omega) h, prune_of_none (f := rest) (count_eq_zero_iff.1 (by omega)),
          hnone (f := rest) (by omega)]
        rfl
      · have h2 := hbelow h
        have h3 := count_pos_of_subtree h ha
        rw [graft_of_none (f := ds) (count_eq_zero_iff.1 (by omega)), prune, hpc,
          ihr (by omega) (by omega) h, prune_of_none (f := ds) (count_eq_zero_iff.1 (by omega)),
          hnone (f := ds) (by omega)]
        rfl

/-- putting two forests before the same node, one after the other -/
theorem insertBefore_insertBefore (x : Forest α) {y : Forest α} (hy : ∀ a ∈ y.roots, pick a = false) (f : Forest α) :
    insertBefore pick x (insertBefore pick y f) = insertBefore pick (y ++ x) f := by
  have hend : ∀ (y g : Forest α), (∀ a ∈ y.roots, pick a = false) →
      insertBefore pick x (y ++ g) = y ++ insertBefore pick x g := by
    intro y g hy
    induction y with
    | nil => rfl
    | cons a cs rest _ ih =>
      rw [cons_append, insertBefore, hy a List.mem_cons_self, ih fun b hb => hy b (List.mem_cons_of_mem _ hb)]
      rfl
  induction f with
  | nil =>
    have := hend y nil hy
    rw [append_nil] at this
    exact this
  | cons a cs rest _ ih =>
    rw [insertBefore, insertBefore]
    cases ha : pick a with
    | true =>
      rw [if_pos rfl, if_pos rfl, hend y _ hy, insertBefore, ha, if_pos rfl, append_assoc]
    | false =>
      rw [if_neg Bool.false_ne_true, if_neg Bool.false_ne_true, insertBefore, ha, if_neg Bool.false_ne_true, ih]

/-- two changes below the same node, one after the other, if the first brings in no such node -/
theorem graft_graft {g h : Forest α → Forest α} (h1 : count pick f ≤ 1)
    (hh : ∀ cs, count pick cs = 0 → count pick (h cs) = 0) :
    (f.graft pick h).graft pick g = f.graft pick fun cs => g (h cs) := by
  induction f with
  | nil => rfl
  | cons a cs rest ihc ihr =>
    rw [count_cons] at h1
    rw [graft, graft, graft]
    cases ha : pick a with
    | true =>
      rw [ha, if_pos rfl] at h1
      have hcs : count pick cs = 0 := by omega
      rw [if_pos rfl, if_pos rfl, if_pos rfl, graft_of_none (f := cs) (count_eq_zero_iff.1 hcs),
        graft_of_none (count_eq_zero_iff.1 (hh cs hcs)), graft_of_none (f := cs) (count_eq_zero_iff.1 hcs),
        ihr (by omega)]
    | false =>
      rw [ha] at h1
      simp only [Bool.false_eq_true, if_false] at h1 ⊢
      rw [ihc (by omega), ihr (by omega)]

/-! ## Subtrees after a change -/

theorem roots_graft (pick : α → Bool) (g : Forest α → Forest α) (f : Forest α) : (f.graft pick g).roots = f.roots := by
  induction f with
  | nil => rfl
  | cons a cs rest _ ih => rw [graft, roots, roots, ih]

theorem subtrees_insertBefore (pick : α → Bool) (x f : Forest α) :
    (insertBefore pick x f).subtrees.Perm (f.subtrees ++ x.subtrees) := by
  induction f with
  | nil => exact List.Perm.refl _
  | cons a cs rest _ ih =>
    rw [insertBefore]
    split
    · rw [subtrees_append]
      exact List.perm_append_comm
    · rw [subtrees, subtrees, List.cons_append, List.append_assoc]
      exact List.Perm.cons _ (ih.append_left _)

/-- a subtree that does not contain the changed node is still there -/
theorem subtree_graft {x : Forest α} {q : α → Bool} {a : α} {cs : Forest α} (h : (a, cs) ∈ f.subtrees)
    (ha : pick a = false) (hcs : count pick cs = 0) : (a, cs) ∈ (f.graft pick (insertBefore q x)).subtrees := by
  induction f with
  | nil => cases h
  | cons b ds rest ihc ihr =>
    rw [subtrees] at h
    rw [graft, subtrees]
    rcases List.mem_cons.1 h with h | h
    · cases h
      rw [ha, if_neg Bool.false_ne_true, graft_of_none (f := cs) (count_eq_zero_iff.1 hcs)]
      exact List.mem_cons_self
    · rcases List.mem_append.1 h with h | h
      · refine List.mem_cons_of_mem _ (List.mem_append_left _ ?_)
        split
        · exact (subtrees_insertBefore q x _).mem_iff.2 (List.mem_append_left _ (ihc h))
        · exact ihc h
      · exact List.mem_cons_of_mem _ (List.mem_append_right _ (ihr h))

/-- a picked node has its children changed -/
theorem subtree_graft_of_pick (h1 : count pick f = 1) {g : Forest α → Forest α} {a : α} {cs : Forest α}
    (h : (a, cs) ∈ f.subtrees) (ha : pick a = true) : (a, g cs) ∈ (f.graft pick g).subtrees := by
  induction f with
  | nil => cases h
  | cons b ds rest ihd ihr =>
    rw [count_cons] at h1
    rw [graft, subtrees, List.mem_cons, List.mem_append]
    rw [subtrees, List.mem_cons, List.mem_append] at h
    rcases h with h | h | h
    · obtain ⟨rfl, rfl⟩ := Prod.mk.inj h
      rw [if_pos ha] at h1 ⊢
      have hcs : graft pick g cs = cs := graft_of_none (count_eq_zero_iff.1 (by omega)) g
      exact .inl (by rw [hcs])
    · have := count_pos_of_subtree h ha
      have hb : pick b = false := by
        cases hb : pick b with
        | false => rfl
        | true => rw [hb, if_pos rfl] at h1; omega
      rw [hb] at h1 ⊢
      exact .inr (.inl (ihd (by simp at h1; omega) h))
    · have := count_pos_of_subtree h ha
      exact .inr (.inr (ihr (by split at h1 <;> omega) h))

/-- a node that is no root is a child -/
theorem exists_parent {a : α} (ha : a ∈ f.labels) (hr : a ∉ f.roots) : ∃ t ∈ f.subtrees, a ∈ t.2.roots := by
  rcases List.mem_append.1 ((labels_perm_children f).mem_iff.1 ha) with h | h
  · exact absurd h hr
  · exact List.mem_flatMap.1 h

/-- a subtree with its label is a part of the list of labels -/
theorem subtree_sublist {a : α} {cs : Forest α} (h : (a, cs) ∈ f.subtrees) :
    (a :: cs.labels).Sublist f.labels := by
  induction f with
  | nil => cases h
  | cons b ds rest ihc ihr =>
    rw [subtrees] at h
    rw [labels]
    rcases List.mem_cons.1 h with h | h
    · cases h
      exact (List.sublist_append_left _ _).cons_cons a
    · rcases List.mem_append.1 h with h | h
      · exact ((ihc h).trans (List.sublist_append_left _ _)).cons b
      · exact ((ihr h).trans (List.sublist_append_right _ _)).cons b

theorem exists_tree {a : α} (h : a ∈ f.roots) : ∃ cs, (a, cs) ∈ f.trees := by
  rw [roots_eq_trees] at h
  obtain ⟨⟨b, cs⟩, ht, rfl⟩ := List.mem_map.1 h
  exact ⟨cs, ht⟩

/-- every label is in the tree of a root -/
theorem exists_tree_above {a : α} (h : a ∈ f.labels) : ∃ t ∈ f.trees, a ∈ (tree t.1 t.2).labels := by
  induction f with
  | nil => cases h
  | cons b cs rest _ ih =>
    rw [labels, ← List.cons_append, List.mem_append] at h
    rcases h with h | h
    · exact ⟨(b, cs), List.mem_cons_self, by rw [labels_tree]; exact h⟩
    · obtain ⟨t, ht, ha⟩ := ih h
      exact ⟨t, List.mem_cons_of_mem _ ht, ha⟩

theorem exists_subtree {a : α} (h : a ∈ f.labels) : ∃ cs, (a, cs) ∈ f.subtrees := by
  rw [labels_eq_subtrees] at h
  obtain ⟨⟨b, cs⟩, ht, rfl⟩ := List.mem_map.1 h
  exact ⟨cs, ht⟩

/-- a forest with one of its trees put last -/
theorem same_prune_root (h1 : count pick f = 1) {a : α} {cs : Forest α} (h : (a, cs) ∈ f.trees) (ha : pick a = true) :
    f.Same (f.prune pick ++ tree a cs) := by
  induction f with
  | nil => cases h
  | cons b ds rest _ ih =>
    rw [count_cons] at h1
    rcases List.mem_cons.1 h with h | h
    · cases h
      rw [if_pos ha] at h1
      rw [prune, if_pos ha, prune_of_none (count_eq_zero_iff.1 (by omega))]
      exact Same.comm (tree a cs) rest
    · have hpos := count_pos_of_subtree (trees_subset_subtrees rest h) ha
      have hb : pick b = false := by
        cases hb : pick b with
        | false => rfl
        | true => rw [hb, if_pos rfl] at h1; omega
      rw [hb] at h1
      simp only [Bool.false_eq_true, if_false] at h1
      rw [prune, hb, if_neg Bool.false_ne_true, prune_of_none (f := ds) (count_eq_zero_iff.1 (by omega))]
      exact Same.append (Same.refl (tree b ds)) (ih (by omega) h)

/-- what is inserted stands together -/
theorem insertBefore_split (q : α → Bool) (x f : Forest α) :
    ∃ pre post, insertBefore q x f = pre ++ (x ++ post) ∧ f = pre ++ post := by
  induction f with
  | nil => exact ⟨nil, nil, (append_nil x).symm, rfl⟩
  | cons a cs rest _ ih =>
    rw [insertBefore]
    split
    · exact ⟨nil, cons a cs rest, rfl, rfl⟩
    · obtain ⟨pre, post, hi, hf⟩ := ih
      exact ⟨cons a cs pre, post, by rw [hi]; rfl, by rw [hf]; rfl⟩

@[simp] theorem insertBefore_nil (pick : α → Bool) (f : Forest α) : insertBefore pick nil f = f := by
  induction f with
  | nil => rfl
  | cons a cs rest _ ih =>
    rw [insertBefore, ih]
    split <;> rfl

theorem graft_self (pick : α → Bool) (f : Forest α) {g : Forest α → Forest α} (hg : ∀ cs, g cs = cs) :
    f.graft pick g = f := by
  induction f with
  | nil => rfl
  | cons a cs rest ihc ihr =>
    rw [graft, ihc, ihr, hg]
    split <;> rfl

theorem count_insertBefore (q : α → Bool) (x f : Forest α) :
    count pick (insertBefore q x f) = count pick f + count pick x := by
  rw [count, (labels_insertBefore_perm q x f).countP_eq, List.countP_append, count, count]

end

end LiveMarkup.Forest
