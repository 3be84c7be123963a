/-
Copies of markup, made node by node.

A copy stands in the forest at once. Made one by one it would be the element first, and then each child, copied in the
same way and appended. Both give the same document (`build_eq`), and so does the fragment that holds the copies of a
markup forest (`buildAll_fragment`).
-/
import LiveMarkup.Proofs.Document.Relink

namespace LiveMarkup.Document

open Forest

variable {L : Type}

/-- a copy of a markup node, as a new root -/
def copy (d : Document L) (node : Markup.Node) : Document L × NodeId :=
  let planted := plant.plantNode node d.fresh
  (⟨d.forest ++ planted.1, planted.2⟩, d.fresh)

mutual
/-- a copy of a markup node, made of single nodes -/
def build : Markup.Node → Document L → Document L × NodeId
  | .element tag attributes children, d =>
    let made := d.add (.element tag attributes)
    (buildAll children made.2 made.1, made.2)
  | .text data, d => d.add (.text data)
  | .comment data, d => d.add (.comment data)
def buildAll : List Markup.Node → NodeId → Document L → Document L
  | [], _, d => d
  | n :: ns, parent, d =>
    let made := build n d
    buildAll ns parent (made.1.insertBefore parent made.2 none)
end

theorem plantNode_tree (n : Markup.Node) (id : NodeId) : ∃ (m : Node L) (cs : Forest (Node L)),
    (plant.plantNode n id).1 = tree m cs ∧ m.id = id ∧ m.kind.isFragment = false := by
  cases n with
  | element tag attributes children =>
    rw [plant.plantNode]
    exact ⟨_, _, rfl, rfl, rfl⟩
  | text data =>
    rw [plant.plantNode]
    exact ⟨_, _, rfl, rfl, rfl⟩
  | comment data =>
    rw [plant.plantNode]
    exact ⟨_, _, rfl, rfl, rfl⟩

theorem valid_copy {d : Document L} (hv : d.Valid) (n : Markup.Node) : (d.copy n).1.Valid := by
  obtain ⟨hle, hids⟩ := plantNode_ids (L := L) n d.fresh
  refine (hv.of_append (g := (plant.plantNode (L := L) n d.fresh).1.bare) ?_ ?_ (fun id hid => ?_) hle).valid
  · rw [copy, bare, map_append]
    rfl
  · rw [ids_bare, hids]
    exact List.nodup_range'
  · rw [ids_bare, hids, List.mem_range'_1, Nat.add_sub_cancel' hle] at hid
    exact hid

theorem insertBefore_none (x f : Forest (Node L)) :
    Forest.insertBefore (fun m => (none : Option NodeId).any (isNode · m)) x f = f ++ x := by
  induction f with
  | nil => rfl
  | cons a cs rest _ ih =>
    rw [Forest.insertBefore, ih]
    rfl

/-- the last root is appended to the one before it -/
theorem append_last {F Y Z : Forest (Node L)} {r m : Node L} {k : NodeId}
    (hv : Valid ⟨F ++ tree r Y ++ tree m Z, k⟩) (hm : m.kind.isFragment = false) :
    insertBefore ⟨F ++ tree r Y ++ tree m Z, k⟩ r.id m.id none = ⟨F ++ tree r (Y ++ tree m Z), k⟩ ∧
      Valid (L := L) ⟨F ++ tree r (Y ++ tree m Z), k⟩ := by
  have hr : (r, Y) ∈ (F ++ tree r Y ++ tree m Z).subtrees := by
    rw [subtrees_append, subtrees_append]
    exact List.mem_append_left _ (List.mem_append_right _ List.mem_cons_self)
  have hs : (m, Z) ∈ (F ++ tree r Y ++ tree m Z).subtrees := by
    rw [subtrees_append]
    exact List.mem_append_right _ List.mem_cons_self
  have hnodup := hv.nodup
  rw [ids_append, List.nodup_append, ids_append, List.nodup_append] at hnodup
  obtain ⟨⟨-, htree, hapart⟩, -, hapart'⟩ := hnodup
  have hrF : r.id ∉ F.ids := fun hin => hapart _ hin _ (by rw [ids_tree]; exact List.mem_cons_self) rfl
  have hrY : r.id ∉ Y.ids := (List.nodup_cons.1 (ids_tree r Y ▸ htree)).1
  have hmid : m.id ∈ (tree m Z).ids := by rw [ids_tree]; exact List.mem_cons_self
  have hm' : m.id ∉ (F ++ tree r Y).ids := fun hin => hapart' _ (ids_append F _ ▸ hin) _ hmid rfl
  have hrid : r.id ∈ F.ids ++ (tree r Y).ids := List.mem_append_right _ (by rw [ids_tree]; exact List.mem_cons_self)
  have hrZ : r.id ∉ (tree m Z).ids := fun hin => hapart' _ hrid _ hin rfl
  have hnot : contains ⟨F ++ tree r Y ++ tree m Z, k⟩ m.id r.id = false := by
    have hchild : childForest ⟨F ++ tree r Y ++ tree m Z, k⟩ m.id = Z := by
      rw [Document.childForest, find?_of_subtree hv hs]
      rfl
    rw [ids_tree, List.mem_cons, not_or] at hrZ
    rw [Document.contains, hchild, Bool.or_eq_false_iff, beq_eq_false_iff_ne]
    refine ⟨fun e => hrZ.1 e.symm, List.any_eq_false.2 fun n hn => Bool.eq_false_iff.1 ?_⟩
    exact isNode_eq_false_iff.2 fun e => hrZ.2 (e ▸ mem_ids_of_mem hn)
  have hfragment : isFragment ⟨F ++ tree r Y ++ tree m Z, k⟩ m.id = false := by
    rw [isFragment_eq_node?, node?, find?_of_subtree hv hs]
    exact hm
  have hprune : (F ++ tree r Y ++ tree m Z).prune (isNode m.id) = F ++ tree r Y := by
    have hself : (tree m Z).prune (isNode m.id) = nil := by
      rw [tree, prune, if_pos (isNode_iff.2 rfl)]
      rfl
    rw [prune_append, hself, append_nil, prune_of_none (isNode_of_not_mem hm')]
  have hgraft : ∀ g : Forest (Node L) → Forest (Node L), (tree r Y).graft (isNode r.id) g = tree r (g Y) := by
    intro g
    show cons r _ nil = _
    rw [if_pos (isNode_iff.2 rfl), graft_of_none (isNode_of_not_mem hrY)]
    rfl
  have hplace : place ⟨F ++ tree r Y ++ tree m Z, k⟩ r.id m.id none = ⟨F ++ tree r (Y ++ tree m Z), k⟩ := by
    rw [Document.place, find?_of_subtree hv hr, find?_of_subtree hv hs]
    dsimp only
    rw [hprune, graft_append, graft_of_none (isNode_of_not_mem hrF), hgraft, insertBefore_none]
  have hins : insertBefore ⟨F ++ tree r Y ++ tree m Z, k⟩ r.id m.id none =
      place ⟨F ++ tree r Y ++ tree m Z, k⟩ r.id m.id none := by
    rw [Document.insertBefore, hnot, hfragment]
    rfl
  refine ⟨hins.trans hplace, ?_⟩
  have hvalid := valid_place hv (mem_ids_of_mem (mem_labels_of_subtree hr)) (mem_ids_of_mem (mem_labels_of_subtree hs))
    hnot none
  rwa [hplace] at hvalid

mutual
/-- made node by node, a copy is what it is at once -/
theorem build_eq : (n : Markup.Node) → (d : Document L) → d.Valid → build n d = d.copy n
  | .element tag attributes children, d, hv => by
    have hadd := valid_add hv (.element tag attributes)
    rw [Document.add] at hadd
    have hall := (buildAll_eq children d.forest nil ⟨d.fresh, .element tag attributes, [], 0⟩ (d.fresh + 1) hadd).1
    rw [build, Document.add, hall, copy, plant.plantNode]
    rfl
  | .text data, d, _ => by rw [build, copy, plant.plantNode]; rfl
  | .comment data, d, _ => by rw [build, copy, plant.plantNode]; rfl
theorem buildAll_eq : (ns : List Markup.Node) → (F Y : Forest (Node L)) → (r : Node L) → (k : NodeId) →
    Valid ⟨F ++ tree r Y, k⟩ →
    buildAll ns r.id ⟨F ++ tree r Y, k⟩ = ⟨F ++ tree r (Y ++ (plant (L := L) ns k).1), (plant (L := L) ns k).2⟩ ∧
      Valid (L := L) ⟨F ++ tree r (Y ++ (plant (L := L) ns k).1), (plant (L := L) ns k).2⟩
  | [], F, Y, r, k, hv => by
    rw [buildAll, plant, append_nil]
    exact ⟨rfl, hv⟩
  | n :: ns, F, Y, r, k, hv => by
    obtain ⟨m, Z, hplant, hid, hkind⟩ := plantNode_tree (L := L) n k
    have hcopy := valid_copy hv n
    rw [copy] at hcopy
    dsimp only at hcopy
    rw [hplant] at hcopy
    obtain ⟨hins, hv'⟩ := append_last hcopy hkind
    obtain ⟨hall, hv''⟩ := buildAll_eq ns F (Y ++ tree m Z) r _ hv'
    have hjoin : Y ++ (plant (n :: ns) k).1 = Y ++ tree m Z ++ (plant ns (plant.plantNode (L := L) n k).2).1 := by
      rw [plant, hplant, append_assoc]
    have hnext : (plant (L := L) (n :: ns) k).2 = (plant (L := L) ns (plant.plantNode (L := L) n k).2).2 := by
      rw [plant]
    rw [hjoin, hnext]
    refine ⟨?_, hv''⟩
    rw [buildAll, build_eq n _ hv, copy]
    dsimp only
    rw [hplant, ← hall, ← hins, hid]
end

/-- a fragment that holds a copy of a markup forest is made by appending the copies to it -/
theorem buildAll_fragment {d : Document L} (hv : d.Valid) (nodes : List Markup.Node) :
    (buildAll nodes (d.add .fragment).2 (d.add .fragment).1, d.fresh) = d.addFragment nodes := by
  have hadd := valid_add hv .fragment
  rw [Document.add] at hadd
  rw [Document.add, (buildAll_eq nodes d.forest nil ⟨d.fresh, .fragment, [], 0⟩ (d.fresh + 1) hadd).1]
  rfl

mutual
theorem build_intact : (n : Markup.Node) → (d : Document L) → d.Intact → (build n d).1.Intact
  | .element _ _ children, _, hd => buildAll_intact children _ _ (hd.add _)
  | .text _, _, hd => hd.add _
  | .comment _, _, hd => hd.add _
theorem buildAll_intact : (ns : List Markup.Node) → (parent : NodeId) → (d : Document L) → d.Intact →
    (buildAll ns parent d).Intact
  | [], _, _, hd => hd
  | n :: ns, parent, d, hd => buildAll_intact ns parent _ ((build_intact n d hd).insertBefore parent _ none)
end

/-- a new fragment leaves a document intact -/
theorem Intact.addFragment {d : Document L} (hd : d.Intact) (nodes : List Markup.Node) :
    (d.addFragment nodes).1.Intact :=
  congrArg Prod.fst (buildAll_fragment hd.valid nodes) ▸ buildAll_intact nodes _ _ (hd.add .fragment)

end LiveMarkup.Document
