/-
What can be looked up in a document.

A node's face is the node with its attributes as a function from names to values, so their order and repeated names do
not count. Two documents are alike if they are the same forest of faces (`Document.Alike`). Then nobody who looks up
nodes, links, tags, data, attributes or listeners can tell them apart, and every change leaves them alike:

- `Alike.children`, `Alike.parent?`, `Alike.node?`, `Alike.findElement?`, `Alike.findAttribute?`: looking;
- `Alike.reads`: what is looked at, in one structure;
- `Alike.insertBefore`, `Alike.replaceWith`, `Alike.discard`, `Alike.write`: the same change on both;
- `Alike.renamed`: one may rename an attribute in its place and the other take it off and set the new one.
-/
import LiveMarkup.Proofs.Document.Part
import LiveMarkup.Proofs.Document.Operations
import LiveMarkup.Proofs.Document.Rename

namespace LiveMarkup

open Forest

variable {L : Type}

/-! ## Forests of other labels -/

namespace Forest

variable {α β : Type} {h : α → β} {p : α → Bool} {q : β → Bool}

theorem find?_map (hq : ∀ a, q (h a) = p a) (f : Forest α) :
    (f.map h).find? q = (f.find? p).map fun t => (h t.1, t.2.map h) := by
  rw [find?_eq_subtrees, find?_eq_subtrees, subtrees_map, List.find?_map]
  exact congrArg (fun t => Option.map _ (List.find? t f.subtrees)) (funext fun t => hq t.1)

theorem parentOf?_map (hq : ∀ a, q (h a) = p a) (f : Forest α) : (f.map h).parentOf? q = (f.parentOf? p).map h := by
  have hany : ∀ cs : Forest α, (cs.map h).roots.any q = cs.roots.any p := by
    intro cs
    rw [roots_map, List.any_map]
    exact congrArg (List.any cs.roots) (funext hq)
  induction f with
  | nil => rfl
  | cons a cs rest ihc ihr =>
    rw [map, parentOf?, parentOf?, hany, ihc, ihr]
    split
    · rfl
    · cases cs.parentOf? p <;> rfl

/-- `map_update` where only the labels that are there count -/
theorem map_update_of {g : α → α} {g' : β → β} (hq : ∀ a, q (h a) = p a) (f : Forest α)
    (hg : ∀ a ∈ f.labels, p a = true → h (g a) = g' (h a)) : (f.update p g).map h = (f.map h).update q g' := by
  induction f with
  | nil => rfl
  | cons a cs rest ihc ihr =>
    rw [labels, List.forall_mem_cons, List.forall_mem_append] at hg
    rw [update, map, map, update, hq, ihc hg.2.1, ihr hg.2.2]
    cases hp : p a with
    | true => rw [if_pos rfl, if_pos rfl, hg.1 hp]
    | false => rfl

/-- what is changed and stays picked may be changed again -/
theorem update_update {g : α → α} (g' : α → α) (hp : ∀ a, p (g a) = p a) (f : Forest α) :
    (f.update p g).update p g' = f.update p fun a => g' (g a) := by
  induction f with
  | nil => rfl
  | cons a cs rest ihc ihr =>
    rw [update, update, update, ihc, ihr]
    cases ha : p a with
    | true => rw [if_pos rfl, hp, ha, if_pos rfl, if_pos rfl]
    | false => rw [if_neg Bool.false_ne_true, ha, if_neg Bool.false_ne_true, if_neg Bool.false_ne_true]

end Forest

/-! ## Faces -/

/-- a node with its attributes as they are looked up -/
structure Face (L : Type) where
  id : NodeId
  /-- what the node is, without attributes -/
  kind : Kind
  look : String → Option String
  listeners : List (Listening L)
  nextTicket : Nat

def Node.face (n : Node L) : Face L :=
  ⟨n.id, n.kind.mapAttributes fun _ => [], n.kind.attributes.get?, n.listeners, n.nextTicket⟩

namespace Document

def isFace (id : NodeId) (φ : Face L) : Bool := φ.id == id

theorem isFace_face (id : NodeId) (n : Node L) : isFace id n.face = isNode id n := rfl

/-- the same forest of faces -/
structure Alike (d d' : Document L) : Prop where
  faces : d'.forest.map Node.face = d.forest.map Node.face
  fresh : d'.fresh = d.fresh

theorem ids_roots_eq (f : Forest (Node L)) : f.roots.map (·.id) = (f.map Node.face).roots.map Face.id := by
  rw [roots_map, List.map_map]
  rfl

namespace Alike

variable {d d' : Document L}

theorem refl (d : Document L) : d.Alike d := ⟨rfl, rfl⟩

variable (h : d.Alike d') (id : NodeId)
include h

/-! ## Looking -/

theorem find? : (d'.find? id).map (fun t => (t.1.face, t.2.map Node.face)) =
    (d.find? id).map fun t => (t.1.face, t.2.map Node.face) := by
  have hfind := fun e : Document L => Forest.find?_map (isFace_face id) e.forest
  rw [Document.find?, Document.find?, ← hfind, ← hfind, h.faces]

theorem node? : (d'.node? id).map Node.face = (d.node? id).map Node.face := by
  have := congrArg (Option.map Prod.fst) (h.find? id)
  rw [Option.map_map, Option.map_map] at this
  rw [Document.node?, Document.node?, Option.map_map, Option.map_map]
  exact this

theorem childForest : (d'.childForest id).map Node.face = (d.childForest id).map Node.face := by
  have hfind := h.find? id
  rw [Document.childForest, Document.childForest]
  cases hd : d.find? id with
  | none =>
    rw [hd, Option.map_none, Option.map_eq_none_iff] at hfind
    rw [hfind]
  | some t =>
    rw [hd, Option.map_some, Option.map_eq_some_iff] at hfind
    obtain ⟨t', ht', he⟩ := hfind
    rw [ht']
    exact congrArg Prod.snd he

theorem children : d'.children id = d.children id := by
  rw [Document.children, Document.children, ids_roots_eq, ids_roots_eq, h.childForest]

theorem parent? : d'.parent? id = d.parent? id := by
  have hparent : ∀ e : Document L, e.parent? id = ((e.forest.map Node.face).parentOf? (isFace id)).map Face.id := by
    intro e
    rw [Forest.parentOf?_map (isFace_face id), Option.map_map]
    rfl
  rw [hparent, hparent, h.faces]

theorem contains (inner : NodeId) : d'.contains id inner = d.contains id inner := by
  have hany : ∀ f : Forest (Node L), f.labels.any (isNode inner) = (f.map Node.face).labels.any (isFace inner) := by
    intro f
    rw [labels_map, List.any_map]
    rfl
  rw [Document.contains, Document.contains, hany, hany, h.childForest]

/-- what depends on the face of a node is the same -/
theorem look {γ : Type} {g : Node L → γ} (g' : Face L → γ) (hg : ∀ n, g n = g' n.face) :
    (d'.node? id).map g = (d.node? id).map g := by
  have hface : ∀ o : Option (Node L), o.map g = (o.map Node.face).map g' := by
    intro o
    rw [Option.map_map]
    exact congrArg (Option.map · o) (funext hg)
  rw [hface, hface, h.node?]

theorem isFragment : d'.isFragment id = d.isFragment id := by
  have hsame := h.look id (fun φ => φ.kind.isFragment) fun n => (Kind.isFragment_mapAttributes _ n.kind).symm
  have hany : ∀ o : Option (Node L), o.any (fun n => n.kind.isFragment) = (o.map fun n => n.kind.isFragment).any fun b => b := by
    intro o
    cases o <;> rfl
  rw [isFragment_eq_node?, isFragment_eq_node?, hany, hany, hsame]

/-- attributes are looked up with the same result -/
theorem attributes (name : String) : (d'.attributes id).get? name = (d.attributes id).get? name := by
  have hsame : (d'.node? id).map (fun n => n.kind.attributes.get? name) =
      (d.node? id).map fun n => n.kind.attributes.get? name := h.look id (fun φ => φ.look name) fun _ => rfl
  have hlook : ∀ e : Document L,
      (e.attributes id).get? name = ((e.node? id).map fun n => n.kind.attributes.get? name).join := by
    intro e
    rw [Document.attributes, kind?_eq_node?]
    cases e.node? id <;> rfl
  rw [hlook, hlook, hsame]

theorem firstBelow? {test : Node L → Bool} (test' : Face L → Bool) (ht : ∀ n, test' n.face = test n) :
    d'.firstBelow? id test = d.firstBelow? id test := by
  have hfirst : ∀ f : Forest (Node L), (f.labels.find? test).map (·.id) =
      ((f.map Node.face).labels.find? test').map Face.id := by
    intro f
    have hcomp : test' ∘ Node.face = test := funext ht
    rw [labels_map, List.find?_map, hcomp, Option.map_map]
    rfl
  rw [Document.firstBelow?, Document.firstBelow?, hfirst, hfirst, h.childForest]

theorem findElement? (tag : String) : d'.findElement? id tag = d.findElement? id tag := by
  refine h.firstBelow? id (fun φ => φ.kind.tag?.any (sameLetters · tag)) fun n => ?_
  rw [Node.face, Kind.tag?_mapAttributes]

theorem findAttribute? (name : String) : d'.findAttribute? id name = d.findAttribute? id name :=
  h.firstBelow? id (fun φ => (φ.look name).isSome) fun _ => rfl

/-- what a node is, attributes aside -/
theorem kind? : (d'.kind? id).map (Kind.mapAttributes fun _ => []) = (d.kind? id).map (Kind.mapAttributes fun _ => []) := by
  have hkind : ∀ e : Document L, (e.kind? id).map (Kind.mapAttributes fun _ => []) =
      (e.node? id).map fun n => n.kind.mapAttributes fun _ => [] := by
    intro e
    rw [kind?_eq_node?, Option.map_map]
    rfl
  rw [hkind, hkind]
  exact h.look id (fun φ => φ.kind) fun _ => rfl

theorem isRoot : d'.forest.roots.any (isNode id) = d.forest.roots.any (isNode id) := by
  have hany : ∀ f : Forest (Node L), f.roots.any (isNode id) = (f.map Node.face).roots.any (isFace id) := by
    intro f
    rw [roots_map, List.any_map]
    rfl
  rw [hany, hany, h.faces]

/-- a node is in both documents, with the same face and the same faces below it, or in neither -/
theorem find?_cases : (d.find? id = none ∧ d'.find? id = none) ∨ ∃ n cs n' cs', d.find? id = some (n, cs) ∧
    d'.find? id = some (n', cs') ∧ n'.face = n.face ∧ cs'.map Node.face = cs.map Node.face := by
  have hfind := h.find? id
  cases hd : d.find? id with
  | none =>
    rw [hd, Option.map_none, Option.map_eq_none_iff] at hfind
    exact .inl ⟨rfl, hfind⟩
  | some t =>
    rw [hd, Option.map_some, Option.map_eq_some_iff] at hfind
    obtain ⟨t', ht', he⟩ := hfind
    obtain ⟨hface, hcs⟩ := Prod.mk.inj he
    exact .inr ⟨t.1, t.2, t'.1, t'.2, rfl, ht', hface, hcs⟩

end Alike

/-- what is read in the one document is read in the other: which nodes are where, tags and texts, and each attribute of
each element -/
structure ReadsAlike (d d' : Document L) : Prop where
  roots : d'.forest.roots.map (·.id) = d.forest.roots.map (·.id)
  children : ∀ id, d'.children id = d.children id
  parent? : ∀ id, d'.parent? id = d.parent? id
  kind? : ∀ id, (d'.kind? id).map (Kind.mapAttributes fun _ => []) = (d.kind? id).map (Kind.mapAttributes fun _ => [])
  look : ∀ id name, (d'.attributes id).get? name = (d.attributes id).get? name

theorem Alike.reads {d d' : Document L} (h : d.Alike d') : d.ReadsAlike d' where
  roots := by rw [ids_roots_eq, ids_roots_eq, h.faces]
  children := h.children
  parent? := h.parent?
  kind? := h.kind?
  look := h.attributes

/-! ## Moving and making -/

theorem map_tree {α β : Type} (g : α → β) (a : α) (cs : Forest α) : (tree a cs).map g = tree (g a) (cs.map g) := rfl

namespace Alike

variable {d d' : Document L} (h : d.Alike d')
include h

theorem detach (id : NodeId) : (d.detach id).Alike (d'.detach id) := by
  rw [Document.detach, Document.detach, h.parent?]
  cases d.parent? id with
  | none => exact h
  | some p =>
    rcases h.find?_cases id with ⟨hd, hd'⟩ | ⟨n, cs, n', cs', hd, hd', hface, hcs⟩
    · rw [hd, hd']
      exact h
    · rw [hd, hd']
      refine ⟨?_, h.fresh⟩
      dsimp only
      rw [map_append, map_append, map_prune (isFace_face id), map_prune (isFace_face id), h.faces, map_tree, map_tree, hface,
        hcs]

theorem place (p c : NodeId) (anchor : Option NodeId) : (d.place p c anchor).Alike (d'.place p c anchor) := by
  rw [Document.place, Document.place]
  rcases h.find?_cases p with ⟨hp, hp'⟩ | ⟨_, _, _, _, hp, hp', -, -⟩
  · rw [hp, hp']
    exact h
  · rcases h.find?_cases c with ⟨hc, hc'⟩ | ⟨n, cs, n', cs', hc, hc', hface, hcs⟩
    · rw [hp, hp', hc, hc']
      exact h
    · rw [hp, hp', hc, hc']
      refine ⟨?_, h.fresh⟩
      have hplaced : ∀ (f : Forest (Node L)) (n : Node L) (cs : Forest (Node L)),
          ((f.prune (isNode c)).graft (isNode p) (.insertBefore (fun m => anchor.any (isNode · m)) (.tree n cs))).map
            Node.face = ((f.map Node.face).prune (isFace c)).graft (isFace p)
              (.insertBefore (fun φ => anchor.any (isFace · φ)) (.tree n.face (cs.map Node.face))) := by
        intro f n cs
        have hinsert := map_insertBefore (h := Node.face) (p := fun m => anchor.any (isNode · m))
          (q := fun φ => anchor.any (isFace · φ)) (fun _ => rfl) (tree n cs)
        rw [map_graft (isFace_face p) hinsert, map_prune (isFace_face c), map_tree]
      dsimp only
      rw [hplaced, hplaced, h.faces, hface, hcs]

theorem places (row : List NodeId) (p : NodeId) (anchor : Option NodeId) :
    (row.foldl (fun d c => d.place p c anchor) d).Alike (row.foldl (fun d c => d.place p c anchor) d') := by
  induction row generalizing d d' with
  | nil => exact h
  | cons c row ih => exact ih (h.place p c anchor)

theorem insertBefore (p c : NodeId) (anchor : Option NodeId) :
    (d.insertBefore p c anchor).Alike (d'.insertBefore p c anchor) := by
  rw [Document.insertBefore, Document.insertBefore, h.contains, h.isFragment, h.children]
  split
  · exact h
  · split
    · exact h.places _ p anchor
    · exact h.place p c anchor

theorem replaceWith (old new : NodeId) : (d.replaceWith old new).Alike (d'.replaceWith old new) := by
  rw [Document.replaceWith, Document.replaceWith, h.parent?]
  cases d.parent? old with
  | none => exact h
  | some p => exact (h.insertBefore p new (some old)).detach old

theorem discard (held : NodeId → Bool) (id : NodeId) : (d.discard held id).Alike (d'.discard held id) := by
  have hdetach := h.detach id
  refine ⟨?_, hdetach.fresh⟩
  rw [Document.discard, Document.discard, release, release]
  dsimp only [retain]
  have hkeep : ∀ e : Document L, (∀ x, e.forest.roots.any (isNode x) = (d.detach id).forest.roots.any (isNode x)) →
      (e.forest.retain fun n => held n.id || (e.forest.roots.any (isNode n.id) && n.id != id)).map Node.face =
        (e.forest.map Node.face).retain fun φ =>
          held φ.id || ((d.detach id).forest.roots.any (isNode φ.id) && φ.id != id) := by
    intro e he
    refine map_retain (fun n => ?_) e.forest
    rw [he]
    rfl
  rw [hkeep _ fun _ => rfl, hkeep _ hdetach.isRoot, hdetach.faces]

theorem add (kind : Kind) : (d.add kind).1.Alike (d'.add kind).1 ∧ (d'.add kind).2 = (d.add kind).2 := by
  refine ⟨⟨?_, congrArg (· + 1) h.fresh⟩, h.fresh⟩
  rw [Document.add, Document.add]
  dsimp only
  rw [map_append, map_append, h.faces, h.fresh]

theorem addFragment (nodes : List Markup.Node) :
    (d.addFragment nodes).1.Alike (d'.addFragment nodes).1 ∧ (d'.addFragment nodes).2 = (d.addFragment nodes).2 := by
  rw [Document.addFragment, Document.addFragment]
  dsimp only
  rw [h.fresh]
  refine ⟨⟨?_, rfl⟩, rfl⟩
  rw [map_append, map_append, h.faces]

end Alike

/-! ## Writing -/


end Document

def Face.mapLook (γ : (String → Option String) → String → Option String) (φ : Face L) : Face L :=
  match φ.kind with
  | .element _ _ => { φ with look := γ φ.look }
  | _ => φ

theorem Node.face_mapAttributes {g : Attributes → Attributes} (γ : (String → Option String) → String → Option String)
    (n : Node L) (hg : (g n.kind.attributes).get? = γ n.kind.attributes.get?) :
    (Writing.mapAttributes g n).face = n.face.mapLook γ := by
  rw [Writing.mapAttributes, face, face]
  cases hk : n.kind with
  | element tag attributes =>
    rw [hk] at hg
    exact congrArg (fun look => (⟨n.id, .element tag [], look, n.listeners, n.nextTicket⟩ : Face L)) hg
  | _ => rfl

namespace Document

/-- takes the attribute `source` off an element and gives it `target`=`value`, in the place of the other or not -/
def renamed (inPlace : Bool) (d : Document L) (id : NodeId) (source target value : String) : Document L :=
  if inPlace then d.renameAttribute id source target value
  else (d.removeAttribute id source).setAttribute id target value

/-- the attribute `source` is on the element at most once -/
def Once (d : Document L) (id : NodeId) (source : String) : Prop :=
  ∀ n, d.node? id = some n → (Entries.names n.kind.attributes).count source ≤ 1

/-- what is looked up after an attribute has been renamed -/
def lookRenamed (source target value : String) (look : String → Option String) (n : String) : Option String :=
  if n = target then some value else if n = source then none else look n

/-- both ways of renaming an attribute give the same faces -/
theorem faces_renamed {d : Document L} (hv : d.Valid) {id : NodeId} {source : String} (h : d.Once id source)
    (inPlace : Bool) (target value : String) : (d.renamed inPlace id source target value).forest.map Node.face =
      (d.forest.map Node.face).update (isFace id) (Face.mapLook (lookRenamed source target value)) := by
  have hupdate : ∀ g : Attributes → Attributes,
      (∀ as : Attributes, (Entries.names as).count source ≤ 1 → (g as).get? = lookRenamed source target value as.get?) →
      (d.update id (Writing.mapAttributes g)).forest.map Node.face =
        (d.forest.map Node.face).update (isFace id) (Face.mapLook (lookRenamed source target value)) := by
    intro g hg
    refine map_update_of (isFace_face id) d.forest fun n hn hid => n.face_mapAttributes _ (hg _ ?_)
    exact h n (isNode_iff.1 hid ▸ node?_of_mem hv hn)
  cases inPlace with
  | true =>
    show (d.updateAttributes id (Entries.rename source target value)).forest.map Node.face = _
    rw [Writing.updateAttributes_eq]
    exact hupdate _ fun as has => funext (Entries.get?_rename_once has target value)
  | false =>
    have htwice : (d.updateAttributes id (Entries.erase source)).updateAttributes id (Entries.set target value) =
        d.update id (Writing.mapAttributes fun as => (as.erase source).set target value) := by
      have hboth : ∀ n : Node L, Writing.mapAttributes (Entries.set target value)
          (Writing.mapAttributes (Entries.erase source) n) =
            Writing.mapAttributes (fun as => (as.erase source).set target value) n := by
        intro n
        obtain ⟨x, kind, listeners, ticket⟩ := n
        cases kind <;> rfl
      rw [Writing.updateAttributes_eq, Writing.updateAttributes_eq]
      have hforest := update_update (p := isNode id) (g := Writing.mapAttributes (Entries.erase source))
        (Writing.mapAttributes (Entries.set target value)) (fun _ => rfl) d.forest
      rw [funext hboth] at hforest
      exact congrArg (Document.mk · d.fresh) hforest
    show ((d.updateAttributes id (Entries.erase source)).updateAttributes id (Entries.set target value)).forest.map
      Node.face = _
    rw [htwice]
    exact hupdate _ fun as _ => funext (Entries.get?_erase_set as source target value)

namespace Alike

variable {d d' : Document L} (h : d.Alike d')
include h

theorem update (id : NodeId) {g : Node L → Node L} (g' : Face L → Face L) (hg : ∀ n, (g n).face = g' n.face) :
    (d.update id g).Alike (d'.update id g) := by
  refine ⟨?_, h.fresh⟩
  rw [Document.update, Document.update]
  dsimp only
  rw [map_update (isFace_face id) hg, map_update (isFace_face id) hg, h.faces]

/-- the same is written into a node, unless it is that an attribute is renamed -/
theorem write (id : NodeId) {writing : Writing L}
    (hw : ∀ source target value, writing ≠ .renameAttribute source target value) :
    (writing.perform id d).Alike (writing.perform id d') := by
  rw [Writing.perform_eq, Writing.perform_eq]
  cases writing with
  | setAttribute name value =>
    refine h.update id (Face.mapLook fun look n => if n = name then some value else look n) fun n => ?_
    exact n.face_mapAttributes _ (funext (Entries.get?_set n.kind.attributes name value))
  | removeAttribute name =>
    refine h.update id (Face.mapLook fun look n => if n = name then none else look n) fun n => ?_
    exact n.face_mapAttributes _ (funext (Entries.get?_erase n.kind.attributes name))
  | renameAttribute source target value => exact absurd rfl (hw source target value)
  | setData data =>
    refine h.update id (fun φ => { φ with kind := φ.kind.withData data }) fun n => ?_
    obtain ⟨x, kind, listeners, ticket⟩ := n
    cases kind <;> rfl
  | listen event listener =>
    exact h.update id (fun φ =>
      { φ with listeners := φ.listeners ++ [⟨φ.nextTicket, event, listener⟩], nextTicket := φ.nextTicket + 1 })
      fun _ => rfl
  | unlisten ticket =>
    exact h.update id (fun φ => { φ with listeners := φ.listeners.filter (·.ticket != ticket) }) fun _ => rfl

theorem listen (id : NodeId) (event : String) (listener : L) :
    (d.listen id event listener).1.Alike (d'.listen id event listener).1 ∧
      (d'.listen id event listener).2 = (d.listen id event listener).2 := by
  have hwrite : (Writing.listen event listener).perform id d |>.Alike ((Writing.listen event listener).perform id d') :=
    h.write id nofun
  refine ⟨hwrite, ?_⟩
  have hticket := h.look id (g := fun n => n.nextTicket) Face.nextTicket fun _ => rfl
  rw [Document.node?, Document.node?, Option.map_map, Option.map_map] at hticket
  exact congrArg (Option.getD · 0) hticket

/-- an attribute that is on the element at most once is renamed either way -/
theorem renamed (hv : d.Valid) (hv' : d'.Valid) {id : NodeId} {source : String} (ho : d.Once id source)
    (ho' : d'.Once id source) (inPlace inPlace' : Bool) (target value : String) :
    (d.renamed inPlace id source target value).Alike (d'.renamed inPlace' id source target value) := by
  have hfresh : ∀ (e : Document L) b, (e.renamed b id source target value).fresh = e.fresh := fun e b => by
    cases b <;> rfl
  exact ⟨by rw [faces_renamed hv ho, faces_renamed hv' ho', h.faces], by rw [hfresh, hfresh, h.fresh]⟩

end Alike

end Document

end LiveMarkup
