/-
The tree that a template stands for, with given props.

`Template.tree` is the skeleton with every marker replaced by what its placeholder stands for: a text node, an attribute,
the tree of the embedded template, or nothing. It is defined on trees and knows nothing of how they are written.

- `render_eq_print`: rendering writes this tree;
- `wellFormed_tree`: for bound attribute names that are names, the tree is well-formed;
- `read_render`: so what is rendered is read back as this tree, up to empty and neighbouring texts, whatever the values
  are;
- `tree_congr`: props with the same values give the same tree;
- `read_again`: what is read, a skeleton among others, is in normal form after one more pass.
-/
import LiveMarkup.Proofs.Markup.Joined
import LiveMarkup.Proofs.Template.Declared
import LiveMarkup.Proofs.Template.Skeleton

namespace LiveMarkup

open Markup Marker

variable {A : Type}

/-! ## Filling a skeleton -/

/-- what a placeholder stands for -/
inductive Part where
  | text (data : String)
  | attribute (name value : String)
  | child (nodes : List Markup.Node)
  | slot (nodes : List Markup.Node)
  | nothing
deriving Repr, Inhabited

def Part.binding? : Part → Option (String × String)
  | .attribute name value => some (name, value)
  | _ => none

/-- the attribute that a name stands for, if it is the marker of a bound attribute -/
def bindingOf? (parts : List Part) (name : String) : Option (String × String) :=
  match ofAttribute? name with
  | some ⟨.attribute, index⟩ => parts[index]?.bind Part.binding?
  | _ => none

/-- the attributes that are bound among `attributes`, in order; `look` says which attribute a name stands for -/
def bindingsOf (look : String → Option (String × String)) (attributes : Attributes) : Attributes :=
  attributes.filterMap fun a => look a.1

/-- attributes in place of their markers, where `bound` are the names bound on the element: the last binding of a name
stays, and neither an earlier one nor a literal attribute of that name does -/
def fillFrom (look : String → Option (String × String)) (bound : List String) : Attributes → Attributes
  | [] => []
  | (name, value) :: rest =>
    match ofAttribute? name with
    | none => if name ∈ bound then fillFrom look bound rest else (name, value) :: fillFrom look bound rest
    | some _ =>
      match look name with
      | none => fillFrom look bound rest
      | some b => if b.1 ∈ (bindingsOf look rest).names then fillFrom look bound rest else b :: fillFrom look bound rest

/-- the attributes of an element with bound attributes in place of their markers -/
def fillAttributes (look : String → Option (String × String)) (attributes : Attributes) : Attributes :=
  fillFrom look (bindingsOf look attributes).names attributes

/-- the nodes in place of an element marker -/
def markerNodes (parts : List Part) (m : Marker) : List Markup.Node :=
  match m.category, parts[m.index]? with
  | .text, some (.text data) => [.text data]
  | .child, some (.child nodes) => nodes
  | .slot, some (.slot nodes) => nodes
  | _, _ => []

mutual
def fillNode (parts : List Part) : Markup.Node → List Markup.Node
  | .element tag attributes children =>
    match ofTag? tag with
    | some m => markerNodes parts m
    | none => [.element tag (fillAttributes (bindingOf? parts) attributes) (fillNodes parts children)]
  | .text data => [.text data]
  | .comment data => [.comment data]
/-- a skeleton with the parts in place -/
def fillNodes (parts : List Part) : List Markup.Node → List Markup.Node
  | [] => []
  | n :: ns => fillNode parts n ++ fillNodes parts ns
end

mutual
/-- the tree that a template stands for -/
def Template.tree (props : Props) : Template A → List Markup.Node
  | ⟨_, placeholders, skeleton⟩ => fillNodes (partsOf props placeholders) skeleton
/-- what each placeholder stands for; slots are empty -/
def partsOf (props : Props) : List (Placeholder A (Template A)) → List Part
  | [] => []
  | .text prop :: ps => .text (props.text prop) :: partsOf props ps
  | .attribute prop name :: ps => .attribute name (props.text prop) :: partsOf props ps
  | .event _ _ :: ps => .nothing :: partsOf props ps
  | .action _ _ :: ps => .nothing :: partsOf props ps
  | .slot _ :: ps => .nothing :: partsOf props ps
  | .child t bindings :: ps => .child (t.tree (childProps bindings props)) :: partsOf props ps
end

/-! ## Rendering -/

/-- what a part is written as -/
def Part.piece : Part → Piece
  | .text data => .text data
  | .attribute name value => .attribute name value
  | .child nodes => .child (print nodes)
  | .slot nodes => .slot (print nodes)
  | .nothing => .silent

/-- pieces that write parts; an empty slot may stand for nothing -/
def Writes (pieces : List Piece) (parts : List Part) : Prop :=
  List.Forall₂ (fun piece part => piece = part.piece ∨ piece = .slot "" ∧ part = .nothing) pieces parts

theorem Writes.getElem? {pieces : List Piece} {parts : List Part} (h : Writes pieces parts) (i : Nat) :
    pieces[i]? = parts[i]?.map Part.piece ∨ pieces[i]? = some (.slot "") ∧ parts[i]? = some .nothing := by
  induction h generalizing i with
  | nil => exact .inl rfl
  | cons hp _ ih =>
    cases i with
    | zero =>
      rcases hp with rfl | ⟨rfl, rfl⟩
      · exact .inl rfl
      · exact .inr ⟨rfl, rfl⟩
    | succ i => exact ih i

theorem boundAttribute?_eq {pieces : List Piece} {parts : List Part} (h : Writes pieces parts) (name : String) :
    boundAttribute? pieces name = bindingOf? parts name := by
  unfold boundAttribute? bindingOf?
  rcases ofAttribute? name with - | ⟨category, index⟩
  · rfl
  · cases category <;> try rfl
    rcases h.getElem? index with hi | ⟨hi, hp⟩
    · dsimp only
      rw [hi]
      cases parts[index]? with
      | none => rfl
      | some part => cases part <;> rfl
    · dsimp only
      rw [hi, hp]
      rfl

theorem boundNames_eq {pieces : List Piece} {parts : List Part} (h : Writes pieces parts) (attributes : Attributes) :
    boundNames pieces attributes = (bindingsOf (bindingOf? parts) attributes).names := by
  unfold boundNames bindingsOf Entries.names
  rw [List.map_filterMap]
  exact List.filterMap_congr fun a _ => by rw [boundAttribute?_eq h]

theorem settleAttributes_eq {pieces : List Piece} {parts : List Part} (h : Writes pieces parts) (bound : List String)
    (attributes : Attributes) :
    settleAttributes pieces bound attributes = fillFrom (bindingOf? parts) bound attributes := by
  induction attributes with
  | nil => rfl
  | cons a attributes ih =>
    obtain ⟨name, value⟩ := a
    rw [settleAttributes, fillFrom, ih]
    cases ofAttribute? name with
    | none => simp [List.contains_eq_mem]
    | some m =>
      dsimp only
      rw [boundAttribute?_eq h]
      cases bindingOf? parts name with
      | none => rfl
      | some b => simp [List.contains_eq_mem, boundNames_eq h]

theorem printAll_append (parent : Option String) (ms ns : List Markup.Node) :
    printAll parent (ms ++ ns) = printAll parent ms ++ printAll parent ns := by
  induction ms with
  | nil => simp [printAll]
  | cons m ms ih => rw [List.cons_append, printAll, printAll, ih, String.append_assoc]

/-- outside raw text elements, what is printed does not depend on the parent -/
theorem printAll_parent {parent : Option String} (hp : parent.any isRawText = false) (ns : List Markup.Node) :
    printAll parent ns = print ns := by
  induction ns with
  | nil => rfl
  | cons n ns ih =>
    rw [print, printAll, printAll, ih, print]
    cases n with
    | element => rfl
    | comment => rfl
    | text data => rw [Node.print, Node.print, printText, printText, hp]; rfl

theorem writeMarker_eq {pieces : List Piece} {parts : List Part} (h : Writes pieces parts) {parent : Option String}
    (hp : parent.any isRawText = false) (m : Marker) :
    writeMarker pieces parent m = printAll parent (markerNodes parts m) := by
  obtain ⟨category, index⟩ := m
  unfold writeMarker markerNodes
  dsimp only
  rcases h.getElem? index with hi | ⟨hi, hn⟩
  · rw [hi]
    cases parts[index]? with
    | none => cases category <;> rfl
    | some part =>
      cases category <;> cases part <;> first
        | rfl
        | simp [Part.piece, printAll, Node.print, printAll_parent hp]
  · rw [hi, hn]
    cases category <;> rfl

mutual
theorem writeNode_eq {pieces : List Piece} {parts : List Part} (h : Writes pieces parts) :
    (n : Markup.Node) → n.WellFormed → (parent : Option String) → parent.any isRawText = false →
      writeNode pieces parent n = printAll parent (fillNode parts n)
  | .element tag attributes children, ⟨_, _, _, hr, hw⟩, parent, hp => by
    rw [writeNode, fillNode]
    cases ofTag? tag with
    | some m => exact writeMarker_eq h hp m
    | none =>
      have hchildren : writeNodes pieces (some tag) children = printAll (some tag) (fillNodes parts children) := by
        by_cases hraw : isRawText tag = true
        · rcases hr hraw with rfl | ⟨data, rfl, -⟩
          · rfl
          · simp [writeNodes, writeNode, fillNodes, fillNode, printAll, Node.print]
        · exact writeNodes_eq h children hw (some tag) (Bool.eq_false_iff.2 hraw)
      dsimp only
      rw [hchildren, settleAttributes_eq h, boundNames_eq h]
      simp [printAll, Node.print, fillAttributes]
  | .text data, _, _, _ => by simp [writeNode, fillNode, printAll, Node.print]
  | .comment data, _, _, _ => by simp [writeNode, fillNode, printAll, Node.print]
theorem writeNodes_eq {pieces : List Piece} {parts : List Part} (h : Writes pieces parts) :
    (ns : List Markup.Node) → WellFormed ns → (parent : Option String) → parent.any isRawText = false →
      writeNodes pieces parent ns = printAll parent (fillNodes parts ns)
  | [], _, _, _ => rfl
  | n :: ns, ⟨hn, hns⟩, parent, hp => by
    rw [writeNodes, writeNode_eq h n hn parent hp, writeNodes_eq h ns hns parent hp, fillNodes, printAll_append]
end

namespace Template

mutual
/-- rendering without slot content writes the tree -/
theorem render_eq_print : (t : Template A) → t.Everywhere (fun t => WellFormed t.skeleton) → (props : Props) →
    t.render props SlotMarkup.none = print (t.tree props)
  | ⟨_, placeholders, skeleton⟩, ⟨hw, hps⟩, props => by
    rw [Template.render, Template.tree]
    exact writeNodes_eq (writes_partsOf placeholders hps props) skeleton hw none rfl
theorem writes_partsOf : (ps : List (Placeholder A (Template A))) →
    EverywhereIn (fun t => WellFormed t.skeleton) ps → (props : Props) →
      Writes (piecesOf props SlotMarkup.none ps) (partsOf props ps)
  | [], _, _ => .nil
  | .text _ :: ps, h, props => .cons (.inl rfl) (writes_partsOf ps h props)
  | .attribute _ _ :: ps, h, props => .cons (.inl rfl) (writes_partsOf ps h props)
  | .event _ _ :: ps, h, props => .cons (.inl rfl) (writes_partsOf ps h props)
  | .action _ _ :: ps, h, props => .cons (.inl rfl) (writes_partsOf ps h props)
  | .slot _ :: ps, h, props => .cons (.inr ⟨rfl, rfl⟩) (writes_partsOf ps h props)
  | .child t bindings :: ps, ⟨ht, h⟩, props =>
    .cons (.inl (congrArg Piece.child (render_eq_print t ht (childProps bindings props)))) (writes_partsOf ps h props)
end

/-! ## Well-formed trees -/

/-- the names of bound attributes contain none of the characters that would end them when they are written -/
def PlainNames (t : Template A) : Prop :=
  ∀ prop name, .attribute prop name ∈ t.placeholders → ∀ c ∈ name.toList, c ≠ '=' ∧ c ≠ '>' ∧ c ≠ '/'

end Template

def Part.WellFormed : Part → Prop
  | .attribute name _ => IsAttributeName name
  | .child nodes => Markup.WellFormed nodes
  | .slot nodes => Markup.WellFormed nodes
  | _ => True

theorem wellFormed_append {ms ns : List Markup.Node} (hm : WellFormed ms) (hn : WellFormed ns) :
    WellFormed (ms ++ ns) := by
  rw [wellFormed_iff] at *
  intro n h
  rcases List.mem_append.1 h with h | h
  · exact hm n h
  · exact hn n h

theorem bindingOf?_wellFormed {parts : List Part} (hp : ∀ part ∈ parts, part.WellFormed) {name : String}
    {b : String × String} (h : bindingOf? parts name = some b) : IsAttributeName b.1 := by
  unfold bindingOf? at h
  split at h
  · next index _ =>
    obtain ⟨part, hpart, hb⟩ := Option.bind_eq_some_iff.1 h
    have hw := hp part (List.mem_of_getElem? hpart)
    rcases part with data | ⟨name, value⟩ | nodes | nodes | _
    · cases hb
    · cases hb; exact hw
    · cases hb
    · cases hb
    · cases hb
  · cases h

theorem fillFrom_wellFormed {parts : List Part} (hp : ∀ part ∈ parts, part.WellFormed) (bound : List String)
    {attributes : Attributes} (ha : ∀ a ∈ attributes, IsAttributeName a.1) :
    ∀ a ∈ fillFrom (bindingOf? parts) bound attributes, IsAttributeName a.1 := by
  induction attributes with
  | nil => exact fun a h => absurd h List.not_mem_nil
  | cons a attributes ih =>
    obtain ⟨name, value⟩ := a
    have ih := ih fun a h => ha a (List.mem_cons_of_mem _ h)
    have hcons : ∀ b : String × String, IsAttributeName b.1 →
        ∀ a ∈ b :: fillFrom (bindingOf? parts) bound attributes, IsAttributeName a.1 := by
      intro b hb a h
      rcases List.mem_cons.1 h with rfl | h
      · exact hb
      · exact ih a h
    rw [fillFrom]
    split
    · split
      · exact ih
      · exact hcons _ (ha _ List.mem_cons_self)
    · split
      · exact ih
      · next b hb =>
        split
        · exact ih
        · exact hcons _ (bindingOf?_wellFormed hp hb)

theorem markerNodes_wellFormed {parts : List Part} (hp : ∀ part ∈ parts, part.WellFormed) (m : Marker) :
    WellFormed (markerNodes parts m) := by
  unfold markerNodes
  split
  · exact ⟨trivial, trivial⟩
  · next h => exact hp _ (List.mem_of_getElem? h)
  · next h => exact hp _ (List.mem_of_getElem? h)
  · trivial

mutual
theorem fillNode_wellFormed {parts : List Part} (hp : ∀ part ∈ parts, part.WellFormed) :
    (n : Markup.Node) → n.WellFormed → WellFormed (fillNode parts n)
  | .element tag attributes children, ⟨ht, ha, hv, hr, hw⟩ => by
    rw [fillNode]
    cases ofTag? tag with
    | some m => exact markerNodes_wellFormed hp m
    | none =>
      refine ⟨⟨ht, fillFrom_wellFormed hp _ ha, fun h => by rw [hv h]; rfl, fun h => ?_,
        fillNodes_wellFormed hp children hw⟩, trivial⟩
      rcases hr h with rfl | ⟨data, rfl, hd⟩
      · exact .inl rfl
      · exact .inr ⟨data, rfl, hd⟩
  | .text _, _ => ⟨trivial, trivial⟩
  | .comment _, h => ⟨h, trivial⟩
/-- a well-formed skeleton with well-formed parts in place is well-formed -/
theorem fillNodes_wellFormed {parts : List Part} (hp : ∀ part ∈ parts, part.WellFormed) :
    (ns : List Markup.Node) → WellFormed ns → WellFormed (fillNodes parts ns)
  | [], _ => trivial
  | n :: ns, ⟨hn, hns⟩ => wellFormed_append (fillNode_wellFormed hp n hn) (fillNodes_wellFormed hp ns hns)
end

namespace Template

/-- a template whose tree is well-formed if those of its children are -/
structure Plain (t : Template A) : Prop where
  wellFormed : WellFormed t.skeleton
  named : ∀ prop name, .attribute prop name ∈ t.placeholders → IsAttributeName name

theorem Sound.plain {t : Template A} (h : t.Sound) (hn : t.PlainNames) : t.Plain := by
  refine ⟨h.wellFormed, fun prop name hp => ?_⟩
  obtain ⟨hne, hb, -⟩ := h.named prop name hp
  have hchars : ∀ c ∈ name.toList, isNameChar c = true := by
    intro c hc
    obtain ⟨h1, h2, h3⟩ := hn prop name hp c hc
    have hascii : isAsciiBlank c = false := by
      rw [Bool.eq_false_iff]
      exact fun h => Bool.eq_false_iff.1 (hb c hc) (isBlank_of_isAsciiBlank h)
    simp [isNameChar, hascii, h1, h2, h3]
  cases hcs : name.toList with
  | nil => exact absurd (String.toList_inj.1 hcs) hne
  | cons c cs => exact ⟨⟨c, cs, hcs, hb c (hcs ▸ List.mem_cons_self)⟩, hchars⟩

mutual
/-- the tree of a plain template is well-formed -/
theorem wellFormed_tree : (t : Template A) → t.Everywhere Plain → (props : Props) → WellFormed (t.tree props)
  | ⟨_, placeholders, skeleton⟩, ⟨hp, hps⟩, props => by
    rw [Template.tree]
    exact fillNodes_wellFormed (wellFormed_partsOf placeholders hp.named hps props) skeleton hp.wellFormed
theorem wellFormed_partsOf : (ps : List (Placeholder A (Template A))) →
    (∀ prop name, .attribute prop name ∈ ps → IsAttributeName name) → EverywhereIn Plain ps → (props : Props) →
      ∀ part ∈ partsOf props ps, part.WellFormed
  | [], _, _, _ => fun _ h => absurd h List.not_mem_nil
  | .text _ :: ps, hn, hps, props => List.forall_mem_cons.2
    ⟨trivial, wellFormed_partsOf ps (fun p n h => hn p n (List.mem_cons_of_mem _ h)) hps props⟩
  | .attribute prop name :: ps, hn, hps, props => List.forall_mem_cons.2
    ⟨hn prop name List.mem_cons_self, wellFormed_partsOf ps (fun p n h => hn p n (List.mem_cons_of_mem _ h)) hps props⟩
  | .event _ _ :: ps, hn, hps, props => List.forall_mem_cons.2
    ⟨trivial, wellFormed_partsOf ps (fun p n h => hn p n (List.mem_cons_of_mem _ h)) hps props⟩
  | .action _ _ :: ps, hn, hps, props => List.forall_mem_cons.2
    ⟨trivial, wellFormed_partsOf ps (fun p n h => hn p n (List.mem_cons_of_mem _ h)) hps props⟩
  | .slot _ :: ps, hn, hps, props => List.forall_mem_cons.2
    ⟨trivial, wellFormed_partsOf ps (fun p n h => hn p n (List.mem_cons_of_mem _ h)) hps props⟩
  | .child t bindings :: ps, hn, ⟨ht, hps⟩, props => List.forall_mem_cons.2
    ⟨wellFormed_tree t ht (childProps bindings props),
      wellFormed_partsOf ps (fun p n h => hn p n (List.mem_cons_of_mem _ h)) hps props⟩
end

/-! ## The same values -/

mutual
/-- props with the same values give the same tree -/
theorem tree_congr {p q : Props} (h : ∀ name, p.get? name = q.get? name) :
    (t : Template A) → t.tree p = t.tree q
  | ⟨_, placeholders, skeleton⟩ => by rw [Template.tree, Template.tree, partsOf_congr h placeholders]
theorem partsOf_congr {p q : Props} (h : ∀ name, p.get? name = q.get? name) :
    (ps : List (Placeholder A (Template A))) → partsOf p ps = partsOf q ps
  | [] => rfl
  | .text prop :: ps => by simp only [partsOf, Props.text, h, partsOf_congr h ps]
  | .attribute prop name :: ps => by simp only [partsOf, Props.text, h, partsOf_congr h ps]
  | .event _ _ :: ps => congrArg _ (partsOf_congr h ps)
  | .action _ _ :: ps => congrArg _ (partsOf_congr h ps)
  | .slot _ :: ps => congrArg _ (partsOf_congr h ps)
  | .child t bindings :: ps => by
    rw [partsOf, partsOf, childProps_congr fun b _ => h b.outer, partsOf_congr h ps]
end

end Template

/-! ## Shape -/

mutual
def Markup.Node.outline : Markup.Node → List Markup.Node
  | .element tag attributes children => [.element tag (attributes.map fun a => (a.1, "")) (outline children)]
  | .text _ => []
  | .comment data => [.comment data]
/-- a forest without texts and without the values of attributes -/
def outline : List Markup.Node → List Markup.Node
  | [] => []
  | n :: ns => n.outline ++ outline ns
end

theorem outline_append (ms ns : List Markup.Node) : outline (ms ++ ns) = outline ms ++ outline ns := by
  induction ms with
  | nil => rfl
  | cons m ms ih => rw [List.cons_append, outline, outline, ih, List.append_assoc]

theorem outline_consJoined (n : Markup.Node) (ns : List Markup.Node) :
    outline (consJoined n ns) = n.outline ++ outline ns := by
  fun_cases consJoined n ns with
  | case1 => rfl
  | case2 => rfl
  | case3 => rfl
  | case4 => rfl

mutual
theorem Markup.Node.outline_normalize : (n : Markup.Node) → n.normalize.outline = n.outline
  | .element _ _ children => by
    rw [Markup.Node.normalize, Markup.Node.outline, Markup.Node.outline, LiveMarkup.outline_normalize children]
  | .text _ => rfl
  | .comment _ => rfl
/-- dropping and joining texts leaves the outline alone -/
theorem outline_normalize : (ns : List Markup.Node) → outline (Markup.normalize ns) = outline ns
  | [] => rfl
  | n :: ns => by
    rw [Markup.normalize, outline_consJoined, Markup.Node.outline_normalize n, outline_normalize ns, outline]
end

/-- parts that differ in texts and values only -/
inductive Part.Alike : Part → Part → Prop
  | text (d e : String) : Alike (.text d) (.text e)
  | bound (name v w : String) : Alike (.attribute name v) (.attribute name w)
  | child {ms ns : List Markup.Node} (h : outline ms = outline ns) : Alike (.child ms) (.child ns)
  | nothing : Alike .nothing .nothing

def AlikeParts (ps qs : List Part) : Prop := List.Forall₂ Part.Alike ps qs

theorem AlikeParts.getElem? {ps qs : List Part} (h : AlikeParts ps qs) (i : Nat) :
    ps[i]? = none ∧ qs[i]? = none ∨ ∃ p q, ps[i]? = some p ∧ qs[i]? = some q ∧ p.Alike q := by
  induction h generalizing i with
  | nil => exact .inl ⟨rfl, rfl⟩
  | @cons p q _ _ hp _ ih =>
    cases i with
    | zero => exact .inr ⟨p, q, rfl, rfl, hp⟩
    | succ i => exact ih i

theorem bindingOf?_alike {ps qs : List Part} (h : AlikeParts ps qs) (name : String) :
    (bindingOf? ps name).map (·.1) = (bindingOf? qs name).map (·.1) := by
  unfold bindingOf?
  rcases ofAttribute? name with - | ⟨category, index⟩
  · rfl
  · cases category <;> try rfl
    rcases h.getElem? index with ⟨hp, hq⟩ | ⟨p, q, hp, hq, ha⟩
    · dsimp only
      rw [hp, hq]
    · dsimp only
      rw [hp, hq]
      cases ha <;> rfl

theorem bindingsOf_alike {ps qs : List Part} (h : AlikeParts ps qs) (attributes : Attributes) :
    (bindingsOf (bindingOf? ps) attributes).names = (bindingsOf (bindingOf? qs) attributes).names := by
  unfold bindingsOf Entries.names
  rw [List.map_filterMap, List.map_filterMap]
  exact List.filterMap_congr fun a _ => bindingOf?_alike h a.1

theorem fillFrom_alike {ps qs : List Part} (h : AlikeParts ps qs) (bound : List String) (attributes : Attributes) :
    (fillFrom (bindingOf? ps) bound attributes).map (fun a => (a.1, "")) =
      (fillFrom (bindingOf? qs) bound attributes).map fun a => (a.1, "") := by
  induction attributes with
  | nil => rfl
  | cons a attributes ih =>
    obtain ⟨name, value⟩ := a
    rw [fillFrom, fillFrom]
    split
    · split
      · exact ih
      · rw [List.map_cons, List.map_cons, ih]
    · have hb := bindingOf?_alike h name
      cases hp : bindingOf? ps name with
      | none =>
        rw [hp, Option.map_none, eq_comm, Option.map_eq_none_iff] at hb
        rw [hb]
        exact ih
      | some b =>
        rw [hp, Option.map_some, eq_comm, Option.map_eq_some_iff] at hb
        obtain ⟨c, hc, hbc⟩ := hb
        rw [hc]
        dsimp only
        rw [hbc, bindingsOf_alike h]
        split
        · exact ih
        · rw [List.map_cons, List.map_cons, ih, hbc]

theorem markerNodes_alike {ps qs : List Part} (h : AlikeParts ps qs) (m : Marker) :
    outline (markerNodes ps m) = outline (markerNodes qs m) := by
  obtain ⟨category, index⟩ := m
  unfold markerNodes
  dsimp only
  rcases h.getElem? index with ⟨hp, hq⟩ | ⟨p, q, hp, hq, ha⟩
  · rw [hp, hq]
  · rw [hp, hq]
    cases category <;> cases ha <;> first
      | rfl
      | assumption

mutual
theorem fillNode_alike {ps qs : List Part} (h : AlikeParts ps qs) :
    (n : Markup.Node) → outline (fillNode ps n) = outline (fillNode qs n)
  | .element tag attributes children => by
    rw [fillNode, fillNode]
    cases ofTag? tag with
    | some m => exact markerNodes_alike h m
    | none =>
      simp only [outline, Markup.Node.outline, List.append_nil]
      rw [fillNodes_alike h children, fillAttributes, fillAttributes, bindingsOf_alike h, fillFrom_alike h]
  | .text _ => rfl
  | .comment _ => rfl
/-- parts that differ in texts and values only give forests of the same outline -/
theorem fillNodes_alike {ps qs : List Part} (h : AlikeParts ps qs) :
    (ns : List Markup.Node) → outline (fillNodes ps ns) = outline (fillNodes qs ns)
  | [] => rfl
  | n :: ns => by
    rw [fillNodes, fillNodes, outline_append, outline_append, fillNode_alike h n, fillNodes_alike h ns]
end

namespace Template

mutual
/-- the outline of a template's tree is the same for all props -/
theorem outline_tree (p q : Props) : (t : Template A) → outline (t.tree p) = outline (t.tree q)
  | ⟨_, placeholders, skeleton⟩ => by
    rw [Template.tree, Template.tree]
    exact fillNodes_alike (alike_partsOf p q placeholders) skeleton
theorem alike_partsOf (p q : Props) : (ps : List (Placeholder A (Template A))) →
    AlikeParts (partsOf p ps) (partsOf q ps)
  | [] => .nil
  | .text _ :: ps => .cons (.text _ _) (alike_partsOf p q ps)
  | .attribute _ _ :: ps => .cons (.bound _ _ _) (alike_partsOf p q ps)
  | .event _ _ :: ps => .cons .nothing (alike_partsOf p q ps)
  | .action _ _ :: ps => .cons .nothing (alike_partsOf p q ps)
  | .slot _ :: ps => .cons .nothing (alike_partsOf p q ps)
  | .child t bindings :: ps =>
    .cons (.child (outline_tree (childProps bindings p) (childProps bindings q) t)) (alike_partsOf p q ps)
end

/-- **Values cannot inject markup.** What an accepted template without stems renders is read back as its tree, up to
empty and neighbouring texts; so its outline is the same for all props. -/
theorem read_render {t : Template A} (ha : t.Everywhere Accepted) (hf : t.Everywhere MarkerFree)
    (hn : t.Everywhere PlainNames) (p q : Props) :
    read (t.render p SlotMarkup.none) = normalize (t.tree p) ∧
      outline (read (t.render p SlotMarkup.none)) = outline (read (t.render q SlotMarkup.none)) := by
  have hs : t.Everywhere Sound := ha.sound hf
  have hplain : t.Everywhere Plain := Everywhere.imp (fun _ h hn => h.plain hn) t hs hn
  have hw : t.Everywhere fun t => WellFormed t.skeleton := Everywhere.imp (fun _ h _ => h.wellFormed) t hs hs
  have hread : ∀ p, read (t.render p SlotMarkup.none) = normalize (t.tree p) := fun p => by
    rw [render_eq_print t hw p, read_print_normalize (wellFormed_tree t hplain p)]
  refine ⟨hread p, ?_⟩
  rw [hread p, hread q, outline_normalize, outline_normalize, outline_tree p q t]

theorem Accepted.skeleton_read {t : Template A} (h : t.Accepted) : ∃ s, t.skeleton = read s := by
  obtain ⟨segments, holes, h⟩ := h
  obtain ⟨-, _, -, hs, -⟩ := define_cases h
  exact ⟨_, hs⟩

/-- **One pass of reading reaches a normal form.** Whatever text is read, the forest is well-formed and has no empty
text; read back from its printed form it has neighbouring texts joined and nothing else changed, and its printed form
stays what it is. So the markup of an accepted template is read as its skeleton with neighbouring texts joined: the same
elements, attributes and comments in the same places. -/
theorem read_again (s : String) :
    WellFormed (read s) ∧ Filled (read s) ∧ read (print (read s)) = joinTexts (read s) ∧
      print (read (print (read s))) = print (read s) ∧
      ∀ {A : Type} (t : Template A), t.Accepted → read t.markup = joinTexts t.skeleton ∧
        withoutTexts (read t.markup) = withoutTexts t.skeleton := by
  refine ⟨wellFormed_read s, filled_read s, read_print_read s, ?_, fun t ht => ?_⟩
  · rw [read_print_read, print_joinTexts (filled_read s)]
  · obtain ⟨source, hs⟩ := ht.skeleton_read
    have hread : read t.markup = joinTexts t.skeleton := by
      rw [markup, hs]
      exact read_print_read source
    exact ⟨hread, by rw [hread, withoutTexts_joinTexts]⟩

/-! ## A template in a template -/

/-- a paragraph with a bound title and a bound text -/
def paragraph : Template A :=
  ⟨["<p title=", ">", "</p>"], [.attribute "title" "title", .text "body"],
    [.element "p" [("data-attribute-0", "")] [.element "mc-text-1" [] []]]⟩

/-- the paragraph in a frame, with one prop for both of its own -/
def framed : Template A :=
  ⟨["<div>", "</div>"], [.child paragraph [⟨"title", "name"⟩, ⟨"body", "name"⟩]],
    [.element "div" [] [.element "mc-child-0" [] []]]⟩

/-- a rule, a slot and the paragraph, side by side -/
def stacked : Template A :=
  ⟨["<hr>", "", ""], [.slot "main", .child paragraph [⟨"title", "name"⟩, ⟨"body", "name"⟩]],
    [.element "hr" [] [], .element "mc-slot-0" [] [], .element "mc-child-1" [] []]⟩

/-- a button that is heard, around the paragraph -/
def bell : Template A :=
  ⟨["<button ", ">", "</button>"],
    [.event "click" "press", .child paragraph [⟨"title", "name"⟩, ⟨"body", "name"⟩]],
    [.element "button" [("data-event-0", "")] [.element "mc-child-1" [] []]]⟩

theorem paragraph_accepted : (paragraph : Template A).Accepted := by
  refine ⟨["<p title=", ">", "</p>"], [.name "title", .name "body"],
    define_eq_ok (c := ⟨["<p ", ">", "</p>"], [.attribute "title" "title", .text "body"]⟩) rfl ?_ rfl⟩
  rw [skeletonSource_congr ([.attribute "" "", .text ""] : List (Placeholder Unit Unit)) rfl]
  show read (skeletonSource 0 ["<p ", ">", "</p>"] _) = _
  decide +kernel

theorem framed_accepted : (framed : Template A).Everywhere Accepted := by
  refine ⟨⟨["<div>", "</div>"], [.directive (.component paragraph ["title=", "body=", ""] ["name", "name"])],
    define_eq_ok (c := ⟨["<div>", "</div>"], [.child paragraph [⟨"title", "name"⟩, ⟨"body", "name"⟩]]⟩) rfl ?_ rfl⟩,
    ⟨paragraph_accepted, trivial⟩, trivial⟩
  rw [skeletonSource_congr ([.child () []] : List (Placeholder Unit Unit)) rfl]
  show read (skeletonSource 0 ["<div>", "</div>"] _) = _
  decide +kernel

theorem bell_accepted : (bell : Template A).Everywhere Accepted := by
  refine ⟨⟨["<button ", ">", "</button>"], [.directive (.event "click" (some "press")),
      .directive (.component paragraph ["title=", "body=", ""] ["name", "name"])],
    define_eq_ok (c := ⟨["<button ", ">", "</button>"],
      [.event "click" "press", .child paragraph [⟨"title", "name"⟩, ⟨"body", "name"⟩]]⟩) rfl ?_ rfl⟩,
    ⟨paragraph_accepted, trivial⟩, trivial⟩
  rw [skeletonSource_congr ([.event "" "", .child () []] : List (Placeholder Unit Unit)) rfl]
  show read (skeletonSource 0 ["<button ", ">", "</button>"] _) = _
  decide +kernel

theorem stacked_accepted : (stacked : Template A).Everywhere Accepted := by
  refine ⟨⟨["<hr>", "", ""], [.directive (.slot (some "main")),
      .directive (.component paragraph ["title=", "body=", ""] ["name", "name"])],
    define_eq_ok (c := ⟨["<hr>", "", ""], [.slot "main", .child paragraph [⟨"title", "name"⟩, ⟨"body", "name"⟩]]⟩)
      rfl ?_ rfl⟩, ⟨paragraph_accepted, trivial⟩, trivial⟩
  rw [skeletonSource_congr ([.slot "", .child () []] : List (Placeholder Unit Unit)) rfl]
  show read (skeletonSource 0 ["<hr>", "", ""] _) = _
  decide +kernel

theorem framed_markerFree : (framed : Template A).Everywhere MarkerFree := by
  have hall : ∀ segment ∈ ["<p title=", ">", "</p>", "<div>", "</div>"], ∀ category ∈ Category.all,
      ¬ (stem category).toList <:+: lowerChars segment.toList := by
    decide +kernel
  have hfree : ∀ segment ∈ ["<p title=", ">", "</p>", "<div>", "</div>"], LiveMarkup.MarkerFree segment :=
    fun segment h category => hall segment h category (by cases category <;> decide)
  refine ⟨fun segment h => hfree segment ?_, ⟨fun segment h => hfree segment ?_, trivial⟩, trivial⟩
  · exact List.mem_append_right ["<p title=", ">", "</p>"] h
  · exact List.mem_append_left ["<div>", "</div>"] h

theorem bell_markerFree : (bell : Template A).Everywhere MarkerFree := by
  have hall : ∀ segment ∈ ["<p title=", ">", "</p>", "<button ", ">", "</button>"], ∀ category ∈ Category.all,
      ¬ (stem category).toList <:+: lowerChars segment.toList := by
    decide +kernel
  have hfree : ∀ segment ∈ ["<p title=", ">", "</p>", "<button ", ">", "</button>"], LiveMarkup.MarkerFree segment :=
    fun segment h category => hall segment h category (by cases category <;> decide)
  refine ⟨fun segment h => hfree segment ?_, ⟨fun segment h => hfree segment ?_, trivial⟩, trivial⟩
  · exact List.mem_append_right ["<p title=", ">", "</p>"] h
  · exact List.mem_append_left ["<button ", ">", "</button>"] h

theorem framed_plainNames : (framed : Template A).Everywhere PlainNames := by
  refine ⟨fun prop name h => ?_, ⟨fun prop name h => ?_, trivial⟩, trivial⟩
  · cases h with
    | tail _ h => cases h
  · cases h with
    | head =>
      intro c hc
      have hall : "title".toList.all (fun c => c != '=' && c != '>' && c != '/') = true := by decide
      have hone := List.all_eq_true.1 hall c hc
      simp only [Bool.and_eq_true, bne_iff_ne] at hone
      exact ⟨hone.1.1, hone.1.2, hone.2⟩
    | tail _ h => cases h with
      | tail _ h => cases h

/-- a value full of markup stays a value -/
theorem read_render_framed :
    read ((framed : Template Unit).render (Props.ofList [("name", .str "\"<b>&lt;")]) SlotMarkup.none) =
      [.element "div" [] [.element "p" [("title", "\"<b>&lt;")] [.text "\"<b>&lt;"]]] :=
  (read_render framed_accepted framed_markerFree framed_plainNames _ ∅).1.trans rfl

theorem read_again_framed :
    withoutTexts (read (framed : Template Unit).markup) = [.element "div" [] [.element "mc-child-0" [] []]] :=
  ((read_again "").2.2.2.2 framed framed_accepted.1).2.trans rfl

end Template

end LiveMarkup
