/-
Names that are bound more than once, and changes.

Rendering decides between the bindings of a name by their order. A change set reaches them by the props that it names:
each attribute and each prop of a child that such a prop is bound to takes the new value. So what a component shows
depends on what it was given and when, and `History` keeps that. `Template.latest` is the tree that comes of it: an
attribute shows what was given last, since the component was mounted, to any prop that its element binds to its name, and
the last binding if nothing was; a child has what was forwarded to it.

The entries of a change set come in some order, and so do those of what it forwards to a child: a child takes them in an
order of its own, and so do the children below it (`ChangeSet`). If no change names an overridden prop, the orders are of no
account.

- `latest_eq_tree`: if no change names an overridden prop, this is the tree for the current props;
- `undisputed_of_bindsOnce`: where names are bound once, no change does.
-/
import LiveMarkup.Proofs.Template.Once
import LiveMarkup.Proofs.Template.Spots

namespace LiveMarkup

open Markup Marker

variable {A T : Type}

/-! ## Histories -/

/-- a change set, and the orders in which nested components take what it forwards to them -/
structure ChangeSet where
  props : Props
  orders : Orders

/-- what a change forwards to the child at a placeholder -/
def ChangeSet.forward (index : Nat) (bindings : List Binding) (change : ChangeSet) : ChangeSet :=
  ⟨change.orders.arrange [index] (forwarded bindings change.props), change.orders.below index⟩

/-- props after changes -/
def Props.after (p : Props) (changes : List ChangeSet) : Props :=
  changes.foldl (fun p change => p.extend change.props.entries) p

/-- what a component was given: at first, in changes before it was mounted last, and in changes since -/
structure History where
  first : Props
  before : List ChangeSet
  since : List ChangeSet

namespace History

/-- nothing was given after the first props -/
def start (props : Props) : History := ⟨props, [], []⟩

def told (h : History) (change : ChangeSet) : History := { h with since := h.since ++ [change] }

def mounted (h : History) : History := ⟨h.first, h.before ++ h.since, []⟩

/-- what the child at a placeholder was given -/
def forward (index : Nat) (bindings : List Binding) (h : History) : History :=
  ⟨childProps bindings h.first, h.before.map (·.forward index bindings), h.since.map (·.forward index bindings)⟩

def atMount (h : History) : Props := h.first.after h.before

/-- the values that were given since -/
def given (h : History) : Entries Value := h.since.flatMap (·.props.entries)

def props (h : History) : Props := h.first.after (h.before ++ h.since)

end History

namespace Props

theorem after_append (p : Props) (changes more : List ChangeSet) : p.after (changes ++ more) = (p.after changes).after more :=
  List.foldl_append

theorem after_eq_extend (p : Props) (changes : List ChangeSet) :
    p.after changes = p.extend (changes.flatMap (·.props.entries)) := by
  rw [after, extend, List.foldl_flatMap]
  rfl

theorem get?_extend_reverse (p : Props) (es : Entries Value) (name : String) :
    (p.extend es).get? name = (Entries.get? es.reverse name).or (p.get? name) := by
  induction es generalizing p with
  | nil => rfl
  | cons e es ih =>
    rw [List.reverse_cons, Entries.get?_append, Option.or_assoc]
    refine (ih (p.insert e.1 e.2)).trans (congrArg _ ?_)
    rw [get?_insert, Entries.get?_cons, Entries.get?_nil]
    by_cases hn : e.1 = name
    · rw [if_pos hn, if_pos hn.symm, Option.some_or]
    · rw [if_neg hn, if_neg fun e => hn e.symm, Option.none_or]

/-- the last entry of a name is the one that counts -/
theorem get?_ofList (es : Entries Value) (name : String) : (ofList es).get? name = Entries.get? es.reverse name :=
  (get?_extend_reverse ∅ es name).trans Option.or_none

/-- a look-up does not depend on the order -/
theorem get?_of_perm {p q : Props} (h : p.entries.Perm q.entries) (name : String) : p.get? name = q.get? name := by
  cases hq : q.get? name with
  | some value => exact Entries.get?_of_mem p.nodup (h.mem_iff.2 (Entries.mem_of_get? hq))
  | none =>
    have hnot : name ∉ q.entries.names := Entries.get?_eq_none_iff.1 hq
    exact Entries.get?_eq_none_iff.2 fun hin => hnot ((h.map Prod.fst).mem_iff.1 hin)

end Props

namespace Orders

theorem get?_arrange (orders : Orders) (path : List Nat) (changed : Props) (name : String) :
    (orders.arrange path changed).get? name = changed.get? name :=
  Props.get?_of_perm (orders.perm path changed) name

theorem arrange_empty (orders : Orders) (path : List Nat) : orders.arrange path ∅ = ∅ := by
  have hperm : (orders.arrange path ∅).entries.Perm [] := orders.perm path ∅
  generalize orders.arrange path ∅ = p at hperm
  obtain ⟨entries, hn⟩ := p
  obtain rfl : entries = [] := hperm.eq_nil
  rfl

end Orders

/-- nothing comes of an empty change set -/
theorem ChangeSet.forward_empty (orders : Orders) (index : Nat) (bindings : List Binding) :
    ChangeSet.forward index bindings ⟨∅, orders⟩ = ⟨∅, orders.below index⟩ := by
  rw [forward]
  exact congrArg (ChangeSet.mk · _) (orders.arrange_empty [index])

namespace History

variable (h : History)

theorem props_eq_extend : h.props = h.atMount.extend h.given := by
  rw [props, Props.after_append, Props.after_eq_extend (h.first.after h.before)]
  rfl

theorem props_told (change : ChangeSet) : (h.told change).props = h.props.extend change.props.entries := by
  rw [props, told, ← List.append_assoc, Props.after_append]
  rfl

theorem given_told (change : ChangeSet) : (h.told change).given = h.given ++ change.props.entries := by
  rw [given, told, List.flatMap_append, List.flatMap_singleton]
  rfl

theorem props_mounted : h.mounted.props = h.props := by
  rw [props, mounted, List.append_nil]
  rfl

theorem forward_told (index : Nat) (bindings : List Binding) (change : ChangeSet) :
    (h.told change).forward index bindings = (h.forward index bindings).told (change.forward index bindings) := by
  rw [forward, told, List.map_append]
  rfl

theorem forward_mounted (index : Nat) (bindings : List Binding) :
    h.mounted.forward index bindings = (h.forward index bindings).mounted := by
  rw [forward, mounted, List.map_append]
  rfl

end History

/-! ## The latest tree -/

/-- the name and the prop of a bound attribute, if a name is its marker -/
def boundTo? (ps : List (Placeholder A T)) (name : String) : Option (String × String) :=
  match ofAttribute? name with
  | some ⟨.attribute, index⟩ => (ps[index]?.bind Placeholder.attribute?).map Prod.swap
  | _ => none

/-- the names that an element binds, each with its prop -/
def bindingPairs (ps : List (Placeholder A T)) (attributes : Attributes) : Entries String :=
  bindingsOf (boundTo? ps) attributes

/-- the props that are bound to a name -/
def sourcesOf (pairs : Entries String) (name : String) : List String := (pairs.filter (·.1 = name)).map (·.2)

/-- the text of the last entry of one of these props; without one, `text` -/
def latestText (props : List String) (text : String) (entries : Entries Value) : String :=
  entries.foldl (fun text e => if e.1 ∈ props then e.2.toText else text) text

/-- the attributes that markers of an element stand for, when these entries were given after `p` was shown -/
def latestBinding? (ps : List (Placeholder A T)) (p : Props) (entries : Entries Value) (attributes : Attributes)
    (name : String) : Option (String × String) :=
  (boundTo? ps name).map fun b =>
    (b.1, latestText (sourcesOf (bindingPairs ps attributes) b.1) (p.text b.2) entries)

/-- the attributes of an element, when these entries were given after `p` was shown -/
def latestAttributes (ps : List (Placeholder A T)) (p : Props) (entries : Entries Value) (attributes : Attributes) :
    Attributes :=
  fillAttributes (latestBinding? ps p entries attributes) attributes

mutual
/-- the tree of a component with this history -/
def Template.latest (h : History) : Template A → List Markup.Node
  | ⟨_, placeholders, skeleton⟩ =>
    furnishNodes (latestAttributes placeholders h.atMount h.given) (latestParts h 0 placeholders) skeleton
/-- what its placeholders stand for, which begin with number `index` -/
def latestParts (h : History) (index : Nat) : List (Placeholder A (Template A)) → List Part
  | [] => []
  | .text prop :: ps => .text (h.props.text prop) :: latestParts h (index + 1) ps
  | .attribute prop name :: ps => .attribute name (h.props.text prop) :: latestParts h (index + 1) ps
  | .event _ _ :: ps => .nothing :: latestParts h (index + 1) ps
  | .action _ _ :: ps => .nothing :: latestParts h (index + 1) ps
  | .slot _ :: ps => .nothing :: latestParts h (index + 1) ps
  | .child t bindings :: ps => .child (t.latest (h.forward index bindings)) :: latestParts h (index + 1) ps
end

/-- what the placeholder with this number stands for in a component with this history -/
def Placeholder.latestPart (h : History) (index : Nat) : Placeholder A (Template A) → Part
  | .text prop => .text (h.props.text prop)
  | .attribute prop name => .attribute name (h.props.text prop)
  | .child t bindings => .child (t.latest (h.forward index bindings))
  | _ => .nothing

theorem getElem?_latestParts (h : History) (index i : Nat) (ps : List (Placeholder A (Template A))) :
    (latestParts h index ps)[i]? = ps[i]?.map (Placeholder.latestPart h (index + i)) := by
  induction ps generalizing index i with
  | nil => rfl
  | cons p ps ih =>
    have hcons : latestParts h index (p :: ps) = p.latestPart h index :: latestParts h (index + 1) ps := by
      cases p <;> rfl
    rw [hcons]
    cases i with
    | zero => rfl
    | succ i => rw [List.getElem?_cons_succ, List.getElem?_cons_succ, ih, Nat.add_right_comm, Nat.add_assoc]

section

variable {ps : List (Placeholder A T)}

theorem boundTo?_eq_none {name : String} (h : ofAttribute? name = none) : boundTo? ps name = none := by rw [boundTo?, h]

theorem boundTo?_eq_some_iff {name : String} {b : String × String} : boundTo? ps name = some b ↔
    ∃ i : Nat, ofAttribute? name = some ⟨.attribute, i⟩ ∧ ps[i]? = some (.attribute b.2 b.1) := by
  have hswap : ∀ i : Nat, (ps[i]?.bind Placeholder.attribute?).map Prod.swap = some b ↔ ps[i]? = some (.attribute b.2 b.1) := by
    intro i
    rw [Option.map_eq_some_iff]
    constructor
    · rintro ⟨e, he, rfl⟩
      obtain ⟨p, hp, hpe⟩ := Option.bind_eq_some_iff.1 he
      rw [hp, Placeholder.attribute?_eq_some_iff.1 hpe]
      rfl
    · exact fun hp => ⟨b.swap, by rw [hp]; rfl, rfl⟩
  unfold boundTo?
  split
  · next i hm =>
    rw [hswap]
    constructor
    · exact fun hp => ⟨i, hm, hp⟩
    · rintro ⟨j, hj, hp⟩
      obtain ⟨-, rfl⟩ := Marker.mk.inj (Option.some.inj (hm.symm.trans hj))
      exact hp
  · next hm =>
    refine ⟨nofun, ?_⟩
    rintro ⟨i, hi, -⟩
    exact absurd hi (hm i)

/-- the attributes of a template's parts are those of its placeholders -/
theorem bindingOf?_partsOf (p : Props) (ps : List (Placeholder A (Template A))) (name : String) :
    bindingOf? (partsOf p ps) name = (boundTo? ps name).map fun b => (b.1, p.text b.2) := by
  unfold bindingOf? boundTo?
  rcases ofAttribute? name with - | ⟨category, index⟩
  · rfl
  · cases category <;> try rfl
    dsimp only
    rw [partsOf_eq_map, List.getElem?_map]
    cases ps[index]? with
    | none => rfl
    | some q => cases q <;> rfl

theorem mem_sourcesOf {pairs : Entries String} {name prop : String} : prop ∈ sourcesOf pairs name ↔ (name, prop) ∈ pairs := by
  rw [sourcesOf, List.mem_map]
  constructor
  · rintro ⟨⟨n, q⟩, he, rfl⟩
    obtain ⟨hin, hn⟩ := List.mem_filter.1 he
    obtain rfl : n = name := of_decide_eq_true hn
    exact hin
  · exact fun h => ⟨(name, prop), List.mem_filter.2 ⟨h, decide_eq_true rfl⟩, rfl⟩

theorem latestBinding?_eq_none {p : Props} {entries : Entries Value} {as : Attributes} {name : String}
    (h : ofAttribute? name = none) : latestBinding? ps p entries as name = none := by
  rw [latestBinding?, boundTo?_eq_none h]
  rfl

/-- when nothing was given since, the attributes are those of the props -/
theorem latestBinding?_nil (p : Props) (as : Attributes) (name : String) :
    latestBinding? ps p [] as name = (boundTo? ps name).map fun b => (b.1, p.text b.2) := rfl

/-- one more entry: it is shown by the names that its prop is bound to -/
theorem latestBinding?_concat (p : Props) (entries : Entries Value) (as : Attributes) (prop : String) (value : Value)
    {names : List String} (hn : ∀ name ∈ Entries.names (bindingPairs ps as),
      name ∈ names ↔ (name, prop) ∈ bindingPairs ps as) {s : String} (hs : s ∈ Entries.names as) :
    latestBinding? ps p (entries ++ [(prop, value)]) as s =
      revalue names value.toText (latestBinding? ps p entries as) s := by
  rw [revalue, latestBinding?, latestBinding?, Option.map_map]
  cases hb : boundTo? ps s with
  | none => rfl
  | some b =>
    have hmem : b.1 ∈ Entries.names (bindingPairs ps as) := List.mem_map_of_mem (mem_bindingsOf hs hb)
    refine congrArg some (Prod.ext rfl ?_)
    dsimp only [latestText]
    rw [List.foldl_append]
    by_cases hprop : (b.1, prop) ∈ bindingPairs ps as
    · exact (if_pos (mem_sourcesOf.2 hprop)).trans (if_pos ((hn _ hmem).2 hprop)).symm
    · exact (if_neg fun h => hprop (mem_sourcesOf.1 h)).trans (if_neg fun h => hprop ((hn _ hmem).1 h)).symm

theorem names_latestBinding? (p : Props) (entries : Entries Value) (as : Attributes) :
    Entries.names (bindingsOf (latestBinding? ps p entries as) as) = Entries.names (bindingPairs ps as) := by
  refine names_bindingsOf (fun s => ?_) as
  rw [latestBinding?, Option.map_map]
  rfl

end

/-! ## Disputes -/

/-- the source is bound to a target to which another source is bound after it -/
def Overridden (pairs : Entries String) (source : String) : Prop :=
  ∃ target, (target, source) ∈ pairs ∧ Entries.get? pairs.reverse target ≠ some source

/-- the bindings whose outer prop has a value -/
def presentPairs (bindings : List Binding) (p : Props) : Entries String :=
  (bindings.filter fun b => (p.get? b.outer).isSome).map fun b => (b.child, b.outer)

/-- no change set names an outer prop that is overridden by one with a value -/
def Settled (bindings : List Binding) : Props → List ChangeSet → Prop
  | _, [] => True
  | p, change :: changes =>
    (∀ e ∈ change.props.entries, ¬ Overridden (presentPairs bindings (p.extend change.props.entries)) e.1) ∧
      Settled bindings (p.extend change.props.entries) changes

mutual
/-- no change since mounting names an attribute's prop that is overridden on its element, and no change a prop that is
overridden at a child placeholder, at any depth -/
def Template.Undisputed (h : History) : Template A → Prop
  | ⟨_, placeholders, skeleton⟩ =>
    (∀ as ∈ attributesOfAll skeleton, ∀ e ∈ h.given, ¬ Overridden (bindingPairs placeholders as) e.1) ∧
      UndisputedIn h 0 placeholders
def UndisputedIn (h : History) (index : Nat) : List (Placeholder A (Template A)) → Prop
  | [] => True
  | .child t bindings :: ps =>
    Settled bindings h.first (h.before ++ h.since) ∧ t.Undisputed (h.forward index bindings) ∧
      UndisputedIn h (index + 1) ps
  | _ :: ps => UndisputedIn h (index + 1) ps
end

theorem get?_map_snd {α β : Type} (f : String → α → β) (es : Entries α) (name : String) :
    Entries.get? (es.map fun e => (e.1, f e.1 e.2)) name = (Entries.get? es name).map (f name) := by
  induction es with
  | nil => rfl
  | cons e es ih =>
    rw [List.map_cons, Entries.get?_cons, ih, Entries.get?_cons]
    by_cases hn : e.1 = name
    · rw [if_pos hn, if_pos hn, hn]
      rfl
    · rw [if_neg hn, if_neg hn]

/-- where a name is bound once, nothing is overridden -/
theorem not_overridden {pairs : Entries String} (h : pairs.names.Nodup) (source : String) : ¬ Overridden pairs source := by
  rintro ⟨target, hin, hne⟩
  have hnodup : (Entries.names pairs.reverse).Nodup := by
    rw [Entries.names, List.map_reverse, List.nodup_reverse]
    exact h
  exact hne (Entries.get?_of_mem hnodup (List.mem_reverse.2 hin))

/-- an undisputed text is that of the last binding -/
theorem latestText_eq {props : List String} {prop : String} {entries : Entries Value}
    (h : ∀ e ∈ entries, e.1 ∈ props ↔ e.1 = prop) (p : Props) :
    latestText props (p.text prop) entries = (p.extend entries).text prop := by
  induction entries generalizing p with
  | nil => rfl
  | cons e entries ih =>
    rw [List.forall_mem_cons] at h
    refine Eq.trans ?_ (ih h.2 (p.insert e.1 e.2))
    rw [latestText, List.foldl_cons, Props.text_insert]
    by_cases he : e.1 = prop
    · rw [if_pos (h.1.2 he), if_pos he.symm]
      rfl
    · rw [if_neg fun hin => he (h.1.1 hin), if_neg fun e => he e.symm]
      rfl

/-- undisputed attributes are those for the current props -/
theorem latestAttributes_eq {ps : List (Placeholder A (Template A))} {as : Attributes} {entries : Entries Value}
    (h : ∀ e ∈ entries, ¬ Overridden (bindingPairs ps as) e.1) (p : Props) :
    latestAttributes ps p entries as = fillAttributes (bindingOf? (partsOf (p.extend entries) ps)) as := by
  have hmap : ∀ f : String → String → String,
      bindingsOf (fun s => (boundTo? ps s).map fun b => (b.1, f b.1 b.2)) as =
        (bindingPairs ps as).map fun b => (b.1, f b.1 b.2) := fun f => (List.map_filterMap).symm
  have hlast : ∀ (f : String → String → String) (t : String),
      Entries.get? (bindingsOf (fun s => (boundTo? ps s).map fun b => (b.1, f b.1 b.2)) as).reverse t =
        (Entries.get? (bindingPairs ps as).reverse t).map (f t) := fun f t => by
    rw [hmap, ← List.map_reverse, get?_map_snd]
  rw [latestAttributes, funext (bindingOf?_partsOf (p.extend entries) ps)]
  refine fillAttributes_congr_last (fun s => ?_) fun t => ?_
  · rw [latestBinding?, Option.map_map, Option.map_map]
    rfl
  · refine (hlast (fun name prop => latestText (sourcesOf (bindingPairs ps as) name) (p.text prop) entries) t).trans
      (Eq.trans ?_ (hlast (fun _ prop => (p.extend entries).text prop) t).symm)
    cases hprop : Entries.get? (bindingPairs ps as).reverse t with
    | none => rfl
    | some prop =>
      refine congrArg some (latestText_eq (fun e he => ?_) p)
      rw [mem_sourcesOf]
      constructor
      · intro hin
        by_contra hne
        exact h e he ⟨t, hin, fun hlast => hne (Option.some.inj (hlast.symm.trans hprop))⟩
      · rintro rfl
        exact List.mem_reverse.1 (Entries.mem_of_get? hprop)

/-! ## Children -/

section

variable {bindings : List Binding} {p q changed : Props}

/-- a child has the last of the bindings that have a value -/
theorem get?_childProps_present (bindings : List Binding) (p : Props) (name : String) :
    (childProps bindings p).get? name = (Entries.get? (presentPairs bindings p).reverse name).bind p.get? := by
  rw [childProps, Props.get?_ofList, presentPairs, ← List.map_reverse, ← List.filter_reverse, ← List.filterMap_reverse]
  generalize bindings.reverse = bs
  induction bs with
  | nil => rfl
  | cons b bs ih =>
    rw [List.filterMap_cons, List.filter_cons]
    cases hv : p.get? b.outer with
    | none => exact ih
    | some value =>
      rw [Option.map_some, Option.isSome_some, if_pos rfl, List.map_cons, Entries.get?_cons, Entries.get?_cons, ih]
      by_cases hn : b.child = name
      · rw [if_pos hn, if_pos hn, Option.bind_some, hv]
      · rw [if_neg hn, if_neg hn]

theorem mem_presentPairs {e : String × String} : e ∈ presentPairs bindings p ↔
    ∃ b ∈ bindings, (p.get? b.outer).isSome = true ∧ (b.child, b.outer) = e := by
  simp only [presentPairs, List.mem_map, List.mem_filter, and_assoc]

/-- what is not forwarded does not change -/
theorem childProps_eq_of_not_named {name : String} (h : ∀ b ∈ bindings, b.child = name → p.get? b.outer = q.get? b.outer) :
    (childProps bindings p).get? name = (childProps bindings q).get? name := by
  rw [childProps, childProps, Props.get?_ofList, Props.get?_ofList, ← List.filterMap_reverse, ← List.filterMap_reverse]
  have hr : ∀ b ∈ bindings.reverse, b.child = name → p.get? b.outer = q.get? b.outer :=
    fun b hb => h b (List.mem_reverse.1 hb)
  generalize bindings.reverse = bs at hr
  induction bs with
  | nil => rfl
  | cons b bs ih =>
    rw [List.forall_mem_cons] at hr
    have ih := ih hr.2
    by_cases hn : b.child = name
    · rw [List.filterMap_cons, List.filterMap_cons, hr.1 hn]
      cases q.get? b.outer with
      | none => exact ih
      | some value => rw [Option.map_some, Entries.get?_cons, Entries.get?_cons, if_pos hn, if_pos hn]
    · rw [List.filterMap_cons, List.filterMap_cons]
      cases p.get? b.outer <;> cases q.get? b.outer <;>
        simpa only [Option.map_none, Option.map_some, Entries.get?_cons, if_neg hn] using ih

theorem mem_forwardedEntries {e : String × Value} :
    (e ∈ changed.entries.flatMap fun e => (bindings.filter (·.outer == e.1)).map fun b => (b.child, e.2)) ↔
      ∃ b ∈ bindings, (b.outer, e.2) ∈ changed.entries ∧ b.child = e.1 := by
  rw [List.mem_flatMap]
  constructor
  · rintro ⟨d, hd, hin⟩
    obtain ⟨b, hb, rfl⟩ := List.mem_map.1 hin
    obtain ⟨hb, ho⟩ := List.mem_filter.1 hb
    exact ⟨b, hb, by rw [eq_of_beq ho]; exact hd, rfl⟩
  · rintro ⟨b, hb, hin, he⟩
    refine ⟨(b.outer, e.2), hin, List.mem_map.2 ⟨b, List.mem_filter.2 ⟨hb, beq_self_eq_true _⟩, ?_⟩⟩
    rw [he]

/-- if a change set names no overridden prop, forwarding it gives a child what the changed component gives it -/
theorem childProps_extend
    (hs : ∀ e ∈ changed.entries, ¬ Overridden (presentPairs bindings (p.extend changed.entries)) e.1)
    (hq : ∀ name, q.get? name = (childProps bindings p).get? name) (name : String) :
    (q.extend (forwarded bindings changed).entries).get? name =
      (childProps bindings (p.extend changed.entries)).get? name := by
  rw [Props.get?_extend, hq, forwarded, Props.get?_ofList]
  cases hv : Entries.get? (changed.entries.flatMap fun e =>
      (bindings.filter (·.outer == e.1)).map fun b => (b.child, e.2)).reverse name with
  | some value =>
    -- the outer prop has a new value, and it is the last that has one
    obtain ⟨b, hb, hin, rfl⟩ := mem_forwardedEntries.1 (List.mem_reverse.1 (Entries.mem_of_get? hv))
    have hvalue : (p.extend changed.entries).get? b.outer = some value := by
      rw [Props.get?_extend, Props.get?, Entries.get?_of_mem changed.nodup hin, Option.some_or]
    have hpresent : (b.child, b.outer) ∈ presentPairs bindings (p.extend changed.entries) :=
      mem_presentPairs.2 ⟨b, hb, by rw [hvalue]; rfl, rfl⟩
    have hlast : Entries.get? (presentPairs bindings (p.extend changed.entries)).reverse b.child = some b.outer := by
      by_contra hne
      exact hs _ hin ⟨b.child, hpresent, hne⟩
    rw [Option.some_or, get?_childProps_present, hlast, Option.bind_some, hvalue]
  | none =>
    rw [Option.none_or]
    refine childProps_eq_of_not_named fun b hb hn => ?_
    have hnot : b.outer ∉ Entries.names changed.entries := by
      intro hin
      obtain ⟨e, he, ho⟩ := List.mem_map.1 hin
      refine Entries.get?_eq_none_iff.1 hv (List.mem_map.2 ⟨(name, e.2), List.mem_reverse.2 ?_, rfl⟩)
      exact mem_forwardedEntries.2 ⟨b, hb, by rw [← ho]; exact he, hn⟩
    exact (Props.get?_extend_of_not_mem p hnot).symm

/-- what was forwarded to a child, in whatever order, is what the component forwards now -/
theorem get?_after_forwarded {changes : List ChangeSet} (hs : Settled bindings p changes)
    (hq : ∀ name, q.get? name = (childProps bindings p).get? name) (index : Nat) (name : String) :
    (q.after (changes.map (ChangeSet.forward index bindings))).get? name =
      (childProps bindings (p.after changes)).get? name := by
  induction changes generalizing p q with
  | nil => exact hq name
  | cons change changes ih =>
    refine ih hs.2 fun name => ?_
    calc (q.extend (change.orders.arrange [index] (forwarded bindings change.props)).entries).get? name
      _ = (q.extend (forwarded bindings change.props).entries).get? name := by
        rw [Props.get?_extend, Props.get?_extend, change.orders.get?_arrange]
      _ = (childProps bindings (p.extend change.props.entries)).get? name := childProps_extend hs.1 hq name

theorem get?_forward {h : History} (hs : Settled bindings h.first (h.before ++ h.since)) (index : Nat) (name : String) :
    (h.forward index bindings).props.get? name = (childProps bindings h.props).get? name := by
  have := get?_after_forwarded hs (fun _ => rfl) index name
  rwa [List.map_append] at this

end

/-! ## Undisputed changes -/

namespace Template

mutual
/-- **Undisputed changes.** If no change names an overridden prop, what is shown is the tree for the current props. -/
theorem latest_eq_tree : (t : Template A) → (h : History) → t.Undisputed h → t.latest h = t.tree h.props
  | ⟨_, placeholders, skeleton⟩, h, ⟨hattributes, hps⟩ => by
    rw [Template.latest, Template.tree, latestParts_eq placeholders h 0 hps]
    refine furnishNodes_eq skeleton fun as has => ?_
    rw [latestAttributes_eq (hattributes as has), ← h.props_eq_extend]
theorem latestParts_eq : (ps : List (Placeholder A (Template A))) → (h : History) → (index : Nat) →
    UndisputedIn h index ps → latestParts h index ps = partsOf h.props ps
  | [], _, _, _ => rfl
  | .text _ :: ps, h, index, hu => congrArg _ (latestParts_eq ps h (index + 1) hu)
  | .attribute _ _ :: ps, h, index, hu => congrArg _ (latestParts_eq ps h (index + 1) hu)
  | .event _ _ :: ps, h, index, hu => congrArg _ (latestParts_eq ps h (index + 1) hu)
  | .action _ _ :: ps, h, index, hu => congrArg _ (latestParts_eq ps h (index + 1) hu)
  | .slot _ :: ps, h, index, hu => congrArg _ (latestParts_eq ps h (index + 1) hu)
  | .child t bindings :: ps, h, index, ⟨hs, ht, hu⟩ => by
    rw [latestParts, partsOf, latest_eq_tree t _ ht, tree_congr (get?_forward hs index), latestParts_eq ps h (index + 1) hu]
end

mutual
theorem undisputed_start : (t : Template A) → (p : Props) → t.Undisputed (.start p)
  | ⟨_, placeholders, _⟩, p => ⟨fun _ _ _ he => absurd he List.not_mem_nil, undisputedIn_start placeholders 0 p⟩
theorem undisputedIn_start : (ps : List (Placeholder A (Template A))) → (index : Nat) → (p : Props) →
    UndisputedIn (.start p) index ps
  | [], _, _ => trivial
  | .child t bindings :: ps, index, p =>
    ⟨trivial, undisputed_start t (childProps bindings p), undisputedIn_start ps (index + 1) p⟩
  | .text _ :: ps, index, p => undisputedIn_start ps (index + 1) p
  | .attribute _ _ :: ps, index, p => undisputedIn_start ps (index + 1) p
  | .event _ _ :: ps, index, p => undisputedIn_start ps (index + 1) p
  | .action _ _ :: ps, index, p => undisputedIn_start ps (index + 1) p
  | .slot _ :: ps, index, p => undisputedIn_start ps (index + 1) p
end

/-- without changes, what is shown is the tree for the first props -/
theorem latest_start (t : Template A) (p : Props) : t.latest (.start p) = t.tree p :=
  latest_eq_tree t _ (undisputed_start t p)

/-- the names that an element binds are distinct, whatever their values are -/
theorem BindsOnce.nodup_pairs {t : Template A} (h : t.BindsOnce) (hw : t.Everywhere fun t => WellFormed t.skeleton) :
    ∀ as ∈ attributesOfAll t.skeleton, (bindingPairs t.placeholders as).names.Nodup := by
  intro as has
  cases t with
  | mk segments placeholders skeleton =>
    have hnodup := h.elements.nodup as has
    rw [boundNames_eq (writes_partsOf placeholders hw.2 ∅)] at hnodup
    refine (congrArg List.Nodup (names_bindingsOf (fun s => ?_) as)).mp hnodup
    rw [bindingOf?_partsOf, Option.map_map]
    rfl

theorem BindsOnce.settled {t u : Template A} {bindings : List Binding} (h : t.BindsOnce)
    (hu : .child u bindings ∈ t.placeholders) (p : Props) (changes : List ChangeSet) : Settled bindings p changes := by
  induction changes generalizing p with
  | nil => trivial
  | cons change changes ih =>
    refine ⟨fun e _ => not_overridden ?_ e.1, ih _⟩
    rw [Entries.names, presentPairs, List.map_map]
    exact (List.filter_sublist.map _).nodup (h.children u bindings hu)

mutual
/-- where names are bound once, no change is disputed -/
theorem undisputed_of_bindsOnce : (t : Template A) → t.Everywhere BindsOnce →
    t.Everywhere (fun t => WellFormed t.skeleton) → (h : History) → t.Undisputed h
  | ⟨_, placeholders, _⟩, ⟨ho, hos⟩, ⟨hw, hws⟩, h =>
    ⟨fun as has e _ => not_overridden (ho.nodup_pairs ⟨hw, hws⟩ as has) e.1,
      undisputedIn_of_bindsOnce placeholders hos hws h 0 fun _ _ hu => ho.settled hu _ _⟩
theorem undisputedIn_of_bindsOnce : (ps : List (Placeholder A (Template A))) → EverywhereIn BindsOnce ps →
    EverywhereIn (fun t => WellFormed t.skeleton) ps → (h : History) → (index : Nat) →
    (∀ u bindings, .child u bindings ∈ ps → Settled bindings h.first (h.before ++ h.since)) → UndisputedIn h index ps
  | [], _, _, _, _, _ => trivial
  | .child t bindings :: ps, ⟨ho, hos⟩, ⟨hw, hws⟩, h, index, hs =>
    ⟨hs t bindings List.mem_cons_self, undisputed_of_bindsOnce t ho hw _,
      undisputedIn_of_bindsOnce ps hos hws h (index + 1) fun u bs hu => hs u bs (List.mem_cons_of_mem _ hu)⟩
  | .text _ :: ps, hos, hws, h, index, hs =>
    undisputedIn_of_bindsOnce ps hos hws h (index + 1) fun u bs hu => hs u bs (List.mem_cons_of_mem _ hu)
  | .attribute _ _ :: ps, hos, hws, h, index, hs =>
    undisputedIn_of_bindsOnce ps hos hws h (index + 1) fun u bs hu => hs u bs (List.mem_cons_of_mem _ hu)
  | .event _ _ :: ps, hos, hws, h, index, hs =>
    undisputedIn_of_bindsOnce ps hos hws h (index + 1) fun u bs hu => hs u bs (List.mem_cons_of_mem _ hu)
  | .action _ _ :: ps, hos, hws, h, index, hs =>
    undisputedIn_of_bindsOnce ps hos hws h (index + 1) fun u bs hu => hs u bs (List.mem_cons_of_mem _ hu)
  | .slot _ :: ps, hos, hws, h, index, hs =>
    undisputedIn_of_bindsOnce ps hos hws h (index + 1) fun u bs hu => hs u bs (List.mem_cons_of_mem _ hu)
end

end Template

end LiveMarkup
