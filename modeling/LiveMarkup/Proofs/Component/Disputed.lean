/-
Updates of names that are bound more than once.

Where an element binds a name to several props, or a child placeholder a prop of its child, rendering takes the last
binding. An update takes the binding that it names: it sets the attribute, or forwards the value, whichever binding comes
last. The two agree as long as no change set names a prop that is overridden, and may not agree after one does. Then it
also shows in which order a child takes what is forwarded to it, which is up to the child.

- `Life.html_latest`: what a mounted component shows, for every template, every life and all orders; `contested` is a
  template on which it is not what is rendered.
-/
import LiveMarkup.Proofs.Component.Run

namespace LiveMarkup

open Markup Marker

variable {H : Host}

/-! ## A template that binds a name twice -/

namespace Template

variable {A : Type}

/-- a paragraph whose title is bound twice -/
def contested : Template A :=
  ⟨["<p title=", " title=", "></p>"], [.attribute "first" "title", .attribute "last" "title"],
    [.element "p" [("data-attribute-0", ""), ("data-attribute-1", "")] []]⟩

theorem contested_accepted : (contested : Template A).Everywhere Accepted := by
  refine ⟨⟨["<p title=", " title=", "></p>"], [.name "first", .name "last"],
    define_eq_ok (c := ⟨["<p ", " ", "></p>"], [.attribute "first" "title", .attribute "last" "title"]⟩) rfl ?_ rfl⟩,
    trivial⟩
  rw [skeletonSource_congr ([.attribute "" "", .attribute "" ""] : List (Placeholder Unit Unit)) rfl]
  show read (skeletonSource 0 ["<p ", " ", "></p>"] _) = _
  decide +kernel

theorem contested_markerFree : (contested : Template A).Everywhere MarkerFree := by
  have hall : ∀ segment ∈ ["<p title=", " title=", "></p>"], ∀ category ∈ Category.all,
      ¬ (stem category).toList <:+: lowerChars segment.toList := by
    decide +kernel
  exact ⟨fun segment h category => hall segment h category (by cases category <;> decide), trivial⟩

theorem contested_quiet : (contested : Template (Action H)).Everywhere Template.Quiet := by
  refine ⟨fun run param h => ?_, trivial⟩
  cases h with
  | tail _ h => cases h with
    | tail _ h => cases h

end Template

/-! ## Lives -/

namespace Life

variable [ForeignBlocks H] {t : Template (Action H)} {moves : List Move}

/-- **What updates show.** Whatever calls are made, in whatever order the entries of each change set are applied, here and
in the components below, and however often names are bound: as long as the component is mounted, its nodes are written as
the tree of its history. That is what its template is rendered as for its current props, if no change named an overridden
prop. -/
theorem html_latest (ha : t.Everywhere Template.Accepted) (hf : t.Everywhere Template.MarkerFree)
    (hq : t.Everywhere Template.Quiet) {w : World H} (hb : w.backend = .faithful) (hw : w.document.Valid)
    (options : Options H) (hl : (start t options w).Legal moves) :
    ((start t options w).run moves).component.props = ((start t options w).history (.start options.props) moves).props ∧
    (((start t options w).run moves).component.state = .mounted →
      ((start t options w).run moves).html = print (t.latest ((start t options w).history (.start options.props) moves)) ∧
      (t.Undisputed ((start t options w).history (.start options.props) moves) →
        ((start t options w).run moves).html =
          t.render ((start t options w).run moves).component.props SlotMarkup.none)) := by
  have ht : t.Everywhere Template.Sound := ha.sound hf
  have hrun := (lives_start t options hb hw).run ht hq moves hl
  obtain ⟨X, F, hX, -⟩ := hrun.stands
  exact ⟨hX.props_eq, fun hm => ⟨html_of_lives ht hrun hm, fun hu => html_of_undisputed ht hrun hu hm⟩⟩

def contested : Life Script.host :=
  start Template.contested (.inBody (Props.ofList [("first", .str "1"), ("last", .str "2")])) World.blank

/-- the first binding is given a new value after mounting -/
def overruled : List Move := [⟨.mount 0 none, .kept⟩, ⟨.update (Props.ofList [("first", .str "new")]), .kept⟩]

/-- the title shows the new value of the first binding, and is rendered with that of the last -/
theorem html_latest_contested :
    (contested.run overruled).html = "<p title=\"new\"></p>" ∧
    (Template.contested : Template (Action Script.host)).render (contested.run overruled).component.props
      SlotMarkup.none = "<p title=\"2\"></p>" := by
  have hhandles : contested.component.handles = [] := by decide +kernel
  have hl : contested.Legal overruled :=
    ⟨.inr ⟨Option.ne_none_iff_isSome.2 (by decide +kernel), fun _ h => (Option.not_mem_none _ h).elim,
      fun _ hid => absurd (hhandles ▸ hid) List.not_mem_nil, by decide +kernel⟩, trivial, trivial⟩
  obtain ⟨-, hhtml⟩ := html_latest Template.contested_accepted Template.contested_markerFree Template.contested_quiet rfl
    World.blank_valid _ hl
  exact ⟨(hhtml (by decide +kernel)).1.trans (by decide +kernel), by decide +kernel⟩

/-- two contested paragraphs that are given the same two props -/
def rivals : Life Script.host :=
  start ⟨["", "", ""], List.replicate 2 (.child Template.contested [⟨"first", "x"⟩, ⟨"last", "y"⟩]),
    [.element "mc-child-0" [] [], .element "mc-child-1" [] []]⟩ (.inBody ∅) World.blank

/-- the second child takes its entries the other way round -/
def crossed : Orders where
  arrange path changed :=
    if path = [1] then
      ⟨changed.entries.reverse, (List.Perm.map Prod.fst (List.reverse_perm changed.entries)).nodup_iff.2 changed.nodup⟩
    else changed
  perm path changed := by
    split
    · exact List.reverse_perm _
    · exact .refl _

-- one shows the last binding and the other the first, though both were given the same
example : (rivals.run [⟨.mount 0 none, .kept⟩,
    ⟨.update (Props.ofList [("x", .str "X"), ("y", .str "Y")]), crossed⟩]).html =
      "<p title=\"Y\"></p><p title=\"X\"></p>" := by
  decide +kernel

end Life

end LiveMarkup
