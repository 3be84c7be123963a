/-
Components as trees.

The content of a slot or a child may be a component again, so what holds of all components is shown by induction over
how they are nested (`Component.induct`). A condition on single components and texts spreads over such a tree (`Each`),
and so does a relation (`Like`): trees that are alike have the same shape, and what corresponds in them is related.

- `Likeness.Lasting.call`: a relation that every single step of a call keeps is kept by the call, at every depth, in any
  world and whatever the call results in;
- `values`: every call but an update leaves the template and what a component was given as they are;
- `footing`: updates leave everything else as it is.
-/
import Mathlib.Data.List.Forall2
import LiveMarkup.Component.Call

namespace LiveMarkup

variable {H : Host}

/-! ## Induction -/

/-- what holds of a component if it holds of all that are nested in it holds of every component -/
theorem Component.induct {P : Component H → Prop}
    (mk : ∀ core slots children, (∀ n ∈ slots, ∀ c, n.block = .component c → P c) →
      (∀ n ∈ children, ∀ c, n.block = .component c → P c) → P (.mk core slots children)) (c : Component H) : P c := by
  refine @Component.rec H P (fun n => ∀ c, n.block = .component c → P c) (fun b => ∀ c, b = .component c → P c)
    (fun row => ∀ n ∈ row, ∀ c, n.block = .component c → P c) mk (fun _ _ _ h => h) ?_ ?_
    (fun _ h _ hc => Block.component.inj hc ▸ h) (fun _ h => absurd h List.not_mem_nil)
    (fun _ _ hn hrow => List.forall_mem_cons.2 ⟨hn, hrow⟩) c
  · rintro t c ⟨⟩
  · rintro f c ⟨⟩

/-- what holds of texts and blocks of the host, and of a component if it holds of all that is nested in it, holds of every
block -/
theorem Block.induct {P : Block H → Prop} (text : ∀ t, P (.text t)) (foreign : ∀ f, P (.foreign f))
    (component : ∀ core slots children, (∀ n ∈ slots, P n.block) → (∀ n ∈ children, P n.block) →
      P (.component (.mk core slots children))) (b : Block H) : P b := by
  have hblock : ∀ b : Block H, (∀ c, b = .component c → P (.component c)) → P b := by
    intro b ih
    cases b with
    | text t => exact text t
    | foreign f => exact foreign f
    | component c => exact ih c rfl
  have hcomponent : ∀ c : Component H, P (.component c) := by
    intro c
    induction c using Component.induct with
    | mk core slots children ihs ihc =>
      exact component core slots children (fun n hn => hblock _ (ihs n hn)) fun n hn => hblock _ (ihc n hn)
  exact hblock b fun c _ => hcomponent c

/-! ## Conditions on all components of a tree -/

mutual
/-- `own` holds of a component and of all that are nested in it, `text` of all texts -/
def Component.Each (own : Core H → Prop) (text : TextBlock → Prop) : Component H → Prop
  | .mk core slots children => own core ∧ eachOf own text slots ∧ eachOf own text children
def eachOf (own : Core H → Prop) (text : TextBlock → Prop) : List (Nested H) → Prop
  | [] => True
  | .mk _ _ block :: row => block.Each own text ∧ eachOf own text row
def Block.Each (own : Core H → Prop) (text : TextBlock → Prop) : Block H → Prop
  | .text t => text t
  | .foreign _ => True
  | .component c => c.Each own text
end

theorem eachOf_iff {own : Core H → Prop} {text : TextBlock → Prop} {row : List (Nested H)} :
    eachOf own text row ↔ ∀ n ∈ row, n.block.Each own text := by
  induction row with
  | nil => exact ⟨fun _ _ h => absurd h List.not_mem_nil, fun _ => trivial⟩
  | cons n row ih =>
    obtain ⟨index, atRoot, block⟩ := n
    rw [eachOf, ih, List.forall_mem_cons, Nested.block]

section

variable {own own' : Core H → Prop} {text text' : TextBlock → Prop}

mutual
/-- two conditions at once -/
theorem Component.Each.and : {c : Component H} → c.Each own text → c.Each own' text' →
    c.Each (fun c => own c ∧ own' c) fun t => text t ∧ text' t
  | .mk _ _ _, ⟨h, hs, hc⟩, ⟨h', hs', hc'⟩ => ⟨⟨h, h'⟩, eachOf_and hs hs', eachOf_and hc hc'⟩
theorem eachOf_and : {row : List (Nested H)} → eachOf own text row → eachOf own' text' row →
    eachOf (fun c => own c ∧ own' c) (fun t => text t ∧ text' t) row
  | [], _, _ => trivial
  | .mk _ _ _ :: _, ⟨h, hr⟩, ⟨h', hr'⟩ => ⟨h.and h', eachOf_and hr hr'⟩
theorem Block.Each.and : {b : Block H} → b.Each own text → b.Each own' text' →
    b.Each (fun c => own c ∧ own' c) fun t => text t ∧ text' t
  | .text _, h, h' => ⟨h, h'⟩
  | .foreign _, _, _ => trivial
  | .component _, h, h' => Component.Each.and h h'
end

mutual
/-- weaker conditions -/
theorem Component.Each.imp (hown : ∀ c, own c → own' c) (htext : ∀ t, text t → text' t) :
    {c : Component H} → c.Each own text → c.Each own' text'
  | .mk _ _ _, ⟨h, hs, hc⟩ => ⟨hown _ h, eachOf_imp hown htext hs, eachOf_imp hown htext hc⟩
theorem eachOf_imp (hown : ∀ c, own c → own' c) (htext : ∀ t, text t → text' t) :
    {row : List (Nested H)} → eachOf own text row → eachOf own' text' row
  | [], _ => trivial
  | .mk _ _ _ :: _, ⟨h, hr⟩ => ⟨Block.Each.imp hown htext h, eachOf_imp hown htext hr⟩
theorem Block.Each.imp (hown : ∀ c, own c → own' c) (htext : ∀ t, text t → text' t) :
    {b : Block H} → b.Each own text → b.Each own' text'
  | .text _, h => htext _ h
  | .foreign _, _ => trivial
  | .component _, h => Component.Each.imp hown htext h
end

end

/-! ## Conditions on the blocks of the host -/

mutual
/-- this holds of all blocks of the host that are nested in a component -/
def Component.Guests (guest : H.Foreign → Prop) : Component H → Prop
  | .mk _ slots children => guestsOf guest slots ∧ guestsOf guest children
def guestsOf (guest : H.Foreign → Prop) : List (Nested H) → Prop
  | [] => True
  | .mk _ _ block :: row => block.Guests guest ∧ guestsOf guest row
def Block.Guests (guest : H.Foreign → Prop) : Block H → Prop
  | .text _ => True
  | .foreign f => guest f
  | .component c => c.Guests guest
end

theorem guestsOf_iff {guest : H.Foreign → Prop} {row : List (Nested H)} :
    guestsOf guest row ↔ ∀ n ∈ row, n.block.Guests guest := by
  induction row with
  | nil => exact ⟨fun _ _ h => absurd h List.not_mem_nil, fun _ => trivial⟩
  | cons n row ih =>
    obtain ⟨index, atRoot, block⟩ := n
    rw [guestsOf, ih, List.forall_mem_cons, Nested.block]

/-- what holds of all blocks of the host holds of those that are nested somewhere -/
theorem Block.guests_of_all {guest : H.Foreign → Prop} (h : ∀ f, guest f) (b : Block H) : b.Guests guest := by
  induction b using Block.induct with
  | text t => trivial
  | foreign f => exact h f
  | component core slots children ihs ihc => exact ⟨guestsOf_iff.2 ihs, guestsOf_iff.2 ihc⟩

/-- what holds of texts and of such blocks of the host, and of a component if it holds of all that is nested in it, holds
of every block that has no others in it; of single components and texts some condition may be asked -/
theorem Block.guests_induct {guest : H.Foreign → Prop} {own : Core H → Prop} {text : TextBlock → Prop} {P : Block H → Prop}
    (leaf : ∀ t, text t → P (.text t)) (foreign : ∀ f, guest f → P (.foreign f))
    (component : ∀ core slots children, own core → (∀ n ∈ slots, P n.block) → (∀ n ∈ children, P n.block) →
      P (.component (.mk core slots children))) {b : Block H} (h : b.Guests guest) (he : b.Each own text) : P b := by
  induction b using Block.induct with
  | text t => exact leaf t he
  | foreign f => exact foreign f h
  | component core slots children ihs ihc =>
    obtain ⟨hslots, hchildren⟩ := h
    obtain ⟨hown, heslots, hechildren⟩ := he
    rw [guestsOf_iff] at hslots hchildren
    rw [eachOf_iff] at heslots hechildren
    exact component core slots children hown (fun n hn => ihs n hn (hslots n hn) (heslots n hn))
      fun n hn => ihc n hn (hchildren n hn) (hechildren n hn)

/-! ## Trees that are alike -/

/-- how single components, texts and blocks of the host that correspond are related -/
structure Likeness (H : Host) where
  core : Core H → Core H → Prop
  text : TextBlock → TextBlock → Prop
  foreign : H.Foreign → H.Foreign → Prop

/-- everything is related to itself, and what is related to something that is related to a third is related to it -/
structure Likeness.Preorder (R : Likeness H) : Prop where
  core_refl : ∀ c, R.core c c
  core_trans : ∀ a b c, R.core a b → R.core b c → R.core a c
  text_refl : ∀ t, R.text t t
  text_trans : ∀ a b c, R.text a b → R.text b c → R.text a c
  foreign_refl : ∀ f, R.foreign f f
  foreign_trans : ∀ a b c, R.foreign a b → R.foreign b c → R.foreign a c

mutual
/-- the same shape, and what corresponds is related -/
def Component.Like (R : Likeness H) : Component H → Component H → Prop
  | .mk core slots children, .mk core' slots' children' =>
    R.core core core' ∧ likeAll R slots slots' ∧ likeAll R children children'
def likeAll (R : Likeness H) : List (Nested H) → List (Nested H) → Prop
  | [], [] => True
  | .mk index _ block :: row, .mk index' _ block' :: row' => index' = index ∧ block.Like R block' ∧ likeAll R row row'
  | _, _ => False
def Block.Like (R : Likeness H) : Block H → Block H → Prop
  | .text t, .text t' => R.text t t'
  | .foreign f, .foreign f' => R.foreign f f'
  | .component c, .component c' => c.Like R c'
  | _, _ => False
end

section

variable {R : Likeness H}

theorem Component.like_iff {c c' : Component H} : c.Like R c' ↔
    R.core c.core c'.core ∧ likeAll R c.slots c'.slots ∧ likeAll R c.children c'.children := by
  obtain ⟨core, slots, children⟩ := c
  obtain ⟨core', slots', children'⟩ := c'
  exact Iff.rfl

theorem likeAll_iff {row row' : List (Nested H)} : likeAll R row row' ↔
    List.Forall₂ (fun n n' => n'.index = n.index ∧ n.block.Like R n'.block) row row' := by
  induction row generalizing row' with
  | nil => cases row' <;> simp [likeAll]
  | cons n row ih =>
    obtain ⟨index, atRoot, block⟩ := n
    cases row' with
    | nil => simp [likeAll]
    | cons n' row' =>
      obtain ⟨index', atRoot', block'⟩ := n'
      rw [likeAll, List.forall₂_cons, ← ih, and_assoc]
      exact Iff.rfl

/-- a component in a tree that is like another corresponds to a component -/
theorem Block.like_component {c : Component H} {b : Block H} (h : (Block.component c).Like R b) :
    ∃ c', b = .component c' ∧ c.Like R c' := by
  cases b with
  | component c' => exact ⟨c', rfl, h⟩
  | text t => exact h.elim
  | foreign f => exact h.elim

theorem Block.like_refl_of (hR : R.Preorder) {b : Block H} (h : ∀ c, b = .component c → c.Like R c) : b.Like R b := by
  cases b with
  | text t => exact hR.text_refl t
  | foreign f => exact hR.foreign_refl f
  | component c => exact h c rfl

theorem likeAll_refl_of (hR : R.Preorder) {row : List (Nested H)}
    (h : ∀ n ∈ row, ∀ c, n.block = .component c → c.Like R c) : likeAll R row row :=
  likeAll_iff.2 (List.forall₂_same.2 fun n hn => ⟨rfl, Block.like_refl_of hR (h n hn)⟩)

theorem Component.Like.refl (hR : R.Preorder) (c : Component H) : c.Like R c := by
  induction c using Component.induct with
  | mk core slots children ihs ihc => exact ⟨hR.core_refl core, likeAll_refl_of hR ihs, likeAll_refl_of hR ihc⟩

theorem Block.Like.refl (hR : R.Preorder) (b : Block H) : b.Like R b :=
  Block.like_refl_of hR fun c _ => Component.Like.refl hR c

theorem likeAll.refl (hR : R.Preorder) (row : List (Nested H)) : likeAll R row row :=
  likeAll_refl_of hR fun _ _ c _ => Component.Like.refl hR c

theorem Block.like_trans_of (hR : R.Preorder) {a b c : Block H}
    (h : ∀ x, a = .component x → ∀ y z : Component H, x.Like R y → y.Like R z → x.Like R z) (hab : a.Like R b)
    (hbc : b.Like R c) : a.Like R c := by
  cases a with
  | text t =>
    cases b with
    | text u =>
      cases c with
      | text v => exact hR.text_trans t u v hab hbc
      | foreign => exact hbc.elim
      | component => exact hbc.elim
    | foreign => exact hab.elim
    | component => exact hab.elim
  | foreign f =>
    cases b with
    | foreign g =>
      cases c with
      | foreign h => exact hR.foreign_trans f g h hab hbc
      | text => exact hbc.elim
      | component => exact hbc.elim
    | text => exact hab.elim
    | component => exact hab.elim
  | component x =>
    obtain ⟨y, rfl, hxy⟩ := Block.like_component hab
    obtain ⟨z, rfl, hyz⟩ := Block.like_component hbc
    exact h x rfl y z hxy hyz

theorem likeAll_trans_of (hR : R.Preorder) {r s t : List (Nested H)}
    (h : ∀ n ∈ r, ∀ x, n.block = .component x → ∀ y z : Component H, x.Like R y → y.Like R z → x.Like R z)
    (hrs : likeAll R r s) (hst : likeAll R s t) : likeAll R r t := by
  rw [likeAll_iff] at hrs hst ⊢
  induction hrs generalizing t with
  | nil => exact hst
  | cons hab _ ih =>
    cases hst with
    | cons hbc hst =>
      rw [List.forall_mem_cons] at h
      exact .cons ⟨hbc.1.trans hab.1, Block.like_trans_of hR h.1 hab.2 hbc.2⟩ (ih h.2 hst)

theorem Component.Like.trans (hR : R.Preorder) {a b c : Component H} (hab : a.Like R b) (hbc : b.Like R c) :
    a.Like R c := by
  induction a using Component.induct generalizing b c with
  | mk core slots children ihs ihc =>
    obtain ⟨core', slots', children'⟩ := b
    obtain ⟨core'', slots'', children''⟩ := c
    exact ⟨hR.core_trans _ _ _ hab.1 hbc.1,
      likeAll_trans_of hR (fun n hn x hx y z => ihs n hn x hx) hab.2.1 hbc.2.1,
      likeAll_trans_of hR (fun n hn x hx y z => ihc n hn x hx) hab.2.2 hbc.2.2⟩

end

/-- a condition that holds on whatever footing is the same spreads over trees that are on the same footing -/
theorem Component.Like.each {own : Core H → Prop} {text : TextBlock → Prop} {R : Likeness H}
    (hown : ∀ c c', R.core c c' → own c → own c') (htext : ∀ t t', R.text t t' → text t → text t') {c c' : Component H}
    (h : c.Like R c') (hc : c.Each own text) : c'.Each own text := by
  induction c using Component.induct generalizing c' with
  | mk core slots children ihs ihc =>
    obtain ⟨core', slots', children'⟩ := c'
    have hblock : ∀ b b' : Block H, (∀ c, b = .component c → ∀ {c' : Component H}, c.Like R c' → c.Each own text →
        c'.Each own text) → b.Like R b' → b.Each own text → b'.Each own text := by
      intro b b' ih hlike heach
      cases b with
      | text t =>
        cases b' with
        | text t' => exact htext t t' hlike heach
        | foreign => exact hlike.elim
        | component => exact hlike.elim
      | foreign f =>
        cases b' with
        | foreign => trivial
        | text => exact hlike.elim
        | component => exact hlike.elim
      | component c =>
        obtain ⟨c', rfl, hc'⟩ := Block.like_component hlike
        exact ih c rfl hc' heach
    have hrow : ∀ row row' : List (Nested H), (∀ n ∈ row, ∀ c, n.block = .component c → ∀ {c' : Component H},
        c.Like R c' → c.Each own text → c'.Each own text) → likeAll R row row' → eachOf own text row →
          eachOf own text row' := by
      intro row row' ih hlike heach
      rw [likeAll_iff] at hlike
      induction hlike with
      | nil => trivial
      | @cons n n' row row' hn _ ihrow =>
        rw [List.forall_mem_cons] at ih
        rw [eachOf_iff, List.forall_mem_cons] at heach ⊢
        exact ⟨hblock _ _ ih.1 hn.2 heach.1, eachOf_iff.1 (ihrow ih.2 (eachOf_iff.2 heach.2))⟩
    exact ⟨hown _ _ h.1 hc.1, hrow _ _ ihs h.2.1 hc.2.1, hrow _ _ ihc h.2.2 hc.2.2⟩

section

variable {R : Likeness H} {guest : H.Foreign → Prop}

mutual
/-- blocks of the host that are related to such blocks are such blocks -/
theorem Component.Like.guests (hR : ∀ f f', R.foreign f f' → guest f → guest f') : {c c' : Component H} →
    c.Like R c' → c.Guests guest → c'.Guests guest
  | .mk _ _ _, .mk _ _ _, ⟨_, hs, hc⟩, ⟨gs, gc⟩ => ⟨likeAll.guests hR hs gs, likeAll.guests hR hc gc⟩
theorem likeAll.guests (hR : ∀ f f', R.foreign f f' → guest f → guest f') : {row row' : List (Nested H)} →
    likeAll R row row' → guestsOf guest row → guestsOf guest row'
  | [], [], _, _ => trivial
  | .mk _ _ _ :: _, .mk _ _ _ :: _, ⟨_, h, hr⟩, ⟨g, gr⟩ => ⟨Block.Like.guests hR h g, likeAll.guests hR hr gr⟩
theorem Block.Like.guests (hR : ∀ f f', R.foreign f f' → guest f → guest f') : {b b' : Block H} →
    b.Like R b' → b.Guests guest → b'.Guests guest
  | .text _, .text _, _, _ => trivial
  | .foreign _, .foreign _, h, g => hR _ _ h g
  | .component _, .component _, h, g => Component.Like.guests hR h g
end

end

/-! ## What calls other than updates leave alone -/

/-- the same template, and the same values given -/
structure Core.SameValues (c c' : Core H) : Prop where
  template : c'.template = c.template
  props : c'.props = c.props
  slotContext : c'.slotContext = c.slotContext
  channel : c'.channel = c.channel

/-- trees with the same values -/
def values : Likeness H := ⟨Core.SameValues, fun t t' => t'.prop = t.prop ∧ t'.data = t.data, fun _ _ => True⟩

theorem values_preorder : (values : Likeness H).Preorder where
  core_refl _ := ⟨rfl, rfl, rfl, rfl⟩
  core_trans _ _ _ h h' := ⟨h'.template.trans h.template, h'.props.trans h.props, h'.slotContext.trans h.slotContext,
    h'.channel.trans h.channel⟩
  text_refl _ := ⟨rfl, rfl⟩
  text_trans _ _ _ h h' := ⟨h'.1.trans h.1, h'.2.trans h.2⟩
  foreign_refl _ := trivial
  foreign_trans _ _ _ _ _ := trivial

theorem TextBlock.create_values (t : TextBlock) (w : World H) :
    (t.create w).1.prop = t.prop ∧ (t.create w).1.data = t.data := by
  unfold create
  split <;> exact ⟨rfl, rfl⟩

/-- binding leaves the values alone, and what is not bound -/
theorem Core.bind_values (c : Core H) (fragment : NodeId) (w : World H) : c.SameValues (c.bind fragment w).self := by
  unfold bind
  dsimp only
  split
  · exact ⟨rfl, rfl, rfl, rfl⟩
  · split
    · exact ⟨rfl, rfl, rfl, rfl⟩
    · split <;> exact ⟨rfl, rfl, rfl, rfl⟩

/-! ## What updates leave alone -/

def AttributeCell.binding (cell : AttributeCell) : Nat × String × String × Option NodeId :=
  (cell.index, cell.prop, cell.name, cell.element)

/-- the same template in the same phase, with the same nodes and the same things to undo -/
structure Core.SameFooting (c c' : Core H) : Prop where
  template : c'.template = c.template
  phase : c'.phase = c.phase
  roots : c'.roots = c.roots
  textCells : c'.textCells = c.textCells
  attributeCells : c'.attributeCells.map AttributeCell.binding = c.attributeCells.map AttributeCell.binding
  cleanups : c'.cleanups = c.cleanups
  updateHooks : c'.updateHooks = c.updateHooks
  channel : c'.channel = c.channel

theorem Core.SameFooting.refl (c : Core H) : c.SameFooting c := ⟨rfl, rfl, rfl, rfl, rfl, rfl, rfl, rfl⟩

theorem Core.SameFooting.trans {a b c : Core H} (h : a.SameFooting b) (h' : b.SameFooting c) : a.SameFooting c :=
  ⟨h'.template.trans h.template, h'.phase.trans h.phase, h'.roots.trans h.roots, h'.textCells.trans h.textCells,
    h'.attributeCells.trans h.attributeCells, h'.cleanups.trans h.cleanups, h'.updateHooks.trans h.updateHooks,
    h'.channel.trans h.channel⟩

/-- trees on the same footing -/
def footing : Likeness H := ⟨Core.SameFooting, fun t t' => t'.node = t.node, fun _ _ => True⟩

theorem footing_preorder : (footing : Likeness H).Preorder where
  core_refl := Core.SameFooting.refl
  core_trans _ _ _ := Core.SameFooting.trans
  text_refl _ := rfl
  text_trans _ _ _ h h' := h'.trans h
  foreign_refl _ := trivial
  foreign_trans _ _ _ _ _ := trivial

/-- the world once an attribute cell has been given a text: its element, if it has one, has the attribute -/
def World.writeCell (w : World H) (cell : AttributeCell) (text : String) : World H :=
  cell.element.elim w fun element => w.edit (·.setAttribute element cell.name text)

theorem showAttributes_of_prop {prop text : String} {cell : AttributeCell} (h : cell.prop = prop)
    (cells : List AttributeCell) (w : World H) :
    showAttributes prop text (cell :: cells) w =
      ({ cell with value := text } :: (showAttributes prop text cells (w.writeCell cell text)).1,
        (showAttributes prop text cells (w.writeCell cell text)).2) := by
  rw [showAttributes, if_pos h, World.writeCell]
  cases cell.element <;> rfl

theorem showAttributes_of_other {prop text : String} {cell : AttributeCell} (h : cell.prop ≠ prop)
    (cells : List AttributeCell) (w : World H) :
    showAttributes prop text (cell :: cells) w =
      (cell :: (showAttributes prop text cells w).1, (showAttributes prop text cells w).2) := by
  rw [showAttributes, if_neg h]

theorem bindings_showAttributes (prop text : String) (cells : List AttributeCell) (w : World H) :
    (showAttributes prop text cells w).1.map AttributeCell.binding = cells.map AttributeCell.binding := by
  induction cells generalizing w with
  | nil => rfl
  | cons cell cells ih =>
    rw [showAttributes]
    dsimp only
    split
    · rw [List.map_cons, List.map_cons, ih]
      rfl
    · rw [List.map_cons, List.map_cons, ih]

theorem Core.applyEntry_footing (c : Core H) (w : World H) (prop : String) (value : Value) :
    c.SameFooting (c.applyEntry w prop value).1 :=
  ⟨rfl, rfl, rfl, rfl, bindings_showAttributes _ _ _ _, rfl, rfl, rfl⟩

theorem Core.applyEntries_footing (c : Core H) (w : World H) (changed : Props) :
    c.SameFooting (c.applyEntries w changed).1 := by
  unfold applyEntries
  generalize changed.entries = es
  induction es generalizing c w with
  | nil => exact .refl c
  | cons e es ih => exact (c.applyEntry_footing w e.1 e.2).trans (ih (c.applyEntry w e.1 e.2).1 (c.applyEntry w e.1 e.2).2)

/-! ## Relations that steps keep -/

variable [ForeignBlocks H]

namespace Likeness

/-- creating relates a component, a text, or a block of the host to what it makes of it -/
structure Creates (R : Likeness H) : Prop extends R.Preorder where
  prepare : ∀ c w, R.core c (c.prepare w).1
  phase : ∀ (c : Core H) phase, R.core c { c with phase }
  text_create : ∀ (t : TextBlock) (w : World H), R.text t (t.create w).1
  foreign_create : ∀ f w, R.foreign f (ForeignBlocks.create f w).self

structure Destroys (R : Likeness H) : Prop extends R.Preorder where
  cleared : ∀ c, R.core c c.cleared
  text_destroy : ∀ (t : TextBlock) detaching (w : World H), R.text t (t.destroy detaching w).1
  foreign_destroy : ∀ detaching f w, R.foreign f (ForeignBlocks.destroy detaching f w).self

structure Mounts (R : Likeness H) : Prop extends R.Creates, R.Destroys where
  bind : ∀ c fragment w, R.core c (c.bind fragment w).self
  place : ∀ (c : Core H) roots phase, R.core c { c with roots, phase }
  foreign_mount : ∀ target anchor f w, R.foreign f (ForeignBlocks.mount target anchor f w).self

structure Moves (R : Likeness H) : Prop extends R.Preorder where
  foreign_transition : ∀ t isLocal f w, R.foreign f (ForeignBlocks.transition t isLocal f w).1

structure Updates (R : Likeness H) : Prop extends R.Moves where
  apply : ∀ c w changed, R.core c (c.applyEntries w changed).1
  context : ∀ (c : Core H) slotContext, R.core c { c with slotContext }
  text_update : ∀ (t : TextBlock) changed (w : World H), R.text t (t.update changed w).1
  foreign_update : ∀ changed f w, R.foreign f (ForeignBlocks.update changed f w).self

/-- every call relates what it is made on to what it leaves -/
structure Lasting (R : Likeness H) : Prop extends R.Mounts, R.Updates

end Likeness

theorem values_mounts : (values : Likeness H).Mounts where
  toPreorder := values_preorder
  prepare _ _ := ⟨rfl, rfl, rfl, rfl⟩
  phase _ _ := ⟨rfl, rfl, rfl, rfl⟩
  text_create := TextBlock.create_values
  foreign_create _ _ := trivial
  cleared _ := ⟨rfl, rfl, rfl, rfl⟩
  text_destroy _ _ _ := ⟨rfl, rfl⟩
  foreign_destroy _ _ _ := trivial
  bind := Core.bind_values
  place _ _ _ := ⟨rfl, rfl, rfl, rfl⟩
  foreign_mount _ _ _ _ := trivial

theorem values_moves : (values : Likeness H).Moves where
  toPreorder := values_preorder
  foreign_transition _ _ _ _ := trivial

theorem footing_updates : (footing : Likeness H).Updates where
  toPreorder := footing_preorder
  apply := Core.applyEntries_footing
  context _ _ := ⟨rfl, rfl, rfl, rfl, rfl, rfl, rfl, rfl⟩
  text_update t changed _ := by
    unfold TextBlock.update
    split <;> rfl
  foreign_update _ _ _ := trivial
  foreign_transition _ _ _ _ := trivial

/-! ## Calls -/

section

variable {row : List (Nested H)} {R : Likeness H}

theorem createAll_like (hR : R.Preorder) (h : ∀ n ∈ row, ∀ w, n.block.Like R (n.block.create w).self) (w : World H) :
    likeAll R row (createAll row w).self := by
  induction row generalizing w with
  | nil => trivial
  | cons n row ih =>
    obtain ⟨index, atRoot, block⟩ := n
    rw [List.forall_mem_cons] at h
    rw [createAll]
    split
    · exact ⟨rfl, h.1 w, likeAll.refl hR row⟩
    · exact ⟨rfl, h.1 w, ih h.2 _⟩

theorem destroyAll_like (h : ∀ n ∈ row, ∀ d w, n.block.Like R (n.block.destroy d w).self) (detaching : Bool)
    (w : World H) : likeAll R row (destroyAll detaching row w).self := by
  induction row generalizing w with
  | nil => trivial
  | cons n row ih =>
    obtain ⟨index, atRoot, block⟩ := n
    rw [List.forall_mem_cons] at h
    exact ⟨rfl, h.1 _ w, ih h.2 _⟩

theorem transitionAll_like (t : Transition) (isLocal : Bool)
    (h : ∀ n ∈ row, ∀ w, n.block.Like R (n.block.transition t isLocal w).1) (w : World H) :
    likeAll R row (transitionAll t isLocal row w).1 := by
  induction row generalizing w with
  | nil => trivial
  | cons n row ih =>
    obtain ⟨index, atRoot, block⟩ := n
    rw [List.forall_mem_cons] at h
    exact ⟨rfl, h.1 w, ih h.2 _⟩

theorem updateRow_like (hR : R.Preorder) (deliver : Nat → Option Props)
    (h : ∀ n ∈ row, ∀ changed w, n.block.Like R (n.block.update changed w).self) (w : World H) :
    likeAll R row (updateRow deliver row w).self := by
  induction row generalizing w with
  | nil => trivial
  | cons n row ih =>
    obtain ⟨index, atRoot, block⟩ := n
    rw [List.forall_mem_cons] at h
    rw [updateRow_cons]
    split
    · exact ⟨rfl, Block.Like.refl hR block, ih h.2 w⟩
    · dsimp only
      split
      · exact ⟨rfl, h.1 _ w, likeAll.refl hR row⟩
      · exact ⟨rfl, h.1 _ w, ih h.2 _⟩

theorem mountRow_like (hR : R.Preorder)
    (h : ∀ n ∈ row, ∀ target anchor w, n.block.Like R (n.block.mountCreated target anchor w).self) (fragment : NodeId)
    (held later : List NodeId) (spots : List (Nat × NodeId)) (w : World H) :
    likeAll R row (mountRow fragment held later row spots w).self := by
  induction row generalizing held spots w with
  | nil => trivial
  | cons n row ih =>
    obtain ⟨index, atRoot, block⟩ := n
    rw [List.forall_mem_cons] at h
    rw [mountRow]
    dsimp only
    split
    · exact ⟨rfl, Block.Like.refl hR block, ih h.2 _ _ _⟩
    · split
      · exact ⟨rfl, Block.Like.refl hR block, ih h.2 _ _ _⟩
      · split
        · exact ⟨rfl, h.1 _ _ _, likeAll.refl hR row⟩
        · exact ⟨rfl, h.1 _ _ _, ih h.2 _ _ _⟩

end

namespace Likeness

variable {R : Likeness H}

theorem Creates.create (h : R.Creates) (c : Component H) (w : World H) : c.Like R (c.create w).self := by
  have hR := h.toPreorder
  induction c using Component.induct generalizing w with
  | mk core slots children ihs ihc =>
    have hblock : ∀ b : Block H, (∀ c, b = .component c → ∀ w, c.Like R (c.create w).self) →
        ∀ w, b.Like R (b.create w).self := by
      intro b ih w
      cases b with
      | text t => exact h.text_create t w
      | foreign f => exact h.foreign_create f w
      | component c => exact ih c rfl w
    have hslots := fun u => createAll_like hR (fun n hn => hblock n.block (ihs n hn)) u
    have hchildren := fun u => createAll_like hR (fun n hn => hblock n.block (ihc n hn)) u
    have hprepare := h.prepare core w
    rw [Component.create]
    split
    · exact Component.Like.refl hR _
    · exact Component.Like.refl hR _
    all_goals
      dsimp only
      split
      · exact ⟨hprepare, likeAll.refl hR slots, hchildren _⟩
      · split
        · exact ⟨hprepare, hslots _, hchildren _⟩
        · exact ⟨hR.core_trans _ _ _ hprepare (h.phase _ _), hslots _, hchildren _⟩

theorem Destroys.destroy (h : R.Destroys) (detaching : Bool) (c : Component H) (w : World H) :
    c.Like R (c.destroy detaching w).self := by
  induction c using Component.induct generalizing detaching w with
  | mk core slots children ihs ihc =>
    have hblock : ∀ b : Block H, (∀ c, b = .component c → ∀ d w, c.Like R (c.destroy d w).self) →
        ∀ d w, b.Like R (b.destroy d w).self := by
      intro b ih d w
      cases b with
      | text t => exact h.text_destroy t d w
      | foreign f => exact h.foreign_destroy d f w
      | component c => exact ih c rfl d w
    rw [Component.destroy]
    split
    · exact Component.Like.refl h.toPreorder _
    · exact Component.Like.refl h.toPreorder _
    all_goals exact ⟨h.cleared core, destroyAll_like (fun n hn => hblock n.block (ihs n hn)) _ _,
      destroyAll_like (fun n hn => hblock n.block (ihc n hn)) _ _⟩

theorem Mounts.abandon (h : R.Mounts) (fault : LifecycleFault) (c : Component H) (w : World H) :
    c.Like R (c.abandon fault w).self := by
  have hR := h.toPreorder
  have hdestroy := h.destroy false c w
  unfold Component.abandon
  generalize c.destroy false w = o at hdestroy
  obtain ⟨⟨core, slots, children⟩, world, result⟩ := o
  exact Component.Like.trans hR hdestroy ⟨h.phase core .unmounted, likeAll.refl hR slots, likeAll.refl hR children⟩

theorem Mounts.mountCreated (h : R.Mounts) (target : NodeId) (anchor : Option NodeId) (c : Component H) (w : World H) :
    c.Like R (c.mountCreated target anchor w).self := by
  have hR := h.toPreorder
  induction c using Component.induct generalizing target anchor w with
  | mk core slots children ihs ihc =>
    have hblock : ∀ b : Block H, (∀ c, b = .component c → ∀ t a w, c.Like R (c.mountCreated t a w).self) →
        ∀ t a w, b.Like R (b.mountCreated t a w).self := by
      intro b ih t a w
      cases b with
      | text x => exact h.text_create x w
      | foreign f => exact h.foreign_mount t a f w
      | component c => exact ih c rfl t a w
    have hslots := fun fragment held later spots u =>
      mountRow_like hR (fun n hn => hblock n.block (ihs n hn)) fragment held later spots u
    have hchildren := fun fragment held later spots u =>
      mountRow_like hR (fun n hn => hblock n.block (ihc n hn)) fragment held later spots u
    have hsame := likeAll.refl hR
    have habandon : ∀ fault (c : Component H) u, (Component.mk core slots children).Like R c →
        (Component.mk core slots children).Like R (c.abandon fault u).self :=
      fun fault c u hc => Component.Like.trans hR hc (h.abandon fault c u)
    rw [Component.mountCreated]
    split
    · exact Component.Like.refl hR _
    · exact Component.Like.refl hR _
    · exact Component.Like.refl hR _
    · next fragment _ =>
      have hbind := h.bind core fragment w
      have hroots : ∀ roots phase, R.core core { (core.bind fragment w).self with roots, phase } :=
        fun roots phase => hR.core_trans _ _ _ hbind (h.place _ roots phase)
      dsimp only
      split
      · exact habandon _ _ _ ⟨hbind, hsame slots, hsame children⟩
      · split
        · exact habandon _ _ _ ⟨hbind, hsame slots, hsame children⟩
        · exact habandon _ _ _ ⟨hbind, hsame slots, hsame children⟩
        · split
          · exact habandon _ _ _ ⟨hroots _ _, hslots _ _ _ _ _, hsame children⟩
          · split
            · exact habandon _ _ _ ⟨hroots _ _, hslots _ _ _ _ _, hchildren _ _ _ _ _⟩
            · exact ⟨hroots _ _, hslots _ _ _ _ _, hchildren _ _ _ _ _⟩

theorem Mounts.mount (h : R.Mounts) (target : NodeId) (anchor : Option NodeId) (c : Component H) (w : World H) :
    c.Like R (c.mount target anchor w).self := by
  have hcreate := h.create c w
  have hmount := h.mountCreated target anchor
  unfold Component.mount
  split
  · exact Component.Like.refl h.toPreorder c
  · exact hmount c w
  all_goals
    dsimp only
    split
    · exact hcreate
    · exact Component.Like.trans h.toPreorder hcreate (hmount _ _)

theorem Updates.update (h : R.Updates) (changed : Props) (c : Component H) (w : World H) :
    c.Like R (c.update changed w).self := by
  have hR := h.toPreorder
  induction c using Component.induct generalizing changed w with
  | mk core slots children ihs ihc =>
    have hblock : ∀ b : Block H, (∀ c, b = .component c → ∀ changed w, c.Like R (c.update changed w).self) →
        ∀ changed w, b.Like R (b.update changed w).self := by
      intro b ih changed w
      cases b with
      | text t => exact h.text_update t changed w
      | foreign f => exact h.foreign_update changed f w
      | component c => exact ih c rfl changed w
    rw [Component.update_mk]
    split
    · exact Component.Like.refl hR _
    · exact ⟨h.apply core w changed, likeAll.refl hR slots,
        updateRow_like hR _ (fun n hn => hblock n.block (ihc n hn)) _⟩

theorem Updates.updateBlock (h : R.Updates) (changed : Props) (b : Block H) (w : World H) :
    b.Like R (b.update changed w).self := by
  cases b with
  | text t => exact h.text_update t changed w
  | foreign f => exact h.foreign_update changed f w
  | component c => exact h.update changed c w

theorem Updates.updateSlots (h : R.Updates) (context : Option Props) (c : Component H) (w : World H) :
    c.Like R (c.updateSlots context w).self := by
  have hR := h.toPreorder
  obtain ⟨core, slots, children⟩ := c
  cases context with
  | none => exact Component.Like.refl hR _
  | some incoming =>
    rw [Component.updateSlots_mk]
    dsimp only
    split
    · exact Component.Like.refl hR _
    · exact ⟨h.context core _, updateRow_like hR _ (fun n _ changed w => h.updateBlock changed n.block w) _,
        likeAll.refl hR children⟩

theorem Updates.tick (h : R.Updates) (incoming : Props) (context : Option Props) (c : Component H) (w : World H) :
    c.Like R (c.tick incoming context w).self := by
  have hR := h.toPreorder
  obtain ⟨core, slots, children⟩ := c
  rw [Component.tick_mk]
  split
  · exact Component.Like.refl hR _
  · dsimp only
    have happly : (Component.mk core slots children).Like R
        (.mk (core.applyEntries w (core.props.changes incoming)).1 slots children) :=
      ⟨h.apply core w _, likeAll.refl hR slots, likeAll.refl hR children⟩
    have hslots := Component.Like.trans hR happly
      (h.updateSlots context _ (core.applyEntries w (core.props.changes incoming)).2)
    split
    · exact hslots
    · refine Component.Like.trans hR hslots ?_
      exact Component.like_iff.2 ⟨hR.core_refl _, likeAll.refl hR _,
        updateRow_like hR _ (fun n _ changed w => h.updateBlock changed n.block w) _⟩

theorem Moves.transition (h : R.Moves) (t : Transition) (isLocal : Bool) (c : Component H) (w : World H) :
    c.Like R (c.transition t isLocal w).1 := by
  induction c using Component.induct generalizing w with
  | mk core slots children ihs ihc =>
    have hblock : ∀ b : Block H, (∀ c, b = .component c → ∀ w, c.Like R (c.transition t isLocal w).1) →
        ∀ w, b.Like R (b.transition t isLocal w).1 := by
      intro b ih w
      cases b with
      | text x => exact h.text_refl x
      | foreign f => exact h.foreign_transition t isLocal f w
      | component c => exact ih c rfl w
    exact ⟨h.core_refl core, transitionAll_like t isLocal (fun n hn => hblock n.block (ihs n hn)) w,
      transitionAll_like t isLocal (fun n hn => hblock n.block (ihc n hn)) _⟩

/-- what every step keeps every call keeps, in any world and whatever it results in -/
theorem Lasting.call (h : R.Lasting) (c : Component H) (w : World H) (call : Call NodeId) :
    c.Like R (c.call w call).self := by
  cases call with
  | create => exact h.create c w
  | mount target anchor => exact h.mount target anchor c w
  | update changed => exact h.update changed c w
  | set incoming => exact h.tick incoming none c w
  | tick incoming context => exact h.tick incoming context c w
  | transition t isLocal => exact h.transition t isLocal c w
  | destroy detaching => exact h.destroy detaching c w

end Likeness

/-! ## Values and footing -/

theorem Component.create_values (c : Component H) (w : World H) : c.Like values (c.create w).self :=
  values_mounts.create c w

theorem Component.destroy_values (detaching : Bool) (c : Component H) (w : World H) :
    c.Like values (c.destroy detaching w).self :=
  values_mounts.destroy detaching c w

theorem Component.mountCreated_values (target : NodeId) (anchor : Option NodeId) (c : Component H) (w : World H) :
    c.Like values (c.mountCreated target anchor w).self :=
  values_mounts.mountCreated target anchor c w

theorem Component.mount_values (target : NodeId) (anchor : Option NodeId) (c : Component H) (w : World H) :
    c.Like values (c.mount target anchor w).self :=
  values_mounts.mount target anchor c w

theorem Component.update_footing (changed : Props) (c : Component H) (w : World H) :
    c.Like footing (c.update changed w).self :=
  footing_updates.update changed c w

theorem Block.update_footing (changed : Props) (b : Block H) (w : World H) :
    b.Like footing (b.update changed w).self :=
  footing_updates.updateBlock changed b w

theorem Component.tick_footing (incoming : Props) (context : Option Props) (c : Component H) (w : World H) :
    c.Like footing (c.tick incoming context w).self :=
  footing_updates.tick incoming context c w

theorem Component.transition_footing (t : Transition) (isLocal : Bool) (c : Component H) (w : World H) :
    c.Like footing (c.transition t isLocal w).1 :=
  footing_updates.transition t isLocal c w

theorem Component.transition_values (t : Transition) (isLocal : Bool) (c : Component H) (w : World H) :
    c.Like values (c.transition t isLocal w).1 :=
  values_moves.transition t isLocal c w

/-- a call that neither creates nor mounts nor destroys -/
def Call.Gives {N : Type} : Call N → Prop
  | .update _ | .set _ | .tick _ _ | .transition _ _ => True
  | _ => False

/-- such a call leaves a component on its footing -/
theorem Component.call_footing {call : Call NodeId} (h : call.Gives) (c : Component H) (w : World H) :
    c.Like footing (c.call w call).self := by
  cases call with
  | update changed => exact c.update_footing changed w
  | set incoming => exact c.tick_footing incoming none w
  | tick incoming context => exact c.tick_footing incoming context w
  | transition t isLocal => exact c.transition_footing t isLocal w
  | create => exact h.elim
  | mount => exact h.elim
  | destroy => exact h.elim

end LiveMarkup
