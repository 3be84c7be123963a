/-
Markers that stay where they are.

While a block is mounted, what it has created moves, and with it the markers in that. The markers of others wait in other
fragments, and stay in their places: `Moors E` says of two documents that every marker but those of `E` is where it was, and
has come into no fragment that it was not in. What is in one fragment is in no other, so the markers in different fragments
are different.

- `Moors.andThen`: one change after another;
- `moors_shifts`, `moors_discard`, `moors_replaceWith`, `moors_insertBefore`: nodes are moved or taken out;
- `Standing.step`: a marker that has its place keeps it.
-/
import LiveMarkup.Proofs.Document.Attached

namespace LiveMarkup

open Forest Marker

namespace Document

section

variable {L : Type} {d d₁ d₂ : Document L} {E E' : NodeId → Prop} {x y f : NodeId}

/-- every marker but these is where it was, and in no other fragment -/
def Moors (E : NodeId → Prop) (d d₁ : Document L) : Prop :=
  ∀ x p, d.Marked x → d.parent? x = some p → ¬ E x → d₁.parent? x = some p ∧
    ∀ f, d.Sorted .fragment f → d₁.contains f x = true → d.contains f x = true

/-! ## Fragments -/

theorem Sorted.parent? (h : d.Sorted .fragment f) (hd : d.Intact) : d.parent? f = none := by
  cases hp : d.parent? f with
  | none => rfl
  | some p =>
    obtain ⟨n, hn⟩ := hd.valid.exists_node (mem_ids_of_parent? hd.valid hp).2
    have hnone := hd.top p f ((mem_children_iff hd.valid).2 hp)
    rw [isFragment_eq_node?, hn] at hnone
    exact absurd (hnone.symm.trans (Kind.isFragment_of_sort (h.same n hn))) Bool.false_ne_true

/-- what is in one fragment is in no other -/
theorem Sorted.unique (h : d.Sorted .fragment f) (h' : d.Sorted .fragment y) (hd : d.Intact)
    (hx : d.contains f x = true) (hy : d.contains y x = true) : f = y := by
  induction x using climb hd.valid with
  | step x ih =>
    rcases (contains_iff hd.valid).1 hx with rfl | ⟨p, hp, hin⟩
    · rcases (contains_iff hd.valid).1 hy with he | ⟨p, hp, -⟩
      · exact he
      · rw [h.parent? hd] at hp
        cases hp
    · rcases (contains_iff hd.valid).1 hy with rfl | ⟨q, hq, hin'⟩
      · rw [h'.parent? hd] at hp
        cases hp
      · exact ih p hp hin (Option.some.inj (hq.symm.trans hp) ▸ hin')

/-! ## One change after another -/

theorem Moors.refl (d : Document L) : d.Moors E d := fun _ _ _ hp _ => ⟨hp, fun _ _ h => h⟩

theorem Moors.mono (h : Moors E d d₁) (hE : ∀ x, E x → E' x) : Moors E' d d₁ := fun x p hm hp hx =>
  h x p hm hp fun he => hx (hE x he)

/-- a marker that is in something is still a marker -/
theorem Marked.fills (h : d.Marked x) (hf : d.FillsNone d₁) (hv : d.Valid) (hv₁ : d₁.Valid) {p : NodeId}
    (hp : d₁.parent? x = some p) : d₁.Marked x := by
  obtain ⟨n, hn, hm⟩ := h
  obtain ⟨n₁, hn₁⟩ := hv₁.exists_node (mem_ids_of_parent? hv₁ hp).2
  have hlt := hv.below (mem_ids_of_node? hv (by rw [hn]; exact Option.some_ne_none n))
  obtain ⟨n', hn', hsame⟩ := hf.sorts x hlt n₁ hn₁
  obtain rfl := Option.some.inj (hn.symm.trans hn')
  exact ⟨n₁, hn₁, by rw [Kind.marker?_of_sort hsame]; exact hm⟩

/-- the second change may move markers that the first has moved, and those that were in the same fragments before -/
theorem Moors.andThen (h : Moors E d d₁) (h' : Moors E' d₁ d₂) (hf : d.FillsNone d₁) (hle : d.fresh ≤ d₁.fresh)
    (hv : d.Valid) (hv₁ : d₁.Valid)
    (hE : ∀ x, ¬ E x → (∀ f, d.Sorted .fragment f → d₁.contains f x = true → d.contains f x = true) → ¬ E' x) :
    Moors E d d₂ := by
  intro x p hm hp hx
  obtain ⟨hp₁, hback⟩ := h x p hm hp hx
  have hm₁ := hm.fills hf hv hv₁ hp₁
  obtain ⟨hp₂, hback₂⟩ := h' x p hm₁ hp₁ (hE x hx hback)
  exact ⟨hp₂, fun f hsort hin => hback f hsort (hback₂ f (hsort.fills hf hle) hin)⟩

/-- one of these nodes, or in one of these fragments -/
def Touched (d : Document L) (fs xs : List NodeId) (x : NodeId) : Prop := x ∈ xs ∨ ∃ f ∈ fs, d.contains f x = true

theorem Touched.mono {fs gs xs ys : List NodeId} (h : d.Touched fs xs x) (hf : fs ⊆ gs) (hx : xs ⊆ ys) : d.Touched gs ys x := by
  rcases h with hin | ⟨f, hin, hcontains⟩
  · exact .inl (hx hin)
  · exact .inr ⟨f, hf hin, hcontains⟩

/-- the same for changes to what is in some fragments -/
theorem Moors.chain {fs gs xs ys : List NodeId} (h : Moors E d d₁) (h' : Moors (d₁.Touched gs ys) d₁ d₂)
    (hE : ∀ x, d.Marked x → E x → d.Touched fs xs x) (hgs : ∀ f ∈ gs, f ∈ fs ∧ d.Sorted .fragment f)
    (hys : ∀ y ∈ ys, d.Touched fs xs y) (hf : d.FillsNone d₁) (hle : d.fresh ≤ d₁.fresh) (hv : d.Valid) (hv₁ : d₁.Valid) :
    Moors (d.Touched fs xs) d d₂ := by
  have hfirst : Moors (d.Touched fs xs) d d₁ := fun x p hm hp hx => h x p hm hp fun he => hx (hE x hm he)
  refine hfirst.andThen h' hf hle hv hv₁ fun x hx hback => ?_
  rintro (hin | ⟨f, hin, hcontains⟩)
  · exact hx (hys x hin)
  · exact hx (.inr ⟨f, (hgs f hin).1, hback f (hgs f hin).2 hcontains⟩)

/-! ## Every change -/

/-- nothing gets another parent -/
theorem moors_of_parents (hv : d.Valid) (hv₁ : d₁.Valid) (hparent : ∀ x, d₁.parent? x = d.parent? x) : Moors E d d₁ :=
  fun x _ _ hp _ => ⟨(hparent x).trans hp, fun _ _ hin =>
    contains_of_parents hv hv₁ (fun y _ hq => (hparent y).symm.trans hq) hin⟩

/-- another tree has come -/
theorem moors_grows (hg : d.Grows d₁) (hv : d.Valid) (hv₁ : d₁.Valid) : Moors E d d₁ := by
  intro x p _ hp _
  have hx := hv.below (mem_ids_of_parent? hv hp).2
  exact ⟨(hg.parent x hx).trans hp, fun _ _ hin => contains_of_grows hg hv hv₁ hx hin⟩

/-- nodes are moved, with all that is in them -/
theorem moors_shifts {moved : List NodeId} {target : Option NodeId} (h : Shifts moved target d d₁) (hv : d.Valid)
    (hv₁ : d₁.Valid) (hE : ∀ x, d.Marked x → ∀ c ∈ moved, d.contains c x = true → E x) : Moors E d d₁ := by
  intro x p hm hp hx
  refine ⟨?_, fun f _ hin => (h.contains_or hv hv₁ hin).resolve_right ?_⟩
  · rw [h.stays x fun hin => hx (hE x hm x hin (contains_self d x))]
    exact hp
  · rintro ⟨c, hc, hin⟩
    exact hx (hE x hm c hc hin)

theorem moors_detach (hd : d.Intact) (x : NodeId) : Moors (d.contains x · = true) d (d.detach x) :=
  moors_shifts (relinks_detach hd.valid x).toShifts hd.valid (hd.detach x).valid fun _ _ _ hc hin =>
    List.mem_singleton.1 hc ▸ hin

/-- a node, or what a fragment holds, is put somewhere -/
theorem moors_insertBefore (hd : d.Intact) (p y : NodeId) (anchor : Option NodeId) :
    Moors (d.contains y · = true) d (d.insertBefore p y anchor) :=
  moors_shifts (relinks_insertBefore hd p y anchor).toShifts hd.valid (hd.insertBefore p y anchor).valid
    fun _ _ _ hc hin => contains_trans hd.valid (contains_of_pieces hd.valid hc) hin

/-- no marker is in a text -/
theorem Vacant.not_marked (h : d.Vacant (.text "") y) (hv : d.Valid) (hx : d.contains y x = true) : ¬ d.Marked x := by
  obtain rfl := h.eq_of_text hv hx
  rintro ⟨n, hn, hm⟩
  exact hm (Kind.marker?_of_sort (k := .text "") (h.same n hn))

theorem moors_insertText (hd : d.Intact) (hy : d.Vacant (.text "") y) (p : NodeId) (anchor : Option NodeId) :
    Moors E d (d.insertBefore p y anchor) := fun x _ hm hp _ =>
  moors_insertBefore hd p y anchor x _ hm hp fun hin => hy.not_marked hd.valid hin hm

/-- a text takes the place of a node -/
theorem moors_replaceWith (hd : d.Intact) (hy : d.Vacant (.text "") y) (hp : ∀ p, d.parent? x = some p → ¬ d.Shut p) :
    Moors (d.contains x · = true) d (d.replaceWith x y) := by
  unfold replaceWith
  cases hparent : d.parent? x with
  | none => exact .refl d
  | some p =>
    have hd₁ := hd.insertBefore p y (some x)
    have hfills := fillsNone_insertBefore hd (hp p hparent) hy.hollow (some x)
    intro z q hm hq hz
    obtain ⟨hq₁, hback⟩ := moors_insertText (E := fun _ => False) hd hy p (some x) z q hm hq id
    have hm₁ := hm.fills hfills hd.valid hd₁.valid hq₁
    have hout : ¬ (d.insertBefore p y (some x)).contains x z = true := fun hin => by
      rcases (relinks_insertBefore hd p y (some x)).toShifts.contains_or hd.valid hd₁.valid hin with hin | ⟨c, hc, hin⟩
      · exact hz hin
      · exact hy.not_marked hd.valid (contains_trans hd.valid (contains_of_pieces hd.valid hc) hin) hm
    obtain ⟨hq₂, hback₂⟩ := moors_detach hd₁ x z q hm₁ hq₁ hout
    exact ⟨hq₂, fun f hsort hin => hback f hsort (hback₂ f (hsort.fills hfills
      (Nat.le_of_eq (fresh_insertBefore d p y (some x)).symm)) hin)⟩

end

/-! ## Taking markers out -/

variable {A : Type} {d d₁ : Document (Listener A)} {x : NodeId}

/-- a marker is taken out -/
theorem moors_discard (hd : d.Intact) (h : d.Pending x) (held : NodeId → Bool) : Moors (· = x) d (d.discard held x) :=
  fun _ _ _ hp hy => ⟨(h.rest hd held hy).2.trans hp, fun _ _ hin =>
    contains_of_parents hd.valid (hd.discard held x).valid (fun _ _ hq => parent?_of_discard hd hq) hin⟩

/-! ## Markers in their places -/

/-- a marker that is in something, but in none of these fragments -/
structure Standing (d : Document (Listener A)) (fs : List NodeId) (x : NodeId) : Prop where
  marked : d.Marked x
  placed : ∃ p, d.parent? x = some p
  apart : ∀ f ∈ fs, d.Sorted .fragment f ∧ d.contains f x = false

/-- it keeps its place while others are moved -/
theorem Standing.step {E : NodeId → Prop} {fs : List NodeId} (h : d.Standing fs x) (hm : Moors E d d₁) (hx : ¬ E x)
    (hf : d.FillsNone d₁) (hle : d.fresh ≤ d₁.fresh) (hv : d.Valid) (hv₁ : d₁.Valid) : d₁.Standing fs x := by
  obtain ⟨p, hp⟩ := h.placed
  obtain ⟨hp₁, hback⟩ := hm x p h.marked hp hx
  refine ⟨h.marked.fills hf hv hv₁ hp₁, ⟨p, hp₁⟩, fun f hin => ⟨(h.apart f hin).1.fills hf hle, ?_⟩⟩
  obtain ⟨hsort, hout⟩ := h.apart f hin
  exact Bool.eq_false_iff.2 fun hin₁ => Bool.eq_false_iff.1 hout (hback f hsort hin₁)

theorem Standing.not_touched {fs gs xs : List NodeId} (h : d.Standing fs x) (hgs : gs ⊆ fs) (hx : x ∉ xs) :
    ¬ d.Touched gs xs x := by
  rintro (hin | ⟨f, hin, hcontains⟩)
  · exact hx hin
  · exact Bool.eq_false_iff.1 (h.apart f (hgs hin)).2 hcontains

theorem Standing.mono {fs gs : List NodeId} (h : d.Standing fs x) (hgs : gs ⊆ fs) : d.Standing gs x :=
  ⟨h.marked, h.placed, fun f hin => h.apart f (hgs hin)⟩

end Document

end LiveMarkup
