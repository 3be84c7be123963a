/-
Components that share a target.

Any number of components put their nodes into one target, next to nodes of the host and before each other's, and take
them out again, in any order. At every time the document is the forest of the target followed by what each component that
is not mounted has besides. A turn changes the one and the forest of whose turn it is; the others are only touched.

- `Scene.Shares.turn`, `Scene.Shares.play`: one turn, and any number of them;
- `Scene.shared_target`: what any call on any of the components does to the children of the target.
-/
import LiveMarkup.Proofs.Component.Guest

namespace LiveMarkup

open Markup Marker Forest

variable {H : Host}

namespace Forest

theorem join_cons {α : Type} (f : Forest α) (fs : List (Forest α)) : join (f :: fs) = f ++ join fs := rfl

theorem join_append {α : Type} (fs gs : List (Forest α)) : join (fs ++ gs) = join fs ++ join gs := by
  induction fs with
  | nil => rfl
  | cons f fs ih => rw [List.cons_append, join_cons, join_cons, ih, append_assoc]

end Forest

/-- guests of one target, and the world they are in -/
structure Scene (H : Host) where
  guests : List (Guest H)
  world : World H

namespace Scene

variable [ForeignBlocks H]

def turn (target : NodeId) (s : Scene H) (e : Nat × Call NodeId) : Scene H :=
  match s.guests[e.1]? with
  | some g => ⟨s.guests.set e.1 (g.after target s.world e.2), (g.component.call s.world e.2).world⟩
  | none => s

def play (target : NodeId) (s : Scene H) (turns : List (Nat × Call NodeId)) : Scene H := turns.foldl (turn target) s

/-- every mount among these turns goes into the target, before one of its children at that time or at the end -/
def Permits (target : NodeId) : Scene H → List (Nat × Call NodeId) → Prop
  | _, [] => True
  | s, e :: turns => e.2.Into target (s.world.document.children target) ∧ Permits target (s.turn target e) turns

instance decidablePermits (target : NodeId) : (turns : List (Nat × Call NodeId)) → (s : Scene H) →
    Decidable (s.Permits target turns)
  | [], _ => .isTrue trivial
  | e :: turns, s =>
    have := decidablePermits target turns (s.turn target e)
    inferInstanceAs (Decidable (_ ∧ _))

/-! ## The invariant -/

/-- what is where: `F` is the forest of the target, and each plot is a guest with what it has in the document besides -/
structure Shares (s : Scene H) (target : NodeId) (F : Forest Bare) (plots : List (Guest H × Forest Bare)) : Prop where
  guests : plots.map (·.1) = s.guests
  backend : s.world.backend = .faithful
  holds : s.world.document.Holds (F ++ join (plots.map (·.2)))
  there : target ∈ F.ids
  steady : ∀ e ∈ plots, e.1.Steady
  keeps : ∀ e ∈ plots, e.1.Keeps F e.2 (s.world.document.children target)
  apart : plots.Pairwise fun a b => a.1.brought.Disjoint b.1.brought

end Scene

theorem Guest.Keeps.brought_subset {g : Guest H} {F X : Forest Bare} {children : List NodeId}
    (h : g.Keeps F X children) (hc : children ⊆ F.ids) : g.brought ⊆ F.ids := by
  rcases h with hw | ⟨-, hs⟩
  · rw [hw.brought]
    exact List.nil_subset _
  · exact List.Subset.trans hs.present.subset hc

namespace Scene

variable [ForeignBlocks H] {s : Scene H} {target : NodeId} {F : Forest Bare} {plots : List (Guest H × Forest Bare)}

omit [ForeignBlocks H] in
/-- an element of a list, with what is before and behind it, whatever is there -/
theorem exists_split {α : Type} {l : List α} {i : Nat} {a : α} (h : l[i]? = some a) :
    ∃ before after, l = before ++ a :: after ∧ ∀ b, l.set i b = before ++ b :: after := by
  induction l generalizing i with
  | nil => cases h
  | cons x l ih =>
    cases i with
    | zero =>
      obtain rfl := Option.some.inj h
      exact ⟨[], l, rfl, fun _ => rfl⟩
    | succ i =>
      obtain ⟨before, after, rfl, hset⟩ := ih h
      exact ⟨x :: before, after, rfl, fun b => congrArg (x :: ·) (hset b)⟩

/-- **One turn.** -/
theorem Shares.turn (h : s.Shares target F plots) {i : Nat} {g : Guest H} (hg : s.guests[i]? = some g)
    {call : Call NodeId} (hc : call.Into target (s.world.document.children target)) :
    Effect target g s.world call ∧ ∃ F' plots', (s.turn target (i, call)).Shares target F' plots' := by
  have hnext : s.turn target (i, call) =
      ⟨s.guests.set i (g.after target s.world call), (g.component.call s.world call).world⟩ := by
    rw [Scene.turn, hg]
  rw [← h.guests, List.getElem?_map] at hg
  obtain ⟨⟨g, X⟩, hi, rfl⟩ := Option.map_eq_some_iff.1 hg
  obtain ⟨before, after, rfl, hset⟩ := exists_split hi
  have hholds := h.holds
  rw [List.map_append, List.map_cons, join_append, join_cons] at hholds
  have hw : s.world.document.Holds (F ++ (X ++ (join (before.map (·.2)) ++ join (after.map (·.2))))) :=
    hholds.of_same (by
      simp only [Same, trees_append, ← Multiset.coe_eq_coe, ← Multiset.coe_add]
      abel)
  have hmem : (g, X) ∈ before ++ (g, X) :: after := List.mem_append_right _ List.mem_cons_self
  have hturned := Guest.turn (h.steady _ hmem) h.backend hw h.there (h.keeps _ hmem) hc
  obtain ⟨F', X', t, ht, hdoc, hkeeps, hspares⟩ := hturned.holds
  have hothers : ∀ e ∈ before ++ after, e ∈ before ++ (g, X) :: after := fun e he =>
    (List.mem_append.1 he).elim (List.mem_append_left _) fun he => List.mem_append_right _ (List.mem_cons_of_mem _ he)
  obtain ⟨hapart, hrest⟩ := List.pairwise_cons.1
    ((List.pairwise_middle fun hab => List.Disjoint.symm hab).1 h.apart)
  have hchildren : s.world.document.children target ⊆ F.ids := hw.children_subset h.there
  -- the others have what they had, touched
  refine ⟨hturned.effect, F', before.map (Prod.map id (Forest.map t)) ++ (g.after target s.world call, X') ::
    after.map (Prod.map id (Forest.map t)), ?_⟩
  have hcases : ∀ e ∈ before.map (Prod.map id (Forest.map t)) ++ (g.after target s.world call, X') ::
      after.map (Prod.map id (Forest.map t)), e = (g.after target s.world call, X') ∨
        ∃ o ∈ before ++ after, (o.1, o.2.map t) = e := by
    intro e he
    rw [List.mem_append, List.mem_cons, List.mem_map, List.mem_map] at he
    rcases he with ⟨o, ho, he⟩ | he | ⟨o, ho, he⟩
    · exact .inr ⟨o, List.mem_append_left _ ho, he⟩
    · exact .inl he
    · exact .inr ⟨o, List.mem_append_right _ ho, he⟩
  rw [hnext]
  refine ⟨?_, hturned.backend.trans h.backend, ?_, hspares.forest h.there, fun e he => ?_, fun e he => ?_, ?_⟩
  · have hguests : s.guests.set i (g.after target s.world call) =
        ((before ++ (g, X) :: after).set i (g.after target s.world call, X')).map (·.1) := by
      rw [List.map_set, h.guests]
    rw [hguests, hset, List.map_append, List.map_append, List.map_cons, List.map_cons, List.map_map, List.map_map]
    rfl
  · have hsnd : ∀ os : List (Guest H × Forest Bare),
        join ((os.map (Prod.map id (Forest.map t))).map (·.2)) = (join (os.map (·.2))).map t := fun os => by
      rw [join_map, List.map_map, List.map_map]
      rfl
    rw [List.map_append, List.map_cons, join_append, join_cons, hsnd, hsnd]
    refine hdoc.of_same ?_
    rw [map_append]
    simp only [Same, trees_append, ← Multiset.coe_eq_coe, ← Multiset.coe_add]
    abel
  · rcases hcases e he with rfl | ⟨o, ho, rfl⟩
    · exact hturned.steady
    · exact h.steady o (hothers o ho)
  · rcases hcases e he with rfl | ⟨o, ho, rfl⟩
    · exact hkeeps
    · exact (h.keeps o (hothers o ho)).spared hspares (fun id hid hin => hapart o ho hin hid) ht
  · refine (List.pairwise_middle fun hab => List.Disjoint.symm hab).2 ?_
    rw [← List.map_append, List.pairwise_cons, List.pairwise_map]
    refine ⟨fun e he id hid hin => ?_, hrest⟩
    obtain ⟨o, ho, rfl⟩ := List.mem_map.1 he
    rcases hturned.brought id hid with hold | hnew
    · exact hapart o ho hold hin
    · exact hnew ((h.keeps o (hothers o ho)).brought_subset hchildren hin)

/-- **Any turns.** -/
theorem Shares.play (h : s.Shares target F plots) {turns : List (Nat × Call NodeId)} (hp : s.Permits target turns) :
    ∃ F' plots', (s.play target turns).Shares target F' plots' := by
  induction turns generalizing s F plots with
  | nil => exact ⟨F, plots, h⟩
  | cons e turns ih =>
    obtain ⟨i, call⟩ := e
    obtain ⟨hc, hp⟩ := hp
    cases hg : s.guests[i]? with
    | some g =>
      obtain ⟨-, F', plots', h'⟩ := h.turn hg hc
      exact ih h' hp
    | none =>
      have hsame : s.turn target (i, call) = s := by
        rw [Scene.turn, hg]
      have hplay : s.play target ((i, call) :: turns) = s.play target turns := by
        rw [Scene.play, List.foldl_cons, hsame]
        rfl
      rw [hsame] at hp
      rw [hplay]
      exact ih h hp

/-! ## From the start -/

/-- components that are mounted nowhere, each with what it has in the document besides, and a target that is not theirs;
they are built of texts and components, and their actions leave the document alone -/
structure Starts (s : Scene H) (target : NodeId) : Prop where
  backend : s.world.backend = .faithful
  brought : ∀ g ∈ s.guests, g.brought = []
  built : ∀ g ∈ s.guests, g.component.Built
  fit : ∀ g ∈ s.guests, g.component.Each Core.Fit fun _ => True
  holds : ∃ F, ∃ plots : List (Guest H × Forest Bare), plots.map (·.1) = s.guests ∧
    (∀ e ∈ plots, e.1.component.Unplaced false e.2) ∧
      s.world.document.Holds (F ++ join (plots.map (·.2))) ∧ target ∈ F.ids

omit [ForeignBlocks H] in
theorem Starts.shares (h : s.Starts target) : ∃ F plots, s.Shares target F plots := by
  obtain ⟨F, plots, hguests, hunplaced, hholds, ht⟩ := h.holds
  have hguest : ∀ e ∈ plots, e.1 ∈ s.guests := fun e he => hguests ▸ List.mem_map_of_mem he
  have hempty : ∀ e ∈ plots, e.1.brought = [] := fun e he => h.brought _ (hguest e he)
  refine ⟨F, plots, hguests, h.backend, hholds, ht, fun e he => ?_, fun e he => .inl ⟨hunplaced e he, hempty e he⟩, ?_⟩
  · exact ⟨⟨h.built _ (hguest e he), Block.Unplaced.hushed (b := .component e.1.component) (hunplaced e he)⟩,
      h.fit _ (hguest e he)⟩
  · refine List.pairwise_of_forall_mem_list fun a ha b _ => ?_
    rw [hempty a ha]
    exact List.disjoint_nil_left _

omit [ForeignBlocks H] in
/-- components that have nothing in the document, and any document with the target in it -/
theorem starts_of_idle (hb : s.world.backend = .faithful) (hv : s.world.document.Valid)
    (ht : target ∈ s.world.document.forest.bare.ids) (h : ∀ g ∈ s.guests, g.brought = [] ∧ g.component.Idle ∧
      g.component.Built ∧ g.component.Each Core.Fit fun _ => True) : s.Starts target := by
  have hnone : ∀ gs : List (Guest H), join (gs.map fun _ => (nil : Forest Bare)) = nil := by
    intro gs
    induction gs with
    | nil => rfl
    | cons g gs ih => exact ih
  refine ⟨hb, fun g hg => (h g hg).1, fun g hg => (h g hg).2.2.1, fun g hg => (h g hg).2.2.2,
    s.world.document.forest.bare, s.guests.map fun g => (g, nil), ?_, fun e he => ?_, ?_, ht⟩
  · rw [List.map_map]
    exact List.map_id _
  · obtain ⟨g, hg, rfl⟩ := List.mem_map.1 he
    exact Block.Idle.unplaced (b := .component g.component) (h g hg).2.2.1 (h g hg).2.1
  · rw [List.map_map, show (fun e : Guest H × Forest Bare => e.2) ∘ (fun g => (g, nil)) = fun _ => nil from rfl, hnone,
      append_nil]
    exact hv

/-- **Sharing a target.** After any turns of any components, a mount that succeeds puts what the component has at its top
level, in the order of its template, in one piece before the anchor or at the end; its roots are those of these nodes that
no nested block has at its own top level, and they stay so as long as it is mounted. Destroying it with its nodes takes
out what its last mount has put there, and nothing else. No other call changes the children of the target. -/
theorem shared_target (h : s.Starts target) {turns : List (Nat × Call NodeId)} (hp : s.Permits target turns) {i : Nat}
    {g : Guest H} (hg : (s.play target turns).guests[i]? = some g) {call : Call NodeId}
    (hc : call.Into target ((s.play target turns).world.document.children target)) :
    let w := (s.play target turns).world
    let o := g.component.call w call
    let before := w.document.children target
    let after := o.world.document.children target
    (∀ anchor, call = .mount target anchor → o.result = .ok () →
      (∃ ahead behind, before = ahead ++ behind ∧ behind.head? = anchor ∧
        after = ahead ++ o.self.tops.map (·.node) ++ behind) ∧
      (∀ x ∈ o.self.tops, o.world.document.tag? x.node = x.tag) ∧
      o.self.roots = (o.self.tops.map (·.node)).filter (· ∉ o.self.nestedTops) ∧
      o.self.roots.length = g.component.core.template.breadth) ∧
    (call = .destroy true → g.brought.Sublist before ∧ after = before.filter (· ∉ g.brought)) ∧
    (call ≠ .destroy true → (∀ anchor, call = .mount target anchor → o.result ≠ .ok ()) → after = before) ∧
    (g.component.state = .mounted → g.brought = g.component.tops.map (·.node) ∧ g.brought.Sublist before ∧
      g.component.roots = g.brought.filter (· ∉ g.component.nestedTops)) := by
  intro w o before after
  obtain ⟨F, plots, hshares⟩ := h.shares
  obtain ⟨F', plots', hnow⟩ := hshares.play hp
  obtain ⟨heffect, -⟩ := hnow.turn hg hc
  refine ⟨fun anchor hcall hok => ?_, heffect.destroy, heffect.other, fun hstate => ?_⟩
  · have hinserts := heffect.mount anchor hcall hok
    have htemplate : o.self.core.template = g.component.core.template := by
      subst hcall
      exact (Component.like_iff.1 (g.component.mount_values target anchor w)).1.template
    exact ⟨hinserts.children, hinserts.tags, hinserts.roots, htemplate ▸ hinserts.breadth⟩
  · have hmem : g ∈ plots'.map (·.1) := hnow.guests ▸ List.mem_of_getElem? hg
    obtain ⟨⟨g, X⟩, he, rfl⟩ := List.mem_map.1 hmem
    rcases hnow.keeps _ he with hwaits | ⟨-, hstays⟩
    · exact absurd (Phase.eq_mounted_of hstate) hwaits.not_mounted
    · exact ⟨hstays.tops.symm, hstays.present, hstays.roots⟩

end Scene

/-- a stack and a frame in a document with nothing but an empty body -/
def Scene.pair : Scene Script.host := ⟨[⟨.crowded, []⟩, ⟨.frame, []⟩], .blank⟩

theorem Scene.pair_starts : pair.Starts 0 := by
  have hfit : (Template.framed : Template (Action Script.host)).Everywhere Template.Fit :=
    Template.Everywhere.imp (fun _ => .mk) _ Template.framed_accepted Template.framed_quiet
  have hidle : Component.frame.Idle := Component.furnished_idle (fun e he => absurd he List.not_mem_nil) World.blank
  have hbuilt : Component.frame.Built := Component.furnished_built (fun e he => absurd he List.not_mem_nil) World.blank
  have heach : Component.frame.Each (·.template.Fit) fun _ => True :=
    Component.furnished_each hfit (fun e he => absurd he List.not_mem_nil) World.blank
  refine starts_of_idle rfl World.blank_valid List.mem_cons_self (List.forall_mem_cons.2 ⟨⟨rfl, ?_, ?_, ?_⟩,
    List.forall_mem_singleton.2 ⟨rfl, hidle, hbuilt, heach⟩⟩)
  · refine Component.furnished_idle (fun e he => ?_) World.blank
    obtain rfl := List.mem_singleton.1 he
    exact hidle
  · exact Component.crowded_built
  · refine Component.furnished_each (Template.Everywhere.imp (fun _ => .mk) _ Template.stacked_accepted
      Template.stacked_quiet) (fun e he => ?_) World.blank
    obtain rfl := List.mem_singleton.1 he
    exact heach

/-- the frame is put between the nodes of the stack, and stays when these go -/
theorem Scene.shared_target_pair :
    let now := pair.play 0 [(0, .mount 0 none), (1, .mount 0 (some 10))]
    ∃ g, now.guests[0]? = some g ∧ now.world.document.children 0 = [2, 17, 10, 6] ∧ g.brought = [2, 10, 6] ∧
      (g.component.call now.world (.destroy true)).world.document.children 0 = [17] := by
  intro now
  have hp : pair.Permits 0 [(0, .mount 0 none), (1, .mount 0 (some 10))] := by decide +kernel
  have hnow : now.world.document.children 0 = [2, 17, 10, 6] := by decide +kernel
  have hbrought : now.guests[0]?.map (·.brought) = some [2, 10, 6] := by decide +kernel
  obtain ⟨g, hg, hbrought⟩ := Option.map_eq_some_iff.1 hbrought
  have hc : (Call.destroy true).Into 0 (now.world.document.children 0) := trivial
  obtain ⟨-, hdestroy, -⟩ := shared_target pair_starts hp hg hc
  refine ⟨g, hg, hnow, hbrought, (hdestroy rfl).2.trans ?_⟩
  rw [hnow, hbrought]
  rfl

end LiveMarkup
