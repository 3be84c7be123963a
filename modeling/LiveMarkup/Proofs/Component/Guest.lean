/-
One of the components that share a target.

Each of them has its own forest in the document while it is not mounted. A call on one touches the forests of the others
at most, so all that they rely on is what becomes of the target: `Spares` says what a turn must not do there, and
`Guest.Keeps` is what holds of every guest whoever's turn it is.

- `Guest.Keeps.spared`: the turns of others;
- `Guest.turn`: a guest's own turn, for each call there is.
-/
import LiveMarkup.Proofs.Component.Lifecycle
import LiveMarkup.Proofs.Component.Seated

namespace LiveMarkup

open Markup Marker Forest

variable {H : Host}

/-- a component that shares a target, and the nodes that its last mount has put there -/
structure Guest (H : Host) where
  component : Component H
  brought : List NodeId

/-! ## What holds of every guest -/

namespace Guest

/-- it is not mounted; `X` is what it has in the document all the same -/
structure Waits (g : Guest H) (X : Forest Bare) : Prop where
  unplaced : g.component.Unplaced false X
  brought : g.brought = []

/-- it is mounted: what it has brought is among the children of the target, and nothing else there is its own -/
structure Stays (g : Guest H) (F : Forest Bare) (children : List NodeId) : Prop where
  phase : g.component.core.phase = .mounted
  active : g.component.Active
  tops : g.component.tops.map (·.node) = g.brought
  roots : g.component.roots = g.brought.filter (· ∉ g.component.nestedTops)
  present : g.brought.Sublist children
  taken : g.brought ⊆ g.component.detached
  own : ∀ id ∈ g.component.detached, id ∈ children → id ∈ g.brought
  kept : g.component.detached ⊆ F.ids

/-- either way; what a mounted guest has in the document is in the forest of the target -/
def Keeps (g : Guest H) (F X : Forest Bare) (children : List NodeId) : Prop :=
  g.Waits X ∨ X = nil ∧ g.Stays F children

end Guest

/-- a mounted guest on the same footing -/
theorem Guest.Stays.like {g : Guest H} {F : Forest Bare} {children : List NodeId} (h : g.Stays F children)
    {c : Component H} (hl : g.component.Like footing c) (hd : c.detached = g.component.detached) :
    (Guest.mk c g.brought).Stays F children := by
  have hf := (Component.like_iff.1 hl).1
  refine ⟨hf.phase.trans h.phase, hl.each (fun a b hab ha => by rw [hab.phase]; exact ha) (fun _ _ _ => id) h.active,
    by rw [← h.tops, hl.tops], ?_, h.present, by rw [hd]; exact h.taken, by rw [hd]; exact h.own,
    by rw [hd]; exact h.kept⟩
  rw [hl.nestedTops, ← h.roots]
  exact hf.roots

/-- a turn of someone who had `gone` among the children of the target: others find theirs as they were -/
structure Spares (F F' : Forest Bare) (gone before after : List NodeId) : Prop where
  forest : F.ids ⊆ F'.ids
  gained : ∀ id ∈ after, id ∈ before ∨ id ∉ F.ids
  children : ∀ ids : List NodeId, ids.Sublist before → (∀ id ∈ ids, id ∉ gone) → ids.Sublist after

/-- what was put between two parts of a list -/
theorem filter_inserted {α : Type} [DecidableEq α] {ahead behind xs : List α} (h : ∀ x ∈ xs, x ∉ ahead ++ behind) :
    (ahead ++ xs ++ behind).filter (· ∉ ahead ++ behind) = xs := by
  have hold : ∀ ys ⊆ ahead ++ behind, ys.filter (· ∉ ahead ++ behind) = [] := fun ys hys =>
    List.filter_eq_nil_iff.2 fun y hy hno => of_decide_eq_true hno (hys hy)
  rw [List.filter_append, List.filter_append, hold ahead (List.subset_append_left _ _),
    hold behind (List.subset_append_right _ _), List.nil_append, List.append_nil]
  exact List.filter_eq_self.2 fun x hx => decide_eq_true (h x hx)

/-- nothing has happened to the children -/
theorem Spares.of_eq {F F' : Forest Bare} {gone before after : List NodeId} (h : F.ids ⊆ F'.ids) (he : after = before) :
    Spares F F' gone before after := by
  subst he
  exact ⟨h, fun _ => .inl, fun _ hs _ => hs⟩

/-- **The turns of others.** -/
theorem Guest.Keeps.spared {g : Guest H} {F F' X : Forest Bare} {gone before after : List NodeId}
    (h : g.Keeps F X before) (hs : Spares F F' gone before after) (hg : ∀ id ∈ g.brought, id ∉ gone)
    {t : Bare → Bare} (ht : Touch t) : g.Keeps F' (X.map t) after := by
  rcases h with hw | ⟨rfl, hp⟩
  · exact .inl ⟨hw.unplaced.map (Component.Like.refl footing_preorder g.component) ht, hw.brought⟩
  · refine .inr ⟨rfl, { hp with present := hs.children _ hp.present hg, own := fun id hid hin => ?_, kept := ?_ }⟩
    · exact hp.own id hid ((hs.gained id hin).resolve_right fun hno => hno (hp.kept hid))
    · exact List.Subset.trans hp.kept hs.forest

variable [ForeignBlocks H]

/-! ## A turn -/

/-- what a guest is after a call: it has brought what a mount has added to the children of the target -/
def Guest.after (target : NodeId) (g : Guest H) (w : World H) (call : Call NodeId) : Guest H where
  component := (g.component.call w call).self
  brought :=
    match call, (g.component.call w call).result with
    | .mount _ _, .ok _ => ((g.component.call w call).world.document.children target).filter
        (· ∉ w.document.children target)
    | .destroy _, _ => []
    | _, _ => g.brought

/-- mounts go into the target, before one of its children or at the end -/
def Call.Into (target : NodeId) (children : List NodeId) : Call NodeId → Prop
  | .mount t anchor => t = target ∧ ∀ a ∈ anchor, a ∈ children
  | _ => True

instance (target : NodeId) (children : List NodeId) : (call : Call NodeId) → Decidable (call.Into target children)
  | .mount t anchor => inferInstanceAs (Decidable (t = target ∧ ∀ a ∈ anchor, a ∈ children))
  | .create | .update _ | .set _ | .tick _ _ | .transition _ _ | .destroy _ => .isTrue trivial

/-- a mount puts what the component has at its top level before the anchor, in one piece -/
structure Inserts (target : NodeId) (anchor : Option NodeId) (w : World H) (o : Outcome H (Component H)) : Prop where
  children : ∃ ahead behind, w.document.children target = ahead ++ behind ∧ behind.head? = anchor ∧
    o.world.document.children target = ahead ++ o.self.tops.map (·.node) ++ behind
  tags : ∀ x ∈ o.self.tops, o.world.document.tag? x.node = x.tag
  roots : o.self.roots = (o.self.tops.map (·.node)).filter (· ∉ o.self.nestedTops)
  breadth : o.self.roots.length = o.self.core.template.breadth

/-- what a call does to the children of the target -/
structure Effect (target : NodeId) (g : Guest H) (w : World H) (call : Call NodeId) : Prop where
  mount : ∀ anchor, call = .mount target anchor → (g.component.call w call).result = .ok () →
    Inserts target anchor w (g.component.call w call)
  destroy : call = .destroy true → g.brought.Sublist (w.document.children target) ∧
    (g.component.call w call).world.document.children target =
      (w.document.children target).filter (· ∉ g.brought)
  other : call ≠ .destroy true → (∀ anchor, call = .mount target anchor → (g.component.call w call).result ≠ .ok ()) →
    (g.component.call w call).world.document.children target = w.document.children target

omit [ForeignBlocks H] in
/-- components with the same templates -/
theorem Component.Like.fit {R : Likeness H} {c c' : Component H} (h : c.Like R c')
    (hR : ∀ a b, R.core a b → b.template = a.template) (hc : c.Each Core.Fit fun _ => True) :
    c'.Each Core.Fit fun _ => True :=
  h.each (fun a b hab ha => by rw [Core.Fit, hR a b hab]; exact ha) (fun _ _ _ => id) hc

/-- templates that were accepted, with actions that leave the document alone -/
structure Guest.Steady (g : Guest H) : Prop where
  calm : g.component.Calm
  fit : g.component.Each Core.Fit fun _ => True

/-- a turn of a guest: `F` is the forest of the target, and `K` is what others have in the document -/
structure Turned (target : NodeId) (F K : Forest Bare) (g : Guest H) (w : World H) (call : Call NodeId) : Prop where
  backend : (g.component.call w call).world.backend = w.backend
  steady : (g.after target w call).Steady
  holds : ∃ F' X' t, Touch t ∧ (g.component.call w call).world.document.Holds (F' ++ (X' ++ K.map t)) ∧
    (g.after target w call).Keeps F' X' ((g.component.call w call).world.document.children target) ∧
      Spares F F' g.brought (w.document.children target) ((g.component.call w call).world.document.children target)
  brought : ∀ id ∈ (g.after target w call).brought, id ∈ g.brought ∨ id ∉ F.ids
  effect : Effect target g w call

section

variable {target : NodeId} {F X K : Forest Bare} {g : Guest H} {w : World H} {call : Call NodeId}

/-- a call that leaves the children as they are -/
theorem Effect.of_eq
    (h : (g.component.call w call).world.document.children target = w.document.children target)
    (hmount : ∀ anchor, call = .mount target anchor → (g.component.call w call).result ≠ .ok ())
    (hdestroy : call = .destroy true → g.brought = []) : Effect target g w call := by
  refine ⟨fun anchor hc hok => absurd hok (hmount anchor hc), fun hc => ?_, fun _ _ => h⟩
  rw [h, hdestroy hc]
  exact ⟨List.nil_sublist _, (List.filter_eq_self.2 fun _ _ => by simp).symm⟩

/-- a call that changes neither the guest nor the world -/
theorem Turned.of_same (hs : g.Steady) (hw : w.document.Holds (F ++ (X ++ K)))
    (hk : g.Keeps F X (w.document.children target)) (hself : g.after target w call = g)
    (hworld : (g.component.call w call).world = w)
    (hmount : ∀ anchor, call = .mount target anchor → (g.component.call w call).result ≠ .ok ())
    (hdestroy : call = .destroy true → g.brought = []) : Turned target F K g w call where
  backend := by rw [hworld]
  steady := by rwa [hself]
  holds := ⟨F, X, fun n => n, .refl, by rwa [hworld, map_self], by rwa [hself, hworld],
    .of_eq (List.Subset.refl _) (by rw [hworld])⟩
  brought := by
    rw [hself]
    exact fun _ => .inl
  effect := .of_eq (by rw [hworld]) hmount hdestroy

/-- updates, ticks and transitions -/
theorem Turned.gives (hs : g.Steady) (hw : w.document.Holds (F ++ (X ++ K)))
    (hk : g.Keeps F X (w.document.children target)) (hg : call.Gives) : Turned target F K g w call := by
  have htouched := hs.calm.call_touched hg w
  have hchildren := htouched.children hw.valid target
  have hlike := g.component.call_footing hg w
  have hafter : (g.after target w call).brought = g.brought := by
    cases call with
    | create => exact hg.elim
    | mount => exact hg.elim
    | destroy => exact hg.elim
    | _ => rfl
  have hneither : (∀ anchor, call ≠ .mount target anchor) ∧ call ≠ .destroy true := by
    constructor
    · rintro anchor rfl
      exact hg
    · rintro rfl
      exact hg
  obtain ⟨t, ht, htouch⟩ := htouched.holds
  have hdoc := htouch _ hw
  rw [map_append, map_append] at hdoc
  refine { backend := htouched.backend, steady := ?steady, holds := ⟨F.map t, X.map t, t, ht, hdoc, ?keeps, ?spares⟩,
           brought := by rw [hafter]; exact fun _ => .inl, effect := ?effect }
  case steady => exact ⟨hlike.calm hs.calm, hlike.fit (fun _ _ hf => hf.template) hs.fit⟩
  case keeps =>
    rcases hk with hwaits | ⟨rfl, hstays⟩
    · exact .inl ⟨hwaits.unplaced.map hlike ht, hafter.trans hwaits.brought⟩
    · have hstays := hstays.like hlike (g.component.call_detached hg w)
      rw [← hafter, ← hchildren] at hstays
      exact .inr ⟨rfl, { hstays with kept := by rw [ids_map ht]; exact hstays.kept }⟩
  case spares => exact .of_eq (by rw [ids_map ht]; exact List.Subset.refl _) hchildren
  case effect => exact .of_eq hchildren (fun anchor hc => absurd hc (hneither.1 anchor)) fun hc => absurd hc hneither.2

/-- a guest that is not mounted is created -/
theorem Guest.Waits.create (h : g.Waits X) (hs : g.Steady) (hw : w.document.Holds (F ++ (X ++ K))) :
    (g.component.create w).result = .ok () ∧ (g.component.create w).world.backend = w.backend ∧
      ∃ Y, (g.component.create w).self.Unplaced true Y ∧ (g.component.create w).world.document.Holds (F ++ K ++ Y) ∧
        (g.component.create w).self.Calm ∧ (g.component.create w).self.Each Core.Fit fun _ => True := by
  rw [← append_assoc] at hw
  have hmake := Block.Unplaced.create (b := .component g.component) h.unplaced w (F ++ K)
    (hw.of_same (Same.right_comm F X K))
  obtain ⟨Y, hY, hholds⟩ := hmake.holds
  have hvalues := g.component.create_values w
  exact ⟨hmake.ok, hmake.backend, Y, hY, hholds, ⟨hvalues.built_of_values hs.calm.1, Block.Unplaced.hushed hY⟩,
    hvalues.fit (fun _ _ hv => hv.template) hs.fit⟩

theorem Turned.create (hs : g.Steady) (hw : w.document.Holds (F ++ (X ++ K))) (ht : target ∈ F.ids) (h : g.Waits X) :
    Turned target F K g w .create := by
  obtain ⟨hok, hb, Y, hY, hholds, hcalm, hfit⟩ := h.create hs hw
  have hholds := hholds.of_same (Same.right_comm F K Y)
  rw [append_assoc] at hholds
  have hchildren := hw.children_append hholds ht
  exact {
    backend := hb
    steady := ⟨hcalm, hfit⟩
    holds := ⟨F, Y, fun n => n, .refl, by rw [map_self]; exact hholds, .inl ⟨hY.of_made, h.brought⟩,
      .of_eq (List.Subset.refl _) hchildren⟩
    brought := fun _ => .inl
    effect := .of_eq hchildren (fun _ hc => by cases hc) (fun hc => by cases hc) }

omit [ForeignBlocks H] in
theorem Guest.Waits.not_mounted (h : g.Waits X) : g.component.core.phase ≠ .mounted := by
  obtain ⟨⟨core, slots, children⟩, brought⟩ := g
  rcases h.unplaced with ⟨r, _, _, _, _, hp, -⟩ | ⟨-, hd, -⟩
  · exact fun hm => Phase.noConfusion (hm.symm.trans hp.phase)
  · intro hm
    have hphase := hd.phase
    rw [show core.phase = .mounted from hm] at hphase
    exact hphase trivial

/-- unless it is mounted, a component is created, if need be, and then mounted -/
theorem Component.mount_eq {c : Component H} (hp : c.core.phase ≠ .mounted) (anchor : Option NodeId)
    (hr : (c.create w).result = .ok ()) :
    c.mount target anchor w = (c.create w).self.mountCreated target anchor (c.create w).world := by
  obtain ⟨core, slots, children⟩ := c
  cases hphase : core.phase with
  | mounted => exact absurd hphase hp
  | created fragment =>
    rw [Component.create, hphase, Component.mount, show (Component.mk core slots children).core.phase = _ from hphase]
    rfl
  | unmounted => exact mount_of_ok (by rw [show (mk core slots children).core.phase = _ from hphase]; exact id) _ _ hr
  | destroyed => exact mount_of_ok (by rw [show (mk core slots children).core.phase = _ from hphase]; exact id) _ _ hr

omit [ForeignBlocks H] in
theorem Component.Unplaced.created {c : Component H} (h : c.Unplaced true X) : c.state = .created := by
  obtain ⟨core, slots, children⟩ := c
  rcases h with ⟨r, _, _, _, _, hp, -⟩ | ⟨hno, -⟩
  · exact congrArg Phase.state hp.phase
  · cases hno

omit [ForeignBlocks H] in
/-- a component that has been put among the children of the target stays there -/
theorem Placed.stays {c : Component H} {M L F' : Forest Bare} {children : List NodeId}
    (h : Placed (.component c) M L X) (hphase : c.core.phase = .mounted) (hactive : c.Active)
    (hthere : (M.roots.map Node.id).Sublist children)
    (hown : ∀ id ∈ X.ids, id ∈ children → id ∈ M.roots.map Node.id) (hF : (M ++ L).ids ⊆ F'.ids) :
    (Guest.mk c (M.roots.map Node.id)).Stays F' children := by
  have htops : c.tops.map (·.node) = M.roots.map Node.id := by
    rw [← show M.roots.map Node.top = c.tops from h.tops, List.map_map]
    rfl
  exact ⟨hphase, hactive, htops, by rw [← htops]; exact (h.own c rfl).1, hthere, by rw [← htops]; exact h.taken,
    fun id hid hin => hown id (h.ids (h.detached hid)) hin, List.Subset.trans h.detached hF⟩

omit [ForeignBlocks H] in
/-- a component is put among the children of the target: `U` is what is in the document besides -/
theorem Placed.inserts {o : Outcome H (Component H)} {M L U : Forest Bare} {anchor : Option NodeId}
    (h : Placed (.component o.self) M L X) (hw : w.document.Holds (F ++ K)) (ht : target ∈ F.ids)
    (ha : ∀ a ∈ anchor, a ∈ w.document.children target)
    (hdoc : o.world.document.Holds
      (F.graft (Document.isNode target) (Forest.insertBefore (isAnchor anchor) M) ++ U)) :
    Inserts target anchor w o := by
  have htops : o.self.tops = M.roots.map Node.top := h.tops.symm
  have hids : o.self.tops.map (·.node) = M.roots.map Node.id := by
    rw [htops, List.map_map]
    rfl
  obtain ⟨ahead, behind, hbefore, hafter, hhead⟩ := hw.children_graft ht ha hdoc
  refine ⟨⟨ahead, behind, hbefore, hhead, by rw [hids]; exact hafter⟩, fun x hx => ?_, (h.own _ rfl).1, (h.own _ rfl).2⟩
  rw [htops] at hx
  obtain ⟨n, hn, rfl⟩ := List.mem_map.1 hx
  -- the node is still there
  have hF : F.ids.Nodup := (List.nodup_append.1 (ids_append F K ▸ hw.nodup)).1
  have hperm := labels_graft_perm (Document.count_isNode_of_mem hF ht) (labels_insertBefore_perm (isAnchor anchor) M)
  have hlabel : n ∈ (F.graft (Document.isNode target) (Forest.insertBefore (isAnchor anchor) M) ++ U).labels := by
    rw [labels_append]
    exact List.mem_append_left _ (hperm.mem_iff.2 (List.mem_append_right _ (roots_subset_labels M hn)))
  obtain ⟨cs, hcs⟩ := Forest.exists_subtree hlabel
  exact hdoc.tag? hcs

/-- a mount that succeeded: `Y` is what the component had in the document, apart from the forest of the target -/
theorem Turned.mounted {o : Outcome H (Component H)} {M L G Y : Forest Bare} {anchor : Option NodeId}
    (ho : g.component.call w (.mount target anchor) = o) (hr : o.result = .ok ()) (hb : o.world.backend = w.backend)
    (hs : o.self.Calm ∧ o.self.Each Core.Fit fun _ => True) (hactive : o.self.Active) (hstate : o.self.state = .mounted)
    (hw : w.document.Holds (F ++ (X ++ K))) (ht : target ∈ F.ids) (ha : ∀ a ∈ anchor, a ∈ w.document.children target)
    (hplaced : Placed (.component o.self) M L Y) (hY : ∀ id ∈ Y.ids, id ∉ F.ids) (hdoc : o.world.document.Holds
      (F.graft (Document.isNode target) (Forest.insertBefore (isAnchor anchor) M) ++ (K ++ (L ++ G)))) :
    Turned target F K g w (.mount target anchor) := by
  have hinserts := hplaced.inserts hw ht ha hdoc
  have htops : o.self.tops.map (·.node) = M.roots.map Node.id := by
    rw [show o.self.tops = M.roots.map Node.top from hplaced.tops.symm, List.map_map]
    rfl
  obtain ⟨ahead, behind, hbefore, -, hchildren⟩ := hinserts.children
  rw [htops] at hchildren
  have hinF : ∀ id ∈ w.document.children target, id ∈ F.ids := fun id hid => hw.children_subset ht hid
  have hnew : ∀ id ∈ M.roots.map Node.id, id ∉ F.ids := fun id hid =>
    hY id (hplaced.mounted_subset (List.map_subset _ (roots_subset_labels M) hid))
  have hguest : g.after target w (.mount target anchor) = ⟨o.self, M.roots.map Node.id⟩ := by
    unfold Guest.after
    rw [ho, hr, hchildren, hbefore]
    exact congrArg (Guest.mk o.self) (filter_inserted fun id hid hin => hnew id hid (hinF id (hbefore ▸ hin)))
  have hin : ∀ id ∈ o.world.document.children target, id ∈ w.document.children target ∨ id ∈ M.roots.map Node.id := by
    intro id hid
    rw [hchildren, List.mem_append, List.mem_append] at hid
    rw [hbefore, List.mem_append]
    tauto
  -- all of it is in the forest of the target from now on
  have hF : F.ids.Nodup := (List.nodup_append.1 (ids_append F _ ▸ hw.nodup)).1
  have hgrown := Document.ids_graft_insertBefore hF ht anchor M
  have hstays : (Guest.mk o.self (M.roots.map Node.id)).Stays
      (F.graft (Document.isNode target) (Forest.insertBefore (isAnchor anchor) M) ++ (L ++ G))
      (o.world.document.children target) := by
    refine hplaced.stays (Phase.eq_mounted_of hstate) hactive ?_ (fun id hid hc => ?_) ?_
    · rw [hchildren]
      exact (List.sublist_append_right _ _).trans (List.sublist_append_left _ _)
    · exact (hin id hc).resolve_left fun hold => hY id hid (hinF id hold)
    · rw [ids_append, ids_append, ids_append]
      refine List.append_subset.2 ⟨fun id hid => ?_, fun id hid => ?_⟩
      · exact List.mem_append_left _ (hgrown.mem_iff.2 (List.mem_append_right _ hid))
      · exact List.mem_append_right _ (List.mem_append_left _ hid)
  refine { backend := by rw [ho]; exact hb, steady := by rw [hguest]; exact ⟨hs.1, hs.2⟩,
           holds := ⟨_, nil, fun n => n, .refl, ?document, .inr ⟨rfl, by rw [ho, hguest]; exact hstays⟩, ?spares⟩,
           brought := fun id hid => ?brought, effect := ?effect }
  case document =>
    rw [ho, map_self]
    refine hdoc.of_same (Same.trans ?_ (Same.append (Same.refl (F.graft _ _ ++ (L ++ G))) (Same.refl K)))
    simp only [Same, trees_append, ← Multiset.coe_eq_coe, ← Multiset.coe_add]
    abel
  case spares =>
    refine ⟨fun id hid => ?_, fun id hid => ?_, fun ids hids _ => ?_⟩
    · rw [ids_append]
      exact List.mem_append_left _ (hgrown.mem_iff.2 (List.mem_append_left _ hid))
    · rw [ho] at hid
      exact (hin id hid).imp_right (hnew id)
    · rw [ho, hchildren, List.append_assoc]
      rw [hbefore] at hids
      exact hids.trans (List.Sublist.append (List.Sublist.refl _) (List.sublist_append_right _ _))
  case brought =>
    rw [hguest] at hid
    exact .inr (hnew id hid)
  case effect =>
    refine ⟨fun a hc _ => ?_, (fun hc => by cases hc), fun _ hno => absurd (ho ▸ hr) (hno anchor rfl)⟩
    obtain ⟨-, rfl⟩ := Call.mount.inj hc
    rw [ho]
    exact hinserts

/-- a mount that was given up -/
theorem Turned.failed {o : Outcome H (Component H)} {Z : Forest Bare} {anchor : Option NodeId} {fault : LifecycleFault}
    (ho : g.component.call w (.mount target anchor) = o) (hr : o.result = .error fault)
    (hb : o.world.backend = w.backend) (hs : o.self.Calm ∧ o.self.Each Core.Fit fun _ => True) (hidle : o.self.Idle)
    (hw : w.document.Holds (F ++ (X ++ K))) (ht : target ∈ F.ids) (h : g.Waits X)
    (hdoc : o.world.document.Holds (Z ++ (F ++ K))) : Turned target F K g w (.mount target anchor) := by
  have hdoc := hdoc.of_same (Same.left_comm Z F K)
  have hchildren : o.world.document.children target = w.document.children target := hw.children_append hdoc ht
  rw [← append_assoc] at hdoc
  have hguest : g.after target w (.mount target anchor) = ⟨o.self, []⟩ := by
    unfold Guest.after
    rw [ho, hr]
    exact congrArg (Guest.mk o.self) h.brought
  refine { backend := by rw [ho]; exact hb, steady := by rw [hguest]; exact ⟨hs.1, hs.2⟩,
           holds := ⟨F ++ Z, nil, fun n => n, .refl, by rw [ho, map_self]; exact hdoc, .inl ?waits, ?spares⟩,
           brought := fun id hid => ?brought, effect := ?effect }
  case waits =>
    rw [hguest]
    exact ⟨Block.Idle.unplaced (b := .component o.self) hs.1.1 hidle, rfl⟩
  case spares =>
    refine .of_eq ?_ (by rw [ho]; exact hchildren)
    rw [ids_append]
    exact List.subset_append_left _ _
  case brought =>
    rw [hguest] at hid
    exact absurd hid List.not_mem_nil
  case effect =>
    refine .of_eq (by rw [ho]; exact hchildren) (fun a hc => ?_) (fun hc => by cases hc)
    obtain ⟨-, rfl⟩ := Call.mount.inj hc
    rw [ho, hr]
    exact error_ne_ok

/-- a guest that is not mounted is mounted: it is created first, if need be -/
theorem Turned.mount (hs : g.Steady) (hb : w.backend = .faithful) (hw : w.document.Holds (F ++ (X ++ K)))
    (ht : target ∈ F.ids) (h : g.Waits X) {anchor : Option NodeId} (ha : ∀ a ∈ anchor, a ∈ w.document.children target) :
    Turned target F K g w (.mount target anchor) := by
  obtain ⟨hok, hb1, Y, hY, hholds, hcalm, hfit⟩ := h.create hs hw
  have hmount : g.component.call w (.mount target anchor) = _ := Component.mount_eq h.not_mounted anchor hok
  have hfit' : (g.component.call w (.mount target anchor)).self.Each Core.Fit fun _ => True :=
    (g.component.mount_values target anchor w).fit (fun _ _ hv => hv.template) hs.fit
  generalize (g.component.create w).self = c at *
  generalize (g.component.create w).world = u at *
  have hnodup := hholds.nodup
  rw [ids_append, ids_append, List.nodup_append, List.nodup_append] at hnodup
  obtain ⟨⟨-, -, hFK⟩, -, hapart⟩ := hnodup
  have hFY : ∀ id ∈ Y.ids, id ∉ F.ids := fun id hid hin => hapart _ (List.mem_append_left _ hin) _ hid rfl
  have hplacing := Block.Unplaced.places (b := .component c) hY hcalm hfit target anchor u (F ++ K) (hb1.trans hb)
    hholds (by rw [ids_append]; exact List.mem_append_left _ ht)
    fun a haa hin => hFY a hin (hw.children_subset ht (ha a haa))
  have hactive : c.Active := Block.Unplaced.active (b := .component c) hY
  have hmounting := hactive.mounting target anchor u
  rw [Block.mountCreated, ← hmount] at hplacing
  rw [← hmount] at hmounting
  have hbackend := hplacing.backend.trans hb1
  rcases hplacing.outcome with ⟨hr, M, L, G, hplaced, hdoc⟩ | ⟨⟨fault, hr⟩, Z, hdoc⟩
  · obtain ⟨hactive', hstate⟩ := hmounting.ok hr
    rw [graft_append, graft_of_none (Document.isNode_of_not_mem fun hin => hFK _ ht _ hin rfl), append_assoc] at hdoc
    exact .mounted rfl hr hbackend ⟨hplacing.calm, hfit'⟩ hactive' hstate hw ht ha hplaced hFY hdoc
  · have hidle := (hmounting.created (Component.Unplaced.created hY) (by
      rw [show (g.component.call w (.mount target anchor)).result = _ from hr]
      exact error_ne_ok)).idle
    exact .failed rfl hr hbackend ⟨hplacing.calm, hfit'⟩ hidle hw ht h hdoc

/-- destroying an active component leaves it as steady as it was -/
theorem Guest.Steady.destroy (hs : g.Steady) (ha : g.component.Active) (target : NodeId) (detaching : Bool)
    (w : World H) :
    (g.after target w (.destroy detaching)).Steady ∧ (g.after target w (.destroy detaching)).Waits nil := by
  have hvalues := g.component.destroy_values detaching w
  have hbuilt := hvalues.built_of_values hs.calm.1
  have hwaits := Block.Idle.unplaced (b := .component (g.component.destroy detaching w).self) hbuilt
    (ha.destroy detaching w)
  exact ⟨⟨⟨hbuilt, hwaits.hushed⟩, hvalues.fit (fun _ _ hv => hv.template) hs.fit⟩, hwaits, rfl⟩

/-- a guest that is not mounted is destroyed, if it was created -/
theorem Turned.destroy_waits (hs : g.Steady) (hw : w.document.Holds (F ++ (X ++ K))) (ht : target ∈ F.ids)
    (h : g.Waits X) (detaching : Bool) : Turned target F K g w (.destroy detaching) := by
  by_cases hp : g.component.core.phase.Active
  · have ha : g.component.Active := by
      obtain ⟨⟨core, slots, children⟩, brought⟩ := g
      rcases h.unplaced with hmade | ⟨-, hd, -⟩
      · exact Block.Unplaced.active (b := .component (.mk core slots children)) (Or.inl hmade)
      · exact absurd hp hd.phase
    obtain ⟨hsteady, hwaits⟩ := hs.destroy ha target detaching w
    have hfrees := hs.calm.destroy_frees detaching w
    have hdetached : g.component.detached ⊆ X.ids := Block.Unplaced.detached (b := .component g.component) h.unplaced
    have hnodup := hw.nodup
    rw [ids_append, ids_append, List.nodup_append, List.nodup_append] at hnodup
    obtain ⟨-, ⟨-, -, hXK⟩, hFX⟩ := hnodup
    obtain ⟨X', -, hdoc⟩ := hfrees.document.holds X (F ++ K) (hw.of_same (Same.left_comm F X K)) (fun id hid hin => by
      have hid : id ∈ X.ids := by
        cases detaching
        · exact absurd hid List.not_mem_nil
        · exact hdetached hid
      rw [ids_append] at hin
      rcases List.mem_append.1 hin with hin | hin
      · exact hFX _ hin _ (List.mem_append_left _ hid) rfl
      · exact hXK _ hid _ hin rfl)
    have hdoc := hdoc.of_same (Same.left_comm X' F K)
    have hchildren := hw.children_append hdoc ht
    rw [← append_assoc] at hdoc
    exact {
      backend := hfrees.backend
      steady := hsteady
      holds := ⟨F ++ X', nil, fun n => n, .refl, by rw [map_self]; exact hdoc, .inl hwaits,
        .of_eq (by rw [ids_append]; exact List.subset_append_left _ _) hchildren⟩
      brought := fun _ hid => absurd hid List.not_mem_nil
      effect := .of_eq hchildren (fun _ hc => by cases hc) fun _ => h.brought }
  · have hsame : (g.component.destroy detaching w).self = g.component ∧
        (g.component.destroy detaching w).world = w := by
      obtain ⟨⟨core, slots, children⟩, brought⟩ := g
      rw [Component.destroy]
      split
      · exact ⟨rfl, rfl⟩
      · exact ⟨rfl, rfl⟩
      · next he => exact absurd (show core.phase.Active by rw [he]; trivial) hp
      · next he => exact absurd (show core.phase.Active by rw [he]; trivial) hp
    refine .of_same hs hw (.inl h) ?_ hsame.2 (fun _ hc => by cases hc) fun _ => h.brought
    exact (congrArg (Guest.mk · []) hsame.1).trans (congrArg (Guest.mk g.component) h.brought.symm)

/-- a guest that is mounted is destroyed -/
theorem Turned.destroy_stays (hs : g.Steady) (hw : w.document.Holds (F ++ K))
    (h : g.Stays F (w.document.children target)) (detaching : Bool) :
    Turned target F K g w (.destroy detaching) := by
  obtain ⟨hsteady, hwaits⟩ := hs.destroy h.active target detaching w
  have hfrees := hs.calm.destroy_frees detaching w
  obtain ⟨-, -, hFK⟩ := List.nodup_append.1 (ids_append F K ▸ hw.nodup)
  obtain ⟨F', hperm, hdoc⟩ := hfrees.document.holds F K hw (fun id hid hin => by
    cases detaching
    · exact absurd hid List.not_mem_nil
    · exact hFK _ (h.kept hid) _ hin rfl)
  have hchildren : (g.component.destroy detaching w).world.document.children target =
      (w.document.children target).filter (· ∉ if detaching then g.brought else []) := by
    rw [hfrees.document.children hw.valid target]
    refine List.filter_congr fun id hid => ?_
    cases detaching
    · rfl
    · exact decide_eq_decide.2 (not_congr ⟨fun hin => h.own id hin hid, fun hin => h.taken hin⟩)
  have hsub : (g.component.destroy detaching w).world.document.children target ⊆ w.document.children target := by
    rw [hchildren]
    exact fun id => List.mem_of_mem_filter
  have hspares : Spares F F' g.brought (w.document.children target)
      ((g.component.destroy detaching w).world.document.children target) := by
    refine ⟨fun id hid => hperm.mem_iff.2 hid, fun id hid => .inl (hsub hid), fun ids hids hno => ?_⟩
    have hsame : ids.filter (· ∉ if detaching then g.brought else []) = ids := List.filter_eq_self.2 fun id hid => by
      cases detaching
      · simp
      · exact decide_eq_true (hno id hid)
    rw [hchildren, ← hsame]
    exact hids.filter _
  refine { backend := hfrees.backend, steady := hsteady,
           holds := ⟨F', nil, fun n => n, .refl, by rw [map_self]; exact hdoc, .inl hwaits, hspares⟩,
           brought := fun _ hid => absurd hid List.not_mem_nil, effect := ?effect }
  case effect =>
    refine ⟨(fun _ hc => by cases hc), fun hc => ?_, fun hc _ => ?_⟩
    · obtain rfl := Call.destroy.inj hc
      exact ⟨h.present, hchildren⟩
    · cases detaching
      · exact hchildren.trans (List.filter_eq_self.2 fun _ _ => by simp)
      · exact absurd rfl hc

/-- a component that is mounted is neither created nor mounted again -/
theorem Component.refuses {c : Component H} (hp : c.core.phase = .mounted) (target : NodeId) (anchor : Option NodeId)
    (w : World H) :
    c.create w = .fail .alreadyMounted c w ∧ c.mount target anchor w = .fail .alreadyMounted c w := by
  obtain ⟨core, slots, children⟩ := c
  have hphase : core.phase = .mounted := hp
  rw [create, mount, hphase, hp]
  exact ⟨rfl, rfl⟩

/-- **A turn.** -/
theorem Guest.turn (hs : g.Steady) (hb : w.backend = .faithful) (hw : w.document.Holds (F ++ (X ++ K)))
    (ht : target ∈ F.ids) (hk : g.Keeps F X (w.document.children target))
    (hc : call.Into target (w.document.children target)) : Turned target F K g w call := by
  cases call with
  | create =>
    rcases hk with hwaits | ⟨rfl, hstays⟩
    · exact .create hs hw ht hwaits
    · obtain ⟨hcreate, -⟩ := Component.refuses hstays.phase target none w
      refine .of_same hs hw (.inr ⟨rfl, hstays⟩) ?_ (congrArg Outcome.world hcreate) (fun _ hc => by cases hc)
        (fun hc => by cases hc)
      exact congrArg (Guest.mk · g.brought) (congrArg Outcome.self hcreate)
  | mount t anchor =>
    obtain ⟨rfl, ha⟩ := hc
    rcases hk with hwaits | ⟨rfl, hstays⟩
    · exact .mount hs hb hw ht hwaits ha
    · obtain ⟨-, hmount⟩ := Component.refuses hstays.phase t anchor w
      have hmount : g.component.call w (.mount t anchor) = _ := hmount
      refine .of_same hs hw (.inr ⟨rfl, hstays⟩) ?_ (congrArg Outcome.world hmount) (fun a hc => ?_)
        (fun hc => by cases hc)
      · unfold Guest.after
        rw [hmount]
        rfl
      · obtain ⟨-, rfl⟩ := Call.mount.inj hc
        rw [hmount]
        exact error_ne_ok
  | destroy detaching =>
    rcases hk with hwaits | ⟨rfl, hstays⟩
    · exact .destroy_waits hs hw ht hwaits detaching
    · exact .destroy_stays hs hw hstays detaching
  | _ => exact .gives hs hw hk trivial

end

end LiveMarkup
