/-
Taking over a server rendering before an anchor.

A component that hydrates before an anchor takes out as many siblings before it as its own rendering has top-level nodes.
Which nodes a server has put there is not known to it: it counts the nodes of the rendering with its own props.

- `detached_siblings`: siblings that are taken out leave all others, with their trees, where they are;
- `Component.start_hydrated`: what is before the anchor afterwards, for every template without stems and for any props on
  both sides; these are the host's nodes exactly if both renderings have the same number of top-level nodes, or there are
  no nodes of the host and the component's rendering has more.
-/
import LiveMarkup.Proofs.Component.Start
import LiveMarkup.Proofs.Document.Relink

namespace LiveMarkup

open Markup Marker Forest

/-! ## Taking siblings out -/

namespace Document

variable {L : Type} {d d' d'' : Document L} {p a : NodeId}

/-- a node in which none of the moved nodes was a child keeps its tree -/
theorem Shifts.treeOf_eq {moved : List NodeId} (h : Shifts moved none d d') (hv : d.Valid) (hv' : d'.Valid) {id : NodeId}
    (hout : ∀ c ∈ moved, ∀ q, d.parent? c = some q → d.contains id q = false) : d'.treeOf id = d.treeOf id := by
  refine treeOf_congr hv hv' h.node fun x hx => ?_
  rw [h.leaves x (Option.some_ne_none x).symm]
  refine List.filter_eq_self.2 fun c hc => decide_eq_true fun hmoved => ?_
  rw [hout c hmoved x ((mem_children_iff hv).1 hc)] at hx
  cases hx

theorem Shifts.trans_none {xs ys : List NodeId} (h : Shifts xs none d d') (h' : Shifts ys none d' d'') :
    Shifts (xs ++ ys) none d d'' where
  node id := (h'.node id).trans (h.node id)
  goes c hc := by
    by_cases hy : c ∈ ys
    · exact h'.goes c hy
    · rw [h'.stays c hy]
      exact h.goes c ((List.mem_append.1 hc).resolve_right hy)
  stays c hc := by
    rw [List.mem_append, not_or] at hc
    exact (h'.stays c hc.2).trans (h.stays c hc.1)
  leaves q hq := by
    rw [h'.leaves q hq, h.leaves q hq, List.filter_filter]
    refine List.filter_congr fun c _ => ?_
    rw [← Bool.decide_and, decide_eq_decide, List.mem_append, not_or, and_comm]
  joins q hq := absurd hq (Option.some_ne_none q).symm

theorem shifts_detachAll (hv : d.Valid) (ids : List NodeId) :
    (ids.foldl detach d).Valid ∧ Shifts ids none d (ids.foldl detach d) := by
  induction ids generalizing d with
  | nil => exact ⟨hv, Shifts.refl none d⟩
  | cons id ids ih =>
    obtain ⟨hv', h⟩ := ih (valid_detach hv id)
    exact ⟨hv', (relinks_detach hv id).toShifts.trans_none h⟩

/-- siblings that are taken out leave all others, with their trees, where they are -/
theorem detached_siblings (hv : d.Valid) {kept taken after : List NodeId}
    (h : d.children p = kept ++ taken ++ after) :
    (taken.foldl detach d).Valid ∧ (taken.foldl detach d).children p = kept ++ after ∧
      ∀ id ∈ d.children p, (taken.foldl detach d).treeOf id = d.treeOf id := by
  obtain ⟨hv', hshifts⟩ := shifts_detachAll hv taken
  have hnodup : (kept ++ taken ++ after).Nodup := h ▸ Holds.nodup_children hv p
  refine ⟨hv', ?_, fun id hid => ?_⟩
  · rw [hshifts.leaves p (Option.some_ne_none p).symm, h, List.filter_append, List.filter_append]
    obtain ⟨hkt, -, hdisjoint⟩ := List.nodup_append.1 hnodup
    have hnone : taken.filter (· ∉ taken) = [] := List.filter_eq_nil_iff.2 fun c hc hno => of_decide_eq_true hno hc
    have hkept : kept.filter (· ∉ taken) = kept := List.filter_eq_self.2 fun c hc =>
      decide_eq_true fun ht => (List.nodup_append.1 hkt).2.2 c hc c ht rfl
    have hafter : after.filter (· ∉ taken) = after := List.filter_eq_self.2 fun c hc =>
      decide_eq_true fun ht => hdisjoint c (List.mem_append_right kept ht) c hc rfl
    rw [hkept, hnone, hafter, List.append_nil]
  · -- what is taken out is a child of `p`, which is not below its own child
    refine hshifts.treeOf_eq hv hv' fun c hc q hq => ?_
    have hcp : d.parent? c = some p := (mem_children_iff hv).1 (by
      rw [h]
      exact List.mem_append_left after (List.mem_append_right kept hc))
    obtain rfl : p = q := Option.some_inj.1 (hcp.symm.trans hq)
    exact not_contains_of_parent? hv ((mem_children_iff hv).1 hid)

theorem Holds.treeOf_bare {f : Forest Bare} (h : d.Holds f) {n : Bare} {cs : Forest Bare} (hs : (n, cs) ∈ f.subtrees) :
    (d.treeOf n.id).bare = tree n cs := by
  obtain ⟨m, ms, hm, rfl, rfl⟩ := h.find?_some hs
  rw [treeOf, hm]
  rfl

theorem Holds.toMarkup_roots {f : Forest Bare} (h : d.Holds f) {x : Forest Bare} (hx : x.trees ⊆ f.subtrees) :
    ((x.roots.map Node.id).flatMap fun id => (d.treeOf id).toMarkup) = x.toMarkup := by
  induction x with
  | nil => rfl
  | cons n cs rest _ ih =>
    have hn : (n, cs) ∈ f.subtrees := hx List.mem_cons_self
    rw [roots, List.map_cons, List.flatMap_cons, ih fun t ht => hx (List.mem_cons_of_mem _ ht), ← toMarkup_bare,
      h.treeOf_bare hn, ← toMarkup_append]
    rfl

end Document

/-! ## What is taken out -/

variable {H : Host}

/-- the number of nodes that the template shows next to each other at the top level -/
def Template.span (t : Template (Action H)) (p : Props) : Nat := (read (t.render p SlotMarkup.none)).length

/-- a component that is to take the place of the nodes before an anchor; `hosts` are all nodes before it -/
structure Options.Hydrates (options : Options H) (w : World H) (target anchor : NodeId) (hosts after : List NodeId) :
    Prop where
  mounted : options.target = some target
  before : options.anchor = some anchor
  hydrate : options.hydrate = true
  slots : options.slots = []
  children : w.document.children target = hosts ++ anchor :: after

section

variable {t : Template (Action H)} {options : Options H} {target a : NodeId} {hosts after : List NodeId} {w : World H}

theorem idxOf?_append_cons (h : a ∉ hosts) : (hosts ++ a :: after).idxOf? a = some hosts.length := by
  induction hosts with
  | nil => simp [List.idxOf?_cons]
  | cons c hosts ih =>
    rw [List.mem_cons, not_or] at h
    obtain ⟨hne, hnot⟩ := h
    rw [List.cons_append, List.idxOf?_cons, if_neg (by simpa using Ne.symm hne), ih hnot]
    rfl

theorem serverRendered_before {p : Props} (hv : w.document.Valid)
    (h : w.document.children target = hosts ++ a :: after) :
    serverRendered t p w target (some a) = hosts.drop (hosts.length - t.span p) := by
  have ha : a ∉ hosts := fun hin =>
    (List.nodup_append.1 (h ▸ Document.Holds.nodup_children hv target)).2.2 a hin a List.mem_cons_self rfl
  unfold serverRendered
  dsimp only
  rw [h, idxOf?_append_cons ha]
  dsimp only
  rw [List.take_left]
  rfl

theorem Options.Hydrates.fit (ho : options.Hydrates w target a hosts after) (hv : w.document.Valid) :
    options.Fit w target := by
  have hmem : a ∈ w.document.children target := ho.children ▸ List.mem_append_right hosts List.mem_cons_self
  have hids := Document.mem_ids_of_parent? hv ((Document.mem_children_iff hv).1 hmem)
  have hfind : ∀ id ∈ w.document.forest.ids, w.document.find? id ≠ none := by
    intro id hid hnone
    obtain ⟨n, hn⟩ := hv.exists_node hid
    rw [Document.node?, hnone] at hn
    cases hn
  refine ⟨ho.mounted, hfind target hids.1, fun x hx => ?_, ho.slots⟩
  obtain rfl : a = x := Option.some_inj.1 (ho.before.symm.trans hx)
  exact hfind a hids.2

/-- hydrating takes out what is counted as the rendering, and nothing else -/
theorem World.cleared_hydrating (hh : options.hydrate = true) : (w.cleared t options target).document =
    (serverRendered t options.props w target options.anchor).foldl Document.detach w.document := by
  have halike := (ofTemplate_stands t options.props w).2.2.2
  have hsame : serverRendered t options.props (Component.ofTemplate t options.props w).2 target options.anchor =
      serverRendered t options.props w target options.anchor := by
    unfold serverRendered
    rw [halike.document]
  rw [World.cleared, if_pos hh, hsame, ← halike.document]
  generalize (Component.ofTemplate t options.props w).2 = u
  generalize serverRendered t options.props w target options.anchor = ids
  induction ids generalizing u with
  | nil => rfl
  | cons id ids ih => exact ih _

theorem World.cleared_document (ho : options.Hydrates w target a hosts after) (hv : w.document.Valid) :
    (w.cleared t options target).document =
      (hosts.drop (hosts.length - t.span options.props)).foldl Document.detach w.document := by
  rw [World.cleared_hydrating ho.hydrate, ho.before, serverRendered_before hv ho.children]

/-- what is put before an anchor in a document stands right before it, and the anchor's siblings keep their trees -/
theorem MountedAs.before {P : Component H → Forest Bare → Prop} {c : Component H} {X F : Forest Bare} {u : World H}
    {o : Outcome H (Component H)} (h : MountedAs P c X F target (some a) u o)
    (hs : c.core.template.Everywhere Template.Sound) (hF : w.document.Holds F) (hin : target ∈ F.ids)
    (hchildren : w.document.children target = hosts ++ a :: after) :
    ∃ M, P o.self M ∧ o.world.document.children target = hosts ++ M.roots.map Node.id ++ a :: after ∧
      (∀ id ∈ M.ids, id ∉ F.ids) ∧
      ((M.roots.map Node.id).flatMap fun id => (o.world.document.treeOf id).toMarkup) = M.toMarkup ∧
      ∀ id ∈ w.document.children target, (o.world.document.treeOf id).bare = (w.document.treeOf id).bare := by
  obtain ⟨M, G, hM, -, hstands⟩ := h.stands
  have hv : w.document.Valid := hF.valid
  have hmem : a ∈ w.document.children target := hchildren ▸ List.mem_append_right hosts List.mem_cons_self
  have hF' : w.document.Holds (F ++ nil) := (append_nil F).symm ▸ hF
  obtain ⟨front, back, hsplit, hnow, hback⟩ := hF'.children_graft hin (fun b hb => (Option.mem_some.1 hb) ▸ hmem) hM
  -- the anchor is at one place among its siblings
  obtain ⟨rfl, rfl⟩ : front = hosts ∧ back = a :: after := by
    obtain ⟨rest, rfl⟩ := List.head?_eq_some_iff.1 hback
    have hnodup := hsplit ▸ Document.Holds.nodup_children hv target
    have hfront : a ∉ front := fun h => (List.nodup_append.1 hnodup).2.2 a h a List.mem_cons_self rfl
    have hrest : a ∉ rest := (List.nodup_cons.1 (List.nodup_append.1 hnodup).2.1).1
    obtain ⟨hf, -, hr⟩ := (List.append_cons_inj_of_notMem hfront hrest).1 (hsplit.symm.trans hchildren)
    exact ⟨hf, congrArg (a :: ·) hr⟩
  obtain ⟨m, ms, hsub, rfl⟩ := Document.exists_subtree_of_id hin
  have hafter := subtree_graft_of_pick (Document.count_of_subtree hF hsub)
    (g := Forest.insertBefore (isAnchor (some a)) M) hsub (Document.isNode_iff.2 rfl)
  have hafter' := subtrees_append _ G ▸ List.mem_append_left G.subtrees hafter
  refine ⟨M, hstands hs, hnow, fun id hid hold => ?_, hM.toMarkup_roots fun t ht => ?_, fun id hid => ?_⟩
  · have hnodup := hM.nodup
    rw [ids_append] at hnodup
    have hold' := (Document.ids_graft_insertBefore hF.nodup hin (some a) M).nodup_iff.1 (List.nodup_append.1 hnodup).1
    exact (List.nodup_append.1 hold').2.2 id hold id hid rfl
  · obtain ⟨pre, post, hpost, -⟩ := insertBefore_split (isAnchor (some a)) M ms
    refine subtrees_trans hafter' (trees_subset_subtrees _ ?_)
    rw [hpost, trees_append, trees_append]
    exact List.mem_append_right _ (List.mem_append_left _ ht)
  · rw [hF.children hsub] at hid
    obtain ⟨n, hn, rfl⟩ := List.mem_map.1 hid
    obtain ⟨ns, hns⟩ := exists_tree hn
    have hnsub : (n, ns) ∈ ms.subtrees := trees_subset_subtrees _ hns
    have hbelow : m.id ∉ ms.ids := (List.nodup_cons.1 (((subtree_sublist hsub).map Node.id).nodup hF.nodup)).1
    have hstays : (n, ns) ∈ (F.graft (Document.isNode m.id) (Forest.insertBefore (isAnchor (some a)) M)).subtrees := by
      refine subtree_graft (subtrees_trans hsub hnsub) ?_ (Document.count_isNode_of_not_mem fun h => hbelow ?_)
      · exact Document.isNode_of_not_mem hbelow n (mem_labels_of_subtree hnsub)
      · exact (List.map_subset Node.id (labels_subset_of_subtree hnsub)) h
    have hstays' := subtrees_append _ G ▸ List.mem_append_left G.subtrees hstays
    rw [hM.treeOf_bare hstays', hF.treeOf_bare (subtrees_trans hsub hnsub)]

theorem take_append_eq_iff {before rendered : List NodeId} (n : Nat) :
    (before ++ rendered).take (before.length + rendered.length - n) = before ↔
      rendered.length = n ∨ before = [] ∧ rendered.length ≤ n := by
  rw [← List.length_eq_zero_iff (l := before)]
  constructor
  · intro h
    have hlength := congrArg List.length h
    rw [List.length_take, List.length_append] at hlength
    omega
  · intro h
    have hn : before.length + rendered.length - n = before.length := by omega
    rw [hn, List.take_left]

variable [ForeignBlocks H]

/-- **Hydrating before an anchor.** For an accepted template without stems, whose actions leave the document alone, a
server rendering with any props, nodes of the host around it and any props of the component: hydrating succeeds, and as
many nodes are taken out before the anchor as the component's own rendering has at the top level. The nodes that take
their place are new and are written as that rendering; the host's nodes keep what is in them. So the host keeps all its
nodes and none of the server's are left exactly if both renderings have the same number of nodes, or the host has none
and the component's rendering has more. -/
theorem Component.start_hydrated (ha : t.Everywhere Template.Accepted) (hf : t.Everywhere Template.MarkerFree)
    (hq : t.Everywhere Template.Quiet) (hb : w.backend = .faithful) (hw : w.document.Valid)
    {before rendered : List NodeId} {p : Props} (ho : options.Hydrates w target a (before ++ rendered) after)
    (hr : rendered.map (fun id => (w.document.treeOf id).toMarkup) =
      (read (t.render p SlotMarkup.none)).map fun n => [n]) :
    ∃ c kept new, (Component.start t options w).2 = .ok c ∧
      kept = (before ++ rendered).take (before.length + t.span p - t.span options.props) ∧
      (Component.start t options w).1.document.children target = kept ++ new ++ a :: after ∧
      (∀ id ∈ new, w.document.node? id = none) ∧
      print (new.flatMap fun id => ((Component.start t options w).1.document.treeOf id).toMarkup) =
        t.render options.props SlotMarkup.none ∧
      (∀ id ∈ kept ++ a :: after,
        ((Component.start t options w).1.document.treeOf id).bare = (w.document.treeOf id).bare) ∧
      ((Component.start t options w).1.document.children target = before ++ new ++ a :: after ↔
        t.span p = t.span options.props ∨ before = [] ∧ t.span p ≤ t.span options.props) := by
  have hs : t.Everywhere Template.Sound := ha.sound hf
  have hm : t.Everywhere Template.Marked := Template.Everywhere.imp (fun _ h _ => h.marked) t ha ha
  have hfindable : t.Everywhere Template.Findable := Template.Everywhere.imp (fun _ h _ => h.findable) t hs hs
  have hlength : rendered.length = t.span p := by
    have h := congrArg List.length hr
    rwa [List.length_map, List.length_map] at h
  obtain ⟨-, htemplate, hprops, -⟩ := ofTemplate_stands t options.props w
  rcases start_cases hm hq hb hw (ho.fit hw) with ⟨c, X, F, hok, hF, hin, hmounted⟩ | ⟨-, hno⟩
  · -- what is left before the anchor when the component is mounted
    have hkept : w.document.children target = (before ++ rendered).take (before.length + t.span p - t.span options.props) ++
        (before ++ rendered).drop (before.length + t.span p - t.span options.props) ++ a :: after := by
      rw [List.take_append_drop]
      exact ho.children
    obtain ⟨-, hleft, htrees⟩ := Document.detached_siblings hw hkept
    have hcleared := World.cleared_document (t := t) ho hw
    rw [List.length_append, hlength] at hcleared
    rw [← hcleared] at hleft htrees
    rw [ho.before] at hmounted
    obtain ⟨M, hstands, hnow, hnew, hmarkup, hsame⟩ := hmounted.before
      (by rw [show (fresh t options w).core.template = t from htemplate]; exact hs) hF hin hleft
    dsimp only [Outcome.ok] at hnow hmarkup hsame
    have hct : c.core.template = t := hmounted.template.trans htemplate
    have hcp : c.props = options.props := hmounted.props.trans hprops
    have hshows : M.toMarkup = c.core.template.tree c.props := Stands.toMarkup_start hstands (hct.symm ▸ hs)
    refine ⟨c, _, M.roots.map Node.id, hok, rfl, hnow, fun id hid => ?_, ?_, fun id hid => ?_, ?_⟩
    · obtain ⟨n, hn, rfl⟩ := List.mem_map.1 hid
      have hnode := (Document.shifts_detachAll hw
        ((before ++ rendered).drop (before.length + t.span p - t.span options.props))).2.node n.id
      rw [← hnode, ← hcleared, hF.valid.node?_eq_none, ← ids_bare]
      exact fun hold => hnew n.id (mem_ids_of_mem (roots_subset_labels M hn))
        ((hF.same.labels.map Node.id).mem_iff.1 hold)
    · rw [hmarkup, hshows, hct, hcp,
        Template.render_eq_print t (Template.Everywhere.imp (fun _ h _ => h.wellFormed) t hs hs)]
    · have hchild : id ∈ w.document.children target := by
        rw [ho.children]
        rcases List.mem_append.1 hid with h | h
        · exact List.mem_append_left _ (List.mem_of_mem_take h)
        · exact List.mem_append_right _ h
      rw [hsame id (hleft ▸ hid), htrees id hchild]
    · rw [hnow, List.append_cancel_right_eq, List.append_cancel_right_eq, ← hlength]
      exact take_append_eq_iff (t.span options.props)
  · exact absurd hfindable hno

end

/-! ## A rendering that is empty -/

namespace Template

variable {A : Type}

/-- nothing but the text of a prop -/
def lone : Template A := ⟨["", ""], [.text "x"], [.element "mc-text-0" [] []]⟩

theorem lone_accepted : (lone : Template A).Everywhere Accepted := by
  refine ⟨⟨["", ""], [.name "x"], define_eq_ok (c := ⟨["", ""], [.text "x"]⟩) rfl ?_ rfl⟩, trivial⟩
  rw [skeletonSource_congr ([.text ""] : List (Placeholder Unit Unit)) rfl]
  show read (skeletonSource 0 ["", ""] _) = _
  decide +kernel

theorem lone_markerFree : (lone : Template A).Everywhere MarkerFree := by
  have hall : ∀ category ∈ Category.all, ¬ (stem category).toList <:+: lowerChars "".toList := by
    decide +kernel
  refine ⟨fun segment h category => ?_, trivial⟩
  obtain rfl : segment = "" := by
    cases h with
    | head => rfl
    | tail _ h => exact List.mem_singleton.1 h
  exact hall category (by cases category <;> decide)

theorem lone_quiet : (lone : Template (Action H)).Everywhere Template.Quiet := by
  refine ⟨fun run param h => ?_, trivial⟩
  cases h with
  | tail _ h => cases h

end Template

/-- a body with a header and a footer of the host -/
def World.lined : World Script.host :=
  { World.blank with
    document := ⟨.tree ⟨0, .element "body" [], [], 0⟩
      (.cons ⟨1, .element "header" [], [], 0⟩ .nil (.tree ⟨2, .element "footer" [], [], 0⟩ .nil)), 3⟩ }

theorem World.lined_valid : World.lined.document.Valid :=
  ⟨Same.refl _, by decide, by decide⟩

/-- hydrating in front of the footer, with a text to show -/
def Options.beforeFooter : Options Script.host :=
  { Options.inBody (Props.ofList [("x", .str "a")]) with anchor := some 2, hydrate := true }

/-- the server has written nothing for an empty text, and the component takes the header for its rendering -/
theorem Component.start_hydrated_lone : ∃ c new,
    (Component.start Template.lone Options.beforeFooter World.lined).2 = .ok c ∧
      (Component.start Template.lone Options.beforeFooter World.lined).1.document.children 0 = new ++ [2] ∧
      (Component.start Template.lone Options.beforeFooter World.lined).1.document.children 0 ≠ [1] ++ new ++ [2] := by
  have hserver : (Template.lone : Template (Action Script.host)).span ∅ = 0 := by decide +kernel
  have hclient : (Template.lone : Template (Action Script.host)).span Options.beforeFooter.props = 1 := by
    decide +kernel
  have hhydrates : Options.beforeFooter.Hydrates World.lined 0 2 ([1] ++ []) [] := ⟨rfl, rfl, rfl, rfl, rfl⟩
  obtain ⟨c, kept, new, hok, hkept, hnow, -, -, -, hiff⟩ := start_hydrated (p := ∅) Template.lone_accepted
    Template.lone_markerFree Template.lone_quiet rfl World.lined_valid hhydrates (by decide +kernel)
  rw [hserver, hclient] at hkept hiff
  obtain rfl : kept = [] := hkept
  refine ⟨c, new, hok, hnow, fun h => ?_⟩
  rcases hiff.1 h with h | ⟨h, -⟩
  · cases h
  · cases h

end LiveMarkup
