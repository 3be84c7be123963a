/-
Listeners that stay attached.

`Keeps P` says of two documents that the channels of `P` are heard where they were, by the same listeners in the same order,
and that no node on which one of them is heard has gone. It is so wherever nodes are moved, added or written into, and where
a marker is taken out that waits for it: nothing is in it, and nobody listens on markers.

- `Keeps.of_retunes`, `keeps_discard`: every change of a document;
- `Attached.keeps`, `Attached.listen`, `Attached.unlisten`: the ears of a channel, each on a node that is there;
- `Attached.perm`: they are all the listeners for the channel.
-/
import LiveMarkup.Proofs.Document.Heard
import LiveMarkup.Proofs.Document.Hollow
import Mathlib.Data.List.Perm.Basic

namespace LiveMarkup

open Forest Marker

variable {A : Type} {P Q : Nat → Prop}

namespace Document

variable {d d₁ d₂ : Document (Listener A)} {x : NodeId} {k : Nat}

/-- these channels are heard as they were, and on nodes that are still there -/
structure Keeps (P : Nat → Prop) (d d₁ : Document (Listener A)) : Prop where
  tunes : ∃ K : List Nat, (∀ k ∈ K, ¬ P k) ∧ Retunes K d d₁
  stays : ∀ x n k, P k → d.node? x = some n → n.heard k ≠ [] → d₁.node? x ≠ none

/-- nobody listens for these channels on a marker -/
def Discreet (P : Nat → Prop) (d : Document (Listener A)) : Prop :=
  ∀ x n k, P k → d.node? x = some n → n.kind.marker? ≠ none → n.heard k = []

namespace Keeps

theorem intact (h : Keeps P d d₁) : d₁.Intact := by
  obtain ⟨K, -, hr⟩ := h.tunes
  exact hr.intact

theorem fresh (h : Keeps P d d₁) : d.fresh ≤ d₁.fresh := by
  obtain ⟨K, -, hr⟩ := h.tunes
  exact hr.fresh

theorem ticketed (h : Keeps P d d₁) (hd : d.Ticketed) : d₁.Ticketed := by
  obtain ⟨K, -, hr⟩ := h.tunes
  exact hr.ticketed hd

/-- a node that was there is the element that it was, and hears what it heard -/
theorem old (h : Keeps P d d₁) (hx : x < d.fresh) {n₁ : Node (Listener A)} (hn₁ : d₁.node? x = some n₁) :
    ∃ n, d.node? x = some n ∧ n₁.kind.marker? = n.kind.marker? ∧ ∀ k, P k → n₁.heard k = n.heard k := by
  obtain ⟨K, hK, hr⟩ := h.tunes
  obtain ⟨n, hn, hsame⟩ := hr.old x hx n₁ hn₁
  exact ⟨n, hn, Kind.marker?_of_tag? hsame.tag, fun k hk => hsame.heard k fun hin => hK k hin hk⟩

theorem refl (hd : d.Intact) : Keeps P d d :=
  ⟨⟨[], List.forall_mem_nil _, .refl hd⟩, fun _ n _ _ hn _ => by rw [hn]; exact Option.some_ne_none n⟩

theorem mono (h : Keeps P d d₁) (hQ : ∀ k, Q k → P k) : Keeps Q d d₁ := by
  obtain ⟨K, hK, hr⟩ := h.tunes
  exact ⟨⟨K, fun k hk hq => hK k hk (hQ k hq), hr⟩, fun x n k hq => h.stays x n k (hQ k hq)⟩

theorem trans (h : Keeps P d d₁) (h' : Keeps P d₁ d₂) (hv : d.Valid) : Keeps P d d₂ := by
  refine ⟨?_, fun x n k hk hn hheard => ?_⟩
  · obtain ⟨K, hK, hr⟩ := h.tunes
    obtain ⟨K', hK', hr'⟩ := h'.tunes
    exact ⟨K ++ K', List.forall_mem_append.2 ⟨hK, hK'⟩,
      (hr.mono (List.subset_append_left _ _)).trans (hr'.mono (List.subset_append_right _ _))⟩
  · obtain ⟨n₁, hn₁⟩ := Option.ne_none_iff_exists'.1 (h.stays x n k hk hn hheard)
    have hx := hv.below (mem_ids_of_node? hv (by rw [hn]; exact Option.some_ne_none n))
    obtain ⟨n', hn', -, hsame⟩ := h.old hx hn₁
    obtain rfl := Option.some.inj (hn.symm.trans hn')
    exact h'.stays x n₁ k hk hn₁ (by rw [hsame k hk]; exact hheard)

/-- nodes may come, but none goes -/
theorem of_retunes {K : List Nat} (hr : Retunes K d d₁) (hK : ∀ k ∈ K, ¬ P k)
    (h : ∀ x, d.node? x ≠ none → d₁.node? x ≠ none) : Keeps P d d₁ :=
  ⟨⟨K, hK, hr⟩, fun x n _ _ hn _ => h x (by rw [hn]; exact Option.some_ne_none n)⟩

theorem of_nodes (hr : Retunes [] d d₁) (h : ∀ x, d₁.node? x = d.node? x) : Keeps P d d₁ :=
  of_retunes hr (List.forall_mem_nil _) fun x hx => by rw [h]; exact hx

theorem discreet (h : Keeps P d d₁) (hd : d.Discreet P) (hnew : ∀ x n k, d.fresh ≤ x → P k → d₁.node? x = some n →
    n.heard k = []) : d₁.Discreet P := by
  intro x n k hk hn hm
  by_cases hx : x < d.fresh
  · obtain ⟨n', hn', hsame, hheard⟩ := h.old hx hn
    rw [hheard k hk]
    exact hd x n' k hk hn' (by rw [← hsame]; exact hm)
  · exact hnew x n k (Nat.not_lt.1 hx) hk hn

end Keeps

/-- new nodes are not heard -/
theorem Keeps.silent (h : Keeps P d d₁) {x : NodeId} (hx : d.fresh ≤ x) {n : Node (Listener A)} (hn : d₁.node? x = some n)
    {k : Nat} (hk : P k) : n.heard k = [] := by
  obtain ⟨K, hK, hr⟩ := h.tunes
  exact hr.new x n hx hn k fun hin => hK k hin hk

/-! ## Every change -/

section

variable (hd : d.Intact)
include hd

theorem keeps_detach (x : NodeId) : Keeps P d (d.detach x) := .of_nodes (retunes_detach hd x) (node?_detach hd.valid x)

theorem keeps_insertBefore (p c : NodeId) (anchor : Option NodeId) : Keeps P d (d.insertBefore p c anchor) :=
  .of_nodes (retunes_insertBefore hd p c anchor) (relinks_insertBefore hd p c anchor).node

theorem keeps_replaceWith (old new : NodeId) : Keeps P d (d.replaceWith old new) := by
  unfold replaceWith
  cases d.parent? old with
  | none => exact .refl hd
  | some p => exact (keeps_insertBefore hd p new (some old)).trans (keeps_detach (hd.insertBefore p new (some old)) old) hd.valid

theorem keeps_add (kind : Kind) : Keeps P d (d.add kind).1 := by
  refine .of_retunes (retunes_add hd kind) (List.forall_mem_nil _) fun x hx => ?_
  rw [node?_add hd.valid, if_neg (Nat.ne_of_lt (hd.valid.below (mem_ids_of_node? hd.valid hx)))]
  exact hx

theorem keeps_addFragment (nodes : List Markup.Node) : Keeps P d (d.addFragment nodes).1 := by
  refine .of_retunes (retunes_addFragment hd nodes) (List.forall_mem_nil _) fun x hx => ?_
  rw [(grows_addFragment hd.valid nodes).1.node x (hd.valid.below (mem_ids_of_node? hd.valid hx))]
  exact hx

/-- what is written, if it is no listener for one of these channels -/
theorem Retunes.keeps_perform {writing : Writing (Listener A)} {K : List Nat} (hr : Retunes K d (writing.perform x d))
    (hK : ∀ k ∈ K, ¬ P k) : Keeps P d (writing.perform x d) := by
  refine .of_retunes hr hK fun y hy => ?_
  rw [(rewrites_perform hd writing x).2.node]
  simpa using hy

end

/-! ## Markers that wait to be taken out -/

/-- a marker that waits to be taken out: it is hollow, and what it is in is not shut -/
structure Pending (d : Document (Listener A)) (x : NodeId) : Prop where
  known : x < d.fresh
  hollow : d.Hollow x
  marker : ∀ n, d.node? x = some n → n.kind.marker? ≠ none
  parent : ∀ p, d.parent? x = some p → ¬ d.Shut p

/-- it goes on waiting while nothing is put into markers -/
theorem Pending.step (h : d.Pending x) (hf : d.FillsNone d₁) (hk : Keeps P d d₁) (hv : d.Valid) : d₁.Pending x := by
  refine ⟨Nat.lt_of_lt_of_le h.known hk.fresh, hf.hollow x h.hollow, fun n₁ hn₁ => ?_, fun p hp hm => ?_⟩
  · obtain ⟨n, hn, hsame, -⟩ := hk.old h.known hn₁
    rw [hsame]
    exact h.marker n hn
  · have hp' := hf.enters x p hp hm
    exact h.parent p hp' (hf.shut (hv.below (mem_ids_of_parent? hv hp').1) hm)

/-- when it is taken out, everything else is as it was: nothing is below it -/
theorem Pending.rest (h : d.Pending x) (hd : d.Intact) (held : NodeId → Bool) {y : NodeId} (hy : y ≠ x) :
    (d.discard held x).node? y = d.node? y ∧ (d.discard held x).parent? y = d.parent? y := by
  cases hfind : d.find? x with
  | none =>
    rw [discard_of_unknown hd.valid hfind]
    exact ⟨rfl, rfl⟩
  | some t =>
    obtain ⟨m, cs⟩ := t
    have hnode : d.node? x = some m := by rw [node?, hfind]; rfl
    have hnil : cs = nil := by
      have hc := (h.hollow x m (contains_self d x) hnode (.inl (h.marker m hnode))).1
      rw [children, childForest, hfind] at hc
      cases cs with
      | nil => rfl
      | cons a as rest => cases hc
    subst hnil
    have hout : y ∉ (tree m nil).ids := by
      rw [ids_tree, (find?_subtree hd.valid hfind).1]
      exact fun hin => hy (List.mem_singleton.1 hin)
    obtain ⟨hsame, hparent⟩ := discard_rest hd.valid hfind held hout
    exact ⟨(node?_congr hsame).trans (node?_detach hd.valid x y), hparent.trans (parent?_detach hd.valid hy)⟩

/-- and nobody hears less -/
theorem keeps_discard (hd : d.Intact) (hq : d.Discreet P) (h : d.Pending x) (held : NodeId → Bool) :
    Keeps P d (d.discard held x) := by
  refine ⟨⟨[], List.forall_mem_nil _, retunes_discard hd held x⟩, fun y n k hk hn hheard => ?_⟩
  have hy : y ≠ x := by
    rintro rfl
    exact hheard (hq y n k hk hn (h.marker n hn))
  rw [(h.rest hd held hy).1, hn]
  exact Option.some_ne_none n

/-! ## Ears on nodes that are there -/

/-- these ears are all that hear a channel, each on a node of the document -/
structure Attached (channel : Nat) (ears : List Ear) (d : Document (Listener A)) : Prop extends Hears channel ears d where
  present : ∀ ear ∈ ears, d.node? ear.node ≠ none

namespace Attached

variable {channel : Nat} {ear : Ear} {ears : List Ear}

theorem none (h : d.Hears channel []) : d.Attached channel [] := ⟨h, List.forall_mem_nil _⟩

theorem heard_ne_nil (h : d.Attached channel ears) (hin : ear ∈ ears) {n : Node (Listener A)}
    (hn : d.node? ear.node = some n) : n.heard channel ≠ [] := by
  rw [h.heard _ n hn]
  have hmem : ear ∈ earsAt ear.node ears := List.mem_filter.2 ⟨hin, beq_self_eq_true _⟩
  exact fun hnone => List.ne_nil_of_mem hmem (List.map_eq_nil_iff.1 hnone)

theorem keeps (h : d.Attached channel ears) (hk : Keeps P d d₁) (hc : P channel) : d₁.Attached channel ears := by
  obtain ⟨K, hK, hr⟩ := hk.tunes
  refine ⟨h.toHears.retunes hr fun hin => hK _ hin hc, fun ear hin => ?_⟩
  obtain ⟨n, hn⟩ := Option.ne_none_iff_exists'.1 (h.present ear hin)
  exact hk.stays _ n channel hc hn (h.heard_ne_nil hin hn)

theorem listen (h : d.Attached channel ears) (hd : d.Intact) (hx : d.node? x ≠ Option.none) (event topic : String) :
    (d.listen x event (.channel channel topic)).1.Attached channel
      (ears ++ [⟨x, (d.listen x event (.channel channel topic)).2, event, topic⟩]) := by
  refine ⟨h.toHears.listen hd (hd.valid.below (mem_ids_of_node? hd.valid hx)) event topic, fun ear hin => ?_⟩
  have hnode : ∀ y, d.node? y ≠ Option.none → (d.listen x event (.channel channel topic)).1.node? y ≠ Option.none := by
    intro y hy
    have hr := (rewrites_perform hd (.listen event (.channel channel topic)) x).2.node y
    rw [show (d.listen x event (.channel channel topic)).1 =
      (Writing.listen event (.channel channel topic)).perform x d from rfl, hr]
    simpa using hy
  rcases List.mem_append.1 hin with hin | hin
  · exact hnode _ (h.present ear hin)
  · rw [List.mem_singleton.1 hin]
    exact hnode x hx

theorem unlisten (h : d.Attached channel (ear :: ears)) (hd : d.Intact) (ht : d.Ticketed) :
    (d.unlisten ear.node ear.ticket).Attached channel ears ∧
      Retunes [channel] d (d.unlisten ear.node ear.ticket) := by
  obtain ⟨hless, hr⟩ := h.toHears.unlisten hd ht
  refine ⟨⟨hless, fun e he => ?_⟩, hr⟩
  have hnode := (rewrites_perform hd (.unlisten ear.ticket) ear.node).2.node e.node
  rw [show d.unlisten ear.node ear.ticket = (Writing.unlisten ear.ticket).perform ear.node d from rfl, hnode]
  simpa using h.present e (List.mem_cons_of_mem _ he)

end Attached

/-- the listeners that tell a channel, node by node -/
def listenersOf (d : Document (Listener A)) (channel : Nat) : List (Listening (Listener A)) :=
  d.forest.labels.flatMap (·.heard channel)

/-- ears on distinct nodes, taken node by node -/
theorem flatMap_earsAt {xs : List NodeId} (hxs : xs.Nodup) {ears : List Ear} (h : ∀ ear ∈ ears, ear.node ∈ xs) :
    (xs.flatMap (earsAt · ears)).Perm ears := by
  induction ears with
  | nil =>
    have hnil : xs.flatMap (earsAt · []) = [] := List.flatMap_eq_nil_iff.2 fun _ _ => rfl
    rw [hnil]
  | cons ear ears ih =>
    rw [List.forall_mem_cons] at h
    have hsplit : ∀ x, earsAt x (ear :: ears) = earsAt x [ear] ++ earsAt x ears := fun x => earsAt_append x [ear] ears
    have hone : xs.flatMap (earsAt · [ear]) = [ear] := by
      obtain ⟨before, after, rfl⟩ := List.append_of_mem h.1
      obtain ⟨-, hafter, hapart⟩ := List.nodup_append.1 hxs
      have hnone : ∀ ys : List NodeId, ear.node ∉ ys → ys.flatMap (earsAt · [ear]) = [] := fun ys hys =>
        List.flatMap_eq_nil_iff.2 fun y hy => earsAt_cons_of_ne (fun he => hys (he ▸ hy)) []
      rw [List.flatMap_append, List.flatMap_cons, hnone before fun hin => hapart _ hin _ List.mem_cons_self rfl,
        hnone after (List.nodup_cons.1 hafter).1, earsAt_cons_self]
      rfl
    rw [show (fun x => earsAt x (ear :: ears)) = fun x => earsAt x [ear] ++ earsAt x ears from funext hsplit]
    refine (List.flatMap_append_perm xs _ _).symm.trans ?_
    rw [hone]
    exact (ih h.2).cons ear

/-- **Attached listeners.** The ears of a channel are all the listeners that tell it. -/
theorem Attached.perm {channel : Nat} {ears : List Ear} (h : d.Attached channel ears) (hv : d.Valid) :
    (d.listenersOf channel).Perm (ears.map (Ear.listening channel)) := by
  have hlabels : d.listenersOf channel = (d.forest.ids.flatMap (earsAt · ears)).map (Ear.listening channel) := by
    rw [listenersOf, ids, List.flatMap_map, List.map_flatMap]
    refine List.flatMap_congr fun n hn => ?_
    exact h.heard n.id n (node?_of_mem hv hn)
  rw [hlabels]
  exact (flatMap_earsAt hv.nodup fun ear hin => mem_ids_of_node? hv (h.present ear hin)).map _

end Document

end LiveMarkup
