/-
Who is told of events.

A listener of a component tells the component's channel. `Retunes` says of two documents that every node that is left is
the element that it was, and that every channel, but for some, is heard where it was, by the same listeners in the same
order. Moving nodes, taking them out, adding new ones and writing into them retunes nothing.

An `Ear` is a listener that somebody has attached for a channel. Ears are all that hear a channel if they are all the
listeners for it that are left in the document, in this order on each node.

- `retunes_insertBefore`, `retunes_discard`, `retunes_perform` and others: every change of a document;
- `Hears.retunes`: other channels are heard as before;
- `Hears.listen`, `Hears.unlisten`: one ear more, one less.
-/
import LiveMarkup.World
import LiveMarkup.Proofs.Document.Writes

namespace LiveMarkup

open Forest

variable {A : Type}

def Listener.channel? : Listener A → Option Nat
  | handler _ => none
  | channel id _ => some id

namespace Node

/-- the listeners of a node that tell a channel, in the order in which they were attached -/
def heard (n : Node (Listener A)) (channel : Nat) : List (Listening (Listener A)) :=
  n.listeners.filter (·.listener.channel? == some channel)

/-- the listeners of a node have tickets of their own, and the next one gets another -/
structure Ticketed (n : Node (Listener A)) : Prop where
  nodup : (n.listeners.map (·.ticket)).Nodup
  below : ∀ l ∈ n.listeners, l.ticket < n.nextTicket

/-- a node is the element that it was, and tells all channels but these what it told them -/
structure Retuned (channels : List Nat) (n n₁ : Node (Listener A)) : Prop where
  tag : n₁.kind.tag? = n.kind.tag?
  heard : ∀ channel ∉ channels, n₁.heard channel = n.heard channel

section

variable {n n₁ n₂ : Node (Listener A)} {K K' : List Nat}

theorem Retuned.refl (n : Node (Listener A)) : n.Retuned K n := ⟨rfl, fun _ _ => rfl⟩

theorem Retuned.trans (h : n.Retuned K n₁) (h' : n₁.Retuned K n₂) : n.Retuned K n₂ :=
  ⟨h'.tag.trans h.tag, fun channel hc => (h'.heard channel hc).trans (h.heard channel hc)⟩

theorem Retuned.mono (h : n.Retuned K n₁) (hK : K ⊆ K') : n.Retuned K' n₁ :=
  ⟨h.tag, fun channel hc => h.heard channel fun hin => hc (hK hin)⟩

/-- the listeners of a node with one ticket are one -/
theorem Ticketed.eq_of_ticket (h : n.Ticketed) {l l' : Listening (Listener A)} (hl : l ∈ n.listeners)
    (hl' : l' ∈ n.listeners) (he : l.ticket = l'.ticket) : l = l' := List.inj_on_of_nodup_map h.nodup hl hl' he

/-- what is written into a node other than listeners -/
theorem ticketed_congr (hl : n₁.listeners = n.listeners) (ht : n₁.nextTicket = n.nextTicket) (h : n.Ticketed) :
    n₁.Ticketed := by
  refine ⟨?_, fun l hin => ?_⟩
  · rw [hl]
    exact h.nodup
  · rw [ht]
    exact h.below l (hl ▸ hin)

theorem Ticketed.listen (h : n.Ticketed) (event : String) (listener : Listener A) :
    ((Writing.listen event listener).apply n).Ticketed := by
  refine ⟨?_, fun l hl => ?_⟩
  · show ((n.listeners ++ [_]).map Listening.ticket).Nodup
    rw [List.map_append]
    refine List.nodup_append'.2 ⟨h.nodup, List.nodup_singleton n.nextTicket, fun ticket hin hnew => ?_⟩
    obtain ⟨l, hl, rfl⟩ := List.mem_map.1 hin
    exact Nat.ne_of_lt (h.below l hl) (List.mem_singleton.1 hnew)
  · show l.ticket < n.nextTicket + 1
    rcases List.mem_append.1 hl with hl | hl
    · exact Nat.lt_succ_of_lt (h.below l hl)
    · rw [List.mem_singleton.1 hl]
      exact Nat.lt_succ_self _

theorem Ticketed.unlisten (h : n.Ticketed) (ticket : Nat) : ((Writing.unlisten ticket).apply n).Ticketed :=
  ⟨h.nodup.sublist (List.Sublist.map _ List.filter_sublist), fun l hl => h.below l (List.mem_of_mem_filter hl)⟩

end

end Node

namespace Document

variable {d d₁ d₂ : Document (Listener A)}

/-- no ticket is given out twice on a node -/
def Ticketed (d : Document (Listener A)) : Prop := ∀ x n, d.node? x = some n → n.Ticketed

/-- every node that is left is the element that it was, and is heard as it was on all channels but these; new nodes are not
heard on any other -/
structure Retunes (channels : List Nat) (d d₁ : Document (Listener A)) : Prop where
  intact : d₁.Intact
  fresh : d.fresh ≤ d₁.fresh
  ticketed : d.Ticketed → d₁.Ticketed
  old : ∀ x < d.fresh, ∀ n₁, d₁.node? x = some n₁ → ∃ n, d.node? x = some n ∧ n.Retuned channels n₁
  new : ∀ x n₁, d.fresh ≤ x → d₁.node? x = some n₁ → ∀ channel ∉ channels, n₁.heard channel = []

section

variable {K K' : List Nat}

theorem Retunes.refl (hd : d.Intact) : Retunes K d d where
  intact := hd
  fresh := Nat.le_refl _
  ticketed h := h
  old _ _ n hn := ⟨n, hn, .refl n⟩
  new x n hx hn := by
    have hlt := hd.valid.below (mem_ids_of_node? hd.valid (by rw [hn]; exact Option.some_ne_none n))
    exact absurd hlt (Nat.not_lt.2 hx)

theorem Retunes.mono (h : Retunes K d d₁) (hK : K ⊆ K') : Retunes K' d d₁ where
  intact := h.intact
  fresh := h.fresh
  ticketed := h.ticketed
  old x hx n₁ hn₁ := by
    obtain ⟨n, hn, hr⟩ := h.old x hx n₁ hn₁
    exact ⟨n, hn, hr.mono hK⟩
  new x n₁ hx hn₁ channel hc := h.new x n₁ hx hn₁ channel fun hin => hc (hK hin)

theorem Retunes.trans (h : Retunes K d d₁) (h' : Retunes K d₁ d₂) : Retunes K d d₂ where
  intact := h'.intact
  fresh := Nat.le_trans h.fresh h'.fresh
  ticketed ht := h'.ticketed (h.ticketed ht)
  old x hx n₂ hn₂ := by
    obtain ⟨n₁, hn₁, hr'⟩ := h'.old x (Nat.lt_of_lt_of_le hx h.fresh) n₂ hn₂
    obtain ⟨n, hn, hr⟩ := h.old x hx n₁ hn₁
    exact ⟨n, hn, hr.trans hr'⟩
  new x n₂ hx hn₂ channel hc := by
    by_cases hlt : x < d₁.fresh
    · obtain ⟨n₁, hn₁, hr⟩ := h'.old x hlt n₂ hn₂
      exact (hr.heard channel hc).trans (h.new x n₁ hx hn₁ channel hc)
    · exact h'.new x n₂ (Nat.not_lt.1 hlt) hn₂ channel hc

end

/-! ## Changes that retune nothing -/

/-- nodes may go -/
theorem retunes_of_nodes (hi : d₁.Intact) (hf : d₁.fresh = d.fresh)
    (h : ∀ x n₁, d₁.node? x = some n₁ → d.node? x = some n₁) : Retunes [] d d₁ where
  intact := hi
  fresh := Nat.le_of_eq hf.symm
  ticketed ht x n₁ hn₁ := ht x n₁ (h x n₁ hn₁)
  old x _ n₁ hn₁ := ⟨n₁, h x n₁ hn₁, .refl n₁⟩
  new x n₁ hx hn₁ := (Retunes.refl hi).new x n₁ (hf ▸ hx) hn₁

/-- nodes may come -/
theorem retunes_of_grows (hi : d₁.Intact) (hf : d.fresh ≤ d₁.fresh) (h : ∀ x < d.fresh, d₁.node? x = d.node? x)
    (hnew : ∀ x n₁, d.fresh ≤ x → d₁.node? x = some n₁ → n₁.listeners = []) : Retunes [] d d₁ where
  intact := hi
  fresh := hf
  ticketed ht x n₁ hn₁ := by
    by_cases hx : x < d.fresh
    · exact ht x n₁ ((h x hx).symm.trans hn₁)
    · have hnone := hnew x n₁ (Nat.not_lt.1 hx) hn₁
      refine ⟨?_, fun l hl => ?_⟩
      · rw [hnone]
        exact List.nodup_nil
      · rw [hnone] at hl
        cases hl
  old x hx n₁ hn₁ := ⟨n₁, (h x hx).symm.trans hn₁, .refl n₁⟩
  new x n₁ hx hn₁ channel _ := by rw [Node.heard, hnew x n₁ hx hn₁, List.filter_nil]

mutual
theorem listeners_plantNode : (n : Markup.Node) → (id : NodeId) →
    ∀ m ∈ (plant.plantNode (L := Listener A) n id).1.labels, m.listeners = []
  | .element _ _ children, id, m, hm => by
    rw [plant.plantNode, labels_tree] at hm
    rcases List.mem_cons.1 hm with rfl | hm
    · rfl
    · exact listeners_plant children (id + 1) m hm
  | .text _, _, m, hm => by rw [List.mem_singleton.1 hm]
  | .comment _, _, m, hm => by rw [List.mem_singleton.1 hm]
/-- nobody listens to a copy yet -/
theorem listeners_plant : (ns : List Markup.Node) → (id : NodeId) →
    ∀ m ∈ (plant (L := Listener A) ns id).1.labels, m.listeners = []
  | [], _, _, hm => absurd hm List.not_mem_nil
  | n :: ns, id, m, hm => by
    rw [plant, labels_append] at hm
    exact (List.mem_append.1 hm).elim (listeners_plantNode n id m) (listeners_plant ns _ m)
end

section

variable (hd : d.Intact)
include hd

theorem retunes_add (kind : Kind) : Retunes [] d (d.add kind).1 := by
  refine retunes_of_grows (hd.add kind) (Nat.le_succ _)
    (fun x hx => by rw [node?_add hd.valid, if_neg (Nat.ne_of_lt hx)]) fun x n₁ hx hn₁ => ?_
  rw [node?_add hd.valid] at hn₁
  split at hn₁
  · cases hn₁
    rfl
  · exact absurd (hd.valid.below (mem_ids_of_node? hd.valid (by rw [hn₁]; exact Option.some_ne_none n₁)))
      (Nat.not_lt.2 hx)

theorem retunes_addFragment (nodes : List Markup.Node) : Retunes [] d (d.addFragment nodes).1 := by
  obtain ⟨hle, -⟩ := plant_ids (L := Listener A) nodes (d.fresh + 1)
  refine retunes_of_grows (hd.addFragment nodes) (Nat.le_of_succ_le hle) (grows_addFragment hd.valid nodes).1.node
    fun x n₁ hx hn₁ => ?_
  rw [node?_eq_labels] at hn₁
  have hid := isNode_iff.1 (List.find?_some hn₁)
  have hmem := List.mem_of_find?_eq_some hn₁
  rw [addFragment, labels_append, labels_tree, List.mem_append, List.mem_cons] at hmem
  rcases hmem with hmem | rfl | hmem
  · exact absurd (hid ▸ hd.valid.below (mem_ids_of_mem hmem)) (Nat.not_lt.2 hx)
  · rfl
  · exact listeners_plant nodes _ n₁ hmem

theorem retunes_detach (x : NodeId) : Retunes [] d (d.detach x) :=
  retunes_of_nodes (hd.detach x) (fresh_detach d x) fun y _ hn => (node?_detach hd.valid x y).symm.trans hn

theorem retunes_insertBefore (p c : NodeId) (anchor : Option NodeId) : Retunes [] d (d.insertBefore p c anchor) :=
  retunes_of_nodes (hd.insertBefore p c anchor) (fresh_insertBefore d p c anchor) fun x _ hn =>
    ((relinks_insertBefore hd p c anchor).node x).symm.trans hn

theorem retunes_replaceWith (old new : NodeId) : Retunes [] d (d.replaceWith old new) := by
  unfold replaceWith
  cases d.parent? old with
  | none => exact .refl hd
  | some p =>
    have hinsert := retunes_insertBefore hd p new (some old)
    exact hinsert.trans (retunes_detach hinsert.intact old)

theorem retunes_discard (held : NodeId → Bool) (x : NodeId) : Retunes [] d (d.discard held x) :=
  retunes_of_nodes (hd.discard held x) (fresh_detach d x) fun _ _ hn => node?_of_discard hd hn

/-- what is written into one node -/
theorem retunes_perform (x : NodeId) (writing : Writing (Listener A)) {K : List Nat}
    (hr : ∀ n, d.node? x = some n → n.Retuned K (writing.apply n))
    (ht : ∀ n, n.Ticketed → (writing.apply n).Ticketed) : Retunes K d (writing.perform x d) := by
  obtain ⟨hi, hrewrites⟩ := rewrites_perform hd writing x
  have hf : (writing.perform x d).fresh = d.fresh := by rw [writing.perform_eq]; rfl
  have hnode : ∀ y n₁, (writing.perform x d).node? y = some n₁ →
      ∃ n, d.node? y = some n ∧ n₁ = if y = x then writing.apply n else n := by
    intro y n₁ hn₁
    rw [hrewrites.node] at hn₁
    obtain ⟨n, hn, rfl⟩ := Option.map_eq_some_iff.1 hn₁
    exact ⟨n, hn, rfl⟩
  refine ⟨hi, Nat.le_of_eq hf.symm, fun hd y n₁ hn₁ => ?_, fun y _ n₁ hn₁ => ?_,
    fun y n₁ hy hn₁ => (Retunes.refl hi).new y n₁ (hf ▸ hy) hn₁⟩
  · obtain ⟨n, hn, rfl⟩ := hnode y n₁ hn₁
    split
    · exact ht n (hd y n hn)
    · exact hd y n hn
  · obtain ⟨n, hn, rfl⟩ := hnode y n₁ hn₁
    refine ⟨n, hn, ?_⟩
    split
    · next hy => exact hr n (hy ▸ hn)
    · exact .refl n

/-- what is written into an attribute or a text -/
theorem retunes_write (x : NodeId) (writing : Writing (Listener A))
    (hl : ∀ n : Node (Listener A), (writing.apply n).listeners = n.listeners)
    (ht : ∀ n : Node (Listener A), (writing.apply n).nextTicket = n.nextTicket) :
    Retunes [] d (writing.perform x d) := by
  refine retunes_perform hd x writing (fun n _ => ⟨writing.tag?_apply n, fun channel _ => ?_⟩) fun n hn =>
    Node.ticketed_congr (hl n) (ht n) hn
  rw [Node.heard, hl, Node.heard]

theorem retunes_listen (x : NodeId) (event : String) (channel : Nat) (topic : String) :
    Retunes [channel] d (d.listen x event (.channel channel topic)).1 := by
  refine retunes_perform hd x (.listen event (.channel channel topic)) (fun n _ => ⟨rfl, fun k hk => ?_⟩)
    fun n hn => hn.listen event _
  have hne : ¬ channel = k := fun e => hk (List.mem_singleton.2 e.symm)
  show (n.listeners ++ [_]).filter _ = _
  rw [List.filter_append]
  simp [Node.heard, Listener.channel?, hne]

end

end Document

/-! ## Ears -/

/-- a listener that has been attached for a channel: to which node, with which ticket, for which event and topic -/
structure Ear where
  node : NodeId
  ticket : Nat
  event : String
  topic : String
deriving DecidableEq, Repr

def Ear.listening (channel : Nat) (ear : Ear) : Listening (Listener A) := ⟨ear.ticket, ear.event, .channel channel ear.topic⟩

def earsAt (x : NodeId) (ears : List Ear) : List Ear := ears.filter (·.node == x)

theorem earsAt_append (x : NodeId) (ears more : List Ear) : earsAt x (ears ++ more) = earsAt x ears ++ earsAt x more :=
  List.filter_append ..

theorem earsAt_cons_self (ear : Ear) (ears : List Ear) : earsAt ear.node (ear :: ears) = ear :: earsAt ear.node ears :=
  List.filter_cons_of_pos (beq_self_eq_true _)

theorem earsAt_cons_of_ne {x : NodeId} {ear : Ear} (h : x ≠ ear.node) (ears : List Ear) :
    earsAt x (ear :: ears) = earsAt x ears := List.filter_cons_of_neg (by simpa using h.symm)

namespace Document

variable {d d₁ : Document (Listener A)} {channel : Nat} {ear : Ear} {ears : List Ear}

/-- these ears are all that hear a channel -/
structure Hears (channel : Nat) (ears : List Ear) (d : Document (Listener A)) : Prop where
  known : ∀ ear ∈ ears, ear.node < d.fresh
  heard : ∀ x n, d.node? x = some n → n.heard channel = (earsAt x ears).map (Ear.listening channel)

/-- other channels are heard as before -/
theorem Hears.retunes {K : List Nat} (h : d.Hears channel ears) (hr : Retunes K d d₁) (hc : channel ∉ K) :
    d₁.Hears channel ears where
  known ear hin := Nat.lt_of_lt_of_le (h.known ear hin) hr.fresh
  heard x n₁ hn₁ := by
    by_cases hx : x < d.fresh
    · obtain ⟨n, hn, hsame⟩ := hr.old x hx n₁ hn₁
      exact (hsame.heard channel hc).trans (h.heard x n hn)
    · have hnone : earsAt x ears = [] := by
        refine List.filter_eq_nil_iff.2 fun ear hin he => hx ?_
        exact (beq_iff_eq.1 he) ▸ h.known ear hin
      rw [hr.new x n₁ (Nat.not_lt.1 hx) hn₁ channel hc, hnone]
      rfl

/-- one ear more, with the ticket that it is given -/
theorem Hears.listen (h : d.Hears channel ears) (hd : d.Intact) {x : NodeId} (hx : x < d.fresh) (event topic : String) :
    (d.listen x event (.channel channel topic)).1.Hears channel
      (ears ++ [⟨x, (d.listen x event (.channel channel topic)).2, event, topic⟩]) where
  known ear hin := by
    rcases List.mem_append.1 hin with hin | hin
    · exact h.known ear hin
    · rw [List.mem_singleton.1 hin]
      exact hx
  heard y n₁ hn₁ := by
    have hr := ((rewrites_perform hd (.listen event (.channel channel topic)) x).2.node y).symm.trans hn₁
    obtain ⟨n, hn, rfl⟩ := Option.map_eq_some_iff.1 hr
    have hheard := h.heard y n hn
    rw [earsAt_append, List.map_append, ← hheard]
    by_cases hy : y = x
    · subst hy
      have hticket : (d.listen y event (.channel channel topic)).2 = n.nextTicket := by
        show ((d.find? y).map (·.1.nextTicket)).getD 0 = n.nextTicket
        rw [find?_eq_node?, hn]
        rfl
      rw [if_pos rfl, hticket]
      show (n.listeners ++ [_]).filter _ = _
      rw [List.filter_append]
      simp [Node.heard, Listener.channel?, Ear.listening, earsAt]
    · rw [if_neg hy, earsAt_cons_of_ne hy]
      exact (List.append_nil _).symm

/-- a node on which an ear is left has the listener -/
theorem Hears.mem_listeners (h : d.Hears channel (ear :: ears)) {n : Node (Listener A)} (hn : d.node? ear.node = some n) :
    n.heard channel = ear.listening channel :: (earsAt ear.node ears).map (Ear.listening channel) ∧
      ear.listening channel ∈ n.listeners := by
  have hheard := h.heard ear.node n hn
  rw [earsAt_cons_self, List.map_cons] at hheard
  exact ⟨hheard, List.mem_of_mem_filter (hheard ▸ List.mem_cons_self)⟩

/-- one ear less; it was the only listener with its ticket -/
theorem Hears.unlisten (h : d.Hears channel (ear :: ears)) (hd : d.Intact) (ht : d.Ticketed) :
    (d.unlisten ear.node ear.ticket).Hears channel ears ∧
      Retunes [channel] d (d.unlisten ear.node ear.ticket) := by
  have honly : ∀ n : Node (Listener A), d.node? ear.node = some n → ∀ l ∈ n.listeners,
      l ≠ ear.listening channel → (l.ticket != ear.ticket) = true := by
    intro n hn l hl hne
    refine bne_iff_ne.2 fun he => hne ?_
    exact (ht _ n hn).eq_of_ticket hl (h.mem_listeners hn).2 he
  refine ⟨⟨fun e he => h.known e (List.mem_cons_of_mem _ he), fun y n₁ hn₁ => ?_⟩,
    retunes_perform hd ear.node (.unlisten ear.ticket) (fun n hn => ⟨rfl, fun k hk => ?_⟩)
      fun n hn => hn.unlisten ear.ticket⟩
  · have hr := ((rewrites_perform hd (.unlisten ear.ticket) ear.node).2.node y).symm.trans hn₁
    obtain ⟨n, hn, rfl⟩ := Option.map_eq_some_iff.1 hr
    by_cases hy : y = ear.node
    · subst hy
      obtain ⟨hheard, hmem⟩ := h.mem_listeners hn
      rw [if_pos rfl]
      show (n.listeners.filter _).filter _ = _
      rw [List.filter_comm]
      show (n.heard channel).filter _ = _
      have hnodup : ((n.heard channel).map (·.ticket)).Nodup :=
        List.Nodup.sublist (List.filter_sublist.map Listening.ticket) (ht _ n hn).nodup
      rw [hheard, List.map_cons, List.nodup_cons] at hnodup
      rw [hheard, List.filter_cons_of_neg (by simp [Ear.listening])]
      refine List.filter_eq_self.2 fun l hl => bne_iff_ne.2 fun he => hnodup.1 ?_
      exact List.mem_map.2 ⟨l, hl, he⟩
    · rw [if_neg hy, h.heard y n hn, earsAt_cons_of_ne hy]
  · show (n.listeners.filter _).filter _ = _
    rw [List.filter_comm]
    refine List.filter_eq_self.2 fun l hl => honly n hn l (List.mem_of_mem_filter hl) fun he => hk ?_
    have hch := List.of_mem_filter hl
    rw [he] at hch
    exact List.mem_singleton.2 (Option.some.inj (beq_iff_eq.1 hch)).symm

end Document

end LiveMarkup
