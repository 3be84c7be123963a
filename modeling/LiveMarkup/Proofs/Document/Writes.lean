/-
What is written into nodes, and what is left as it was.

A node reads something if it is a text with this data, and bears an attribute if it has it with this value; a node that
has gone for good does whatever is asked of it. `Writes` says of two documents that all that was read and borne still is,
but for some texts and some attributes, which may have been written into, and for attributes with the names of markers.
Moving nodes, taking them out and adding new ones writes nothing.

A component has texts and attributes of its own and keeps a condition on what they show. `Turn` says that somebody has had
a turn and still keeps its condition; turns of several with different texts and attributes come to turns of all.

- `setData_of_reads`, `setAttribute_of_bears`: what is written once more changes nothing;
- `writes_setData`, `writes_setAttribute`, `writes_renameAttribute`, `writes_discard` and others: every change of a
  document;
- `Turn.beside`, `Turn.trans`: one after another, side by side or by the same.
-/
import LiveMarkup.Template.Marker
import LiveMarkup.Proofs.Document.Part
import LiveMarkup.Proofs.Document.Operations
import LiveMarkup.Proofs.Document.Rename

namespace LiveMarkup

open Forest

variable {L : Type}

/-! ## Entries -/

namespace Entries

variable {α : Type}

theorem set_of_get? {es : Entries α} {name : String} {value : α} (h : es.get? name = some value) :
    es.set name value = es := by
  induction es with
  | nil => cases h
  | cons e es ih =>
    obtain ⟨n, v⟩ := e
    rw [get?_cons] at h
    rw [set]
    by_cases hn : n = name
    · rw [if_pos hn] at h ⊢
      rw [Option.some.inj h]
    · rw [if_neg hn] at h ⊢
      rw [ih h]

end Entries

/-- a name that is no marker's -/
def Marker.Free (name : String) : Prop := ∀ m : Marker, m.category.inTag = true → m.name ≠ name

namespace Document

variable {d d₁ d₂ : Document L}

/-! ## What a node shows -/

/-- the node is a text with this data, if it is there -/
def Reads (d : Document L) (x : NodeId) (data : String) : Prop := ∀ n, d.node? x = some n → n.kind = .text data

/-- the node has this attribute with this value, if it is there -/
def Bears (d : Document L) (x : NodeId) (name value : String) : Prop :=
  ∀ n, d.node? x = some n → n.kind.attributes.get? name = some value

/-- changing a node to what it is changes nothing -/
theorem update_eq_self (hv : d.Valid) {x : NodeId} {g : Node L → Node L} (h : ∀ n, d.node? x = some n → g n = n) :
    d.update x g = d := by
  have hlabel : ∀ n ∈ d.forest.labels, isNode x n = true → g n = n := fun n hn hx =>
    h n (isNode_iff.1 hx ▸ node?_of_mem hv hn)
  have hforest : ∀ f : Forest (Node L), (∀ n ∈ f.labels, isNode x n = true → g n = n) → f.update (isNode x) g = f := by
    intro f
    induction f with
    | nil => exact fun _ => rfl
    | cons n cs rest ihc ihr =>
      intro hf
      rw [labels, List.forall_mem_cons, List.forall_mem_append] at hf
      rw [Forest.update, ihc hf.2.1, ihr hf.2.2]
      split
      · next hx => rw [hf.1 hx]
      · rfl
  exact congrArg (Document.mk · d.fresh) (hforest d.forest hlabel)

/-- a text that is set to what it is -/
theorem setData_of_reads (hv : d.Valid) {x : NodeId} {data : String} (h : d.Reads x data) : d.setData x data = d := by
  have hw := (Writing.setData data : Writing L).perform_eq x d
  refine hw.trans (update_eq_self hv fun n hn => ?_)
  obtain ⟨id, kind, listeners, nextTicket⟩ := n
  obtain rfl : kind = .text data := h _ hn
  rfl

/-- an attribute that is set to what it is -/
theorem setAttribute_of_bears (hv : d.Valid) {x : NodeId} {name value : String} (h : d.Bears x name value) :
    d.setAttribute x name value = d := by
  have hw := (Writing.setAttribute name value : Writing L).perform_eq x d
  refine hw.trans (update_eq_self hv fun n hn => ?_)
  obtain ⟨id, kind, listeners, nextTicket⟩ := n
  have hget : kind.attributes.get? name = some value := h _ hn
  cases kind with
  | element tag attributes =>
    have hset : Entries.set name value attributes = attributes := Entries.set_of_get? hget
    show Node.mk id (.element tag (Entries.set name value attributes)) listeners nextTicket = _
    rw [hset]
  | _ => cases hget

/-! ## What changes leave -/

/-- nothing is written into nodes but into these texts and these attributes, and into attributes of markers -/
structure Writes (texts : List NodeId) (spots : List (NodeId × String)) (d d₁ : Document L) : Prop where
  intact : d₁.Intact
  fresh : d.fresh ≤ d₁.fresh
  reads : ∀ x < d.fresh, x ∉ texts → ∀ data, d.Reads x data → d₁.Reads x data
  bears : ∀ x < d.fresh, ∀ name, Marker.Free name → (x, name) ∉ spots → ∀ value, d.Bears x name value →
    d₁.Bears x name value

section

variable {T T' : List NodeId} {S S' : List (NodeId × String)}

theorem Writes.refl (hd : d.Intact) : Writes [] [] d d := ⟨hd, Nat.le_refl _, fun _ _ _ _ h => h, fun _ _ _ _ _ _ h => h⟩

theorem Writes.mono (h : Writes T S d d₁) (hT : T ⊆ T') (hS : S ⊆ S') : Writes T' S' d d₁ where
  intact := h.intact
  fresh := h.fresh
  reads x hx hnot := h.reads x hx fun hin => hnot (hT hin)
  bears x hx name hname hnot := h.bears x hx name hname fun hin => hnot (hS hin)

theorem Writes.trans (h : Writes T S d d₁) (h' : Writes T' S' d₁ d₂) : Writes (T ++ T') (S ++ S') d d₂ where
  intact := h'.intact
  fresh := Nat.le_trans h.fresh h'.fresh
  reads x hx hnot data hr := by
    rw [List.mem_append, not_or] at hnot
    exact h'.reads x (Nat.lt_of_lt_of_le hx h.fresh) hnot.2 data (h.reads x hx hnot.1 data hr)
  bears x hx name hname hnot value hb := by
    rw [List.mem_append, not_or] at hnot
    exact h'.bears x (Nat.lt_of_lt_of_le hx h.fresh) name hname hnot.2 value (h.bears x hx name hname hnot.1 value hb)

/-- one after another, into the same -/
theorem Writes.trans_same (h : Writes T S d d₁) (h' : Writes T S d₁ d₂) : Writes T S d d₂ :=
  (h.trans h').mono (List.append_subset.2 ⟨List.Subset.refl T, List.Subset.refl T⟩)
    (List.append_subset.2 ⟨List.Subset.refl S, List.Subset.refl S⟩)

end

/-- nodes that are where they were are what they were, as far as anyone can see -/
theorem writes_of_kinds (hi : d₁.Intact) (hf : d.fresh ≤ d₁.fresh)
    (h : ∀ x < d.fresh, ∀ n₁, d₁.node? x = some n₁ → ∃ n, d.node? x = some n ∧ n.kind = n₁.kind) :
    Writes [] [] d d₁ where
  intact := hi
  fresh := hf
  reads x hx _ data hr n₁ hn₁ := by
    obtain ⟨n, hn, hk⟩ := h x hx n₁ hn₁
    exact hk ▸ hr n hn
  bears x hx name _ _ value hb n₁ hn₁ := by
    obtain ⟨n, hn, hk⟩ := h x hx n₁ hn₁
    exact hk ▸ hb n hn

theorem writes_of_nodes (hi : d₁.Intact) (hf : d.fresh ≤ d₁.fresh) (h : ∀ x < d.fresh, d₁.node? x = d.node? x) :
    Writes [] [] d d₁ :=
  writes_of_kinds hi hf fun x hx n₁ hn₁ => ⟨n₁, (h x hx).symm.trans hn₁, rfl⟩

theorem fresh_detach (d : Document L) (x : NodeId) : (d.detach x).fresh = d.fresh := by
  unfold detach
  split <;> rfl

theorem fresh_insertBefore (d : Document L) (p c : NodeId) (anchor : Option NodeId) :
    (d.insertBefore p c anchor).fresh = d.fresh := by
  have hplace : ∀ (row : List NodeId) (e : Document L),
      (row.foldl (fun e c => e.place p c anchor) e).fresh = e.fresh := by
    intro row
    induction row with
    | nil => exact fun _ => rfl
    | cons c row ih =>
      intro e
      refine (ih (e.place p c anchor)).trans ?_
      unfold place
      split <;> rfl
  rw [insertBefore_eq, hplace]

section

variable (hd : d.Intact)
include hd

theorem writes_add (kind : Kind) : Writes [] [] d (d.add kind).1 :=
  writes_of_nodes (hd.add kind) (Nat.le_succ _) fun x hx => by rw [node?_add hd.valid, if_neg (Nat.ne_of_lt hx)]

theorem writes_addFragment (nodes : List Markup.Node) : Writes [] [] d (d.addFragment nodes).1 := by
  obtain ⟨hle, -⟩ := plant_ids (L := L) nodes (d.fresh + 1)
  exact writes_of_nodes (hd.addFragment nodes) (Nat.le_of_succ_le hle) (grows_addFragment hd.valid nodes).1.node

theorem writes_detach (x : NodeId) : Writes [] [] d (d.detach x) :=
  writes_of_nodes (hd.detach x) (Nat.le_of_eq (fresh_detach d x).symm) fun y _ => node?_detach hd.valid x y

theorem writes_insertBefore (p c : NodeId) (anchor : Option NodeId) : Writes [] [] d (d.insertBefore p c anchor) :=
  writes_of_nodes (hd.insertBefore p c anchor) (Nat.le_of_eq (fresh_insertBefore d p c anchor).symm) fun x _ =>
    (relinks_insertBefore hd p c anchor).node x

theorem writes_replaceWith (old new : NodeId) : Writes [] [] d (d.replaceWith old new) := by
  unfold replaceWith
  cases d.parent? old with
  | none => exact .refl hd
  | some p =>
    have hinsert := writes_insertBefore hd p new (some old)
    exact hinsert.trans (writes_detach hinsert.intact old)

theorem writes_discard (held : NodeId → Bool) (x : NodeId) : Writes [] [] d (d.discard held x) := by
  have hdetach := writes_detach hd x
  refine hdetach.trans_same (writes_of_kinds (hd.discard held x) (Nat.le_refl _) fun y hy n hn => ⟨n, ?_, rfl⟩)
  cases hx : d.find? x with
  | none =>
    rw [discard_of_unknown hd.valid hx] at hn
    rw [node?_detach hd.valid]
    exact hn
  | some t =>
    rcases discard_cases hd.valid hx held y with hnone | hsame
    · rw [node?, hnone] at hn
      cases hn
    · rw [← node?_congr hsame]
      exact hn

/-- what is written into one node -/
theorem writes_perform (x : NodeId) (writing : Writing L) {T : List NodeId} {S : List (NodeId × String)}
    (hreads : ∀ n : Node L, x ∉ T → ∀ data, n.kind = .text data → (writing.apply n).kind = .text data)
    (hbears : ∀ n : Node L, ∀ name, Marker.Free name → (x, name) ∉ S → ∀ value,
      n.kind.attributes.get? name = some value → (writing.apply n).kind.attributes.get? name = some value) :
    Writes T S d (writing.perform x d) := by
  obtain ⟨hi, hr⟩ := rewrites_perform hd writing x
  have hnode : ∀ y n₁, (writing.perform x d).node? y = some n₁ →
      ∃ n, d.node? y = some n ∧ n₁ = if y = x then writing.apply n else n := by
    intro y n₁ hn₁
    rw [hr.node] at hn₁
    obtain ⟨n, hn, rfl⟩ := Option.map_eq_some_iff.1 hn₁
    exact ⟨n, hn, rfl⟩
  refine ⟨hi, Nat.le_of_eq (by rw [writing.perform_eq]; rfl), fun y _ hnot data hread n₁ hn₁ => ?_,
    fun y _ name hname hnot value hbear n₁ hn₁ => ?_⟩
  · obtain ⟨n, hn, rfl⟩ := hnode y n₁ hn₁
    by_cases hy : y = x
    · rw [if_pos hy]
      exact hreads n (hy ▸ hnot) data (hread n hn)
    · rw [if_neg hy]
      exact hread n hn
  · obtain ⟨n, hn, rfl⟩ := hnode y n₁ hn₁
    by_cases hy : y = x
    · rw [if_pos hy]
      exact hbears n name hname (hy ▸ hnot) value (hbear n hn)
    · rw [if_neg hy]
      exact hbear n hn

theorem writes_setData (x : NodeId) (data : String) : Writes [x] [] d (d.setData x data) := by
  refine writes_perform hd x (.setData data) (fun n hnot => absurd (List.mem_singleton.2 rfl) hnot)
    fun n name _ _ value hbear => ?_
  obtain ⟨id, kind, listeners, nextTicket⟩ := n
  cases kind with
  | element => exact hbear
  | _ => cases hbear

/-- the attributes of an element are changed -/
theorem writes_attributes (x : NodeId) (writing : Writing L) (g : Attributes → Attributes)
    (hw : ∀ n : Node L, writing.apply n = Writing.mapAttributes g n) {S : List (NodeId × String)}
    (hg : ∀ as name, Marker.Free name → (x, name) ∉ S → Entries.get? (g as) name = Entries.get? as name) :
    Writes [] S d (writing.perform x d) := by
  refine writes_perform hd x writing (fun n _ data hread => ?_) fun n name hname hnot value hbear => ?_
  · rw [hw, Writing.mapAttributes, hread]
    rfl
  · rw [hw, Writing.mapAttributes]
    obtain ⟨id, kind, listeners, nextTicket⟩ := n
    cases kind with
    | element tag attributes => exact (hg attributes name hname hnot).trans hbear
    | _ => cases hbear

theorem writes_setAttribute (x : NodeId) (name value : String) :
    Writes [] [(x, name)] d (d.setAttribute x name value) := by
  refine writes_attributes hd x (.setAttribute name value) _ (fun _ => rfl) fun as n _ hnot => ?_
  rw [Entries.get?_set, if_neg]
  rintro rfl
  exact hnot (List.mem_singleton.2 rfl)

theorem writes_renameAttribute (x : NodeId) {m : Marker} (hm : m.category.inTag = true) (target value : String) :
    Writes [] [(x, target)] d (d.renameAttribute x m.name target value) := by
  refine writes_attributes hd x (.renameAttribute m.name target value) _ (fun _ => rfl) fun as n hn hnot => ?_
  rw [Entries.get?_rename as value (hn m hm).symm, if_neg]
  rintro rfl
  exact hnot (List.mem_singleton.2 rfl)

theorem writes_removeAttribute (x : NodeId) {m : Marker} (hm : m.category.inTag = true) :
    Writes [] [] d (d.removeAttribute x m.name) := by
  refine writes_attributes hd x (.removeAttribute m.name) _ (fun _ => rfl) fun as n hn _ => ?_
  rw [Entries.get?_erase, if_neg (hn m hm).symm]

theorem writes_listeners (x : NodeId) (writing : Writing L) (hw : ∀ n : Node L, (writing.apply n).kind = n.kind) :
    Writes [] [] d (writing.perform x d) :=
  writes_perform hd x writing (fun n _ data hread => (hw n).trans hread) fun n name _ _ value hbear => by
    rw [hw n]
    exact hbear

/-! ## What is written is there -/

theorem reads_setData {x : NodeId} {old : String} (h : d.Reads x old) (data : String) :
    (d.setData x data).Reads x data := by
  intro n₁ hn₁
  have hr := ((rewrites_perform hd (.setData data) x).2.node x).symm.trans hn₁
  obtain ⟨n, hn, rfl⟩ := Option.map_eq_some_iff.1 hr
  rw [if_pos rfl, Writing.apply, h n hn]
  rfl

/-- an attribute that an element is given -/
theorem bears_attributes {x : NodeId} (h : ∀ n, d.node? x = some n → n.kind.tag? ≠ none) (writing : Writing L)
    (g : Attributes → Attributes) (hw : ∀ n : Node L, writing.apply n = Writing.mapAttributes g n) {name value : String}
    (hg : ∀ as, Entries.get? (g as) name = some value) : (writing.perform x d).Bears x name value := by
  intro n₁ hn₁
  have hr := ((rewrites_perform hd writing x).2.node x).symm.trans hn₁
  obtain ⟨n, hn, rfl⟩ := Option.map_eq_some_iff.1 hr
  rw [if_pos rfl, hw, Writing.mapAttributes]
  have htag := h n hn
  cases hk : n.kind with
  | element tag attributes => exact hg attributes
  | _ =>
    rw [hk] at htag
    exact absurd rfl htag

theorem bears_setAttribute {x : NodeId} (h : ∀ n, d.node? x = some n → n.kind.tag? ≠ none) (name value : String) :
    (d.setAttribute x name value).Bears x name value :=
  bears_attributes hd h (.setAttribute name value) _ (fun _ => rfl) fun as => by rw [Entries.get?_set, if_pos rfl]

theorem bears_renameAttribute {x : NodeId} (h : ∀ n, d.node? x = some n → n.kind.tag? ≠ none) {m : Marker}
    (hm : m.category.inTag = true) {name : String} (hn : Marker.Free name) (value : String) :
    (d.renameAttribute x m.name name value).Bears x name value :=
  bears_attributes hd h (.renameAttribute m.name name value) _ (fun _ => rfl) fun as => by
    rw [Entries.get?_rename as value (hn m hm).symm, if_pos rfl]

/-- what is written into an element leaves it an element -/
theorem tag?_perform {x : NodeId} (h : ∀ n, d.node? x = some n → n.kind.tag? ≠ none) (writing : Writing L) :
    ∀ n, (writing.perform x d).node? x = some n → n.kind.tag? ≠ none := by
  intro n₁ hn₁
  have hr := ((rewrites_perform hd writing x).2.node x).symm.trans hn₁
  obtain ⟨n, hn, rfl⟩ := Option.map_eq_some_iff.1 hr
  rw [if_pos rfl, writing.tag?_apply]
  exact h n hn

end

/-- only an element has attributes -/
theorem Bears.tag? {x : NodeId} {name value : String} (h : d.Bears x name value) :
    ∀ n, d.node? x = some n → n.kind.tag? ≠ none := by
  intro n hn htag
  have hget := h n hn
  cases hk : n.kind with
  | element tag attributes =>
    rw [hk] at htag
    cases htag
  | _ =>
    rw [hk] at hget
    cases hget

/-- what is found below a node is a node that passes the test -/
theorem node?_of_firstBelow? (hv : d.Valid) {root x : NodeId} {test : Node L → Bool}
    (h : d.firstBelow? root test = some x) : ∃ n, d.node? x = some n ∧ test n = true := by
  obtain ⟨n, hn, rfl⟩ := Option.map_eq_some_iff.1 h
  have hmem := List.mem_of_find?_eq_some hn
  rw [Document.childForest] at hmem
  cases hf : d.find? root with
  | none =>
    rw [hf] at hmem
    cases hmem
  | some t =>
    rw [hf] at hmem
    refine ⟨n, node?_of_mem hv ?_, List.find?_some hn⟩
    exact labels_subset_of_subtree (find?_subtree hv hf).2.1 hmem

/-- a new text reads what it was made with -/
theorem reads_add (hv : d.Valid) (data : String) : (d.add (.text data)).1.Reads d.fresh data := by
  intro n hn
  rw [node?_add hv, if_pos rfl] at hn
  rw [← Option.some.inj hn]

/-! ## Turns -/

/-- these texts and these attributes are of nodes that have been made -/
structure Known (d : Document L) (T : List NodeId) (S : List (NodeId × String)) : Prop where
  texts : ∀ x ∈ T, x < d.fresh
  spots : ∀ s ∈ S, s.1 < d.fresh

/-- the condition stays true while these texts and these attributes are not written into -/
def Stable (T : List NodeId) (S : List (NodeId × String)) (P : Document L → Prop) : Prop :=
  ∀ ⦃d d₁ : Document L⦄ ⦃T₁ : List NodeId⦄ ⦃S₁ : List (NodeId × String)⦄, Writes T₁ S₁ d d₁ → List.Disjoint T T₁ →
    List.Disjoint S S₁ → d.Known T S → P d → P d₁

/-- somebody who has texts and attributes in a document and keeps a condition on them has had a turn: only what is its own
has been written into, and the condition holds of what it has by now, if no attribute is there twice -/
structure Turn (T : List NodeId) (S : List (NodeId × String)) (T' : List NodeId) (S' : List (NodeId × String))
    (P Q : Document L → Prop) (d d₁ : Document L) : Prop where
  writes : Writes T S' d d₁
  spots : S.Sublist S'
  texts : ∀ x ∈ T', x ∈ T ∨ d.fresh ≤ x
  known : T.Nodup → d.Known T S → d₁.Known T' S' ∧ T'.Nodup
  keeps : T.Nodup → S'.Nodup → d.Known T S → P d → Q d₁

section

variable {T T' T₂ T₂' : List NodeId} {S S' S₂ S₂' : List (NodeId × String)} {P Q P₂ Q₂ : Document L → Prop}

theorem Known.append : d.Known (T ++ T₂) (S ++ S₂) ↔ d.Known T S ∧ d.Known T₂ S₂ := by
  constructor
  · rintro ⟨ht, hs⟩
    rw [List.forall_mem_append] at ht hs
    exact ⟨⟨ht.1, hs.1⟩, ht.2, hs.2⟩
  · rintro ⟨⟨ht, hs⟩, ht', hs'⟩
    exact ⟨List.forall_mem_append.2 ⟨ht, ht'⟩, List.forall_mem_append.2 ⟨hs, hs'⟩⟩

theorem Known.mono (h : d.Known T S) (hf : d.fresh ≤ d₁.fresh) : d₁.Known T S :=
  ⟨fun x hx => Nat.lt_of_lt_of_le (h.texts x hx) hf, fun s hs => Nat.lt_of_lt_of_le (h.spots s hs) hf⟩

theorem Stable.and (h : Stable T S P) (h₂ : Stable T₂ S₂ P₂) :
    Stable (T ++ T₂) (S ++ S₂) fun d : Document L => P d ∧ P₂ d := by
  intro d d₁ T₁ S₁ hw hT hS hk hp
  rw [List.disjoint_append_left] at hT hS
  rw [Known.append] at hk
  exact ⟨h hw hT.1 hS.1 hk.1 hp.1, h₂ hw hT.2 hS.2 hk.2 hp.2⟩

/-- nobody has done anything -/
theorem Turn.refl (hd : d.Intact) (T : List NodeId) (S : List (NodeId × String)) (P : Document L → Prop) :
    Turn T S T S P P d d :=
  ⟨(Writes.refl hd).mono (List.nil_subset T) (List.nil_subset S), .refl S, fun _ hx => .inl hx,
    fun hT hk => ⟨hk, hT⟩, fun _ _ _ hp => hp⟩

/-- changes that write nothing -/
theorem Turn.of_writes (h : Writes [] [] d d₁) (hP : Stable T S P) : Turn T S T S P P d d₁ :=
  ⟨h.mono (List.nil_subset T) (List.nil_subset S), .refl S, fun _ hx => .inl hx, fun hT hk => ⟨hk.mono h.fresh, hT⟩,
    fun _ _ hk hp => hP h (List.disjoint_nil_right T) (List.disjoint_nil_right S) hk hp⟩

/-- what others have is spared by a turn -/
theorem Turn.spared (h : Turn T S T' S' P Q d d₁) (hP : Stable T₂ S₂ P₂) (hT : List.Disjoint T T₂)
    (hS : List.Disjoint S' S₂) (hk : d.Known T₂ S₂) (hp : P₂ d) : P₂ d₁ :=
  hP h.writes hT.symm hS.symm hk hp

/-- one after another, each with what is its own -/
theorem Turn.beside (h : Turn T S T' S' P Q d d₁) (h₂ : Turn T₂ S₂ T₂' S₂' P₂ Q₂ d₁ d₂) (hP : Stable T₂ S₂ P₂)
    (hQ : Stable T' S' Q) : Turn (T ++ T₂) (S ++ S₂) (T' ++ T₂') (S' ++ S₂') (fun d => P d ∧ P₂ d) (fun d => Q d ∧ Q₂ d)
      d d₂ := by
  -- what the first has by now is not what the second had: it is the first's own, or has come since
  have hfirst : List.Disjoint T T₂ → d.Known T₂ S₂ → List.Disjoint T' T₂ := by
    intro hapart hk₂ x hx hx'
    rcases h.texts x hx with hold | hnew
    · exact hapart hold hx'
    · exact Nat.not_lt.2 hnew (hk₂.texts x hx')
  refine ⟨h.writes.trans h₂.writes, h.spots.append h₂.spots, fun x hx => ?_, fun hT hk => ?_, fun hT hS hk hp => ?_⟩
  · rcases List.mem_append.1 hx with hx | hx
    · exact (h.texts x hx).imp_left (List.mem_append_left T₂)
    · exact (h₂.texts x hx).imp (List.mem_append_right T) (Nat.le_trans h.writes.fresh)
  · obtain ⟨hT₁, hT₂, hapart⟩ := List.nodup_append'.1 hT
    obtain ⟨hk₁, hk₂⟩ := Known.append.1 hk
    obtain ⟨hknown, hnodup⟩ := h.known hT₁ hk₁
    obtain ⟨hknown₂, hnodup₂⟩ := h₂.known hT₂ (hk₂.mono h.writes.fresh)
    refine ⟨Known.append.2 ⟨hknown.mono h₂.writes.fresh, hknown₂⟩,
      List.nodup_append'.2 ⟨hnodup, hnodup₂, fun x hx hx' => ?_⟩⟩
    rcases h₂.texts x hx' with hold | hnew
    · exact hfirst hapart hk₂ hx hold
    · exact Nat.not_lt.2 hnew (hknown.texts x hx)
  · obtain ⟨hT₁, hT₂, hapart⟩ := List.nodup_append'.1 hT
    obtain ⟨hS₁, hS₂, hspots⟩ := List.nodup_append'.1 hS
    obtain ⟨hk₁, hk₂⟩ := Known.append.1 hk
    have hp₂ : P₂ d₁ := h.spared hP hapart (fun s hs hs' => hspots hs (h₂.spots.subset hs')) hk₂ hp.2
    exact ⟨hQ h₂.writes (hfirst hapart hk₂) hspots (h.known hT₁ hk₁).1 (h.keeps hT₁ hS₁ hk₁ hp.1),
      h₂.keeps hT₂ hS₂ (hk₂.mono h.writes.fresh) hp₂⟩

/-- the same if the turns are taken the other way round -/
theorem Turn.after (h : Turn T S T' S' P Q d₁ d₂) (h₂ : Turn T₂ S₂ T₂' S₂' P₂ Q₂ d d₁) (hP : Stable T S P)
    (hQ : Stable T₂' S₂' Q₂) : Turn (T ++ T₂) (S ++ S₂) (T' ++ T₂') (S' ++ S₂') (fun d => P d ∧ P₂ d)
      (fun d => Q d ∧ Q₂ d) d d₂ := by
  obtain ⟨hwrites, -, htexts, hknown, hkeeps⟩ := h₂.beside h hP hQ
  have hk : d.Known (T ++ T₂) (S ++ S₂) → d.Known (T₂ ++ T) (S₂ ++ S) := fun hk => Known.append.2 (Known.append.1 hk).symm
  refine ⟨hwrites.mono List.perm_append_comm.subset List.perm_append_comm.subset, h.spots.append h₂.spots,
    fun x hx => ?_, fun hT hkn => ?_, fun hT hS hkn hp => ?_⟩
  · exact (htexts x (List.perm_append_comm.subset hx)).imp_left fun h => List.perm_append_comm.subset h
  · obtain ⟨hk', hT'⟩ := hknown (List.perm_append_comm.nodup_iff.1 hT) (hk hkn)
    exact ⟨Known.append.2 (Known.append.1 hk').symm, List.perm_append_comm.nodup_iff.1 hT'⟩
  · exact (hkeeps (List.perm_append_comm.nodup_iff.1 hT) (List.perm_append_comm.nodup_iff.1 hS) (hk hkn) hp.symm).symm

/-- two turns of the same -/
theorem Turn.trans {T'' : List NodeId} {S'' : List (NodeId × String)} {R : Document L → Prop}
    (h : Turn T S T' S' P Q d d₁) (h' : Turn T' S' T'' S'' Q R d₁ d₂) : Turn T S T'' S'' P R d d₂ where
  writes :=
    { intact := h'.writes.intact
      fresh := Nat.le_trans h.writes.fresh h'.writes.fresh
      reads := fun x hx hnot data hr => h'.writes.reads x (Nat.lt_of_lt_of_le hx h.writes.fresh)
        (fun hin => (h.texts x hin).elim hnot fun hle => Nat.not_lt.2 hle hx) data (h.writes.reads x hx hnot data hr)
      bears := fun x hx name hname hnot value hb => h'.writes.bears x (Nat.lt_of_lt_of_le hx h.writes.fresh) name hname
        hnot value (h.writes.bears x hx name hname (fun hin => hnot (h'.spots.subset hin)) value hb) }
  spots := h.spots.trans h'.spots
  texts x hx := by
    rcases h'.texts x hx with hx | hx
    · exact h.texts x hx
    · exact .inr (Nat.le_trans h.writes.fresh hx)
  known hT hk := by
    obtain ⟨hk', hT'⟩ := h.known hT hk
    exact h'.known hT' hk'
  keeps hT hS hk hp := by
    obtain ⟨hk', hT'⟩ := h.known hT hk
    exact h'.keeps hT' hS hk' (h.keeps hT (h'.spots.nodup hS) hk hp)

/-- the conditions are put in other words -/
theorem Turn.imp {P' Q' : Document L → Prop} (h : Turn T S T' S' P Q d d₁) (hp : ∀ d, P' d → P d)
    (hq : ∀ d, Q d → Q' d) : Turn T S T' S' P' Q' d d₁ :=
  ⟨h.writes, h.spots, h.texts, h.known, fun hT hS hk hP => hq _ (h.keeps hT hS hk (hp _ hP))⟩

end

end Document

end LiveMarkup
