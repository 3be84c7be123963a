/-
Slot contexts that are delivered.

Over a run in which no mount fails and no slot content refuses what it is told, every tick of a component that is not
destroyed succeeds, and delivers exactly what is new. So a text in a slot that shows a prop of the slot context shows the
stored value from the first delivery on, as its data and in its node, also when the component is destroyed and mounted
again.

- `Component.Says.call`: what texts in slots say, one call later;
- `Component.attests_over`: what their nodes read, over a run in which nobody else writes into them;
- `Component.delivers`: both, with all that a tick tells.
-/
import LiveMarkup.Proofs.Component.Legible

namespace LiveMarkup

open Document

variable {H : Host}

/-! ## What has been delivered -/

/-- the names that a call delivers to slot contents -/
def Component.brought (c : Component H) : Call NodeId → List String
  | .tick _ context => if c.state = .destroyed then [] else (c.core.dirty context).entries.names
  | _ => []

/-- texts in the slots that show a prop with one of these names say what the stored context has for it -/
def Component.Says (names : List String) (c : Component H) : Prop :=
  ∀ n ∈ c.slots, ∀ t, n.block = .text t → ∀ prop ∈ t.prop, prop ∈ names →
    (c.core.slotContext.get? prop).map Value.toText = some t.data

/-- a text in the second row was in the first, with the same prop and the same data -/
def SameTexts (row row' : List (Nested H)) : Prop :=
  ∀ n' ∈ row', ∀ t', n'.block = .text t' → ∃ n ∈ row, ∃ t, n.block = .text t ∧ t'.prop = t.prop ∧ t'.data = t.data

theorem SameTexts.refl (row : List (Nested H)) : SameTexts row row := fun n hn t ht => ⟨n, hn, t, ht, rfl, rfl⟩

theorem Component.Like.sameTexts {c c' : Component H} (h : c.Like values c') : SameTexts c.slots c'.slots := by
  intro n' hn' t' ht'
  obtain ⟨n, hn, -, hlike⟩ := mem_of_forall₂ (likeAll_iff.1 (Component.like_iff.1 h).2.1) hn'
  rw [ht'] at hlike
  cases hb : n.block with
  | text t =>
    rw [hb] at hlike
    exact ⟨n, hn, t, hb, hlike.1, hlike.2⟩
  | foreign f => rw [hb] at hlike; exact hlike.elim
  | component c => rw [hb] at hlike; exact hlike.elim

theorem Component.Says.of_same {names : List String} {c c' : Component H} (h : c.Says names)
    (hc : c'.core.slotContext = c.core.slotContext) (hs : SameTexts c.slots c'.slots) : c'.Says names := by
  intro n' hn' t' ht' prop hprop hin
  obtain ⟨n, hn, t, ht, hp, hd⟩ := hs n' hn' t' ht'
  rw [hc, hd]
  exact h n hn t ht prop (hp ▸ hprop) hin

section

variable [ForeignBlocks H]

def Component.delivered (c : Component H) : List (Call NodeId × World H) → List String
  | [] => []
  | e :: calls => c.brought e.1 ++ (c.call e.2 e.1).self.delivered calls

theorem transitionAll_sameTexts (t : Transition) (isLocal : Bool) (row : List (Nested H)) (w : World H) :
    SameTexts row (transitionAll t isLocal row w).1 := by
  induction row generalizing w with
  | nil => exact .refl []
  | cons n row ih =>
    obtain ⟨index, atRoot, block⟩ := n
    intro n' hn' t' ht'
    rcases List.mem_cons.1 hn' with rfl | hn'
    · cases block with
      | text x =>
        obtain rfl := Block.text.inj ht'
        exact ⟨_, List.mem_cons_self, x, rfl, rfl, rfl⟩
      | foreign f => cases ht'
      | component c => cases ht'
    · obtain ⟨m, hm, hsame⟩ := ih _ n' hn' t' ht'
      exact ⟨m, List.mem_cons_of_mem _ hm, hsame⟩

/-- a text in a slot after a tick that is told to all: if its prop is new in the context, it says what is new -/
theorem Component.Says.tick {names : List String} {c : Component H} (h : c.Says names) {incoming : Props}
    {context : Option Props} {w : World H} (hd : c.state ≠ .destroyed) (hs : c.Smooth w (.tick incoming context)) :
    (c.tick incoming context w).self.Says (names ++ (c.core.dirty context).entries.names) := by
  have hphase : c.core.phase ≠ .destroyed := fun hp => hd (congrArg Phase.state hp)
  obtain ⟨hcore, -, hslots, -⟩ := tick_given hphase incoming context w
  have hcontext := (c.core.taking_fields incoming context w).2.1
  have hgiven := updateRow_given (c.core.dirty context).offer c.slots (c.core.taking incoming context w).2
  have hok := hs hd
  intro n' hn' t' ht' prop hprop hin
  rw [hcore, hcontext, Props.get?_extend]
  rw [hslots] at hn'
  obtain ⟨n, hn, hnext⟩ := mem_of_forall₂ hgiven hn'
  -- unless the prop is new, the text says what it said
  have hsame : ∀ t, n.block = .text t → t'.prop = t.prop → t'.data = t.data → (c.core.dirty context).get? prop = none →
      (((c.core.dirty context).get? prop).or (c.core.slotContext.get? prop)).map Value.toText = some t'.data := by
    intro t ht hp hdata hnone
    have hold : prop ∈ names := (List.mem_append.1 hin).resolve_right (Entries.get?_eq_none_iff.1 hnone)
    rw [hnone, Option.none_or, hdata]
    exact h n hn t ht prop (hp ▸ hprop) hold
  cases hnext with
  | left _ hnone =>
    have hempty : (c.core.dirty context).isEmpty = true := by
      by_contra hno
      have := hnone hok
      rw [Props.offer, if_neg hno] at this
      cases this
    refine hsame t' ht' rfl rfl ?_
    rw [Props.get?, List.isEmpty_iff.1 hempty]
    rfl
  | @given index atRoot block changed u hoffer _ =>
    have hchanged : changed = c.core.dirty context := by
      rw [Props.offer] at hoffer
      split at hoffer
      · cases hoffer
      · exact (Option.some.inj hoffer).symm
    subst hchanged
    cases block with
    | foreign f => cases ht'
    | component c => cases ht'
    | text t =>
      obtain rfl : (t.update (c.core.dirty context) u).1 = t' := Block.text.inj ht'
      have hpropOld : t.prop = some prop := by
        have hkeep : (t.update (c.core.dirty context) u).1.prop = t.prop := by
          unfold TextBlock.update
          split <;> rfl
        rw [← hkeep]
        exact hprop
      cases hvalue : (c.core.dirty context).get? prop with
      | none =>
        have hstill : (t.update (c.core.dirty context) u).1 = t := by
          rw [TextBlock.update, hpropOld, Option.bind_some, hvalue]
        rw [← hvalue]
        exact hsame t rfl (congrArg _ hstill) (congrArg _ hstill) hvalue
      | some value =>
        rw [Option.some_or, TextBlock.update, hpropOld, Option.bind_some, hvalue]
        rfl

/-- one call later, the texts in the slots say what the stored context has, for what the call has delivered as well -/
theorem Component.Says.call {names : List String} {c : Component H} (h : c.Says names) {call : Call NodeId} {w : World H}
    (hs : c.Smooth w call) : (c.call w call).self.Says (names ++ c.brought call) := by
  have hempty : ∀ c' : Component H, c'.Says names → c'.Says (names ++ []) := fun c' h' => by
    rw [List.append_nil]
    exact h'
  have hvalues : ∀ c' : Component H, c.Like values c' → c'.Says (names ++ []) := fun c' hlike =>
    hempty c' (h.of_same (Component.like_iff.1 hlike).1.slotContext hlike.sameTexts)
  have hrefused : c.state = .destroyed → ∀ incoming context, (c.tick incoming context w).self = c := by
    intro hd incoming context
    obtain ⟨core, slots, children⟩ := c
    exact congrArg Outcome.self (if_pos (Phase.eq_destroyed_of hd))
  cases call with
  | create => exact hvalues _ (c.create_values w)
  | mount target anchor => exact hvalues _ (c.mount_values target anchor w)
  | destroy detaching => exact hvalues _ (c.destroy_values detaching w)
  | update changed =>
    obtain ⟨core, slots, children⟩ := c
    refine hempty _ (h.of_same ?_ ?_)
    · rw [call_update, update_mk]
      split
      · rfl
      · exact (core.applyEntries_fields w changed).2.1
    · rw [call_update, update_mk]
      split
      · exact .refl _
      · exact .refl _
  | transition t isLocal =>
    obtain ⟨core, slots, children⟩ := c
    exact hempty _ (h.of_same rfl (transitionAll_sameTexts t isLocal slots w))
  | set incoming =>
    by_cases hd : c.state = .destroyed
    · rw [call_set, set, hrefused hd]
      exact hempty c h
    · refine h.tick hd fun _ => ?_
      rw [show (c.core.dirty none).offer = fun _ => none from rfl, updateRow_none fun _ => rfl]
      rfl
  | tick incoming context =>
    by_cases hd : c.state = .destroyed
    · rw [call_tick, hrefused hd, brought, if_pos hd]
      exact hempty c h
    · rw [brought, if_neg hd]
      exact h.tick hd hs

theorem Component.Says.over {names : List String} {c : Component H} (h : c.Says names)
    {calls : List (Call NodeId × World H)} (hs : c.SmoothOver calls) : (c.over calls).Says (names ++ c.delivered calls) := by
  induction calls generalizing names c with
  | nil =>
    rw [delivered, List.append_nil]
    exact h
  | cons e calls ih =>
    have hnext := ih (h.call hs.1) hs.2
    rw [List.append_assoc] at hnext
    exact hnext

/-! ## What nodes read -/

/-- whatever has happened to the document, nobody has written into the texts of this component -/
structure Component.Undisturbed (c : Component H) (w w' : World H) : Prop where
  intact : w'.document.Intact
  fresh : w.document.fresh ≤ w'.document.fresh
  reads : ∀ x ∈ nodesOf c.lines, ∀ data, w.document.Reads x data → w'.document.Reads x data

/-- before the first call, between the calls and after the last one, nobody writes into the texts of the component -/
def Component.UndisturbedOver (c : Component H) (w : World H) : List (Call NodeId × World H) → World H → Prop
  | [], w' => c.Undisturbed w w'
  | e :: calls, w' => c.Undisturbed w e.2 ∧ (c.call e.2 e.1).self.UndisturbedOver (c.call e.2 e.1).world calls w'

theorem Component.Undisturbed.attests {c : Component H} {w w' : World H} (h : c.Undisturbed w w')
    (ha : w.document.Attests c.lines) : w'.document.Attests c.lines :=
  ⟨ha.nodup, fun x hx => Nat.lt_of_lt_of_le (ha.known x hx) h.fresh,
    fun x data hx => h.reads x (mem_nodesOf hx) data (ha.reads x data hx)⟩

theorem Component.attests_over (hf : ForeignBlocks.Careful H) {c : Component H} (hq : (Block.component c).Silent)
    {w w' : World H} {calls : List (Call NodeId × World H)} (hs : c.SmoothOver calls)
    (hu : c.UndisturbedOver w calls w') (ha : w.document.Attests c.lines) :
    w'.document.Attests (c.over calls).lines := by
  induction calls generalizing c w with
  | nil => exact Undisturbed.attests hu ha
  | cons e calls ih =>
    have hcall := writes_call hf hq hs.1 hu.1.intact
    exact ih hcall.silent hs.2 hu.2 (hcall.rewords.right (hu.1.attests ha))

/-- calls that are made in one world, each with the world as it is then -/
def Component.inOne (c : Component H) (w : World H) : List (Call NodeId) → List (Call NodeId × World H)
  | [] => []
  | call :: calls => (call, w) :: (c.call w call).self.inOne (c.call w call).world calls

theorem Component.Undisturbed.refl {c : Component H} {w : World H} (hd : w.document.Intact) : c.Undisturbed w w :=
  ⟨hd, Nat.le_refl _, fun _ _ _ h => h⟩

/-- nobody writes into the texts of a component that is alone in a world -/
theorem Component.undisturbed_inOne (hf : ForeignBlocks.Careful H) {c : Component H} (hq : (Block.component c).Silent)
    {w : World H} (hd : w.document.Intact) {calls : List (Call NodeId)} (hs : c.SmoothOver (c.inOne w calls)) :
    c.UndisturbedOver w (c.inOne w calls) (c.run w calls).2 := by
  induction calls generalizing c w with
  | nil => exact .refl hd
  | cons call calls ih =>
    have hcall := writes_call hf hq hs.1 hd
    exact ⟨.refl hd, ih hcall.silent hcall.rewords.intact hs.2⟩

theorem mem_linesIn {row : List (Nested H)} {n : Nested H} (hn : n ∈ row) {t : TextBlock} (ht : n.block = .text t)
    {x : NodeId} (hx : x ∈ t.node) : (x, some t.data) ∈ linesIn row := by
  induction row with
  | nil => exact absurd hn List.not_mem_nil
  | cons m row ih =>
    obtain ⟨index, atRoot, block⟩ := m
    rw [linesIn]
    rcases List.mem_cons.1 hn with rfl | hn
    · obtain rfl : block = .text t := ht
      exact List.mem_append_left _ (List.mem_map_of_mem (f := fun y : NodeId => ((y, some t.data) : Line))
        (Option.mem_toList.2 hx))
    · exact List.mem_append_right _ (ih hn)

/-! ## Runs -/

omit [ForeignBlocks H] in
/-- an instance writes into no texts of others if no action in its templates does, nor anything in its slots -/
theorem Component.furnished_silent {t : Template (Action H)} {options : Options H}
    (ht : t.Everywhere Template.Silent) (hslots : ∀ e ∈ options.slots, e.2.Silent) (w : World H) :
    (Block.component (furnished t options w)).Silent := by
  have heach := (ofTemplate_instance t options.props w).each ht
  have hidle := (ofTemplate_instance t options.props w).idle
  have hsilent : (ofTemplate t options.props w).1.Each Core.Silent fun _ => True := by
    refine Each.imp (fun core h => ⟨h.1, ?_, ?_⟩) (fun _ _ => trivial) (Each.and heach hidle)
    · rw [h.2.cleanups]
      exact fun _ _ hin => absurd hin List.not_mem_nil
    · rw [h.2.updateHooks]
      exact List.forall_mem_nil _
  unfold furnished
  generalize (ofTemplate t options.props w).1 = c at hsilent
  obtain ⟨core, slots, children⟩ := c
  refine silent_mk.2 ⟨⟨hsilent.1.actions, hsilent.1.cleanups, hsilent.1.updateHooks⟩, fun n hn => ?_,
    eachOf_iff.1 hsilent.2.2⟩
  obtain ⟨e, he, hb⟩ := mem_fillSlots hn
  exact hb ▸ hslots e he

/-- **What ticks deliver.** Over a run in which no mount fails and no slot content refuses what it is told: a tick of the
component, unless it is destroyed, succeeds. It tells all slot contents, each once, the entries of the context that are
absent from the stored one or different in it, or nobody if there are none; then the stored context has these entries over
what it had. After that it tells each child once what is forwarded to it of the props that have changed, or not at all if
none of those has. So a text in a slot says what the stored context has for its prop as soon as that has been delivered
once; and if nobody else writes into the texts of the component, its node reads that, whether or not the component has been
destroyed and mounted again. -/
theorem Component.delivers {t : Template (Action H)} {options : Options H}
    (honce : ∀ u bindings, .child u bindings ∈ t.placeholders → (bindings.map Binding.child).Nodup)
    (hslots : ∀ e ∈ options.slots, e.2.Orderly) (w₀ : World H) {calls : List (Call NodeId × World H)}
    (hs : (furnished t options w₀).SmoothOver calls) :
    let now := (furnished t options w₀).over calls
    (∀ incoming context w, now.state ≠ .destroyed → now.Smooth w (.tick incoming context) →
      let changed := now.props.changes incoming
      now.Delivers incoming context w (now.tick incoming context w) ∧
      (∀ e, e ∈ (now.core.dirty context).entries ↔
        ∃ given ∈ context, e ∈ given.entries ∧ ∀ old ∈ now.core.slotContext.get? e.1, old.same e.2 = false) ∧
      ∀ n ∈ now.children, ∃ u bindings, now.core.template.placeholders[n.index]? = some (.child u bindings) ∧
        (∀ name value, (forwardedTo now.core.template.placeholders changed n.index).bind (·.get? name) = some value ↔
          ∃ b ∈ bindings, b.child = name ∧ changed.get? b.outer = some value) ∧
        (forwardedTo now.core.template.placeholders changed n.index = none ↔
          ∀ b ∈ bindings, changed.get? b.outer = none)) ∧
    ∀ n ∈ now.slots, ∀ b, n.block = .text b → ∀ prop ∈ b.prop, prop ∈ (furnished t options w₀).delivered calls →
      (now.core.slotContext.get? prop).map Value.toText = some b.data ∧
      ∀ w w', ForeignBlocks.Careful H → (Block.component (furnished t options w₀)).Silent →
        w.document.Attests (furnished t options w₀).lines → (furnished t options w₀).UndisturbedOver w calls w' →
          ∀ x ∈ b.node, w'.document.Reads x b.data := by
  intro now
  have hready : now.Ready t := (furnished_ready hslots w₀).over hs
  have hstart : (furnished t options w₀).Says [] := fun _ _ _ _ _ _ h => absurd h List.not_mem_nil
  have htold := hstart.over hs
  refine ⟨fun incoming context w hd hsmooth => ⟨hready.tick hd hsmooth, fun e => Core.mem_dirty, fun n hn => ?_⟩,
    fun n hn b hb prop hprop hin => ⟨htold n hn b hb prop hprop hin, fun w w' hf hq ha hu x hx => ?_⟩⟩
  · obtain ⟨u, bindings, hplace⟩ := hready.placed hn
    have hnodup := honce u bindings (List.mem_of_getElem? hplace)
    rw [hready.template]
    exact ⟨u, bindings, hplace, forwardedTo_iff hplace hnodup _, forwardedTo_eq_none_iff hplace hnodup _⟩
  · have hattests := attests_over hf hq hs hu ha
    have hline : (x, some b.data) ∈ now.lines := by
      have hrow := mem_linesIn hn hb hx
      generalize now = c at hrow
      obtain ⟨core, slots, children⟩ := c
      exact List.mem_append_right _ (List.mem_append_left _ hrow)
    exact hattests.reads x b.data hline

end

/-! ## Recorders -/

/-- what a recorder does is written to the log, and goes on unless it is to fail -/
theorem Script.Recorder.writes_record {r₀ : Recorder} (r : Recorder) {w₀ w : ScriptWorld}
    (hbefore : Rewords (Block.lines (.foreign r₀ : Block host)) (Block.lines (.foreign r : Block host)) w₀.document
      w.document) (call : RecordedCall) (detail : Detail) {go : ScriptWorld → Recorder × ScriptWorld}
    (hgo : ∀ u : ScriptWorld, u.document = w.document →
      Rewords (Block.lines (.foreign r₀ : Block host)) (Block.lines (.foreign (go u).1 : Block host)) w₀.document
        (go u).2.document) :
    (Block.foreign r₀ : Block host).Writes (.foreign (r.record w call detail go).self) w₀
      (r.record w call detail go).world := by
  rw [record]
  dsimp only
  split
  · exact ⟨hbefore, trivial⟩
  · exact ⟨hgo _ rfl, trivial⟩

/-- recorders write into no texts -/
theorem Script.careful : ForeignBlocks.Careful host where
  create r w hd := by
    refine Recorder.writes_record r (.refl hd _) .create .nothing fun u hu => ?_
    have hnew := rewords_add_none hd (.element "i" [("id", r.label)])
    rw [← hu] at hnew ⊢
    exact (Rewords.sublist (hu ▸ hd) (List.nil_sublist _)).trans hnew
  mount r target anchor w hd := by
    refine Recorder.writes_record r (.refl hd _) .mount _ fun u hu => ?_
    dsimp only
    cases r.element with
    | none => rw [hu]; exact .refl hd _
    | some id =>
      have hmoved := (writes_insertBefore hd target id anchor).rewords
      rw [← hu] at hmoved ⊢
      exact hmoved.frame _
  update r changed w hd := Recorder.writes_record r (.refl hd _) .update _ fun u hu => by rw [hu]; exact .refl hd _
  transition r t isLocal w hd := ⟨.refl hd _, trivial⟩
  destroy r detaching w hd := by
    have hkept : Rewords (Block.lines (.foreign r : Block host)) [] w.document w.document :=
      Rewords.sublist hd (List.nil_sublist _)
    obtain ⟨label, fails, element⟩ := r
    have hrecorded : ∀ u : ScriptWorld, Rewords (Block.lines (.foreign ⟨label, fails, element⟩ : Block host)) [] w.document
        u.document → (Block.foreign ⟨label, fails, element⟩ : Block host).Writes
          (.foreign (Recorder.record ⟨label, fails, none⟩ u .destroy (.flag detaching) (⟨label, fails, none⟩, ·)).self) w
          (Recorder.record ⟨label, fails, none⟩ u .destroy (.flag detaching) (⟨label, fails, none⟩, ·)).world :=
      fun u h => Recorder.writes_record _ h .destroy _ fun v hv => by rw [hv]; exact h
    cases element with
    | none => exact hrecorded w hkept
    | some id =>
      cases detaching with
      | false => exact hrecorded w hkept
      | true => exact hrecorded _ (hkept.trans (writes_detach hd id).rewords)

/-! ## A text that comes back -/

/-- a stack with a text in its slot that shows the number of the context -/
def Component.numbered : Component Script.host :=
  furnished Template.stacked (Options.around (.text (.bound "number" "none"))) World.blank

def Component.numberedLife : List (Call NodeId) :=
  [.mount 0 none, .tick ∅ (some (Props.ofList [("number", .int 1)])), .destroy true, .mount 0 none]

/-- a text in a slot, with its place -/
def Nested.text? : Nested H → Option (Nat × Bool × TextBlock)
  | .mk index atRoot (.text t) => some (index, atRoot, t)
  | _ => none

theorem Nested.text?_eq_some {n : Nested H} {index : Nat} {atRoot : Bool} {t : TextBlock}
    (h : n.text? = some (index, atRoot, t)) : n = .mk index atRoot (.text t) := by
  obtain ⟨i, r, block⟩ := n
  cases block with
  | text u =>
    cases h
    rfl
  | foreign f => cases h
  | component c => cases h

/-- the text still reads what it was told before -/
theorem Component.delivers_numbered :
    ∃ b, .mk 0 true (.text b) ∈ (numbered.over (numbered.inOne World.blank numberedLife)).slots ∧ b.data = "1" ∧
      ∃ x ∈ b.node, (numbered.run World.blank numberedLife).2.document.Reads x "1" := by
  have hsmooth : numbered.SmoothOver (numbered.inOne World.blank numberedLife) := by decide +kernel
  have hintact : World.blank.document.Intact := intact_empty.add (.element "body" [])
  have hslot : ∀ e ∈ (Options.around (.text (.bound "number" "none"))).slots,
      e.2 = (.text (.bound "number" "none") : Block Script.host) := fun e he => by rw [List.mem_singleton.1 he]
  have hstacked : (Template.stacked : Template (Action Script.host)).Everywhere Template.Silent := by
    refine ⟨fun run param h => ?_, ⟨fun run param h => ?_, trivial⟩, trivial⟩
    · cases h with
      | tail _ h => cases h with
        | tail _ h => cases h
    · cases h with
      | tail _ h => cases h with
        | tail _ h => cases h
  have hsilent : (Block.component numbered).Silent :=
    furnished_silent hstacked (fun e he => hslot e he ▸ trivial) World.blank
  have honce : ∀ u bindings, .child u bindings ∈ (Template.stacked : Template (Action Script.host)).placeholders →
      (bindings.map Binding.child).Nodup := by
    intro u bindings hu
    cases hu with
    | tail _ hu => cases hu with
      | head => decide
      | tail _ hu => cases hu
  obtain ⟨-, hreads⟩ := delivers honce (show ∀ e ∈ (Options.around (.text (.bound "number" "none"))).slots,
    e.2.Orderly from fun e he => hslot e he ▸ Block.text_orderly _) World.blank hsmooth
  have htext : (numbered.over (numbered.inOne World.blank numberedLife)).slots.map Nested.text? =
      [some (0, true, ⟨some "number", "1", some 18⟩)] := by decide +kernel
  have hin : Nested.mk 0 true (.text ⟨some "number", "1", some 18⟩) ∈
      (numbered.over (numbered.inOne World.blank numberedLife)).slots := by
    obtain ⟨n, hslots, hn⟩ := List.map_eq_singleton_iff.1 htext
    rw [hslots, Nested.text?_eq_some hn]
    exact List.mem_singleton.2 rfl
  have hdelivered : "number" ∈ numbered.delivered (numbered.inOne World.blank numberedLife) := by decide +kernel
  obtain ⟨-, hreads⟩ := hreads _ hin _ rfl "number" rfl hdelivered
  exact ⟨_, hin, rfl, 18, rfl, hreads World.blank _ Script.careful hsilent attests_nil
    (undisturbed_inOne Script.careful hsilent hintact hsmooth) 18 rfl⟩

end LiveMarkup
