/-
Two ways to rename attributes, and components on top of either.

A backend renames an attribute in its place, or it takes it off and sets the new one. The lists that this leaves differ.
What is looked up in them does not, as long as the old name is there once, and components only rename markers, which are.
So a component that is started in one document through either backend, and is handed the same calls, is the same component
with the same results, in documents of the same shape, with the same texts and the same attributes.

- `Component.start_impartial`: starting in two worlds that look the same;
- `Script.ActionSpec.action_impartial`, `Script.recorders_impartial`: what scripts bring along takes part;
- `renamings_agree`: attribute lists, and whole lives of components.
-/
import LiveMarkup.Proofs.Component.PeersMount
import LiveMarkup.Proofs.Component.Lifecycle

namespace LiveMarkup

variable {H : Host} {τ : Terms H} {w w' : World H}

/-! ## Instances -/

/-- a component that is neither created nor mounted takes part if its template does -/
theorem Core.Impartial.instance {c : Core H} (ht : c.template.Sound ∧ c.template.Impartial τ) (hp : c.phase = .unmounted)
    (htexts : c.textCells = []) (hcells : c.attributeCells = []) (hcleanups : c.cleanups = [])
    (hhooks : c.updateHooks = []) : c.Impartial τ where
  sound := ht.1
  actions := ht.2
  fragment x hx := by rw [hp] at hx; exact absurd hx (Option.not_mem_none _)
  texts := htexts ▸ List.forall_mem_nil _
  cells := hcells ▸ List.forall_mem_nil _
  cleanups := hcleanups ▸ List.forall_mem_nil _
  hooks := hhooks ▸ List.forall_mem_nil _

/-- an instance takes part if its template does everywhere -/
theorem Component.InstanceOf.impartial {t : Template (Action H)} {props : Props} {c : Component H}
    (h : c.InstanceOf t props) (ht : t.Everywhere fun t => t.Sound ∧ t.Impartial τ) :
    (Block.component c).Impartial τ := by
  induction h with
  | mk channel indices flags placed kids ih =>
    refine impartial_mk.2 ⟨.instance ht.self rfl rfl rfl rfl rfl, List.forall_mem_nil _, fun n hn => ?_⟩
    obtain ⟨u, bindings, child, hp, hblock⟩ := placed n hn
    rw [hblock]
    exact ih n hn u bindings child hp hblock (ht.child hp)

/-- an instance is the same in both worlds -/
theorem ofTemplate_peers (t : Template (Action H)) (props : Props) (w w' : World H) (h : w.Peers τ w') :
    (Component.ofTemplate t props w').1 = (Component.ofTemplate t props w).1 ∧
      (Component.ofTemplate t props w).2.Peers τ (Component.ofTemplate t props w').2 := by
  refine (Component.ofTemplate.mutual_induct
    (fun t props w => ∀ w', w.Peers τ w' →
      (Component.ofTemplate t props w').1 = (Component.ofTemplate t props w).1 ∧
        (Component.ofTemplate t props w).2.Peers τ (Component.ofTemplate t props w').2)
    (fun index ps props w => ∀ w', w.Peers τ w' → (childrenOf index ps props w').1 = (childrenOf index ps props w).1 ∧
      (childrenOf index ps props w).2.Peers τ (childrenOf index ps props w').2) ?_ ?_ ?_ ?_).1 t props w w' h
  · intro segments placeholders skeleton props w opened channel hopened children made hchildren ih w' h
    obtain rfl : w.openChannel.1 = opened := congrArg Prod.fst hopened
    obtain ⟨hopened', hchannel⟩ := h.openChannel
    obtain ⟨hrow, hworld⟩ := ih _ hopened'
    rw [Component.ofTemplate, Component.ofTemplate]
    dsimp only
    rw [hchannel, hrow]
    exact ⟨rfl, hworld⟩
  · exact fun _ _ _ _ h => ⟨rfl, h⟩
  · intro index t bindings ps props w c made hc children rest hchildren ihc ihps w' h
    obtain ⟨hcomponent, hmade⟩ := ihc w' h
    rw [hc] at hcomponent hmade
    obtain ⟨hrow, hworld⟩ := ihps _ hmade
    rw [childrenOf, childrenOf, hc]
    dsimp only
    rw [hcomponent, hrow]
    exact ⟨rfl, hworld⟩
  · intro index p ps props w hp ih w' h
    rw [childrenOf_of_not_child hp, childrenOf_of_not_child hp]
    exact ih w' h

/-! ## Starting -/

theorem World.Peers.detachAll (ids : List NodeId) (h : w.Peers τ w') :
    (ids.foldl (fun w id => w.edit (·.detach id)) w).Peers τ (ids.foldl (fun w id => w.edit (·.detach id)) w') := by
  induction ids generalizing w w' with
  | nil => exact h
  | cons id ids ih => exact ih (h.detach id)

theorem serverRendered_congr (t : Template (Action H)) (props : Props) (h : w.document.Alike w'.document)
    (target : NodeId) (anchor : Option NodeId) :
    serverRendered t props w' target anchor = serverRendered t props w target anchor := by
  unfold serverRendered
  rw [h.children]

theorem dropEntries_impartial {blocks : Entries (Block H)} (hb : ∀ e ∈ blocks, e.2.Impartial τ)
    (h : w.Peers τ w') : (dropEntries blocks w).Peers τ (dropEntries blocks w') := by
  unfold dropEntries
  induction blocks generalizing w w' with
  | nil => exact h
  | cons e blocks ih =>
    rw [List.forall_mem_cons] at hb
    exact ih hb.2 (hb.1.drop h)

namespace Component

variable {t : Template (Action H)} {options : Options H}

/-- an instance with the contents of its slots -/
theorem furnished_impartial (ht : t.Everywhere fun t => t.Sound ∧ t.Impartial τ)
    (hs : ∀ e ∈ options.slots, e.2.Impartial τ) (h : w.Peers τ w') :
    furnished t options w' = furnished t options w ∧ (Block.component (furnished t options w)).Impartial τ := by
  have hsame := (ofTemplate_peers t options.props w w' h).1
  have hkept := (ofTemplate_instance t options.props w).impartial ht
  unfold furnished
  rw [hsame]
  generalize (ofTemplate t options.props w).1 = c at hkept
  obtain ⟨core, slots, children⟩ := c
  obtain ⟨hcore, -, hchildren⟩ := impartial_mk.1 hkept
  refine ⟨rfl, impartial_mk.2 ⟨{ hcore with }, fun n hn => ?_, hchildren⟩⟩
  obtain ⟨e, he, hb⟩ := mem_fillSlots hn
  exact hb ▸ hs e he

variable [ForeignBlocks H]

/-- **Starting** in both worlds. -/
theorem start_impartial (hhost : ForeignBlocks.Impartial τ) (ht : t.Everywhere fun t => t.Sound ∧ t.Impartial τ)
    (hs : ∀ e ∈ options.slots, e.2.Impartial τ) (h : w.Peers τ w') :
    (start t options w').2 = (start t options w).2 ∧ (start t options w).1.Peers τ (start t options w').1 ∧
      ∀ c, (start t options w).2 = .ok c → (Block.component c).Impartial τ := by
  obtain ⟨hsame, hinstance⟩ := furnished_impartial ht hs h
  have hmade := (ofTemplate_peers t options.props w w' h).2
  have hleft : ∀ e ∈ (fillSlots 0 t.placeholders options.slots).2, e.2.Impartial τ :=
    fun e he => hs e (mem_left_fillSlots he)
  cases htarget : options.target with
  | none =>
    have hstart : ∀ v : World H, start t options v = (dropEntries (fillSlots 0 t.placeholders options.slots).2
        (ofTemplate t options.props v).2, .ok (furnished t options v)) := by
      intro v
      rw [start, htarget]
      rfl
    rw [hstart, hstart, hsame]
    exact ⟨rfl, dropEntries_impartial hleft hmade, fun c hc => Except.ok.inj hc ▸ hinstance⟩
  | some target =>
    have hcleared : (w.cleared t options target).Peers τ (w'.cleared t options target) := by
      rw [World.cleared, World.cleared, serverRendered_congr t options.props hmade.alike]
      split
      · exact hmade.detachAll _
      · exact hmade
    obtain ⟨mounted, result, u, u', ho, ho', hu, hmounted⟩ :=
      (mount_impartial hhost hinstance hcleared target options.anchor).parts
    rw [start_eq htarget, start_eq htarget, hsame, ho, ho']
    cases result with
    | error fault => exact ⟨rfl, dropEntries_impartial hleft (hmounted.drop hu), fun _ hc => by cases hc⟩
    | ok => exact ⟨rfl, dropEntries_impartial hleft hu, fun c hc => Except.ok.inj hc ▸ hmounted⟩

end Component

/-! ## Scripts -/

namespace Script

/-- a recorder whose element is newer -/
def Recorder.Newer (m : NodeId) (r : Recorder) : Prop := ∀ x ∈ r.element, m ≤ x

/-- the logs are not compared: actions write down markup -/
def terms (m : NodeId) : Terms host := ⟨m, fun _ _ => True, Recorder.Newer m⟩

variable {m : NodeId} {w w' : ScriptWorld}

theorem log_peers (h : w.Peers (terms m) w') (e e' : Entry) : (log w e).Peers (terms m) (log w' e') :=
  { h with outside := trivial }

/-- the actions of scripts take part: what they show does not depend on the document -/
theorem ActionSpec.action_impartial (a : ActionSpec) (param : Option String) :
    Action.Impartial (terms m) (a.action param) := by
  have hdisplay : ∀ x value (w w' : ScriptWorld), w.Peers (terms m) w' →
      (a.display x value w).Peers (terms m) (a.display x value w') := by
    intro x value w w' h
    unfold ActionSpec.display
    split
    · exact h.setAttribute x _ _
    · exact h
  intro x value w w' _ h
  refine ⟨hdisplay x value _ _ (log_peers h _ _), rfl, fun run hrun given u u' hu => ?_, fun run hrun u u' hu => ?_⟩
  · obtain ⟨-, hrun⟩ := Option.ite_none_right_eq_some.1 hrun
    obtain rfl := Option.some.inj hrun
    exact hdisplay x (some given) _ _ (log_peers hu _ _)
  · obtain ⟨-, hrun⟩ := Option.ite_none_right_eq_some.1 hrun
    obtain rfl := Option.some.inj hrun
    unfold ActionSpec.onDestroy
    cases a.shows with
    | none => exact log_peers hu _ _
    | some name => exact (log_peers hu _ _).removeAttribute x name

/-- what a recorder does in both worlds is written to both logs -/
theorem Recorder.Newer.record {r : Recorder} (hr : r.Newer m) (h : w.Peers (terms m) w') (call : RecordedCall)
    (detail detail' : Detail) {go : ScriptWorld → Recorder × ScriptWorld}
    (hgo : ∀ u u' : ScriptWorld, u.Peers (terms m) u' →
      (go u').1 = (go u).1 ∧ (go u).2.Peers (terms m) (go u').2 ∧ (go u).1.Newer m) :
    Outcome.Coincide (terms m) (Recorder.Newer m) (r.record w call detail go) (r.record w' call detail' go) := by
  have hlogged := log_peers h (.recorded r.label call detail) (.recorded r.label call detail')
  unfold Recorder.record
  dsimp only
  split
  · exact ⟨rfl, rfl, hlogged, hr⟩
  · obtain ⟨hsame, hworld, hkept⟩ := hgo _ _ hlogged
    exact ⟨hsame, rfl, hworld, hkept⟩

section

variable {r : Recorder} (hr : r.Newer m) (h : w.Peers (terms m) w')
include hr h

theorem Recorder.Newer.create :
    Outcome.Coincide (terms m) (Recorder.Newer m) (r.create w) (r.create w') := by
  refine hr.record h .create .nothing .nothing fun u u' hu => ?_
  obtain ⟨hadded, hid, hnew⟩ := hu.add (.element "i" [("id", r.label)]) fun index _ =>
    List.nodup_iff_count_le_one.1 (List.nodup_singleton _) _
  dsimp only
  rw [hid]
  exact ⟨rfl, hadded, fun x hx => Option.some.inj hx ▸ hnew⟩

theorem Recorder.Newer.mount (target : NodeId) (anchor : Option NodeId) :
    Outcome.Coincide (terms m) (Recorder.Newer m) (r.mount target anchor w) (r.mount target anchor w') := by
  refine hr.record h .mount _ _ fun u u' hu => ⟨rfl, ?_, hr⟩
  dsimp only
  cases hx : r.element with
  | none => exact hu
  | some x => exact hu.insertBefore target (hr x hx) anchor

theorem Recorder.Newer.update (changed : Props) :
    Outcome.Coincide (terms m) (Recorder.Newer m) (r.update changed w) (r.update changed w') :=
  hr.record h .update (.props changed) (.props changed) fun _ _ hu => ⟨rfl, hu, hr⟩

omit hr in
theorem Recorder.destroy_impartial (detaching : Bool) :
    Outcome.Coincide (terms m) (Recorder.Newer m) (r.destroy detaching w) (r.destroy detaching w') := by
  have hempty : Recorder.Newer m { r with element := none } := fun x hx => absurd hx (Option.not_mem_none x)
  unfold Recorder.destroy
  refine hempty.record ?_ .destroy (.flag detaching) (.flag detaching) fun _ _ hu => ⟨rfl, hu, hempty⟩
  cases r.element with
  | none => exact h
  | some x =>
    cases detaching with
    | false => exact h
    | true => exact h.detach x

end

/-- recorders take part -/
theorem recorders_impartial : ForeignBlocks.Impartial (terms m) where
  create _ _ _ hr h := Recorder.Newer.create hr h
  mount target anchor _ _ _ hr h := Recorder.Newer.mount hr h target anchor
  update changed _ _ _ hr h := Recorder.Newer.update hr h changed
  destroy detaching _ _ _ _ h := Recorder.destroy_impartial h detaching
  transition _ _ _ _ _ hr h := ⟨rfl, log_peers h _ _, hr⟩

end Script

/-! ## A template whose attributes change places -/

namespace Template

variable {A : Type}

/-- a paragraph with a bound title, an action, a language, and a slot -/
def labelled (run : A) : Template A :=
  ⟨["<p title=", " ", " lang=\"en\">", "</p>"], [.attribute "name" "title", .action run (some "name"), .slot "main"],
    [.element "p" [("data-attribute-0", ""), ("data-action-1", ""), ("lang", "en")] [.element "mc-slot-2" [] []]]⟩

theorem labelled_accepted (run : A) : (labelled run).Everywhere Accepted := by
  refine ⟨⟨["<p title=", " ", " lang=\"en\">", "</p>"],
    [.name "name", .directive (.action run (some "name")), .directive (.slot (some "main"))],
    define_eq_ok (c := ⟨["<p ", " ", " lang=\"en\">", "</p>"],
      [.attribute "name" "title", .action run (some "name"), .slot "main"]⟩) rfl ?_ rfl⟩, trivial⟩
  rw [skeletonSource_congr ([.attribute "" "", .action () none, .slot ""] : List (Placeholder Unit Unit)) rfl]
  show Markup.read (skeletonSource 0 ["<p ", " ", " lang=\"en\">", "</p>"] _) = _
  decide +kernel

theorem labelled_markerFree (run : A) : (labelled run).Everywhere MarkerFree := by
  have hall : ∀ segment ∈ ["<p title=", " ", " lang=\"en\">", "</p>"], ∀ category ∈ Category.all,
      ¬ (Marker.stem category).toList <:+: lowerChars segment.toList := by
    decide +kernel
  exact ⟨fun segment h category => hall segment h category (by cases category <;> decide), trivial⟩

theorem labelled_impartial {run : Action H} (hr : Action.Impartial τ run) :
    (labelled run).Everywhere (Template.Impartial τ) := by
  refine ⟨fun run' param h => ?_, trivial⟩
  cases h with
  | tail _ h => cases h with
    | head => exact hr
    | tail _ h => cases h with
      | tail _ h => cases h

end Template

/-- the paragraph with an action that shows the name in another attribute as well -/
def Template.shown : Template (Action Script.host) :=
  labelled ((⟨"show", ⟨true, true⟩, some "alt"⟩ : Script.ActionSpec).action (some "name"))

def Options.labelled : Options Script.host :=
  { Options.around (.foreign ⟨"guest", [], none⟩) with props := Props.ofList [("name", .str "a")], target := some 0 }

/-! ## Two backends -/

/-- the same world with a backend that renames attributes in place, or with one that does not -/
def World.renaming (w : World H) (inPlace : Bool) : World H :=
  { w with backend := { w.backend with renamesInPlace := inPlace } }

/-- **Renaming in place, and taking off and setting.** In a list with the old name at most once, every look-up comes to the
same after both: the value at the new name, nothing at the old one, and what it was at others. If the old name is there, the
first way leaves the new name once, where the old one was among the attributes that remain. So accepted templates whose
literals hold no stem of a marker come to the same on both backends: starting an instance gives the same result, any calls
leave the same component, of which any further call has the same result, and the documents read alike. The actions of the
templates, and the blocks in slots, must not tell the documents apart themselves. -/
theorem renamings_agree :
    (∀ (attributes : Attributes) (source target value : String), attributes.names.count source ≤ 1 →
      (∀ name, (attributes.rename source target value).get? name =
        if name = target then some value else if name = source then none else attributes.get? name) ∧
      (∀ name, ((attributes.erase source).set target value).get? name =
        if name = target then some value else if name = source then none else attributes.get? name) ∧
      (source ∈ attributes.names → ∃ (before : Attributes) (old : String) (after : Attributes),
        attributes = before ++ (source, old) :: after ∧
        attributes.rename source target value = before.erase target ++ (target, value) :: after.erase target ∧
        (attributes.rename source target value).names.count target = 1)) ∧
    ∀ {H : Host} [ForeignBlocks H] {τ : Terms H} {t : Template (Action H)} {options : Options H} {w : World H},
      t.Everywhere Template.Accepted → t.Everywhere Template.MarkerFree → t.Everywhere (Template.Impartial τ) →
      (∀ e ∈ options.slots, e.2.Impartial τ) → ForeignBlocks.Impartial τ → w.document.Neat τ.floor →
      τ.outside w.outside w.outside →
      let inPlace := Component.start t options (w.renaming true)
      let anew := Component.start t options (w.renaming false)
      anew.2 = inPlace.2 ∧ inPlace.1.document.ReadsAlike anew.1.document ∧
      ∀ c, inPlace.2 = .ok c → ∀ calls : List (Call NodeId),
        (c.run anew.1 calls).1 = (c.run inPlace.1 calls).1 ∧
        (c.run inPlace.1 calls).2.document.ReadsAlike (c.run anew.1 calls).2.document ∧
        ∀ call, ((c.run anew.1 calls).1.call (c.run anew.1 calls).2 call).result =
          ((c.run inPlace.1 calls).1.call (c.run inPlace.1 calls).2 call).result := by
  constructor
  · intro attributes source target value honce
    refine ⟨Entries.get?_rename_once honce target value, Entries.get?_erase_set attributes source target value,
      fun hsource => ?_⟩
    obtain ⟨before, old, after, rfl, -⟩ := Entries.exists_split hsource
    obtain ⟨hplace, hcount⟩ := Entries.rename_in_place honce target value
    exact ⟨before, old, after, rfl, hplace, hcount⟩
  · intro H _ τ t options w haccepted hfree hactions hslots hhost hw houtside inPlace anew
    have hsound : t.Everywhere Template.Sound := haccepted.sound hfree
    have ht : t.Everywhere fun t => t.Sound ∧ t.Impartial τ :=
      Template.Everywhere.imp (fun _ hs hi => ⟨hs, hi⟩) t hsound hactions
    have hpeers : (w.renaming true).Peers τ (w.renaming false) := ⟨.refl _, hw, hw, rfl, rfl, houtside, rfl⟩
    obtain ⟨hresult, hstarted, hkept⟩ := Component.start_impartial hhost ht hslots hpeers
    refine ⟨hresult, hstarted.alike.reads, fun c hc calls => ?_⟩
    obtain ⟨left, u, u', hrun, hrun', hu, hleft⟩ := Component.run_impartial hhost (hkept c hc) hstarted calls
    rw [hrun, hrun']
    exact ⟨rfl, hu.alike.reads, fun call => (Component.call_impartial hhost hleft hu call).result⟩

/-- the paragraph is written in two ways, and reads alike, whatever is called -/
theorem renamings_agree_shown :
    (∀ name, Entries.get? (Entries.set "title" "a" (Entries.erase "data-attribute-0"
        [("title", "b"), ("data-attribute-0", ""), ("title", "c")])) name =
      Entries.get? (Entries.rename "data-attribute-0" "title" "a"
        [("title", "b"), ("data-attribute-0", ""), ("title", "c")]) name) ∧
    let inPlace := Component.start Template.shown Options.labelled (World.blank.renaming true)
    let anew := Component.start Template.shown Options.labelled (World.blank.renaming false)
    inPlace.1.document.innerHtml 0 = "<p title=\"a\" lang=\"en\" alt=\"a\"><i id=\"guest\"></i></p>" ∧
    anew.1.document.innerHtml 0 = "<p lang=\"en\" title=\"a\" alt=\"a\"><i id=\"guest\"></i></p>" ∧
    anew.2 = inPlace.2 ∧ ∃ c, inPlace.2 = .ok c ∧ ∀ calls : List (Call NodeId),
      (c.run anew.1 calls).1 = (c.run inPlace.1 calls).1 ∧
      (c.run inPlace.1 calls).2.document.ReadsAlike (c.run anew.1 calls).2.document := by
  refine ⟨fun name => ?_, ?_⟩
  · obtain ⟨hplace, hanew, -⟩ := renamings_agree.1 [("title", "b"), ("data-attribute-0", ""), ("title", "c")]
      "data-attribute-0" "title" "a" (by decide)
    exact (hanew name).trans (hplace name).symm
  intro inPlace anew
  have hblank : World.blank.document.Intact := Document.intact_empty.add (.element "body" [])
  have hslots : ∀ e ∈ Options.labelled.slots, e.2.Impartial (Script.terms World.blank.document.fresh) := fun e he => by
    obtain rfl := List.mem_singleton.1 he
    exact Block.impartial_foreign.2 fun x hx => absurd hx (Option.not_mem_none x)
  obtain ⟨hresult, -, hruns⟩ := renamings_agree.2 (Template.labelled_accepted _) (Template.labelled_markerFree _)
    (Template.labelled_impartial (Script.ActionSpec.action_impartial _ _)) hslots Script.recorders_impartial hblank.neat
    (show (Script.terms _).outside World.blank.outside World.blank.outside from trivial)
  have hok : inPlace.2.toOption.isSome = true := by decide +kernel
  refine ⟨by decide +kernel, by decide +kernel, hresult, ?_⟩
  cases hc : inPlace.2 with
  | error fault => rw [hc] at hok; cases hok
  | ok c => exact ⟨c, rfl, fun calls => ⟨(hruns c hc calls).1, (hruns c hc calls).2.1⟩⟩

end LiveMarkup
