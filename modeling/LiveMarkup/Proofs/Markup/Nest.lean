/-
From tokens to a forest.

Whatever holds of the complete nodes among the tokens, and of every element whose start tag is among them once it holds
of its children, holds of every node at the top of the forest (`forest_all`). What is listed in document order is listed
in the order of the tokens: nesting moves nothing (`forest_flatMap`). A start tag with its end tag right behind it is an
empty element (`step_start_stop`).
-/
import LiveMarkup.Markup.Reader

namespace LiveMarkup.Markup

namespace Nest

/-! ## A property of all nodes -/

/-- every complete node has the property, and so have the children of the open elements, whose start tags are in `ts` -/
structure Holds (P : Node → Prop) (ts : List Token) (nest : Nest) : Prop where
  done : ∀ n ∈ nest.done, P n
  children : ∀ f ∈ nest.stack, ∀ n ∈ f.children, P n
  opened : ∀ f ∈ nest.stack, Token.start f.tag f.attributes ∈ ts

variable {P : Node → Prop} {ts : List Token}

theorem Holds.add {nest : Nest} (h : nest.Holds P ts) {n : Node} (hn : P n) : (nest.add n).Holds P ts := by
  obtain ⟨done, stack⟩ := nest
  cases stack with
  | nil =>
    refine ⟨fun m hm => ?_, h.children, h.opened⟩
    rcases List.mem_append.1 hm with hm | hm
    · exact h.done m hm
    · exact List.mem_singleton.1 hm ▸ hn
  | cons f fs =>
    refine ⟨h.done, fun g hg m hm => ?_, fun g hg => ?_⟩
    · rcases List.mem_cons.1 hg with rfl | hg
      · rcases List.mem_append.1 hm with hm | hm
        · exact h.children f List.mem_cons_self m hm
        · exact List.mem_singleton.1 hm ▸ hn
      · exact h.children g (List.mem_cons_of_mem f hg) m hm
    · rcases List.mem_cons.1 hg with rfl | hg
      · exact h.opened f List.mem_cons_self
      · exact h.opened g (List.mem_cons_of_mem f hg)

section

variable (hs : ∀ tag attributes children, Token.start tag attributes ∈ ts → (∀ n ∈ children, P n) →
  P (.element tag attributes children))
include hs

theorem Holds.pop {nest : Nest} (h : nest.Holds P ts) : nest.pop.Holds P ts := by
  obtain ⟨done, stack⟩ := nest
  cases stack with
  | nil => exact h
  | cons f fs =>
    have hf : P f.close :=
      hs f.tag f.attributes f.children (h.opened f List.mem_cons_self) (h.children f List.mem_cons_self)
    have hfs : Nest.Holds P ts ⟨done, fs⟩ :=
      ⟨h.done, fun g hg => h.children g (List.mem_cons_of_mem f hg),
        fun g hg => h.opened g (List.mem_cons_of_mem f hg)⟩
    exact hfs.add hf

theorem Holds.popMany {nest : Nest} (h : nest.Holds P ts) (k : Nat) : (nest.popMany k).Holds P ts := by
  induction k generalizing nest with
  | zero => exact h
  | succ k ih => exact ih (h.pop hs)

theorem Holds.step {nest : Nest} (h : nest.Holds P ts) {t : Token} (ht : t ∈ ts)
    (hn : ∀ n, Token.node n ∈ ts → P n) : (nest.step t).Holds P ts := by
  cases t with
  | node n => exact h.add (hn n ht)
  | start tag attributes =>
    refine ⟨h.done, fun f hf => ?_, fun f hf => ?_⟩
    · rcases List.mem_cons.1 hf with rfl | hf
      · exact fun n hn => absurd hn List.not_mem_nil
      · exact h.children f hf
    · rcases List.mem_cons.1 hf with rfl | hf
      · exact ht
      · exact h.opened f hf
  | stop tag =>
    simp only [Nest.step, closeTag]
    split
    · exact h.popMany hs _
    · exact h

end

/-! ## Listing in document order -/

/-- what is listed of a nest: the complete nodes, then the open elements from the outermost on -/
def listed {β : Type} (g : Node → List β) (h : String → Attributes → List β) (nest : Nest) : List β :=
  nest.done.flatMap g ++ nest.stack.reverse.flatMap fun f => h f.tag f.attributes ++ f.children.flatMap g

section

variable {β : Type} {g : Node → List β} {h : String → Attributes → List β}

theorem listed_add (nest : Nest) (n : Node) : (nest.add n).listed g h = nest.listed g h ++ g n := by
  obtain ⟨done, stack⟩ := nest
  cases stack with
  | nil => simp [add, listed]
  | cons f fs => simp [add, listed]

variable (hg : ∀ tag attributes children,
  g (.element tag attributes children) = h tag attributes ++ children.flatMap g)
include hg

theorem listed_pop (nest : Nest) : nest.pop.listed g h = nest.listed g h := by
  obtain ⟨done, stack⟩ := nest
  cases stack with
  | nil => rfl
  | cons f fs =>
    rw [pop, listed_add, Frame.close, hg]
    simp [listed]

theorem listed_popMany (k : Nat) (nest : Nest) : (nest.popMany k).listed g h = nest.listed g h := by
  induction k generalizing nest with
  | zero => rfl
  | succ k ih => rw [popMany, ih, listed_pop hg]

end

theorem stack_pop (nest : Nest) : nest.pop.stack.length = nest.stack.length - 1 := by
  obtain ⟨done, stack⟩ := nest
  rcases stack with - | ⟨f, - | ⟨f', fs⟩⟩ <;> rfl

theorem stack_popMany (k : Nat) (nest : Nest) : (nest.popMany k).stack.length = nest.stack.length - k := by
  induction k generalizing nest with
  | zero => rfl
  | succ k ih => rw [popMany, ih, stack_pop]; omega

theorem stack_finish (nest : Nest) : (nest.popMany nest.stack.length).stack = [] := by
  rw [← List.length_eq_zero_iff, stack_popMany, Nat.sub_self]

/-- a start tag with its end tag right behind it is an empty element -/
theorem step_start_stop (nest : Nest) {tag tag' : String} (attributes : Attributes)
    (ht : sameLetters tag tag' = true) :
    (nest.step (.start tag attributes)).step (.stop tag') = nest.step (.node (.element tag attributes [])) := by
  simp [step, closeTag, List.findIdx?_cons, ht, popMany, pop, Frame.close]

end Nest

/-- what a token adds to a list in document order -/
def Token.listed {β : Type} (g : Node → List β) (h : String → Attributes → List β) : Token → List β
  | node n => g n
  | start tag attributes => h tag attributes
  | stop _ => []

/-- a property of the complete nodes, and of elements if their children have it, is one of the forest -/
theorem forest_all {P : Node → Prop} {ts : List Token} (hn : ∀ n, Token.node n ∈ ts → P n)
    (hs : ∀ tag attributes children, Token.start tag attributes ∈ ts → (∀ n ∈ children, P n) →
      P (.element tag attributes children)) :
    ∀ n ∈ forest ts, P n := by
  have hrun : ∀ us : List Token, (∀ u ∈ us, u ∈ ts) → ∀ nest : Nest, nest.Holds P ts →
      (us.foldl Nest.step nest).Holds P ts := by
    intro us
    induction us with
    | nil => exact fun _ _ h => h
    | cons u us ih =>
      intro hus nest h
      exact ih (fun v hv => hus v (List.mem_cons_of_mem u hv)) _ (h.step hs (hus u List.mem_cons_self) hn)
  have h0 : Nest.Holds P ts ⟨[], []⟩ := ⟨by simp, by simp, by simp⟩
  exact ((hrun ts (fun _ h => h) _ h0).popMany hs _).done

/-- what is listed of a forest in document order is listed in the order of its tokens -/
theorem forest_flatMap {β : Type} {g : Node → List β} {h : String → Attributes → List β}
    (hg : ∀ tag attributes children, g (.element tag attributes children) = h tag attributes ++ children.flatMap g)
    (ts : List Token) : (forest ts).flatMap g = ts.flatMap (Token.listed g h) := by
  have hstep : ∀ (t : Token) (nest : Nest), (nest.step t).listed g h = nest.listed g h ++ t.listed g h := by
    intro t nest
    cases t with
    | node n => exact Nest.listed_add nest n
    | start tag attributes => simp [Nest.step, Nest.listed, Token.listed]
    | stop tag =>
      simp only [Nest.step, Nest.closeTag, Token.listed, List.append_nil]
      split
      · exact Nest.listed_popMany hg _ nest
      · rfl
  have hrun : ∀ us : List Token, ∀ nest : Nest,
      (us.foldl Nest.step nest).listed g h = nest.listed g h ++ us.flatMap (Token.listed g h) := by
    intro us
    induction us with
    | nil => simp
    | cons u us ih => intro nest; rw [List.foldl_cons, ih, hstep, List.flatMap_cons, List.append_assoc]
  have hend := Nest.listed_popMany hg (ts.foldl Nest.step ⟨[], []⟩).stack.length (ts.foldl Nest.step ⟨[], []⟩)
  rw [hrun ts, Nest.listed, Nest.stack_finish] at hend
  simpa [forest, Nest.finish, Nest.listed] using hend

end LiveMarkup.Markup
