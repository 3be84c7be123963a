/-
A diary of actions.

A host may note when an action begins, when one of its hooks is told a new value, and when its last hook runs. An action is
known by the number of the note that says that it has begun, counted from the start of the diary.

A ledger says which actions each component has begun and not ended yet; components are known by their channels. `Unfolds`
says what can be noted one after another, and what becomes of the ledger: a component begins its actions in the order of
their placeholders, hooks of begun actions are told values, and a component ends all its actions at once, in the same order.

- `Unfolds.balance`: a last hook has run as often as its action has begun, unless it is still due;
- `Unfolds.ended_iff`: so it runs once, when the component ends its actions;
- `Unfolds.closed`: the last hooks of a component run one right after another, in order;
- `Unfolds.told_between`: a hook is told a value only after its action has begun and before its last hook runs.
-/
import Mathlib.Data.List.Count
import Mathlib.Data.List.Nodup

namespace LiveMarkup

/-- a note about an action: it has begun, at the placeholder with this index, and has left hooks behind for new values and
for the end, or has not; or a hook of the action with this number has run -/
inductive Remark where
  | began (index : Nat) (updates ends : Bool)
  | told (number : Nat)
  | ended (number : Nat)
deriving DecidableEq, Repr

/-- an action that has begun: its number, its placeholder, and which hooks it has left behind -/
structure Errand where
  number : Nat
  index : Nat
  updates : Bool
  ends : Bool

/-- what was noted when actions began -/
def beginnings (errands : List Errand) : List Remark := errands.map fun e => .began e.index e.updates e.ends

/-- what will be noted when they end -/
def endings (errands : List Errand) : List Remark := (errands.filter (·.ends)).map (.ended ·.number)

/-- actions that have begun one right after another, in the order of their placeholders -/
structure Follow (n : Nat) (errands : List Errand) : Prop where
  numbers : errands.map (·.number) = List.range' n errands.length
  order : (errands.map (·.index)).Pairwise (· < ·)

/-- the actions that a component has begun and not ended, by its channel -/
abbrev Ledger := Nat → Option (List Errand)

/-- no component has begun anything -/
def Ledger.blank : Ledger := fun _ => none

def Ledger.set (g : Ledger) (k : Nat) (entry : Option (List Errand)) : Ledger := fun j => if j = k then entry else g j

/-- the last hook of an action is still to run -/
def Ledger.Due (g : Ledger) (number : Nat) : Prop := ∃ k errands, g k = some errands ∧ .ended number ∈ endings errands

/-- what notes are about: components that come and go, or new values -/
inductive Subject where
  | presence
  | values
deriving DecidableEq, Repr

/-- what can be noted from number `n` on, about these subjects, and what becomes of the ledger -/
inductive Unfolds (S : List Subject) : Nat → Ledger → List Remark → Ledger → Prop
  | done {n : Nat} {g : Ledger} : Unfolds S n g [] g
  /-- a component begins its actions -/
  | opens {n k : Nat} {g g' : Ledger} {errands : List Errand} {notes : List Remark} (about : .presence ∈ S) (new : g k = none)
      (follow : Follow n errands) (rest : Unfolds S (n + (beginnings errands).length) (g.set k (some errands)) notes g') :
      Unfolds S n g (beginnings errands ++ notes) g'
  /-- a hook of an action that has begun is told a value -/
  | tells {n k : Nat} {g g' : Ledger} {errands : List Errand} {errand : Errand} {notes : List Remark} (about : .values ∈ S)
      (known : g k = some errands) (mem : errand ∈ errands) (hook : errand.updates = true)
      (rest : Unfolds S (n + 1) g notes g') : Unfolds S n g (.told errand.number :: notes) g'
  /-- a component ends all its actions -/
  | closes {n k : Nat} {g g' : Ledger} {errands : List Errand} {notes : List Remark} (about : .presence ∈ S)
      (known : g k = some errands) (rest : Unfolds S (n + (endings errands).length) (g.set k none) notes g') :
      Unfolds S n g (endings errands ++ notes) g'

/-! ## One thing after another -/

section

variable {S S' : List Subject} {n k j : Nat} {g g₁ g₂ : Ledger} {errands : List Errand} {notes more : List Remark}

@[simp] theorem Ledger.set_self (g : Ledger) (k : Nat) (entry : Option (List Errand)) : g.set k entry k = entry := if_pos rfl

theorem Ledger.set_of_ne (g : Ledger) {j k : Nat} (h : j ≠ k) (entry : Option (List Errand)) : g.set k entry j = g j := if_neg h

theorem Ledger.set_same (h : g k = none) : g.set k none = g := by
  funext j
  by_cases hj : j = k
  · rw [hj, set_self, h]
  · exact g.set_of_ne hj none

theorem Unfolds.trans (h : Unfolds S n g notes g₁) (h' : Unfolds S (n + notes.length) g₁ more g₂) :
    Unfolds S n g (notes ++ more) g₂ := by
  induction h with
  | done => exact h'
  | @opens n k g g' errands notes about new follow _ ih =>
    rw [List.append_assoc]
    exact .opens about new follow (ih (by rwa [List.length_append, ← Nat.add_assoc] at h'))
  | @tells n k g g' errands errand notes about known mem hook _ ih =>
    refine .tells about known mem hook (ih ?_)
    rwa [List.length_cons, Nat.add_comm notes.length, ← Nat.add_assoc] at h'
  | @closes n k g g' errands notes about known _ ih =>
    rw [List.append_assoc]
    exact .closes about known (ih (by rwa [List.length_append, ← Nat.add_assoc] at h'))

theorem Unfolds.mono (h : Unfolds S n g notes g₁) (hS : S ⊆ S') : Unfolds S' n g notes g₁ := by
  induction h with
  | done => exact .done
  | opens about new follow _ ih => exact .opens (hS about) new follow ih
  | tells about known mem hook _ ih => exact .tells (hS about) known mem hook ih
  | closes about known _ ih => exact .closes (hS about) known ih

theorem Unfolds.open_one (hS : .presence ∈ S) (hk : g k = none) (hd : Follow n errands) :
    Unfolds S n g (beginnings errands) (g.set k (some errands)) := by
  have h := Unfolds.opens hS hk hd .done
  rwa [List.append_nil] at h

theorem Unfolds.close_one (hS : .presence ∈ S) (hk : g k = some errands) :
    Unfolds S n g (endings errands) (g.set k none) := by
  have h := Unfolds.closes (n := n) hS hk .done
  rwa [List.append_nil] at h

/-- new values change nothing in the ledger, and reach only actions that have begun -/
theorem Unfolds.values_only (h : Unfolds [.values] n g notes g₁) : g₁ = g ∧ ∀ note ∈ notes, ∃ k errands errand,
    g k = some errands ∧ errand ∈ errands ∧ errand.updates = true ∧ note = .told errand.number := by
  induction h with
  | done => exact ⟨rfl, List.forall_mem_nil _⟩
  | opens about => exact absurd about (by decide)
  | @tells n k g g' errands errand notes about known mem hook _ ih =>
    exact ⟨ih.1, List.forall_mem_cons.2 ⟨⟨k, errands, errand, known, mem, hook, rfl⟩, ih.2⟩⟩
  | closes about => exact absurd about (by decide)

/-- no hook is told a value while components come and go -/
theorem Unfolds.presence_only (h : Unfolds [.presence] n g notes g₁) (number : Nat) : .told number ∉ notes := by
  induction h with
  | done => exact List.not_mem_nil
  | opens _ _ _ _ ih =>
    refine fun hin => (List.mem_append.1 hin).elim (fun hin => ?_) ih
    obtain ⟨e, -, he⟩ := List.mem_map.1 hin
    cases he
  | tells about => exact absurd about (by decide)
  | closes _ _ _ ih =>
    refine fun hin => (List.mem_append.1 hin).elim (fun hin => ?_) ih
    obtain ⟨e, -, he⟩ := List.mem_map.1 hin
    cases he

end

/-! ## Last hooks -/

/-- the numbers of the actions that have begun with a hook for the end, among notes that begin with number `n` -/
def hooked : Nat → List Remark → List Nat
  | _, [] => []
  | n, .began _ _ true :: notes => n :: hooked (n + 1) notes
  | n, _ :: notes => hooked (n + 1) notes

/-- actions are numbered below `n`, and no two have the same number -/
structure Ledger.Numbered (n : Nat) (g : Ledger) : Prop where
  below : ∀ k errands, g k = some errands → ∀ e ∈ errands, e.number < n
  nodup : ∀ k errands, g k = some errands → (errands.map (·.number)).Nodup
  apart : ∀ j k errands errands', g j = some errands → g k = some errands' → j ≠ k →
    ∀ e ∈ errands, ∀ e' ∈ errands', e.number ≠ e'.number

section

variable {S : List Subject} {n k number : Nat} {g g₁ : Ledger} {errands : List Errand} {notes : List Remark}

theorem hooked_append (n : Nat) (notes more : List Remark) :
    hooked n (notes ++ more) = hooked n notes ++ hooked (n + notes.length) more := by
  induction notes generalizing n with
  | nil => rfl
  | cons note notes ih =>
    have hlength : n + (note :: notes).length = n + 1 + notes.length := by rw [List.length_cons]; omega
    rw [hlength, List.cons_append]
    cases note with
    | began index updates ends =>
      cases ends with
      | true => rw [hooked, hooked, ih, List.cons_append]
      | false => rw [hooked, hooked, ih] <;> simp
    | told number => rw [hooked, hooked, ih] <;> simp
    | ended number => rw [hooked, hooked, ih] <;> simp

theorem le_of_mem_hooked (h : number ∈ hooked n notes) : n ≤ number := by
  induction notes generalizing n with
  | nil => cases h
  | cons note notes ih =>
    unfold hooked at h
    split at h
    · next hc => cases hc
    · next hc =>
      cases hc
      rcases List.mem_cons.1 h with rfl | h
      · exact Nat.le_refl _
      · exact Nat.le_of_succ_le (ih h)
    · next hc =>
      cases hc
      exact Nat.le_of_succ_le (ih h)

theorem nodup_hooked (n : Nat) (notes : List Remark) : (hooked n notes).Nodup := by
  induction notes generalizing n with
  | nil => exact List.nodup_nil
  | cons note notes ih =>
    unfold hooked
    split
    · next hc => cases hc
    · next hc =>
      cases hc
      exact List.nodup_cons.2 ⟨fun hin => Nat.lt_irrefl _ (le_of_mem_hooked hin), ih _⟩
    · next hc =>
      cases hc
      exact ih _

theorem hooked_of_ended (h : ∀ note ∈ notes, ∃ number, note = .ended number) (n : Nat) : hooked n notes = [] := by
  induction notes generalizing n with
  | nil => rfl
  | cons note notes ih =>
    obtain ⟨⟨number, rfl⟩, hrest⟩ := List.forall_mem_cons.1 h
    exact ih hrest (n + 1)

theorem hooked_beginnings (h : errands.map (·.number) = List.range' n errands.length) :
    hooked n (beginnings errands) = (errands.filter (·.ends)).map (·.number) := by
  induction errands generalizing n with
  | nil => rfl
  | cons e errands ih =>
    rw [List.map_cons, List.length_cons, List.range'_succ, List.cons.injEq] at h
    have hrest := ih h.2
    obtain ⟨number, index, updates, ends⟩ := e
    cases ends with
    | true =>
      rw [List.filter_cons_of_pos rfl, List.map_cons, ← hrest, h.1]
      rfl
    | false =>
      rw [List.filter_cons_of_neg Bool.false_ne_true, ← hrest]
      rfl

theorem nodup_endings (h : (errands.map (·.number)).Nodup) : (endings errands).Nodup := by
  have hnumbers : ((errands.filter (·.ends)).map (·.number)).Nodup := h.sublist (List.filter_sublist.map _)
  have hmap : endings errands = ((errands.filter (·.ends)).map (·.number)).map Remark.ended := by rw [List.map_map]; rfl
  rw [hmap]
  exact hnumbers.map fun _ _ he => Remark.ended.inj he

theorem mem_endings (h : .ended number ∈ endings errands) : ∃ e ∈ errands, e.number = number := by
  obtain ⟨e, he, hn⟩ := List.mem_map.1 h
  exact ⟨e, List.mem_of_mem_filter he, Remark.ended.inj hn⟩

theorem Ledger.Numbered.mono (h : g.Numbered n) {m : Nat} (hm : n ≤ m) : g.Numbered m :=
  ⟨fun k errands hk e he => Nat.lt_of_lt_of_le (h.below k errands hk e he) hm, h.nodup, h.apart⟩

/-- one entry less -/
theorem Ledger.Numbered.close (h : g.Numbered n) (k : Nat) : (g.set k none).Numbered n := by
  have hold : ∀ {j errands}, g.set k none j = some errands → g j = some errands := by
    intro j errands hj
    by_cases hjk : j = k
    · rw [hjk, set_self] at hj
      cases hj
    · rwa [g.set_of_ne hjk] at hj
  exact ⟨fun j errands hj => h.below j errands (hold hj), fun j errands hj => h.nodup j errands (hold hj),
    fun i j errands errands' hi hj => h.apart i j errands errands' (hold hi) (hold hj)⟩

/-- one entry more, of actions that have just begun -/
theorem Ledger.Numbered.open (h : g.Numbered n) (hd : Follow n errands) (k : Nat) :
    (g.set k (some errands)).Numbered (n + (beginnings errands).length) := by
  have hlength : (beginnings errands).length = errands.length := List.length_map _
  have hnew : ∀ e ∈ errands, n ≤ e.number ∧ e.number < n + errands.length := fun e he => by
    have hin : e.number ∈ errands.map (·.number) := List.mem_map_of_mem he
    rw [hd.numbers, List.mem_range'_1] at hin
    exact hin
  have hcases : ∀ {j entry}, g.set k (some errands) j = some entry → j = k ∧ entry = errands ∨ j ≠ k ∧ g j = some entry := by
    intro j entry hj
    by_cases hjk : j = k
    · rw [hjk, set_self] at hj
      exact .inl ⟨hjk, (Option.some.inj hj).symm⟩
    · rw [g.set_of_ne hjk] at hj
      exact .inr ⟨hjk, hj⟩
  rw [hlength]
  refine ⟨fun j entry hj e he => ?_, fun j entry hj => ?_, fun i j entry entry' hi hj hij e he e' he' hsame => ?_⟩
  · rcases hcases hj with ⟨-, rfl⟩ | ⟨-, hj⟩
    · exact (hnew e he).2
    · exact Nat.lt_of_lt_of_le (h.below j entry hj e he) (Nat.le_add_right _ _)
  · rcases hcases hj with ⟨-, rfl⟩ | ⟨-, hj⟩
    · rw [hd.numbers]
      exact List.nodup_range'
    · exact h.nodup j entry hj
  · rcases hcases hi with ⟨hik, hi⟩ | ⟨-, hi⟩
    · rcases hcases hj with ⟨hjk, -⟩ | ⟨-, hj⟩
      · exact hij (hik.trans hjk.symm)
      · have hold := h.below j entry' hj e' he'
        have hfirst := (hnew e (hi ▸ he)).1
        omega
    · rcases hcases hj with ⟨-, hj⟩ | ⟨-, hj⟩
      · have hold := h.below i entry hi e he
        have hfirst := (hnew e' (hj ▸ he')).1
        omega
      · exact h.apart i j entry entry' hi hj hij e he e' he' hsame

open Classical in
/-- how often the last hook of an action is still to run -/
noncomputable def Ledger.due (g : Ledger) (number : Nat) : Nat := if g.Due number then 1 else 0

/-- with one entry more, the last hooks of its actions are due -/
theorem Ledger.due_set (hk : g k = none) (hn : (g.set k (some errands)).Numbered n) (number : Nat) :
    (g.set k (some errands)).due number = g.due number + (endings errands).count (.ended number) := by
  have hnodup := nodup_endings (hn.nodup k errands (g.set_self k _))
  have hiff : (g.set k (some errands)).Due number ↔ g.Due number ∨ .ended number ∈ endings errands := by
    constructor
    · rintro ⟨j, entry, hj, hin⟩
      by_cases hjk : j = k
      · subst hjk
        rw [set_self] at hj
        exact .inr (Option.some.inj hj ▸ hin)
      · rw [g.set_of_ne hjk] at hj
        exact .inl ⟨j, entry, hj, hin⟩
    · rintro (⟨j, entry, hj, hin⟩ | hin)
      · have hjk : j ≠ k := fun he => by rw [he, hk] at hj; cases hj
        exact ⟨j, entry, (g.set_of_ne hjk _).trans hj, hin⟩
      · exact ⟨k, errands, g.set_self k _, hin⟩
  have hapart : g.Due number → .ended number ∉ endings errands := by
    rintro ⟨j, entry, hj, hin⟩ hin'
    have hjk : j ≠ k := fun he => by rw [he, hk] at hj; cases hj
    obtain ⟨e, he, hnumber⟩ := mem_endings hin
    obtain ⟨e', he', hnumber'⟩ := mem_endings hin'
    exact hn.apart j k entry errands ((g.set_of_ne hjk _).trans hj) (g.set_self k _) hjk e he e' he'
      (hnumber.trans hnumber'.symm)
  unfold due
  by_cases hg : g.Due number
  · rw [if_pos (hiff.2 (.inl hg)), if_pos hg, List.count_eq_zero.2 (hapart hg)]
  · by_cases hin : .ended number ∈ endings errands
    · rw [if_pos (hiff.2 (.inr hin)), if_neg hg, List.count_eq_one_of_mem hnodup hin]
    · rw [if_neg fun h => (hiff.1 h).elim hg hin, if_neg hg, List.count_eq_zero.2 hin]

/-- **The balance of last hooks.** A last hook has run as often as its action has begun and was due before, unless it is still
due. -/
theorem Unfolds.balance (h : Unfolds S n g notes g₁) (hn : g.Numbered n) : g₁.Numbered (n + notes.length) ∧
    ∀ number, notes.count (.ended number) + g₁.due number = g.due number + (hooked n notes).count number := by
  induction h with
  | done => exact ⟨hn, fun number => by simp [hooked]⟩
  | @opens n k g g' errands notes about new follow _ ih =>
    have hopen := hn.open follow k
    obtain ⟨hlast, hbalance⟩ := ih hopen
    refine ⟨by rwa [List.length_append, ← Nat.add_assoc], fun number => ?_⟩
    have hnone : (beginnings errands).count (.ended number) = 0 := List.count_eq_zero.2 fun hin => by
      obtain ⟨e, -, he⟩ := List.mem_map.1 hin
      cases he
    have hsame : ((errands.filter (·.ends)).map (·.number)).count number = (endings errands).count (.ended number) := by
      have hmap : endings errands = ((errands.filter (·.ends)).map (·.number)).map Remark.ended := by rw [List.map_map]; rfl
      rw [hmap, List.count_map_of_injective _ _ fun _ _ he => Remark.ended.inj he]
    have hstep := hbalance number
    rw [Ledger.due_set new hopen] at hstep
    rw [List.count_append, hnone, hooked_append, List.count_append, hooked_beginnings follow.numbers, hsame]
    omega
  | @tells n k g g' errands errand notes about known mem hook _ ih =>
    obtain ⟨hlast, hbalance⟩ := ih (hn.mono (Nat.le_succ n))
    refine ⟨by rwa [List.length_cons, Nat.add_comm notes.length, ← Nat.add_assoc], fun number => ?_⟩
    rw [List.count_cons_of_ne (by simp)]
    exact hbalance number
  | @closes n k g g' errands notes about known _ ih =>
    have hrest := (hn.close k).mono (Nat.le_add_right n (endings errands).length)
    obtain ⟨hlast, hbalance⟩ := ih hrest
    refine ⟨by rwa [List.length_append, ← Nat.add_assoc], fun number => ?_⟩
    have hback : (g.set k none).set k (some errands) = g := by
      funext j
      by_cases hj : j = k
      · rw [hj, Ledger.set_self, known]
      · rw [Ledger.set_of_ne _ hj, Ledger.set_of_ne _ hj]
    have hdue := Ledger.due_set (g.set_self k none) (hback.symm ▸ hn) number
    rw [hback] at hdue
    have hnone : hooked n (endings errands) = [] := hooked_of_ended (fun note hin => by
      obtain ⟨e, -, rfl⟩ := List.mem_map.1 hin
      exact ⟨e.number, rfl⟩) n
    have hstep := hbalance number
    rw [List.count_append, hooked_append, hnone, List.nil_append]
    omega

theorem Ledger.not_due_blank (number : Nat) : ¬ Ledger.blank.Due number := by
  rintro ⟨k, errands, hk, -⟩
  cases hk

theorem Ledger.numbered_blank (n : Nat) : Ledger.blank.Numbered n :=
  ⟨by rintro _ _ ⟨⟩, by rintro _ _ ⟨⟩, by rintro _ _ _ _ ⟨⟩⟩

/-- **Last hooks run once.** From a blank ledger on, no last hook runs twice; and it has run if and only if its action has
begun and it is no longer due. -/
theorem Unfolds.ended_iff (h : Unfolds S n .blank notes g) (number : Nat) :
    notes.count (.ended number) ≤ 1 ∧ (.ended number ∈ notes ↔ number ∈ hooked n notes ∧ ¬ g.Due number) := by
  have hbalance := (h.balance (Ledger.numbered_blank n)).2 number
  have hblank : Ledger.blank.due number = 0 := if_neg (Ledger.not_due_blank number)
  have hone : (hooked n notes).count number ≤ 1 := List.nodup_iff_count_le_one.1 (nodup_hooked n notes) number
  rw [hblank, Nat.zero_add] at hbalance
  refine ⟨by omega, ?_⟩
  rw [← List.count_pos_iff, ← List.count_pos_iff]
  by_cases hdue : g.Due number
  · have : g.due number = 1 := if_pos hdue
    simp only [hdue, not_true_eq_false, and_false, iff_false]
    omega
  · have : g.due number = 0 := if_neg hdue
    simp only [hdue, not_false_eq_true, and_true]
    omega

/-- **Last hooks run in order.** When a component has ended its actions, their last hooks have run one right after another, in
the order of their placeholders. -/
theorem Unfolds.closed (h : Unfolds S n g notes g₁) (hk : g k = some errands) (hk₁ : g₁ k = none) :
    endings errands <:+: notes := by
  induction h with
  | done =>
    rw [hk] at hk₁
    cases hk₁
  | @opens n j g g' errands' notes about new follow rest ih =>
    have hkj : k ≠ j := fun he => by rw [he, new] at hk; cases hk
    exact (ih ((g.set_of_ne hkj _).trans hk) hk₁).trans (List.suffix_append _ _).isInfix
  | tells about known mem hook rest ih => exact (ih hk hk₁).trans (List.suffix_cons _ _).isInfix
  | @closes n j g g' errands' notes about known rest ih =>
    by_cases hkj : k = j
    · rw [hkj, known] at hk
      obtain rfl := Option.some.inj hk
      exact (List.prefix_append _ _).isInfix
    · exact (ih ((g.set_of_ne hkj _).trans hk) hk₁).trans (List.suffix_append _ _).isInfix

/-- actions that are going on in a component have begun in the order of their placeholders -/
theorem Unfolds.follow (h : Unfolds S n g notes g₁) (hg : ∀ k errands, g k = some errands → ∃ m, Follow m errands) :
    ∀ k errands, g₁ k = some errands → ∃ m, Follow m errands := by
  induction h with
  | done => exact hg
  | @opens n k g g' errands notes about new follow _ ih =>
    refine ih fun j entry hj => ?_
    by_cases hjk : j = k
    · rw [hjk, Ledger.set_self] at hj
      exact ⟨n, Option.some.inj hj ▸ follow⟩
    · exact hg j entry ((g.set_of_ne hjk _).symm.trans hj)
  | tells about known mem hook _ ih => exact ih hg
  | @closes n k g g' errands notes about known _ ih =>
    refine ih fun j entry hj => ?_
    have hjk : j ≠ k := fun he => by rw [he, Ledger.set_self] at hj; cases hj
    exact hg j entry ((g.set_of_ne hjk _).symm.trans hj)

/-- what is behind notes of another kind -/
theorem exists_behind {others rest before after : List Remark} {note : Remark} (h : others ++ rest = before ++ note :: after)
    (hn : note ∉ others) : ∃ more, before = others ++ more ∧ rest = more ++ note :: after := by
  rcases List.append_eq_append_iff.1 h with ⟨more, hbefore, hrest⟩ | ⟨more, hothers, hrest⟩
  · exact ⟨more, hbefore, hrest⟩
  · cases more with
    | nil =>
      rw [List.append_nil] at hothers
      exact ⟨[], by rw [hothers, List.append_nil], hrest.symm⟩
    | cons m more =>
      rw [List.cons_append, List.cons.injEq] at hrest
      refine absurd ?_ hn
      rw [hothers, hrest.1]
      exact List.mem_append_right _ List.mem_cons_self

/-- the note that an action has begun stands where its number says -/
theorem Follow.began (h : Follow n errands) {e : Errand} (he : e ∈ errands) :
    n ≤ e.number ∧ (beginnings errands)[e.number - n]? = some (.began e.index e.updates e.ends) := by
  obtain ⟨i, hi, hat⟩ := List.getElem_of_mem he
  have hnumber : (errands.map (·.number))[i]? = some e.number := by
    rw [List.getElem?_map, List.getElem?_eq_getElem hi, hat]
    rfl
  rw [h.numbers, List.getElem?_range' hi, Nat.one_mul] at hnumber
  have hnumber : e.number = n + i := (Option.some.inj hnumber).symm
  refine ⟨hnumber ▸ Nat.le_add_right n i, ?_⟩
  rw [beginnings, List.getElem?_map, hnumber, Nat.add_sub_cancel_left, List.getElem?_eq_getElem hi, hat]
  rfl

/-- an action is going on that has left a hook for new values -/
def Ledger.Minded (g : Ledger) (number : Nat) : Prop :=
  ∃ k errands, g k = some errands ∧ ∃ e ∈ errands, e.number = number ∧ e.updates = true

/-- a hook that is told a value is that of an action that was going on before, or has begun since then; and its last hook has
not run -/
theorem Unfolds.told_since (h : Unfolds S n g notes g₁) (hn : g.Numbered n) {before after : List Remark}
    (he : notes = before ++ .told number :: after) :
    (g.Minded number ∨ n ≤ number ∧ ∃ index ends, before[number - n]? = some (.began index true ends)) ∧
      .ended number ∉ before := by
  induction h generalizing before with
  | done => cases (List.append_eq_nil_iff.1 he.symm).2
  | @opens n k g g' errands notes about new follow _ ih =>
    have hnone : ∀ note : Remark, (∀ index updates ends, note ≠ .began index updates ends) → note ∉ beginnings errands := by
      intro note hnote hin
      obtain ⟨e, -, rfl⟩ := List.mem_map.1 hin
      exact hnote _ _ _ rfl
    obtain ⟨more, rfl, hrest⟩ := exists_behind he (hnone _ fun _ _ _ => nofun)
    obtain ⟨hwhich, hended⟩ := ih (hn.open follow k) hrest
    refine ⟨?_, fun hin => (List.mem_append.1 hin).elim (hnone _ fun _ _ _ => nofun) hended⟩
    rcases hwhich with ⟨j, entry, hj, e, hmem, rfl, hupdates⟩ | ⟨hle, index, ends, hat⟩
    · by_cases hjk : j = k
      · rw [hjk, Ledger.set_self] at hj
        obtain rfl := Option.some.inj hj
        obtain ⟨hle, hat⟩ := follow.began hmem
        rw [hupdates] at hat
        exact .inr ⟨hle, e.index, e.ends, (List.getElem?_append_left (List.getElem?_eq_some_iff.1 hat).1).trans hat⟩
      · exact .inl ⟨j, entry, (g.set_of_ne hjk _).symm.trans hj, e, hmem, rfl, hupdates⟩
    · refine .inr ⟨Nat.le_of_add_right_le hle, index, ends, ?_⟩
      rw [List.getElem?_append_right (by omega), Nat.sub_sub]
      exact hat
  | @tells n k g g' errands errand notes about known mem hook _ ih =>
    cases before with
    | nil =>
      obtain rfl : errand.number = number := Remark.told.inj (List.cons.inj he).1
      exact ⟨.inl ⟨k, errands, known, errand, mem, rfl, hook⟩, List.not_mem_nil⟩
    | cons note before =>
      obtain ⟨rfl, hrest⟩ := List.cons.inj he
      obtain ⟨hwhich, hended⟩ := ih (hn.mono (Nat.le_succ n)) hrest
      refine ⟨hwhich.imp_right fun ⟨hle, index, ends, hat⟩ => ⟨Nat.le_of_succ_le hle, index, ends, ?_⟩, fun hin =>
        (List.mem_cons.1 hin).elim (fun he => nomatch he) hended⟩
      rw [List.getElem?_cons, if_neg (by omega), Nat.sub_sub]
      exact hat
  | @closes n k g g' errands notes about known _ ih =>
    have hnone : .told number ∉ endings errands := fun hin => by
      obtain ⟨e, -, he⟩ := List.mem_map.1 hin
      cases he
    obtain ⟨more, rfl, hrest⟩ := exists_behind he hnone
    obtain ⟨hwhich, hended⟩ := ih ((hn.close k).mono (Nat.le_add_right _ _)) hrest
    rcases hwhich with ⟨j, entry, hj, e, hmem, rfl, hupdates⟩ | ⟨hle, index, ends, hat⟩
    · have hjk : j ≠ k := fun he => by rw [he, Ledger.set_self] at hj; cases hj
      rw [g.set_of_ne hjk] at hj
      refine ⟨.inl ⟨j, entry, hj, e, hmem, rfl, hupdates⟩, fun hin => (List.mem_append.1 hin).elim (fun hin => ?_) hended⟩
      obtain ⟨e', he', hsame⟩ := mem_endings hin
      exact hn.apart j k entry errands hj known hjk e hmem e' he' hsame.symm
    · refine ⟨.inr ⟨Nat.le_of_add_right_le hle, index, ends, ?_⟩, fun hin => (List.mem_append.1 hin).elim (fun hin => ?_) hended⟩
      · rw [List.getElem?_append_right (by omega), Nat.sub_sub]
        exact hat
      · obtain ⟨e', he', rfl⟩ := mem_endings hin
        have := hn.below k errands known e' he'
        omega

/-- **Hooks are told values in time.** From a blank ledger on, a hook is told a value only after its action has begun and left
it behind, and before its last hook runs. -/
theorem Unfolds.told_between (h : Unfolds S n .blank notes g) {before after : List Remark}
    (he : notes = before ++ .told number :: after) :
    (n ≤ number ∧ ∃ index ends, before[number - n]? = some (.began index true ends)) ∧ .ended number ∉ before :=
  (h.told_since (Ledger.numbered_blank n) he).imp_left fun hwhich =>
    hwhich.resolve_left fun ⟨_, _, hk, _⟩ => nomatch hk

end

end LiveMarkup
