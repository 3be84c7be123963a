/-
Binding attributes one after another, and binding them all at once.

`fillAttributes` decides for each attribute of an element what is left of it. A live element gets there in steps: each
bound attribute is renamed in its place, in the order of the placeholders, and the markers of events and actions are
dropped.

- `settle_eq`: both give the same attributes, also where several are bound to one name;
- `fillAttributes_setAll`: setting bound attributes gives their values to all that is bound to their names;
- `fillAttributes_congr_last`: of several values bound to one name, the last alone matters.
-/
import LiveMarkup.Proofs.Template.Tree

namespace LiveMarkup

open Markup Marker

/-- renames the attribute of one marker, if it is there -/
def bindOne (attributes : Attributes) (e : String × String × String) : Attributes :=
  if e.1 ∈ Entries.names attributes then Entries.rename e.1 e.2.1 e.2.2 attributes else attributes

/-- renames the attributes of markers and drops other markers; `cells` has name and value for each marker -/
def settle (cells : Entries (String × String)) (dropped : List String) (attributes : Attributes) : Attributes :=
  dropped.foldl (fun as name => Entries.erase name as) (cells.foldl bindOne attributes)

/-! ## Entries -/

namespace Entries

variable {α : Type}

theorem names_cons (e : String × α) (es : Entries α) : names (e :: es) = e.1 :: names es := rfl

theorem get?_eq_none_iff {es : Entries α} {name : String} : es.get? name = none ↔ name ∉ es.names := by
  rw [get?, Option.map_eq_none_iff, List.find?_eq_none, names, List.mem_map]
  constructor
  · rintro h ⟨e, he, rfl⟩
    exact h e he (beq_self_eq_true _)
  · exact fun h e he hn => h ⟨e, he, eq_of_beq hn⟩

theorem get?_isSome_iff {es : Entries α} {name : String} : (es.get? name).isSome = true ↔ name ∈ es.names := by
  rw [← not_iff_not, Bool.not_eq_true, Option.isSome_eq_false_iff, Option.isNone_iff_eq_none, get?_eq_none_iff]

/-- in a table of distinct names, an entry is what its name has -/
theorem get?_of_mem {es : Entries α} (hn : es.names.Nodup) {e : String × α} (h : e ∈ es) : es.get? e.1 = some e.2 := by
  induction es with
  | nil => cases h
  | cons d es ih =>
    rw [names_cons, List.nodup_cons] at hn
    obtain ⟨hd, hn⟩ := hn
    rw [get?_cons]
    rcases List.mem_cons.1 h with rfl | h
    · exact if_pos rfl
    · have hin : e.1 ∈ names es := List.mem_map_of_mem h
      have hne : d.1 ≠ e.1 := fun he : d.1 = e.1 => hd (he ▸ hin)
      rw [if_neg hne, ih hn h]

theorem mem_of_get? {es : Entries α} {name : String} {v : α} (h : es.get? name = some v) : (name, v) ∈ es := by
  rw [get?, Option.map_eq_some_iff] at h
  obtain ⟨⟨n, w⟩, he, rfl⟩ := h
  have hn := List.find?_some he
  obtain rfl : n = name := eq_of_beq hn
  exact List.mem_of_find?_eq_some he

theorem get?_append (es fs : Entries α) (name : String) : get? (es ++ fs) name = (get? es name).or (get? fs name) := by
  rw [get?, get?, get?, List.find?_append]
  cases es.find? (·.1 == name) <;> rfl

theorem names_append (es fs : Entries α) : names (es ++ fs) = es.names ++ fs.names := List.map_append

theorem mem_names_erase {es : Entries α} {name n : String} : n ∈ (es.erase name).names ↔ n ∈ es.names ∧ n ≠ name := by
  rw [← get?_isSome_iff, get?_erase, ← get?_isSome_iff]
  split <;> simp [*]

theorem erase_of_not_mem {es : Entries α} {name : String} (h : name ∉ es.names) : es.erase name = es := by
  refine List.filter_eq_self.2 fun e he => ?_
  exact decide_eq_true fun e' => h (e' ▸ List.mem_map_of_mem he)

/-- the first entry of a name splits the table -/
theorem exists_split {es : Entries α} {name : String} (h : name ∈ es.names) :
    ∃ (pre : Entries α) (v : α) (post : Entries α), es = pre ++ (name, v) :: post ∧ name ∉ pre.names ∧
      ∀ t w, es.rename name t w = pre.erase t ++ (t, w) :: post.erase t := by
  induction es with
  | nil => cases h
  | cons e es ih =>
    obtain ⟨n, v⟩ := e
    by_cases hn : n = name
    · subst hn
      exact ⟨[], v, es, rfl, List.not_mem_nil, fun t w => by simp [rename, erase]⟩
    · rcases List.mem_cons.1 h with h | h
      · exact absurd h.symm hn
      · obtain ⟨pre, w, post, rfl, hpre, hr⟩ := ih h
        refine ⟨(n, v) :: pre, w, post, rfl, ?_, fun t x => ?_⟩
        · exact fun hin => (List.mem_cons.1 hin).elim (fun e => hn e.symm) hpre
        · have htake : ((n, v) :: pre).takeWhile (·.1 ≠ name) = (n, v) :: pre := by
            refine List.takeWhile_eq_self_iff.2 fun e he => decide_eq_true fun he' => ?_
            rcases List.mem_cons.1 he with rfl | he
            · exact hn he'
            · exact hpre (he' ▸ List.mem_map_of_mem he)
          have hall : ∀ e ∈ (n, v) :: pre, decide (e.1 ≠ name) = true := List.takeWhile_eq_self_iff.1 htake
          rw [rename, ← List.cons_append, List.dropWhile_append_of_pos hall, List.takeWhile_append_of_pos hall]
          simp

/-- where there is nothing to rename, the new name is set -/
theorem rename_of_not_mem {es : Entries α} {source : String} (h : source ∉ es.names) (target : String) (value : α) :
    es.rename source target value = es.set target value := by
  have hall : es.dropWhile (·.1 ≠ source) = [] :=
    List.dropWhile_eq_nil_iff.2 fun e he => decide_eq_true fun hsame => h (hsame ▸ List.mem_map_of_mem he)
  rw [rename, hall]

end Entries

/-! ## Filling -/

section

variable {look look' : String → Option (String × String)}

theorem bindingsOf_append (as bs : Attributes) : bindingsOf look (as ++ bs) = bindingsOf look as ++ bindingsOf look bs :=
  List.filterMap_append

theorem bindingsOf_cons_none {a : String × String} (h : look a.1 = none) (as : Attributes) :
    bindingsOf look (a :: as) = bindingsOf look as :=
  List.filterMap_cons_none h

theorem bindingsOf_cons_some {a b : String × String} (h : look a.1 = some b) (as : Attributes) :
    bindingsOf look (a :: as) = b :: bindingsOf look as :=
  List.filterMap_cons_some h

theorem bindingsOf_congr {as : Attributes} (h : ∀ name ∈ Entries.names as, look name = look' name) :
    bindingsOf look as = bindingsOf look' as :=
  List.filterMap_congr fun a ha => h a.1 (List.mem_map_of_mem ha)

theorem bindingsOf_of_none {as : Attributes} (h : ∀ name ∈ Entries.names as, look name = none) :
    bindingsOf look as = [] :=
  List.filterMap_eq_nil_iff.2 fun a ha => h a.1 (List.mem_map_of_mem ha)

/-- bound names do not depend on values -/
theorem names_bindingsOf (h : ∀ name, (look name).map (·.1) = (look' name).map (·.1)) (as : Attributes) :
    Entries.names (bindingsOf look as) = Entries.names (bindingsOf look' as) := by
  rw [Entries.names, Entries.names, bindingsOf, bindingsOf, List.map_filterMap, List.map_filterMap]
  exact List.filterMap_congr fun a _ => h a.1

/-- what is not bound may be dropped before -/
theorem bindingsOf_erase {name : String} (h : look name = none) (as : Attributes) :
    bindingsOf look (Entries.erase name as) = bindingsOf look as := by
  rw [bindingsOf, Entries.erase, List.filterMap_filter]
  refine List.filterMap_congr fun a _ => ?_
  by_cases ha : a.1 = name
  · simp [ha, h]
  · simp [ha]

theorem fillFrom_congr {bound : List String} {as : Attributes}
    (h : ∀ name ∈ Entries.names as, look name = look' name) : fillFrom look bound as = fillFrom look' bound as := by
  induction as with
  | nil => rfl
  | cons a as ih =>
    obtain ⟨name, value⟩ := a
    have hrest : ∀ n ∈ Entries.names as, look n = look' n := fun n hn => h n (List.mem_cons_of_mem _ hn)
    rw [fillFrom, fillFrom, ih hrest, bindingsOf_congr hrest, h name List.mem_cons_self]

/-- what an element's attributes become depends only on what their names stand for -/
theorem fillAttributes_congr {as : Attributes} (h : ∀ name ∈ Entries.names as, look name = look' name) :
    fillAttributes look as = fillAttributes look' as := by
  rw [fillAttributes, fillAttributes, bindingsOf_congr h, fillFrom_congr h]

theorem fillFrom_append {as : Attributes} (h : ∀ name ∈ Entries.names as, look name = none) (bound : List String)
    (bs : Attributes) : fillFrom look bound (as ++ bs) = fillFrom look bound as ++ fillFrom look bound bs := by
  induction as with
  | nil => rfl
  | cons a as ih =>
    obtain ⟨name, value⟩ := a
    have hname : look name = none := h name List.mem_cons_self
    rw [List.cons_append, fillFrom, fillFrom, ih fun n hn => h n (List.mem_cons_of_mem _ hn), hname]
    split
    · split <;> rfl
    · rfl

/-- a name that is bound elsewhere on the element may be dropped before -/
theorem fillFrom_cons_bound {t : String} (ht : ofAttribute? t = none) (hl : look t = none) (bound : List String)
    (as : Attributes) : fillFrom look (t :: bound) as = fillFrom look bound (Entries.erase t as) := by
  induction as with
  | nil => rfl
  | cons a as ih =>
    obtain ⟨name, value⟩ := a
    by_cases hn : name = t
    · subst hn
      have herase : Entries.erase name ((name, value) :: as) = Entries.erase name as := by simp [Entries.erase]
      rw [fillFrom, ht, herase, if_pos List.mem_cons_self, ih]
    · have herase : Entries.erase t ((name, value) :: as) = (name, value) :: Entries.erase t as := by
        simp [Entries.erase, hn]
      have hmem : (name ∈ t :: bound) ↔ name ∈ bound := by simp [hn]
      rw [herase, fillFrom, fillFrom, ih, bindingsOf_erase hl]
      simp only [hmem]

theorem fillFrom_nil (hl : ∀ name, look name = none) (as : Attributes) :
    fillFrom look [] as = as.filter fun a => (ofAttribute? a.1).isNone := by
  induction as with
  | nil => rfl
  | cons a as ih =>
    obtain ⟨name, value⟩ := a
    rw [fillFrom, hl, ih]
    cases h : ofAttribute? name <;> simp [h]

end

/-! ## In steps -/

theorem foldl_erase (dropped : List String) (as : Attributes) :
    dropped.foldl (fun as name => Entries.erase name as) as = as.filter fun a => decide (a.1 ∉ dropped) := by
  induction dropped generalizing as with
  | nil => simp
  | cons name dropped ih =>
    rw [List.foldl_cons, ih, Entries.erase, List.filter_filter]
    refine List.filter_congr fun a _ => ?_
    simp [Bool.and_comm]

/-- the markers of an element in their order, and what is bound to them -/
structure InOrder (cells : Entries (String × String)) (dropped : List String) (attributes : Attributes) : Prop where
  distinct : (Entries.names cells).Nodup
  markers : ∀ name ∈ Entries.names cells, ofAttribute? name ≠ none
  targets : ∀ e ∈ cells, ofAttribute? e.2.1 = none
  others : ∀ name ∈ dropped, ofAttribute? name ≠ none
  order : ((Entries.names attributes).filter (· ∈ Entries.names cells)).Sublist (Entries.names cells)
  covered : ∀ name ∈ Entries.names attributes, ofAttribute? name ≠ none → name ∈ Entries.names cells ∨ name ∈ dropped

theorem InOrder.absent {e : String × String × String} {cells : Entries (String × String)} {dropped : List String}
    {as : Attributes} (h : InOrder (e :: cells) dropped as) (he : e.1 ∉ Entries.names as) : InOrder cells dropped as := by
  have hne : ∀ name ∈ Entries.names as, name ≠ e.1 := fun name hn h => he (h ▸ hn)
  refine ⟨(List.nodup_cons.1 h.distinct).2, fun n hn => h.markers n (List.mem_cons_of_mem _ hn),
    fun d hd => h.targets d (List.mem_cons_of_mem _ hd), h.others, ?_, fun name hn hm => ?_⟩
  · have hfilter : (Entries.names as).filter (· ∈ Entries.names (e :: cells)) =
        (Entries.names as).filter (· ∈ Entries.names cells) := by
      refine List.filter_congr fun name hn => ?_
      simp only [Entries.names_cons, List.mem_cons, hne name hn, false_or]
    have ho := h.order
    rw [hfilter] at ho
    refine (List.sublist_cons_iff.1 ho).resolve_right ?_
    rintro ⟨r, hr, -⟩
    have hin : e.1 ∈ (Entries.names as).filter (· ∈ Entries.names cells) := hr ▸ List.mem_cons_self
    exact he (List.mem_filter.1 hin).1
  · rcases h.covered name hn hm with hc | hd
    · exact .inl ((List.mem_cons.1 hc).resolve_left (hne name hn))
    · exact .inr hd

/-- where the next marker is among the attributes: none of the bound ones is before it, and it is there once -/
theorem InOrder.present {s t v : String} {cells : Entries (String × String)} {dropped : List String}
    {as : Attributes} (h : InOrder ((s, t, v) :: cells) dropped as) (hs : s ∈ Entries.names as) :
    ∃ pre x post, as = pre ++ (s, x) :: post ∧ s ∉ Entries.names pre ∧ s ∉ Entries.names post ∧
      (∀ name ∈ Entries.names pre, name ∉ Entries.names cells) ∧
      bindOne as (s, t, v) = Entries.erase t pre ++ (t, v) :: Entries.erase t post ∧
      InOrder cells dropped (Entries.erase t pre ++ (t, v) :: Entries.erase t post) := by
  obtain ⟨pre, x, post, rfl, hpre, hr⟩ := Entries.exists_split hs
  obtain ⟨hsc, hnodup⟩ := List.nodup_cons.1 h.distinct
  have ht : ofAttribute? t = none := h.targets (s, t, v) List.mem_cons_self
  have htc : t ∉ Entries.names cells := fun hin => h.markers t (List.mem_cons_of_mem _ hin) ht
  have hnames : Entries.names (pre ++ (s, x) :: post) = Entries.names pre ++ s :: Entries.names post :=
    Entries.names_append _ _
  have ho := h.order
  rw [hnames, List.filter_append, List.filter_cons_of_pos (by simp [Entries.names])] at ho
  -- the marker comes first among the bound ones, since the cells begin with it
  have hfirst : (Entries.names pre).filter (· ∈ Entries.names ((s, t, v) :: cells)) = [] ∧
      ((Entries.names post).filter (· ∈ Entries.names ((s, t, v) :: cells))).Sublist (Entries.names cells) := by
    cases hp : (Entries.names pre).filter (· ∈ Entries.names ((s, t, v) :: cells)) with
    | nil =>
      rw [hp, List.nil_append] at ho
      exact ⟨rfl, List.cons_sublist_cons.1 ho⟩
    | cons n ns =>
      rw [hp, List.cons_append] at ho
      have hn : n ∈ Entries.names pre := (List.mem_filter.1 (hp ▸ List.mem_cons_self)).1
      have hsub : (n :: (ns ++ s :: (Entries.names post).filter (· ∈ Entries.names ((s, t, v) :: cells)))).Sublist
          (Entries.names cells) := by
        refine (List.sublist_cons_iff.1 ho).resolve_right ?_
        rintro ⟨r, hr', -⟩
        have hns : n = s := (List.cons.inj hr').1
        exact hpre (hns ▸ hn)
      exact absurd (hsub.subset (List.mem_cons_of_mem _ (List.mem_append_right _ List.mem_cons_self))) hsc
  obtain ⟨hbefore, hafter⟩ := hfirst
  have hpost : s ∉ Entries.names post := fun hin =>
    hsc (hafter.subset (List.mem_filter.2 ⟨hin, by simp [Entries.names]⟩))
  have hpre' : ∀ name ∈ Entries.names pre, name ∉ Entries.names cells := by
    intro name hn hc
    have := List.filter_eq_nil_iff.1 hbefore name hn
    exact this (decide_eq_true (List.mem_cons_of_mem _ hc))
  refine ⟨pre, x, post, rfl, hpre, hpost, hpre', by rw [bindOne, if_pos hs, hr], hnodup,
    fun n hn => h.markers n (List.mem_cons_of_mem _ hn), fun d hd => h.targets d (List.mem_cons_of_mem _ hd),
    h.others, ?_, fun name hn hm => ?_⟩
  · have hl : (Entries.names (Entries.erase t pre)).filter (· ∈ Entries.names cells) = [] := by
      refine List.filter_eq_nil_iff.2 fun name hn => ?_
      simpa using hpre' name (Entries.mem_names_erase.1 hn).1
    have hr : ((Entries.names (Entries.erase t post)).filter (· ∈ Entries.names cells)).Sublist
        ((Entries.names post).filter (· ∈ Entries.names ((s, t, v) :: cells))) := by
      have h1 : (Entries.names (Entries.erase t post)).Sublist (Entries.names post) := List.filter_sublist.map _
      refine (h1.filter _).trans (List.monotone_filter_right _ fun name hn => ?_)
      exact decide_eq_true (List.mem_cons_of_mem _ (of_decide_eq_true hn))
    rw [Entries.names_append, List.filter_append, hl, List.nil_append]
    show (List.filter _ (t :: Entries.names (Entries.erase t post))).Sublist _
    rw [List.filter_cons_of_neg (by simpa using htc)]
    exact hr.trans hafter
  · rw [Entries.names_append, List.mem_append] at hn
    have hold : name ∈ Entries.names (pre ++ (s, x) :: post) ∧ name ≠ s := by
      rw [hnames, List.mem_append, List.mem_cons]
      rcases hn with hn | hn
      · have := (Entries.mem_names_erase.1 hn).1
        exact ⟨.inl this, fun e => hpre (e ▸ this)⟩
      · rcases List.mem_cons.1 hn with rfl | hn
        · exact absurd ht hm
        · have := (Entries.mem_names_erase.1 hn).1
          exact ⟨.inr (.inr this), fun e => hpost (e ▸ this)⟩
    rcases h.covered name hold.1 hm with hc | hd
    · exact .inl ((List.mem_cons.1 hc).resolve_left hold.2)
    · exact .inr hd

/-- renaming one attribute after another fills the attributes -/
theorem settle_eq {cells : Entries (String × String)} {dropped : List String} {as : Attributes}
    (h : InOrder cells dropped as) : settle cells dropped as = fillAttributes cells.get? as := by
  induction cells generalizing as with
  | nil =>
    have hnone : ∀ name, Entries.get? ([] : Entries (String × String)) name = none := fun _ => rfl
    rw [settle, List.foldl_nil, foldl_erase, fillAttributes, bindingsOf_of_none fun name _ => hnone name]
    refine Eq.trans ?_ (fillFrom_nil hnone as).symm
    refine List.filter_congr fun a ha => ?_
    have hname : a.1 ∈ Entries.names as := List.mem_map_of_mem ha
    by_cases hm : ofAttribute? a.1 = none
    · have hd : a.1 ∉ dropped := fun hd => h.others a.1 hd hm
      simp [hm, hd]
    · have hd : a.1 ∈ dropped := (h.covered a.1 hname hm).resolve_left List.not_mem_nil
      simp [Option.isSome_iff_ne_none, hm, hd]
  | cons e cells ih =>
    obtain ⟨s, t, v⟩ := e
    have hother : ∀ name, name ≠ s → Entries.get? ((s, t, v) :: cells) name = Entries.get? cells name := by
      intro name hne
      rw [Entries.get?_cons, if_neg fun e => hne e.symm]
    by_cases hs : s ∈ Entries.names as
    · obtain ⟨pre, x, post, rfl, hpre, hpost, hfree, hbind, hrest⟩ := h.present hs
      have ht : ofAttribute? t = none := h.targets (s, t, v) List.mem_cons_self
      have htc : Entries.get? cells t = none :=
        Entries.get?_eq_none_iff.2 fun hin => h.markers t (List.mem_cons_of_mem _ hin) ht
      obtain ⟨m, hm⟩ := Option.ne_none_iff_exists'.1 (h.markers s List.mem_cons_self)
      have hsome : Entries.get? ((s, t, v) :: cells) s = some (t, v) := by rw [Entries.get?_cons, if_pos rfl]
      -- nothing before the marker is bound, and what is after it is bound as in the rest
      have hnone : ∀ name ∈ Entries.names pre, Entries.get? cells name = none :=
        fun name hn => Entries.get?_eq_none_iff.2 (hfree name hn)
      have hnone' : ∀ name ∈ Entries.names pre, Entries.get? ((s, t, v) :: cells) name = none :=
        fun name hn => (hother name fun e => hpre (e ▸ hn)).trans (hnone name hn)
      have hcongr : ∀ name ∈ Entries.names post, Entries.get? ((s, t, v) :: cells) name = Entries.get? cells name :=
        fun name hn => hother name fun e => hpost (e ▸ hn)
      have hnoneErase : ∀ name ∈ Entries.names (Entries.erase t pre), Entries.get? cells name = none :=
        fun name hn => hnone name (Entries.mem_names_erase.1 hn).1
      have hbound : bindingsOf (Entries.get? cells) (Entries.erase t pre ++ (t, v) :: Entries.erase t post) =
          bindingsOf (Entries.get? cells) post := by
        rw [bindingsOf_append, bindingsOf_of_none hnoneErase, List.nil_append, bindingsOf_cons_none htc,
          bindingsOf_erase htc]
      have hbound' : bindingsOf (Entries.get? ((s, t, v) :: cells)) (pre ++ (s, x) :: post) =
          (t, v) :: bindingsOf (Entries.get? cells) post := by
        rw [bindingsOf_append, bindingsOf_of_none hnone', List.nil_append, bindingsOf_cons_some hsome,
          bindingsOf_congr hcongr]
      have hih := ih hrest
      rw [settle, List.foldl_cons, hbind]
      refine hih.trans ?_
      rw [fillAttributes, fillAttributes, hbound, hbound', fillFrom_append hnoneErase, fillFrom_append hnone']
      show _ = fillFrom _ (t :: _) pre ++ fillFrom _ (t :: _) ((s, x) :: post)
      have hbefore : ∀ name ∈ Entries.names pre, Entries.get? ((s, t, v) :: cells) name = Entries.get? cells name :=
        fun name hn => (hnone' name hn).trans (hnone name hn).symm
      rw [fillFrom_congr hbefore, fillFrom_cons_bound ht htc, fillFrom, fillFrom, ht, hm, hsome]
      dsimp only
      rw [bindingsOf_congr hcongr, fillFrom_congr hcongr, fillFrom_cons_bound ht htc]
      rfl
    · have hbind : bindOne as (s, t, v) = as := if_neg hs
      rw [settle, List.foldl_cons, hbind]
      refine (ih (h.absent hs)).trans (fillAttributes_congr fun name hn => (hother name fun e => hs (e ▸ hn)).symm)

/-! ## New values -/

section

variable {look look' : String → Option (String × String)} {as : Attributes} {t w : String}

theorem mem_bindingsOf {s : String} {b : String × String} (hs : s ∈ Entries.names as) (hb : look s = some b) :
    b ∈ bindingsOf look as := by
  obtain ⟨a, ha, rfl⟩ := List.mem_map.1 hs
  exact List.mem_filterMap.2 ⟨a, ha, hb⟩

/-- a value for the attributes that are bound to one of these names -/
def revalue (names : List String) (w : String) (look : String → Option (String × String)) (s : String) :
    Option (String × String) :=
  (look s).map fun b => (b.1, if b.1 ∈ names then w else b.2)

theorem map_revalue (names : List String) (w : String) (look : String → Option (String × String)) (s : String) :
    (revalue names w look s).map (·.1) = (look s).map (·.1) := by
  rw [revalue, Option.map_map]
  rfl

/-- a name that nothing is bound to may be given a value -/
theorem fillFrom_revalue {bound : List String} (h : t ∉ Entries.names (bindingsOf look as)) (w : String) :
    fillFrom look bound as = fillFrom (revalue [t] w look) bound as := by
  refine fillFrom_congr fun s hs => ?_
  rw [revalue]
  cases hb : look s with
  | none => rfl
  | some b =>
    have hne : b.1 ≠ t := fun e => h (e ▸ List.mem_map_of_mem (mem_bindingsOf hs hb))
    rw [Option.map_some, if_neg (by simpa using hne)]

/-- setting the value of a bound attribute gives it to all that is bound to its name -/
theorem fillAttributes_set (hm : ∀ s, ofAttribute? s = none → look s = none)
    (ht : t ∈ Entries.names (bindingsOf look as)) (w : String) :
    Entries.set t w (fillAttributes look as) = fillAttributes (revalue [t] w look) as := by
  have hnames : ∀ bs, Entries.names (bindingsOf (revalue [t] w look) bs) = Entries.names (bindingsOf look bs) :=
    names_bindingsOf (map_revalue [t] w look)
  have hrun : ∀ (bound : List String) (bs : Attributes), t ∈ bound → t ∈ Entries.names (bindingsOf look bs) →
      Entries.set t w (fillFrom look bound bs) = fillFrom (revalue [t] w look) bound bs := by
    intro bound bs hbound hin
    induction bs with
    | nil => cases hin
    | cons a bs ih =>
      obtain ⟨name, value⟩ := a
      rw [fillFrom, fillFrom]
      cases hmark : ofAttribute? name with
      | none =>
        rw [bindingsOf_cons_none (a := (name, value)) (hm name hmark)] at hin
        dsimp only
        split
        · exact ih hin
        · next hname =>
          have hne : name ≠ t := fun e => hname (e ▸ hbound)
          rw [Entries.set, if_neg hne, ih hin]
      | some m =>
        dsimp only
        cases hb : look name with
        | none =>
          rw [bindingsOf_cons_none (a := (name, value)) hb] at hin
          rw [revalue, hb]
          exact ih hin
        | some b =>
          rw [bindingsOf_cons_some (a := (name, value)) hb, Entries.names_cons, List.mem_cons] at hin
          rw [revalue, hb, Option.map_some]
          dsimp only
          rw [hnames]
          by_cases hlater : b.1 ∈ Entries.names (bindingsOf look bs)
          · rw [if_pos hlater, if_pos hlater]
            exact ih (hin.elim (fun e => e ▸ hlater) id)
          · rw [if_neg hlater, if_neg hlater, Entries.set]
            by_cases hbt : b.1 = t
            · rw [if_pos hbt, if_pos (by simpa using hbt), fillFrom_revalue (hbt ▸ hlater) w]
            · rw [if_neg hbt, if_neg (by simpa using hbt), ih (hin.resolve_left fun e => hbt e.symm)]
  rw [fillAttributes, fillAttributes, hnames]
  exact hrun _ as ht ht

/-- the same for one name after another -/
theorem fillAttributes_setAll (hm : ∀ s, ofAttribute? s = none → look s = none) {names : List String}
    (hn : ∀ t ∈ names, t ∈ Entries.names (bindingsOf look as)) (w : String) :
    names.foldl (fun as t => Entries.set t w as) (fillAttributes look as) = fillAttributes (revalue names w look) as := by
  induction names generalizing look with
  | nil =>
    refine fillAttributes_congr fun s _ => ?_
    rw [revalue]
    cases look s <;> rfl
  | cons t names ih =>
    rw [List.forall_mem_cons] at hn
    have hm' : ∀ s, ofAttribute? s = none → revalue [t] w look s = none := fun s hs => by rw [revalue, hm s hs]; rfl
    rw [List.foldl_cons, fillAttributes_set hm hn.1, ih hm' fun n hin => by
      rw [names_bindingsOf (map_revalue [t] w look)]
      exact hn.2 n hin]
    refine fillAttributes_congr fun s _ => ?_
    rw [revalue, revalue, revalue, Option.map_map]
    refine congrArg (Option.map · (look s)) (funext fun b => ?_)
    by_cases hb : b.1 ∈ names
    · simp [hb]
    · simp [hb]

/-- of several values bound to one name, the last alone matters -/
theorem fillAttributes_congr_last (hn : ∀ s, (look s).map (·.1) = (look' s).map (·.1))
    (h : ∀ t, Entries.get? (bindingsOf look as).reverse t = Entries.get? (bindingsOf look' as).reverse t) :
    fillAttributes look as = fillAttributes look' as := by
  have hnames := names_bindingsOf hn
  have hcons : ∀ (f : String → Option (String × String)) (a : String × String) (bs : Attributes) (b : String × String)
      (t : String), f a.1 = some b → Entries.get? (bindingsOf f (a :: bs)).reverse t =
        (Entries.get? (bindingsOf f bs).reverse t).or (if b.1 = t then some b.2 else none) := by
    intro f a bs b t hb
    rw [bindingsOf_cons_some hb, List.reverse_cons, Entries.get?_append, Entries.get?_cons, Entries.get?_nil]
  have hisSome : ∀ (f : String → Option (String × String)) (bs : Attributes) (t : String),
      t ∈ Entries.names (bindingsOf f bs) ↔ (Entries.get? (bindingsOf f bs).reverse t).isSome = true := by
    intro f bs t
    rw [Entries.get?_isSome_iff, Entries.names, Entries.names, List.map_reverse, List.mem_reverse]
  have hrun : ∀ (bound : List String) (bs : Attributes), (∀ t ∈ Entries.names (bindingsOf look bs),
      Entries.get? (bindingsOf look bs).reverse t = Entries.get? (bindingsOf look' bs).reverse t) →
      fillFrom look bound bs = fillFrom look' bound bs := by
    intro bound bs hbs
    induction bs with
    | nil => rfl
    | cons a bs ih =>
      obtain ⟨name, value⟩ := a
      have hname := hn name
      rw [fillFrom, fillFrom]
      cases hb : look name with
      | none =>
        have hb' : look' name = none := by
          rw [hb, Option.map_none] at hname
          exact Option.map_eq_none_iff.1 hname.symm
        rw [bindingsOf_cons_none (a := (name, value)) hb, bindingsOf_cons_none (a := (name, value)) hb'] at hbs
        rw [hb', ih hbs]
      | some b =>
        obtain ⟨b', hb', hfst⟩ : ∃ b', look' name = some b' ∧ b'.1 = b.1 := by
          rw [hb, Option.map_some] at hname
          obtain ⟨b', hb', e⟩ := Option.map_eq_some_iff.1 hname.symm
          exact ⟨b', hb', e⟩
        -- what is bound later decides as before
        have hrest : ∀ t ∈ Entries.names (bindingsOf look bs),
            Entries.get? (bindingsOf look bs).reverse t = Entries.get? (bindingsOf look' bs).reverse t := by
          intro t ht
          have hall := hbs t (by
            rw [bindingsOf_cons_some (a := (name, value)) hb]
            exact List.mem_cons_of_mem _ ht)
          obtain ⟨v, hv⟩ := Option.isSome_iff_exists.1 ((hisSome look bs t).1 ht)
          obtain ⟨v', hv'⟩ := Option.isSome_iff_exists.1 ((hisSome look' bs t).1 (hnames bs ▸ ht))
          rw [hcons look (name, value) bs b t hb, hcons look' (name, value) bs b' t hb', hv, hv', Option.some_or,
            Option.some_or] at hall
          rw [hv, hv', hall]
        rw [hb', ih hrest, hnames bs]
        dsimp only
        rw [hfst]
        split
        · rfl
        · split
          · rfl
          · next hlater =>
            have hall := hbs b.1 (by
              rw [bindingsOf_cons_some (a := (name, value)) hb]
              exact List.mem_cons_self)
            have hnone : ∀ f : String → Option (String × String), b.1 ∉ Entries.names (bindingsOf f bs) →
                Entries.get? (bindingsOf f bs).reverse b.1 = none := fun f hf =>
              Option.not_isSome_iff_eq_none.1 fun hsome => hf ((hisSome f bs b.1).2 hsome)
            rw [hcons look (name, value) bs b b.1 hb, hcons look' (name, value) bs b' b.1 hb', hnone look' hlater,
              hnone look (hnames bs ▸ hlater), Option.none_or, Option.none_or, if_pos rfl, if_pos hfst] at hall
            rw [Prod.ext hfst (Option.some.inj hall).symm]
  rw [fillAttributes, fillAttributes, hnames]
  exact hrun _ as fun t _ => h t

end

end LiveMarkup
