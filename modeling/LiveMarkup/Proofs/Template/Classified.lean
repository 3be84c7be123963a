/-
What classification loses and what it refuses.

Classification keeps the text of a definition: the name of an attribute that it cuts off a segment stands in the
placeholder, and nothing else is cut off. It gives every placeholder exactly one category, so the positions of the
categories are a partition of all positions. And it refuses a definition for the first hole in which something is wrong;
`Malformed` says what can be wrong with a hole and the segment before it, without reference to how that is found out.

- `attributeBefore?_eq_some_iff`: where a segment is cut;
- `classifyHole_eq_error_iff`: one hole is refused exactly if it is malformed;
- `classifyFrom_ok`, `classifyFrom_error`: all holes are classified, or the first malformed one is reported;
- `classify_partitions`: both results of a classification.
-/
import Mathlib.Data.List.Induction
import LiveMarkup.Proofs.Template.Layout
import LiveMarkup.Proofs.Template.Spots

namespace LiveMarkup

variable {A T : Type}

/-! ## Where a segment is cut -/

/-- the segment ends with `name=`, and the name goes back to the last blank or to the start of the segment -/
structure NameCut (segment before name : String) : Prop where
  whole : before ++ name ++ "=" = segment
  blankless : ∀ c ∈ name.toList, isBlank c = false
  blank : before = "" ∨ ∃ c, before.toList.getLast? = some c ∧ isBlank c = true

theorem attributeBefore?_eq_some_iff {segment before name : String} :
    attributeBefore? segment = some (before, name) ↔ NameCut segment before name := by
  constructor
  · intro h
    have hwhole := attributeBefore?_eq h
    unfold attributeBefore? at h
    split at h
    · next back hb =>
      obtain ⟨rfl, rfl⟩ := Prod.mk.inj (Option.some.inj h)
      refine ⟨hwhole, fun c hc => ?_, ?_⟩
      · rw [String.toList_ofList, List.mem_reverse] at hc
        simpa using List.mem_takeWhile_imp hc
      · cases hd : back.dropWhile (!isBlank ·) with
        | nil => exact .inl rfl
        | cons c cs =>
          refine .inr ⟨c, by simp, ?_⟩
          have hstop := List.head?_dropWhile_not (!isBlank ·) back
          rw [hd] at hstop
          simpa using hstop
    · cases h
  · rintro ⟨rfl, hn, hb⟩
    refine Layout.attributeBefore?_cut hn fun c hc => ?_
    rcases hb with rfl | ⟨d, hd, hblank⟩
    · cases hc
    · rw [hc] at hd
      exact Option.some.inj hd ▸ hblank

theorem attributeBefore?_isSome_iff {segment : String} :
    (attributeBefore? segment).isSome = true ↔ ∃ before, segment = before ++ "=" := by
  constructor
  · intro h
    obtain ⟨⟨before, name⟩, hb⟩ := Option.isSome_iff_exists.1 h
    exact ⟨before ++ name, (attributeBefore?_eq hb).symm⟩
  · rintro ⟨before, rfl⟩
    have hreverse : (before ++ "=").toList.reverse = '=' :: before.toList.reverse := by simp
    rw [attributeBefore?, hreverse]
    rfl

/-! ## Malformed holes -/

/-- what is wrong with a segment and the forwarded prop after it -/
inductive BadBinding (segment outer : String) : BindingFault → Prop
  | noName (h : ∀ before name, NameCut segment before name → name = "") : BadBinding segment outer .noName
  | emptyOuter {before name : String} (h : NameCut segment before name) (hn : name ≠ "") (ho : outer = "") :
    BadBinding segment outer .emptyOuter

/-- what is wrong with the hole number `index` and the segment before it -/
inductive Malformed (index : Nat) (segment : String) : Hole A → DefinitionFault → Prop
  | noProp : Malformed index segment (.name "") (.emptyName index .prop)
  | noAttribute {prop before : String} (hp : prop ≠ "") (h : NameCut segment before "") :
    Malformed index segment (.name prop) (.missingAttributeName index)
  | noEvent (topic : Option String) : Malformed index segment (.directive (.event "" topic)) (.emptyName index .event)
  | noTopic {event : String} (he : event ≠ "") :
    Malformed index segment (.directive (.event event (some ""))) (.emptyName index .topic)
  | noParameter (run : A) : Malformed index segment (.directive (.action run (some ""))) (.emptyName index .parameter)
  | noSlot : Malformed index segment (.directive (.slot (some ""))) (.emptyName index .slot)
  | count {template : Template A} {segments outers : List String} (h : segments.length ≠ outers.length + 1) :
    Malformed index segment (.directive (.component template segments outers)) (.childBinding index outers.length .count)
  | binding {template : Template A} {segments outers : List String} (h : segments.length = outers.length + 1) {k : Nat}
    {s outer : String} {fault : BindingFault} (hs : segments[k]? = some s) (ho : outers[k]? = some outer)
    (hb : BadBinding s outer fault)
    (first : ∀ j < k, ∀ s outer fault, segments[j]? = some s → outers[j]? = some outer → ¬ BadBinding s outer fault) :
    Malformed index segment (.directive (.component template segments outers)) (.childBinding index k fault)

theorem bind_eq_error {E B C : Type} {x : Except E B} {f : B → Except E C} {e : E} :
    (x >>= f) = .error e ↔ x = .error e ∨ ∃ b, x = .ok b ∧ f b = .error e := by
  cases x <;> simp [bind, Except.bind]

theorem bind_eq_ok {E B C : Type} {x : Except E B} {f : B → Except E C} {c : C} :
    (x >>= f) = .ok c ↔ ∃ b, x = .ok b ∧ f b = .ok c := by
  cases x <;> simp [bind, Except.bind]

theorem requireName_eq_error_iff {name : String} {index : Nat} {role : NameRole} {fault : DefinitionFault} :
    requireName name index role = .error fault ↔ name = "" ∧ fault = .emptyName index role := by
  unfold requireName
  split
  · next h =>
    have hname : name = "" := by simpa using h
    simp [hname, eq_comm]
  · next h =>
    have hname : name ≠ "" := by simpa using h
    simp [hname]

theorem requireName_eq_ok_iff {name : String} {index : Nat} {role : NameRole} {u : Unit} :
    requireName name index role = .ok u ↔ name ≠ "" := by
  unfold requireName
  split
  · next h => simpa using h
  · next h => simpa using h

theorem classifyBinding_eq_error_iff {index binding : Nat} {segment outer : String} {fault : DefinitionFault} :
    classifyBinding index binding segment outer = .error fault ↔
      ∃ f, BadBinding segment outer f ∧ fault = .childBinding index binding f := by
  unfold classifyBinding
  constructor
  · intro h
    split at h
    · next before child hb =>
      have hcut := attributeBefore?_eq_some_iff.1 hb
      split at h
      · next hempty =>
        have hchild : child = "" := by simpa using hempty
        refine ⟨.noName, .noName fun before' name' hcut' => ?_, (Except.error.inj h).symm⟩
        have := (attributeBefore?_eq_some_iff.2 hcut').symm.trans hb
        exact (Prod.mk.inj (Option.some.inj this)).2.trans hchild
      · next hname =>
        split at h
        · next houter =>
          exact ⟨.emptyOuter, .emptyOuter hcut (by simpa using hname) (by simpa using houter), (Except.error.inj h).symm⟩
        · cases h
    · next hb =>
      refine ⟨.noName, .noName fun before' name' hcut' => ?_, (Except.error.inj h).symm⟩
      rw [attributeBefore?_eq_some_iff.2 hcut'] at hb
      cases hb
  · rintro ⟨f, hbad, rfl⟩
    cases hbad with
    | noName hall =>
      split
      · next before child hb =>
        rw [if_pos (by simpa using hall before child (attributeBefore?_eq_some_iff.1 hb))]
      · rfl
    | emptyOuter hcut hn ho =>
      rw [attributeBefore?_eq_some_iff.2 hcut]
      dsimp only
      rw [if_neg (by simpa using hn), if_pos (by simpa using ho)]

/-- the first binding that is bad is reported -/
theorem classifyBindings_eq_error_iff {index binding : Nat} {segments outers : List String} {fault : DefinitionFault}
    (hl : outers.length ≤ segments.length) : classifyBindings index binding segments outers = .error fault ↔
      ∃ k s outer f, segments[k]? = some s ∧ outers[k]? = some outer ∧ BadBinding s outer f ∧
        fault = .childBinding index (binding + k) f ∧
        ∀ j < k, ∀ s outer f, segments[j]? = some s → outers[j]? = some outer → ¬ BadBinding s outer f := by
  induction outers generalizing segments binding with
  | nil =>
    have hok : classifyBindings index binding segments [] = .ok [] := by cases segments <;> rfl
    simp [hok]
  | cons outer outers ih =>
    cases segments with
    | nil => simp at hl
    | cons segment segments =>
      rw [classifyBindings, bind_eq_error, classifyBinding_eq_error_iff]
      constructor
      · rintro (⟨f, hbad, rfl⟩ | ⟨b, hb, hrest⟩)
        · exact ⟨0, segment, outer, f, rfl, rfl, hbad, rfl, fun j hj => absurd hj (Nat.not_lt_zero j)⟩
        · rcases bind_eq_error.1 hrest with hrest | ⟨_, _, h⟩
          · obtain ⟨k, s, o, f, hs, ho, hbad, rfl, hfirst⟩ := (ih (Nat.le_of_succ_le_succ hl)).1 hrest
            refine ⟨k + 1, s, o, f, hs, ho, hbad, by rw [Nat.add_right_comm, Nat.add_assoc], fun j hj s o f hs ho hbad => ?_⟩
            cases j with
            | zero =>
              obtain rfl := Option.some.inj hs
              obtain rfl := Option.some.inj ho
              rw [classifyBinding_eq_error_iff.2 ⟨f, hbad, rfl⟩] at hb
              cases hb
            | succ j => exact hfirst j (Nat.lt_of_succ_lt_succ hj) s o f hs ho hbad
          · cases h
      · rintro ⟨k, s, o, f, hs, ho, hbad, rfl, hfirst⟩
        cases k with
        | zero =>
          obtain rfl := Option.some.inj hs
          obtain rfl := Option.some.inj ho
          exact .inl ⟨f, hbad, rfl⟩
        | succ k =>
          right
          cases hb : classifyBinding index binding segment outer with
          | error fault =>
            obtain ⟨f', hbad', -⟩ := classifyBinding_eq_error_iff.1 hb
            exact absurd hbad' (hfirst 0 (Nat.succ_pos k) segment outer f' rfl rfl)
          | ok b =>
            refine ⟨b, rfl, bind_eq_error.2 (.inl ?_)⟩
            refine (ih (Nat.le_of_succ_le_succ hl)).2 ⟨k, s, o, f, hs, ho, hbad, ?_, fun j hj => ?_⟩
            · rw [Nat.add_right_comm, Nat.add_assoc]
            · exact hfirst (j + 1) (Nat.succ_lt_succ hj)

/-- **One hole** is refused exactly if it is malformed, and for what is wrong with it. -/
theorem classifyHole_eq_error_iff {index : Nat} {segment : String} {hole : Hole A} {fault : DefinitionFault} :
    classifyHole index segment hole = .error fault ↔ Malformed index segment hole fault := by
  cases hole with
  | name prop =>
    rw [classifyHole, bind_eq_error, requireName_eq_error_iff]
    constructor
    · rintro (⟨rfl, rfl⟩ | ⟨u, hu, h⟩)
      · exact .noProp
      · split at h
        · next before name hb =>
          split at h
          · next hname =>
            obtain rfl : name = "" := by simpa using hname
            cases h
            exact .noAttribute (requireName_eq_ok_iff.1 hu) (attributeBefore?_eq_some_iff.1 hb)
          · cases h
        · cases h
    · intro h
      cases h with
      | noProp => exact .inl ⟨rfl, rfl⟩
      | noAttribute hp hcut =>
        refine .inr ⟨(), requireName_eq_ok_iff.2 hp, ?_⟩
        rw [attributeBefore?_eq_some_iff.2 hcut]
        rfl
  | directive d =>
    cases d with
    | event event topic =>
      rw [classifyHole, bind_eq_error, requireName_eq_error_iff]
      constructor
      · rintro (⟨rfl, rfl⟩ | ⟨u, hu, h⟩)
        · exact .noEvent topic
        · rcases bind_eq_error.1 h with h | ⟨_, _, h⟩
          · obtain ⟨ht, rfl⟩ := requireName_eq_error_iff.1 h
            have he := requireName_eq_ok_iff.1 hu
            cases topic with
            | none => exact absurd ht he
            | some t =>
              obtain rfl : t = "" := ht
              exact .noTopic he
          · cases h
      · intro h
        cases h with
        | noEvent => exact .inl ⟨rfl, rfl⟩
        | noTopic he => exact .inr ⟨(), requireName_eq_ok_iff.2 he, rfl⟩
    | action run param =>
      constructor
      · intro h
        cases param with
        | none => cases h
        | some name =>
          rcases bind_eq_error.1 h with h | ⟨_, _, h⟩
          · obtain ⟨rfl, rfl⟩ := requireName_eq_error_iff.1 h
            exact .noParameter run
          · cases h
      · intro h
        cases h
        rfl
    | slot name =>
      rw [classifyHole, bind_eq_error, requireName_eq_error_iff]
      constructor
      · rintro (⟨hn, rfl⟩ | ⟨_, _, h⟩)
        · cases name with
          | none => simp at hn
          | some name =>
            obtain rfl : name = "" := hn
            exact .noSlot
        · cases h
      · intro h
        cases h
        exact .inl ⟨rfl, rfl⟩
    | component template segments outers =>
      rw [classifyHole]
      constructor
      · intro h
        split at h
        · next hl =>
          rcases bind_eq_error.1 h with h | ⟨_, _, h⟩
          · obtain ⟨k, s, o, f, hs, ho, hbad, rfl, hfirst⟩ :=
              (classifyBindings_eq_error_iff (hl ▸ Nat.le_succ _)).1 h
            rw [Nat.zero_add]
            exact .binding hl hs ho hbad hfirst
          · cases h
        · next hl =>
          cases h
          exact .count hl
      · intro h
        cases h with
        | count hl => rw [if_neg hl]
        | @binding _ _ _ hl k s o f hs ho hbad hfirst =>
          rw [if_pos hl]
          refine bind_eq_error.2 (.inl ((classifyBindings_eq_error_iff (hl ▸ Nat.le_succ _)).2
            ⟨k, s, o, f, hs, ho, hbad, ?_, hfirst⟩))
          rw [Nat.zero_add]

/-! ## Holes that are classified -/

/-- a directive keeps the segment before it and is no attribute -/
theorem classifyHole_directive {index : Nat} {segment trimmed : String} {d : Directive A} {p : Placeholder A (Template A)}
    (h : classifyHole index segment (.directive d) = .ok (trimmed, p)) :
    trimmed = segment ∧ p.category ≠ .attribute := by
  rcases classifyHole_cases h with hkeeps | ⟨prop, name, rfl, -, -⟩
  · exact hkeeps
  · cases d with
    | event event topic =>
      obtain ⟨_, _, h⟩ := bind_eq_ok.1 h
      obtain ⟨_, _, h⟩ := bind_eq_ok.1 h
      cases h
    | action run param => cases param <;> obtain ⟨_, _, h⟩ := bind_eq_ok.1 h <;> cases h
    | slot name =>
      obtain ⟨_, _, h⟩ := bind_eq_ok.1 h
      cases h
    | component template segments outers =>
      rw [classifyHole] at h
      split at h
      · obtain ⟨_, _, h⟩ := bind_eq_ok.1 h
        cases h
      · cases h

/-- what a hole makes of the segment before it: the name of an attribute is cut off, and nothing else -/
structure Keeps (segment trimmed : String) (hole : Hole A) (p : Placeholder A (Template A)) : Prop where
  cut : ∀ prop name, p = .attribute prop name → hole = .name prop ∧ NameCut segment trimmed name ∧ name ≠ ""
  whole : p.category ≠ .attribute → trimmed = segment
  named : ∀ prop, hole = .name prop → (p.category = .attribute ↔ ∃ before, segment = before ++ "=") ∧
    (p.category ≠ .attribute → p = .text prop)

theorem classifyHole_keeps {index : Nat} {segment trimmed : String} {hole : Hole A} {p : Placeholder A (Template A)}
    (h : classifyHole index segment hole = .ok (trimmed, p)) : Keeps segment trimmed hole p := by
  cases hole with
  | directive d =>
    obtain ⟨rfl, hp⟩ := classifyHole_directive h
    exact ⟨fun prop name he => absurd (congrArg Placeholder.category he) hp, fun _ => rfl, nofun⟩
  | name prop =>
    obtain ⟨_, _, h⟩ := bind_eq_ok.1 h
    split at h
    · next before name hb =>
      split at h
      · cases h
      · next hn =>
        cases h
        have hname : name ≠ "" := by simpa using hn
        have hends := attributeBefore?_isSome_iff.1 (Option.isSome_iff_exists.2 ⟨_, hb⟩)
        refine ⟨fun prop' name' he => ?_, fun hp => absurd rfl hp, fun prop' he => ⟨iff_of_true rfl hends, fun hp => absurd rfl hp⟩⟩
        obtain ⟨rfl, rfl⟩ := Placeholder.attribute.inj he
        exact ⟨rfl, attributeBefore?_eq_some_iff.1 hb, hname⟩
    · next hb =>
      cases h
      have hends : ¬ ∃ before, segment = before ++ "=" := by
        rw [← attributeBefore?_isSome_iff, hb]
        exact nofun
      refine ⟨nofun, fun _ => rfl, fun prop' he => ⟨iff_of_false nofun hends, fun _ => ?_⟩⟩
      cases he
      rfl

/-- every hole is classified, with the segment before it, and the last segment is left as it is -/
theorem classifyFrom_ok {index : Nat} {segments : List String} {holes : List (Hole A)} {c : Classified A}
    (hl : segments.length = holes.length + 1) (h : classifyFrom index segments holes = .ok c) :
    c.placeholders.length = holes.length ∧ c.segments.length = segments.length ∧
      c.segments[holes.length]? = segments[holes.length]? ∧
      ∀ i hole segment, holes[i]? = some hole → segments[i]? = some segment → ∃ trimmed p,
        c.segments[i]? = some trimmed ∧ c.placeholders[i]? = some p ∧
          classifyHole (index + i) segment hole = .ok (trimmed, p) := by
  induction holes generalizing segments index c with
  | nil =>
    obtain ⟨segment, rfl⟩ := List.length_eq_one_iff.1 hl
    cases h
    exact ⟨rfl, rfl, rfl, nofun⟩
  | cons hole holes ih =>
    rcases segments with - | ⟨segment, segments⟩
    · cases hl
    obtain ⟨⟨trimmed, p⟩, hhole, h⟩ := bind_eq_ok.1 h
    obtain ⟨rest, hrest, h⟩ := bind_eq_ok.1 h
    cases h
    obtain ⟨hps, hss, hlast, hall⟩ := ih (Nat.succ.inj hl) hrest
    refine ⟨congrArg (· + 1) hps, congrArg (· + 1) hss, hlast, fun i hole' segment' hi hs => ?_⟩
    cases i with
    | zero =>
      obtain rfl := Option.some.inj hi
      obtain rfl := Option.some.inj hs
      exact ⟨trimmed, p, rfl, rfl, hhole⟩
    | succ i =>
      obtain ⟨trimmed', p', ht, hp, hone⟩ := hall i hole' segment' hi hs
      exact ⟨trimmed', p', ht, hp, by rw [← Nat.add_assoc, Nat.add_right_comm]; exact hone⟩

/-- the first hole that cannot be classified is reported -/
theorem classifyFrom_error {index : Nat} {segments : List String} {holes : List (Hole A)} {fault : DefinitionFault}
    (h : classifyFrom index segments holes = .error fault) :
    ∃ i hole segment, holes[i]? = some hole ∧ segments[i]? = some segment ∧
      classifyHole (index + i) segment hole = .error fault ∧
      ∀ j < i, ∀ hole segment, holes[j]? = some hole → segments[j]? = some segment →
        ∃ r, classifyHole (index + j) segment hole = .ok r := by
  induction holes generalizing segments index with
  | nil => cases segments <;> cases h
  | cons hole holes ih =>
    rcases segments with - | ⟨segment, segments⟩
    · cases h
    rcases bind_eq_error.1 h with h | ⟨r, hr, h⟩
    · exact ⟨0, hole, segment, rfl, rfl, h, fun j hj => absurd hj (Nat.not_lt_zero j)⟩
    · rcases bind_eq_error.1 h with h | ⟨_, _, h⟩
      · obtain ⟨i, hole', segment', hi, hs, hfault, hfirst⟩ := ih h
        refine ⟨i + 1, hole', segment', hi, hs, by rw [← Nat.add_assoc, Nat.add_right_comm]; exact hfault,
          fun j hj hole' segment' hi hs => ?_⟩
        cases j with
        | zero =>
          obtain rfl := Option.some.inj hi
          obtain rfl := Option.some.inj hs
          exact ⟨r, hr⟩
        | succ j =>
          obtain ⟨r', hr'⟩ := hfirst j (Nat.lt_of_succ_lt_succ hj) hole' segment' hi hs
          exact ⟨r', by rw [← Nat.add_assoc, Nat.add_right_comm]; exact hr'⟩
      · cases h

/-! ## Positions of the categories -/

/-- a placeholder that comes last is put at the end of the positions of its category -/
theorem indicesOf_append_singleton (ps : List (Placeholder A T)) (p : Placeholder A T) (category : Category) :
    indicesOf (ps ++ [p]) category = indicesOf ps category ++ if p.category = category then [ps.length] else [] := by
  rw [indicesOf, List.zipIdx_append, List.filter_append, List.map_append]
  by_cases hp : p.category = category <;> simp [indicesOf, hp]

theorem indicesOf_ascending (ps : List (Placeholder A T)) (category : Category) :
    (indicesOf ps category).Pairwise (· < ·) := by
  induction ps using List.reverseRecOn with
  | nil => exact .nil
  | append_singleton ps p ih =>
    rw [indicesOf_append_singleton]
    refine List.pairwise_append.2 ⟨ih, by split <;> simp, fun i hi j hj => ?_⟩
    obtain ⟨q, hq, -⟩ := mem_indicesOf.1 hi
    have hlt : i < ps.length := (List.getElem?_eq_some_iff.1 hq).1
    split at hj
    · rwa [List.mem_singleton.1 hj]
    · cases hj

theorem categoryOf?_eq (ps : List (Placeholder A T)) (i : Nat) :
    categoryOf? ps i = (ps[i]?).map Placeholder.category := by
  rw [categoryOf?]
  cases hp : ps[i]? with
  | none =>
    refine List.find?_eq_none.2 fun category _ hin => ?_
    obtain ⟨p, hi, -⟩ := mem_indicesOf.1 (List.contains_iff_mem.1 hin)
    rw [hp] at hi
    cases hi
  | some p =>
    have hin : ∀ category, (indicesOf ps category).contains i = decide (p.category = category) := by
      intro category
      rw [Bool.eq_iff_iff, List.contains_iff_mem, mem_indicesOf, decide_eq_true_iff]
      constructor
      · rintro ⟨q, hq, hcategory⟩
        obtain rfl := Option.some.inj (hp.symm.trans hq)
        exact hcategory
      · exact fun hcategory => ⟨p, hp, hcategory⟩
    simp only [hin, Option.map_some]
    cases p.category <;> rfl

/-- **Both results of a classification.** If it succeeds, there is a placeholder for each hole and a trimmed segment for
each segment; every hole keeps the segment before it but for the name of an attribute, which is in the placeholder, and the
last segment is kept; the positions of each category ascend, no position is in two of them, together they are all positions,
and the category of a position is that of its placeholder; and nothing was wrong with any hole. If it fails, the segments
were too few or too many, or the fault is that of the first malformed hole. -/
theorem classify_partitions (segments : List String) (holes : List (Hole A)) :
    match classify segments holes with
    | .ok c =>
      segments.length = holes.length + 1 ∧ c.placeholders.length = holes.length ∧ c.segments.length = segments.length ∧
      (∀ i hole segment, holes[i]? = some hole → segments[i]? = some segment →
        (∀ fault, ¬ Malformed i segment hole fault) ∧ ∃ trimmed p, c.segments[i]? = some trimmed ∧
          c.placeholders[i]? = some p ∧ Keeps segment trimmed hole p) ∧
      c.segments[holes.length]? = segments[holes.length]? ∧
      (∀ category, (indicesOf c.placeholders category).Pairwise (· < ·)) ∧
      (∀ category category' i, i ∈ indicesOf c.placeholders category → i ∈ indicesOf c.placeholders category' →
        category = category') ∧
      (∀ i, (∃ category, i ∈ indicesOf c.placeholders category) ↔ i < holes.length) ∧
      ∀ i, categoryOf? c.placeholders i = (c.placeholders[i]?).map Placeholder.category
    | .error fault =>
      segments.length ≠ holes.length + 1 ∧ fault = .segmentCount holes.length segments.length ∨
      segments.length = holes.length + 1 ∧ ∃ i hole segment, holes[i]? = some hole ∧ segments[i]? = some segment ∧
        Malformed i segment hole fault ∧
        ∀ j < i, ∀ hole segment, holes[j]? = some hole → segments[j]? = some segment →
          ∀ fault, ¬ Malformed j segment hole fault := by
  have hsound : ∀ {i : Nat} {hole : Hole A} {segment : String} {r : String × Placeholder A (Template A)},
      classifyHole i segment hole = .ok r → ∀ fault, ¬ Malformed i segment hole fault := by
    intro i hole segment r hr fault hbad
    rw [classifyHole_eq_error_iff.2 hbad] at hr
    cases hr
  cases hc : classify segments holes with
  | ok c =>
    dsimp only
    unfold classify at hc
    split at hc
    · next hl =>
      obtain ⟨hps, hss, hlast, hall⟩ := classifyFrom_ok hl hc
      refine ⟨hl, hps, hss, fun i hole segment hi hs => ?_, hlast, indicesOf_ascending _, fun category category' i h h' => ?_,
        fun i => ?_, categoryOf?_eq _⟩
      · obtain ⟨trimmed, p, ht, hp, hone⟩ := hall i hole segment hi hs
        rw [Nat.zero_add] at hone
        exact ⟨hsound hone, trimmed, p, ht, hp, classifyHole_keeps hone⟩
      · obtain ⟨p, hp, rfl⟩ := mem_indicesOf.1 h
        obtain ⟨q, hq, rfl⟩ := mem_indicesOf.1 h'
        rw [Option.some.inj (hp.symm.trans hq)]
      · rw [← hps]
        constructor
        · rintro ⟨category, h⟩
          obtain ⟨p, hp, -⟩ := mem_indicesOf.1 h
          exact (List.getElem?_eq_some_iff.1 hp).1
        · exact fun hi => ⟨_, mem_indicesOf.2 ⟨_, List.getElem?_eq_getElem hi, rfl⟩⟩
    · cases hc
  | error fault =>
    dsimp only
    unfold classify at hc
    split at hc
    · next hl =>
      obtain ⟨i, hole, segment, hi, hs, hfault, hfirst⟩ := classifyFrom_error hc
      rw [Nat.zero_add] at hfault
      refine .inr ⟨hl, i, hole, segment, hi, hs, classifyHole_eq_error_iff.1 hfault, fun j hj hole segment hi hs => ?_⟩
      obtain ⟨r, hr⟩ := hfirst j hj hole segment hi hs
      rw [Nat.zero_add] at hr
      exact hsound hr
    · next hl =>
      cases hc
      exact .inl ⟨hl, rfl⟩

end LiveMarkup
