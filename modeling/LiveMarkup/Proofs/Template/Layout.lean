/-
Layouts: markup trees with placeholders, and their printed form as a definition.

A layout has placeholders where they can stand: names, slots and children among nodes, attributes, events and actions in
start tags. It is printed like a markup tree, with ` name=` before an attribute placeholder and a space before an event
or an action; what is printed between two holes is a segment. The skeleton that is meant is the same tree with a marker
at the spot of every placeholder, numbered in the order of printing.

- `classify_printed`: the printed layout is classified as its placeholders;
- `source_printed`: the source of its skeleton is the printed layout with the markers in it.
-/
import LiveMarkup.Proofs.Template.Skeleton

namespace LiveMarkup

open Markup

variable {A : Type}

namespace Layout

/-! ## Holes -/

/-- a forwarded prop as it is written: the text before it, and the binding -/
structure Forward where
  before : String
  binding : Binding
deriving DecidableEq, Repr

def Forward.segment (f : Forward) : String := f.before ++ f.binding.child ++ "="

/-- a placeholder in a start tag -/
inductive TagHole (A : Type) where
  | bound (name prop : String)
  | event (name : String) (topic : Option String)
  | action (run : A) (param : Option String)

/-- a placeholder among nodes -/
inductive NodeHole (A : Type) where
  | text (prop : String)
  | slot (name : Option String)
  | child (template : Template A) (forwards : List Forward) (tail : String)

namespace TagHole

/-- how it is written in a definition -/
def hole : TagHole A → Hole A
  | .bound _ prop => .name prop
  | .event name topic => .directive (.event name topic)
  | .action run param => .directive (.action run param)

/-- what it binds -/
def placeholder : TagHole A → Placeholder A (Template A)
  | .bound name prop => .attribute prop name
  | .event name topic => .event name (topic.getD name)
  | .action run param => .action run param

/-- the part of the text before the hole that belongs to it -/
def cut : TagHole A → String
  | .bound name _ => name ++ "="
  | .event .. | .action .. => ""

/-- names are not empty, and that of an attribute has no blank -/
def WellNamed : TagHole A → Prop
  | .bound name prop => name ≠ "" ∧ (∀ c ∈ name.toList, isBlank c = false) ∧ prop ≠ ""
  | .event name topic => name ≠ "" ∧ topic ≠ some ""
  | .action _ param => param ≠ some ""

end TagHole

namespace NodeHole

def hole : NodeHole A → Hole A
  | .text prop => .name prop
  | .slot name => .directive (.slot name)
  | .child template forwards tail =>
    .directive (.component template (forwards.map Forward.segment ++ [tail]) (forwards.map (·.binding.outer)))

def placeholder : NodeHole A → Placeholder A (Template A)
  | .text prop => .text prop
  | .slot name => .slot (name.getD "default")
  | .child template forwards _ => .child template (forwards.map (·.binding))

/-- whether it is a plain prop name -/
def isName : NodeHole A → Bool
  | .text _ => true
  | _ => false

/-- names are not empty; that of a child's prop has no blank and comes first in its segment or after a blank -/
def WellNamed : NodeHole A → Prop
  | .text prop => prop ≠ ""
  | .slot name => name ≠ some ""
  | .child _ forwards _ => ∀ f ∈ forwards, f.binding.child ≠ "" ∧ f.binding.outer ≠ "" ∧
      (∀ c ∈ f.binding.child.toList, isBlank c = false) ∧ ∀ c, f.before.toList.getLast? = some c → isBlank c = true

end NodeHole

/-! ## Trees -/

/-- a piece of a start tag -/
inductive Item (A : Type) where
  | literal (name value : String)
  | hole (h : TagHole A)

/-- a node of a layout -/
inductive Piece (A : Type) where
  | element (tag : String) (items : List (Item A)) (children : List (Piece A))
  | text (data : String)
  | comment (data : String)
  | hole (h : NodeHole A)

def Item.isHole : Item A → Bool
  | .literal .. => false
  | .hole _ => true

/-- an attribute that markup can have, and that is not taken for a marker; or a placeholder -/
def Item.WellPlaced : Item A → Prop
  | .literal name _ => IsAttributeName name ∧ Marker.ofAttribute? name = none
  | .hole h => h.WellNamed

def beginsWithText : List (Piece A) → Bool
  | .text _ :: _ => true
  | _ => false

def Piece.isName : Piece A → Bool
  | .hole h => h.isName
  | _ => false

def beginsWithName : List (Piece A) → Bool
  | p :: _ => p.isName
  | [] => false

def Piece.text? : Piece A → Option String
  | .text data => some data
  | _ => none

mutual
/-- a node that can be printed: its tag is one, and is not taken for a marker; what it holds is what its tag can hold -/
def Piece.WellPlaced : Piece A → Prop
  | .element tag items children =>
    IsTag tag ∧ Marker.ofTag? tag = none ∧ (∀ i ∈ items, i.WellPlaced) ∧ (isVoid tag = true → children = []) ∧
      (isRawText tag = true → children = [] ∨
        ∃ data, children = [.text data] ∧ ¬ endMark tag <:+: lowerChars data.toList) ∧ WellPlaced children
  | .text data => data ≠ ""
  | .comment data => ¬ ['-', '-', '>'] <:+: data.toList
  | .hole h => h.WellNamed
/-- nodes that can be printed, no two texts of them side by side, and no text that ends with `=` before a prop name -/
def WellPlaced : List (Piece A) → Prop
  | [] => True
  | p :: ps => p.WellPlaced ∧ (∀ data, p.text? = some data → beginsWithText ps = false ∧
      (data.toList.getLast? = some '=' → beginsWithName ps = false)) ∧ WellPlaced ps
end

mutual
def Piece.count : Piece A → Nat
  | .element _ items children => items.countP Item.isHole + count children
  | .text _ => 0
  | .comment _ => 0
  | .hole _ => 1
/-- the number of placeholders in a layout -/
def count : List (Piece A) → Nat
  | [] => 0
  | p :: ps => p.count + count ps
end

/-! ## The skeleton that is meant -/

/-- attributes with a marker for every placeholder, from number `index` on -/
def markItems (index : Nat) : List (Item A) → Attributes
  | [] => []
  | .literal name value :: items => (name, value) :: markItems index items
  | .hole h :: items => ((⟨h.placeholder.category, index⟩ : Marker).name, "") :: markItems (index + 1) items

mutual
def Piece.mark (index : Nat) : Piece A → Markup.Node
  | .element tag items children =>
    .element tag (markItems index items) (mark (index + items.countP Item.isHole) children)
  | .text data => .text data
  | .comment data => .comment data
  | .hole h => .element (⟨h.placeholder.category, index⟩ : Marker).name [] []
/-- a layout with a marker for every placeholder, from number `index` on -/
def mark (index : Nat) : List (Piece A) → List Markup.Node
  | [] => []
  | p :: ps => p.mark index :: mark (index + p.count) ps
end

/-! ## Printing -/

/-- what is printed: text, or a hole with the text that is cut off before it and what it binds -/
inductive Chunk (A : Type) where
  | text (s : String)
  | hole (cut : String) (h : Hole A) (p : Placeholder A (Template A))

def Item.print : Item A → List (Chunk A)
  | .literal name value => [.text (printAttribute name value)]
  | .hole h => [.text " ", .hole h.cut h.hole h.placeholder]

mutual
/-- a node below an element with tag `parent`, if it has one -/
def Piece.print (parent : Option String) : Piece A → List (Chunk A)
  | .element tag items children =>
    .text ("<" ++ tag) :: (items.flatMap Item.print ++
      .text ">" :: (printAll (some tag) children ++ [.text (printEnd tag)]))
  | .text data => [.text (printText parent data)]
  | .comment data => [.text (printComment data)]
  | .hole h => [.hole "" h.hole h.placeholder]
def printAll (parent : Option String) : List (Piece A) → List (Chunk A)
  | [] => []
  | p :: ps => p.print parent ++ printAll parent ps
end

/-- the text between holes, the first of it after `s` -/
def segmentsFrom (s : String) : List (Chunk A) → List String
  | [] => [s]
  | .text t :: cs => segmentsFrom (s ++ t) cs
  | .hole cut _ _ :: cs => (s ++ cut) :: segmentsFrom "" cs

def holesIn : List (Chunk A) → List (Hole A)
  | [] => []
  | .text _ :: cs => holesIn cs
  | .hole _ h _ :: cs => h :: holesIn cs

def boundIn : List (Chunk A) → List (Placeholder A (Template A))
  | [] => []
  | .text _ :: cs => boundIn cs
  | .hole _ _ p :: cs => p :: boundIn cs

/-- the segments of the definition that a layout is printed as -/
def segments (ps : List (Piece A)) : List String := segmentsFrom "" (printAll none ps)

def holes (ps : List (Piece A)) : List (Hole A) := holesIn (printAll none ps)

/-- the placeholders of a layout in the order of printing -/
def placeholders (ps : List (Piece A)) : List (Placeholder A (Template A)) := boundIn (printAll none ps)

/-! ## Classification -/

/-- the text between holes with everything cut off, the first of it after `s` -/
def trimmedFrom (s : String) : List (Chunk A) → List String
  | [] => [s]
  | .text t :: cs => trimmedFrom (s ++ t) cs
  | .hole _ _ _ :: cs => s :: trimmedFrom "" cs

/-- every hole is classified as what it binds, given all the text before it -/
def Classifies (s : String) : List (Chunk A) → Prop
  | [] => True
  | .text t :: cs => Classifies (s ++ t) cs
  | .hole cut h p :: cs => (∀ index, classifyHole index (s ++ cut) h = .ok (s, p)) ∧ Classifies "" cs

theorem length_segmentsFrom (s : String) (cs : List (Chunk A)) :
    (segmentsFrom s cs).length = (holesIn cs).length + 1 := by
  induction cs generalizing s with
  | nil => rfl
  | cons c cs ih =>
    cases c with
    | text t => exact ih (s ++ t)
    | hole cut h p => exact congrArg (· + 1) (ih "")

theorem classifyFrom_chunks {s : String} {cs : List (Chunk A)} (h : Classifies s cs) (index : Nat) :
    classifyFrom index (segmentsFrom s cs) (holesIn cs) = .ok ⟨trimmedFrom s cs, boundIn cs⟩ := by
  induction cs generalizing s index with
  | nil => rfl
  | cons c cs ih =>
    cases c with
    | text t => exact ih h index
    | hole cut hole p =>
      have hrest := ih h.2 (index + 1)
      rw [segmentsFrom, holesIn, classifyFrom, h.1 index]
      simp only [bind, Except.bind, hrest]
      rfl

/-- the text ends with something else than an equals sign -/
def Ends (s : String) : Prop := s.toList.getLast? ≠ some '='

instance (s : String) : Decidable (Ends s) := inferInstanceAs (Decidable (_ ≠ _))

theorem attributeBefore?_eq_none {s : String} (h : Ends s) : attributeBefore? s = none := by
  unfold attributeBefore?
  split
  · next back hb =>
    refine absurd ?_ h
    rw [List.getLast?_eq_head?_reverse, hb]
    rfl
  · rfl

theorem ends_append {s t : String} (hne : t ≠ "") (h : Ends t) : Ends (s ++ t) := by
  have hne : t.toList ≠ [] := fun e => hne (String.toList_eq_nil_iff.1 e)
  rw [Ends, String.toList_append, List.getLast?_append_of_ne_nil _ hne]
  exact h

/-- what is cut off is the name, up to the blank before it -/
theorem attributeBefore?_cut {before name : String} (hn : ∀ c ∈ name.toList, isBlank c = false)
    (hb : ∀ c, before.toList.getLast? = some c → isBlank c = true) :
    attributeBefore? (before ++ name ++ "=") = some (before, name) := by
  have hreverse : (before ++ name ++ "=").toList.reverse = '=' :: (name.toList.reverse ++ before.toList.reverse) := by
    simp
  have hpos : ∀ c ∈ name.toList.reverse, (!isBlank c) = true := fun c hc => by
    rw [hn c (List.mem_reverse.1 hc)]
    rfl
  have hstop : before.toList.reverse.takeWhile (!isBlank ·) = [] ∧
      before.toList.reverse.dropWhile (!isBlank ·) = before.toList.reverse := by
    rw [List.getLast?_eq_head?_reverse] at hb
    cases hr : before.toList.reverse with
    | nil => exact ⟨rfl, rfl⟩
    | cons c cs =>
      have hc : (!isBlank c) = false := by rw [hb c (by rw [hr]; rfl)]; rfl
      exact ⟨by rw [List.takeWhile_cons, hc]; rfl, by rw [List.dropWhile_cons, hc]; rfl⟩
  unfold attributeBefore?
  rw [hreverse]
  simp only [Option.some.injEq, Prod.mk.injEq]
  rw [List.takeWhile_append_of_pos hpos, List.dropWhile_append_of_pos hpos, hstop.1, hstop.2, List.append_nil,
    List.reverse_reverse, List.reverse_reverse, String.ofList_toList, String.ofList_toList]
  exact ⟨rfl, rfl⟩

theorem requireName_eq_ok {name : String} (h : name ≠ "") (index : Nat) (role : NameRole) :
    requireName name index role = .ok () := by
  have : name.isEmpty = false := by simpa using h
  rw [requireName, this]
  rfl

theorem TagHole.classifies {h : TagHole A} (hw : h.WellNamed) {s : String}
    (hs : s.toList.getLast? = some ' ') (index : Nat) :
    classifyHole index (s ++ h.cut) h.hole = .ok (s, h.placeholder) := by
  cases h with
  | bound name prop =>
    obtain ⟨hn, hb, hp⟩ := hw
    have hcut : attributeBefore? (s ++ (name ++ "=")) = some (s, name) := by
      rw [← String.append_assoc]
      refine attributeBefore?_cut hb fun c hc => ?_
      rw [hs] at hc
      cases hc
      decide
    have hne : name.isEmpty = false := by simpa using hn
    simp only [cut, hole, classifyHole, requireName_eq_ok hp, hcut, hne, bind, Except.bind]
    rfl
  | event name topic =>
    obtain ⟨he, ht⟩ := hw
    have htopic : topic.getD name ≠ "" := by
      cases topic with
      | none => exact he
      | some t => exact fun e => ht (congrArg some e)
    simp only [cut, hole, classifyHole, requireName_eq_ok he, requireName_eq_ok htopic, bind, Except.bind,
      String.append_empty]
    rfl
  | action run param =>
    cases param with
    | none => simp only [cut, hole, classifyHole, bind, Except.bind, String.append_empty]; rfl
    | some name =>
      have hn : name ≠ "" := fun e => hw (congrArg some e)
      simp only [cut, hole, classifyHole, requireName_eq_ok hn, bind, Except.bind, String.append_empty]
      rfl

theorem classifyBindings_forwards {forwards : List Forward}
    (h : ∀ f ∈ forwards, f.binding.child ≠ "" ∧ f.binding.outer ≠ "" ∧
      (∀ c ∈ f.binding.child.toList, isBlank c = false) ∧ ∀ c, f.before.toList.getLast? = some c → isBlank c = true)
    (tail : String) (index binding : Nat) :
    classifyBindings index binding (forwards.map Forward.segment ++ [tail]) (forwards.map (·.binding.outer)) =
      .ok (forwards.map (·.binding)) := by
  induction forwards generalizing binding with
  | nil => rfl
  | cons f fs ih =>
    rw [List.forall_mem_cons] at h
    obtain ⟨⟨hc, ho, hn, hb⟩, hfs⟩ := h
    have hchild : f.binding.child.isEmpty = false := by simpa using hc
    have houter : f.binding.outer.isEmpty = false := by simpa using ho
    have hone : classifyBinding index binding f.segment f.binding.outer = .ok f.binding := by
      simp only [classifyBinding, Forward.segment, attributeBefore?_cut hn hb, hchild, houter]
      rfl
    rw [List.map_cons, List.map_cons, List.cons_append, classifyBindings, hone]
    simp only [bind, Except.bind, ih hfs]
    rfl

theorem NodeHole.classifies {h : NodeHole A} (hw : h.WellNamed) {s : String} (hs : h.isName = true → Ends s)
    (index : Nat) : classifyHole index s h.hole = .ok (s, h.placeholder) := by
  cases h with
  | text prop =>
    simp only [hole, classifyHole, requireName_eq_ok hw, attributeBefore?_eq_none (hs rfl), bind, Except.bind]
    rfl
  | slot name =>
    have hn : name.getD "default" ≠ "" := by
      cases name with
      | none => decide
      | some n => exact fun e => hw (congrArg some e)
    simp only [hole, classifyHole, requireName_eq_ok hn, bind, Except.bind]
    rfl
  | child template forwards tail =>
    have hl : (forwards.map Forward.segment ++ [tail]).length = (forwards.map (·.binding.outer)).length + 1 := by
      rw [List.length_append, List.length_map, List.length_map]
      rfl
    simp only [hole, classifyHole, if_pos hl, classifyBindings_forwards hw, bind, Except.bind]
    rfl

theorem classifies_items {items : List (Item A)} (hw : ∀ i ∈ items, i.WellPlaced) {cs : List (Chunk A)}
    (h : ∀ s, Classifies s cs) (s : String) : Classifies s (items.flatMap Item.print ++ cs) := by
  induction items generalizing s with
  | nil => exact h s
  | cons i items ih =>
    rw [List.forall_mem_cons] at hw
    rw [List.flatMap_cons, List.append_assoc]
    cases i with
    | literal name value => exact ih hw.2 _
    | hole t =>
      refine ⟨TagHole.classifies hw.1 ?_, ih hw.2 _⟩
      rw [String.toList_append, List.getLast?_append_of_ne_nil _ (by decide)]
      rfl

theorem ends_escape {data : String} (place : Place) (h : Ends data) : Ends (escape place data) := by
  rcases List.eq_nil_or_concat data.toList with hnil | ⟨cs, c, hcs⟩
  · rw [Ends, escape, String.toList_ofList, hnil]
    simp
  · rw [List.concat_eq_append] at hcs
    rw [Ends, hcs, List.getLast?_concat] at h
    rw [Ends, escape, String.toList_ofList, hcs, List.flatMap_append, List.flatMap_cons, List.flatMap_nil,
      List.append_nil]
    have hone : escapeChar place c ≠ [] ∧ (escapeChar place c).getLast? ≠ some '=' := by
      unfold escapeChar
      split
      · decide
      · decide
      · decide
      · cases place <;> decide
      · exact ⟨List.cons_ne_nil _ _, h⟩
    rw [List.getLast?_append_of_ne_nil _ hone.1]
    exact hone.2

theorem ends_printText {data : String} (parent : Option String) (hne : data ≠ "") (h : Ends data) (s : String) :
    Ends (s ++ printText parent data) := by
  rw [printText]
  split
  · exact ends_append hne h
  · refine ends_append (fun e => ?_) (ends_escape .content h)
    have hnil : (escape .content data).toList = [] := by rw [e]; rfl
    exact hne (escape_eq_empty_iff.1 hnil)

mutual
/-- the holes of a node are classified; what it leaves behind does not end with an equals sign, unless it is a text that
does -/
theorem Piece.classifies : (p : Piece A) → p.WellPlaced → (parent : Option String) → (s : String) →
    (p.isName = true → Ends s) → (cs : List (Chunk A)) →
    (∀ s', ((∀ data, p.text? = some data → Ends data) → Ends s') → Classifies s' cs) → Classifies s (p.print parent ++ cs)
  | .element tag items children, ⟨_, _, hi, hv, _, hw⟩, parent, s, _, cs, hcs => by
    have hgt : ∀ s : String, Ends (s ++ ">") := fun s => ends_append (by decide) (by decide)
    rw [Piece.print, List.cons_append, List.append_assoc, List.cons_append, List.append_assoc]
    refine classifies_items hi (fun s => ?_) _
    by_cases hvoid : isVoid tag = true
    · obtain rfl := hv hvoid
      have hend : printEnd tag = "" := if_pos hvoid
      rw [hend]
      refine hcs _ fun _ => ?_
      rw [String.append_empty]
      exact hgt s
    · have hend : ∀ s', Classifies s' (.text (printEnd tag) :: cs) := by
        intro s'
        refine hcs _ fun _ => ?_
        rw [printEnd, if_neg hvoid, ← String.append_assoc]
        exact hgt _
      exact classifies_all children hw (some tag) (s ++ ">") (fun _ => hgt s) _ hend
  | .text data, hw, parent, s, _, cs, hcs =>
    hcs _ fun h => ends_printText parent hw (h data rfl) s
  | .comment data, _, parent, s, _, cs, hcs => by
    refine hcs (s ++ printComment data) fun _ => ?_
    rw [printComment, ← String.append_assoc]
    exact ends_append (by decide) (by decide)
  | .hole h, hw, parent, s, hs, cs, hcs => by
    refine ⟨fun index => ?_, hcs "" fun _ => by decide⟩
    rw [String.append_empty]
    exact NodeHole.classifies hw hs index
theorem classifies_all : (ps : List (Piece A)) → WellPlaced ps → (parent : Option String) → (s : String) →
    (beginsWithName ps = true → Ends s) → (cs : List (Chunk A)) → (∀ s', Classifies s' cs) →
    Classifies s (printAll parent ps ++ cs)
  | [], _, _, s, _, _, hcs => hcs s
  | p :: ps, ⟨hp, ht, hps⟩, parent, s, hs, cs, hcs => by
    rw [printAll, List.append_assoc]
    refine Piece.classifies p hp parent s hs _ fun s' hs' => ?_
    refine classifies_all ps hps parent s' (fun hn => hs' fun data hd => ?_) cs hcs
    exact fun heq => Bool.false_ne_true (((ht data hd).2 heq).symm.trans hn)
end

/-- a printed layout is classified as its placeholders -/
theorem classify_printed {ps : List (Piece A)} (h : WellPlaced ps) :
    classify (segments ps) (holes ps) = .ok ⟨trimmedFrom "" (printAll none ps), placeholders ps⟩ := by
  have hc : Classifies "" (printAll none ps) := by
    have := classifies_all ps h none "" (fun _ => by decide) [] fun _ => trivial
    rwa [List.append_nil] at this
  rw [classify, segments, holes, if_pos (length_segmentsFrom _ _), classifyFrom_chunks hc]
  rfl

/-! ## The source of the skeleton -/

/-- what is printed, with a marker for every hole, from number `index` on -/
def sourceOf (index : Nat) : List (Chunk A) → String
  | [] => ""
  | .text t :: cs => t ++ sourceOf index cs
  | .hole _ _ p :: cs => Marker.source ⟨p.category, index⟩ ++ sourceOf (index + 1) cs

theorem skeletonSource_trimmed (index : Nat) (s : String) (cs : List (Chunk A)) :
    skeletonSource index (trimmedFrom s cs) (boundIn cs) = s ++ sourceOf index cs := by
  induction cs generalizing index s with
  | nil => simp [trimmedFrom, boundIn, skeletonSource, sourceOf]
  | cons c cs ih =>
    cases c with
    | text t => rw [trimmedFrom, boundIn, ih, sourceOf, String.append_assoc]
    | hole cut h p => rw [trimmedFrom, boundIn, skeletonSource, ih, sourceOf, String.empty_append, String.append_assoc]

/-- the source of the skeleton is the printed layout with a marker for every hole -/
theorem source_printed (ps : List (Piece A)) :
    skeletonSource 0 (trimmedFrom "" (printAll none ps)) (placeholders ps) = sourceOf 0 (printAll none ps) := by
  rw [placeholders, skeletonSource_trimmed, String.empty_append]

end Layout

end LiveMarkup
