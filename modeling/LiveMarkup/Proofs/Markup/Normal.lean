/-
Normal forests: no empty text, and no two texts side by side.

Printing does not show where one text ends and the next begins, nor an empty one. `normalize` drops empty texts and
joins neighbours; the printed form stays what it is, and a normal forest stays as it is.

- `print_normalize`: normalizing leaves the printed form alone;
- `isNormal_normalize`, `normalize_of_isNormal`: the result is normal, and normal forests are left alone;
- `wellFormed_normalize`: it keeps forests well-formed.
-/
import LiveMarkup.Markup.Printer
import LiveMarkup.Proofs.Markup.WellFormed

namespace LiveMarkup.Markup

/-! ## Joining texts -/

/-- puts a node before a forest: an empty text is dropped, and a text joins the one it meets -/
def consJoined : Node → List Node → List Node
  | .text d, ns =>
    if d = "" then ns
    else match ns with
      | .text e :: ns => .text (d ++ e) :: ns
      | ns => .text d :: ns
  | n, ns => n :: ns

mutual
def Node.normalize : Node → Node
  | .element tag attributes children => .element tag attributes (normalize children)
  | .text d => .text d
  | .comment d => .comment d
/-- a forest without empty texts and with neighbouring texts joined -/
def normalize : List Node → List Node
  | [] => []
  | n :: ns => consJoined n.normalize (normalize ns)
end

def beginsWithText : List Node → Bool
  | .text _ :: _ => true
  | _ => false

def Node.isText : Node → Bool
  | .text _ => true
  | _ => false

mutual
def Node.IsNormal : Node → Prop
  | .element _ _ children => IsNormal children
  | .text d => d ≠ ""
  | .comment _ => True
/-- no empty text and no two texts side by side in a forest -/
def IsNormal : List Node → Prop
  | [] => True
  | n :: ns => n.IsNormal ∧ (n.isText = true → beginsWithText ns = false) ∧ IsNormal ns
end

/-! ## Printing -/

theorem escape_append (place : Place) (s t : String) : escape place (s ++ t) = escape place s ++ escape place t := by
  simp [escape, String.toList_append]

theorem printText_append (parent : Option String) (s t : String) :
    printText parent (s ++ t) = printText parent s ++ printText parent t := by
  unfold printText
  split
  · rfl
  · exact escape_append _ _ _

theorem printText_empty (parent : Option String) : printText parent "" = "" := by
  unfold printText
  split <;> rfl

theorem print_consJoined (parent : Option String) (n : Node) (ns : List Node) :
    printAll parent (consJoined n ns) = n.print parent ++ printAll parent ns := by
  fun_cases consJoined n ns with
  | case1 => simp [Node.print, printText_empty]
  | case2 d hd e ns => simp [Node.print, printAll, printText_append, String.append_assoc]
  | case3 => simp [printAll]
  | case4 => simp [printAll]

mutual
theorem Node.print_normalize (parent : Option String) : (n : Node) → n.normalize.print parent = n.print parent
  | .element tag attributes children => by
    rw [Node.normalize, Node.print, Node.print, printAll_normalize (some tag) children]
  | .text _ => rfl
  | .comment _ => rfl
theorem printAll_normalize (parent : Option String) :
    (ns : List Node) → printAll parent (normalize ns) = printAll parent ns
  | [] => rfl
  | n :: ns => by
    rw [normalize, print_consJoined, Node.print_normalize parent n, printAll_normalize parent ns, printAll]
end

/-- normalizing leaves the printed form alone -/
theorem print_normalize (ns : List Node) : print (normalize ns) = print ns := printAll_normalize none ns

/-! ## Normal forests -/

theorem isNormal_consJoined {n : Node} {ns : List Node} (hn : n.IsNormal ∨ n = .text "") (hns : IsNormal ns) :
    IsNormal (consJoined n ns) := by
  fun_cases consJoined n ns with
  | case1 => exact hns
  | case2 d hd e ns =>
    obtain ⟨he, hb, hns⟩ := hns
    refine ⟨fun h => hd ?_, fun _ => hb rfl, hns⟩
    have := congrArg String.toList h
    rw [String.toList_append] at this
    exact String.toList_inj.1 (List.append_eq_nil_iff.1 this).1
  | case3 d hd =>
    rename_i hne
    refine ⟨hd, fun _ => ?_, hns⟩
    unfold beginsWithText
    split
    · next e ns => exact (hne e ns rfl).elim
    · rfl
  | case4 =>
    rename_i hne
    refine ⟨hn.resolve_right (hne ""), fun h => ?_, hns⟩
    cases n with
    | text d => exact (hne d rfl).elim
    | element => cases h
    | comment => cases h

mutual
theorem Node.isNormal_normalize : (n : Node) → n.normalize.IsNormal ∨ n.normalize = .text ""
  | .element _ _ children => .inl (isNormal_normalize children)
  | .text d => by
    by_cases h : d = ""
    · exact .inr (by rw [Node.normalize, h])
    · exact .inl h
  | .comment _ => .inl trivial
/-- what has been normalized is normal -/
theorem isNormal_normalize : (ns : List Node) → IsNormal (normalize ns)
  | [] => trivial
  | n :: ns => isNormal_consJoined (Node.isNormal_normalize n) (isNormal_normalize ns)
end

theorem consJoined_of_isNormal {n : Node} {ns : List Node} (hn : n.IsNormal)
    (hb : n.isText = true → beginsWithText ns = false) : consJoined n ns = n :: ns := by
  fun_cases consJoined n ns with
  | case1 => exact absurd rfl hn
  | case2 => exact absurd (hb rfl) (by simp [beginsWithText])
  | case3 => rfl
  | case4 => rfl

mutual
theorem Node.normalize_of_isNormal : (n : Node) → n.IsNormal → n.normalize = n
  | .element _ _ children, h => by rw [Node.normalize, normalize_of_isNormal children h]
  | .text _, _ => rfl
  | .comment _, _ => rfl
/-- a normal forest is left alone -/
theorem normalize_of_isNormal : (ns : List Node) → IsNormal ns → normalize ns = ns
  | [], _ => rfl
  | n :: ns, ⟨hn, hb, hns⟩ => by
    rw [normalize, Node.normalize_of_isNormal n hn, normalize_of_isNormal ns hns, consJoined_of_isNormal hn hb]
end

/-! ## Well-formed forests -/

theorem wellFormed_consJoined {n : Node} {ns : List Node} (hn : n.WellFormed) (hns : WellFormed ns) :
    WellFormed (consJoined n ns) := by
  fun_cases consJoined n ns with
  | case1 => exact hns
  | case2 => exact ⟨trivial, hns.2⟩
  | case3 => exact ⟨trivial, hns⟩
  | case4 => exact ⟨hn, hns⟩

theorem isRawContent_normalize {tag : String} {children : List Node} (h : IsRawContent tag children) :
    IsRawContent tag (normalize children) := by
  rcases h with rfl | ⟨d, rfl, hd⟩
  · exact .inl rfl
  · by_cases he : d = ""
    · exact .inl (by simp [normalize, Node.normalize, consJoined, he])
    · exact .inr ⟨d, by simp [normalize, Node.normalize, consJoined, he], hd⟩

mutual
theorem Node.wellFormed_normalize : (n : Node) → n.WellFormed → n.normalize.WellFormed
  | .element _ _ children, ⟨ht, ha, hv, hr, hc⟩ =>
    ⟨ht, ha, fun h => by rw [hv h]; rfl, fun h => isRawContent_normalize (hr h), wellFormed_normalize children hc⟩
  | .text _, _ => trivial
  | .comment _, h => h
/-- normalizing keeps a forest well-formed -/
theorem wellFormed_normalize : (ns : List Node) → WellFormed ns → WellFormed (normalize ns)
  | [], _ => trivial
  | n :: ns, ⟨hn, hns⟩ => wellFormed_consJoined (Node.wellFormed_normalize n hn) (wellFormed_normalize ns hns)
end

end LiveMarkup.Markup
