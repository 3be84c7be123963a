/-
What is read has no empty text, so reading it back from its printed form does nothing but join neighbouring texts.

A reader may leave texts side by side, where a comment was dropped or an end tag closed nothing, but each of them has
taken at least one character. Printing runs them together, and the next reading finds one text where they stood.

- `filled_read`: no text that is read is empty, at any depth;
- `normalize_eq_joinTexts`: without empty texts, normalizing only joins neighbours;
- `withoutTexts_joinTexts`: joining leaves elements, their attributes and comments as they are.
-/
import LiveMarkup.Proofs.Markup.RoundTrip

namespace LiveMarkup.Markup

/-! ## Texts with something in them -/

mutual
def Node.Filled : Node → Prop
  | .element _ _ children => Filled children
  | .text d => d ≠ ""
  | .comment _ => True
/-- no empty text in a forest -/
def Filled : List Node → Prop
  | [] => True
  | n :: ns => n.Filled ∧ Filled ns
end

theorem filled_iff {ns : List Node} : Filled ns ↔ ∀ n ∈ ns, n.Filled := by
  induction ns with
  | nil => simp [Filled]
  | cons n ns ih => simp [Filled, ih]

/-- a reference stands for one character, so decoding leaves something of every text -/
theorem decode_cons_ne_empty (c : Char) (cs : List Char) : decode (c :: cs) ≠ "" := by
  have h : decodeChars (c :: cs) ≠ [] := by
    rw [decodeChars]
    split
    · split <;> exact List.cons_ne_nil _ _
    · exact List.cons_ne_nil _ _
  intro he
  exact h (by simpa [decode] using congrArg String.toList he)

theorem elementToken_filled (tag : List Char) (attributes : Attributes) (closing : Closing) (cs : List Char) {n : Node}
    (h : (elementToken tag attributes closing cs).1 = .node n) : n.Filled := by
  unfold elementToken at h
  dsimp only at h
  split at h
  · cases h
    trivial
  · split at h
    · cases h
      by_cases hr : (rawRun (lowerChars tag) cs).1 = []
      · simp [hr, Node.Filled, Filled]
      · simp [hr, Node.Filled, Filled]
    · cases h

theorem scan_filled (c : Char) (cs : List Char) {n : Node} (h : (scan c cs).1 = .node n) : n.Filled := by
  unfold scan at h
  split at h
  · split at h
    · cases h
      trivial
    · cases h
    · exact elementToken_filled _ _ _ _ h
  · cases h
    exact decode_cons_ne_empty c _

theorem tokens_filled (cs : List Char) {n : Node} (h : Token.node n ∈ tokens cs) : n.Filled := by
  fun_induction tokens cs with
  | case1 => cases h
  | case2 c cs ih =>
    rcases List.mem_cons.1 h with he | h
    · exact scan_filled c cs he.symm
    · exact ih h

/-- no text that is read is empty, at any depth -/
theorem filled_read (s : String) : Filled (read s) :=
  filled_iff.2 (forest_all (fun _ h => tokens_filled _ h) fun _ _ _ _ hc => filled_iff.2 hc)

/-! ## Joining neighbours -/

/-- puts a node before a forest, where a text joins the one it meets -/
def joinNext : Node → List Node → List Node
  | .text d, .text e :: ns => .text (d ++ e) :: ns
  | n, ns => n :: ns

mutual
def Node.joinTexts : Node → Node
  | .element tag attributes children => .element tag attributes (joinTexts children)
  | .text d => .text d
  | .comment d => .comment d
/-- a forest with every run of neighbouring texts joined into one, at every depth -/
def joinTexts : List Node → List Node
  | [] => []
  | n :: ns => joinNext n.joinTexts (joinTexts ns)
end

example : joinTexts [.text "a", .text "b", .element "p" [] [.text "c", .text "d"], .text "e"] =
    [.text "ab", .element "p" [] [.text "cd"], .text "e"] := by decide

theorem consJoined_eq_joinNext {n : Node} (hn : n ≠ .text "") (ns : List Node) : consJoined n ns = joinNext n ns := by
  cases n with
  | text d =>
    have hd : d ≠ "" := fun h => hn (h ▸ rfl)
    rcases ns with - | ⟨m, ns⟩
    · simp [consJoined, joinNext, hd]
    · cases m <;> simp [consJoined, joinNext, hd]
  | element => rfl
  | comment => rfl

mutual
theorem Node.normalize_eq_joinTexts : (n : Node) → n.Filled → n.normalize = n.joinTexts
  | .element _ _ children, h => by rw [Node.normalize, Node.joinTexts, normalize_eq_joinTexts children h]
  | .text _, _ => rfl
  | .comment _, _ => rfl
/-- without empty texts, normalizing only joins neighbours -/
theorem normalize_eq_joinTexts : (ns : List Node) → Filled ns → normalize ns = joinTexts ns
  | [], _ => rfl
  | n :: ns, ⟨hn, hns⟩ => by
    have hne : n.joinTexts ≠ .text "" := by
      cases n with
      | text d => exact fun h => hn (Node.text.inj h)
      | element => exact Node.noConfusion
      | comment => exact Node.noConfusion
    rw [normalize, joinTexts, Node.normalize_eq_joinTexts n hn, normalize_eq_joinTexts ns hns,
      consJoined_eq_joinNext hne]
end

/-! ## Everything but texts -/

mutual
/-- a node without the texts below it; nothing of a text -/
def Node.withoutTexts : Node → List Node
  | .element tag attributes children => [.element tag attributes (withoutTexts children)]
  | .text _ => []
  | .comment data => [.comment data]
/-- the elements, attributes and comments of a forest, in their places -/
def withoutTexts : List Node → List Node
  | [] => []
  | n :: ns => n.withoutTexts ++ withoutTexts ns
end

theorem withoutTexts_joinNext (n : Node) (ns : List Node) :
    withoutTexts (joinNext n ns) = n.withoutTexts ++ withoutTexts ns := by
  fun_cases joinNext n ns with
  | case1 => rfl
  | case2 => rfl

mutual
theorem Node.withoutTexts_joinTexts : (n : Node) → n.joinTexts.withoutTexts = n.withoutTexts
  | .element _ _ children => by
    rw [Node.joinTexts, Node.withoutTexts, Node.withoutTexts, Markup.withoutTexts_joinTexts children]
  | .text _ => rfl
  | .comment _ => rfl
/-- joining leaves elements, their attributes and comments as they are -/
theorem withoutTexts_joinTexts : (ns : List Node) → withoutTexts (joinTexts ns) = withoutTexts ns
  | [] => rfl
  | n :: ns => by
    rw [joinTexts, withoutTexts_joinNext, Node.withoutTexts_joinTexts n, withoutTexts_joinTexts ns, withoutTexts]
end

/-! ## Reading twice -/

/-- what was read is read back from its printed form with neighbouring texts joined -/
theorem read_print_read (s : String) : read (print (read s)) = joinTexts (read s) := by
  rw [read_print_normalize (wellFormed_read s), normalize_eq_joinTexts _ (filled_read s)]

/-- after one pass the printed form stays what it is -/
theorem print_joinTexts {ns : List Node} (h : Filled ns) : print (joinTexts ns) = print ns := by
  rw [← normalize_eq_joinTexts ns h, print_normalize]

/-- **Printing and reading undo each other** on the forests that are well-formed and normal, and on no others. -/
theorem read_print_iff (ns : List Node) : read (print ns) = ns ↔ WellFormed ns ∧ IsNormal ns := by
  constructor
  · intro h
    have hw : WellFormed ns := h ▸ wellFormed_read (print ns)
    refine ⟨hw, ?_⟩
    have hn : normalize ns = ns := (read_print_normalize hw).symm.trans h
    exact hn ▸ isNormal_normalize ns
  · rintro ⟨hw, hn⟩
    exact read_print hw hn

end LiveMarkup.Markup
