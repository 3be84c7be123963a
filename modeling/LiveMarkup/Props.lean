/-
Props: values by name, and what a change set is.

A `Props` is a table whose names are distinct; its entries keep an order, which is the order in which they are applied.
`changes current incoming` keeps the incoming entries that `current` lacks or holds differently.
`get?_insert`: an insertion changes one name and no other.
-/
import LiveMarkup.Entries
import LiveMarkup.Value

namespace LiveMarkup

/-- values by name, in the order in which they are applied -/
structure Props where
  entries : Entries Value
  nodup : entries.names.Nodup

instance : DecidableEq Props := fun p q =>
  if h : p.entries = q.entries then isTrue (by cases p; cases q; simp_all) else isFalse (by rintro rfl; exact h rfl)

namespace Props

def empty : Props := ⟨[], List.nodup_nil⟩

instance : EmptyCollection Props := ⟨empty⟩
instance : Inhabited Props := ⟨empty⟩

def isEmpty (p : Props) : Bool := p.entries.isEmpty

def get? (p : Props) (name : String) : Option Value := p.entries.get? name

def insert (p : Props) (name : String) (value : Value) : Props :=
  ⟨p.entries.set name value, Entries.nodup_names_set p.nodup name value⟩

/-- gives every name of `es` its value, in order -/
def extend (p : Props) (es : Entries Value) : Props := es.foldl (fun p e => p.insert e.1 e.2) p

/-- the table of a list of entries; a later entry of a name wins -/
def ofList (es : Entries Value) : Props := empty.extend es

def filter (p : Props) (keep : String → Value → Bool) : Props :=
  ⟨p.entries.filter (fun e => keep e.1 e.2), (List.filter_sublist.map _).nodup p.nodup⟩

/-- whether both tables give the same values to the same names -/
def same (p q : Props) : Bool :=
  p.entries.length == q.entries.length && p.entries.all (fun e => (q.get? e.1).any (e.2.same ·))

/-- the text of a name; nothing if it has no value -/
def text (p : Props) (name : String) : String := ((p.get? name).map Value.toText).getD ""

/-- the entries of `incoming` that are absent from `current` or different in it -/
def changes (current incoming : Props) : Props :=
  incoming.filter fun name value => !(current.get? name).any (·.same value)

@[simp] theorem get?_empty (name : String) : (∅ : Props).get? name = none := rfl

/-- an insertion changes one name and no other -/
theorem get?_insert (p : Props) (name : String) (value : Value) (n : String) :
    (p.insert name value).get? n = if n = name then some value else p.get? n :=
  Entries.get?_set p.entries name value n

end Props

end LiveMarkup
