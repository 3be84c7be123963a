/-
Ordered forests with a label at every node.

A forest is empty, or a first tree (its label and the forest of its children) followed by the rest. Having one inductive
type for child lists and for whole forests means that one induction covers both.

Nodes are picked out by a test on labels. `labels` lists a forest in document order; `prune`, `graft` and `update`
change it at the picked nodes, and `labels_update` and `labels_append` say what they do to that list.
-/
namespace LiveMarkup

/-- an ordered forest -/
inductive Forest (α : Type) where
  | nil
  | cons (label : α) (children rest : Forest α)
deriving DecidableEq, Repr, Inhabited

namespace Forest

variable {α : Type}

def tree (label : α) (children : Forest α) : Forest α := cons label children nil

def labels : Forest α → List α
  | nil => []
  | cons a cs rest => a :: (labels cs ++ labels rest)

/-- the labels of the first level -/
def roots : Forest α → List α
  | nil => []
  | cons a _ rest => a :: roots rest

def append : Forest α → Forest α → Forest α
  | nil, g => g
  | cons a cs rest, g => cons a cs (append rest g)

instance : Append (Forest α) := ⟨append⟩

/-- changes the labels of the picked nodes -/
def update (pick : α → Bool) (f : α → α) : Forest α → Forest α
  | nil => nil
  | cons a cs rest => cons (if pick a then f a else a) (update pick f cs) (update pick f rest)

/-- the first picked node in document order: its label and its children -/
def find? (pick : α → Bool) : Forest α → Option (α × Forest α)
  | nil => none
  | cons a cs rest => if pick a then some (a, cs) else (find? pick cs).or (find? pick rest)

/-- the label of the first node that has a picked child -/
def parentOf? (pick : α → Bool) : Forest α → Option α
  | nil => none
  | cons a cs rest =>
    if cs.roots.any pick then some a else (parentOf? pick cs).or (parentOf? pick rest)

/-- drops every picked node with all that is below it -/
def prune (pick : α → Bool) : Forest α → Forest α
  | nil => nil
  | cons a cs rest => if pick a then prune pick rest else cons a (prune pick cs) (prune pick rest)

/-- puts `new` before the first picked node of the first level, or at the end if there is none -/
def insertBefore (pick : α → Bool) (new : Forest α) : Forest α → Forest α
  | nil => new
  | cons a cs rest => if pick a then new ++ cons a cs rest else cons a cs (insertBefore pick new rest)

/-- changes the children of the picked nodes -/
def graft (pick : α → Bool) (f : Forest α → Forest α) : Forest α → Forest α
  | nil => nil
  | cons a cs rest =>
    cons a (if pick a then f (graft pick f cs) else graft pick f cs) (graft pick f rest)

/-- dissolves every tree whose root is not kept, down to the nodes that are, which become roots -/
def retain (keep : α → Bool) : Forest α → Forest α
  | nil => nil
  | cons a cs rest => if keep a then cons a cs (retain keep rest) else retain keep cs ++ retain keep rest

@[simp] theorem labels_append (f g : Forest α) : (f ++ g).labels = f.labels ++ g.labels := by
  show (f.append g).labels = _
  induction f with
  | nil => rfl
  | cons a cs rest _ ih => simp [append, labels, ih]

@[simp] theorem roots_append (f g : Forest α) : (f ++ g).roots = f.roots ++ g.roots := by
  show (f.append g).roots = _
  induction f with
  | nil => rfl
  | cons a cs rest _ ih => simp [append, roots, ih]

theorem labels_update (pick : α → Bool) (h : α → α) (f : Forest α) :
    (f.update pick h).labels = f.labels.map fun a => if pick a then h a else a := by
  induction f with
  | nil => rfl
  | cons a cs rest ihc ihr => simp [update, labels, ihc, ihr]

end Forest

end LiveMarkup
