import RichDoc.Markdown.Render

/-! Trees of nodes, and the trees that lie in a document. What a tree becomes in Markdown is a plain
recursion: the rule of the node's kind, applied to what its children become. -/

namespace RichDoc

open Markdown

inductive Tree where
  | node (kind : Kind) (children : List Tree)

namespace Tree

def kind : Tree → Kind
  | node kind _ => kind

@[simp] theorem kind_node (kind : Kind) (ts : List Tree) : (node kind ts).kind = kind := rfl

/-- What holds of a node when it holds of its children holds of every tree. -/
@[elab_as_elim, induction_eliminator]
theorem induct {motive : Tree → Prop}
    (node : ∀ kind ts, (∀ t ∈ ts, motive t) → motive (.node kind ts)) : ∀ t, motive t
  | .node kind ts => node kind ts fun t _ => induct node t

/-- The kinds of the nodes of a tree, in pre-order. -/
def kinds : Tree → List Kind
  | node kind ts => kind :: ts.flatMap fun t => t.kinds

/-- What a tree becomes: the rule of its kind, applied to what its children become. -/
def fragment (o : Options) : Tree → Fragment
  | node kind ts => fragmentOf o kind (ts.map fun t => ⟨t.kind, t.fragment o⟩)

def child (o : Options) (t : Tree) : Child := ⟨t.kind, t.fragment o⟩

def text (o : Options) (t : Tree) : List Char := (t.fragment o).asText

@[simp] theorem kind_child (o : Options) (t : Tree) : (t.child o).kind = t.kind := rfl

theorem fragment_node (o : Options) (kind : Kind) (ts : List Tree) :
    (node kind ts).fragment o = fragmentOf o kind (ts.map (child o)) := by
  rw [fragment]
  rfl

theorem text_node (o : Options) (kind : Kind) (ts : List Tree) :
    (node kind ts).text o = textOf o kind (ts.map (child o)) := by
  rw [text, fragment_node, asText_fragmentOf]

/-- The text of a list of trees: those that are not empty, a blank line apart. -/
def textAll (o : Options) (ts : List Tree) : List Char := joinRoots (ts.map (fragment o))

end Tree

namespace Document

/-- The children of a node that lie after it. In a document that was built by additions they are all
its children. -/
def later (d : Document) (place : Nat) : List Nat :=
  (d.children place).toList.filter fun c => place < c ∧ c < d.size

/-- The tree of the node at a place. -/
def treeAt (d : Document) (place : Nat) : Tree :=
  .node ((d.kind? place).getD default)
    ((d.later place).attach.map fun ⟨c, _⟩ => d.treeAt c)
termination_by d.size - place
decreasing_by
  next hc =>
    simp only [later, List.mem_filter, decide_eq_true_eq] at hc
    omega

def trees (d : Document) : List Tree := d.roots.toList.map d.treeAt

end Document

end RichDoc
