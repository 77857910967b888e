import RichDoc.Markdown.Fragment
import RichDoc.Stats

/-! Rendering a document without recursion. The nodes are visited from the last to the first, so
that every child is done before its parent. What a node became waits in a slot until its parent
takes it out, and leaves the slot empty. A slot that nobody takes from stays filled. -/

namespace RichDoc.Markdown

open Text

/-- Why a fragment cannot be taken: the node does not come after the one that asks for it, or it
lies outside the document. -/
inductive Unavailable where
  | early (place parent : Nat)
  | outside (place : Nat)
  deriving DecidableEq

def Unavailable.message : Unavailable → String
  | early place parent =>
    "Rendering error: node " ++ toString place ++ " is not rendered before its parent " ++
      toString parent
  | outside place => "Rendering error: node " ++ toString place ++ " is outside the document"

/-- What the nodes of a document became, as far as it is known and not yet taken. -/
abbrev Slots := Array (Option Fragment)

/-- The state of a rendering: the slots, and the statistics of the nodes visited so far. -/
structure Pass where
  slots : Slots
  stats : Stats := {}

/-- The state before any node of a document is visited. -/
def Pass.start (d : Document) : Pass := { slots := Array.replicate d.size none }

/-- Takes the fragment of a node out of its slot; an empty slot gives the empty text. -/
def take (parent place : Nat) (slots : Slots) : Except Unavailable (Fragment × Slots) :=
  if place ≤ parent then .error (.early place parent)
  else
    match slots[place]? with
    | some slot => .ok (slot.getD (.text []), slots.setIfInBounds place none)
    | none => .error (.outside place)

/-- Takes the fragments of a list of places out of their slots, in order, after those in `taken`,
which holds the last one first. -/
def takeAll (d : Document) (parent : Nat) (taken : List Child) :
    List Nat → Slots → Except Unavailable (List Child × Slots)
  | [], slots => .ok (taken.reverse, slots)
  | place :: places, slots =>
    match d.kind? place with
    | none => .error (.outside place)
    | some kind =>
      match take parent place slots with
      | .error u => .error u
      | .ok (fragment, slots) => takeAll d parent (⟨kind, fragment⟩ :: taken) places slots

/-- Takes the fragments of the top-level nodes out of their slots, in order, after those in `taken`,
which holds the last one first. Places without a slot are passed over. -/
def takeRoots (taken : List Fragment) : List Nat → Slots → List Fragment
  | [], _ => taken.reverse
  | place :: places, slots =>
    match slots[place]? with
    | some slot =>
      takeRoots (slot.getD (.text []) :: taken) places (slots.setIfInBounds place none)
    | none => takeRoots taken places slots

/-- The children whose fragments a node takes: a leaf takes none, and a table only its rows. -/
def wanted (d : Document) (node : Node) : List Nat :=
  match node.kind with
  | .table => node.children.toList.filter (d.kind? · = some .tableRow)
  | kind => if kind.isLeaf then [] else node.children.toList

/-- Counts a node when statistics are asked for, and fills its slot from those of its children. -/
def visit (o : Options) (d : Document) (pass : Pass) (place : Nat) : Except Unavailable Pass := do
  let some node := d.node? place | .error (.outside place)
  let (children, slots) ← takeAll d place [] (wanted d node) pass.slots
  return {
    slots := slots.setIfInBounds place (some (fragmentOf o node.kind children))
    stats := if o.collectStats then pass.stats.record node.kind else pass.stats }

/-- Visits the nodes from a place on, the last one first. -/
def visitFrom (o : Options) (d : Document) (place : Nat) : Except Unavailable Pass :=
  (List.range' place (d.size - place)).reverse.foldlM (visit o d) (Pass.start d)

/-- The blocks at the top level that are not empty, a blank line apart. -/
def joinRoots (roots : List Fragment) : List Char :=
  joinPresent blankLine (roots.map Fragment.asText)

/-- The document as Markdown, with the statistics of its nodes when they are asked for. -/
def render (o : Options) (d : Document) : Except Unavailable (List Char × Stats) := do
  let pass ← visitFrom o d 0
  return (joinRoots (takeRoots [] d.roots.toList pass.slots), pass.stats)

@[simp] theorem render_empty (o : Options) : render o .empty = .ok ([], {}) := rfl

end RichDoc.Markdown
