import RichDoc.Kind

/-! Documents. The nodes of a document lie in one array in the order in which they were added; a
node lists its children by their places, and the document lists its top-level nodes. A node is only
ever added under an earlier one, so each child lies after its parent. -/

namespace RichDoc

/-- A node, the places of its children, and its distance from the top level. -/
structure Node where
  kind : Kind
  children : Array Nat := #[]
  depth : Nat := 0
  deriving DecidableEq, Inhabited

/-- A document. `skipped` counts the parts of its source that were left out. -/
structure Document where
  version : Option Nat := none
  nodes : Array Node := #[]
  roots : Array Nat := #[]
  skipped : Nat := 0
  deriving DecidableEq, Inhabited

namespace Document

def empty : Document := {}

def size (d : Document) : Nat := d.nodes.size

def node? (d : Document) (i : Nat) : Option Node := d.nodes[i]?

def kind? (d : Document) (i : Nat) : Option Kind := (d.node? i).map Node.kind

/-- The children of the node at a place; there are none outside the document. -/
def children (d : Document) (i : Nat) : Array Nat := ((d.node? i).map Node.children).getD #[]

/-- The depth of a node added under `parent`. -/
def depthUnder (d : Document) (parent : Option Nat) : Nat :=
  match parent.bind d.node? with
  | some p => p.depth + 1
  | none => 0

/-- The nodes with `child` listed last among the children of `parent`. -/
def adopt (nodes : Array Node) (parent child : Nat) : Array Node :=
  nodes.modify parent fun n => { n with children := n.children.push child }

/-- The document with one more node, at place `d.size`. It is a child of `parent`, or at the top
level when there is no such node. -/
def push (d : Document) (parent : Option Nat) (kind : Kind) : Document :=
  let node : Node := { kind, depth := d.depthUnder parent }
  let place := d.size
  match parent.filter (· < place) with
  | some p => { d with nodes := (adopt d.nodes p place).push node }
  | none => { d with nodes := d.nodes.push node, roots := d.roots.push place }

/-- The document with one more part of its source left out. -/
def skip (d : Document) : Document := { d with skipped := d.skipped + 1 }

def pushAll (d : Document) (steps : List (Option Nat × Kind)) : Document :=
  steps.foldl (fun d step => d.push step.1 step.2) d

/-- The depth of the deepest node, and 0 when there is none. -/
def maxDepth (d : Document) : Nat := d.nodes.foldl (fun deepest n => max deepest n.depth) 0

/-- One more of `name` in a list of counts that is sorted by name. -/
def tally (name : String) : List (String × Nat) → List (String × Nat)
  | [] => [(name, 1)]
  | (key, count) :: rest =>
    if name = key then (key, count + 1) :: rest
    else if name < key then (name, 1) :: (key, count) :: rest
    else (key, count) :: tally name rest

/-- How many nodes there are of each kind, sorted by the kind's name. -/
def kindCounts (d : Document) : List (String × Nat) :=
  d.nodes.foldl (fun counts n => tally n.kind.name counts) []

@[simp] theorem size_empty : empty.size = 0 := rfl

@[simp] theorem size_push (d : Document) (parent : Option Nat) (kind : Kind) :
    (d.push parent kind).size = d.size + 1 := by
  simp only [push, size]
  split <;> simp [adopt]

@[simp] theorem size_skip (d : Document) : d.skip.size = d.size := rfl

@[simp] theorem skipped_push (d : Document) (parent : Option Nat) (kind : Kind) :
    (d.push parent kind).skipped = d.skipped := by
  simp only [push]
  split <;> rfl

@[simp] theorem version_push (d : Document) (parent : Option Nat) (kind : Kind) :
    (d.push parent kind).version = d.version := by
  simp only [push]
  split <;> rfl

theorem pushAll_cons (d : Document) (step : Option Nat × Kind) (steps : List (Option Nat × Kind)) :
    d.pushAll (step :: steps) = (d.push step.1 step.2).pushAll steps := rfl

end Document

end RichDoc
