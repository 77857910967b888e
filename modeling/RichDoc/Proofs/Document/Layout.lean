import RichDoc.Proofs.Document.Arena

/-! How trees lie in a document. A document in pre-order holds each tree whole before the next, a
node right before its children. Adding the nodes of a tree one by one, each under its parent, lays
the tree out in this way, and a document laid out from trees has these trees. -/

namespace RichDoc

namespace Tree

mutual

def size : Tree → Nat
  | node _ ts => sizeAll ts + 1

def sizeAll : List Tree → Nat
  | [] => 0
  | t :: ts => t.size + sizeAll ts

end

/-- The places of the top nodes of trees that lie one after another from a place on. -/
def places (place : Nat) : List Tree → List Nat
  | [] => []
  | t :: ts => place :: places (place + t.size) ts

mutual

/-- The nodes of a tree in pre-order, when its top node has the given depth and place. -/
def layout (depth place : Nat) : Tree → List Node
  | node kind ts =>
    { kind, children := (places (place + 1) ts).toArray, depth } ::
      layoutAll (depth + 1) (place + 1) ts

/-- The nodes of a list of trees in pre-order, when they lie one after another from a place on. -/
def layoutAll (depth place : Nat) : List Tree → List Node
  | [] => []
  | t :: ts => t.layout depth place ++ layoutAll depth (place + t.size) ts

end

mutual

@[simp] theorem length_layout (depth place : Nat) :
    ∀ t : Tree, (t.layout depth place).length = t.size
  | node _ ts => by simp [layout, size, length_layoutAll]

@[simp] theorem length_layoutAll (depth place : Nat) :
    ∀ ts : List Tree, (layoutAll depth place ts).length = sizeAll ts
  | [] => rfl
  | t :: ts => by simp [layoutAll, sizeAll, length_layout, length_layoutAll]

end

mutual

theorem kinds_layout (depth place : Nat) :
    ∀ t : Tree, (t.layout depth place).map Node.kind = t.kinds
  | node _ ts => by simp [layout, kinds, kinds_layoutAll]

/-- A layout keeps the kinds of the nodes, in pre-order. -/
theorem kinds_layoutAll (depth place : Nat) :
    ∀ ts : List Tree, (layoutAll depth place ts).map Node.kind = ts.flatMap kinds
  | [] => rfl
  | t :: ts => by simp [layoutAll, kinds_layout, kinds_layoutAll]

end

theorem size_pos (t : Tree) : 0 < t.size := by
  cases t
  simp [size]

theorem mem_places {place c : Nat} {ts : List Tree} (h : c ∈ places place ts) :
    place ≤ c ∧ c < place + sizeAll ts := by
  induction ts generalizing place with
  | nil => simp [places] at h
  | cons t ts ih =>
    have := t.size_pos
    simp only [sizeAll]
    rcases List.mem_cons.mp h with rfl | h
    · omega
    · have := ih h
      omega

theorem places_append (place : Nat) (ts us : List Tree) :
    places place (ts ++ us) = places place ts ++ places (place + sizeAll ts) us := by
  induction ts generalizing place with
  | nil => rfl
  | cons t ts ih => simp [places, sizeAll, ih, Nat.add_assoc]

theorem layoutAll_append (depth place : Nat) (ts us : List Tree) :
    layoutAll depth place (ts ++ us) =
      layoutAll depth place ts ++ layoutAll depth (place + sizeAll ts) us := by
  induction ts generalizing place with
  | nil => rfl
  | cons t ts ih => simp [layoutAll, sizeAll, ih, Nat.add_assoc]

mutual

/-- The additions, in pre-order, that lay a tree out under a parent, its top node at a place. -/
def steps (parent : Option Nat) (place : Nat) : Tree → List (Option Nat × Kind)
  | node kind ts => (parent, kind) :: stepsAll (some place) (place + 1) ts

def stepsAll (parent : Option Nat) (place : Nat) : List Tree → List (Option Nat × Kind)
  | [] => []
  | t :: ts => t.steps parent place ++ stepsAll parent (place + t.size) ts

end

end Tree

namespace Document

open RichDoc.Tree

/-- The document in which a list of trees is laid out in pre-order. -/
def ofTrees (version : Option Nat) (ts : List Tree) (skipped : Nat) : Document where
  version := version
  nodes := (layoutAll 0 0 ts).toArray
  roots := (places 0 ts).toArray
  skipped := skipped

/-! ### Additions at the end -/

/-- The node with some places listed last among its children. -/
def listing (listed : List Nat) (n : Node) : Node :=
  { n with children := n.children ++ listed.toArray }

/-- The document with some places listed last under a node, or at the top level, and with some nodes
after all others. -/
def extend (d : Document) (parent : Option Nat) (listed : List Nat) (added : List Node) :
    Document :=
  match parent with
  | none => { d with nodes := d.nodes ++ added.toArray, roots := d.roots ++ listed.toArray }
  | some p => { d with nodes := d.nodes.modify p (listing listed) ++ added.toArray }

/-- A parent that lies in a document, or none. -/
def Holds (d : Document) (parent : Option Nat) : Prop := ∀ p ∈ parent, p < d.size

variable {d : Document} {parent : Option Nat}

theorem Holds.filter_eq (h : d.Holds parent) : parent.filter (· < d.size) = parent := by
  cases parent with
  | none => rfl
  | some p => exact Option.filter_some_pos (by simpa using h p rfl)

theorem push_eq_extend (h : d.Holds parent) (kind : Kind) :
    d.push parent kind = d.extend parent [d.size] [{ kind, depth := d.depthUnder parent }] := by
  cases parent with
  | none => simp [push, extend]
  | some p =>
    rw [push_of_lt (h p rfl)]
    have : (fun n : Node => { n with children := n.children.push d.size }) = listing [d.size] := by
      funext n
      simp [listing]
    simp [extend, adopt, this]

@[simp] theorem size_extend (listed : List Nat) (added : List Node) :
    (d.extend parent listed added).size = d.size + added.length := by
  cases parent <;> simp [extend, size]

theorem modify_append {α : Type} {xs : Array α} {i : Nat} (h : i < xs.size) (f : α → α)
    (ys : Array α) : (xs ++ ys).modify i f = xs.modify i f ++ ys := by
  apply Array.ext_getElem?
  intro j
  simp only [Array.getElem?_modify, Array.getElem?_append, Array.size_modify]
  split
  · next hij => subst hij; simp [h]
  · rfl

theorem modify_push_last {α : Type} (xs : Array α) (x : α) (f : α → α) :
    (xs.push x).modify xs.size f = xs.push (f x) := by
  apply Array.ext_getElem?
  intro j
  simp only [Array.getElem?_modify, Array.getElem?_push]
  grind

theorem modify_modify {α : Type} (xs : Array α) (i : Nat) (f g : α → α) :
    (xs.modify i f).modify i g = xs.modify i (g ∘ f) := by
  apply Array.ext_getElem?
  intro j
  simp only [Array.getElem?_modify]
  split <;> simp

theorem listing_comp (listed listed' : List Nat) :
    listing listed' ∘ listing listed = listing (listed ++ listed') := by
  funext n
  simp [listing]

theorem depthUnder_extend (h : d.Holds parent) (listed : List Nat) (added : List Node) :
    (d.extend parent listed added).depthUnder parent = d.depthUnder parent := by
  cases parent with
  | none => rfl
  | some p =>
    have hp : p < d.nodes.size := h p rfl
    have : (d.nodes.modify p (listing listed))[p]? = (d.nodes[p]?).map (listing listed) := by
      simp [Array.getElem?_modify]
    simp only [extend, depthUnder, Option.bind_some, node?]
    rw [Array.getElem?_append_left (by simpa using hp), this]
    cases d.nodes[p]? <;> rfl

theorem extend_extend (h : d.Holds parent) (listed listed' : List Nat) (added added' : List Node) :
    (d.extend parent listed added).extend parent listed' added' =
      d.extend parent (listed ++ listed') (added ++ added') := by
  cases parent with
  | none => simp [extend]
  | some p =>
    have hp : p < (d.nodes.modify p (listing listed)).size := by simpa [size] using h p rfl
    simp only [extend, modify_append hp, modify_modify, listing_comp]
    simp

theorem extend_nil (d : Document) (parent : Option Nat) : d.extend parent [] [] = d := by
  cases parent with
  | none => simp [extend]
  | some p =>
    have : d.nodes.modify p (listing []) = d.nodes := by
      apply Array.ext_getElem?
      intro j
      have hid : listing [] = id := by
        funext n
        simp [listing]
      simp only [Array.getElem?_modify, hid, Option.map_id_fun, id_eq, ite_self]
    simp [extend, this]

/-- Nodes added under the node that was added last are listed as its children. -/
theorem extend_last (listed listed' : List Nat) (n : Node) (added : List Node) :
    (d.extend parent listed [n]).extend (some d.size) listed' added =
      d.extend parent listed (listing listed' n :: added) := by
  cases parent with
  | none => simp [extend, size, modify_push_last, Array.append_singleton]
  | some p =>
    have := modify_push_last (d.nodes.modify p (listing listed)) n (listing listed')
    rw [Array.size_modify] at this
    simp [extend, size, this, Array.append_singleton]

/-! ### Grafting trees -/

/-- The document with trees laid out after all other nodes, under a parent. -/
def graft (d : Document) (parent : Option Nat) (ts : List Tree) : Document :=
  d.extend parent (places d.size ts) (layoutAll (d.depthUnder parent) d.size ts)

@[simp] theorem size_graft (ts : List Tree) : (d.graft parent ts).size = d.size + sizeAll ts := by
  simp [graft]

theorem depthUnder_graft (h : d.Holds parent) (ts : List Tree) :
    (d.graft parent ts).depthUnder parent = d.depthUnder parent := depthUnder_extend h _ _

theorem Holds.graft (h : d.Holds parent) (ts : List Tree) : (d.graft parent ts).Holds parent :=
  fun p hp => by
    rw [size_graft]
    exact Nat.lt_add_right _ (h p hp)

@[simp] theorem graft_nil (d : Document) (parent : Option Nat) : d.graft parent [] = d :=
  extend_nil d parent

theorem graft_graft (h : d.Holds parent) (ts us : List Tree) :
    (d.graft parent ts).graft parent us = d.graft parent (ts ++ us) := by
  rw [graft, size_graft, depthUnder_graft h, graft, extend_extend h, graft, places_append,
    layoutAll_append]

/-- A node that is pushed, with trees grafted under it, is a tree grafted. -/
theorem push_graft (h : d.Holds parent) (kind : Kind) (ts : List Tree) :
    (d.push parent kind).graft (some d.size) ts = d.graft parent [.node kind ts] := by
  rw [graft, depthUnder_push_last, size_push, push_eq_extend h, extend_last]
  simp [graft, places, layoutAll, layout, listing]

theorem graft_empty (version : Option Nat) (ts : List Tree) :
    graft { version } none ts = ofTrees version ts 0 := by
  simp [graft, extend, ofTrees, depthUnder, size]

theorem Holds.push (parent : Option Nat) (kind : Kind) : (d.push parent kind).Holds (some d.size) :=
  fun p hp => by
    obtain rfl : d.size = p := by simpa using hp
    simp

mutual

/-- The additions of a tree graft it. -/
theorem pushAll_steps : ∀ (t : Tree) {d : Document} {parent : Option Nat}, d.Holds parent →
    d.pushAll (t.steps parent d.size) = d.graft parent [t]
  | .node kind ts, d, parent, h => by
    have hts := pushAll_stepsAll ts (Holds.push (d := d) parent kind)
    rw [size_push] at hts
    rw [steps, ← push_graft h, ← hts]
    rfl

theorem pushAll_stepsAll : ∀ (ts : List Tree) {d : Document} {parent : Option Nat},
    d.Holds parent → d.pushAll (stepsAll parent d.size ts) = d.graft parent ts
  | [], d, parent, _ => (graft_nil d parent).symm
  | t :: ts, d, parent, h => by
    have hts := pushAll_stepsAll ts (h.graft [t])
    have hsize : (d.graft parent [t]).size = d.size + t.size := by simp [sizeAll]
    rw [hsize, graft_graft h] at hts
    rw [stepsAll, pushAll, List.foldl_append]
    show ((d.pushAll (t.steps parent d.size)).pushAll _) = _
    rw [pushAll_steps t h, hts]
    rfl

end

/-! ### Reading trees back -/

/-- The children of a node in a layout lie after it. -/
theorem treeAt_of_children {place : Nat} {n : Node} {ts : List Tree} (hn : d.node? place = some n)
    (hchildren : n.children = (places (place + 1) ts).toArray)
    (hsize : place + 1 + sizeAll ts ≤ d.size) :
    d.treeAt place = .node n.kind ((places (place + 1) ts).map d.treeAt) := by
  have hlater : d.later place = places (place + 1) ts := by
    rw [later, children_of_node? hn, hchildren, List.filter_eq_self]
    intro c hc
    have := mem_places (by simpa using hc)
    simp only [decide_eq_true_eq]
    omega
  rw [treeAt, List.attach_map_val (f := d.treeAt), hlater]
  simp [kind?, hn]

mutual

theorem treeAt_layout : ∀ (t : Tree) (depth : Nat) (before after : List Node),
    d.nodes.toList = before ++ (t.layout depth before.length ++ after) →
      d.treeAt before.length = t
  | .node kind ts, depth, before, after, h => by
    let n : Node := ⟨kind, (places (before.length + 1) ts).toArray, depth⟩
    have h : d.nodes.toList =
        before ++ n :: (layoutAll (depth + 1) (before.length + 1) ts ++ after) := h
    have hn : d.node? before.length = some n := by
      rw [node?, ← Array.getElem?_toList, h]
      simp
    have hsize : before.length + 1 + sizeAll ts ≤ d.size := by
      rw [size, ← Array.length_toList, h]
      simp
      omega
    -- The layout of the children begins right behind the node.
    have hts := treeAt_layoutAll ts (depth + 1) (before ++ [n]) after (by rw [h]; simp)
    rw [List.length_append, List.length_singleton] at hts
    rw [treeAt_of_children hn rfl hsize, hts]

theorem treeAt_layoutAll : ∀ (ts : List Tree) (depth : Nat) (before after : List Node),
    d.nodes.toList = before ++ (layoutAll depth before.length ts ++ after) →
      (places before.length ts).map d.treeAt = ts
  | [], _, _, _, _ => rfl
  | t :: ts, depth, before, after, h => by
    rw [layoutAll, List.append_assoc] at h
    have ht := treeAt_layout t _ _ _ h
    have hts := treeAt_layoutAll ts depth (before ++ t.layout depth before.length) after
      (by rw [h]; simp)
    rw [List.length_append, length_layout] at hts
    rw [places, List.map_cons, ht, hts]

end

theorem trees_ofTrees (version : Option Nat) (ts : List Tree) (skipped : Nat) :
    (ofTrees version ts skipped).trees = ts :=
  treeAt_layoutAll ts 0 [] [] (by simp [ofTrees])

theorem pushAll_stepsAll_empty (version : Option Nat) (ts : List Tree) :
    pushAll { version } (stepsAll none 0 ts) = ofTrees version ts 0 := by
  have h : ({ version } : Document).Holds none := fun p hp => absurd hp (by simp)
  have hpush : pushAll { version } (stepsAll none 0 ts) = graft { version } none ts :=
    pushAll_stepsAll ts h
  rw [hpush, graft_empty]

/-- Every list of trees is the trees of a document. -/
theorem trees_pushAll_stepsAll (version : Option Nat) (ts : List Tree) :
    (pushAll { version } (stepsAll none 0 ts)).trees = ts := by
  rw [pushAll_stepsAll_empty, trees_ofTrees]

end Document

end RichDoc
