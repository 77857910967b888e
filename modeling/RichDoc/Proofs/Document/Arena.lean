import RichDoc.Proofs.Document.Tree
import Mathlib.Data.List.Nodup
import Mathlib.Data.List.Perm.Basic

/-! The shape of a document that was built by additions. Each node is listed once, at the top level
or among the children of one other node that lies before it. -/

namespace RichDoc.Document

/-- Documents built from an empty one by additions, and by leaving parts of a source out. -/
inductive Built : Document → Prop
  | empty (version : Option Nat) : Built { version }
  | push {d : Document} (parent : Option Nat) (kind : Kind) : Built d → Built (d.push parent kind)
  | skip {d : Document} : Built d → Built d.skip

/-- The places that a document lists: those at the top level, and then the children of each node. -/
def links (d : Document) : List Nat :=
  d.roots.toList ++ d.nodes.toList.flatMap (·.children.toList)

/-- Each node is listed once, and as a child only under a node before it. -/
structure WellFormed (d : Document) : Prop where
  links_perm : d.links.Perm (List.range d.size)
  lt_child : ∀ {p c : Nat}, c ∈ d.children p → p < c

theorem node?_of_lt {d : Document} {i : Nat} (h : i < d.size) : d.node? i = some d.nodes[i] := by
  simp [node?, Array.getElem?_eq_getElem h]

theorem children_of_node? {d : Document} {i : Nat} {n : Node} (h : d.node? i = some n) :
    d.children i = n.children := by
  simp [children, h]

/-- The kinds in the tree of a node are kinds of nodes of the document. -/
theorem mem_kinds_treeAt {d : Document} {place : Nat} (h : place < d.size) {kind : Kind}
    (hkind : kind ∈ (d.treeAt place).kinds) : ∃ n ∈ d.nodes, n.kind = kind := by
  fun_induction treeAt d place with
  | case1 place ih =>
    rw [Tree.kinds, List.mem_cons, List.mem_flatMap] at hkind
    rcases hkind with rfl | ⟨t, ht, hkind⟩
    · exact ⟨d.nodes[place], Array.getElem_mem h, by simp [kind?, node?_of_lt h]⟩
    · obtain ⟨⟨c, hc⟩, -, rfl⟩ := List.mem_map.mp ht
      have hlt : c < d.size := by simp [later] at hc; exact hc.2.2
      exact ih c hc hlt hkind

/-! ### Additions -/

theorem push_of_lt {d : Document} {p : Nat} {kind : Kind} (h : p < d.size) :
    d.push (some p) kind =
      { d with
        nodes := (adopt d.nodes p d.size).push { kind, depth := d.depthUnder (some p) } } := by
  have hp : (some p).filter (· < d.size) = some p := by simp [h]
  simp only [push, hp]

theorem push_of_not_lt {d : Document} {parent : Option Nat} {kind : Kind}
    (h : ∀ p ∈ parent, ¬p < d.size) :
    d.push parent kind =
      { d with nodes := d.nodes.push { kind, depth := d.depthUnder parent }
               roots := d.roots.push d.size } := by
  have hp : parent.filter (· < d.size) = none := by
    cases parent with
    | none => rfl
    | some p => simpa using h p rfl
  simp only [push, hp]

/-- A node is added under an earlier one, or else at the top level. -/
theorem parent_cases (d : Document) (parent : Option Nat) :
    (∃ p, parent = some p ∧ p < d.size) ∨ ∀ p ∈ parent, ¬p < d.size := by
  cases parent with
  | none => exact .inr (by simp)
  | some p =>
    by_cases h : p < d.size
    · exact .inl ⟨p, rfl, h⟩
    · exact .inr (by simpa using h)

theorem node?_push (d : Document) (parent : Option Nat) (kind : Kind) (i : Nat) :
    (d.push parent kind).node? i =
      if i = d.size then some { kind, depth := d.depthUnder parent }
      else if parent = some i then
        (d.node? i).map fun n => { n with children := n.children.push d.size }
      else d.node? i := by
  rcases parent_cases d parent with ⟨p, rfl, hp⟩ | hp
  · simp only [push_of_lt hp, node?, adopt, Array.getElem?_push, Array.size_modify,
      Array.getElem?_modify, Option.some.injEq]
    rfl
  · simp only [push_of_not_lt hp, node?, Array.getElem?_push]
    by_cases hi : parent = some i
    · have : d.nodes[i]? = none := by simpa [size] using hp i hi
      simp [hi, this, size]
    · simp [hi, size]

/-- An addition changes nothing of an earlier node but its children. -/
theorem map_node?_push {α : Type} {f : Node → α}
    (hf : ∀ (n : Node) (children : Array Nat), f { n with children } = f n) (d : Document)
    (parent : Option Nat) (kind : Kind) (i : Nat) :
    ((d.push parent kind).node? i).map f =
      if i = d.size then some (f { kind, depth := d.depthUnder parent })
      else (d.node? i).map f := by
  rw [node?_push]
  split
  · rfl
  · split
    · simp [Option.map_map, Function.comp_def, hf]
    · rfl

theorem kind?_push (d : Document) (parent : Option Nat) (kind : Kind) (i : Nat) :
    (d.push parent kind).kind? i = if i = d.size then some kind else d.kind? i :=
  map_node?_push (fun _ _ => rfl) d parent kind i

theorem depthUnder_push_last (d : Document) (parent : Option Nat) (kind : Kind) :
    (d.push parent kind).depthUnder (some d.size) = d.depthUnder parent + 1 := by
  simp [depthUnder, node?_push]

theorem children_push (d : Document) (parent : Option Nat) (kind : Kind) (i : Nat) :
    (d.push parent kind).children i =
      if parent = some i ∧ i < d.size then (d.children i).push d.size else d.children i := by
  have hlast : d.node? d.size = none := by simp [node?, size]
  simp only [children, node?_push]
  by_cases hi : i = d.size
  · simp [hi, hlast]
  · by_cases hp : parent = some i
    · cases hn : d.node? i with
      | none =>
        have : ¬i < d.size := by simpa [node?, size] using hn
        simp [hi, hp, this]
      | some n =>
        have : i < d.size := (Array.getElem?_eq_some_iff.mp hn).1
        simp [hi, hp, this]
    · simp [hi, hp]

/-- Changing one entry of a list adds to the end of what the list amounts to, up to order. -/
theorem flatMap_modify_perm {α β : Type} {g : α → List β} {f : α → α} (added : List β)
    (h : ∀ x, g (f x) = g x ++ added) :
    ∀ {l : List α} {i : Nat}, i < l.length → ((l.modify i f).flatMap g).Perm (l.flatMap g ++ added)
  | x :: l, 0, _ => by
    simp only [List.modify_zero_cons, List.flatMap_cons, h, List.append_assoc]
    exact List.Perm.append_left _ List.perm_append_comm
  | x :: l, i + 1, hi => by
    simp only [List.modify_succ_cons, List.flatMap_cons, List.append_assoc]
    exact List.Perm.append_left _ (flatMap_modify_perm added h (by simpa using hi))

theorem links_push_perm (d : Document) (parent : Option Nat) (kind : Kind) :
    (d.push parent kind).links.Perm (d.links ++ [d.size]) := by
  rcases parent_cases d parent with ⟨p, rfl, hp⟩ | hp
  · simp only [push_of_lt hp, links, adopt, Array.toList_push, Array.toList_modify,
      List.flatMap_append, List.append_assoc]
    refine List.Perm.append_left _ ?_
    simpa using flatMap_modify_perm (g := fun n : Node => n.children.toList) [d.size]
      (fun n => by simp) (l := d.nodes.toList) hp
  · simp only [push_of_not_lt hp, links, Array.toList_push, List.flatMap_append, List.append_assoc]
    exact List.Perm.append_left _ (by simpa using (List.perm_append_singleton _ _).symm)

theorem mem_children_push_iff {d : Document} {parent : Option Nat} {kind : Kind} {p c : Nat} :
    c ∈ (d.push parent kind).children p ↔
      c ∈ d.children p ∨ (parent = some p ∧ p < d.size ∧ c = d.size) := by
  rw [children_push]
  split
  · next h => simp [h]
  · next h =>
    rw [not_and] at h
    simp only [iff_self_or]
    rintro ⟨hp, hlt, -⟩
    exact absurd hlt (h hp)

theorem mem_children_push {d : Document} {parent : Option Nat} {kind : Kind} {p c : Nat}
    (h : c ∈ (d.push parent kind).children p) : c ∈ d.children p ∨ (p < d.size ∧ c = d.size) := by
  rcases mem_children_push_iff.mp h with h | ⟨-, hp, rfl⟩
  · exact .inl h
  · exact .inr ⟨hp, rfl⟩

theorem WellFormed.push {d : Document} (h : d.WellFormed) (parent : Option Nat) (kind : Kind) :
    (d.push parent kind).WellFormed where
  links_perm := by
    rw [size_push, List.range_succ]
    exact (links_push_perm d parent kind).trans (h.links_perm.append_right _)
  lt_child hc := by
    rcases mem_children_push hc with hc | ⟨hp, rfl⟩
    · exact h.lt_child hc
    · exact hp

theorem Built.wellFormed {d : Document} (h : d.Built) : d.WellFormed := by
  induction h with
  | empty version => exact ⟨by simp [links, size], by simp [children, node?]⟩
  | push parent kind _ ih => exact ih.push parent kind
  | skip _ ih => exact ⟨ih.links_perm, ih.lt_child⟩

/-! ### The shape of a well-formed document -/

namespace WellFormed

variable {d : Document}

theorem links_nodup (h : d.WellFormed) : d.links.Nodup :=
  h.links_perm.nodup_iff.mpr List.nodup_range

theorem lt_size_of_mem_links (h : d.WellFormed) {i : Nat} (hi : i ∈ d.links) : i < d.size :=
  List.mem_range.mp (h.links_perm.mem_iff.mp hi)

theorem root_lt_size (h : d.WellFormed) {r : Nat} (hr : r ∈ d.roots) : r < d.size :=
  h.lt_size_of_mem_links (List.mem_append_left _ hr.val)

theorem mem_links_of_mem_children {p c : Nat} (hc : c ∈ d.children p) :
    c ∈ d.nodes.toList.flatMap (·.children.toList) := by
  cases hn : d.node? p with
  | none => simp [children, hn] at hc
  | some n =>
    rw [children_of_node? hn] at hc
    exact List.mem_flatMap.mpr ⟨n, (Array.mem_of_getElem? hn).val, hc.val⟩

theorem child_lt_size (h : d.WellFormed) {p c : Nat} (hc : c ∈ d.children p) : c < d.size :=
  h.lt_size_of_mem_links (List.mem_append_right _ (mem_links_of_mem_children hc))

theorem roots_nodup (h : d.WellFormed) : d.roots.toList.Nodup :=
  (List.nodup_append.mp h.links_nodup).1

theorem children_nodup (h : d.WellFormed) (p : Nat) : (d.children p).toList.Nodup := by
  cases hn : d.node? p with
  | none => simp [children, hn]
  | some n =>
    have := (List.nodup_flatMap.mp (List.nodup_append.mp h.links_nodup).2.1).1
    rw [children_of_node? hn]
    exact this n (Array.mem_of_getElem? hn).val

theorem root_not_child (h : d.WellFormed) {r p : Nat} (hr : r ∈ d.roots) : r ∉ d.children p :=
  fun hc => (List.nodup_append.mp h.links_nodup).2.2 r hr.val r (mem_links_of_mem_children hc) rfl

theorem parent_unique (h : d.WellFormed) {p q c : Nat} (hp : c ∈ d.children p)
    (hq : c ∈ d.children q) : p = q := by
  have hpair := (List.nodup_flatMap.mp (List.nodup_append.mp h.links_nodup).2.1).2
  have apart : ∀ {p q : Nat}, p < q → c ∈ d.children p → c ∈ d.children q → False := by
    intro p q hlt hp hq
    cases hn : d.node? p with
    | none => simp [children, hn] at hp
    | some n =>
      cases hm : d.node? q with
      | none => simp [children, hm] at hq
      | some m =>
        obtain ⟨hps, rfl⟩ := Array.getElem?_eq_some_iff.mp hn
        obtain ⟨hqs, rfl⟩ := Array.getElem?_eq_some_iff.mp hm
        rw [children_of_node? hn] at hp
        rw [children_of_node? hm] at hq
        exact List.pairwise_iff_getElem.mp hpair p q (by simpa) (by simpa) hlt hp.val hq.val
  rcases Nat.lt_trichotomy p q with hlt | rfl | hlt
  · exact (apart hlt hp hq).elim
  · rfl
  · exact (apart hlt hq hp).elim

theorem later_eq (h : d.WellFormed) (p : Nat) : d.later p = (d.children p).toList := by
  rw [later, List.filter_eq_self]
  intro c hc
  have hc : c ∈ d.children p := Array.mem_def.mpr hc
  simpa using ⟨h.lt_child hc, h.child_lt_size hc⟩

theorem treeAt_eq (h : d.WellFormed) {i : Nat} {n : Node} (hn : d.node? i = some n) :
    d.treeAt i = .node n.kind (n.children.toList.map d.treeAt) := by
  rw [treeAt, List.attach_map_val (f := d.treeAt), h.later_eq, children_of_node? hn]
  simp [kind?, hn]

end WellFormed

end RichDoc.Document
