import RichDoc.Converter
import RichDoc.Proofs.Document.Growth
import Mathlib.Data.Nat.Init

/-! The pass from the last node to the first against the plain recursion over trees. When the turn
of a node comes, the slot of each of its children holds what that child becomes by the recursion, so
no slot is read too early or after it was emptied, and the document becomes what its trees become.
-/

namespace RichDoc.Markdown

open Document

variable {o : Options} {d : Document}

/-- What the node at a place becomes by recursion over its tree. -/
def fragmentAt (o : Options) (d : Document) (place : Nat) : Fragment := (d.treeAt place).fragment o

/-- The node at a place as a child of the node above it. -/
def childAt (o : Options) (d : Document) (place : Nat) : Child := (d.treeAt place).child o

/-! ### Slots -/

/-- The slots after the fragments at some places were taken out. -/
def emptied (places : List Nat) (slots : Slots) : Slots :=
  places.foldl (fun slots place => slots.setIfInBounds place none) slots

@[simp] theorem size_emptied (places : List Nat) (slots : Slots) :
    (emptied places slots).size = slots.size := by
  induction places generalizing slots with
  | nil => rfl
  | cons p places ih => simpa [emptied] using ih (slots.setIfInBounds p none)

theorem getElem?_emptied {places : List Nat} {i : Nat} (h : i ∉ places) (slots : Slots) :
    (emptied places slots)[i]? = slots[i]? := by
  induction places generalizing slots with
  | nil => rfl
  | cons p places ih =>
    rw [List.mem_cons, not_or] at h
    show (emptied places (slots.setIfInBounds p none))[i]? = _
    rw [ih h.2, Array.getElem?_setIfInBounds_ne (Ne.symm h.1)]

theorem takeAll_eq {parent : Nat} {f : Nat → Child} {places : List Nat} (slots : Slots)
    (taken : List Child) (hnodup : places.Nodup)
    (hfilled : ∀ c ∈ places, parent < c ∧ d.kind? c = some (f c).kind ∧
      slots[c]? = some (some (f c).fragment)) :
    takeAll d parent taken places slots =
      .ok (taken.reverse ++ places.map f, emptied places slots) := by
  induction places generalizing taken slots with
  | nil => simp [takeAll, emptied]
  | cons c places ih =>
    obtain ⟨hlt, hkind, hslot⟩ := hfilled c (by simp)
    have hc := (List.nodup_cons.mp hnodup).1
    have htake : take parent c slots = .ok ((f c).fragment, slots.setIfInBounds c none) := by
      simp [take, Nat.not_le.mpr hlt, hslot]
    simp only [takeAll, hkind, htake]
    rw [ih _ _ (List.nodup_cons.mp hnodup).2]
    · simp [emptied]
    · intro e he
      have hne : c ≠ e := fun h => hc (h ▸ he)
      obtain ⟨h1, h2, h3⟩ := hfilled e (by simp [he])
      exact ⟨h1, h2, by rw [Array.getElem?_setIfInBounds_ne hne, h3]⟩

theorem takeRoots_eq {f : Nat → Fragment} {places : List Nat} (slots : Slots)
    (taken : List Fragment) (hnodup : places.Nodup)
    (hfilled : ∀ r ∈ places, slots[r]? = some (some (f r))) :
    takeRoots taken places slots = taken.reverse ++ places.map f := by
  induction places generalizing taken slots with
  | nil => simp [takeRoots]
  | cons r places ih =>
    have hr := (List.nodup_cons.mp hnodup).1
    simp only [takeRoots, hfilled r (by simp), Option.getD_some]
    rw [ih _ _ (List.nodup_cons.mp hnodup).2]
    · simp
    · intro e he
      have hne : r ≠ e := fun h => hr (h ▸ he)
      rw [Array.getElem?_setIfInBounds_ne hne, hfilled e (by simp [he])]

/-! ### The children that a node takes -/

theorem textOf_leaf {kind : Kind} (h : kind.isLeaf) (children : List Child) :
    textOf o kind children = textOf o kind [] := by
  cases kind <;> first | rfl | simp [Kind.isLeaf] at h

theorem textOf_table (children : List Child) :
    textOf o .table (children.filter (·.kind = .tableRow)) = textOf o .table children := by
  simp [textOf, tableOf]

theorem wanted_sublist (d : Document) (n : Node) : (wanted d n).Sublist n.children.toList := by
  unfold wanted
  split
  · exact List.filter_sublist
  · split
    · exact List.nil_sublist _
    · exact List.Sublist.refl _

/-- What a node leaves in its children's slots has no part in what it becomes. -/
theorem fragmentOf_wanted {n : Node} {f : Nat → Child}
    (hkind : ∀ c ∈ n.children, d.kind? c = some (f c).kind) :
    fragmentOf o n.kind ((wanted d n).map f) = fragmentOf o n.kind (n.children.toList.map f) := by
  unfold wanted
  split
  · next h =>
    have : (n.children.toList.filter (d.kind? · = some .tableRow)).map f =
        (n.children.toList.map f).filter (·.kind = .tableRow) := by
      rw [List.filter_map]
      congr 1
      refine List.filter_congr fun c hc => ?_
      simp [hkind c (Array.mem_def.mpr hc)]
    rw [h, this]
    simp [fragmentOf, textOf_table]
  · split
    · next hleaf =>
      have hrow : n.kind ≠ .tableRow := fun h => by simp [h, Kind.isLeaf] at hleaf
      simp only [fragmentOf, hrow, if_false, List.map_nil]
      rw [textOf_leaf hleaf (n.children.toList.map f)]
    · rfl

/-! ### The pass -/

/-- The statistics of the nodes from a place on, the last one counted first. -/
def statsFrom (o : Options) (d : Document) (place : Nat) : Stats :=
  if o.collectStats then (d.nodes.toList.drop place).foldr (fun n s => s.record n.kind) {} else {}

/-- The state of the pass when the nodes from a place on have been visited: each of them that is not
a child of another one still has its fragment in its slot. -/
structure Reached (o : Options) (d : Document) (place : Nat) (pass : Pass) : Prop where
  size_slots : pass.slots.size = d.size
  filled : ∀ i, place ≤ i → i < d.size → (∀ p, place ≤ p → i ∉ d.children p) →
    pass.slots[i]? = some (some (fragmentAt o d i))
  stats : pass.stats = statsFrom o d place

theorem reached_start (o : Options) (d : Document) : Reached o d d.size (Pass.start d) where
  size_slots := by simp [Pass.start]
  filled i hi hlt _ := absurd hlt (by omega)
  stats := by
    have : d.nodes.toList.drop d.size = [] := by simp [size]
    simp [statsFrom, Pass.start, this]

/-- When the turn of a node comes, the slots of its children are filled. -/
theorem Reached.filled_child {place : Nat} {pass : Pass} (h : Reached o d (place + 1) pass)
    (hd : d.WellFormed) {c : Nat} (hc : c ∈ d.children place) :
    pass.slots[c]? = some (some (fragmentAt o d c)) := by
  refine h.filled c (hd.lt_child hc) (hd.child_lt_size hc) fun p hp hcp => ?_
  have := hd.parent_unique hc hcp
  omega

/-- When all nodes have been visited, the slots at the top level are filled. -/
theorem Reached.filled_root {pass : Pass} (h : Reached o d 0 pass) (hd : d.WellFormed) {r : Nat}
    (hr : r ∈ d.roots) : pass.slots[r]? = some (some (fragmentAt o d r)) :=
  h.filled r (Nat.zero_le r) (hd.root_lt_size hr) fun _ _ => hd.root_not_child hr

theorem kind?_childAt (hd : d.WellFormed) {i : Nat} (hi : i < d.size) :
    d.kind? i = some (childAt o d i).kind := by
  simp [childAt, hd.treeAt_eq (node?_of_lt hi), kind?, node?_of_lt hi]

theorem fragmentAt_eq (hd : d.WellFormed) {i : Nat} {n : Node} (hn : d.node? i = some n) :
    fragmentAt o d i = fragmentOf o n.kind (n.children.toList.map (childAt o d)) := by
  simp only [fragmentAt, hd.treeAt_eq hn, Tree.fragment_node, List.map_map]
  rfl

theorem statsFrom_succ {place : Nat} {n : Node} (hn : d.node? place = some n) :
    statsFrom o d place =
      if o.collectStats then (statsFrom o d (place + 1)).record n.kind
      else statsFrom o d (place + 1) := by
  obtain ⟨hlt, rfl⟩ := Array.getElem?_eq_some_iff.mp hn
  have : d.nodes.toList.drop place = d.nodes[place] :: d.nodes.toList.drop (place + 1) := by
    rw [List.drop_eq_getElem_cons (by simpa using hlt)]
    simp
  simp only [statsFrom, this, List.foldr_cons]
  split <;> rfl

/-- A visit goes on with the pass: it never fails, and it fills the slot of its node. -/
theorem Reached.visit {place : Nat} {pass : Pass} (h : Reached o d (place + 1) pass)
    (hd : d.WellFormed) (hplace : place < d.size) :
    ∃ pass', visit o d pass place = .ok pass' ∧ Reached o d place pass' := by
  obtain ⟨n, hn⟩ : ∃ n, d.node? place = some n := ⟨_, node?_of_lt hplace⟩
  have hchildren := children_of_node? hn
  have hmem : ∀ {c}, c ∈ n.children → c ∈ d.children place := fun hc => hchildren ▸ hc
  have hsub : ∀ {c}, c ∈ wanted d n → c ∈ d.children place := fun hc =>
    hmem (Array.mem_def.mpr ((wanted_sublist d n).mem hc))
  have hnodup : (wanted d n).Nodup :=
    (wanted_sublist d n).nodup (hchildren ▸ hd.children_nodup place)
  have htake := takeAll_eq (f := childAt o d) pass.slots [] hnodup fun c hc =>
    ⟨hd.lt_child (hsub hc), kind?_childAt hd (hd.child_lt_size (hsub hc)),
      h.filled_child hd (hsub hc)⟩
  have hfragment : fragmentOf o n.kind ((wanted d n).map (childAt o d)) = fragmentAt o d place := by
    rw [fragmentAt_eq hd hn]
    exact fragmentOf_wanted fun c hc => kind?_childAt hd (hd.child_lt_size (hmem hc))
  refine ⟨_, by simp only [Markdown.visit, hn, htake]; rfl, ?_, fun i hi hlt hfree => ?_, ?_⟩
  · simp [h.size_slots]
  · rcases Nat.eq_or_lt_of_le hi with rfl | hi
    · simp [h.size_slots, hlt, hfragment]
    -- A place that no visited node lists was not taken by this one either.
    · have hi' : i ∉ wanted d n := fun hc => hfree place (Nat.le_refl _) (hsub hc)
      rw [Array.getElem?_setIfInBounds_ne (by omega), getElem?_emptied hi']
      exact h.filled i hi hlt fun p hp => hfree p (by omega)
  · simp only [h.stats, statsFrom_succ hn]

theorem visitFrom_size (o : Options) (d : Document) :
    visitFrom o d d.size = .ok (Pass.start d) := by
  simp [visitFrom]
  rfl

theorem visitFrom_of_lt {place : Nat} (h : place < d.size) :
    visitFrom o d place = (visitFrom o d (place + 1)).bind (visit o d · place) := by
  obtain ⟨n, hn⟩ : ∃ n, d.size - place = n + 1 := ⟨d.size - place - 1, by omega⟩
  simp only [visitFrom, hn, List.range'_succ, List.reverse_cons, List.foldlM_append,
    List.foldlM_cons, List.foldlM_nil, show d.size - (place + 1) = n by omega, bind_pure]
  rfl

/-- The pass reaches every place. -/
theorem exists_visitFrom (o : Options) (hd : d.WellFormed) {place : Nat} (h : place ≤ d.size) :
    ∃ pass, visitFrom o d place = .ok pass ∧ Reached o d place pass := by
  -- The pass goes down, so what is known of the places above a node is known when its turn comes.
  induction h using Nat.decreasingInduction with
  | self => exact ⟨_, visitFrom_size o d, reached_start o d⟩
  | of_succ place hlt ih =>
    obtain ⟨pass, hpass, hreached⟩ := ih
    obtain ⟨pass', hpass', hreached'⟩ := hreached.visit hd hlt
    exact ⟨pass', by rw [visitFrom_of_lt hlt, hpass]; exact hpass', hreached'⟩

/-- When the turn of a node has come, its slot holds what it becomes. -/
theorem exists_visitFrom_slot (o : Options) (hd : d.WellFormed) {place : Nat}
    (hplace : place < d.size) : ∃ pass, visitFrom o d place = .ok pass ∧
      pass.slots[place]? = some (some (fragmentAt o d place)) := by
  obtain ⟨pass, hpass, hreached⟩ := exists_visitFrom o hd (Nat.le_of_lt hplace)
  refine ⟨pass, hpass, hreached.filled place (Nat.le_refl place) hplace ?_⟩
  intro p hp hmem
  have hlt := hd.lt_child hmem
  omega

/-- The slot of a node that is no row holds the text of its tree. -/
theorem exists_visitFrom_text (o : Options) (hd : d.WellFormed) {kind : Kind}
    (hkind : d.kind? place = some kind) (hrow : kind ≠ .tableRow) :
    ∃ pass, visitFrom o d place = .ok pass ∧ pass.slots[place]? =
      some (some (.text ((Tree.node kind ((d.children place).toList.map d.treeAt)).text o))) := by
  obtain ⟨node, hn, rfl⟩ := Option.map_eq_some_iff.mp hkind
  obtain ⟨pass, hpass, hslot⟩ :=
    exists_visitFrom_slot o hd (Array.getElem?_eq_some_iff.mp hn).1
  refine ⟨pass, hpass, ?_⟩
  rw [hslot, fragmentAt, hd.treeAt_eq hn, Document.children_of_node? hn, Tree.text_node,
    Tree.fragment_node, fragmentOf, if_neg hrow]

theorem render_eq (o : Options) (hd : d.WellFormed) :
    render o d = .ok (Tree.textAll o d.trees, statsFrom o d 0) := by
  obtain ⟨pass, hpass, hreached⟩ := exists_visitFrom o hd (Nat.zero_le d.size)
  have hroots := takeRoots_eq (f := fragmentAt o d) pass.slots [] hd.roots_nodup
    fun r hr => hreached.filled_root hd (Array.mem_def.mpr hr)
  simp only [render, hpass, bind, Except.bind, hroots, hreached.stats]
  simp only [Tree.textAll, trees, List.map_map]
  rfl

theorem toMarkdown_eq (o : Options) (hd : d.WellFormed) :
    d.toMarkdown o = .ok (String.ofList (Tree.textAll o d.trees)) := by
  rw [toMarkdown, render_eq o hd]
  rfl

/-- Rendering never fails, and it gives what the trees of the document become by plain recursion: a
node becomes what the rule of its kind makes of its children. Every slot is filled when it is read.
When the turn of a node comes, the slots of its children, which are listed once each, hold what the
children become, and at the end so do the slots at the top level. -/
theorem toMarkdown_eq_recursion (o : Options) (h : d.Obtained) :
    d.toMarkdown o = .ok (String.ofList (Tree.textAll o d.trees)) ∧
    (∀ place (_ : place < d.size), ∃ pass,
      visitFrom o d (place + 1) = .ok pass ∧ (d.children place).toList.Nodup ∧
      (∀ c ∈ d.children place, pass.slots[c]? = some (some (fragmentAt o d c))) ∧
      fragmentAt o d place =
        fragmentOf o d.nodes[place].kind ((d.children place).toList.map (childAt o d))) ∧
    ∃ pass, visitFrom o d 0 = .ok pass ∧ d.roots.toList.Nodup ∧
      ∀ r ∈ d.roots, pass.slots[r]? = some (some (fragmentAt o d r)) := by
  have hd := h.built.wellFormed
  refine ⟨toMarkdown_eq o hd, fun place hplace => ?_, ?_⟩
  · obtain ⟨pass, hpass, hreached⟩ := exists_visitFrom o hd hplace
    have hn := node?_of_lt hplace
    refine ⟨pass, hpass, hd.children_nodup place, fun c hc => hreached.filled_child hd hc, ?_⟩
    rw [fragmentAt_eq hd hn, children_of_node? hn]
  · obtain ⟨pass, hpass, hreached⟩ := exists_visitFrom o hd (Nat.zero_le d.size)
    exact ⟨pass, hpass, hd.roots_nodup, fun r hr => hreached.filled_root hd hr⟩

/-- A row whose parent is not the node before it, a cell of that row that comes later, and a rule
whose parent does not exist. -/
def outOfOrder : Document :=
  pushAll {} [(none, .table), (none, .paragraph), (some 0, .tableRow), (some 1, .text "b" []),
    (some 2, .tableCell false), (some 9, .rule), (some 4, .text "a" [])]

theorem toMarkdown_outOfOrder :
    outOfOrder.Obtained ∧ outOfOrder.toMarkdown {} = .ok "a\n---\n\nb\n\n---" ∧
      String.ofList (Tree.textAll {} outOfOrder.trees) = "a\n---\n\nb\n\n---" := by
  have hd : outOfOrder.Obtained := .inl ⟨none, _, rfl⟩
  have htext : outOfOrder.toMarkdown {} = .ok "a\n---\n\nb\n\n---" := by rfl
  have h := (toMarkdown_eq_recursion {} hd).1
  rw [htext] at h
  injection h with h
  exact ⟨hd, htext, h.symm⟩

end RichDoc.Markdown
