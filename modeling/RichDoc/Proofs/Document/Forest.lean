import RichDoc.Proofs.Document.Growth
import RichDoc.Proofs.Maximum
import Mathlib.Algebra.GroupWithZero.Nat

/-! The forest of a document that was built by additions. Each addition gives one node, listed under
the parent it was added with. The lists of places are sorted, a depth is the number of nodes above,
and one chain of children leads from the top level to each node. The counts of the kinds count each
node once. -/

namespace RichDoc.Document

def depth? (d : Document) (i : Nat) : Option Nat := (d.node? i).map Node.depth

/-- The nodes above a node, from the top level down. -/
inductive Chain (d : Document) : List Nat → Nat → Prop
  | root {r : Nat} : r ∈ d.roots → Chain d [] r
  | child {above : List Nat} {p c : Nat} :
      Chain d above p → c ∈ d.children p → Chain d (above ++ [p]) c

structure Forest (d : Document) : Prop extends WellFormed d where
  roots_sorted : d.roots.toList.Pairwise (· < ·)
  children_sorted : ∀ p, (d.children p).toList.Pairwise (· < ·)
  depth_root : ∀ {r : Nat}, r ∈ d.roots → d.depth? r = some 0
  depth_child : ∀ {p c : Nat}, c ∈ d.children p → d.depth? c = (d.depth? p).map (· + 1)

/-- A node is listed among the children of a parent, or at the top level when there is none. -/
def Under (d : Document) (parent : Option Nat) (i : Nat) : Prop :=
  match parent with
  | some p => i ∈ d.children p
  | none => i ∈ d.roots

variable {d : Document} {parent parent' : Option Nat} {i : Nat}

/-! ### Additions -/

theorem depth?_push (d : Document) (parent : Option Nat) (kind : Kind) (i : Nat) :
    (d.push parent kind).depth? i =
      if i = d.size then some (d.depthUnder parent) else d.depth? i :=
  map_node?_push (fun _ _ => rfl) d parent kind i

theorem depthUnder_of_lt {p : Nat} (h : p < d.size) :
    some (d.depthUnder (some p)) = (d.depth? p).map (· + 1) := by
  simp [depthUnder, depth?, node?_of_lt h]

theorem depthUnder_of_not_lt {parent : Option Nat} (h : ∀ p ∈ parent, ¬p < d.size) :
    d.depthUnder parent = 0 := by
  cases parent with
  | none => rfl
  | some p =>
    have hp : d.node? p = none := by simpa [node?, size] using h p rfl
    simp [depthUnder, hp]

theorem roots_push_cases (d : Document) (parent : Option Nat) (kind : Kind) :
    (∃ p, parent = some p ∧ p < d.size ∧ (d.push parent kind).roots = d.roots) ∨
      (∀ p ∈ parent, ¬p < d.size) ∧ (d.push parent kind).roots = d.roots.push d.size := by
  rcases parent_cases d parent with ⟨p, rfl, hp⟩ | hp
  · refine .inl ⟨p, rfl, hp, ?_⟩
    rw [push_of_lt hp]
  · refine .inr ⟨hp, ?_⟩
    rw [push_of_not_lt hp]

/-- The place of a new node is greater than all that are listed. -/
theorem pairwise_push {xs : Array Nat} {n : Nat} (h : xs.toList.Pairwise (· < ·))
    (hlt : ∀ x ∈ xs, x < n) : (xs.push n).toList.Pairwise (· < ·) := by
  rw [Array.toList_push, List.pairwise_append]
  refine ⟨h, List.pairwise_singleton _ _, ?_⟩
  intro x hx y hy
  obtain rfl := List.mem_singleton.mp hy
  exact hlt x (Array.mem_def.mpr hx)

theorem Forest.push (h : d.Forest) (parent : Option Nat) (kind : Kind) :
    (d.push parent kind).Forest where
  toWellFormed := h.toWellFormed.push parent kind
  roots_sorted := by
    rcases roots_push_cases d parent kind with ⟨p, -, -, hroots⟩ | ⟨-, hroots⟩
    · rw [hroots]
      exact h.roots_sorted
    · rw [hroots]
      exact pairwise_push h.roots_sorted fun r hr => h.root_lt_size hr
  children_sorted := by
    intro p
    rw [children_push]
    split
    · exact pairwise_push (h.children_sorted p) fun c hc => h.child_lt_size hc
    · exact h.children_sorted p
  depth_root := by
    intro r hr
    have old : ∀ {r}, r ∈ d.roots → (d.push parent kind).depth? r = some 0 := by
      intro r hr
      have hlt := h.root_lt_size hr
      rw [depth?_push, if_neg (by omega)]
      exact h.depth_root hr
    rcases roots_push_cases d parent kind with ⟨p, -, -, hroots⟩ | ⟨hp, hroots⟩
    · rw [hroots] at hr
      exact old hr
    · rw [hroots] at hr
      rcases Array.mem_push.mp hr with hr | rfl
      · exact old hr
      · rw [depth?_push, if_pos rfl, depthUnder_of_not_lt hp]
  depth_child := by
    intro p c hc
    have old : c ∈ d.children p →
        (d.push parent kind).depth? c = ((d.push parent kind).depth? p).map (· + 1) := by
      intro hc
      have hpc := h.lt_child hc
      have hlt := h.child_lt_size hc
      rw [depth?_push, depth?_push, if_neg (by omega), if_neg (by omega)]
      exact h.depth_child hc
    rw [children_push] at hc
    split at hc
    · next hp =>
      obtain ⟨rfl, hp⟩ := hp
      rcases Array.mem_push.mp hc with hc | rfl
      · exact old hc
      · rw [depth?_push, depth?_push, if_pos rfl, if_neg (by omega)]
        exact depthUnder_of_lt hp
    · exact old hc

theorem Built.forest (h : d.Built) : d.Forest := by
  induction h with
  | empty version =>
    refine ⟨(Built.empty version).wellFormed, ?_, ?_, ?_, ?_⟩
    · simp
    · simp [children, node?]
    · simp
    · simp [children, node?]
  | push parent kind _ ih => exact ih.push parent kind
  | skip _ ih =>
    exact ⟨⟨ih.links_perm, ih.lt_child⟩, ih.roots_sorted, ih.children_sorted, ih.depth_root,
      ih.depth_child⟩

/-! ### Parents -/

theorem Under.push (h : d.Under parent i) (parent' : Option Nat) (kind : Kind) :
    (d.push parent' kind).Under parent i := by
  cases parent with
  | some p => exact mem_children_push_iff.mpr (.inl h)
  | none =>
    show i ∈ (d.push parent' kind).roots
    rcases roots_push_cases d parent' kind with ⟨p, -, -, hroots⟩ | ⟨-, hroots⟩
    · rw [hroots]
      exact h
    · rw [hroots]
      exact Array.mem_push_of_mem _ h

/-- A new node is listed under its parent, or at the top level when that is no earlier node. -/
theorem under_push_size (d : Document) (parent : Option Nat) (kind : Kind) :
    (d.push parent kind).Under (parent.filter (· < d.size)) d.size := by
  rcases parent_cases d parent with ⟨p, rfl, hp⟩ | hp
  · rw [Option.filter_some_pos (by simpa using hp)]
    exact mem_children_push_iff.mpr (.inr ⟨rfl, hp, rfl⟩)
  · rw [Option.filter_eq_none_iff.mpr (by simpa using hp), push_of_not_lt hp]
    exact Array.mem_push_self

theorem WellFormed.under_unique (hd : d.WellFormed) (h : d.Under parent i)
    (h' : d.Under parent' i) : parent = parent' := by
  cases parent with
  | some p =>
    cases parent' with
    | some q => rw [hd.parent_unique h h']
    | none => exact absurd h (hd.root_not_child h')
  | none =>
    cases parent' with
    | some q => exact absurd h' (hd.root_not_child h)
    | none => rfl

theorem Forest.depth?_of_under (hd : d.Forest) (h : d.Under parent i) :
    d.depth? i = some (d.depthUnder parent) := by
  cases parent with
  | some p =>
    have hp : p < d.size := Nat.lt_trans (hd.lt_child h) (hd.child_lt_size h)
    rw [hd.depth_child h, depthUnder_of_lt hp]
  | none => exact hd.depth_root h

/-! ### Many additions -/

@[simp] theorem size_pushAll (d : Document) (steps : List (Option Nat × Kind)) :
    (d.pushAll steps).size = d.size + steps.length := by
  induction steps generalizing d with
  | nil => rfl
  | cons step steps ih =>
    rw [pushAll_cons, ih, size_push, List.length_cons]
    omega

theorem Under.pushAll (h : d.Under parent i) (steps : List (Option Nat × Kind)) :
    (d.pushAll steps).Under parent i := by
  induction steps generalizing d with
  | nil => exact h
  | cons step steps ih => exact ih (h.push step.1 step.2)

theorem kind?_pushAll_of_lt (h : i < d.size) (steps : List (Option Nat × Kind)) :
    (d.pushAll steps).kind? i = d.kind? i := by
  induction steps generalizing d with
  | nil => rfl
  | cons step steps ih =>
    have hlt : i < (d.push step.1 step.2).size := by
      rw [size_push]
      omega
    rw [pushAll_cons, ih hlt, kind?_push, if_neg (by omega)]

/-- Each addition gives one node, of the kind it was added with and listed under the parent it was
added with, or at the top level when that is no earlier node. Later additions change neither. -/
theorem pushAll_of_getElem? {steps : List (Option Nat × Kind)} {kind : Kind} (d : Document)
    (h : steps[i]? = some (parent, kind)) :
    (d.pushAll steps).kind? (d.size + i) = some kind ∧
      (d.pushAll steps).Under (parent.filter (· < d.size + i)) (d.size + i) := by
  induction steps generalizing d i with
  | nil => simp at h
  | cons step steps ih =>
    cases i with
    | zero =>
      obtain rfl : step = (parent, kind) := by simpa using h
      have hlt : d.size < (d.push parent kind).size := by simp
      rw [pushAll_cons, Nat.add_zero]
      refine ⟨?_, (under_push_size d parent kind).pushAll steps⟩
      rw [kind?_pushAll_of_lt hlt, kind?_push, if_pos rfl]
    | succ i =>
      have hrest := ih (d.push step.1 step.2) (by simpa using h)
      rw [size_push, show d.size + 1 + i = d.size + (i + 1) by omega] at hrest
      exact hrest

/-! ### Chains -/

theorem mem_links_cases {i : Nat} (h : i ∈ d.links) : i ∈ d.roots ∨ ∃ p, i ∈ d.children p := by
  rcases List.mem_append.mp h with h | h
  · exact .inl (Array.mem_def.mpr h)
  · obtain ⟨n, hn, hi⟩ := List.mem_flatMap.mp h
    obtain ⟨p, hp⟩ := Array.getElem?_of_mem (Array.mem_def.mpr hn)
    refine .inr ⟨p, ?_⟩
    rw [children_of_node? hp]
    exact Array.mem_def.mpr hi

namespace Forest

theorem exists_chain (h : d.Forest) {i : Nat} (hi : i < d.size) : ∃ above, d.Chain above i := by
  -- A node that is not at the top level lies under an earlier one.
  induction i using Nat.strongRecOn with
  | _ i ih =>
    have hlink : i ∈ d.links := h.links_perm.mem_iff.mpr (List.mem_range.mpr hi)
    rcases mem_links_cases hlink with hroot | ⟨p, hp⟩
    · exact ⟨[], .root hroot⟩
    · have hlt := h.lt_child hp
      obtain ⟨above, habove⟩ := ih p hlt (by omega)
      exact ⟨above ++ [p], .child habove hp⟩

theorem chain_unique (h : d.Forest) {i : Nat} {above above' : List Nat}
    (hchain : d.Chain above i) (hchain' : d.Chain above' i) : above = above' := by
  induction hchain generalizing above' with
  | root hr =>
    cases hchain' with
    | root => rfl
    | child _ hc => exact absurd hc (h.root_not_child hr)
  | child _ hc ih =>
    cases hchain' with
    | root hr => exact absurd hc (h.root_not_child hr)
    | child hchain' hc' =>
      obtain rfl := h.parent_unique hc hc'
      rw [ih hchain']

theorem depth?_of_chain (h : d.Forest) {i : Nat} {above : List Nat} (hchain : d.Chain above i) :
    d.depth? i = some above.length := by
  induction hchain with
  | root hr => exact h.depth_root hr
  | child _ hc ih =>
    rw [h.depth_child hc, ih]
    simp

end Forest

/-! ### The deepest node -/

theorem maxDepth_eq (d : Document) :
    d.maxDepth = d.nodes.toList.foldl (fun deepest n => max deepest n.depth) 0 := by
  rw [maxDepth, Array.foldl_toList]

theorem depth?_le_maxDepth {i n : Nat} (h : d.depth? i = some n) : n ≤ d.maxDepth := by
  obtain ⟨node, hnode, rfl⟩ := Option.map_eq_some_iff.mp h
  rw [maxDepth_eq]
  exact le_foldl_max_of_mem (Array.mem_of_getElem? hnode).val 0

theorem exists_depth?_eq_maxDepth (h : 0 < d.size) :
    ∃ i < d.size, d.depth? i = some d.maxDepth := by
  have at_zero : d.depth? 0 = some d.nodes[0].depth := by simp [depth?, node?_of_lt h]
  rw [maxDepth_eq]
  rcases foldl_max_cases Node.depth d.nodes.toList 0 with heq | ⟨n, hn, heq⟩
  · refine ⟨0, h, ?_⟩
    have hle := depth?_le_maxDepth at_zero
    rw [maxDepth_eq] at hle
    rw [heq] at hle ⊢
    rw [at_zero, Nat.le_zero.mp hle]
  · obtain ⟨i, hi⟩ := Array.getElem?_of_mem (Array.mem_def.mpr hn)
    refine ⟨i, (Array.getElem?_eq_some_iff.mp hi).1, ?_⟩
    rw [heq, depth?, node?, hi]
    rfl

/-! ### Counts -/

theorem sum_tally (name : String) (counts : List (String × Nat)) :
    ((tally name counts).map Prod.snd).sum = (counts.map Prod.snd).sum + 1 := by
  induction counts with
  | nil => rfl
  | cons entry counts ih =>
    obtain ⟨key, count⟩ := entry
    simp only [tally]
    split
    · simp only [List.map_cons, List.sum_cons]
      omega
    · split
      · simp only [List.map_cons, List.sum_cons]
        omega
      · simp only [List.map_cons, List.sum_cons, ih]
        omega

theorem sum_kindCounts (d : Document) : (d.kindCounts.map Prod.snd).sum = d.size := by
  rw [kindCounts, ← Array.foldl_toList, size, ← Array.length_toList]
  suffices h : ∀ (ns : List Node) (counts : List (String × Nat)),
      ((ns.foldl (fun counts n => tally n.kind.name counts) counts).map Prod.snd).sum =
        (counts.map Prod.snd).sum + ns.length by
    simpa using h d.nodes.toList []
  intro ns
  induction ns with
  | nil => intro counts; rfl
  | cons n ns ih =>
    intro counts
    rw [List.foldl_cons, ih, sum_tally, List.length_cons]
    omega

/-- However nodes are added, each is listed once, at the top level or under one earlier node, and
all lists are sorted. So one chain leads to each node; its length is the depth of the node, and the
longest of them gives the depth of the document. There is one node for each step, of its kind, and
it is listed under the parent in the step when that is an earlier node, else at the top level. -/
theorem pushAll_forest (version : Option Nat) (steps : List (Option Nat × Kind)) :
    let d := pushAll { version } steps
    (d.links.Perm (List.range d.size) ∧ ∀ i < d.size, ∃! above, d.Chain above i) ∧
    (∀ p c, c ∈ d.children p → p < c ∧ c < d.size) ∧
    (d.roots.toList.Pairwise (· < ·) ∧ ∀ p, (d.children p).toList.Pairwise (· < ·)) ∧
    ((∀ r ∈ d.roots, d.depth? r = some 0) ∧
      ∀ p c, c ∈ d.children p → d.depth? c = (d.depth? p).map (· + 1)) ∧
    ((∀ above i, d.Chain above i → above.length ≤ d.maxDepth) ∧
      (0 < d.size → ∃ above i, d.Chain above i ∧ above.length = d.maxDepth) ∧
      (d.size = 0 → d.maxDepth = 0)) ∧
    (d.kindCounts.map Prod.snd).sum = d.size ∧
    (d.size = steps.length ∧ ∀ i parent kind, steps[i]? = some (parent, kind) →
      d.kind? i = some kind ∧ d.Under (parent.filter (· < i)) i) := by
  intro d
  have h : d.Forest := ((Built.empty version).pushAll steps).forest
  refine ⟨⟨h.links_perm, ?_⟩, ?_, ⟨h.roots_sorted, h.children_sorted⟩, ⟨?_, ?_⟩, ⟨?_, ?_, ?_⟩,
    sum_kindCounts d, ?_, ?_⟩
  · intro i hi
    obtain ⟨above, habove⟩ := h.exists_chain hi
    exact ⟨above, habove, fun _ hother => h.chain_unique hother habove⟩
  · intro p c hc
    exact ⟨h.lt_child hc, h.child_lt_size hc⟩
  · intro r hr
    exact h.depth_root hr
  · intro p c hc
    exact h.depth_child hc
  · intro above i habove
    exact depth?_le_maxDepth (h.depth?_of_chain habove)
  · intro hsize
    obtain ⟨i, hi, hdepth⟩ := exists_depth?_eq_maxDepth hsize
    obtain ⟨above, habove⟩ := h.exists_chain hi
    refine ⟨above, i, habove, ?_⟩
    rw [h.depth?_of_chain habove] at hdepth
    exact Option.some.inj hdepth
  · intro hsize
    have hnodes : d.nodes = #[] := Array.eq_empty_of_size_eq_zero hsize
    simp [maxDepth, hnodes]
  · exact (size_pushAll { version } steps).trans (Nat.zero_add _)
  · intro i parent kind hstep
    have hadded := pushAll_of_getElem? { version } hstep
    rwa [show Document.size { version } + i = i from Nat.zero_add i] at hadded

end RichDoc.Document
