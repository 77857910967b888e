import RichDoc.Proofs.Document.Violations

/-! What the origins of a build tell. A node is made of an entry of its source, and its origin says
under which node it is listed and where in the content there the entry stands. This holds in every
state of a build, of the nodes that are there and of the entries that wait, so from each entry the
origins lead back to the root, in as many turns as the entry is deep. -/

namespace RichDoc

open Json

theorem follow_concat (v : Value) (path : List Nat) (i : Nat) :
    follow v (path ++ [i]) = ((follow v path).bind Document.contentOf).bind (·[i]?) := by
  induction path generalizing v with
  | nil => simp [follow]
  | cons j path ih => simp [follow, ih, Option.bind_assoc]

namespace Builder

variable {options : BuildOptions} {v : Value} {b b' : Builder} {p : Pending}
  {stack rest more made : List Pending} {parent : Option Nat} {path : List Nat}

/-! ### Nodes and their entries -/

/-- The states of a build, each with the entries of which its nodes were made. A step that adds a
node makes it of the entry that was next. -/
inductive Makes (options : BuildOptions) (v : Value) :
    Builder → List Pending → List Pending → Prop
  | start {items : List Value} : Document.contentOf v = some items →
      Makes options v { document := { version := Document.versionOf v } } (pendingOf none items) []
  | step {b b' : Builder} {p : Pending} {rest more made : List Pending} :
      Makes options v b (p :: rest) made → b.step options p = .ok (b', more) →
        Makes options v b' (more ++ rest)
          (if b.document.size < b'.document.size then made ++ [p] else made)

theorem Reaches.exists_makes (h : Reaches options v b stack) :
    ∃ made, Makes options v b stack made := by
  induction h with
  | start hitems => exact ⟨[], .start hitems⟩
  | step _ hstep ih =>
    obtain ⟨made, hmade⟩ := ih
    exact ⟨_, hmade.step hstep⟩

/-- The content array under a node, which is that of its entry; at the top level, that of the whole
source. -/
def contentUnder (v : Value) (made : List Pending) : Option Nat → Option (List Value)
  | some i => made[i]?.bind fun p => Document.contentOf p.value
  | none => Document.contentOf v

/-- An entry stands at its position in the content array under its parent. -/
def Held (v : Value) (made : List Pending) (p : Pending) : Prop :=
  ∃ items, contentUnder v made p.origin.parent = some items ∧
    items[p.origin.position]? = some p.value

/-- Of two entries of one content array, the first stands before the second. -/
def InOrder (p q : Pending) : Prop :=
  p.origin.parent = q.origin.parent → p.origin.position < q.origin.position

/-- The tables agree with the nodes, and the nodes and the entries that wait agree with the source.
There is an origin for each node, that of its entry, which is an object of the node's kind, and the
node is listed under the parent in it. Each entry, also one that waits, stands where its origin
says, and those of one content array are taken in order. -/
structure Accounted (v : Value) (b : Builder) (stack made : List Pending) : Prop where
  size_origins : b.origins.size = b.document.size
  origins_eq : b.origins.toList = made.map Pending.origin
  object : ∀ {i : Nat} {p : Pending}, made[i]? = some p →
    ∃ ms, p.value = .object ms ∧ b.document.kind? i = some (Kind.ofMembers ms)
  under : ∀ {i : Nat} {p : Pending}, made[i]? = some p → b.document.Under p.origin.parent i
  held : ∀ p ∈ made ++ stack, Held v made p
  ordered : (made ++ stack).Pairwise InOrder

theorem Accounted.length_made (h : Accounted v b stack made) : made.length = b.document.size := by
  rw [← h.size_origins, ← Array.length_toList, h.origins_eq, List.length_map]

theorem Held.lt_length (h : Held v made p) : ∀ q ∈ p.origin.parent, q < made.length := by
  intro q hq
  obtain ⟨items, hitems, -⟩ := h
  rw [Option.mem_def.mp hq] at hitems
  obtain ⟨maker, hmaker, -⟩ := Option.bind_eq_some_iff.mp hitems
  exact (List.getElem?_eq_some_iff.mp hmaker).1

theorem Accounted.holds (h : Accounted v b stack made) (hp : p ∈ made ++ stack) :
    b.document.Holds p.origin.parent := by
  intro q hq
  rw [← h.length_made]
  exact (h.held p hp).lt_length q hq

theorem Held.append (h : Held v made p) (more : List Pending) : Held v (made ++ more) p := by
  obtain ⟨items, hitems, hp⟩ := h
  refine ⟨items, ?_, hp⟩
  cases hparent : p.origin.parent with
  | none => rwa [hparent] at hitems
  | some i =>
    rw [hparent] at hitems
    obtain ⟨maker, hmaker, hcontent⟩ := Option.bind_eq_some_iff.mp hitems
    have hlt := (List.getElem?_eq_some_iff.mp hmaker).1
    rw [contentUnder, List.getElem?_append_left hlt, hmaker]
    exact hcontent

/-! ### Steps -/

theorem Accounted.skip (h : Accounted v b stack made) :
    Accounted v { b with document := b.document.skip } stack made :=
  ⟨h.size_origins, h.origins_eq, h.object, h.under, h.held, h.ordered⟩

/-- An entry is left out with no trace in the tables. -/
theorem Accounted.drop (h : Accounted v b (p :: rest) made) : Accounted v b rest made := by
  have hsub : (made ++ rest).Sublist (made ++ p :: rest) :=
    (List.Sublist.refl made).append (List.sublist_cons_self p rest)
  exact ⟨h.size_origins, h.origins_eq, h.object, h.under, fun q hq => h.held q (hsub.subset hq),
    h.ordered.sublist hsub⟩

theorem pairwise_pendingOf (parent : Option Nat) (items : List Value) :
    (pendingOf parent items).Pairwise InOrder := by
  rw [pendingOf, List.pairwise_map]
  refine (pairwise_zipIdx items).imp ?_
  intro x y hlt _
  exact hlt

/-- The entries of the content of a new node have a parent that no other entry has. -/
theorem Accounted.ordered_add (h : Accounted v b (p :: rest) made) (items : List Value) :
    (made ++ [p] ++ (pendingOf (some b.document.size) items ++ rest)).Pairwise InOrder := by
  have hold : (made ++ [p] ++ rest).Pairwise InOrder := by simpa using h.ordered
  have hnew : ∀ q ∈ pendingOf (some b.document.size) items, ∀ r ∈ made ++ [p] ++ rest,
      r.origin.parent ≠ q.origin.parent := by
    intro q hq r hr hparent
    rw [(mem_pendingOf hq).1] at hparent
    exact Nat.lt_irrefl _ (h.holds (by simpa using hr) b.document.size hparent)
  obtain ⟨hmade, hrest, hcross⟩ := List.pairwise_append.mp hold
  refine List.pairwise_append.mpr ⟨hmade, List.pairwise_append.mpr
    ⟨pairwise_pendingOf _ items, hrest, ?_⟩, ?_⟩
  · intro q hq r hr hparent
    exact absurd hparent.symm (hnew q hq r (List.mem_append_right _ hr))
  · intro r hr q hq
    rcases List.mem_append.mp hq with hq | hq
    · intro hparent
      exact absurd hparent (hnew q hq r (List.mem_append_left _ hr))
    · exact hcross r hr q hq

theorem getElem?_concat_cases {q : Pending} {i : Nat} (h : (made ++ [p])[i]? = some q) :
    made[i]? = some q ∨ i = made.length ∧ q = p := by
  rw [List.getElem?_append] at h
  split at h
  · exact .inl h
  · next hi =>
    obtain ⟨hlt, rfl⟩ := List.getElem?_eq_some_iff.mp h
    rw [List.length_singleton] at hlt
    exact .inr ⟨by omega, by simp⟩

/-- An entry of which a node is made, with the entries of its content. -/
theorem Accounted.add {ms : Members} {items : List Value} (h : Accounted v b (p :: rest) made)
    (hp : p.value = .object ms)
    (hitems : ∀ q ∈ pendingOf (some b.document.size) items,
      Document.contentOf p.value = some items) :
    Accounted v (b.add p.origin (Kind.ofMembers ms))
      (pendingOf (some b.document.size) items ++ rest) (made ++ [p]) where
  size_origins := by simp [Builder.add, h.size_origins]
  origins_eq := by simp [Builder.add, h.origins_eq]
  object := by
    intro i q hq
    rw [Builder.add, Document.kind?_push]
    rcases getElem?_concat_cases hq with hq | ⟨rfl, rfl⟩
    · have hlt := (List.getElem?_eq_some_iff.mp hq).1
      rw [if_neg (by rw [← h.length_made]; omega)]
      exact h.object hq
    · rw [if_pos h.length_made]
      exact ⟨ms, hp, rfl⟩
  under := by
    intro i q hq
    rcases getElem?_concat_cases hq with hq | ⟨rfl, rfl⟩
    · exact (h.under hq).push _ _
    · have hunder := Document.under_push_size b.document q.origin.parent (Kind.ofMembers ms)
      rw [(h.holds (by simp)).filter_eq] at hunder
      rwa [h.length_made]
  held := by
    intro q hq
    have hq : q ∈ made ++ p :: rest ∨ q ∈ pendingOf (some b.document.size) items := by
      simp only [List.mem_append, List.mem_cons, List.not_mem_nil, or_false] at hq ⊢
      tauto
    rcases hq with hq | hq
    · exact (h.held q hq).append [p]
    · obtain ⟨hparent, hvalue⟩ := mem_pendingOf hq
      refine ⟨items, ?_, hvalue⟩
      rw [hparent, contentUnder, ← h.length_made, List.getElem?_concat_length]
      exact hitems q hq
  ordered := h.ordered_add items

theorem Accounted.step (h : Accounted v b (p :: rest) made)
    (hstep : b.step options p = .ok (b', more)) :
    Accounted v b' (more ++ rest)
      (if b.document.size < b'.document.size then made ++ [p] else made) := by
  rcases step_cases hstep with ⟨-, rfl, hreject⟩ | ⟨-, ⟨-, rfl, hreject⟩ | ⟨ms, hms, hobject⟩⟩
  · obtain rfl := eq_skip_of_reject hreject
    rw [if_neg (by simp)]
    exact h.drop.skip
  · obtain rfl := eq_skip_of_reject hreject
    rw [if_neg (by simp)]
    exact h.drop.skip
  · rcases hobject with ⟨items, hitems, rfl, rfl⟩ | ⟨found, -, rfl, hreject⟩
    · rw [if_pos (by simp [Builder.add])]
      refine h.add hms fun q hq => ?_
      rw [hms]
      exact contentOf_of_mem hitems (mem_pendingOf hq).2
    · obtain rfl := eq_skip_of_reject hreject
      rw [if_pos (by simp [Builder.add])]
      have hnone : ∀ q ∈ pendingOf (some b.document.size) [],
          Document.contentOf p.value = some [] := by
        simp [pendingOf]
      exact (h.add hms hnone).skip

theorem Makes.accounted (h : Makes options v b stack made) : Accounted v b stack made := by
  induction h with
  | @start items hitems =>
    refine ⟨rfl, rfl, by simp, by simp, ?_, pairwise_pendingOf none items⟩
    intro p hp
    obtain ⟨hparent, hvalue⟩ := mem_pendingOf hp
    refine ⟨items, ?_, hvalue⟩
    rw [hparent]
    exact hitems
  | step _ hstep ih => exact ih.step hstep

/-! ### Paths -/

/-- The climb from an entry to the root, in one turn for each node on the way. It fails when a node
has no origin in the table, and when the turns are used up before the root is reached. -/
def climb? (b : Builder) : Nat → Origin → List Nat → Option (List Nat)
  | _, ⟨none, position⟩, below => some (position :: below)
  | 0, ⟨some _, _⟩, _ => none
  | turns + 1, ⟨some i, position⟩, below =>
    b.origins[i]?.bind fun o => climb? b turns o (position :: below)

theorem Leads.climb?_eq (h : b.Leads parent path) (turns position : Nat) (below : List Nat) :
    b.climb? turns ⟨parent, position⟩ below =
      if path.length ≤ turns then some (path ++ position :: below) else none := by
  induction h generalizing turns position below with
  | root => cases turns <;> rfl
  | @node i o path ho _ ih =>
    cases turns with
    | zero => simp [climb?]
    | succ turns =>
      rw [climb?, ho, Option.bind_some, ih]
      simp

theorem Traced.exists_leads (ht : b.Traced) (hparent : b.document.Holds parent) :
    ∃ path, b.Leads parent path := by
  suffices hnodes : ∀ i < b.document.size, ∃ path, b.Leads (some i) path by
    cases parent with
    | none => exact ⟨[], .root⟩
    | some i => exact hnodes i (hparent i rfl)
  -- The origin of a node has an earlier node for its parent.
  intro i hi
  induction i using Nat.strongRecOn with
  | _ i ih =>
    rw [← ht.size_origins] at hi
    have ho := Array.getElem?_eq_getElem hi
    have hup : ∃ path, b.Leads b.origins[i].parent path := by
      cases hq : b.origins[i].parent with
      | none => exact ⟨[], .root⟩
      | some q =>
        have hlt := ht.parent_lt ho q hq
        exact ih q hlt (by rw [← ht.size_origins]; omega)
    obtain ⟨path, hpath⟩ := hup
    exact ⟨_, .node ho hpath⟩

theorem Accounted.exists_maker (h : Accounted v b stack made) {i : Nat} {o : Origin}
    (ho : b.origins[i]? = some o) : ∃ p, made[i]? = some p ∧ p.origin = o := by
  rw [← Array.getElem?_toList, h.origins_eq, List.getElem?_map] at ho
  exact Option.map_eq_some_iff.mp ho

/-- The positions that lead to a node are as many as the entries below it are deep. -/
theorem Accounted.depthUnder_eq (h : Accounted v b stack made) (hd : b.document.Forest)
    (hleads : b.Leads parent path) : b.document.depthUnder parent = path.length := by
  induction hleads with
  | root => rfl
  | @node i o path ho _ ih =>
    obtain ⟨p, hp, rfl⟩ := h.exists_maker ho
    have hi : i < b.document.size := by
      rw [← h.length_made]
      exact (List.getElem?_eq_some_iff.mp hp).1
    have hdepth := hd.depth?_of_under (h.under hp)
    apply Option.some.inj
    rw [Document.depthUnder_of_lt hi, hdepth, ih]
    simp

theorem follow_of_held (hpath : (follow v path).bind Document.contentOf =
      contentUnder v made p.origin.parent) (hheld : Held v made p) :
    follow v (path ++ [p.origin.position]) = some p.value := by
  obtain ⟨items, hitems, hp⟩ := hheld
  rw [follow_concat, hpath, hitems]
  exact hp

/-- The positions that lead to a node lead to its entry in the source. -/
theorem Accounted.content_follow (h : Accounted v b stack made) (hleads : b.Leads parent path) :
    (follow v path).bind Document.contentOf = contentUnder v made parent := by
  induction hleads with
  | root => rfl
  | @node i o path ho _ ih =>
    obtain ⟨p, hp, rfl⟩ := h.exists_maker ho
    have hheld : Held v made p := h.held p (List.mem_append_left _ (List.mem_of_getElem? hp))
    rw [follow_of_held ih hheld, contentUnder, hp]
    rfl

/-- The path of an entry is found by a climb of as many turns as the entry is deep, in which no
lookup fails. It has one position more than that, it leads from the root to the entry, and its text
spells it. -/
structure Located (v : Value) (b : Builder) (p : Pending) : Prop where
  climb?_eq : ∀ turns, b.climb? turns p.origin [] =
    if b.document.depthUnder p.origin.parent ≤ turns then some (b.path p.origin) else none
  length_path : (b.path p.origin).length = b.document.depthUnder p.origin.parent + 1
  follow_path : follow v (b.path p.origin) = some p.value
  spells : Spells (b.path p.origin) (pathText (b.path p.origin))

theorem Leads.located (ht : b.Traced) (hleads : b.Leads p.origin.parent path)
    (hdepth : b.document.depthUnder p.origin.parent = path.length)
    (hfollow : follow v (path ++ [p.origin.position]) = some p.value) : Located v b p := by
  have hpath : b.path p.origin = path ++ [p.origin.position] :=
    hleads.path_eq ht p.origin.position
  refine ⟨?_, ?_, ?_, spells_pathText (by simp [hpath])⟩
  · intro turns
    rw [hdepth, hpath]
    exact hleads.climb?_eq turns p.origin.position []
  · rw [hpath, hdepth]
    simp
  · rw [hpath, hfollow]

theorem Reaches.forest (h : Reaches options v b stack) : b.document.Forest := by
  suffices hbuilt : b.document.Built from hbuilt.forest
  induction h with
  | start => exact .empty _
  | step _ hstep ih => exact ih.step hstep

/-- In every state of a build there is one origin for each node. Its parent is the one node under
which the node is listed, which is an earlier one, and nothing exactly for a node at the top level;
its position is where the entry of the node stands in the content there. An entry that waits has a
parent that is there, and stands at its position in the content of it. So the way back from an entry
to the root ends, no lookup on it fails, and it gives the path by which the entry is found; this is
also so once the node of the entry is added. -/
theorem Reaches.origins_lead_back (h : Reaches options v b stack) :
    (b.Traced ∧ ∀ i o, b.origins[i]? = some o →
      ∀ parent, b.document.Under parent i ↔ o.parent = parent) ∧
    (∀ p ∈ stack, b.document.Holds p.origin.parent) ∧
    ∃ made, Makes options v b stack made ∧ Accounted v b stack made ∧
      (∀ p ∈ made ++ stack, Located v b p) ∧
      ∀ p ∈ stack, ∀ kind, Located v (b.add p.origin kind) p := by
  obtain ⟨ht, hstack⟩ := h.traced_and_holds
  obtain ⟨made, hmakes⟩ := h.exists_makes
  have hd := h.forest
  have haccounted := hmakes.accounted
  have hleads : ∀ p ∈ made ++ stack, ∃ path, b.Leads p.origin.parent path ∧
      b.document.depthUnder p.origin.parent = path.length ∧
      follow v (path ++ [p.origin.position]) = some p.value := by
    intro p hp
    obtain ⟨path, hpath⟩ := ht.exists_leads (haccounted.holds hp)
    exact ⟨path, hpath, haccounted.depthUnder_eq hd hpath,
      follow_of_held (haccounted.content_follow hpath) (haccounted.held p hp)⟩
  refine ⟨⟨ht, ?_⟩, hstack, made, hmakes, haccounted, ?_, ?_⟩
  · intro i o ho parent
    obtain ⟨p, hp, rfl⟩ := haccounted.exists_maker ho
    have hunder := haccounted.under hp
    constructor
    · exact hd.under_unique hunder
    · rintro rfl
      exact hunder
  · intro p hp
    obtain ⟨path, hpath, hdepth, hfollow⟩ := hleads p hp
    exact hpath.located ht hdepth hfollow
  · intro p hp kind
    obtain ⟨path, hpath, hdepth, hfollow⟩ := hleads p (List.mem_append_right made hp)
    have hadd := goesOn_add ht (hstack p hp) kind
    rw [← hadd.depthUnder_eq (hstack p hp)] at hdepth
    exact (hadd.leads hpath).located hadd.traced hdepth hfollow

/-- The last entry of a panel: an object with content that is no array. -/
def lastInPanel : Pending := ⟨.object [("content", .bool false)], ⟨some 0, 1⟩⟩

/-- A panel that stands after an entry that is no object, with such an entry in it too. -/
def panelSource : Value :=
  .object [("content", .array [.bool true,
    .object [("content", .array [.null, lastInPanel.value]), ("type", .string "panel")]])]

theorem Reaches.origins_lead_back_lastInPanel :
    ∃ b, Reaches { mode := .lenient } panelSource b [lastInPanel] ∧
      b.origins = #[⟨none, 1⟩] ∧ b.document.skipped = 2 ∧
      b.climb? 0 lastInPanel.origin [] = none ∧
      b.climb? 1 lastInPanel.origin [] = some [1, 1] ∧
      follow panelSource [1, 1] = some lastInPanel.value := by
  have hstart : Reaches { mode := .lenient } panelSource _ _ := .start rfl
  have hreaches := ((hstart.step rfl).step rfl).step rfl
  refine ⟨_, hreaches, rfl, rfl, ?_⟩
  obtain ⟨-, -, made, -, -, hlocated, -⟩ := hreaches.origins_lead_back
  have h := hlocated lastInPanel (List.mem_append_right made (List.mem_singleton_self _))
  exact ⟨h.climb?_eq 0, h.climb?_eq 1, h.follow_path⟩

end Builder

end RichDoc
