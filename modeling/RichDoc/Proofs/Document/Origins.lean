import RichDoc.Proofs.Document.Forest

/-! Where the nodes of a document under construction come from. Each node has an origin whose parent
is an earlier node, so the way back to the root ends, and the path of an entry is made of the
positions along this way. Building goes on without changing what is known of the nodes that are
there. -/

namespace RichDoc.Builder

open Json

variable {options : BuildOptions} {b b' b'' : Builder} {parent : Option Nat} {path : List Nat}

/-- There is an origin for each node, and its parent is an earlier node. -/
structure Traced (b : Builder) : Prop where
  size_origins : b.origins.size = b.document.size
  parent_lt : ∀ {i : Nat} {o : Origin}, b.origins[i]? = some o → ∀ p ∈ o.parent, p < i

/-- The positions that lead from the root to a node; none lead to the root itself. -/
inductive Leads (b : Builder) : Option Nat → List Nat → Prop
  | root : Leads b none []
  | node {i : Nat} {o : Origin} {path : List Nat} :
      b.origins[i]? = some o → Leads b o.parent path → Leads b (some i) (path ++ [o.position])

/-! ### Paths -/

theorem Leads.length_le (ht : b.Traced) (h : b.Leads parent path) :
    path.length ≤ (parent.map (· + 1)).getD 0 := by
  induction h with
  | root => exact Nat.le_refl 0
  | @node i o path ho _ ih =>
    rw [List.length_append, List.length_singleton]
    show path.length + 1 ≤ i + 1
    cases hp : o.parent with
    | none =>
      have hle : path.length ≤ 0 := by rw [hp] at ih; exact ih
      omega
    | some p =>
      have hle : path.length ≤ p + 1 := by rw [hp] at ih; exact ih
      have hlt := ht.parent_lt ho p hp
      omega

theorem Leads.pathFrom_eq (h : b.Leads parent path) {fuel : Nat} (hfuel : path.length < fuel)
    (position : Nat) (below : List Nat) :
    b.pathFrom fuel ⟨parent, position⟩ below = path ++ position :: below := by
  induction h generalizing fuel position below with
  | root =>
    obtain ⟨fuel, rfl⟩ : ∃ n, fuel = n + 1 := ⟨fuel - 1, by omega⟩
    rfl
  | @node i o path ho _ ih =>
    rw [List.length_append, List.length_singleton] at hfuel
    obtain ⟨fuel, rfl⟩ : ∃ n, fuel = n + 1 := ⟨fuel - 1, by omega⟩
    have hup : (some i).bind (b.origins[·]?) = some o := ho
    simp only [pathFrom, hup]
    rw [ih (by omega)]
    simp

/-- The path of an entry: the positions that lead to its parent, and then its own. -/
theorem Leads.path_eq (ht : b.Traced) (h : b.Leads parent path) (position : Nat) :
    b.path ⟨parent, position⟩ = path ++ [position] := by
  refine h.pathFrom_eq ?_ position []
  have hlength := h.length_le ht
  cases h with
  | root => simp
  | node ho _ =>
    have hlt := (Array.getElem?_eq_some_iff.mp ho).1
    simp at hlength ⊢
    omega

/-! ### Going on -/

/-- What a builder knows of its nodes, it knows after more steps. -/
structure GoesOn (b b' : Builder) : Prop where
  traced : b'.Traced
  size_le : b.document.size ≤ b'.document.size
  origins_eq : ∀ {i : Nat} {o : Origin}, b.origins[i]? = some o → b'.origins[i]? = some o
  depth_eq : ∀ i < b.document.size, b'.document.depth? i = b.document.depth? i

theorem GoesOn.refl (ht : b.Traced) : GoesOn b b := ⟨ht, Nat.le_refl _, id, fun _ _ => rfl⟩

theorem GoesOn.trans (h : GoesOn b b') (h' : GoesOn b' b'') : GoesOn b b'' where
  traced := h'.traced
  size_le := Nat.le_trans h.size_le h'.size_le
  origins_eq ho := h'.origins_eq (h.origins_eq ho)
  depth_eq := by
    intro i hi
    rw [h'.depth_eq i (Nat.lt_of_lt_of_le hi h.size_le), h.depth_eq i hi]

theorem GoesOn.holds (h : GoesOn b b') (hparent : b.document.Holds parent) :
    b'.document.Holds parent :=
  fun p hp => Nat.lt_of_lt_of_le (hparent p hp) h.size_le

theorem GoesOn.leads (h : GoesOn b b') (hleads : b.Leads parent path) : b'.Leads parent path := by
  induction hleads with
  | root => exact .root
  | node ho _ ih => exact .node (h.origins_eq ho) ih

theorem GoesOn.depthUnder_eq (h : GoesOn b b') (hparent : b.document.Holds parent) :
    b'.document.depthUnder parent = b.document.depthUnder parent := by
  cases parent with
  | none => rfl
  | some p =>
    have hp := hparent p rfl
    apply Option.some.inj
    rw [Document.depthUnder_of_lt (h.holds hparent p rfl), Document.depthUnder_of_lt hp,
      h.depth_eq p hp]

theorem GoesOn.skip (h : GoesOn b b') :
    GoesOn b { b' with document := b'.document.skip } where
  traced := ⟨h.traced.size_origins, h.traced.parent_lt⟩
  size_le := h.size_le
  origins_eq := h.origins_eq
  depth_eq := h.depth_eq

theorem goesOn_add (ht : b.Traced) {o : Origin} (ho : b.document.Holds o.parent) (kind : Kind) :
    GoesOn b (b.add o kind) where
  traced := by
    refine ⟨?_, ?_⟩
    · simp [add, ht.size_origins]
    · intro i o' ho'
      simp only [add, Array.getElem?_push] at ho'
      split at ho'
      · next hi =>
        obtain rfl := Option.some.inj ho'
        intro p hp
        rw [hi, ht.size_origins]
        exact ho p hp
      · exact ht.parent_lt ho'
  size_le := by
    simp [add]
  origins_eq := by
    intro i o' ho'
    have hlt := (Array.getElem?_eq_some_iff.mp ho').1
    simp only [add, Array.getElem?_push]
    rw [if_neg (by omega)]
    exact ho'
  depth_eq := by
    intro i hi
    rw [add, Document.depth?_push, if_neg (by omega)]

/-- The new node is reached by the path of its entry. -/
theorem leads_add (ht : b.Traced) {o : Origin} (ho : b.document.Holds o.parent)
    (hleads : b.Leads o.parent path) (kind : Kind) :
    (b.add o kind).Leads (some b.document.size) (path ++ [o.position]) := by
  refine .node ?_ ((goesOn_add ht ho kind).leads hleads)
  simp [add, ← ht.size_origins]

theorem holds_add (b : Builder) (o : Origin) (kind : Kind) :
    (b.add o kind).document.Holds (some b.document.size) := by
  intro p hp
  obtain rfl := Option.some.inj hp
  simp [add]

/-! ### Steps and runs -/

theorem goesOn_reject {mode : Mode} {v : Violation} (h : GoesOn b b')
    (hreject : b'.reject mode v = .ok b'') : GoesOn b b'' := by
  obtain rfl := eq_skip_of_reject hreject
  exact h.skip

theorem mem_pendingOf {items : List Value} {p : Pending} (h : p ∈ pendingOf parent items) :
    p.origin.parent = parent ∧ items[p.origin.position]? = some p.value := by
  obtain ⟨x, hx, rfl⟩ := List.mem_map.mp h
  exact ⟨rfl, List.mem_zipIdx_iff_getElem?.mp hx⟩

theorem goesOn_step {p : Pending} {more : List Pending} (ht : b.Traced)
    (hp : b.document.Holds p.origin.parent) (hstep : b.step options p = .ok (b', more)) :
    GoesOn b b' ∧ ∀ q ∈ more, b'.document.Holds q.origin.parent := by
  have hadd := fun kind => goesOn_add ht hp kind
  rcases step_cases hstep with ⟨-, rfl, hr⟩ | ⟨-, ⟨-, rfl, hr⟩ | ⟨ms, -, hms⟩⟩
  · exact ⟨goesOn_reject (.refl ht) hr, by simp⟩
  · exact ⟨goesOn_reject (.refl ht) hr, by simp⟩
  · rcases hms with ⟨items, -, rfl, rfl⟩ | ⟨found, -, rfl, hr⟩
    · refine ⟨hadd _, ?_⟩
      intro q hq
      rw [(mem_pendingOf hq).1]
      exact holds_add b p.origin _
    · exact ⟨goesOn_reject (hadd _) hr, by simp⟩

theorem goesOn_run {stack : List Pending} (ht : b.Traced)
    (hstack : ∀ p ∈ stack, b.document.Holds p.origin.parent)
    (hrun : run options b stack = .ok b') : GoesOn b b' := by
  fun_induction run options b stack with
  | case1 b =>
    cases hrun
    exact .refl ht
  | case2 b p rest v hstep => cases hrun
  | case3 b p rest b1 more hstep _ ih =>
    obtain ⟨h1, hmore⟩ := goesOn_step ht (hstack p (by simp)) hstep
    refine h1.trans (ih h1.traced ?_ hrun)
    intro q hq
    rcases List.mem_append.mp hq with hq | hq
    · exact hmore q hq
    · exact h1.holds (hstack q (by simp [hq]))

/-! ### The states of a build -/

/-- The states in which the build of a value turns to its next entry, or stops for want of one. -/
inductive Reaches (options : BuildOptions) (v : Value) : Builder → List Pending → Prop
  | start {items : List Value} : Document.contentOf v = some items →
      Reaches options v { document := { version := Document.versionOf v } } (pendingOf none items)
  | step {b b' : Builder} {p : Pending} {rest more : List Pending} :
      Reaches options v b (p :: rest) → b.step options p = .ok (b', more) →
        Reaches options v b' (more ++ rest)

section

variable {v : Value} {stack : List Pending}

theorem Reaches.traced_and_holds (h : Reaches options v b stack) :
    b.Traced ∧ ∀ p ∈ stack, b.document.Holds p.origin.parent := by
  induction h with
  | start =>
    refine ⟨⟨rfl, by simp⟩, ?_⟩
    intro p hp
    rw [(mem_pendingOf hp).1]
    simp [Document.Holds]
  | @step b b' p rest more _ hstep ih =>
    obtain ⟨ht, hstack⟩ := ih
    obtain ⟨h, hmore⟩ := goesOn_step ht (hstack p (by simp)) hstep
    refine ⟨h.traced, ?_⟩
    intro q hq
    rcases List.mem_append.mp hq with hq | hq
    · exact hmore q hq
    · exact h.holds (hstack q (by simp [hq]))

/-- A run ends in a state that it reaches, or at an entry of one. -/
theorem Reaches.run_cases (h : Reaches options v b stack) :
    (∃ b', run options b stack = .ok b' ∧ Reaches options v b' []) ∨
      ∃ e b' p rest, run options b stack = .error e ∧ Reaches options v b' (p :: rest) ∧
        b'.step options p = .error e := by
  fun_induction run options b stack with
  | case1 b => exact .inl ⟨b, rfl, h⟩
  | case2 b p rest e hstep => exact .inr ⟨e, b, p, rest, rfl, h, hstep⟩
  | case3 b p rest b' more hstep _ ih => exact ih (h.step hstep)

/-- Runs that take the same steps in every state that is reached are the same. -/
theorem Reaches.run_congr {options' : BuildOptions} (h : Reaches options v b stack)
    (hsteps : ∀ b p rest, Reaches options v b (p :: rest) →
      b.step options' p = b.step options p) :
    run options' b stack = run options b stack := by
  fun_induction run options b stack with
  | case1 b => exact run_nil _ b
  | case2 b p rest e hstep =>
    rw [run_cons, hsteps b p rest h, hstep]
    rfl
  | case3 b p rest b' more hstep _ ih =>
    rw [run_cons, hsteps b p rest h, hstep]
    exact ih (h.step hstep)

/-- A build finds no content, ends in a state that it reaches, or stops at an entry of one. -/
theorem ofValue?_cases (options : BuildOptions) (v : Value) :
    Document.ofValue? options v = .ok none ∨
      (∃ b, Document.ofValue? options v = .ok (some b.document) ∧ Reaches options v b []) ∨
      ∃ e b p rest, Document.ofValue? options v = .error e ∧ Reaches options v b (p :: rest) ∧
        b.step options p = .error e := by
  cases hitems : Document.contentOf v with
  | none => exact .inl (Document.ofValue?_of_no_content hitems)
  | some items =>
    have hstart : Reaches options v _ _ := .start hitems
    rw [Document.ofValue?_of_content hitems]
    rcases hstart.run_cases with ⟨b, hrun, hreaches⟩ | ⟨e, b, p, rest, hrun, hreaches, hstep⟩
    · rw [hrun]
      exact .inr (.inl ⟨b, rfl, hreaches⟩)
    · rw [hrun]
      exact .inr (.inr ⟨e, b, p, rest, rfl, hreaches, hstep⟩)

end

end RichDoc.Builder
