import RichDoc.Document.Build
import RichDoc.Proofs.Document.Layout

/-! What a JSON tree grows into. The entries of a content array become trees by plain recursion over
the JSON tree, and the parts that are left out on the way are counted. A lenient build lays these
trees out in a document. -/

namespace RichDoc

open Json

theorem eq_object_of_members? {v : Value} {ms : Members} (h : v.members? = some ms) :
    v = .object ms := by
  cases v <;> cases h
  rfl

/-- The entries below an object: those of its content, and none when the content is absent or null.
Any other content is no array, and is given by its type. -/
def entriesBelow (ms : Members) : Except Shape (List Value) :=
  match ms.get? "content" with
  | none | some .null => .ok []
  | some (.array items) => .ok items
  | some other => .error other.shape

/-- What entries grow into: trees, and a number of parts that are left out. -/
structure Growth where
  trees : List Tree
  skipped : Nat

namespace Growth

/-- Two growths one after the other. -/
def append (g g' : Growth) : Growth := ⟨g.trees ++ g'.trees, g.skipped + g'.skipped⟩

/-- Growths one after the other. -/
def concat : List Growth → Growth
  | [] => ⟨[], 0⟩
  | g :: gs => g.append (concat gs)

def dropped : Growth := ⟨[], 1⟩

/-- What an entry at a depth grows into. An entry that lies too deep is left out with all that is
below it, and so is an entry that is no object. An object becomes a node of its kind; its content is
descended into when it is an array, and left out when it is something else and not null. -/
def ofEntry (max depth : Nat) (v : Value) : Growth :=
  if max < depth then dropped
  else
    match v with
    | .object ms =>
      match entriesBelow ms with
      | .ok items =>
        let below := concat (items.map fun w => ofEntry max (depth + 1) w)
        ⟨[.node (Kind.ofMembers ms) below.trees], below.skipped⟩
      | .error _ => ⟨[.node (Kind.ofMembers ms) []], 1⟩
    | _ => dropped
termination_by max + 1 - depth

/-- What a list of entries at a depth grows into. -/
def ofEntries (max depth : Nat) (items : List Value) : Growth :=
  concat (items.map (ofEntry max depth))

theorem append_assoc (g g' g'' : Growth) :
    (g.append g').append g'' = g.append (g'.append g'') := by
  simp [append, Nat.add_assoc]

theorem concat_append (gs hs : List Growth) :
    concat (gs ++ hs) = (concat gs).append (concat hs) := by
  induction gs with
  | nil => simp [concat, append]
  | cons g gs ih => rw [List.cons_append, concat, ih, concat, append_assoc]

theorem trees_concat (gs : List Growth) : (concat gs).trees = gs.flatMap Growth.trees := by
  induction gs with
  | nil => rfl
  | cons g gs ih => rw [concat, append, ih, List.flatMap_cons]

theorem ofEntries_cons (max depth : Nat) (v : Value) (items : List Value) :
    ofEntries max depth (v :: items) =
      (ofEntry max depth v).append (ofEntries max depth items) := rfl

theorem trees_ofEntries_eq_flatMap (max depth : Nat) (items : List Value) :
    (ofEntries max depth items).trees = items.flatMap fun v => (ofEntry max depth v).trees := by
  rw [ofEntries, trees_concat, List.flatMap_map]

section

variable {max depth : Nat} {v : Value} {ms : Members}

theorem ofEntry_tooDeep (h : max < depth) : ofEntry max depth v = dropped := by
  unfold ofEntry
  rw [if_pos h]

theorem ofEntry_object {items : List Value} (h : ¬max < depth)
    (hitems : entriesBelow ms = .ok items) :
    ofEntry max depth (.object ms) =
      ⟨[.node (Kind.ofMembers ms) (ofEntries max (depth + 1) items).trees],
        (ofEntries max (depth + 1) items).skipped⟩ := by
  rw [ofEntry, if_neg h, hitems]
  rfl

theorem ofEntry_malformed {found : Shape} (h : ¬max < depth)
    (hitems : entriesBelow ms = .error found) :
    ofEntry max depth (.object ms) = ⟨[.node (Kind.ofMembers ms) []], 1⟩ := by
  rw [ofEntry, if_neg h, hitems]

end

/-- The growth of two lists of entries is that of the first, and then that of the second. -/
theorem ofEntries_append (max depth : Nat) (items more : List Value) :
    ofEntries max depth (items ++ more) =
      (ofEntries max depth items).append (ofEntries max depth more) := by
  rw [ofEntries, List.map_append, concat_append]
  rfl

end Growth

namespace Document

/-- The document with more parts of its source left out. -/
def skipBy (d : Document) (n : Nat) : Document := { d with skipped := d.skipped + n }

def grow (d : Document) (parent : Option Nat) (g : Growth) : Document :=
  (d.graft parent g.trees).skipBy g.skipped

variable {d : Document} {parent : Option Nat}

theorem graft_skipBy (n : Nat) (ts : List Tree) :
    (d.skipBy n).graft parent ts = (d.graft parent ts).skipBy n := by
  cases parent <;> rfl

theorem skipBy_skipBy (m n : Nat) : (d.skipBy m).skipBy n = d.skipBy (m + n) := by
  simp [skipBy, Nat.add_assoc]

theorem grow_nothing (d : Document) (parent : Option Nat) : d.grow parent ⟨[], 0⟩ = d := by
  rw [grow, graft_nil]
  rfl

theorem grow_dropped (d : Document) (parent : Option Nat) : d.grow parent .dropped = d.skip := by
  rw [grow, Growth.dropped, graft_nil]
  rfl

theorem grow_grow (h : d.Holds parent) (g g' : Growth) :
    (d.grow parent g).grow parent g' = d.grow parent (g.append g') := by
  simp only [grow, Growth.append, graft_skipBy, skipBy_skipBy, graft_graft h]

theorem push_grow (h : d.Holds parent) (kind : Kind) (g : Growth) :
    (d.push parent kind).grow (some d.size) g =
      d.grow parent ⟨[.node kind g.trees], g.skipped⟩ := by
  rw [grow, push_graft h, grow]

theorem Holds.grow (h : d.Holds parent) (g : Growth) : (d.grow parent g).Holds parent :=
  h.graft g.trees

theorem depthUnder_grow (h : d.Holds parent) (g : Growth) :
    (d.grow parent g).depthUnder parent = d.depthUnder parent :=
  depthUnder_graft h g.trees

end Document

/-! ### Steps of the builder -/

namespace Builder

variable {options : BuildOptions} {b b' : Builder} {o : Origin}

theorem step_tooDeep {v : Value} (h : options.maxDepth < b.document.depthUnder o.parent) :
    b.step options ⟨v, o⟩ =
      (b.reject options.mode (.tooDeep (b.document.depthUnder o.parent) options.maxDepth)).map
        (·, []) := by
  simp only [step, if_pos h]

theorem step_object {ms : Members} {items : List Value}
    (h : ¬options.maxDepth < b.document.depthUnder o.parent)
    (hitems : entriesBelow ms = .ok items) :
    b.step options ⟨.object ms, o⟩ =
      .ok (b.add o (Kind.ofMembers ms), pendingOf (some b.document.size) items) := by
  simp only [step, if_neg h, entriesBelow] at hitems ⊢
  split at hitems <;> simp_all [lastPlace_add, pendingOf]

theorem step_malformed {ms : Members} {found : Shape}
    (h : ¬options.maxDepth < b.document.depthUnder o.parent)
    (hitems : entriesBelow ms = .error found) :
    b.step options ⟨.object ms, o⟩ =
      ((b.add o (Kind.ofMembers ms)).reject options.mode
        (.malformed ((b.add o (Kind.ofMembers ms)).path o) (.contentNotArray found))).map
        (·, []) := by
  simp only [step, if_neg h, entriesBelow] at hitems ⊢
  split at hitems <;> simp_all

theorem step_not_object {v : Value} (h : ¬options.maxDepth < b.document.depthUnder o.parent)
    (hv : v.members? = none) :
    b.step options ⟨v, o⟩ =
      (b.reject options.mode (.malformed (b.path o) (.notObject v.shape))).map (·, []) := by
  simp only [step, if_neg h]
  cases v <;> first | rfl | simp [Value.members?] at hv

/-- What is left out is only counted, when the build goes on at all. -/
theorem eq_skip_of_reject {mode : Mode} {e : Violation} (h : b.reject mode e = .ok b') :
    b' = { b with document := b.document.skip } := by
  cases mode with
  | strict => cases h
  | lenient => cases h; rfl

/-- What a step that goes on can do: leave the entry out, as too deep or as no object, add its node
and go on with its content, or add its node and leave the content out. -/
theorem step_cases {p : Pending} {more : List Pending} (h : b.step options p = .ok (b', more)) :
    (options.maxDepth < b.document.depthUnder p.origin.parent ∧ more = [] ∧
      b.reject options.mode
        (.tooDeep (b.document.depthUnder p.origin.parent) options.maxDepth) = .ok b') ∨
    ¬options.maxDepth < b.document.depthUnder p.origin.parent ∧
      ((p.value.members? = none ∧ more = [] ∧
        b.reject options.mode (.malformed (b.path p.origin) (.notObject p.value.shape)) = .ok b') ∨
      ∃ ms, p.value = .object ms ∧
        ((∃ items, entriesBelow ms = .ok items ∧ b' = b.add p.origin (Kind.ofMembers ms) ∧
          more = pendingOf (some b.document.size) items) ∨
        ∃ found, entriesBelow ms = .error found ∧ more = [] ∧
          (b.add p.origin (Kind.ofMembers ms)).reject options.mode
            (.malformed ((b.add p.origin (Kind.ofMembers ms)).path p.origin)
              (.contentNotArray found)) = .ok b')) := by
  have stopped : ∀ {b : Builder} {v : Violation},
      (b.reject options.mode v).map (·, []) = .ok (b', more) →
        more = [] ∧ b.reject options.mode v = .ok b' := by
    intro b v h
    cases hreject : b.reject options.mode v with
    | error e => simp [hreject, Except.map] at h
    | ok c =>
      simp only [hreject, Except.map, Except.ok.injEq, Prod.mk.injEq] at h
      exact ⟨h.2.symm, by rw [h.1]⟩
  obtain ⟨v, o⟩ := p
  by_cases hdeep : options.maxDepth < b.document.depthUnder o.parent
  · rw [step_tooDeep hdeep] at h
    exact .inl ⟨hdeep, stopped h⟩
  refine .inr ⟨hdeep, ?_⟩
  cases hv : v.members? with
  | none =>
    rw [step_not_object hdeep hv] at h
    exact .inl ⟨rfl, stopped h⟩
  | some ms =>
    obtain rfl := eq_object_of_members? hv
    refine .inr ⟨ms, rfl, ?_⟩
    cases hitems : entriesBelow ms with
    | ok items =>
      rw [step_object hdeep hitems] at h
      simp only [Except.ok.injEq, Prod.mk.injEq] at h
      exact .inl ⟨items, rfl, h.1.symm, h.2.symm⟩
    | error found =>
      rw [step_malformed hdeep hitems] at h
      exact .inr ⟨found, rfl, stopped h⟩

theorem run_nil (options : BuildOptions) (b : Builder) : run options b [] = .ok b := by
  rw [run]

theorem run_cons (options : BuildOptions) (b : Builder) (p : Pending) (rest : List Pending) :
    run options b (p :: rest) =
      (b.step options p).bind fun (b, more) => run options b (more ++ rest) := by
  rw [run]
  split
  · next h => rw [h]; rfl
  · next b' more h =>
    show run options b' (more ++ rest) = _
    rw [h]
    rfl

/-- The entries at the top of a stack are built, with all that is below them, before the rest. -/
theorem run_append (options : BuildOptions) (b : Builder) (s t : List Pending) :
    run options b (s ++ t) = (run options b s).bind fun b => run options b t := by
  fun_induction run options b s with
  | case1 b => rfl
  | case2 b p rest v hstep => rw [List.cons_append, run_cons, hstep]; rfl
  | case3 b p rest b' more hstep _ ih =>
    rw [List.cons_append, run_cons, hstep, ← ih, List.append_assoc]
    rfl

/-! ### Lenient builds -/

/-- Entries that wait on a stack, below a parent at a depth less by one, are built into a growth. -/
def Grows (options : BuildOptions) (parent : Option Nat) (depth : Nat) (stack : List Pending)
    (g : Growth) : Prop :=
  ∀ b : Builder, b.document.Holds parent → b.document.depthUnder parent = depth →
    ∃ b', run options b stack = .ok b' ∧ b'.document = b.document.grow parent g

variable {parent : Option Nat} {depth : Nat}

theorem grows_nil : Grows options parent depth [] ⟨[], 0⟩ := fun b _ _ =>
  ⟨b, run_nil options b, (Document.grow_nothing _ _).symm⟩

theorem Grows.append {s t : List Pending} {g g' : Growth} (hs : Grows options parent depth s g)
    (ht : Grows options parent depth t g') :
    Grows options parent depth (s ++ t) (g.append g') := by
  intro b hb hdepth
  obtain ⟨b1, hrun1, hd1⟩ := hs b hb hdepth
  have hdepth1 : b1.document.depthUnder parent = depth := by
    rw [hd1, Document.depthUnder_grow hb, hdepth]
  obtain ⟨b2, hrun2, hd2⟩ := ht b1 (hd1 ▸ hb.grow g) hdepth1
  refine ⟨b2, ?_, ?_⟩
  · rw [run_append, hrun1]
    exact hrun2
  · rw [hd2, hd1, Document.grow_grow hb]

theorem grows_entries (items : List Value)
    (h : ∀ v ∈ items, ∀ position, Grows options parent depth [⟨v, ⟨parent, position⟩⟩]
      (Growth.ofEntry options.maxDepth depth v)) :
    Grows options parent depth (pendingOf parent items)
      (Growth.ofEntries options.maxDepth depth items) := by
  suffices ∀ k, Grows options parent depth
      ((items.zipIdx k).map fun x => ⟨x.1, ⟨parent, x.2⟩⟩)
      (Growth.ofEntries options.maxDepth depth items) from this 0
  -- Positions have no part in what is built, so the rest of the list may start anywhere.
  induction items with
  | nil => exact fun k => grows_nil
  | cons v items ih =>
    intro k
    have hfirst := h v (by simp) k
    have hrest := ih (fun w hw => h w (by simp [hw])) (k + 1)
    exact hfirst.append hrest

/-- One step that leaves a part out, when nothing below it waits. -/
theorem run_left_out {p : Pending} {v : Violation} (hmode : options.mode = .lenient)
    (h : b.step options p = (b'.reject options.mode v).map (·, [])) :
    run options b [p] = .ok { b' with document := b'.document.skip } := by
  rw [run_cons, h, hmode]
  exact run_nil options _

/-- A lenient build of an entry, with all that is below it. -/
theorem grows_entry (hmode : options.mode = .lenient) (depth : Nat) (v : Value)
    (parent : Option Nat) (position : Nat) :
    Grows options parent depth [⟨v, ⟨parent, position⟩⟩]
      (Growth.ofEntry options.maxDepth depth v) := by
  -- The recursion has the cases of a step, and only an object with entries below it goes on.
  fun_induction Growth.ofEntry options.maxDepth depth v generalizing parent position with
  | case1 depth v htoo =>
    intro b hb hdepth
    refine ⟨_, run_left_out hmode (step_tooDeep (by rw [hdepth]; exact htoo)), ?_⟩
    exact (Document.grow_dropped _ _).symm
  | case2 depth hdeep ms items hitems _ ih =>
    intro b hb hdepth
    have hstep : b.step options ⟨.object ms, ⟨parent, position⟩⟩ = _ :=
      step_object (by rw [hdepth]; exact hdeep) hitems
    let b1 := b.add ⟨parent, position⟩ (Kind.ofMembers ms)
    have hlast : b1.document.Holds (some b.document.size) := by simp [b1, Document.Holds, add]
    have hbelow : b1.document.depthUnder (some b.document.size) = depth + 1 := by
      rw [← hdepth]
      exact Document.depthUnder_push_last b.document parent _
    obtain ⟨b2, hrun, hd⟩ :=
      grows_entries items (fun w _ i => ih w (some b.document.size) i) b1 hlast hbelow
    refine ⟨b2, ?_, ?_⟩
    · rw [run_cons, hstep]
      simpa [Except.bind] using hrun
    · rw [hd]
      exact Document.push_grow hb _ _
  | case3 depth hdeep ms found hitems =>
    intro b hb hdepth
    refine ⟨_, run_left_out hmode (step_malformed (by rw [hdepth]; exact hdeep) hitems), ?_⟩
    have := Document.push_grow hb (Kind.ofMembers ms) .dropped
    rw [Document.grow_dropped] at this
    exact this
  | case4 depth v hdeep hv =>
    intro b hb hdepth
    have hv : v.members? = none := by
      cases v <;> first | rfl | exact absurd rfl (hv _)
    refine ⟨_, run_left_out hmode (step_not_object (by rw [hdepth]; exact hdeep) hv), ?_⟩
    exact (Document.grow_dropped _ _).symm

end Builder

namespace Document

def versionOf (v : Value) : Option Nat :=
  ((v.get? "version").bind Value.number?).bind Number.natural?

/-- The document of a list of entries: the trees into which they grow, laid out in pre-order. -/
def ofEntries (max : Nat) (version : Option Nat) (items : List Value) : Document :=
  ofTrees version (Growth.ofEntries max 0 items).trees (Growth.ofEntries max 0 items).skipped

theorem trees_ofEntries (max : Nat) (version : Option Nat) (items : List Value) :
    (ofEntries max version items).trees = (Growth.ofEntries max 0 items).trees :=
  trees_ofTrees _ _ _

/-- The nodes of a document of entries are those that the entries grow into. -/
theorem kinds_ofEntries (max : Nat) (version : Option Nat) (items : List Value) :
    (ofEntries max version items).nodes.toList.map Node.kind =
      (Growth.ofEntries max 0 items).trees.flatMap Tree.kinds := by
  simp [ofEntries, ofTrees, Tree.kinds_layoutAll]

/-- The entries of the content array of a value, when it has one. -/
def contentOf (v : Value) : Option (List Value) := (v.get? "content").bind Value.items?

theorem ofValue?_of_content {options : BuildOptions} {v : Value} {items : List Value}
    (h : contentOf v = some items) :
    ofValue? options v =
      (Builder.run options { document := { version := versionOf v } } (pendingOf none items)).map
        (some ·.document) := by
  rw [contentOf] at h
  rw [ofValue?, h]
  rfl

theorem ofValue?_of_no_content {options : BuildOptions} {v : Value} (h : contentOf v = none) :
    ofValue? options v = .ok none := by
  rw [contentOf] at h
  rw [ofValue?, h]

theorem ofValue?_lenient {options : BuildOptions} {v : Value} {items : List Value}
    (hmode : options.mode = .lenient) (h : contentOf v = some items) :
    ofValue? options v = .ok (some (ofEntries options.maxDepth (versionOf v) items)) := by
  obtain ⟨b, hrun, hd⟩ := Builder.grows_entries items
    (fun w _ i => Builder.grows_entry hmode 0 w none i)
    { document := { version := versionOf v } } (by simp [Holds]) rfl
  have hdocument : b.document = ofEntries options.maxDepth (versionOf v) items := by
    rw [hd, grow, graft_empty]
    simp [skipBy, ofTrees, ofEntries]
  rw [ofValue?_of_content h, hrun, ← hdocument]
  rfl

/-- A lenient build lays out in pre-order the trees into which the entries of the content grow by
recursion over the JSON tree, and counts the parts that are left out there. The places that the
document lists lead to these trees again. -/
theorem ofValue?_lenient_eq_recursion (max : Nat) (v : Value) :
    ofValue? { mode := .lenient, maxDepth := max } v =
      .ok ((contentOf v).map (ofEntries max (versionOf v))) ∧
    ∀ version items,
      (ofEntries max version items).trees = (Growth.ofEntries max 0 items).trees := by
  refine ⟨?_, trees_ofEntries max⟩
  cases hitems : contentOf v with
  | none => exact ofValue?_of_no_content hitems
  | some items => exact ofValue?_lenient rfl hitems

/-! ### Builds in either mode -/

theorem Built.reject {b b' : Builder} {mode : Mode} {v : Violation} (h : b.document.Built)
    (hreject : b.reject mode v = .ok b') : b'.document.Built := by
  obtain rfl := Builder.eq_skip_of_reject hreject
  exact h.skip

theorem Built.step {options : BuildOptions} {b b' : Builder} {p : Pending} {more : List Pending}
    (h : b.document.Built) (hstep : b.step options p = .ok (b', more)) : b'.document.Built := by
  have hadd : ∀ kind, (b.add p.origin kind).document.Built := fun kind => h.push _ kind
  rcases Builder.step_cases hstep with ⟨-, -, hr⟩ | ⟨-, ⟨-, -, hr⟩ | ⟨ms, -, hms⟩⟩
  · exact h.reject hr
  · exact h.reject hr
  · rcases hms with ⟨items, -, rfl, -⟩ | ⟨found, -, -, hr⟩
    · exact hadd _
    · exact (hadd _).reject hr

theorem Built.run {options : BuildOptions} {b b' : Builder} {stack : List Pending}
    (h : b.document.Built) (hrun : Builder.run options b stack = .ok b') : b'.document.Built := by
  fun_induction Builder.run options b stack with
  | case1 b => cases hrun; exact h
  | case2 b p rest v hstep => cases hrun
  | case3 b p rest b1 more hstep _ ih => exact ih (h.step hstep) hrun

/-- Documents as callers get them: made by additions, or read from a JSON value. -/
def Obtained (d : Document) : Prop :=
  (∃ version steps, d = pushAll { version } steps) ∨
    ∃ options v, ofValue? options v = .ok (some d)

theorem Built.pushAll {d : Document} (h : d.Built) (steps : List (Option Nat × Kind)) :
    (d.pushAll steps).Built := by
  induction steps generalizing d with
  | nil => exact h
  | cons step steps ih => exact ih (h.push step.1 step.2)

theorem Built.ofValue? {options : BuildOptions} {v : Value} {d : Document}
    (h : ofValue? options v = .ok (some d)) : d.Built := by
  cases hitems : contentOf v with
  | none => simp [ofValue?_of_no_content hitems] at h
  | some items =>
    rw [ofValue?_of_content hitems] at h
    cases hrun : Builder.run options { document := { version := versionOf v } }
        (pendingOf none items) with
    | error e => simp [hrun, Except.map] at h
    | ok b =>
      simp only [hrun, Except.map, Except.ok.injEq, Option.some.injEq] at h
      exact h ▸ (Built.empty (versionOf v)).run hrun

theorem Obtained.built {d : Document} (h : d.Obtained) : d.Built := by
  rcases h with ⟨version, steps, rfl⟩ | ⟨options, v, h⟩
  · exact (Built.empty version).pushAll steps
  · exact .ofValue? h

end Document

end RichDoc
