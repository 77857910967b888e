import RichDoc.Proofs.Document.Violations
import RichDoc.Proofs.Json.Levels

/-! The depth of nodes and the nesting of brackets. Two levels of brackets lie around the entries
below a node that are not around the node, its own and that of its content, and two lie around those
at the top level. A text has so few levels that no limit of depth from 62 on is ever met. -/

namespace RichDoc

open Json

/-- The content of a part of a value lies inside one more of its brackets. -/
theorem Json.Inside.content {n : Nat} {v w : Value} {items : List Value} (h : Inside v n w)
    (hitems : Document.contentOf w = some items) : Inside v (n + 1) (.array items) := by
  obtain ⟨x, hget, hx⟩ := Option.bind_eq_some_iff.mp hitems
  obtain ⟨ms, hms, hlookup⟩ := Option.bind_eq_some_iff.mp hget
  obtain rfl := eq_object_of_members? hms
  obtain ⟨before, after, rfl, -⟩ := List.lookup_eq_some_iff.mp hlookup
  cases x with
  | array =>
    cases hx
    exact .member (m := ("content", _)) h (by simp)
  | _ => cases hx

namespace Builder

variable {options : BuildOptions} {v : Value} {b b' : Builder} {p : Pending}
  {stack rest more : List Pending}

/-- The depth at which an entry is built. -/
def depthOf (b : Builder) (p : Pending) : Nat := b.document.depthUnder p.origin.parent

/-- An entry stands at its position in an array of a value, inside two levels of brackets for each
node above it and one more. -/
def Stands (v : Value) (b : Builder) (p : Pending) : Prop :=
  ∃ items, Inside v (2 * b.depthOf p + 1) (.array items) ∧
    items[p.origin.position]? = some p.value

/-- Entries and nodes are as deep in the document as in the brackets of the value. -/
structure Placed (v : Value) (b : Builder) (stack : List Pending) : Prop where
  entry : ∀ p ∈ stack, Stands v b p
  node : ∀ {i depth : Nat}, b.document.depth? i = some depth →
    ∃ ms, Inside v (2 * depth + 2) (.object ms)

theorem Stands.inside (h : Stands v b p) : Inside v (2 * b.depthOf p + 2) p.value := by
  obtain ⟨items, hitems, hp⟩ := h
  exact .item hitems (List.mem_of_getElem? hp)

theorem Stands.le_nesting (h : Stands v b p) : 2 * b.depthOf p + 2 ≤ v.nesting := by
  obtain ⟨items, hitems, -⟩ := h
  exact Value.lt_nesting_iff.mpr ⟨_, hitems, Nat.succ_pos _⟩

theorem GoesOn.stands (h : GoesOn b b') (hp : b.document.Holds p.origin.parent)
    (hstands : Stands v b p) : Stands v b' p := by
  rwa [Stands, depthOf, h.depthUnder_eq hp]

/-- The entries of an object stand in its content. -/
theorem stands_below {ms : Members} {items : List Value} (h : Stands v b p)
    (hp : p.value = .object ms) (hitems : entriesBelow ms = .ok items) (kind : Kind) :
    ∀ q ∈ pendingOf (some b.document.size) items, Stands v (b.add p.origin kind) q := by
  intro q hq
  obtain ⟨hparent, hvalue⟩ := mem_pendingOf hq
  have hobject := h.inside
  rw [hp] at hobject
  have hdepth : (b.add p.origin kind).depthOf q = b.depthOf p + 1 := by
    rw [depthOf, hparent]
    exact Document.depthUnder_push_last b.document p.origin.parent kind
  refine ⟨items, ?_, hvalue⟩
  rw [hdepth]
  exact hobject.content (contentOf_of_mem hitems hvalue)

theorem depth?_reject {mode : Mode} {e : Violation} (h : b.reject mode e = .ok b') (i : Nat) :
    b'.document.depth? i = b.document.depth? i := by
  obtain rfl := eq_skip_of_reject h
  rfl

theorem Placed.node_add {ms : Members} (h : Placed v b (p :: rest)) (hp : p.value = .object ms)
    (kind : Kind) {i depth : Nat} (hi : (b.add p.origin kind).document.depth? i = some depth) :
    ∃ ms, Inside v (2 * depth + 2) (.object ms) := by
  rw [add, Document.depth?_push] at hi
  split at hi
  · cases hi
    have hobject := (h.entry p (by simp)).inside
    rw [hp] at hobject
    exact ⟨ms, hobject⟩
  · exact h.node hi

theorem Placed.step (ht : b.Traced) (hholds : ∀ q ∈ p :: rest, b.document.Holds q.origin.parent)
    (h : Placed v b (p :: rest)) (hstep : b.step options p = .ok (b', more)) :
    Placed v b' (more ++ rest) := by
  have hp := h.entry p (by simp)
  have hrest : ∀ q ∈ rest, Stands v b' q := by
    intro q hq
    have hq : q ∈ p :: rest := List.mem_cons_of_mem p hq
    exact (goesOn_step ht (hholds p (by simp)) hstep).1.stands (hholds q hq) (h.entry q hq)
  rcases step_cases hstep with ⟨-, rfl, hreject⟩ | ⟨-, ⟨-, rfl, hreject⟩ | ⟨ms, hms, hobject⟩⟩
  · refine ⟨hrest, fun hi => ?_⟩
    rw [depth?_reject hreject] at hi
    exact h.node hi
  · refine ⟨hrest, fun hi => ?_⟩
    rw [depth?_reject hreject] at hi
    exact h.node hi
  · rcases hobject with ⟨items, hitems, rfl, rfl⟩ | ⟨found, -, rfl, hreject⟩
    · refine ⟨?_, fun hi => h.node_add hms _ hi⟩
      intro q hq
      rcases List.mem_append.mp hq with hq | hq
      · exact stands_below hp hms hitems _ q hq
      · exact hrest q hq
    · refine ⟨hrest, fun hi => ?_⟩
      rw [depth?_reject hreject] at hi
      exact h.node_add hms _ hi

theorem Reaches.placed (h : Reaches options v b stack) : Placed v b stack := by
  induction h with
  | @start items hitems =>
    refine ⟨?_, ?_⟩
    · intro p hp
      obtain ⟨hparent, hvalue⟩ := mem_pendingOf hp
      refine ⟨items, ?_, hvalue⟩
      rw [depthOf, hparent]
      exact Inside.whole.content hitems
    · intro i depth hi
      cases hi
  | step hbefore hstep ih =>
    obtain ⟨ht, hholds⟩ := hbefore.traced_and_holds
    exact ih.step ht hholds hstep

/-- Entries that are reached are too shallow for a limit that the brackets cannot exceed. -/
theorem Reaches.depthOf_le {max : Nat} (h : Reaches options v b (p :: rest))
    (hnesting : v.nesting ≤ 2 * max + 3) : b.depthOf p ≤ max := by
  have hle := (h.placed.entry p (by simp)).le_nesting
  omega

/-- Limits that an entry does not exceed make no difference to its step. -/
theorem step_eq_of_depthOf_le {mode : Mode} {max max' : Nat} (h : b.depthOf p ≤ max)
    (hle : max ≤ max') :
    b.step { mode, maxDepth := max' } p = b.step { mode, maxDepth := max } p := by
  rw [depthOf] at h
  simp only [step, if_neg (Nat.not_lt.mpr h), if_neg (Nat.not_lt.mpr (Nat.le_trans h hle))]

theorem step_ne_tooDeep (h : b.depthOf p ≤ options.maxDepth) (depth max : Nat) :
    b.step options p ≠ .error (.tooDeep depth max) := by
  have hreject : ∀ {b : Builder} {path reason},
      (b.reject options.mode (.malformed path reason)).map (·, ([] : List Pending)) ≠
        .error (.tooDeep depth max) := by
    intro b path reason
    cases options.mode <;> simp [reject, Except.map]
  have hdeep : ¬options.maxDepth < b.document.depthUnder p.origin.parent := Nat.not_lt.mpr h
  cases hv : p.value.members? with
  | none =>
    rw [show p = ⟨p.value, p.origin⟩ from rfl, step_not_object hdeep hv]
    exact hreject
  | some ms =>
    have hp : p = ⟨.object ms, p.origin⟩ := by
      rw [← eq_object_of_members? hv]
    cases hitems : entriesBelow ms with
    | ok items =>
      rw [hp, step_object hdeep hitems]
      simp
    | error found =>
      rw [hp, step_malformed hdeep hitems]
      exact hreject

end Builder

namespace Document

open Builder

variable {options : BuildOptions} {mode : Mode} {max max' : Nat} {v : Value} {d : Document}

/-- Each node has its object, and all that is above it, around it in the value. -/
theorem depth_of_ofValue? (h : ofValue? options v = .ok (some d)) :
    ∀ n ∈ d.nodes, 2 * n.depth + 3 ≤ v.nesting := by
  rcases ofValue?_cases options v with hnone | ⟨b, hok, hreaches⟩ | ⟨e, -, -, -, herror, -⟩
  · rw [hnone] at h
    cases h
  · rw [hok] at h
    cases h
    intro n hn
    obtain ⟨i, hi⟩ := Array.getElem?_of_mem hn
    have hdepth : b.document.depth? i = some n.depth := by
      rw [depth?, node?, hi]
      rfl
    obtain ⟨ms, hms⟩ := hreaches.placed.node hdepth
    exact Value.lt_nesting_iff.mpr ⟨_, hms, Nat.succ_pos _⟩
  · rw [herror] at h
    cases h

/-- Limits of depth that the brackets of a value cannot exceed make no difference. -/
theorem ofValue?_eq_of_nesting_le (hnesting : v.nesting ≤ 2 * max + 3) (hle : max ≤ max') :
    ofValue? { mode, maxDepth := max' } v = ofValue? { mode, maxDepth := max } v := by
  cases hitems : contentOf v with
  | none => rw [ofValue?_of_no_content hitems, ofValue?_of_no_content hitems]
  | some items =>
    rw [ofValue?_of_content hitems, ofValue?_of_content hitems,
      (Reaches.start hitems).run_congr fun b p rest hreaches =>
        step_eq_of_depthOf_le (hreaches.depthOf_le hnesting) hle]

theorem ofValue?_ne_tooDeep (hnesting : v.nesting ≤ 2 * options.maxDepth + 3)
    (depth limit : Nat) : ofValue? options v ≠ .error (.tooDeep depth limit) := by
  intro h
  rcases ofValue?_cases options v with hnone | ⟨b, hok, -⟩ |
    ⟨e, b, p, rest, herror, hreaches, hstep⟩
  · rw [hnone] at h
    cases h
  · rw [hok] at h
    cases h
  · rw [herror] at h
    cases h
    exact step_ne_tooDeep (hreaches.depthOf_le hnesting) depth limit hstep

theorem ofText?_of_parse {s : String} (h : Json.parse s = .ok v) (options : BuildOptions) :
    ofText? options s = (ofValue? options v).mapError .violation := by
  rw [ofText?, h]

/-- A text is no JSON for any options, or it has a value that is built, which has few levels. -/
theorem ofText?_cases (s : String) :
    (∃ fault, ∀ options, ofText? options s = .error (.json fault)) ∨
      ∃ v, v.nesting ≤ 2 * 62 + 3 ∧
        ∀ options, ofText? options s = (ofValue? options v).mapError .violation := by
  cases hparse : Json.parse s with
  | error fault =>
    refine .inl ⟨fault, ?_⟩
    intro options
    rw [ofText?, hparse]
  | ok v => exact .inr ⟨v, nesting_le_of_parse hparse, ofText?_of_parse hparse⟩

/-- The depth of nodes and entries is bounded by the nesting of brackets. A text is read only up to
127 levels of brackets, so on texts all limits of depth from 62 on are one and the same, and none of
them is ever exceeded. -/
theorem depth_le_nesting :
    (∀ v options,
      (∀ d, ofValue? options v = .ok (some d) → ∀ n ∈ d.nodes, 2 * n.depth + 3 ≤ v.nesting) ∧
      ∀ b p rest, Reaches options v b (p :: rest) →
        Stands v b p ∧ 2 * b.depthOf p + 2 ≤ v.nesting) ∧
    ∀ s mode max, 62 ≤ max →
      (∀ depth limit,
        ofText? { mode, maxDepth := max } s ≠ .error (.violation (.tooDeep depth limit))) ∧
      (∀ d, ofText? { mode, maxDepth := max } s = .ok (some d) → ∀ n ∈ d.nodes, n.depth ≤ 62) ∧
      ofText? { mode, maxDepth := max } s = ofText? { mode, maxDepth := 62 } s := by
  refine ⟨?_, ?_⟩
  · intro v options
    refine ⟨fun d => depth_of_ofValue?, ?_⟩
    intro b p rest hreaches
    have hstands := hreaches.placed.entry p (by simp)
    exact ⟨hstands, hstands.le_nesting⟩
  · intro s mode max hmax
    rcases ofText?_cases s with ⟨fault, herror⟩ | ⟨v, hlimit, hbuild⟩
    · simp [herror]
    · have hbelow : v.nesting ≤ 2 * max + 3 := by omega
      simp only [hbuild]
      refine ⟨?_, ?_, ?_⟩
      · intro depth limit herror
        cases hv : ofValue? { mode, maxDepth := max } v with
        | ok found =>
          rw [hv] at herror
          cases herror
        | error e =>
          rw [hv] at herror
          cases herror
          exact ofValue?_ne_tooDeep hbelow depth limit hv
      · intro d hok n hn
        cases hv : ofValue? { mode, maxDepth := max } v with
        | ok found =>
          rw [hv] at hok
          cases hok
          have hdepth := depth_of_ofValue? hv n hn
          omega
        | error e =>
          rw [hv] at hok
          cases hok
      · rw [ofValue?_eq_of_nesting_le hlimit hmax]

/-- Objects and their contents in turn, as many levels of brackets as a text may have. -/
def deepest : List Char :=
  (List.replicate 63 "\x7b\"content\":[".toList).flatten ++ "\x7b\x7d".toList ++
    (List.replicate 63 "]\x7d".toList).flatten

/-- With a lower limit the innermost object of this text is too deep. -/
theorem depth_le_nesting_deepest :
    62 ≤ 512 ∧ ∃ d,
      ofText? { mode := .strict, maxDepth := 512 } (String.ofList deepest) = .ok (some d) ∧
      ofText? { mode := .strict, maxDepth := 62 } (String.ofList deepest) = .ok (some d) ∧
      (∀ n ∈ d.nodes, n.depth ≤ 62) ∧ d.maxDepth = 62 ∧
      ofText? { mode := .strict, maxDepth := 61 } (String.ofList deepest) =
        .error (.violation (.tooDeep 62 61)) := by
  have hbuilds : (readAll (some levelLimit) deepest).toOption.map (fun v =>
      ((ofValue? { mode := .strict, maxDepth := 512 } v).map (·.map Document.maxDepth),
        (ofValue? { mode := .strict, maxDepth := 61 } v).map (·.map Document.maxDepth))) =
          some (.ok (some 62), .error (.tooDeep 62 61)) := by
    decide +kernel
  obtain ⟨v, hread, hbuild⟩ := Option.map_eq_some_iff.mp hbuilds
  have hparse : Json.parse (String.ofList deepest) = .ok v := by
    rw [parse, String.toList_ofList]
    cases h : readAll (some levelLimit) deepest with
    | error e =>
      rw [h] at hread
      cases hread
    | ok w =>
      rw [h] at hread
      cases hread
      rfl
  have hlow : ofText? { mode := .strict, maxDepth := 61 } (String.ofList deepest) =
      .error (.violation (.tooDeep 62 61)) := by
    rw [ofText?_of_parse hparse]
    cases hv : ofValue? { mode := .strict, maxDepth := 61 } v with
    | ok found => simp [hv, Except.map] at hbuild
    | error e =>
      simp only [hv, Except.map, Prod.mk.injEq, Except.error.injEq] at hbuild
      rw [hbuild.2]
      rfl
  obtain ⟨d, hd, hmax⟩ : ∃ d, ofText? { mode := .strict, maxDepth := 512 }
      (String.ofList deepest) = .ok (some d) ∧ d.maxDepth = 62 := by
    rw [ofText?_of_parse hparse]
    cases hv : ofValue? { mode := .strict, maxDepth := 512 } v with
    | ok found =>
      simp only [hv, Except.map, Prod.mk.injEq, Except.ok.injEq] at hbuild
      obtain ⟨d, rfl, hmax⟩ := Option.map_eq_some_iff.mp hbuild.1
      exact ⟨d, rfl, hmax⟩
    | error e => simp [hv, Except.map] at hbuild
  obtain ⟨-, hdepth, hsame⟩ :=
    depth_le_nesting.2 (String.ofList deepest) .strict 512 (by decide)
  exact ⟨by decide, d, hd, hsame.symm.trans hd, hdepth d hd, hmax, hlow⟩

end Document

end RichDoc
