import RichDoc.Proofs.Document.Forest
import RichDoc.Proofs.Document.Pruning

/-! Documents of the same value with two limits of depth. The lower limit only takes away the nodes
that are too deep for it, so the two are built in step: a node that is kept is added to both, under
the same node, and a node that is too deep is added to one of them and changes nothing of what is
kept. -/

namespace RichDoc

open Json

namespace Tree

/-- Trees cut down to a number of levels. -/
def upTo : Nat → List Tree → List Tree
  | 0, _ => []
  | n + 1, ts => ts.map fun | node kind children => node kind (upTo n children)

@[simp] theorem upTo_nil (n : Nat) : upTo n [] = [] := by
  cases n <;> rfl

theorem upTo_append (n : Nat) (ts us : List Tree) : upTo n (ts ++ us) = upTo n ts ++ upTo n us := by
  cases n with
  | zero => rfl
  | succ n => exact List.map_append

theorem upTo_flatMap {α : Type} (n : Nat) (xs : List α) (f : α → List Tree) :
    upTo n (xs.flatMap f) = xs.flatMap fun x => upTo n (f x) := by
  induction xs with
  | nil => exact upTo_nil n
  | cons x xs ih => rw [List.flatMap_cons, upTo_append, ih, List.flatMap_cons]

end Tree

namespace Growth

open RichDoc.Tree

variable {max max' depth : Nat} {v : Value}

theorem ofEntry_not_object (h : ¬max < depth) (hv : v.members? = none) :
    ofEntry max depth v = dropped := by
  unfold ofEntry
  rw [if_neg h]
  cases v with
  | object => cases hv
  | _ => rfl

/-- With a lower limit, entries grow into the same trees with fewer levels. -/
theorem trees_ofEntry_of_le (hle : max ≤ max') (depth : Nat) (v : Value) :
    (ofEntry max depth v).trees = upTo (max + 1 - depth) (ofEntry max' depth v).trees := by
  fun_induction ofEntry max depth v with
  | case1 depth v hdeep =>
    rw [show max + 1 - depth = 0 by omega]
    rfl
  | case2 depth hdeep ms items hitems _ ih =>
    have hbelow : (ofEntries max (depth + 1) items).trees =
        upTo (max + 1 - (depth + 1)) (ofEntries max' (depth + 1) items).trees := by
      rw [trees_ofEntries_eq_flatMap, trees_ofEntries_eq_flatMap, upTo_flatMap]
      exact List.flatMap_congr fun w _ => ih w
    rw [ofEntry_object (by omega) hitems]
    rw [show max + 1 - depth = max + 1 - (depth + 1) + 1 by omega]
    exact congrArg (fun ts => [node (Kind.ofMembers ms) ts]) hbelow
  | case3 depth hdeep ms found hitems =>
    rw [ofEntry_malformed (by omega) hitems]
    rw [show max + 1 - depth = max + 1 - (depth + 1) + 1 by omega]
    simp [upTo]
  | case4 depth v hdeep hv =>
    have hv : v.members? = none := by
      cases v <;> first | rfl | exact absurd rfl (hv _)
    rw [ofEntry_not_object (by omega) hv]
    exact (upTo_nil _).symm

theorem trees_ofEntries_of_le (hle : max ≤ max') (depth : Nat) (items : List Value) :
    (ofEntries max depth items).trees =
      upTo (max + 1 - depth) (ofEntries max' depth items).trees := by
  rw [trees_ofEntries_eq_flatMap, trees_ofEntries_eq_flatMap, upTo_flatMap]
  exact List.flatMap_congr fun v _ => trees_ofEntry_of_le hle depth v

/-- Where nothing is left out, nothing is too deep, and a higher limit makes no difference. -/
theorem ofEntry_eq_of_le (hle : max ≤ max') (h : (ofEntry max depth v).skipped = 0) :
    ofEntry max' depth v = ofEntry max depth v := by
  fun_induction ofEntry max depth v with
  | case1 => cases h
  | case2 depth hdeep ms items hitems _ ih =>
    have hbelow : ofEntries max' (depth + 1) items = ofEntries max (depth + 1) items :=
      congrArg concat (List.map_congr_left fun w hw =>
        ih w (skipped_ofEntries_eq_zero h w hw))
    rw [ofEntry_object (by omega) hitems, hbelow]
    rfl
  | case3 => cases h
  | case4 => cases h

theorem ofEntries_eq_of_le {items : List Value} (hle : max ≤ max')
    (h : (ofEntries max depth items).skipped = 0) :
    ofEntries max' depth items = ofEntries max depth items :=
  congrArg concat (List.map_congr_left fun v hv =>
    ofEntry_eq_of_le hle (skipped_ofEntries_eq_zero h v hv))

end Growth

namespace Document

open RichDoc.Tree

/-- The nodes, each with its kind and its depth alone. -/
def profile (d : Document) : List (Kind × Nat) := d.nodes.toList.map fun n => (n.kind, n.depth)

/-- The places of the nodes that are not too deep for a limit, in order. -/
def keptPlaces (max : Nat) (d : Document) : List Nat :=
  (List.range d.size).filter fun i => (d.depth? i).any (· ≤ max)

/-- The first document is the second without the nodes that are too deep. Its nodes are the others,
in order; the top level is the same; and a node that is kept has the same parent. -/
structure Truncation (max : Nat) (d d' : Document) : Prop where
  version_eq : d.version = d'.version
  profile_eq : d.profile = d'.profile.filter (·.2 ≤ max)
  size_eq : d.size = (keptPlaces max d').length
  roots_eq : d.roots.toList.map ((keptPlaces max d')[·]?) = d'.roots.toList.map some
  parent_iff : ∀ {c c' p' : Nat}, (keptPlaces max d')[c]? = some c' →
    (c' ∈ d'.children p' ↔ ∃ p, (keptPlaces max d')[p]? = some p' ∧ c ∈ d.children p)

variable {max : Nat} {d d' : Document} {parent parent' : Option Nat} {kind : Kind}

/-! ### Additions -/

theorem map_modify {α β : Type} {f : α → α} {g : α → β} (h : ∀ x, g (f x) = g x) (l : List α)
    (i : Nat) : (l.modify i f).map g = l.map g := by
  induction l generalizing i with
  | nil => simp
  | cons x l ih => cases i <;> simp [h, ih]

theorem profile_push (d : Document) (parent : Option Nat) (kind : Kind) :
    (d.push parent kind).profile = d.profile ++ [(kind, d.depthUnder parent)] := by
  rcases parent_cases d parent with ⟨p, rfl, hp⟩ | hp
  · have hold := map_modify (f := fun n : Node => { n with children := n.children.push d.size })
      (g := fun n => (n.kind, n.depth)) (fun _ => rfl) d.nodes.toList p
    simp only [push_of_lt hp, profile, adopt, Array.toList_push, Array.toList_modify,
      List.map_append, List.map_singleton, hold]
  · simp [push_of_not_lt hp, profile]

theorem keptPlaces_push (max : Nat) (d : Document) (parent : Option Nat) (kind : Kind) :
    keptPlaces max (d.push parent kind) =
      keptPlaces max d ++ if d.depthUnder parent ≤ max then [d.size] else [] := by
  have hold : (List.range d.size).filter (fun i => ((d.push parent kind).depth? i).any (· ≤ max)) =
      keptPlaces max d := by
    apply List.filter_congr
    intro i hi
    rw [depth?_push, if_neg (Nat.ne_of_lt (List.mem_range.mp hi))]
  rw [keptPlaces, size_push, List.range_succ, List.filter_append, hold]
  simp [List.filter_cons, depth?_push]

theorem lt_size_of_getElem?_keptPlaces {i i' : Nat} (h : (keptPlaces max d)[i]? = some i') :
    i' < d.size :=
  List.mem_range.mp (List.mem_filter.mp (List.mem_of_getElem? h)).1

/-- A node that is too deep changes nothing of what is kept. -/
theorem Truncation.push_tooDeep (h : Truncation max d d') (hdeep : max < d'.depthUnder parent') :
    Truncation max d (d'.push parent' kind) := by
  have hkept : keptPlaces max (d'.push parent' kind) = keptPlaces max d' := by
    rw [keptPlaces_push, if_neg (by omega), List.append_nil]
  obtain ⟨p, rfl, hp⟩ : ∃ p, parent' = some p ∧ p < d'.size := by
    rcases parent_cases d' parent' with hparent | hnone
    · exact hparent
    · rw [depthUnder_of_not_lt hnone] at hdeep
      omega
  refine ⟨?_, ?_, ?_, ?_, ?_⟩
  · rw [version_push, h.version_eq]
  · rw [profile_push, List.filter_append, ← h.profile_eq]
    simp [Nat.not_le.mpr hdeep]
  · rw [hkept, h.size_eq]
  · rw [hkept, h.roots_eq, push_of_lt hp]
  · intro c c' p' hc
    rw [hkept] at hc ⊢
    have hlt := lt_size_of_getElem?_keptPlaces hc
    rw [mem_children_push_iff, ← h.parent_iff hc]
    have hne : c' ≠ d'.size := by omega
    simp [hne]

theorem Built.graft (h : d.Built) (hparent : d.Holds parent) (ts : List Tree) :
    (d.graft parent ts).Built := by
  rw [← pushAll_stepsAll ts hparent]
  exact h.pushAll _

/-- Additions leave the kept places where they are. -/
theorem keptPlaces_pushAll (max : Nat) (d : Document) (steps : List (Option Nat × Kind)) :
    keptPlaces max d <+: keptPlaces max (d.pushAll steps) := by
  induction steps generalizing d with
  | nil => exact List.prefix_rfl
  | cons step steps ih =>
    refine List.IsPrefix.trans ?_ (ih (d.push step.1 step.2))
    rw [keptPlaces_push]
    exact List.prefix_append _ _

theorem keptPlaces_graft (max : Nat) (hparent : d.Holds parent) (ts : List Tree) :
    keptPlaces max d <+: keptPlaces max (d.graft parent ts) := by
  rw [← pushAll_stepsAll ts hparent]
  exact keptPlaces_pushAll max d _

/-- The documents are in step below two parents: these are the same kept node, or the top level, and
what is added below them has the given depth. -/
structure InStep (max : Nat) (d d' : Document) (parent parent' : Option Nat) (depth : Nat) :
    Prop where
  truncation : Truncation max d d'
  built : d.Built
  built' : d'.Built
  parents : Option.Rel (fun p p' => (keptPlaces max d')[p]? = some p') parent parent'
  depth_eq : d.depthUnder parent = depth
  depth_eq' : d'.depthUnder parent' = depth

namespace InStep

variable {depth : Nat}

theorem holds (h : InStep max d d' parent parent' depth) : d.Holds parent := by
  intro p hp
  obtain rfl := Option.mem_def.mp hp
  cases h.parents with
  | some hkept =>
    rw [h.truncation.size_eq]
    exact (List.getElem?_eq_some_iff.mp hkept).1

theorem holds' (h : InStep max d d' parent parent' depth) : d'.Holds parent' := by
  intro p hp
  obtain rfl := Option.mem_def.mp hp
  cases h.parents with
  | some hkept => exact lt_size_of_getElem?_keptPlaces hkept

theorem keptPlaces_push (h : InStep max d d' parent parent' depth) (hle : depth ≤ max)
    (kind : Kind) :
    keptPlaces max (d'.push parent' kind) = keptPlaces max d' ++ [d'.size] := by
  rw [Document.keptPlaces_push, if_pos (by rw [h.depth_eq']; exact hle)]

theorem kept_old (h : InStep max d d' parent parent' depth) (hle : depth ≤ max) (kind : Kind)
    {i : Nat} (hi : i < d.size) :
    (keptPlaces max (d'.push parent' kind))[i]? = (keptPlaces max d')[i]? := by
  rw [h.truncation.size_eq] at hi
  rw [h.keptPlaces_push hle, List.getElem?_append_left hi]

theorem kept_new (h : InStep max d d' parent parent' depth) (hle : depth ≤ max) (kind : Kind) :
    (keptPlaces max (d'.push parent' kind))[d.size]? = some d'.size := by
  rw [h.keptPlaces_push hle, h.truncation.size_eq, List.getElem?_concat_length]

theorem roots_push (h : InStep max d d' parent parent' depth) (hle : depth ≤ max) (kind : Kind) :
    (d.push parent kind).roots.toList.map ((keptPlaces max (d'.push parent' kind))[·]?) =
      (d'.push parent' kind).roots.toList.map some := by
  have hold : d.roots.toList.map ((keptPlaces max (d'.push parent' kind))[·]?) =
      d'.roots.toList.map some := by
    rw [← h.truncation.roots_eq]
    apply List.map_congr_left
    intro r hr
    exact h.kept_old hle kind (h.built.wellFormed.root_lt_size (Array.mem_def.mpr hr))
  have hnew := h.kept_new hle kind
  rcases roots_push_cases d parent kind with ⟨p, rfl, -, hroots⟩ | ⟨hnone, hroots⟩
  · cases h.parents with
    | some hparent =>
      rw [hroots, push_of_lt (lt_size_of_getElem?_keptPlaces hparent)]
      rw [push_of_lt (lt_size_of_getElem?_keptPlaces hparent)] at hold
      exact hold
  · have hparent : parent = none := by
      rw [Option.eq_none_iff_forall_not_mem]
      exact fun p hp => hnone p hp (h.holds p hp)
    subst hparent
    cases h.parents
    rw [hroots, Array.toList_push, List.map_append, hold, List.map_singleton, hnew,
      push_of_not_lt (by simp), Array.toList_push, List.map_append]
    rfl

/-- A node that was there has the parent that it had. -/
theorem parent_old (h : InStep max d d' parent parent' depth) (hle : depth ≤ max) (kind : Kind)
    {c c' p' : Nat} (hlt : c < d.size) (hc : (keptPlaces max d')[c]? = some c') :
    c' ∈ (d'.push parent' kind).children p' ↔
      ∃ p, (keptPlaces max (d'.push parent' kind))[p]? = some p' ∧
        c ∈ (d.push parent kind).children p := by
  have hne : c ≠ d.size := Nat.ne_of_lt hlt
  have hne' : c' ≠ d'.size := Nat.ne_of_lt (lt_size_of_getElem?_keptPlaces hc)
  simp only [mem_children_push_iff, hne, hne', and_false, or_false, h.truncation.parent_iff hc]
  refine exists_congr fun p => and_congr_left fun hmem => ?_
  have hp := h.built.wellFormed.lt_child hmem
  rw [h.kept_old hle kind (by omega)]

/-- The new nodes have the parents below which they were added. -/
theorem parent_new (h : InStep max d d' parent parent' depth) (hle : depth ≤ max) (kind : Kind)
    {p' : Nat} :
    d'.size ∈ (d'.push parent' kind).children p' ↔
      ∃ p, (keptPlaces max (d'.push parent' kind))[p]? = some p' ∧
        d.size ∈ (d.push parent kind).children p := by
  have hnot : ∀ p, d.size ∉ d.children p := fun p hmem =>
    absurd (h.built.wellFormed.child_lt_size hmem) (Nat.lt_irrefl _)
  have hnot' : d'.size ∉ d'.children p' := fun hmem =>
    absurd (h.built'.wellFormed.child_lt_size hmem) (Nat.lt_irrefl _)
  simp only [mem_children_push_iff, hnot, hnot', false_or, and_true]
  have hholds := h.holds
  have hold := fun {i} => h.kept_old hle kind (i := i)
  cases h.parents with
  | none => simp
  | @some i i' hparent =>
    have hi : i < d.size := hholds i rfl
    constructor
    · rintro ⟨hp, -⟩
      obtain rfl := Option.some.inj hp
      exact ⟨i, by rw [hold hi, hparent], rfl, hi⟩
    · rintro ⟨p, hp, heq, -⟩
      obtain rfl := Option.some.inj heq
      rw [hold hi, hparent] at hp
      exact ⟨hp, Option.some.inj hp ▸ lt_size_of_getElem?_keptPlaces hparent⟩

theorem parent_push (h : InStep max d d' parent parent' depth) (hle : depth ≤ max) (kind : Kind)
    {c c' p' : Nat} (hc : (keptPlaces max (d'.push parent' kind))[c]? = some c') :
    c' ∈ (d'.push parent' kind).children p' ↔
      ∃ p, (keptPlaces max (d'.push parent' kind))[p]? = some p' ∧
        c ∈ (d.push parent kind).children p := by
  have hlt := (List.getElem?_eq_some_iff.mp hc).1
  rw [h.keptPlaces_push hle, List.length_append, List.length_singleton, ← h.truncation.size_eq]
    at hlt
  rcases Nat.lt_succ_iff_lt_or_eq.mp hlt with hlt | rfl
  · rw [h.kept_old hle kind hlt] at hc
    exact h.parent_old hle kind hlt hc
  · obtain rfl : d'.size = c' := Option.some.inj ((h.kept_new hle kind).symm.trans hc)
    exact h.parent_new hle kind

/-- A node that is added to both is kept. -/
theorem truncation_push (h : InStep max d d' parent parent' depth) (hle : depth ≤ max)
    (kind : Kind) : Truncation max (d.push parent kind) (d'.push parent' kind) where
  version_eq := by
    rw [version_push, version_push, h.truncation.version_eq]
  profile_eq := by
    rw [profile_push, profile_push, List.filter_append, ← h.truncation.profile_eq, h.depth_eq,
      h.depth_eq']
    simp [hle]
  size_eq := by
    rw [size_push, h.keptPlaces_push hle, List.length_append, h.truncation.size_eq]
    rfl
  roots_eq := h.roots_push hle kind
  parent_iff := h.parent_push hle kind

theorem push (h : InStep max d d' parent parent' depth) (hle : depth ≤ max) (kind : Kind) :
    InStep max (d.push parent kind) (d'.push parent' kind) (some d.size) (some d'.size)
      (depth + 1) where
  truncation := h.truncation_push hle kind
  built := h.built.push parent kind
  built' := h.built'.push parent' kind
  parents := .some (h.kept_new hle kind)
  depth_eq := by rw [depthUnder_push_last, h.depth_eq]
  depth_eq' := by rw [depthUnder_push_last, h.depth_eq']

/-- After trees that were added below the parents, the documents are in step for the next ones. -/
theorem after (h : InStep max d d' parent parent' depth) {ts us : List Tree}
    (htruncation : Truncation max (d.graft parent ts) (d'.graft parent' us)) :
    InStep max (d.graft parent ts) (d'.graft parent' us) parent parent' depth where
  truncation := htruncation
  built := h.built.graft h.holds ts
  built' := h.built'.graft h.holds' us
  parents := by
    obtain ⟨more, hmore⟩ := keptPlaces_graft max h.holds' us
    rw [← hmore]
    cases h.parents with
    | none => exact .none
    | some hparent =>
      apply Option.Rel.some
      rw [List.getElem?_append_left (List.getElem?_eq_some_iff.mp hparent).1, hparent]
  depth_eq := by rw [depthUnder_graft h.holds, h.depth_eq]
  depth_eq' := by rw [depthUnder_graft h.holds', h.depth_eq']

end InStep

/-! ### Trees -/

mutual

theorem Truncation.graft_tooDeep : ∀ (t : Tree) {d' : Document} {parent' : Option Nat},
    Truncation max d d' → d'.Holds parent' → max < d'.depthUnder parent' →
      Truncation max d (d'.graft parent' [t])
  | .node kind ts, d', parent', h, hparent, hdeep => by
    rw [← push_graft hparent]
    refine Truncation.graftAll_tooDeep ts (h.push_tooDeep hdeep) (Holds.push parent' kind) ?_
    rw [depthUnder_push_last]
    omega

/-- Trees that are too deep change nothing of what is kept. -/
theorem Truncation.graftAll_tooDeep : ∀ (ts : List Tree) {d' : Document} {parent' : Option Nat},
    Truncation max d d' → d'.Holds parent' → max < d'.depthUnder parent' →
      Truncation max d (d'.graft parent' ts)
  | [], d', parent', h, _, _ => by rwa [graft_nil]
  | t :: ts, d', parent', h, hparent, hdeep => by
    rw [← List.singleton_append, ← graft_graft hparent]
    refine Truncation.graftAll_tooDeep ts (Truncation.graft_tooDeep t h hparent hdeep)
      (hparent.graft [t]) ?_
    rwa [depthUnder_graft hparent]

end

mutual

-- The number of levels that are left goes down with the tree. When none is left, the tree is added
-- to one of the documents only.

theorem InStep.graft : ∀ (t : Tree) {d d' : Document} {parent parent' : Option Nat} {depth : Nat},
    InStep max d d' parent parent' depth → depth ≤ max →
      Truncation max (d.graft parent (upTo (max + 1 - depth) [t])) (d'.graft parent' [t])
  | .node kind ts, d, d', parent, parent', depth, h, hle => by
    have hpush := h.push hle kind
    have hlevels : max + 1 - depth = max + 1 - (depth + 1) + 1 := by omega
    have hcut : upTo (max + 1 - depth) [.node kind ts] =
        [.node kind (upTo (max + 1 - (depth + 1)) ts)] := by
      rw [hlevels]
      rfl
    rw [hcut, ← push_graft h.holds, ← push_graft h.holds']
    by_cases hmore : depth + 1 ≤ max
    · exact InStep.graftAll ts hpush hmore
    · rw [show max + 1 - (depth + 1) = 0 by omega, upTo, graft_nil]
      refine Truncation.graftAll_tooDeep ts hpush.truncation (Holds.push parent' kind) ?_
      rw [hpush.depth_eq']
      omega

/-- Trees are kept down to the deepest level that is left. -/
theorem InStep.graftAll :
    ∀ (ts : List Tree) {d d' : Document} {parent parent' : Option Nat} {depth : Nat},
    InStep max d d' parent parent' depth → depth ≤ max →
      Truncation max (d.graft parent (upTo (max + 1 - depth) ts)) (d'.graft parent' ts)
  | [], d, d', parent, parent', depth, h, _ => by
    rw [upTo_nil, graft_nil, graft_nil]
    exact h.truncation
  | t :: ts, d, d', parent, parent', depth, h, hle => by
    rw [← List.singleton_append, upTo_append, ← graft_graft h.holds, ← graft_graft h.holds']
    exact InStep.graftAll ts (h.after (InStep.graft t h hle)) hle

end

theorem truncation_ofEntries {max max' : Nat} (hle : max ≤ max') (version : Option Nat)
    (items : List Value) :
    Truncation max (ofEntries max version items) (ofEntries max' version items) := by
  have hempty : InStep max { version } { version } none none 0 :=
    ⟨⟨rfl, rfl, rfl, rfl, by simp [keptPlaces, size]⟩, .empty version, .empty version, .none, rfl,
      rfl⟩
  have h := hempty.graftAll (Growth.ofEntries max' 0 items).trees (Nat.zero_le max)
  rw [← Growth.trees_ofEntries_of_le hle, graft_empty, graft_empty] at h
  exact ⟨h.version_eq, h.profile_eq, h.size_eq, h.roots_eq, h.parent_iff⟩

theorem Truncation.depth_le (h : Truncation max d d') : ∀ n ∈ d.nodes, n.depth ≤ max := by
  intro n hn
  have hprofile : (n.kind, n.depth) ∈ d.profile :=
    List.mem_map_of_mem (Array.mem_def.mp hn)
  rw [h.profile_eq] at hprofile
  exact of_decide_eq_true (List.mem_filter.mp hprofile).2

/-- Where nothing is left out, a higher limit makes no difference, in either mode. -/
theorem ofValue?_eq_of_nothing_skipped {max max' : Nat} (hle : max ≤ max') {v : Value}
    {found : Option Document} (h : ofValue? { mode := .lenient, maxDepth := max } v = .ok found)
    (hskipped : ∀ d, found = some d → d.skipped = 0) (mode : Mode) :
    ofValue? { mode, maxDepth := max' } v = .ok found := by
  have hlenient : ofValue? { mode := .lenient, maxDepth := max' } v = .ok found := by
    cases hitems : contentOf v with
    | none => rw [ofValue?_of_no_content hitems, ← h, ofValue?_of_no_content hitems]
    | some items =>
      rw [ofValue?_lenient rfl hitems] at h
      obtain rfl := Except.ok.inj h
      have hgrowth : (Growth.ofEntries max 0 items).skipped = 0 := hskipped _ rfl
      rw [ofValue?_lenient rfl hitems]
      simp only [ofEntries, Growth.ofEntries_eq_of_le hle hgrowth]
  cases mode with
  | lenient => exact hlenient
  | strict => exact ofValue?_strict_of_nothing_skipped max' v hlenient hskipped

/-- Two lenient builds of a value, with a lower and a higher limit of depth: the lower limit takes
away the nodes that are too deep for it, and changes nothing else. If nothing was left out with the
lower limit, builds in both modes with the higher limit give the same document. -/
theorem ofValue?_truncation {max max' : Nat} (hle : max ≤ max') (v : Value) :
    ∃ found found', ofValue? { mode := .lenient, maxDepth := max } v = .ok found ∧
      ofValue? { mode := .lenient, maxDepth := max' } v = .ok found' ∧
      Option.Rel (fun d d' => Truncation max d d' ∧ ∀ n ∈ d.nodes, n.depth ≤ max) found found' ∧
      ((∀ d, found = some d → d.skipped = 0) →
        ∀ mode, ofValue? { mode, maxDepth := max' } v = .ok found) := by
  cases hitems : contentOf v with
  | none =>
    have hnone : ∀ options, ofValue? options v = .ok none := fun _ =>
      ofValue?_of_no_content hitems
    exact ⟨none, none, hnone _, hnone _, .none, fun _ mode => hnone _⟩
  | some items =>
    have hlenient : ∀ max, ofValue? { mode := .lenient, maxDepth := max } v =
        .ok (some (ofEntries max (versionOf v) items)) := fun _ => ofValue?_lenient rfl hitems
    have htruncation := truncation_ofEntries hle (versionOf v) items
    exact ⟨_, _, hlenient max, hlenient max', .some ⟨htruncation, htruncation.depth_le⟩,
      ofValue?_eq_of_nothing_skipped hle (hlenient max)⟩

/-- Entries below the second level are cut away between malformed ones, so the places of the nodes
after them differ. -/
def cutInside : Value :=
  .object [("content", .array
    [.object [("type", .string "blockquote"), ("content", .array
      [.object [("type", .string "panel"), ("content", .array
        [.object [("type", .string "rule")], .null])], .string "x"])],
    .null,
    .object [("type", .string "expand"), ("content", .array
      [.object [("type", .string "rule"), ("content", .bool true)]])]])]

/-- Nothing is left out of a single rule. -/
def oneRule : Value := .object [("content", .array [.object [("type", .string "rule")]])]

theorem ofValue?_truncation_cutInside :
    (1 ≤ 2 ∧ ∃ d d', ofValue? { mode := .lenient, maxDepth := 1 } cutInside = .ok (some d) ∧
      ofValue? { mode := .lenient, maxDepth := 2 } cutInside = .ok (some d') ∧
      Truncation 1 d d' ∧ (d.size, d.skipped) = (4, 5) ∧ (d'.size, d'.skipped) = (5, 4) ∧
      keptPlaces 1 d' = [0, 1, 3, 4]) ∧
    (0 ≤ 512 ∧ ∃ d, ofValue? { mode := .lenient, maxDepth := 0 } oneRule = .ok (some d) ∧
      d.skipped = 0 ∧ ofValue? { mode := .strict, maxDepth := 512 } oneRule = .ok (some d)) := by
  obtain ⟨found, found', hlow, hhigh, htruncation, -⟩ :=
    ofValue?_truncation (by decide : 1 ≤ 2) cutInside
  obtain ⟨rule, -, hrule, -, -, hmodes⟩ :=
    ofValue?_truncation (by decide : 0 ≤ 512) oneRule
  have hsizes : (ofValue? { mode := .lenient, maxDepth := 1 } cutInside).map
      (·.map fun d => (d.size, d.skipped)) = .ok (some (4, 5)) := by decide +kernel
  have hplaces : (ofValue? { mode := .lenient, maxDepth := 2 } cutInside).map
      (·.map fun d => ((d.size, d.skipped), keptPlaces 1 d)) =
        .ok (some ((5, 4), [0, 1, 3, 4])) := by decide +kernel
  have hskipped : (ofValue? { mode := .lenient, maxDepth := 0 } oneRule).map
      (·.map Document.skipped) = .ok (some 0) := by decide +kernel
  rw [hlow] at hsizes
  rw [hhigh] at hplaces
  rw [hrule] at hskipped
  cases htruncation with
  | none => cases hsizes
  | some hd =>
    cases rule with
    | none => cases hskipped
    | some d =>
      have hzero : d.skipped = 0 := Option.some.inj (Except.ok.inj hskipped)
      have hplaces := Option.some.inj (Except.ok.inj hplaces)
      refine ⟨⟨by decide, _, _, hlow, hhigh, hd.1, Option.some.inj (Except.ok.inj hsizes),
        congrArg Prod.fst hplaces, congrArg Prod.snd hplaces⟩, by decide, d, hrule, hzero, ?_⟩
      refine hmodes ?_ .strict
      intro d' hd'
      cases hd'
      exact hzero

end Document

end RichDoc
