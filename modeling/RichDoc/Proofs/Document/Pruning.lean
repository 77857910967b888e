import RichDoc.Proofs.Document.Modes

/-! Values without their offending parts. Deleting the entries that are no objects or lie too deep,
and each content that is no array, leaves a value that a strict build accepts, and its document is
that of the lenient build. -/

namespace RichDoc

namespace Json.Members

/-- The members with another value in place of the one under a key. -/
def replace (key : String) (v : Value) : Members → Members
  | [] => []
  | (k, w) :: ms => if key = k then (k, v) :: ms else (k, w) :: replace key v ms

/-- The members without those under a key. -/
def erase (key : String) (ms : Members) : Members := ms.filter (·.1 ≠ key)

theorem get?_cons (key k : String) (w : Value) (ms : Members) :
    get? ((k, w) :: ms) key = if key = k then some w else get? ms key := by
  simp only [get?, List.lookup_cons]
  by_cases h : key = k
  · simp [h]
  · simp [h, beq_eq_false_iff_ne.mpr h]

theorem get?_replace (key k : String) (v : Value) (ms : Members) :
    (ms.replace key v).get? k = if k = key then (ms.get? k).map fun _ => v else ms.get? k := by
  induction ms with
  | nil => simp [replace, get?]
  | cons m ms ih =>
    obtain ⟨k', w⟩ := m
    simp only [replace]
    by_cases hkey : key = k'
    · subst hkey
      rw [if_pos rfl, get?_cons, get?_cons]
      split <;> simp_all
    · rw [if_neg hkey, get?_cons, get?_cons, ih]
      split
      · next hk => simp [hk, Ne.symm hkey]
      · rfl

theorem get?_erase (key k : String) (ms : Members) :
    (ms.erase key).get? k = if k = key then none else ms.get? k := by
  induction ms with
  | nil => simp [erase, get?]
  | cons m ms ih =>
    obtain ⟨k', w⟩ := m
    rw [erase] at ih ⊢
    by_cases hkey : k' = key
    · subst hkey
      rw [List.filter_cons_of_neg (by simp), ih, get?_cons]
      split
      · rfl
      · rfl
    · rw [List.filter_cons_of_pos (by simpa using hkey), get?_cons, get?_cons, ih]
      by_cases hk : k = k'
      · simp [hk, hkey]
      · simp [hk]

/-- A value put in its own place changes nothing. -/
theorem replace_self {key : String} {v : Value} {ms : Members} (h : ms.get? key = some v) :
    Members.replace key v ms = ms := by
  induction ms with
  | nil => rfl
  | cons m ms ih =>
    obtain ⟨k, w⟩ := m
    rw [get?_cons] at h
    simp only [Members.replace]
    split
    · next hkey =>
      rw [if_pos hkey] at h
      rw [Option.some.inj h]
    · next hkey =>
      rw [if_neg hkey] at h
      rw [ih h]

end Json.Members

open Json

/-- The members of an object without an offending content, and with entries of its content changed
or deleted. -/
def pruneContent (f : Value → Option Value) (ms : Members) : Members :=
  match ms.get? "content" with
  | none | some .null => ms
  | some (.array items) => Members.replace "content" (.array (items.filterMap f)) ms
  | some _ => Members.erase "content" ms

/-- An entry at a depth without the offending parts below it, or nothing when it offends itself. -/
def pruneEntry (max depth : Nat) (v : Value) : Option Value :=
  if max < depth then none
  else
    match v with
    | .object ms => some (.object (pruneContent (fun w => pruneEntry max (depth + 1) w) ms))
    | _ => none
termination_by max + 1 - depth

/-- A value without the offending parts of its content; a value without a content array stays as
it is. -/
def pruned (max : Nat) (v : Value) : Value :=
  match v, Document.contentOf v with
  | .object ms, some items =>
    .object (Members.replace "content" (.array (items.filterMap (pruneEntry max 0))) ms)
  | v, _ => v

/-- The kind of an object does not depend on its content. -/
theorem Kind.ofMembers_congr {ms ms' : Members}
    (h : ∀ key, key ≠ "content" → ms.get? key = ms'.get? key) :
    Kind.ofMembers ms = Kind.ofMembers ms' := by
  have htype : typeName ms = typeName ms' := by rw [typeName, typeName, h "type" (by decide)]
  have hattrs : attributes ms = attributes ms' := by
    rw [attributes, attributes, h "attrs" (by decide)]
  have hmarks : marksOf ms = marksOf ms' := by rw [marksOf, marksOf, h "marks" (by decide)]
  unfold Kind.ofMembers
  rw [htype, hattrs, hmarks, h "text" (by decide)]

theorem get?_pruneContent {f : Value → Option Value} {ms : Members} {key : String}
    (h : key ≠ "content") : (pruneContent f ms).get? key = ms.get? key := by
  unfold pruneContent
  split
  · rfl
  · rfl
  · rw [Members.get?_replace, if_neg h]
  · rw [Members.get?_erase, if_neg h]

/-- The entries below an object after the deletion are those that were not deleted. -/
theorem entriesBelow_pruneContent (f : Value → Option Value) (ms : Members) :
    entriesBelow (pruneContent f ms) =
      .ok (match entriesBelow ms with
        | .ok items => items.filterMap f
        | .error _ => []) := by
  cases h : ms.get? "content" with
  | none => simp [pruneContent, entriesBelow, h]
  | some w =>
    cases w <;> simp [pruneContent, entriesBelow, h, Members.get?_replace, Members.get?_erase]

namespace Growth

theorem ofEntries_filterMap {max depth : Nat} {f : Value → Option Value} (items : List Value)
    (h : ∀ v ∈ items, ofEntries max depth (f v).toList = ⟨(ofEntry max depth v).trees, 0⟩) :
    ofEntries max depth (items.filterMap f) = ⟨(ofEntries max depth items).trees, 0⟩ := by
  induction items with
  | nil => rfl
  | cons v items ih =>
    have hfirst := h v (by simp)
    have hrest := ih fun w hw => h w (by simp [hw])
    rw [ofEntries_cons, append]
    cases hf : f v with
    | none =>
      rw [hf] at hfirst
      have hnone : (ofEntry max depth v).trees = [] := (congrArg Growth.trees hfirst).symm
      rw [List.filterMap_cons_none hf, hrest, hnone]
      rfl
    | some w =>
      rw [hf] at hfirst
      rw [List.filterMap_cons_some hf, ← List.singleton_append, ofEntries_append, hrest]
      rw [Option.toList_some] at hfirst
      rw [hfirst]
      rfl

/-- What is left of an object becomes a node of the same kind. -/
theorem ofEntries_pruneContent {max depth : Nat} {f : Value → Option Value} {ms : Members}
    {ts : List Tree} {items : List Value} (hdeep : ¬max < depth)
    (hitems : entriesBelow (pruneContent f ms) = .ok items)
    (hbelow : ofEntries max (depth + 1) items = ⟨ts, 0⟩) :
    ofEntries max depth [.object (pruneContent f ms)] = ⟨[.node (Kind.ofMembers ms) ts], 0⟩ := by
  have hkind : Kind.ofMembers (pruneContent f ms) = Kind.ofMembers ms :=
    Kind.ofMembers_congr fun key hkey => get?_pruneContent hkey
  rw [ofEntries_cons, ofEntry_object hdeep hitems, hbelow, hkind]
  rfl

/-- What is left of an entry grows into the same trees, with nothing more to leave out. -/
theorem ofEntries_pruneEntry (max depth : Nat) (v : Value) :
    ofEntries max depth (pruneEntry max depth v).toList = ⟨(ofEntry max depth v).trees, 0⟩ := by
  fun_induction ofEntry max depth v with
  | case1 depth v htoo =>
    unfold pruneEntry
    rw [if_pos htoo]
    rfl
  | case2 depth hdeep ms items hitems _ ih =>
    have hleft := entriesBelow_pruneContent (fun w => pruneEntry max (depth + 1) w) ms
    rw [hitems] at hleft
    have hbelow := ofEntries_filterMap items fun v _ => ih v
    rw [pruneEntry, if_neg hdeep]
    exact ofEntries_pruneContent hdeep hleft hbelow
  | case3 depth hdeep ms found hitems =>
    have hleft := entriesBelow_pruneContent (fun w => pruneEntry max (depth + 1) w) ms
    -- The content is deleted, and the object is still a node, now without children.
    rw [hitems] at hleft
    rw [pruneEntry, if_neg hdeep]
    exact ofEntries_pruneContent hdeep hleft rfl
  | case4 depth v hdeep hv =>
    unfold pruneEntry
    rw [if_neg hdeep]
    cases v <;> first | rfl | exact absurd rfl (hv _)

theorem skipped_ofEntries_eq_zero {max depth : Nat} {items : List Value}
    (h : (ofEntries max depth items).skipped = 0) :
    ∀ v ∈ items, (ofEntry max depth v).skipped = 0 := by
  induction items with
  | nil => simp
  | cons v items ih =>
    rw [ofEntries_cons, append] at h
    intro w hw
    rcases List.mem_cons.mp hw with rfl | hw
    · exact (Nat.add_eq_zero_iff.mp h).1
    · exact ih (Nat.add_eq_zero_iff.mp h).2 w hw

end Growth

theorem filterMap_eq_self {α : Type} {f : α → Option α} {l : List α}
    (h : ∀ x ∈ l, f x = some x) : l.filterMap f = l := by
  rw [List.filterMap_congr h]
  exact List.filterMap_some

theorem pruneContent_eq_self {f : Value → Option Value} {ms : Members} {items : List Value}
    (hitems : entriesBelow ms = .ok items) (h : ∀ v ∈ items, f v = some v) :
    pruneContent f ms = ms := by
  cases hget : ms.get? "content" with
  | none => simp only [pruneContent, hget]
  | some w =>
    simp only [entriesBelow, hget] at hitems
    cases w with
    | null => simp only [pruneContent, hget]
    | array items' =>
      obtain rfl := Except.ok.inj hitems
      simp only [pruneContent, hget, filterMap_eq_self h]
      exact Members.replace_self hget
    | _ => cases hitems

/-- Nothing is deleted where nothing is left out. -/
theorem pruneEntry_eq_self {max depth : Nat} {v : Value}
    (h : (Growth.ofEntry max depth v).skipped = 0) : pruneEntry max depth v = some v := by
  fun_induction Growth.ofEntry max depth v with
  | case1 => cases h
  | case2 depth hdeep ms items hitems _ ih =>
    have hbelow := Growth.skipped_ofEntries_eq_zero h
    rw [pruneEntry, if_neg hdeep]
    rw [pruneContent_eq_self hitems fun w hw => ih w (hbelow w hw)]
  | case3 => cases h
  | case4 => cases h

namespace Document

theorem get?_pruned {max : Nat} {v : Value} {key : String} (h : key ≠ "content") :
    (pruned max v).get? key = v.get? key := by
  unfold pruned
  split
  · simp [Value.get?, Value.members?, Members.get?_replace, h]
  · rfl

theorem contentOf_object (ms : Members) :
    contentOf (.object ms) = (Members.get? ms "content").bind Value.items? := rfl

theorem pruned_of_no_content {max : Nat} {v : Value} (h : contentOf v = none) :
    pruned max v = v := by
  unfold pruned
  split
  · next hitems => rw [h] at hitems; cases hitems
  · rfl

theorem contentOf_pruned (max : Nat) (v : Value) :
    contentOf (pruned max v) = (contentOf v).map fun items => items.filterMap (pruneEntry max 0) := by
  cases hitems : contentOf v with
  | none =>
    rw [pruned_of_no_content hitems, hitems]
    rfl
  | some items =>
    cases v with
    | object ms =>
      obtain ⟨w, hw, -⟩ := Option.bind_eq_some_iff.mp hitems
      simp only [pruned, hitems]
      rw [contentOf_object, Members.get?_replace, if_pos rfl]
      rw [show Members.get? ms "content" = some w from hw]
      rfl
    | _ => cases hitems

theorem pruned_of_content {max : Nat} {v : Value} {items : List Value}
    (hitems : contentOf v = some items) (h : (Growth.ofEntries max 0 items).skipped = 0) :
    pruned max v = v := by
  cases v with
  | object ms =>
    obtain ⟨w, hw, hwitems⟩ := Option.bind_eq_some_iff.mp hitems
    have harray : w = .array items := by
      cases w <;> simp [Value.items?] at hwitems
      rw [hwitems]
    have hkeep := filterMap_eq_self fun w hw =>
      pruneEntry_eq_self (Growth.skipped_ofEntries_eq_zero h w hw)
    simp only [pruned, hitems, hkeep]
    rw [Members.replace_self (hw.trans (congrArg some harray))]
  | _ => cases hitems

/-- A value of which the lenient build leaves nothing out has no offending parts to delete. -/
theorem pruned_eq_self {max : Nat} {v : Value} {found : Option Document}
    (h : ofValue? { mode := .lenient, maxDepth := max } v = .ok found)
    (hskipped : ∀ d, found = some d → d.skipped = 0) : pruned max v = v := by
  cases hitems : contentOf v with
  | none => exact pruned_of_no_content hitems
  | some items =>
    rw [ofValue?_lenient rfl hitems] at h
    exact pruned_of_content hitems (hskipped _ (Except.ok.inj h).symm)

theorem versionOf_pruned (max : Nat) (v : Value) : versionOf (pruned max v) = versionOf v := by
  rw [versionOf, versionOf, get?_pruned (by decide)]

/-- The document of the lenient build is that of the strict build of what is left, up to the count
of the parts that were left out. -/
theorem ofValue?_strict_pruned (max : Nat) (v : Value) :
    ofValue? { mode := .strict, maxDepth := max } (pruned max v) =
      .ok ((contentOf v).map fun items =>
        { ofEntries max (versionOf v) items with skipped := 0 }) := by
  have hversion := versionOf_pruned max v
  have hcontent := contentOf_pruned max v
  cases hitems : contentOf v with
  | none =>
    rw [hitems] at hcontent
    exact ofValue?_of_no_content hcontent
  | some items =>
    rw [hitems] at hcontent
    have hgrowth : Growth.ofEntries max 0 (items.filterMap (pruneEntry max 0)) =
        ⟨(Growth.ofEntries max 0 items).trees, 0⟩ :=
      Growth.ofEntries_filterMap items fun w _ => Growth.ofEntries_pruneEntry max 0 w
    have hdocument : ofEntries max (versionOf (pruned max v))
        (items.filterMap (pruneEntry max 0)) =
          { ofEntries max (versionOf v) items with skipped := 0 } := by
      rw [ofEntries, hgrowth, hversion]
      rfl
    refine ofValue?_strict_of_nothing_skipped max _ ?_ ?_
    · rw [ofValue?_lenient rfl hcontent, hdocument]
      rfl
    · intro d hd
      cases hd
      rfl

end Document

end RichDoc
