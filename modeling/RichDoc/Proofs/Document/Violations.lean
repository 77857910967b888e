import RichDoc.Proofs.Document.Origins
import Mathlib.Data.List.Lex

/-! The violations of a value, and the one that a strict build reports. A violation stands at a
path, and the text of its reason names the type of the value that is wrong there. The violations in
pre-order are sorted by their paths. A strict build visits the entries in this order, so it stops at
the violation with the least path. -/

namespace RichDoc

open Json

/-- The value to which positions lead, each in the content array of the value before. -/
def follow (v : Value) : List Nat → Option Value
  | [] => some v
  | i :: path => (Document.contentOf v).bind fun items => items[i]?.bind fun w => follow w path

/-- What is wrong with an entry that is found by a path. The entries at the top level are found by
one position, so those at depth `max + 1` are found by `max + 2`. -/
inductive Offends (max : Nat) (path : List Nat) : Value → Violation → Prop
  | tooDeep {v : Value} : path.length = max + 2 → Offends max path v (.tooDeep (max + 1) max)
  | notObject {v : Value} : path.length ≤ max + 1 → v.members? = none →
      Offends max path v (.malformed path (.notObject v.shape))
  | contentNotArray {ms : Members} {content : Value} : path.length ≤ max + 1 →
      ms.get? "content" = some content → content.shape ≠ .null → content.shape ≠ .array →
      Offends max path (.object ms) (.malformed path (.contentNotArray content.shape))

/-- An entry below a value offends. All nodes on the way to it are kept. -/
def ViolatedAt (max : Nat) (v : Value) (path : List Nat) (e : Violation) : Prop :=
  path ≠ [] ∧ ∃ entry, follow v path = some entry ∧ Offends max path entry e

/-- The text of a path: `content[i]` for each position, with points between. -/
inductive Spells : List Nat → String → Prop
  | last (i : Nat) : Spells [i] ("content[" ++ toString i ++ "]")
  | cons (i : Nat) {path : List Nat} {text : String} :
      Spells path text → Spells (i :: path) ("content[" ++ toString i ++ "]" ++ "." ++ text)

theorem spells_pathText {path : List Nat} (h : path ≠ []) : Spells path (pathText path) := by
  induction path with
  | nil => exact absurd rfl h
  | cons i path ih =>
    cases path with
    | nil => exact .last i
    | cons j path =>
      rw [pathText, List.map_cons, List.map_cons, String.intercalate_cons_cons]
      exact .cons i (ih (by simp))

/-! ### Reasons -/

/-- The value that is wrong in an entry: the content of an object, and else the entry itself. -/
def wrongIn (entry : Value) : Value := (entry.get? "content").getD entry

/-- A text names a type when it ends in the words for it. -/
def Names (text : String) (found : Shape) : Prop :=
  ∃ before, text = before ++ ", found " ++ found.words

theorem Json.Shape.words_injective : Function.Injective Shape.words := by
  intro found found' h
  cases found <;> cases found' <;> first | rfl | simp [Shape.words] at h

theorem Json.Shape.comma_not_mem_words (found : Shape) : ',' ∉ found.words.toList := by
  cases found <;> decide

theorem names_iff (before : String) (h : ',' ∉ before.toList) (found found' : Shape) :
    Names (before ++ ", found " ++ found.words) found' ↔ found' = found := by
  constructor
  · rintro ⟨before', htext⟩
    -- The only comma of the text stands before the words of its type, so both cut it there.
    have hcut : before.toList ++ ',' :: (" found ".toList ++ found.words.toList) =
        before'.toList ++ ',' :: (" found ".toList ++ found'.words.toList) := by
      simpa using congrArg String.toList htext
    have hafter : ',' ∉ " found ".toList ++ found.words.toList := by
      simpa using found.comma_not_mem_words
    obtain ⟨-, -, hwords⟩ := (List.append_cons_inj_of_notMem h hafter).mp hcut
    exact Shape.words_injective (String.toList_inj.mp (List.append_cancel_left hwords)).symm
  · rintro rfl
    exact ⟨before, rfl⟩

/-- The reason of a violation names one type, that of the value that is wrong in the entry. -/
theorem Offends.names_words_iff {max : Nat} {path path' : List Nat} {entry : Value}
    {reason : Reason} (h : Offends max path entry (.malformed path' reason)) (found : Shape) :
    Names reason.words found ↔ found = (wrongIn entry).shape := by
  cases h with
  | notObject _ hmembers =>
    have hwrong : wrongIn entry = entry := by simp [wrongIn, Value.get?, hmembers]
    rw [hwrong]
    exact names_iff "expected an object" (by decide) entry.shape found
  | @contentNotArray ms content _ hget =>
    have hwrong : wrongIn (.object ms) = content := by
      simp [wrongIn, Value.get?, Value.members?, hget]
    rw [hwrong]
    exact names_iff "content must be an array" (by decide) content.shape found

/-! ### Violations in pre-order -/

/-- The violations in an entry, in pre-order, each with its path; the entry is found by `path`. -/
def violationsAt (max : Nat) (path : List Nat) (v : Value) : List (List Nat × Violation) :=
  if max + 1 < path.length then [(path, .tooDeep (path.length - 1) max)]
  else
    match v.members? with
    | some ms =>
      match entriesBelow ms with
      | .ok items =>
        items.zipIdx.flatMap fun x => violationsAt max (path ++ [x.2]) x.1
      | .error found => [(path, .malformed path (.contentNotArray found))]
    | none => [(path, .malformed path (.notObject v.shape))]
termination_by max + 2 - path.length

/-- The violations in the entries of a content array that is found by `path`. -/
def violationsBelow (max : Nat) (path : List Nat) (items : List Value) :
    List (List Nat × Violation) :=
  items.zipIdx.flatMap fun x => violationsAt max (path ++ [x.2]) x.1

theorem Offends.length_le {max : Nat} {path : List Nat} {v : Value} {e : Violation}
    (h : Offends max path v e) : path.length ≤ max + 2 := by
  cases h <;> omega

theorem Offends.of_length {max : Nat} {path : List Nat} {v : Value} {e : Violation}
    (h : Offends max path v e) (hlength : path.length = max + 2) : e = .tooDeep (max + 1) max := by
  cases h with
  | tooDeep => rfl
  | notObject hle => omega
  | contentNotArray hle => omega

theorem entriesBelow_of_contentOf {ms : Members} {items : List Value}
    (h : Document.contentOf (.object ms) = some items) : entriesBelow ms = .ok items := by
  obtain ⟨w, hw, hitems⟩ := Option.bind_eq_some_iff.mp h
  have hget : ms.get? "content" = some w := hw
  cases w <;> simp [Value.items?] at hitems
  subst hitems
  simp only [entriesBelow, hget]

theorem contentOf_of_mem {ms : Members} {items : List Value} {i : Nat} {v : Value}
    (h : entriesBelow ms = .ok items) (hv : items[i]? = some v) :
    Document.contentOf (.object ms) = some items := by
  have hne : items ≠ [] := by
    rintro rfl
    simp at hv
  show (ms.get? "content").bind Value.items? = some items
  cases hget : ms.get? "content" with
  | none =>
    simp only [entriesBelow, hget] at h
    exact absurd (Except.ok.inj h).symm hne
  | some w =>
    simp only [entriesBelow, hget] at h
    cases w with
    | null => exact absurd (Except.ok.inj h).symm hne
    | array items' => rw [Except.ok.inj h]; rfl
    | _ => cases h

theorem entriesBelow_eq_error_iff {ms : Members} {found : Shape} :
    entriesBelow ms = .error found ↔
      ∃ w, ms.get? "content" = some w ∧ w.shape ≠ .null ∧ w.shape ≠ .array ∧ found = w.shape := by
  cases hget : ms.get? "content" with
  | none => simp [entriesBelow, hget]
  | some w => cases w <;> simp [entriesBelow, hget, Value.shape, eq_comm]

/-- An entry that offends is found by its own path. -/
theorem Offends.exists_below {max : Nat} {path q : List Nat} {v : Value} {e e' : Violation}
    (h : Offends max path v e') (hmem : (q, e) ∈ [(path, e')]) :
    ∃ below entry, q = path ++ below ∧ follow v below = some entry ∧ Offends max q entry e := by
  cases List.mem_singleton.mp hmem
  exact ⟨[], v, by simp, rfl, h⟩

theorem violationsAt_sound {max : Nat} {path q : List Nat} {v : Value} {e : Violation}
    (hlength : path.length ≤ max + 2) (h : (q, e) ∈ violationsAt max path v) :
    ∃ below entry, q = path ++ below ∧ follow v below = some entry ∧ Offends max q entry e := by
  fun_induction violationsAt max path v with
  | case1 path v hlong =>
    have hdeep : path.length = max + 2 := by omega
    rw [show path.length - 1 = max + 1 by omega] at h
    exact Offends.exists_below (.tooDeep hdeep) h
  | case2 path v hlong ms hmembers items hitems ih =>
    obtain rfl := eq_object_of_members? hmembers
    obtain ⟨⟨w, i⟩, hw, hmem⟩ := List.mem_flatMap.mp h
    have hget : items[i]? = some w := List.mem_zipIdx_iff_getElem?.mp hw
    obtain ⟨below, entry, rfl, hfollow, hoffends⟩ := ih (w, i) (by simp; omega) hmem
    refine ⟨i :: below, entry, by simp, ?_, hoffends⟩
    rw [follow, contentOf_of_mem hitems hget]
    simpa [hget] using hfollow
  | case3 path v hlong ms hmembers found hitems =>
    obtain rfl := eq_object_of_members? hmembers
    obtain ⟨w, hw, hnull, harray, rfl⟩ := entriesBelow_eq_error_iff.mp hitems
    exact Offends.exists_below (.contentNotArray (by omega) hw hnull harray) h
  | case4 path v hlong hmembers =>
    exact Offends.exists_below (.notObject (by omega) hmembers) h

theorem Offends.object {max : Nat} {path : List Nat} {ms : Members} {e : Violation}
    (h : Offends max path (.object ms) e) (hlength : path.length ≤ max + 1) :
    ∃ found, entriesBelow ms = .error found ∧ e = .malformed path (.contentNotArray found) := by
  cases h with
  | tooDeep h => omega
  | notObject _ hv => cases hv
  | contentNotArray _ hw hnull harray =>
    exact ⟨_, entriesBelow_eq_error_iff.mpr ⟨_, hw, hnull, harray, rfl⟩, rfl⟩

theorem violationsAt_complete {max : Nat} {path below : List Nat} {v entry : Value} {e : Violation}
    (hlength : path.length ≤ max + 2) (hfollow : follow v below = some entry)
    (hoffends : Offends max (path ++ below) entry e) :
    (path ++ below, e) ∈ violationsAt max path v := by
  fun_induction violationsAt max path v generalizing below with
  | case1 path v hlong =>
    -- A path is never longer than that of an entry that is too deep.
    have hbelow : below = [] := by
      have hle := hoffends.length_le
      rw [List.length_append] at hle
      exact List.eq_nil_of_length_eq_zero (by omega)
    subst hbelow
    rw [List.append_nil] at hoffends ⊢
    rw [hoffends.of_length (by omega), show path.length - 1 = max + 1 by omega]
    exact List.mem_singleton_self _
  | case2 path v hlong ms hmembers items hitems ih =>
    obtain rfl := eq_object_of_members? hmembers
    cases below with
    | nil =>
      -- An object whose entries can be read does not offend itself.
      rw [List.append_nil] at hoffends
      obtain rfl := Option.some.inj hfollow
      obtain ⟨found, hfound, -⟩ := hoffends.object (by omega)
      rw [hitems] at hfound
      cases hfound
    | cons i below =>
      obtain ⟨items', hcontent, hw⟩ := Option.bind_eq_some_iff.mp hfollow
      obtain ⟨w, hget, hfollow⟩ := Option.bind_eq_some_iff.mp hw
      obtain rfl : items' = items := by
        rw [entriesBelow_of_contentOf hcontent] at hitems
        exact Except.ok.inj hitems
      refine List.mem_flatMap.mpr ⟨(w, i), List.mem_zipIdx_iff_getElem?.mpr hget, ?_⟩
      have hpath : path ++ i :: below = path ++ [i] ++ below := by simp
      rw [hpath] at hoffends ⊢
      exact ih (w, i) (by simp; omega) hfollow hoffends
  | case3 path v hlong ms hmembers found hitems =>
    obtain rfl := eq_object_of_members? hmembers
    cases below with
    | nil =>
      rw [List.append_nil] at hoffends ⊢
      obtain rfl := Option.some.inj hfollow
      obtain ⟨found', hfound, rfl⟩ := hoffends.object (by omega)
      rw [hitems] at hfound
      cases hfound
      exact List.mem_singleton_self _
    | cons i below =>
      obtain ⟨items', hcontent, -⟩ := Option.bind_eq_some_iff.mp hfollow
      rw [entriesBelow_of_contentOf hcontent] at hitems
      cases hitems
  | case4 path v hlong hmembers =>
    cases below with
    | nil =>
      rw [List.append_nil] at hoffends ⊢
      obtain rfl := Option.some.inj hfollow
      cases hoffends with
      | tooDeep h => omega
      | notObject => exact List.mem_singleton_self _
      | contentNotArray => cases hmembers
    | cons i below =>
      obtain ⟨items', hcontent, -⟩ := Option.bind_eq_some_iff.mp hfollow
      simp [Document.contentOf, Value.get?, hmembers] at hcontent

/-! ### Order -/

theorem path_lt_path (path below below' : List Nat) {i j : Nat} (h : i < j) :
    path ++ [i] ++ below < path ++ [j] ++ below' := by
  rw [List.append_assoc, List.append_assoc]
  exact List.append_left_lt (List.cons_lt_cons_iff.mpr (.inl h))

theorem pairwise_zipIdx {α : Type} (items : List α) :
    items.zipIdx.Pairwise fun x y => x.2 < y.2 := by
  have hpositions := List.pairwise_lt_range' (s := 0) (n := items.length)
  rwa [← List.zipIdx_map_snd, List.pairwise_map] at hpositions

/-- The violations of later entries have greater paths. -/
theorem pairwise_violationsBelow {max : Nat} {path : List Nat} {items : List Value}
    (hlength : path.length ≤ max + 1)
    (h : ∀ x ∈ items.zipIdx,
      (violationsAt max (path ++ [x.2]) x.1).Pairwise fun a b => a.1 < b.1) :
    (violationsBelow max path items).Pairwise fun a b => a.1 < b.1 := by
  refine List.pairwise_flatMap.mpr ⟨h, ?_⟩
  refine (pairwise_zipIdx items).imp ?_
  rintro ⟨v, i⟩ ⟨w, j⟩ hij ⟨q, e⟩ hq ⟨q', e'⟩ hq'
  obtain ⟨below, -, rfl, -, -⟩ := violationsAt_sound (by simp; omega) hq
  obtain ⟨below', -, rfl, -, -⟩ := violationsAt_sound (by simp; omega) hq'
  exact path_lt_path path below below' hij

theorem pairwise_violationsAt (max : Nat) (path : List Nat) (v : Value) :
    (violationsAt max path v).Pairwise fun a b => a.1 < b.1 := by
  fun_induction violationsAt max path v with
  | case1 => exact List.pairwise_singleton _ _
  | case2 path v hlong ms hmembers items hitems ih =>
    exact pairwise_violationsBelow (by omega) fun x _ => ih x
  | case3 => exact List.pairwise_singleton _ _
  | case4 => exact List.pairwise_singleton _ _

/-! ### The strict build -/

namespace Builder

/-- The violation at which a build stopped. -/
def stopped : Except Violation Builder → Option Violation
  | .error e => some e
  | .ok _ => none

/-- A strict build of entries that wait, below a parent that is found by `path`, stops at the first
of some violations. -/
def Reports (max : Nat) (parent : Option Nat) (path : List Nat) (stack : List Pending)
    (found : List (List Nat × Violation)) : Prop :=
  ∀ b : Builder, b.Traced → b.document.Holds parent →
    b.document.depthUnder parent = path.length → b.Leads parent path →
    stopped (run { mode := .strict, maxDepth := max } b stack) = found.head?.map Prod.snd

variable {max : Nat} {parent : Option Nat} {path : List Nat}

theorem reports_nil : Reports max parent path [] [] := by
  intro b _ _ _ _
  rw [run_nil]
  rfl

theorem Reports.append {s t : List Pending} {found more : List (List Nat × Violation)}
    (hs : Reports max parent path s found) (ht : Reports max parent path t more)
    (hparent : ∀ p ∈ s, p.origin.parent = parent) :
    Reports max parent path (s ++ t) (found ++ more) := by
  intro b htraced hb hdepth hleads
  have hfirst := hs b htraced hb hdepth hleads
  rw [run_append, List.head?_append]
  cases hrun : run { mode := .strict, maxDepth := max } b s with
  | error e =>
    rw [hrun] at hfirst
    obtain ⟨x, hx, hxe⟩ := Option.map_eq_some_iff.mp hfirst.symm
    rw [hx, Option.some_or, Option.map_some, hxe]
    rfl
  | ok b' =>
    rw [hrun] at hfirst
    have hnone : found.head? = none := Option.map_eq_none_iff.mp hfirst.symm
    have hgoes : GoesOn b b' := goesOn_run htraced (fun p hp => by rwa [hparent p hp]) hrun
    rw [hnone, Option.none_or]
    refine ht b' hgoes.traced (hgoes.holds hb) ?_ (hgoes.leads hleads)
    rw [hgoes.depthUnder_eq hb, hdepth]

theorem reports_below (items : List Value)
    (h : ∀ v ∈ items, ∀ position, Reports max parent path [⟨v, ⟨parent, position⟩⟩]
      (violationsAt max (path ++ [position]) v)) :
    Reports max parent path (pendingOf parent items) (violationsBelow max path items) := by
  suffices ∀ k, Reports max parent path ((items.zipIdx k).map fun x => ⟨x.1, ⟨parent, x.2⟩⟩)
      ((items.zipIdx k).flatMap fun x => violationsAt max (path ++ [x.2]) x.1) from this 0
  induction items with
  | nil => exact fun k => reports_nil
  | cons v items ih =>
    intro k
    have hfirst := h v (by simp) k
    have hrest := ih (fun w hw => h w (by simp [hw])) (k + 1)
    exact hfirst.append hrest (by simp)

/-- A step that a strict build does not take. -/
theorem stopped_run {b b1 : Builder} {p : Pending} {rest : List Pending} {e : Violation}
    (h : b.step { mode := .strict, maxDepth := max } p = (b1.reject .strict e).map (·, [])) :
    stopped (run { mode := .strict, maxDepth := max } b (p :: rest)) = some e := by
  rw [run_cons, h]
  rfl

/-- A strict build of an entry, with all that is below it. -/
theorem reports_entry (v : Value) (parent : Option Nat) (path : List Nat) (position : Nat) :
    Reports max parent path [⟨v, ⟨parent, position⟩⟩]
      (violationsAt max (path ++ [position]) v) := by
  generalize hq : path ++ [position] = q
  fun_induction violationsAt max q v generalizing parent path position with
  | case1 q v hlong =>
    subst hq
    rw [List.length_append, List.length_singleton] at hlong ⊢
    intro b htraced hb hdepth hleads
    have hdeep : max < b.document.depthUnder parent := by omega
    rw [stopped_run (step_tooDeep hdeep), hdepth]
    rfl
  | case2 q v hlong ms hmembers items hitems ih =>
    subst hq
    obtain rfl := eq_object_of_members? hmembers
    rw [List.length_append, List.length_singleton] at hlong
    intro b htraced hb hdepth hleads
    have hdeep : ¬max < b.document.depthUnder parent := by omega
    have hstep : b.step { mode := .strict, maxDepth := max } ⟨.object ms, ⟨parent, position⟩⟩ = _ :=
      step_object hdeep hitems
    -- The node is added before its entries are visited, so they find it as their parent.
    have hgoes := goesOn_add htraced (o := ⟨parent, position⟩) hb (Kind.ofMembers ms)
    have hbelow := reports_below items fun w _ i =>
      ih (w, i) (some b.document.size) (path ++ [position]) i rfl
    rw [run_cons, hstep]
    simp only [Except.bind, List.append_nil]
    refine hbelow _ hgoes.traced (holds_add b _ _) ?_ (leads_add htraced hb hleads _)
    simp [add, Document.depthUnder, Document.node?_push, ← hdepth]
  | case3 q v hlong ms hmembers found hitems =>
    subst hq
    obtain rfl := eq_object_of_members? hmembers
    rw [List.length_append, List.length_singleton] at hlong
    intro b htraced hb hdepth hleads
    have hgoes := goesOn_add htraced (o := ⟨parent, position⟩) hb (Kind.ofMembers ms)
    have hdeep : ¬max < b.document.depthUnder parent := by omega
    rw [stopped_run (step_malformed hdeep hitems), (hgoes.leads hleads).path_eq hgoes.traced]
    rfl
  | case4 q v hlong hmembers =>
    subst hq
    rw [List.length_append, List.length_singleton] at hlong
    intro b htraced hb hdepth hleads
    have hdeep : ¬max < b.document.depthUnder parent := by omega
    rw [stopped_run (step_not_object hdeep hmembers), hleads.path_eq htraced]
    rfl

end Builder

namespace Document

/-- A strict build stops at the first violation in pre-order. -/
theorem ofValue?_strict_eq_error_iff_head {max : Nat} {v : Value} {items : List Value}
    (hitems : contentOf v = some items) (e : Violation) :
    ofValue? { mode := .strict, maxDepth := max } v = .error e ↔
      (violationsBelow max [] items).head?.map Prod.snd = some e := by
  have htraced : ({ document := { version := versionOf v } } : Builder).Traced :=
    ⟨rfl, by simp⟩
  have hentries : ∀ w ∈ items, ∀ i,
      Builder.Reports max none [] [⟨w, ⟨none, i⟩⟩] (violationsAt max ([] ++ [i]) w) :=
    fun w _ i => Builder.reports_entry w none [] i
  have hreports := Builder.reports_below items hentries _ htraced (by simp [Holds]) rfl .root
  rw [ofValue?_of_content hitems, ← hreports]
  cases Builder.run { mode := .strict, maxDepth := max }
      { document := { version := versionOf v } } (pendingOf none items) with
  | error e' => simp [Except.map, Builder.stopped]
  | ok b => simp [Except.map, Builder.stopped]

end Document

theorem mem_violationsBelow_iff {max : Nat} {v : Value} {items : List Value} {path : List Nat}
    {e : Violation} (hitems : Document.contentOf v = some items) :
    (path, e) ∈ violationsBelow max [] items ↔ ViolatedAt max v path e := by
  constructor
  · intro h
    obtain ⟨⟨w, i⟩, hw, hmem⟩ := List.mem_flatMap.mp h
    have hget : items[i]? = some w := List.mem_zipIdx_iff_getElem?.mp hw
    obtain ⟨below, entry, rfl, hfollow, hoffends⟩ := violationsAt_sound (by simp) hmem
    refine ⟨by simp, entry, ?_, hoffends⟩
    simp [follow, hitems, hget, hfollow]
  · rintro ⟨hne, entry, hfollow, hoffends⟩
    cases path with
    | nil => exact absurd rfl hne
    | cons i below =>
      obtain ⟨items', hcontent, hw⟩ := Option.bind_eq_some_iff.mp hfollow
      obtain ⟨w, hget, hfollow⟩ := Option.bind_eq_some_iff.mp hw
      obtain rfl : items' = items := Option.some.inj (hcontent.symm.trans hitems)
      refine List.mem_flatMap.mpr ⟨(w, i), List.mem_zipIdx_iff_getElem?.mpr hget, ?_⟩
      have hlength : [i].length ≤ max + 2 := by simp
      exact violationsAt_complete hlength hfollow hoffends

theorem not_violatedAt_of_no_content {max : Nat} {v : Value} {path : List Nat} {e : Violation}
    (h : Document.contentOf v = none) : ¬ViolatedAt max v path e := by
  rintro ⟨hne, entry, hfollow, -⟩
  cases path with
  | nil => exact hne rfl
  | cons i below => simp [follow, h] at hfollow

/-- The head of a list that is sorted by paths has the least path. -/
theorem head?_eq_some_iff_least {found : List (List Nat × Violation)}
    (hsorted : found.Pairwise fun a b => a.1 < b.1) (path : List Nat) (e : Violation) :
    found.head? = some (path, e) ↔
      (path, e) ∈ found ∧ ∀ path' e', (path', e') ∈ found → path ≤ path' := by
  cases found with
  | nil => simp
  | cons x rest =>
    have hlt := (List.pairwise_cons.mp hsorted).1
    constructor
    · intro h
      obtain rfl : x = (path, e) := Option.some.inj h
      refine ⟨by simp, ?_⟩
      intro path' e' hmem
      rcases List.mem_cons.mp hmem with heq | hmem
      · cases heq
        exact le_refl path
      · exact le_of_lt (hlt _ hmem)
    · rintro ⟨hmem, hleast⟩
      rcases List.mem_cons.mp hmem with rfl | hmem
      · rfl
      · exact absurd (hlt _ hmem) (not_lt.mpr (hleast x.1 x.2 (by simp)))

/-- A strict build stops at the violation with the least path. The text of its path spells the
positions that lead to it, and the text of its reason names the type of the value that is wrong
there, and no other. -/
theorem ofValue?_strict_eq_error_iff (max : Nat) (v : Value) (e : Violation) :
    Document.ofValue? { mode := .strict, maxDepth := max } v = .error e ↔
      ∃ path, ViolatedAt max v path e ∧ Spells path (pathText path) ∧
        (∀ entry path' reason, follow v path = some entry → e = .malformed path' reason →
          ∀ found, Names reason.words found ↔ found = (wrongIn entry).shape) ∧
        ∀ path' e', ViolatedAt max v path' e' → path ≤ path' := by
  cases hitems : Document.contentOf v with
  | none =>
    rw [Document.ofValue?_of_no_content hitems]
    constructor
    · intro h
      cases h
    · rintro ⟨path, hviolated, -⟩
      exact absurd hviolated (not_violatedAt_of_no_content hitems)
  | some items =>
    have hsorted : (violationsBelow max [] items).Pairwise fun a b => a.1 < b.1 :=
      pairwise_violationsBelow (by simp) fun x _ => pairwise_violationsAt max _ x.1
    rw [Document.ofValue?_strict_eq_error_iff_head hitems]
    constructor
    · intro h
      obtain ⟨⟨path, e'⟩, hhead, rfl⟩ := Option.map_eq_some_iff.mp h
      obtain ⟨hmem, hleast⟩ := (head?_eq_some_iff_least hsorted path e').mp hhead
      have hviolated := (mem_violationsBelow_iff hitems).mp hmem
      refine ⟨path, hviolated, spells_pathText hviolated.1, ?_, ?_⟩
      · rintro entry path' reason hentry rfl found
        obtain ⟨-, entry', hfollow, hoffends⟩ := hviolated
        obtain rfl : entry' = entry := Option.some.inj (hfollow.symm.trans hentry)
        exact hoffends.names_words_iff found
      · intro path' e'' h'
        exact hleast path' e'' ((mem_violationsBelow_iff hitems).mpr h')
    · rintro ⟨path, hviolated, -, -, hleast⟩
      have hhead : (violationsBelow max [] items).head? = some (path, e) := by
        refine (head?_eq_some_iff_least hsorted path e).mpr ⟨?_, ?_⟩
        · exact (mem_violationsBelow_iff hitems).mpr hviolated
        · intro path' e' hmem
          exact hleast path' e' ((mem_violationsBelow_iff hitems).mp hmem)
      rw [hhead]
      rfl

end RichDoc
