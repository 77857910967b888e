import RichDoc.Proofs.Converter.Statistics
import RichDoc.Proofs.Document.Counts
import RichDoc.Proofs.Document.Names

/-! The counters of the statistics. One counter for each group of kinds goes up on the way from the
last node to the first, and the kinds are counted by name from the first node to the last. The two
agree when no unknown kind has the name of a recognized one, which holds of what is read from JSON.
-/

namespace RichDoc

open Json Markdown

namespace Kind

/-- Whether the kind is recognized, and has one of the names. -/
def isNamed (names : List String) (kind : Kind) : Bool :=
  !kind.isUnknown && names.contains kind.name

/-- A kind is unknown exactly when its name is that of no recognized kind. -/
def Genuine (kind : Kind) : Prop := kind.isUnknown = true ↔ ¬IsRecognized kind.name

theorem genuine_ofMembers (ms : Members) : (ofMembers ms).Genuine := by
  rw [Genuine, isUnknown_ofMembers, name_ofMembers, isRecognized_nameOfType]

theorem Genuine.isNamed_eq {kind : Kind} (h : kind.Genuine) {names : List String}
    (hnames : ∀ name ∈ names, IsRecognized name) :
    kind.isNamed names = names.contains kind.name := by
  cases hkind : kind.isUnknown with
  | false => simp [isNamed, hkind]
  | true =>
    have hfresh : kind.name ∉ names := fun hmem => h.mp hkind (hnames _ hmem)
    simp [isNamed, hkind, hfresh]

end Kind

/-- Names that are counted together are counted apart and added up. -/
theorem countP_contains {names : List String} (h : names.Nodup) (ns : List String) :
    ns.countP (names.contains ·) = (names.map (ns.count ·)).sum := by
  induction names with
  | nil => simp
  | cons name names ih =>
    obtain ⟨hfresh, hnodup⟩ := List.nodup_cons.mp h
    have hsplit : ∀ n, (name :: names).contains n = (n == name || names.contains n) := fun n =>
      List.contains_cons
    rw [List.map_cons, List.sum_cons, ← ih hnodup]
    clear ih
    induction ns with
    | nil => rfl
    | cons n ns ih =>
      rw [List.countP_cons, List.countP_cons, List.count_cons, ih, hsplit]
      by_cases hn : n = name
      · subst hn
        simp [hfresh]
        omega
      · simp [hn]
        omega

namespace Stats

/-- A counter that goes up at the kinds with a property ends at the number of these kinds. -/
theorem counter_ofKinds {f : Stats → UInt32} {p : Kind → Bool} (hzero : f {} = 0)
    (hstep : ∀ s kind, f (s.record kind) = if p kind then f s + 1 else f s) (kinds : List Kind) :
    f (ofKinds kinds) = .ofNat (kinds.countP p) := by
  induction kinds with
  | nil => exact hzero
  | cons kind kinds ih =>
    have hrecord : ofKinds (kind :: kinds) = (ofKinds kinds).record kind := rfl
    rw [hrecord, hstep, ih, List.countP_cons]
    split
    · rw [UInt32.ofNat_add]
      rfl
    · rfl

/-- No kind moves the counters of the text and of what was left out. -/
theorem words_chars_skipped_ofKinds (kinds : List Kind) :
    (ofKinds kinds).words = 0 ∧ (ofKinds kinds).chars = 0 ∧ (ofKinds kinds).skipped = 0 := by
  induction kinds with
  | nil => exact ⟨rfl, rfl, rfl⟩
  | cons kind kinds ih => cases kind <;> exact ih

theorem nodes_ofKinds (kinds : List Kind) : (ofKinds kinds).nodes = .ofNat kinds.length := by
  have hstep : ∀ s kind, (record s kind).nodes = if true then s.nodes + 1 else s.nodes := by
    intro s kind
    cases kind <;> rfl
  rw [counter_ofKinds (p := fun _ => true) rfl hstep, List.countP_true]

/-- A counter of the kinds with some names has the sum of the counts of these names. -/
theorem counter_eq {f : Stats → UInt32} {names : List String} {kinds : List Kind}
    {counts : List (String × Nat)} (hkinds : ∀ kind ∈ kinds, kind.Genuine)
    (hcounts : Document.Counts counts (kinds.map Kind.name)) (hzero : f {} = 0)
    (hstep : ∀ s kind, f (s.record kind) = if kind.isNamed names then f s + 1 else f s)
    (hnames : ∀ name ∈ names, Kind.IsRecognized name) (hnodup : names.Nodup) :
    f (ofKinds kinds) = .ofNat (names.map (Document.countIn counts)).sum := by
  have hnamed : kinds.countP (Kind.isNamed names) =
      (kinds.map Kind.name).countP (names.contains ·) := by
    rw [List.countP_map]
    apply List.countP_congr
    intro kind hkind
    rw [(hkinds kind hkind).isNamed_eq hnames]
    rfl
  have hcount : names.map (Document.countIn counts) = names.map ((kinds.map Kind.name).count ·) :=
    List.map_congr_left fun name _ => hcounts.countIn_eq name
  rw [counter_ofKinds hzero hstep, hnamed, countP_contains hnodup, hcount]

theorem unknown_eq {kinds : List Kind} {counts : List (String × Nat)}
    (hkinds : ∀ kind ∈ kinds, kind.Genuine)
    (hcounts : Document.Counts counts (kinds.map Kind.name)) :
    (ofKinds kinds).unknown =
      .ofNat ((counts.filter (¬Kind.IsRecognized ·.1)).map Prod.snd).sum := by
  have hstep : ∀ s kind, (record s kind).unknown =
      if kind.isUnknown then s.unknown + 1 else s.unknown := by
    intro s kind
    cases kind <;> rfl
  rw [counter_ofKinds rfl hstep, hcounts.sum_filter (¬Kind.IsRecognized ·), List.countP_map]
  congr 1
  apply List.countP_congr
  intro kind hkind
  have hgenuine : kind.isUnknown = true ↔ ¬Kind.IsRecognized kind.name := hkinds kind hkind
  simpa using hgenuine

/-- The counters of kinds agree with counts by name. The counters are words of 32 bits. -/
structure CountsKinds (s : Stats) (counts : List (String × Nat)) : Prop where
  paragraphs : s.paragraphs = .ofNat (Document.countIn counts "paragraph")
  headings : s.headings = .ofNat (Document.countIn counts "heading")
  listItems : s.listItems = .ofNat (Document.countIn counts "listItem" +
    Document.countIn counts "taskItem" + Document.countIn counts "decisionItem")
  tables : s.tables = .ofNat (Document.countIn counts "table")
  codeBlocks : s.codeBlocks = .ofNat (Document.countIn counts "codeBlock")
  media : s.media = .ofNat (Document.countIn counts "media")
  unknown : s.unknown = .ofNat ((counts.filter (¬Kind.IsRecognized ·.1)).map Prod.snd).sum

theorem countsKinds_ofKinds {kinds : List Kind} {counts : List (String × Nat)}
    (hkinds : ∀ kind ∈ kinds, kind.Genuine)
    (hcounts : Document.Counts counts (kinds.map Kind.name)) :
    (ofKinds kinds).CountsKinds counts := by
  have single : ∀ {f : Stats → UInt32} {name : String}, f {} = 0 →
      (∀ s kind, f (s.record kind) = if kind.isNamed [name] then f s + 1 else f s) →
      Kind.IsRecognized name → f (ofKinds kinds) = .ofNat (Document.countIn counts name) := by
    intro f name hzero hstep hname
    have h := counter_eq hkinds hcounts hzero hstep (by simpa using hname) (List.nodup_singleton _)
    simpa using h
  have items : (ofKinds kinds).listItems = .ofNat
      (["listItem", "taskItem", "decisionItem"].map (Document.countIn counts)).sum := by
    apply counter_eq hkinds hcounts rfl _ (by decide) (by decide)
    intro s kind
    cases kind with
    | tableCell header => cases header <;> rfl
    | _ => rfl
  -- Five of the counters go up at the kinds of one name only.
  constructor
  case listItems =>
    rw [items]
    simp [Nat.add_assoc]
  case unknown => exact unknown_eq hkinds hcounts
  all_goals
    apply single rfl _ (by decide)
    intro s kind
    cases kind with
    | tableCell header => cases header <;> rfl
    | _ => rfl

end Stats

namespace Document

/-- Taking statistics does not change the text, whatever the options ask for, and the statistics
count the nodes, the words and characters of the text, and the parts that were left out. In a
document that was read from JSON, in either mode, the counters of kinds agree with the counts by
name, and these are the counts of the types of the objects that were kept. -/
theorem toMarkdownWithStats_exact {d : Document} (h : d.Built) (o : Options) :
    ∃ t stats,
      (∀ collect, d.toMarkdown { o with collectStats := collect } = .ok t ∧
        d.toMarkdownWithStats { o with collectStats := collect } = .ok ⟨t, stats⟩) ∧
      stats.nodes = .ofNat d.size ∧
      stats.words = .ofNat (Text.words t.toList).length ∧
      stats.chars = .ofNat (Text.ink t.toList).length ∧
      stats.skipped = .ofNat d.skipped ∧
      ∀ options v, ofValue? options v = .ok (some d) →
        stats.CountsKinds d.kindCounts ∧
        Counts d.kindCounts
          ((kept options.maxDepth v).map fun ms => Kind.nameOfType (typeName ms)) := by
  have hd := h.wellFormed
  let text := Tree.textAll o d.trees
  let kinds := d.nodes.toList.map Node.kind
  obtain ⟨hwords, hchars, hskipped⟩ := Stats.words_chars_skipped_ofKinds kinds
  refine ⟨String.ofList text, ((Stats.ofKinds kinds).countText text).countSkipped d.skipped,
    ?_, ?_, ?_, ?_, ?_, ?_⟩
  · intro collect
    rw [toMarkdown_eq _ hd, toMarkdownWithStats_eq hd, Tree.textAll_collectStats]
    exact ⟨rfl, rfl⟩
  · have hnodes := Stats.nodes_ofKinds kinds
    rw [List.length_map, Array.length_toList] at hnodes
    exact hnodes
  · simp [Stats.countText, Stats.countSkipped, hwords]
  · simp [Stats.countText, Stats.countSkipped, hchars]
  · simp [Stats.countText, Stats.countSkipped, hskipped]
  · intro options v hv
    have hkinds : kinds = (kept options.maxDepth v).map Kind.ofMembers := kinds_eq_kept hv
    have hcounts : Counts d.kindCounts (kinds.map Kind.name) := by
      rw [List.map_map]
      exact counts_kindCounts d
    have hgenuine : ∀ kind ∈ kinds, kind.Genuine := by
      rw [hkinds]
      intro kind hkind
      obtain ⟨ms, -, rfl⟩ := List.mem_map.mp hkind
      exact Kind.genuine_ofMembers ms
    have hagree := Stats.countsKinds_ofKinds hgenuine hcounts
    constructor
    · exact ⟨hagree.paragraphs, hagree.headings, hagree.listItems, hagree.tables,
        hagree.codeBlocks, hagree.media, hagree.unknown⟩
    · rw [hkinds, List.map_map] at hcounts
      simpa only [Function.comp_def, Kind.name_ofMembers] using hcounts

/-- Objects with a type that is read as another, with none, with one that is no string, and with one
that is not recognized. -/
def oddTypes : Value :=
  .object [("content", .array [.object [("type", .string "nestedExpand"), ("content", .array
    [.object [], .null, .object [("type", .bool true)], .object [("type", .string "taskItem")]])],
    .object [("type", .string "widget")], .object [("type", .string "decisionItem")]])]

theorem toMarkdownWithStats_exact_oddTypes :
    ∃ d, d.Built ∧ ofValue? { mode := .lenient } oddTypes = .ok (some d) ∧
      ∃ t stats, d.toMarkdownWithStats {} = .ok ⟨t, stats⟩ ∧ stats.nodes = 6 ∧
        stats.skipped = 1 ∧ stats.listItems = 2 ∧ stats.unknown = 3 ∧
        Counts d.kindCounts ["expand", "", "", "taskItem", "widget", "decisionItem"] := by
  obtain ⟨d, hd⟩ : ∃ d, ofValue? { mode := .lenient } oddTypes = .ok (some d) :=
    ⟨_, ofValue?_lenient rfl rfl⟩
  have hbuilt : d.Built := .ofValue? hd
  obtain ⟨t, stats, hboth, hnodes, -, -, hskipped, hread⟩ := toMarkdownWithStats_exact hbuilt {}
  obtain ⟨hcounters, hcounts⟩ := hread _ _ hd
  have hsource : (ofValue? { mode := .lenient } oddTypes).map (·.map fun d =>
      (d.size, d.skipped, d.kindCounts)) = .ok (some (6, 1,
        [("", 2), ("decisionItem", 1), ("expand", 1), ("taskItem", 1), ("widget", 1)])) := by
    decide +kernel
  rw [hd] at hsource
  simp only [Except.map, Option.map_some, Except.ok.injEq, Option.some.injEq, Prod.mk.injEq] at hsource
  obtain ⟨hsize, hskip, hkinds⟩ := hsource
  have hnames : (kept 512 oddTypes).map (fun ms => Kind.nameOfType (typeName ms)) =
      ["expand", "", "", "taskItem", "widget", "decisionItem"] := by
    decide +kernel
  refine ⟨d, hbuilt, hd, t, stats, (hboth false).2, ?_, ?_, ?_, ?_, ?_⟩
  · rw [hnodes, hsize]
    rfl
  · rw [hskipped, hskip]
    rfl
  · rw [hcounters.listItems, hkinds]
    decide +kernel
  · rw [hcounters.unknown, hkinds]
    decide +kernel
  · rw [← hnames]
    exact hcounts

end Document

end RichDoc
