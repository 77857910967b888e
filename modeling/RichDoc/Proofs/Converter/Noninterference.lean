import RichDoc.Proofs.Converter.Statistics
import RichDoc.Proofs.Converter.Strictness
import RichDoc.Proofs.Document.Names
import RichDoc.Proofs.Markdown.Essence

/-! What a conversion ignores has no influence on its text. Values that differ only in members that
nothing reads, in types and marks that are not told apart, and in what lies below leaves grow into
trees of the same essence, though the documents may differ in size and in what was left out. -/

namespace RichDoc

open Json Markdown

theorem Mark.isOther_ofMembers {ms : Members} (h : typeName ms ∉ typeNames) :
    (ofMembers ms).isOther = true := by
  unfold ofMembers
  split <;> simp_all [isOther, typeNames]

/-- The objects in the member `marks` that have recognized types. -/
def recognizedMarks (ms : Members) : List Members :=
  ((((ms.get? "marks").bind Value.items?).getD []).filterMap Value.members?).filter
    (typeName · ∈ Mark.typeNames)

theorem filter_marksOf (ms : Members) :
    (marksOf ms).filter (!·.isOther) =
      ((recognizedMarks ms).map Mark.ofMembers).filter (!·.isOther) := by
  rw [marksOf, recognizedMarks, List.filter_map, List.filter_map, List.filter_filter]
  congr 1
  apply List.filter_congr
  intro mark _
  by_cases h : typeName mark ∈ Mark.typeNames
  · simp [h]
  · simp [Mark.isOther_ofMembers h]

namespace Kind

def leafTypes : List String :=
  ["text", "rule", "hardBreak", "media", "mention", "inlineCard", "blockCard", "embedCard", "emoji",
    "date", "status"]

theorem isLeaf_ofMembers {ms : Members} (h : typeName ms ∈ leafTypes) :
    (ofMembers ms).isLeaf = true := by
  unfold ofMembers
  split <;> simp_all [isLeaf, leafTypes]

theorem essence_of_isUnknown {kind : Kind} (h : kind.isUnknown) : kind.essence = unknown "" := by
  cases kind <;> first | rfl | cases h

theorem essence_ofMembers_cell {ms : Members} (h : typeName ms ∈ ["tableCell", "tableHeader"]) :
    (ofMembers ms).essence = tableCell false := by
  unfold ofMembers
  split <;> simp_all [essence]

end Kind

/-! ### Values that are not told apart -/

/-- Types that are not told apart: the types of cells, and the types that are not recognized. -/
inductive SameType : String → String → Prop
  | refl (type : String) : SameType type type
  | cell {type type' : String} : type ∈ ["tableCell", "tableHeader"] →
      type' ∈ ["tableCell", "tableHeader"] → SameType type type'
  | unknown {type type' : String} : type ∉ Kind.typeNames → type' ∉ Kind.typeNames →
      SameType type type'

/-- Objects that agree in what is read of them, their content apart. -/
structure SameNode (ms ms' : Members) : Prop where
  type : SameType (typeName ms) (typeName ms')
  attrs : ms.get? "attrs" = ms'.get? "attrs"
  text : ms.get? "text" = ms'.get? "text"
  marks : recognizedMarks ms = recognizedMarks ms'

/-- The entries below an object. A content that is no array holds none. -/
def itemsBelow (ms : Members) : List Value := ((ms.get? "content").bind Value.items?).getD []

/-- Entries that are not told apart. Nothing is asked of the content of a leaf. -/
inductive Alike : Value → Value → Prop
  | refl (v : Value) : Alike v v
  | leaf {ms ms' : Members} : SameNode ms ms' → typeName ms ∈ Kind.leafTypes →
      Alike (.object ms) (.object ms')
  | branch {ms ms' : Members} : SameNode ms ms' →
      List.Forall₂ Alike (itemsBelow ms) (itemsBelow ms') → Alike (.object ms) (.object ms')

theorem SameNode.essence {ms ms' : Members} (h : SameNode ms ms') :
    (Kind.ofMembers ms).essence = (Kind.ofMembers ms').essence := by
  obtain ⟨htype, hattrs, htext, hmarks⟩ := h
  generalize ht : typeName ms = t at htype
  generalize ht' : typeName ms' = t' at htype
  cases htype with
  | refl =>
    have hattributes : attributes ms = attributes ms' := by rw [attributes, attributes, hattrs]
    have hmarks : (marksOf ms).filter (!·.isOther) = (marksOf ms').filter (!·.isOther) := by
      rw [filter_marksOf, filter_marksOf, hmarks]
    simp only [Kind.ofMembers, ht, ht', hattributes, htext]
    split <;> first | rfl | simp only [Kind.essence, hmarks]
  | cell hcell hcell' =>
    subst ht ht'
    rw [Kind.essence_ofMembers_cell hcell, Kind.essence_ofMembers_cell hcell']
  | unknown hnew hnew' =>
    subst ht ht'
    rw [Kind.essence_of_isUnknown ((Kind.isUnknown_ofMembers ms).mpr hnew),
      Kind.essence_of_isUnknown ((Kind.isUnknown_ofMembers ms').mpr hnew')]

namespace Growth

variable {max depth : Nat}

theorem trees_ofEntry_object (h : ¬max < depth) (ms : Members) :
    (ofEntry max depth (.object ms)).trees =
      [.node (Kind.ofMembers ms) (ofEntries max (depth + 1) (itemsBelow ms)).trees] := by
  cases hitems : entriesBelow ms with
  | ok items =>
    have hbelow : itemsBelow ms = items := by
      rw [entriesBelow] at hitems
      split at hitems <;> simp_all [itemsBelow, Value.items?]
    rw [ofEntry_object h hitems, hbelow]
  | error found =>
    have hbelow : itemsBelow ms = [] := by
      rw [entriesBelow] at hitems
      split at hitems <;> simp_all [itemsBelow, Value.items?]
    rw [ofEntry_malformed h hitems, hbelow]
    rfl

theorem essences_ofEntries {items items' : List Value} (hall : List.Forall₂ Alike items items')
    (h : ∀ v v', Alike v v' →
      (ofEntry max depth v).trees.map Tree.essence =
        (ofEntry max depth v').trees.map Tree.essence) :
    (ofEntries max depth items).trees.map Tree.essence =
      (ofEntries max depth items').trees.map Tree.essence := by
  induction hall with
  | nil => rfl
  | cons hv _ ih =>
    simp only [ofEntries_cons, append, List.map_append]
    rw [h _ _ hv, ih]

/-- Entries that are not told apart grow into trees of the same essence. -/
theorem essences_ofEntry {v v' : Value} (h : Alike v v') :
    (ofEntry max depth v).trees.map Tree.essence =
      (ofEntry max depth v').trees.map Tree.essence := by
  -- On the levels that are left, as the recursion of the builder: the relation goes through lists of
  -- entries, and has no induction of its own for them.
  induction hlevels : max + 1 - depth generalizing depth v v' with
  | zero =>
    have hdeep : max < depth := by omega
    rw [ofEntry_tooDeep hdeep, ofEntry_tooDeep hdeep]
  | succ levels ih =>
    have hdeep : ¬max < depth := by omega
    cases h with
    | refl => rfl
    | leaf hnode htype =>
      have hleaf := Kind.isLeaf_ofMembers htype
      have hleaf' := hleaf
      rw [← Kind.isLeaf_essence, hnode.essence, Kind.isLeaf_essence] at hleaf'
      simp only [trees_ofEntry_object hdeep, List.map_singleton, Tree.essence_node]
      rw [if_pos hleaf, if_pos hleaf', hnode.essence]
    | branch hnode hall =>
      have hlevels : max + 1 - (depth + 1) = levels := by omega
      have hbelow := essences_ofEntries hall fun _ _ h => ih h hlevels
      have hleaf := congrArg Kind.isLeaf hnode.essence
      rw [Kind.isLeaf_essence, Kind.isLeaf_essence] at hleaf
      simp only [trees_ofEntry_object hdeep, List.map_singleton, Tree.essence_node]
      rw [hbelow, hleaf, hnode.essence]

end Growth

namespace Converter

variable {c : Converter} {v v' : Value} {items items' : List Value}

/-- The text of a lenient conversion is that of the trees into which the entries grow. -/
theorem content_convert (hmode : c.build.mode = .lenient)
    (hitems : Document.contentOf v = some items) :
    (c.convert v).content =
      String.ofList (Tree.textAll c.markdown (Growth.ofEntries c.build.maxDepth 0 items).trees) := by
  have hobject : v.shape = .array ∨ v.shape = .object := by
    cases v with
    | object => exact .inr rfl
    | _ => cases hitems
  have hdocument := Document.ofValue?_lenient hmode hitems
  have hd := (Document.Built.ofValue? hdocument).wellFormed
  rw [convert_of_shape hobject, convertTree, hdocument,
    ← Document.trees_ofEntries _ (Document.versionOf v)]
  by_cases hstats : c.markdown.collectStats
  · simp only [render, if_pos hstats, Document.toMarkdownWithStats_eq hd]
  · simp only [render, if_neg hstats, toMarkdown_eq _ hd]
    rfl

/-- Lenient conversions of values whose entries are not told apart have the same text, whatever else
the values hold. -/
theorem content_convert_of_alike (c : Converter) (hmode : c.build.mode = .lenient)
    (hitems : Document.contentOf v = some items) (hitems' : Document.contentOf v' = some items')
    (h : List.Forall₂ Alike items items') : (c.convert v).content = (c.convert v').content := by
  have hessences :
      (Growth.ofEntries c.build.maxDepth 0 items).trees.map Tree.essence =
        (Growth.ofEntries c.build.maxDepth 0 items').trees.map Tree.essence :=
    Growth.essences_ofEntries h fun _ _ => Growth.essences_ofEntry
  rw [content_convert hmode hitems, content_convert hmode hitems', Tree.textAll_congr hessences]

/-- A header with an extra mark, and a widget above a rule with a malformed content. -/
def decorated : List Value :=
  [.object [("type", .string "tableHeader"), ("localId", .string "a1"), ("content", .array
    [.object [("type", .string "text"), ("text", .string "a"), ("marks", .array
      [.object [("type", .string "glow")], .object [("type", .string "strong")]])]])],
    .object [("type", .string "widget"), ("content", .array
      [.object [("type", .string "rule"), ("content", .bool true)]])]]

def plain : List Value :=
  [.object [("type", .string "tableCell"), ("content", .array
    [.object [("type", .string "text"), ("text", .string "a"), ("marks", .array
      [.object [("type", .string "strong")]])]])],
    .object [("content", .array
      [.object [("type", .string "rule"), ("content", .array [.object [], .null])]])]]

theorem content_convert_of_alike_decorated :
    ({} : Converter).build.mode = .lenient ∧ List.Forall₂ Alike decorated plain ∧
    (({} : Converter).convert
      (.object [("version", .string "2"), ("content", .array decorated)])).content =
        "**a**\n\n---" ∧
    (({} : Converter).convert (.object [("content", .array plain)])).content =
        "**a**\n\n---" := by
  have halike : List.Forall₂ Alike decorated plain := by
    have htext : SameNode
        [("type", .string "text"), ("text", .string "a"), ("marks", .array
          [.object [("type", .string "glow")], .object [("type", .string "strong")]])]
        [("type", .string "text"), ("text", .string "a"), ("marks", .array
          [.object [("type", .string "strong")]])] := ⟨.refl _, rfl, rfl, rfl⟩
    have hrule : SameNode [("type", .string "rule"), ("content", .bool true)]
        [("type", .string "rule"), ("content", .array [.object [], .null])] :=
      ⟨.refl _, rfl, rfl, rfl⟩
    refine .cons (.branch ⟨.cell (by decide) (by decide), rfl, rfl, rfl⟩ ?_)
      (.cons (.branch ⟨.unknown (by decide) (by decide), rfl, rfl, rfl⟩ ?_) .nil)
    · exact .cons (.leaf htext (by decide)) .nil
    · exact .cons (.leaf hrule (by decide)) .nil
  have h : (({} : Converter).convert
      (.object [("version", .string "2"), ("content", .array decorated)])).content =
      (({} : Converter).convert (.object [("content", .array plain)])).content :=
    content_convert_of_alike {} rfl rfl rfl halike
  have hplain : (({} : Converter).convert (.object [("content", .array plain)])).content =
      "**a**\n\n---" := by decide +kernel
  exact ⟨rfl, halike, h.trans hplain, hplain⟩

end Converter

end RichDoc
