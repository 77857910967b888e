import RichDoc.Proofs.Converter.Statistics

/-! Converting the concatenation of two content arrays. Nothing in the conversion of an entry
depends on the entries beside it, so the contents stand a blank line apart, and the statistics are
taken together. -/

namespace RichDoc

open Json Markdown

namespace Document

theorem toMarkdownWithStats_ofEntries (o : Options) (max : Nat) (version : Option Nat)
    {items : List Value} (hd : (ofEntries max version items).WellFormed) :
    (ofEntries max version items).toMarkdownWithStats o =
      .ok ((Growth.ofEntries max 0 items).rendering { o with collectStats := true }) := by
  rw [toMarkdownWithStats_eq hd, kinds_ofEntries, trees_ofEntries, ← Tree.textAll_collectStats o true]
  rfl

end Document

namespace Converter

/-- The conversion, with statistics, of a document that has a list of entries as its content. -/
def convertEntries (c : Converter) (items : List Value) : Rendering :=
  (c.withStats true).convert (.object [("content", .array items)])

theorem render_withStats (c : Converter) (d : Document) :
    (c.withStats true).render d = d.toMarkdownWithStats (c.withStats true).markdown := rfl

/-- A lenient conversion never fails, and it gives what the entries grow into. -/
theorem convertEntries_eq {c : Converter} (h : c.build.mode = .lenient) (items : List Value) :
    c.convertEntries items =
      (Growth.ofEntries c.build.maxDepth 0 items).rendering (c.withStats true).markdown := by
  have hdocument :
      Document.ofValue? (c.withStats true).build (.object [("content", .array items)]) =
        .ok (some (Document.ofEntries c.build.maxDepth none items)) :=
    Document.ofValue?_lenient h rfl
  have hd := (Document.Built.ofValue? hdocument).wellFormed
  simp only [convertEntries, convert, convertTree, hdocument, render_withStats,
    Document.toMarkdownWithStats_ofEntries _ _ _ hd]
  rfl

/-- The conversion of two lists of entries has their contents, a blank line apart, and their
statistics together. -/
theorem convertEntries_append (c : Converter) (h : c.build.mode = .lenient)
    (items more : List Value) :
    (c.convertEntries (items ++ more)).content =
      (if (c.convertEntries items).content = "" then (c.convertEntries more).content
      else if (c.convertEntries more).content = "" then (c.convertEntries items).content
      else (c.convertEntries items).content ++ "\n\n" ++ (c.convertEntries more).content) ∧
    (c.convertEntries (items ++ more)).stats =
      (c.convertEntries items).stats.merge (c.convertEntries more).stats := by
  simp only [convertEntries_eq h, Growth.ofEntries_append]
  exact ⟨Growth.content_rendering_append _ _ _, Growth.stats_rendering_append _ _ _⟩

/-- A rule and an entry that is left out stand before a text. -/
theorem convertEntries_append_rule_text :
    ({} : Converter).build.mode = .lenient ∧
    (({} : Converter).convertEntries ([.object [("type", .string "rule")], .null] ++
      [.object [("type", .string "text"), ("text", .string "one two")]])).content =
        "---\n\none two" ∧
    (({} : Converter).convertEntries ([.object [("type", .string "rule")], .null] ++
      [.object [("type", .string "text"), ("text", .string "one two")]])).stats =
        { nodes := 2, skipped := 1, words := 3, chars := 9 } := by
  have hrule : ({} : Converter).convertEntries [.object [("type", .string "rule")], .null] =
      ⟨"---", { nodes := 1, skipped := 1, words := 1, chars := 3 }⟩ := by decide +kernel
  have htext : ({} : Converter).convertEntries
      [.object [("type", .string "text"), ("text", .string "one two")]] =
      ⟨"one two", { nodes := 1, words := 2, chars := 6 }⟩ := by decide +kernel
  have h := convertEntries_append {} rfl [.object [("type", .string "rule")], .null]
    [.object [("type", .string "text"), ("text", .string "one two")]]
  rw [hrule, htext] at h
  exact ⟨rfl, h.1.trans (by decide), h.2.trans (by decide)⟩

end Converter

end RichDoc
