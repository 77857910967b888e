import RichDoc.Proofs.Markdown.Walk
import RichDoc.Proofs.Text.Words

/-! The statistics of a conversion. They are sums over the nodes of a document, the words and
characters of its text and the parts that were left out, so what two lists of entries grow into is
counted apart and taken together. -/

namespace RichDoc

open Markdown

namespace Stats

def ofKinds (kinds : List Kind) : Stats := kinds.foldr (fun kind s => s.record kind) {}

theorem record_merge (kind : Kind) (a b : Stats) :
    (a.merge b).record kind = (a.record kind).merge b := by
  cases kind <;> simp only [record, merge] <;> congr 1 <;> ac_rfl

theorem zero_merge (a : Stats) : merge {} a = a := by
  rw [merge_comm, merge_zero]

/-- Each node is counted once, whatever comes before or after it. -/
theorem ofKinds_append (ks ls : List Kind) :
    ofKinds (ks ++ ls) = (ofKinds ks).merge (ofKinds ls) := by
  induction ks with
  | nil => exact (zero_merge _).symm
  | cons kind ks ih =>
    show (ofKinds (ks ++ ls)).record kind = ((ofKinds ks).record kind).merge (ofKinds ls)
    rw [ih, record_merge]

theorem countText_merge {t u w : List Char} (a b : Stats)
    (hwords : Text.words w = Text.words t ++ Text.words u)
    (hink : Text.ink w = Text.ink t ++ Text.ink u) :
    (a.merge b).countText w = (a.countText t).merge (b.countText u) := by
  simp only [countText, merge, hwords, hink, List.length_append, UInt32.ofNat_add]
  congr 1 <;> ac_rfl

theorem countSkipped_merge (a b : Stats) (m n : Nat) :
    (a.merge b).countSkipped (m + n) = (a.countSkipped m).merge (b.countSkipped n) := by
  simp only [countSkipped, merge, UInt32.ofNat_add]
  congr 1
  ac_rfl

end Stats

/-- When a rendering takes statistics, they are those of all nodes of the document. -/
theorem statsFrom_zero (o : Options) (d : Document) (h : o.collectStats) :
    statsFrom o d 0 = Stats.ofKinds (d.nodes.toList.map Node.kind) := by
  simp [statsFrom, h, Stats.ofKinds, List.foldr_map]

theorem ofList_eq_empty {t : List Char} : String.ofList t = "" ↔ t = [] := by
  rw [← String.ofList_nil, String.ofList_inj]

/-- What a tree becomes does not depend on whether statistics are taken. -/
theorem Tree.fragment_collectStats (o : Options) (collect : Bool) (t : Tree) :
    t.fragment { o with collectStats := collect } = t.fragment o := by
  induction t with
  | node kind ts ih =>
    have hchildren : ts.map (child { o with collectStats := collect }) = ts.map (child o) := by
      apply List.map_congr_left
      intro t ht
      rw [child, child, ih t ht]
    rw [fragment_node, fragment_node, hchildren]
    cases kind <;> rfl

theorem Tree.textAll_collectStats (o : Options) (collect : Bool) (ts : List Tree) :
    textAll { o with collectStats := collect } ts = textAll o ts := by
  have hfragments : fragment { o with collectStats := collect } = fragment o :=
    funext (fragment_collectStats o collect)
  rw [textAll, hfragments]
  rfl

theorem Document.toMarkdownWithStats_eq {d : Document} (h : d.WellFormed) (o : Options) :
    d.toMarkdownWithStats o = .ok
      ⟨String.ofList (Tree.textAll o d.trees),
        ((Stats.ofKinds (d.nodes.toList.map Node.kind)).countText
          (Tree.textAll o d.trees)).countSkipped d.skipped⟩ := by
  rw [toMarkdownWithStats, render_eq _ h, statsFrom_zero _ _ rfl, Tree.textAll_collectStats]
  rfl

/-- The text of two lists of trees has a blank line between the texts of the two. -/
theorem Tree.textAll_append (o : Options) (ts us : List Tree) :
    textAll o (ts ++ us) = Text.joinPresent Text.blankLine [textAll o ts, textAll o us] := by
  simp only [textAll, joinRoots, List.map_append, Text.joinPresent_append]

namespace Growth

/-- What a growth becomes: its trees as Markdown, and the statistics of its nodes and text. -/
def rendering (o : Options) (g : Growth) : Rendering where
  content := String.ofList (Tree.textAll o g.trees)
  stats := ((Stats.ofKinds (g.trees.flatMap Tree.kinds)).countText
    (Tree.textAll o g.trees)).countSkipped g.skipped

/-- Two growths are counted apart. A blank line stands between their texts, so no word of the one
runs into a word of the other. -/
theorem stats_rendering_append (o : Options) (g g' : Growth) :
    ((g.append g').rendering o).stats =
      (g.rendering o).stats.merge (g'.rendering o).stats := by
  simp only [rendering, append, List.flatMap_append, Stats.ofKinds_append, Tree.textAll_append]
  rw [Stats.countText_merge _ _ (Text.words_joinPresent_pair _ _) (Text.ink_joinPresent_pair _ _),
    Stats.countSkipped_merge]

theorem content_rendering_append (o : Options) (g g' : Growth) :
    ((g.append g').rendering o).content =
      if (g.rendering o).content = "" then (g'.rendering o).content
      else if (g'.rendering o).content = "" then (g.rendering o).content
      else (g.rendering o).content ++ "\n\n" ++ (g'.rendering o).content := by
  simp only [rendering, append, Tree.textAll_append, Text.joinPresent_pair, ofList_eq_empty,
    List.isEmpty_iff]
  split
  · rfl
  · split
    · rfl
    · rw [String.ofList_append, String.ofList_append, ← String.append_assoc]
      rfl

end Growth

end RichDoc
