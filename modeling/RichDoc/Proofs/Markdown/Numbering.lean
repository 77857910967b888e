import RichDoc.Proofs.Markdown.ItemReader
import RichDoc.Proofs.Markdown.OutlineReader

/-! Numbered lists against bullet lists. Items stand one below the other, and only their first lines
are neither empty nor indented, so these lines carry the numbers. With bullets in place of the
numbers, a numbered list is the bullet list of the same items. -/

namespace RichDoc

open Markdown Text

/-- The kinds that become items of a list. -/
def Kind.isItem : Kind → Bool
  | listItem | taskItem _ | decisionItem => true
  | _ => false

namespace Markdown

/-- A line that is neither empty nor indented. -/
def startsItem (line : List Char) : Bool := line.head?.any (· ≠ ' ')

/-- The lines with a bullet in place of the number of each line that starts an item; the numbers
count from `n` on. -/
def rebullet? (n : Nat) : List (List Char) → Option (List (List Char))
  | [] => some []
  | line :: ls =>
    if startsItem line then do
      let item ← (Row.marker (some n)).isPrefixOf? line
      return (bullet ++ item) :: (← rebullet? (n + 1) ls)
    else return line :: (← rebullet? n ls)

/-- A text that is a list of `n` numbered items, and the bullet list of the same items. -/
structure Numbered (n : Nat) (t bullets : List Char) : Prop where
  length_starts : ((lines t).filter startsItem).length = n
  numbered : ∀ {k : Nat} {line : List Char}, ((lines t).filter startsItem)[k]? = some line →
    (toString (k + 1)).toList ++ ['.', ' '] <+: line
  indented : ∀ line ∈ lines t, startsItem line = false → line = [] ∨ itemIndent <+: line
  rebullet? : (rebullet? 1 (lines t)).map unlines = some bullets

/-- What an item is below its marker: whole lines, of which all but the first are empty or
indented. -/
structure Block where
  head : List Char
  later : List (List Char)
  oneLine : ∀ line ∈ head :: later, '\n' ∉ line
  indented : ∀ line ∈ later, line = [] ∨ itemIndent <+: line

namespace Block

def lines (marker : List Char) (b : Block) : List (List Char) := (marker ++ b.head) :: b.later

def text (marker : List Char) (b : Block) : List Char := unlines (b.lines marker)

variable {marker : List Char}

theorem text_eq (marker : List Char) (b : Block) :
    b.text marker = marker ++ unlines (b.head :: b.later) := unlines_marked marker b.head b.later

theorem lines_text (hmarker : '\n' ∉ marker) (b : Block) :
    Text.lines (b.text marker) = b.lines marker := by
  apply lines_unlines (List.cons_ne_nil _ _)
  obtain ⟨hhead, hlater⟩ := List.forall_mem_cons.mp b.oneLine
  intro line hline
  rcases List.mem_cons.mp hline with rfl | hline
  · simp [hmarker, hhead]
  · exact hlater line hline

theorem startsItem_later (b : Block) : ∀ line ∈ b.later, startsItem line = false := by
  intro line hline
  rcases b.indented line hline with rfl | ⟨rest, rfl⟩ <;> rfl

theorem startsItem_number (n : Nat) (t : List Char) :
    startsItem (Row.marker (some n) ++ t) = true := by
  obtain ⟨d, ds, h, hd⟩ := Row.exists_toDigits n
  have hne : ' ' ≠ d := ne_of_isDigit hd (by decide)
  simp [startsItem, Row.marker_some, numberMarker, h, Ne.symm hne]

theorem filter_lines (n : Nat) (b : Block) :
    (b.lines (Row.marker (some n))).filter startsItem = [Row.marker (some n) ++ b.head] := by
  have hlater : b.later.filter startsItem = [] :=
    List.filter_eq_nil_iff.mpr fun line hline => by simp [b.startsItem_later line hline]
  rw [lines, List.filter_cons_of_pos (startsItem_number n b.head), hlater]

theorem rebullet?_append {later rest : List (List Char)} (n : Nat)
    (h : ∀ line ∈ later, startsItem line = false) :
    rebullet? n (later ++ rest) = (rebullet? n rest).map (later ++ ·) := by
  induction later with
  | nil => simp
  | cons line later ih =>
    obtain ⟨hline, hlater⟩ := List.forall_mem_cons.mp h
    rw [List.cons_append, rebullet?, hline, ih hlater]
    cases rebullet? n rest <;> rfl

theorem rebullet?_lines (n : Nat) (b : Block) (rest : List (List Char)) :
    rebullet? n (b.lines (Row.marker (some n)) ++ rest) =
      (rebullet? (n + 1) rest).map (b.lines bullet ++ ·) := by
  have hitem := List.isPrefixOf?_eq_some_iff_append_eq.mpr
    (rfl : Row.marker (some n) ++ b.head = _)
  rw [lines, List.cons_append, rebullet?, startsItem_number, hitem,
    rebullet?_append _ b.startsItem_later]
  cases rebullet? (n + 1) rest <;> rfl

/-- The lines of blocks that are numbered from `n` on. -/
def numberedLines (n : Nat) (blocks : List Block) : List (List Char) :=
  (blocks.zipIdx n).flatMap fun (b, i) => b.lines (Row.marker (some i))

theorem numberedLines_cons (n : Nat) (b : Block) (blocks : List Block) :
    numberedLines n (b :: blocks) =
      b.lines (Row.marker (some n)) ++ numberedLines (n + 1) blocks := by
  rw [numberedLines, List.zipIdx_cons, List.flatMap_cons]
  rfl

theorem filter_numberedLines (n : Nat) (blocks : List Block) :
    (numberedLines n blocks).filter startsItem =
      (blocks.zipIdx n).map fun (b, i) => Row.marker (some i) ++ b.head := by
  induction blocks generalizing n with
  | nil => rfl
  | cons b blocks ih =>
    rw [numberedLines_cons, List.filter_append, filter_lines, ih]
    rfl

theorem rebullet?_numberedLines (n : Nat) (blocks : List Block) :
    rebullet? n (numberedLines n blocks) = some (blocks.flatMap (lines bullet)) := by
  induction blocks generalizing n with
  | nil => rfl
  | cons b blocks ih =>
    rw [numberedLines_cons, rebullet?_lines, ih]
    rfl

theorem indented_numberedLines {n : Nat} {blocks : List Block} :
    ∀ line ∈ numberedLines n blocks, startsItem line = false →
      line = [] ∨ itemIndent <+: line := by
  intro line hline hstart
  obtain ⟨⟨b, i⟩, -, hline⟩ := List.mem_flatMap.mp hline
  rcases List.mem_cons.mp hline with rfl | hline
  · rw [startsItem_number] at hstart
    cases hstart
  · exact b.indented line hline

theorem lines_numbered {blocks : List Block} (hne : blocks ≠ []) :
    Text.lines (unlines ((blocks.zipIdx 1).map fun (b, i) => b.text (Row.marker (some i)))) =
      numberedLines 1 blocks := by
  rw [lines_unlines_map _ (by simpa using hne), numberedLines]
  apply List.flatMap_congr
  rintro ⟨b, i⟩ -
  exact b.lines_text (Row.feed_not_mem_marker _)

theorem numbered_blocks (blocks : List Block) :
    Numbered blocks.length
      (unlines ((blocks.zipIdx 1).map fun (b, i) => b.text (Row.marker (some i))))
      (unlines (blocks.map (text bullet))) := by
  by_cases hne : blocks = []
  · subst hne
    exact ⟨rfl, by simp [unlines, startsItem], by simp [unlines], rfl⟩
  have hlines := lines_numbered hne
  refine ⟨?_, ?_, ?_, ?_⟩
  · rw [hlines, filter_numberedLines, List.length_map, List.length_zipIdx]
  · intro k line hline
    rw [hlines, filter_numberedLines, List.getElem?_map, List.getElem?_zipIdx] at hline
    obtain ⟨⟨b, i⟩, hb, rfl⟩ := Option.map_eq_some_iff.mp hline
    obtain ⟨b, -, hi⟩ := Option.map_eq_some_iff.mp hb
    cases hi
    rw [Nat.add_comm k 1]
    exact List.prefix_append _ _
  · rw [hlines]
    exact indented_numberedLines
  · rw [hlines, rebullet?_numberedLines]
    exact congrArg some (unlines_flatMap (fun b => List.cons_ne_nil _ _) blocks).symm

end Block

/-! ### Items -/

/-- An item that is not empty is a block with a bullet. -/
theorem exists_block {rest : List Char} (hrest : '\n' ∉ rest) {parts : List Part}
    (hne : composeItem (bullet ++ rest) parts ≠ []) :
    ∃ b : Block, composeItem (bullet ++ rest) parts = b.text bullet := by
  have hpresent : ∃ p ∈ parts, p.text ≠ [] := by
    by_contra hnone
    exact hne (composeItem_eq_nil (by simpa using hnone))
  obtain ⟨head, later, hsaid⟩ := List.exists_cons_of_ne_nil (lines_ne_nil (said parts))
  have hfeed : ∀ line ∈ head :: later, '\n' ∉ line := by
    rw [← hsaid]
    exact fun line => feed_not_mem_of_mem_lines
  obtain ⟨hhead, hlater⟩ := List.forall_mem_cons.mp hfeed
  refine ⟨⟨rest ++ head, later.map (indentLine itemIndent), ?_, ?_⟩, ?_⟩
  · intro line hline
    rcases List.mem_cons.mp hline with rfl | hline
    · simp [hrest, hhead]
    · obtain ⟨line, hmem, rfl⟩ := List.mem_map.mp hline
      exact feed_not_mem_indentLine feed_not_mem_itemIndent (hlater line hmem)
  · intro line hline
    obtain ⟨line, -, rfl⟩ := List.mem_map.mp hline
    exact indentLine_cases line
  · rw [composeItem_eq hpresent hsaid, Block.text_eq, unlines_marked, List.append_assoc]

theorem exists_blocks {items : List (List Char)}
    (h : ∀ item ∈ items, item ≠ [] → ∃ b : Block, item = b.text bullet) :
    ∃ blocks : List Block, items.filter (!·.isEmpty) = blocks.map (Block.text bullet) := by
  induction items with
  | nil => exact ⟨[], rfl⟩
  | cons item items ih =>
    obtain ⟨hitem, hitems⟩ := List.forall_mem_cons.mp h
    obtain ⟨blocks, hblocks⟩ := ih hitems
    by_cases hempty : item = []
    · exact ⟨blocks, by simpa [hempty] using hblocks⟩
    · obtain ⟨b, rfl⟩ := hitem hempty
      exact ⟨b :: blocks, by simpa [hempty] using hblocks⟩

/-- The numbered list of some items, against the bullet list of the same items. -/
theorem numbered_items {items : List (List Char)}
    (h : ∀ item ∈ items, item ≠ [] → ∃ b : Block, item = b.text bullet) :
    Numbered (items.filter (!·.isEmpty)).length (unlines (numberItems items)) (joinItems items) := by
  obtain ⟨blocks, hblocks⟩ := exists_blocks h
  have hnumber : numberItems items =
      (blocks.zipIdx 1).map fun (b, i) => b.text (Row.marker (some i)) := by
    rw [numberItems, hblocks, List.zipIdx_map, List.zipIdx_succ, List.map_map, List.map_map]
    apply List.map_congr_left
    rintro ⟨b, i⟩ -
    simp only [Function.comp_apply, Prod.map_apply, id_eq, Block.text_eq, dropBullet_append,
      Row.marker_some]
  have hjoin : joinItems items = unlines (blocks.map (Block.text bullet)) := by
    rw [joinItems, joinPresent, hblocks]
    rfl
  rw [hnumber, hjoin, hblocks, List.length_map]
  exact Block.numbered_blocks blocks

/-- The markers of items start with a bullet. -/
theorem exists_marker (o : Options) {kind : Kind} (h : kind.isItem) (children : List Child) :
    ∃ rest, '\n' ∉ rest ∧ textOf o kind children =
      composeItem (bullet ++ rest) (parts (children.map Child.piece)) := by
  cases kind with
  | listItem => exact ⟨[], List.not_mem_nil, rfl⟩
  | taskItem done =>
    cases done with
    | false => exact ⟨"[ ] ".toList, by decide, rfl⟩
    | true => exact ⟨"[x] ".toList, by decide, rfl⟩
  | decisionItem => exact ⟨"✓ ".toList, by decide, rfl⟩
  | _ => cases h

theorem exists_block_text (o : Options) {t : Tree} (h : t.kind.isItem) (hne : t.text o ≠ []) :
    ∃ b : Block, t.text o = b.text bullet := by
  obtain ⟨kind, ts⟩ := t
  rw [Tree.kind_node] at h
  rw [Tree.text_node] at hne ⊢
  obtain ⟨rest, hrest, htext⟩ := exists_marker o h (ts.map (Tree.child o))
  rw [htext] at hne ⊢
  exact exists_block hrest hne

/-! ### Lists in a document -/

variable {d d' : Document} {place place' : Nat}

/-- An ordered list of items and a bullet list with the same children, wherever they stand. The
ordered list has a line with a number for each item that is not empty, and all its other lines are
empty or indented. With a bullet in place of each number it is the bullet list. -/
theorem visitFrom_orderedList (o : Options) (h : d.Obtained) (h' : d'.Obtained)
    (hkind : d.kind? place = some .orderedList) (hkind' : d'.kind? place' = some .bulletList)
    (hitems : ∀ c ∈ d.children place, (d.kind? c).any Kind.isItem)
    (hsame : (d.children place).toList.map d.treeAt = (d'.children place').toList.map d'.treeAt) :
    ∃ pass t pass' bullets,
      (visitFrom o d place = .ok pass ∧ pass.slots[place]? = some (some (.text t))) ∧
      (visitFrom o d' place' = .ok pass' ∧ pass'.slots[place']? = some (some (.text bullets))) ∧
      Numbered ((d.children place).toList.filter fun c => !(fragmentAt o d c).asText.isEmpty).length
        t bullets := by
  have hd := h.built.wellFormed
  obtain ⟨pass, hpass, hslot⟩ := exists_visitFrom_text o hd hkind (by decide)
  obtain ⟨pass', hpass', hslot'⟩ :=
    exists_visitFrom_text o h'.built.wellFormed hkind' (by decide)
  refine ⟨pass, _, pass', _, ⟨hpass, hslot⟩, ⟨hpass', hslot'⟩, ?_⟩
  rw [← hsame, Tree.text_orderedList, Tree.text_bulletList, List.map_map]
  have hblocks : ∀ item ∈ (d.children place).toList.map (Tree.text o ∘ d.treeAt), item ≠ [] →
      ∃ b : Block, item = b.text bullet := by
    intro item hitem hne
    obtain ⟨c, hc, rfl⟩ := List.mem_map.mp hitem
    have hc : c ∈ d.children place := Array.mem_def.mpr hc
    have hitem := hitems c hc
    rw [kind?_childAt (o := o) hd (hd.child_lt_size hc)] at hitem
    exact exists_block_text o hitem hne
  have hcount := numbered_items hblocks
  rw [List.filter_map, List.length_map] at hcount
  exact hcount

/-- A document that is one list. -/
def oneList (kind : Kind) (items : List Tree) : Document :=
  Document.pushAll {} (Tree.stepsAll none 0 [.node kind items])

theorem trees_children_oneList (kind : Kind) (items : List Tree) :
    ((oneList kind items).children 0).toList.map (oneList kind items).treeAt = items := by
  have hlist : oneList kind items = Document.ofTrees none [.node kind items] 0 :=
    Document.pushAll_stepsAll_empty none _
  have hd : (oneList kind items).WellFormed :=
    ((Document.Built.empty none).pushAll _).wellFormed
  have htree : (oneList kind items).treeAt 0 = .node kind items := by
    rw [hlist]
    exact (List.cons.inj (Document.trees_ofTrees none [.node kind items] 0)).1
  have hn : (oneList kind items).node? 0 =
      some ⟨kind, (Tree.places 1 items).toArray, 0⟩ := by
    rw [hlist]
    rfl
  rw [hd.treeAt_eq hn] at htree
  rw [Document.children_of_node? hn]
  exact (Tree.node.inj htree).2

def say (text : String) : Tree := .node .paragraph [.node (.text text []) []]

/-- An item whose text looks like a marker, with a numbered list below it; an empty item; a task of
two lines, the second of which looks like a bullet; and a decision that starts with a list. -/
def mixedItems : List Tree :=
  [.node .listItem [say "2. a", .node .orderedList [.node .listItem [say "b"]]],
    .node .listItem [], .node (.taskItem true) [say "x\n- y"],
    .node .decisionItem [.node .bulletList [.node .listItem [say "z"]]]]

theorem visitFrom_orderedList_mixedItems :
    let d := oneList .orderedList mixedItems
    let d' := oneList .bulletList mixedItems
    d.Obtained ∧ d'.Obtained ∧ d.kind? 0 = some .orderedList ∧ d'.kind? 0 = some .bulletList ∧
    (∀ c ∈ d.children 0, (d.kind? c).any Kind.isItem) ∧
    (d.children 0).toList.map d.treeAt = (d'.children 0).toList.map d'.treeAt ∧
    ∃ pass t pass' bullets,
      (visitFrom {} d 0 = .ok pass ∧ pass.slots[0]? = some (some (.text t))) ∧
      (visitFrom {} d' 0 = .ok pass' ∧ pass'.slots[0]? = some (some (.text bullets))) ∧
      t = "1. 2. a\n  1. b\n2. [x] x\n  - y\n3. ✓ \n  - z".toList ∧
      Numbered ((d.children 0).toList.filter fun c => !(fragmentAt {} d c).asText.isEmpty).length
        t bullets := by
  intro d d'
  have h : d.Obtained := .inl ⟨none, _, rfl⟩
  have h' : d'.Obtained := .inl ⟨none, _, rfl⟩
  have hkind : d.kind? 0 = some .orderedList := by decide +kernel
  have hkind' : d'.kind? 0 = some .bulletList := by decide +kernel
  have hitems : ∀ c ∈ d.children 0, (d.kind? c).any Kind.isItem := by decide +kernel
  have hsame : (d.children 0).toList.map d.treeAt = (d'.children 0).toList.map d'.treeAt :=
    (trees_children_oneList _ _).trans (trees_children_oneList _ _).symm
  have htext : (visitFrom {} d 0).map (·.slots[0]?) =
      .ok (some (some (.text "1. 2. a\n  1. b\n2. [x] x\n  - y\n3. ✓ \n  - z".toList))) := by
    decide +kernel
  obtain ⟨pass, t, pass', bullets, ⟨hpass, hslot⟩, hbullets, hnumbered⟩ :=
    visitFrom_orderedList {} h h' hkind hkind' hitems hsame
  rw [hpass, Except.map, hslot] at htext
  have ht : t = _ := Fragment.text.inj (Option.some.inj (Option.some.inj (Except.ok.inj htext)))
  exact ⟨h, h', hkind, hkind', hitems, hsame, pass, t, pass', bullets, ⟨hpass, hslot⟩, hbullets, ht,
    hnumbered⟩

end Markdown

end RichDoc
