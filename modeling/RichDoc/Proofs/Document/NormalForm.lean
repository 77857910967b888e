import RichDoc.Proofs.Document.Names
import RichDoc.Proofs.Markdown.Walk
import RichDoc.Proofs.Text.Words

/-! The normal form of documents that are read from JSON. A text that a node may have is absent
rather than empty, levels of headings are in range, and no name that is recognized is kept as an
unknown one. So wherever a label, a title or a target is shown between delimiters, there is something
between them. -/

namespace RichDoc

open Json Markdown Text

/-! ### Written numbers -/

theorem Decimal.Layout.write_ne_nil (l : Decimal.Layout) (n : Decimal.Numeral) :
    l.write n ≠ [] := by
  simp only [Decimal.Layout.write]
  split
  · simp
  · split
    · simp
    · split <;> simp

theorem Json.Number.text_ne_nil (n : Number) : n.text ≠ [] := by
  cases n with
  | integer n =>
    rw [Number.text]
    exact List.append_ne_nil_of_right_ne_nil _ Nat.toDigits_ne_nil
  | real x =>
    simp only [Number.text, Decimal.Layout.writeBits]
    apply List.append_ne_nil_of_right_ne_nil
    split
    · simp
    · exact Decimal.Layout.write_ne_nil _ _

/-! ### The normal form -/

/-- A text that is absent or has something in it. -/
def Filled (text : Option String) : Prop := text ≠ some ""

theorem filled_some {t : String} : Filled (some t) ↔ t ≠ "" := by
  simp [Filled]

theorem filled_attrText (attrs : Members) (key : String) : Filled (attrText attrs key) := by
  unfold attrText
  split
  · split
    · exact nofun
    · next h => exact filled_some.mpr (by simpa using h)
  · next n _ =>
    rw [filled_some]
    intro h
    exact n.text_ne_nil (by simpa using congrArg String.toList h)
  · next b _ => cases b <;> simp [Filled]
  · exact nofun

theorem Filled.orElse {text other : Option String} (h : Filled text) (h' : Filled other) :
    Filled (text <|> other) := by
  cases text with
  | none => exact h'
  | some => exact h

/-- Another type of media is none of those that are recognized, and has a name. -/
def MediaType.Normal : MediaType → Prop
  | other name => name ∉ ["", "file", "link", "external"]
  | _ => True

theorem MediaType.normal_ofName (name : String) : (ofName name).Normal := by
  unfold ofName
  split <;> simp_all [Normal]

/-- A mark that is kept by its name has one that is not recognized, or the one that can stand for
either of two marks. -/
def Mark.Normal : Mark → Prop
  | link href => Filled href
  | other name => name ∈ typeNames → name = "subsup"
  | _ => True

theorem Mark.normal_ofMembers (ms : Members) : (ofMembers ms).Normal := by
  simp only [ofMembers]
  split
  all_goals try exact trivial
  · split <;> simp [Normal]
  · exact filled_attrText _ _
  · simp_all [Normal, typeNames]

namespace Kind

/-- Every text that a kind may have is absent or filled, and its level, names and marks are in
normal form. -/
def Normal : Kind → Prop
  | heading level => 1 ≤ level ∧ level ≤ 6
  | codeBlock t | panel t | expand t | inlineCard t | blockCard t | date t | status t => Filled t
  | media m => Filled m.id ∧ Filled m.url ∧ Filled m.alt ∧ m.mediaType.Normal
  | text _ marks => ∀ m ∈ marks, m.Normal
  | mention id name => Filled id ∧ Filled name
  | emoji shortName id glyph => Filled shortName ∧ Filled id ∧ Filled glyph
  | unknown name => name ∉ typeNames
  | _ => True

theorem normal_headingOf (level : Int) : (headingOf level).Normal := by
  obtain ⟨n, hn, hrange⟩ : ∃ n, headingOf level = heading n ∧ 1 ≤ n ∧ n ≤ 6 := headingOf_level
  rw [hn]
  exact hrange

theorem normal_ofMembers (ms : Members) : (ofMembers ms).Normal := by
  have htext : ∀ key, Filled (attrText (attributes ms) key) := filled_attrText _
  simp only [ofMembers]
  split
  -- The kinds without attributes, and then those with one text.
  all_goals try exact trivial
  all_goals try exact htext _
  · exact normal_headingOf _
  · exact ⟨htext _, htext _, htext _, MediaType.normal_ofName _⟩
  · intro m hm
    obtain ⟨mark, -, rfl⟩ := List.mem_map.mp hm
    exact Mark.normal_ofMembers mark
  · exact ⟨htext _, (htext _).orElse (htext _)⟩
  · exact ⟨htext _, htext _, htext _⟩
  · simp_all [Normal, typeNames, samples, name]

end Kind

/-! ### What is shown between delimiters -/

/-- The texts of the kinds that show a label, a title or a target. Where the text is absent there is
nothing to delimit; where it is there, what stands between two delimiters is not empty. -/
inductive Delimited (o : Options) (children : List Child) : Kind → List Char → Prop where
  | noDate : Delimited o children (.date none) []
  | date {label : String} : label ≠ "" → Delimited o children (.date (some label)) label.toList
  | noStatus : Delimited o children (.status none) []
  | status {label : String} : label ≠ "" →
      Delimited o children (.status (some label)) (['['] ++ label.toList ++ [']'])
  | untitled : Delimited o children (.expand none) (joinBlocks (children.map Child.piece))
  | titled {title : String} : title ≠ "" → Delimited o children (.expand (some title))
      (joinPresent blankLine
        [enclose ['*', '*'] title.toList, joinBlocks (children.map Child.piece)])
  | noCard {kind : Kind} : kind ∈ [.inlineCard none, .blockCard none] →
      Delimited o children kind "[Link]".toList
  | card {kind : Kind} {url : String} {label : List Char} :
      kind ∈ [.inlineCard (some url), .blockCard (some url)] → url ≠ "" → label ≠ [] →
      Delimited o children kind (link label url.toList)
  | attachment {id : String} {url alt : Option String} {label : List Char} :
      id ≠ "" → label ≠ [] →
      Delimited o children (.media ⟨some id, .file, url, alt⟩)
        (['!'] ++ link label (o.attachmentScheme.toList ++ id.toList))
  | elsewhere {m : Media} {url : String} : m.mediaType ∈ [.external, .link] → m.url = some url →
      url ≠ "" → Delimited o children (.media m) (link "External Media".toList url.toList)
  | noMedia {m : Media} : (m.mediaType = .file → m.id = none) →
      (m.mediaType ∈ [.external, .link] → m.url = none) → Delimited o children (.media m) []
  | mediaGroup {entries : List (List Char)} :
      (∀ e ∈ entries, e = "[External Link]".toList ∨
        ∃ id : String, id ≠ "" ∧ e = ['['] ++ attachmentName id.toList ++ [']']) →
      Delimited o children .mediaGroup (unlines entries)

/-- The kinds that show a label, a title or a target. -/
def Kind.isLabelled : Kind → Bool
  | date _ | status _ | expand _ | inlineCard _ | blockCard _ | media _ | mediaGroup => true
  | _ => false

section

variable (o : Options) (children : List Child)

theorem Url.lastSegment?_ne_nil {t segment : List Char} (h : Url.lastSegment? t = some segment) :
    segment ≠ [] := by
  obtain ⟨segments, -, hfind⟩ := Option.bind_eq_some_iff.mp h
  simpa using List.find?_some hfind

theorem delimited_card {url : Option String} {kind : Kind} (h : Filled url)
    (hkind : kind ∈ [.inlineCard url, .blockCard url]) :
    Delimited o children kind (card url) := by
  cases url with
  | none => exact .noCard hkind
  | some url =>
    refine .card hkind (filled_some.mp h) ?_
    cases hlast : Url.lastSegment? url.toList with
    | none => exact nofun
    | some segment => exact Url.lastSegment?_ne_nil hlast

theorem delimited_media {m : Media} (h : (Kind.media m).Normal) :
    Delimited o children (.media m) (media o m) := by
  obtain ⟨hid, hurl, halt, -⟩ := h
  obtain ⟨id, mediaType, url, alt⟩ := m
  cases mediaType with
  | file =>
    cases id with
    | none => exact .noMedia (fun _ => rfl) (by simp)
    | some id =>
      have hid : id ≠ "" := filled_some.mp hid
      have hattachment : Media.attachmentId ⟨some id, .file, url, alt⟩ = some id := by
        simp [Media.attachmentId, hid]
      simp only [media, hattachment]
      refine .attachment hid ?_
      cases alt with
      | none => exact nofun
      | some alt => simpa using filled_some.mp halt
  | external | link =>
    cases url with
    | none => exact .noMedia nofun (fun _ => rfl)
    | some url =>
      have hurl : url ≠ "" := filled_some.mp hurl
      simp only [media, String.isEmpty_iff, hurl, if_false]
      exact .elsewhere (by simp) rfl hurl
  | other | unspecified => exact .noMedia nofun (by simp)

theorem groupEntry_eq_some {kind : Kind} {e : List Char} (h : groupEntry kind = some e) :
    e = "[External Link]".toList ∨
      ∃ id : String, id ≠ "" ∧ e = ['['] ++ attachmentName id.toList ++ [']'] := by
  cases kind with
  | media m =>
    simp only [groupEntry] at h
    split at h
    · obtain ⟨id, hid, rfl⟩ := Option.map_eq_some_iff.mp h
      have hfilled : id ≠ "" := by simpa using (Option.filter_eq_some_iff.mp hid).2
      exact .inr ⟨id, hfilled, rfl⟩
    · exact .inl (Option.some.inj h).symm
    all_goals cases h
  | _ => cases h

theorem delimited_textOf {kind : Kind} (h : kind.Normal) (hlabelled : kind.isLabelled) :
    Delimited o children kind (textOf o kind children) := by
  cases kind with
  | date label =>
    cases label with
    | none => exact .noDate
    | some label => exact .date (filled_some.mp h)
  | status label =>
    cases label with
    | none => exact .noStatus
    | some label => exact .status (filled_some.mp h)
  | expand title =>
    cases title with
    | none =>
      rw [textOf, expand, joinPresent_pair, List.isEmpty_nil, if_pos rfl]
      exact .untitled
    | some title => exact .titled (filled_some.mp h)
  | inlineCard url => exact delimited_card o children h (by simp)
  | blockCard url => exact delimited_card o children h (by simp)
  | media m => exact delimited_media o children h
  | mediaGroup =>
    refine .mediaGroup fun e he => ?_
    obtain ⟨p, -, hp⟩ := List.mem_filterMap.mp he
    exact groupEntry_eq_some hp
  | _ => cases hlabelled

end

namespace Document

/-- Whatever the JSON value and the options, the nodes of a document that is read from it are in
normal form, and their labels, titles and targets never leave delimiters with nothing between
them. -/
theorem normal_of_ofValue? {options : BuildOptions} {v : Value} {d : Document} {place : Nat}
    {kind : Kind} (h : ofValue? options v = .ok (some d)) (hkind : d.kind? place = some kind)
    (o : Options) :
    kind.Normal ∧ (kind.isLabelled → ∃ pass t, visitFrom o d place = .ok pass ∧
      pass.slots[place]? = some (some (.text t)) ∧
      Delimited o ((d.children place).toList.map (childAt o d)) kind t) := by
  have hnormal : kind.Normal := by
    obtain ⟨node, hnode, rfl⟩ := Option.map_eq_some_iff.mp hkind
    have hmem : node.kind ∈ d.nodes.toList.map Node.kind :=
      List.mem_map.mpr ⟨node, Array.mem_def.mp (Array.mem_of_getElem? hnode), rfl⟩
    rw [kinds_eq_kept h] at hmem
    obtain ⟨ms, -, hms⟩ := List.mem_map.mp hmem
    exact hms ▸ Kind.normal_ofMembers ms
  refine ⟨hnormal, fun hlabelled => ?_⟩
  have hrow : kind ≠ .tableRow := by
    rintro rfl
    cases hlabelled
  obtain ⟨pass, hpass, hslot⟩ :=
    exists_visitFrom_text o (Built.ofValue? h).wellFormed hkind hrow
  rw [Tree.text_node, List.map_map] at hslot
  exact ⟨pass, _, hpass, hslot, delimited_textOf o _ hnormal hlabelled⟩

/-- Attributes that are no strings, that are empty, and that are out of range. -/
def oddAttributes : Value :=
  .object [("content", .array
    [.object [("type", .string "nestedExpand"), ("attrs", .object [("title", .number (.integer 7))])],
    .object [("type", .string "status"), ("attrs", .object [("text", .string "")])],
    .object [("type", .string "heading"), ("attrs", .object [("level", .number (.integer 9))])]])]

theorem normal_of_ofValue?_oddAttributes :
    let d := pushAll {} [(none, .expand (some "7")), (none, .status none), (none, .heading 6)]
    ofValue? {} oddAttributes = .ok (some d) ∧ (Kind.heading 6).Normal ∧
      (∃ pass t, visitFrom {} d 0 = .ok pass ∧ pass.slots[0]? = some (some (.text t)) ∧
        Delimited {} [] (.expand (some "7")) t) ∧
      ∃ pass t, visitFrom {} d 1 = .ok pass ∧ pass.slots[1]? = some (some (.text t)) ∧
        Delimited {} [] (.status none) t := by
  intro d
  have h : ofValue? {} oddAttributes = .ok (some d) := by decide +kernel
  have hexpand : d.kind? 0 = some (.expand (some "7")) := rfl
  have hstatus : d.kind? 1 = some (.status none) := rfl
  have hheading : d.kind? 2 = some (.heading 6) := rfl
  exact ⟨h, (normal_of_ofValue? h hheading {}).1, (normal_of_ofValue? h hexpand {}).2 rfl,
    (normal_of_ofValue? h hstatus {}).2 rfl⟩

end Document

end RichDoc
