import RichDoc.Proofs.Document.Modes

/-! Names of kinds and types of JSON objects. The name of a node's kind is the type of its object,
up to two types that are read as others, and a kind is unknown exactly when its name is that of no
recognized kind. So the names in a document are the types of the objects that were kept. -/

namespace RichDoc

open Json

/-- The types of objects that are read as recognized marks. -/
def Mark.typeNames : List String :=
  ["strong", "bold", "em", "italic", "code", "strike", "strikethrough", "underline",
    "superscript", "sup", "subscript", "sub", "subsup", "link"]

namespace Kind

def isUnknown : Kind → Bool
  | unknown _ => true
  | _ => false

/-- One kind for each recognized name. -/
def samples : List Kind :=
  [paragraph, heading 1, bulletList, orderedList, listItem, codeBlock none, blockquote, rule,
    hardBreak, panel none, expand none, taskList, taskItem false, decisionList, decisionItem,
    mediaGroup, media {}, table, tableRow, tableCell false, tableCell true, text "" [],
    mention none none, inlineCard none, blockCard none, emoji none none none, date none,
    status none]

/-- A name that a recognized kind has. -/
def IsRecognized (name : String) : Prop := ∃ kind : Kind, kind.isUnknown = false ∧ kind.name = name

theorem name_mem_samples {kind : Kind} (h : kind.isUnknown = false) :
    kind.name ∈ samples.map name := by
  cases kind with
  | unknown => cases h
  | tableCell header => cases header <;> simp [samples, name]
  | _ => simp [samples, name]

theorem isRecognized_iff {name : String} : IsRecognized name ↔ name ∈ samples.map Kind.name := by
  constructor
  · rintro ⟨kind, hkind, rfl⟩
    exact name_mem_samples hkind
  · intro h
    obtain ⟨kind, hkind, rfl⟩ := List.mem_map.mp h
    have hsamples : ∀ kind ∈ samples, kind.isUnknown = false := by decide
    exact ⟨kind, hsamples kind hkind, rfl⟩

instance : DecidablePred IsRecognized := fun _ => decidable_of_iff _ isRecognized_iff.symm

/-- The types of objects that are read as recognized kinds. -/
def typeNames : List String := samples.map name ++ ["nestedExpand", "embedCard"]

/-- The name of the kind of an object of some type. -/
def nameOfType (type : String) : String :=
  if type = "nestedExpand" then "expand" else if type = "embedCard" then "blockCard" else type

theorem name_ofMembers (ms : Members) : (ofMembers ms).name = nameOfType (typeName ms) := by
  unfold ofMembers
  split <;> simp_all [name, nameOfType, headingOf]

theorem isUnknown_ofMembers (ms : Members) :
    (ofMembers ms).isUnknown = true ↔ typeName ms ∉ typeNames := by
  unfold ofMembers
  split <;> simp_all [isUnknown, headingOf, typeNames, samples, name]

theorem isRecognized_nameOfType {type : String} :
    IsRecognized (nameOfType type) ↔ type ∈ typeNames := by
  rw [isRecognized_iff, typeNames, List.mem_append, nameOfType]
  split
  · next h => subst h; decide
  · split
    · next h => subst h; decide
    · simp_all

end Kind

/-- The objects in an entry that are kept, in pre-order: those that do not lie too deep, below
objects that are kept. -/
def keptObjects (max depth : Nat) (v : Value) : List Members :=
  if max < depth then []
  else
    match v with
    | .object ms =>
      match entriesBelow ms with
      | .ok items => ms :: items.flatMap fun w => keptObjects max (depth + 1) w
      | .error _ => [ms]
    | _ => []
termination_by max + 1 - depth

namespace Growth

/-- An entry grows into one node for each object that is kept. -/
theorem kinds_ofEntry (max depth : Nat) (v : Value) :
    (ofEntry max depth v).trees.flatMap Tree.kinds =
      (keptObjects max depth v).map Kind.ofMembers := by
  fun_induction ofEntry max depth v with
  | case1 depth v htoo =>
    unfold keptObjects
    rw [if_pos htoo]
    rfl
  | case2 depth hdeep ms items hitems below ih =>
    have hbelow : below.trees = items.flatMap fun w => (ofEntry max (depth + 1) w).trees :=
      trees_ofEntries_eq_flatMap max (depth + 1) items
    rw [keptObjects, if_neg hdeep, hitems]
    simp only [List.flatMap_cons, List.flatMap_nil, List.append_nil, Tree.kinds, hbelow,
      List.flatMap_assoc, List.map_cons, List.map_flatMap, ih]
  | case3 depth hdeep ms found hitems =>
    rw [keptObjects, if_neg hdeep, hitems]
    simp [Tree.kinds]
  | case4 depth v hdeep hv =>
    unfold keptObjects
    rw [if_neg hdeep]
    cases v <;> first | rfl | exact absurd rfl (hv _)

end Growth

namespace Document

/-- The kept objects of the content of a value. -/
def kept (max : Nat) (v : Value) : List Members :=
  ((contentOf v).getD []).flatMap (keptObjects max 0)

/-- The nodes of a document that is built are of the kinds of the kept objects. -/
theorem kinds_eq_kept {options : BuildOptions} {v : Value} {d : Document}
    (h : ofValue? options v = .ok (some d)) :
    d.nodes.toList.map Node.kind = (kept options.maxDepth v).map Kind.ofMembers := by
  obtain ⟨items, hitems, rfl⟩ := eq_ofEntries h
  rw [kinds_ofEntries, Growth.trees_ofEntries_eq_flatMap, kept, hitems, Option.getD_some,
    List.map_flatMap, List.flatMap_assoc]
  exact List.flatMap_congr fun v _ => Growth.kinds_ofEntry options.maxDepth 0 v

end Document

end RichDoc
