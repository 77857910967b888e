import RichDoc.Document
import RichDoc.Document.Attributes
import RichDoc.Json.Reader

/-! Building a document from its JSON tree. The entries that wait to be built lie on a stack, so the
nesting of the source never becomes nesting of calls. A strict build stops at the first violation; a
lenient one leaves the offending part out and counts it. -/

namespace RichDoc

open Json

/-- What happens at a violation. -/
inductive Mode where
  | strict
  | lenient
  deriving DecidableEq, Inhabited

/-- Choices in the building of a document. -/
structure BuildOptions where
  mode : Mode := .strict
  maxDepth : Nat := 512
  deriving DecidableEq, Inhabited

/-- What is wrong with an entry. -/
inductive Reason where
  | notObject (found : Shape)
  | contentNotArray (found : Shape)
  deriving DecidableEq

def Reason.words : Reason → String
  | notObject found => "expected an object, found " ++ found.words
  | contentNotArray found => "content must be an array, found " ++ found.words

/-- A violation: an entry that is nested too deeply, or one that is malformed, found by the given
positions from the root. -/
inductive Violation where
  | tooDeep (depth max : Nat)
  | malformed (path : List Nat) (reason : Reason)
  deriving DecidableEq

def pathText (path : List Nat) : String :=
  ".".intercalate (path.map fun i => "content[" ++ toString i ++ "]")

/-- Where an entry comes from: the node whose content holds it, and its position there. -/
structure Origin where
  parent : Option Nat
  position : Nat
  deriving DecidableEq, Inhabited

structure Pending where
  value : Value
  origin : Origin

def pendingOf (parent : Option Nat) (items : List Value) : List Pending :=
  items.zipIdx.map fun (v, i) => ⟨v, ⟨parent, i⟩⟩

/-- A document under construction, with the origin of each of its nodes. -/
structure Builder where
  document : Document := {}
  origins : Array Origin := #[]
  deriving Inhabited

namespace Builder

/-- The positions that lead from the root to an entry, before those in `below`. -/
def pathFrom (b : Builder) : Nat → Origin → List Nat → List Nat
  | 0, _, below => below
  | fuel + 1, o, below =>
    match o.parent.bind (b.origins[·]?) with
    | some up => pathFrom b fuel up (o.position :: below)
    | none => o.position :: below

/-- The positions that lead from the root to an entry. No path has more of them than the document
has nodes, and one. -/
def path (b : Builder) (o : Origin) : List Nat := b.pathFrom (b.origins.size + 1) o []

/-- Leaves a part out, or stops. -/
def reject (b : Builder) (mode : Mode) (v : Violation) : Except Violation Builder :=
  match mode with
  | .strict => .error v
  | .lenient => .ok { b with document := b.document.skip }

/-- Adds the node of an entry. -/
def add (b : Builder) (o : Origin) (kind : Kind) : Builder :=
  { document := b.document.push o.parent kind, origins := b.origins.push o }

def lastPlace (b : Builder) : Nat := b.document.size - 1

theorem lastPlace_add (b : Builder) (o : Origin) (kind : Kind) :
    (b.add o kind).lastPlace = b.document.size := by
  simp [lastPlace, add]

/-- Builds one entry, and gives back the entries of its content. -/
def step (options : BuildOptions) (b : Builder) (p : Pending) :
    Except Violation (Builder × List Pending) :=
  let depth := b.document.depthUnder p.origin.parent
  let stop (b : Builder) (v : Violation) := (b.reject options.mode v).map (·, [])
  if options.maxDepth < depth then stop b (.tooDeep depth options.maxDepth)
  else
    match p.value with
    | .object ms =>
      let built := b.add p.origin (Kind.ofMembers ms)
      match Members.get? ms "content" with
      | none | some .null => .ok (built, [])
      | some (.array items) => .ok (built, pendingOf (some built.lastPlace) items)
      | some other =>
        stop built (.malformed (built.path p.origin) (.contentNotArray other.shape))
    | other => stop b (.malformed (b.path p.origin) (.notObject other.shape))

/-- The size of the entries that wait, which every step makes smaller. -/
noncomputable def load : List Pending → Nat
  | [] => 0
  | p :: rest => sizeOf p.value + load rest

theorem load_append (s t : List Pending) : load (s ++ t) = load s + load t := by
  induction s with
  | nil => simp [load]
  | cons p s ih => simp [load, ih, Nat.add_assoc]

theorem load_pendingOf_lt (parent : Option Nat) (items : List Value) :
    load (pendingOf parent items) < sizeOf items := by
  suffices h : ∀ k, load ((items.zipIdx k).map fun x => ⟨x.1, ⟨parent, x.2⟩⟩) < sizeOf items from
    h 0
  induction items with
  | nil => simp [load]
  | cons v items ih =>
    intro k
    have := ih (k + 1)
    simp only [List.zipIdx_cons, List.map_cons, load, List.cons.sizeOf_spec]
    omega

theorem sizeOf_get?_lt {ms : Members} {key : String} {v : Value} (h : ms.get? key = some v) :
    sizeOf v < sizeOf ms := by
  induction ms with
  | nil => simp [Members.get?] at h
  | cons m ms ih =>
    obtain ⟨k, w⟩ := m
    simp only [Members.get?, List.lookup_cons] at h
    split at h
    · cases h
      simp only [List.cons.sizeOf_spec, Prod.mk.sizeOf_spec]
      omega
    · have := ih h
      simp only [List.cons.sizeOf_spec]
      omega

theorem load_step_lt {options : BuildOptions} {b b' : Builder} {p : Pending} {more : List Pending}
    (h : b.step options p = .ok (b', more)) : load more < sizeOf p.value := by
  have hstop : ∀ (b : Builder) (v : Violation),
      (b.reject options.mode v).map (·, ([] : List Pending)) = .ok (b', more) → more = [] := by
    intro b v hv
    cases hm : b.reject options.mode v with
    | error e => simp [hm, Except.map] at hv
    | ok c => simp [hm, Except.map] at hv; exact hv.2
  have hpos : 0 < sizeOf p.value := by
    cases p.value <;>
      simp only [Value.null.sizeOf_spec, Value.bool.sizeOf_spec, Value.number.sizeOf_spec,
        Value.string.sizeOf_spec, Value.array.sizeOf_spec, Value.object.sizeOf_spec] <;>
      omega
  simp only [step] at h
  split at h
  · simpa [hstop _ _ h, load] using hpos
  · split at h
    · next ms hms =>
      split at h
      · cases h; simpa [load] using hpos
      · cases h; simpa [load] using hpos
      · next items hitems =>
        cases h
        have h1 := load_pendingOf_lt (some (b.add p.origin (Kind.ofMembers ms)).lastPlace) items
        have h2 := sizeOf_get?_lt hitems
        simp only [hms, Value.object.sizeOf_spec, Value.array.sizeOf_spec] at h2 ⊢
        omega
      · simpa [hstop _ _ h, load] using hpos
    · simpa [hstop _ _ h, load] using hpos

/-- Builds the entries of a stack, each with its content before the next. -/
def run (options : BuildOptions) (b : Builder) (stack : List Pending) :
    Except Violation Builder :=
  match stack with
  | [] => .ok b
  | p :: rest =>
    match h : b.step options p with
    | .error v => .error v
    | .ok (b, more) =>
      have := load_step_lt h
      run options b (more ++ rest)
termination_by load stack
decreasing_by
  simp only [load_append]
  simp only [load] at this ⊢
  omega

end Builder

namespace Document

/-- The document in a JSON value, or nothing when the value has no content array. -/
def ofValue? (options : BuildOptions) (v : Value) : Except Violation (Option Document) :=
  match (v.get? "content").bind Value.items? with
  | none => .ok none
  | some items =>
    let version := ((v.get? "version").bind Value.number?).bind Number.natural?
    (Builder.run options { document := { version } } (pendingOf none items)).map
      (some ·.document)

end Document

/-- Why a source has no document. -/
inductive BuildError where
  | notUtf8
  | json (fault : Fault)
  | violation (v : Violation)
  deriving DecidableEq

def Violation.message : Violation → String
  | tooDeep depth max =>
    "Nesting depth " ++ toString depth ++ " exceeds the limit of " ++ toString max
  | malformed path reason => "Malformed node at " ++ pathText path ++ ": " ++ reason.words

def notUtf8Message : String := "stream did not contain valid UTF-8"

def BuildError.message : BuildError → String
  | notUtf8 => "I/O error: " ++ notUtf8Message
  | json fault => "JSON parsing error: " ++ fault.message
  | violation v => v.message

namespace Document

/-- The document in a JSON text. -/
def ofText? (options : BuildOptions) (s : String) : Except BuildError (Option Document) :=
  match Json.parse s with
  | .error fault => .error (.json fault)
  | .ok v => (ofValue? options v).mapError .violation

/-- The document in the bytes of a JSON text. -/
def ofBytes? (options : BuildOptions) (bytes : ByteArray) : Except BuildError (Option Document) :=
  match String.fromUTF8? bytes with
  | none => .error .notUtf8
  | some s => ofText? options s

end Document

end RichDoc
