/-! The words of a command line. They are taken one by one: a word is an option, the value of the
option before it, or an operand. -/

namespace RichDoc.Command

/-- A word of a command line, by its look. A long option may bring its value after an equals sign,
and a short one right behind its letter. -/
inductive Word where
  | endOfOptions
  | long (name : List Char) (value : Option (List Char))
  | short (letter : Char) (rest : List Char)
  | plain
  deriving DecidableEq

/-- The look of a word. -/
def Word.ofChars : List Char → Word
  | ['-', '-'] => endOfOptions
  | '-' :: '-' :: body =>
    let name := body.takeWhile (· != '=')
    match body.drop name.length with
    | [] => long name none
    | _ :: value => long name (some value)
  | '-' :: letter :: rest => short letter rest
  | _ => plain

inductive Setting where
  | output
  | maxDepth
  | attachmentScheme
  deriving DecidableEq

/-- What a conversion is asked to do. -/
structure Conversion where
  input : Option String := none
  output : Option String := none
  strict : Bool := false
  maxDepth : Option Nat := none
  attachmentScheme : Option String := none
  stats : Bool := false
  deriving DecidableEq, Inhabited

def numberLimit : Nat := Nat.pow 2 64

/-- A decimal number, which may have a plus sign. -/
def number? (t : List Char) : Option Nat :=
  let digits := match t with
    | '+' :: digits => digits
    | digits => digits
  if digits.isEmpty || !digits.all Char.isDigit then none
  else
    let n := digits.foldl (fun n c => 10 * n + (c.toNat - '0'.toNat)) 0
    if n < numberLimit then some n else none

/-- A value for a place that has none yet. -/
def fill {α : Type} (place : Option α) (value : α) : Option (Option α) :=
  if place.isSome then none else some (some value)

/-- The path that a word names; it is not empty. -/
def path? (t : List Char) : Option String := if t.isEmpty then none else some (String.ofList t)

namespace Conversion

/-- The conversion with one more setting; each is given once. -/
def set (c : Conversion) (s : Setting) (value : List Char) : Option Conversion :=
  match s with
  | .output => do return { c with output := ← fill c.output (← path? value) }
  | .maxDepth => do return { c with maxDepth := ← fill c.maxDepth (← number? value) }
  | .attachmentScheme => do
    return { c with attachmentScheme := ← fill c.attachmentScheme (String.ofList value) }

/-- The conversion with one more operand; there is one at most. -/
def operand (c : Conversion) (t : List Char) : Option Conversion := do
  return { c with input := ← fill c.input (← path? t) }

end Conversion

/-- The words taken so far: the conversion they ask for, the setting that waits for its value, and
whether only operands may follow. -/
structure Scan where
  conversion : Conversion := {}
  waiting : Option Setting := none
  operandsOnly : Bool := false
  deriving DecidableEq, Inhabited

namespace Scan

/-- The scan after a setting, whose value may come with it. -/
def setting (s : Scan) (name : Setting) (value : Option (List Char)) : Option Scan :=
  match value with
  | some value => do return { s with conversion := ← s.conversion.set name value }
  | none => some { s with waiting := some name }

def long (s : Scan) (name : List Char) (value : Option (List Char)) : Option Scan :=
  let c := s.conversion
  if name = "output".toList then s.setting .output value
  else if name = "max-depth".toList then s.setting .maxDepth value
  else if name = "attachment-scheme".toList then s.setting .attachmentScheme value
  else if name = "strict".toList ∧ value = none ∧ !c.strict then
    some { s with conversion := { c with strict := true } }
  else if name = "stats".toList ∧ value = none ∧ !c.stats then
    some { s with conversion := { c with stats := true } }
  else none

/-- The scan after a short option; its value may follow an equals sign. -/
def short (s : Scan) (letter : Char) (rest : List Char) : Option Scan :=
  if letter = 'o' then
    match rest with
    | [] => s.setting .output none
    | '=' :: value => s.setting .output (some value)
    | value => s.setting .output (some value)
  else none

def next (s : Scan) (word : String) : Option Scan :=
  let t := word.toList
  if s.operandsOnly then do return { s with conversion := ← s.conversion.operand t }
  else
    match Word.ofChars t, s.waiting with
    | .plain, some name =>
      do return { s with conversion := ← s.conversion.set name t, waiting := none }
    | .plain, none => do return { s with conversion := ← s.conversion.operand t }
    | _, some _ => none
    | .endOfOptions, none => some { s with operandsOnly := true }
    | .long name value, none => s.long name value
    | .short letter rest, none => s.short letter rest

end Scan

def conversion? (words : List String) : Option Conversion := do
  let s ← words.foldlM Scan.next {}
  if s.waiting.isSome then none else return s.conversion

/-- The operand of a list of words without options, if there is one. -/
def operand? (words : List String) : Option (Option String) := do
  let c ← conversion? words
  if c = { input := c.input } then return c.input else none

inductive Request where
  | convert (c : Conversion)
  | convertPlainly (input : Option String)
  | inspect (input : Option String)
  | about
  | version
  deriving DecidableEq

/-- The request of a subcommand, given the words after its name; nothing when the word is no name of
a subcommand. -/
def subcommand? (name : String) (words : List String) : Option (Option Request) :=
  match name with
  | "markdown" | "md" => some ((conversion? words).map .convert)
  | "inspect" => some ((operand? words).map .inspect)
  | "version" => some (if operand? words = some none then some .about else none)
  | _ => none

/-- The request of a list of words after the given operand. A subcommand may follow an operand, which
is then passed over. -/
def requestAfter (input : Option String) : List String → Option Request
  | [] => some (.convertPlainly input)
  | word :: words =>
    match subcommand? word words with
    | some request => request
    | none =>
      let t := word.toList
      match Word.ofChars t with
      | .endOfOptions => do
        let c ← words.foldlM (fun (c : Conversion) w => c.operand w.toList) { input }
        return .convertPlainly c.input
      | .long name value => if name = "version".toList ∧ value = none then some .version else none
      | .short letter _ => if letter = 'V' then some .version else none
      | .plain => do
        let c ← ({ input } : Conversion).operand t
        requestAfter c.input words

/-- The request of a command line, or nothing when it has no meaning. -/
def request? (words : List String) : Option Request := requestAfter none words

end RichDoc.Command
