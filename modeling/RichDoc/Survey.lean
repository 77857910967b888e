import RichDoc.Document.Build
import RichDoc.Json.Printer

/-! A survey of a document: how many nodes it has, of which kinds, and how deep they lie. -/

namespace RichDoc

open Json

structure Survey where
  version : Option Nat
  nodes : Nat
  roots : Nat
  maxDepth : Nat
  skipped : Nat
  kinds : List (String × Nat)
  deriving DecidableEq, Inhabited

namespace Survey

def ofDocument (d : Document) : Survey where
  version := d.version
  nodes := d.size
  roots := d.roots.size
  maxDepth := d.maxDepth
  skipped := d.skipped
  kinds := d.kindCounts

/-- The survey of a JSON text. Malformed parts are left out, and a text without content counts as the
empty document. -/
def ofText (s : String) : Except BuildError Survey :=
  (Document.ofText? { mode := .lenient } s).map fun d => ofDocument (d.getD .empty)

def count (n : Nat) : Value := .number (.integer n)

def toValue (s : Survey) : Value :=
  .object
    [("kinds", .object (s.kinds.map fun (name, n) => (name, count n))),
      ("max_depth", count s.maxDepth), ("node_count", count s.nodes),
      ("skipped", count s.skipped), ("version", (s.version.map count).getD .null)]

end Survey

end RichDoc
