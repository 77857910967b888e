import RichDoc.Main
import RichDoc.Proofs.Converter.Concatenation
import RichDoc.Proofs.Converter.Strictness
import RichDoc.Proofs.Document.Violations
import RichDoc.Proofs.Markdown.Conservation
import RichDoc.Proofs.Markdown.OutlineReader
import RichDoc.Proofs.Document.Counts
import RichDoc.Proofs.Document.Names
import RichDoc.Proofs.Converter.Counters
import RichDoc.Proofs.Converter.Noninterference
import RichDoc.Proofs.Converter.Routes
import RichDoc.Proofs.Json.Grammar
import RichDoc.Proofs.Json.Soundness
import RichDoc.Proofs.Json.Nesting
import RichDoc.Proofs.Converter.Passthrough
import RichDoc.Proofs.Markdown.CodeSpan
import RichDoc.Proofs.Markdown.CodeBlock
import RichDoc.Proofs.Markdown.TableReader
import RichDoc.Proofs.Boundary
import RichDoc.Proofs.Markdown.ItemReader
import RichDoc.Proofs.Markdown.Numbering
import RichDoc.Proofs.Document.Depth
import RichDoc.Proofs.Document.Truncation
import RichDoc.Proofs.Markdown.Marks
import RichDoc.Proofs.Markdown.InlineWords
import RichDoc.Proofs.Document.NormalForm
import RichDoc.Proofs.Markdown.CellWords
import RichDoc.Proofs.Text.Seams
import RichDoc.Proofs.Text.Indentation
import RichDoc.Proofs.Document.Provenance
