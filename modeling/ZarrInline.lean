import ZarrInline.Numeric.Shortest
import ZarrInline.Text.Unicode
import ZarrInline.Text.Base64
import ZarrInline.Json.Writer
import ZarrInline.TypeScript.Durability
import ZarrInline.TypeScript.Serialization
import ZarrInline.TypeScript.Conformance
import ZarrInline.Python.Store
import ZarrInline.Rust.Persistence
import ZarrInline.Conformance.Atomicity
import ZarrInline.Conformance.Determinism
import ZarrInline.Conformance.Agreement
import ZarrInline.Conformance.Skipping
import ZarrInline.Rust.Lenient
import ZarrInline.Python.Conversion
import ZarrInline.Rust.Overlay
import ZarrInline.Rust.Conformance
import ZarrInline.Conformance.Overflow
import ZarrInline.Conformance.Readability
import ZarrInline.Python.FileBacking
import ZarrInline.Python.Verification
import ZarrInline.Python.Fallback
import ZarrInline.Conformance.Ordering
import ZarrInline.Rust.Hierarchy
import ZarrInline.Conformance.Layout
import ZarrInline.Conformance.NormalForm
import ZarrInline.TypeScript.Payload
import ZarrInline.TypeScript.Placement
import ZarrInline.TypeScript.RoundTrip
import ZarrInline.Conformance.Acceptance
import ZarrInline.Locking.Linearization
import ZarrInline.Rust.Concurrency
import ZarrInline.Backed.KeyMap
import ZarrInline.Python.Listing
import ZarrInline.Python.Refinement
import ZarrInline.Python.Views
import ZarrInline.Rust.Refinement
import ZarrInline.Conformance.Printing
import ZarrInline.Python.StringBacking
import ZarrInline.Rust.Chunks
