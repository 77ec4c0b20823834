import PowerFormulas.Catalog.Document
import PowerFormulas.Registry
import PowerFormulas.Json.Spelling
import PowerFormulas.Proofs.Dump.Language
import PowerFormulas.Proofs.Evaluation.Refinement
import PowerFormulas.Proofs.Record.RoundTrip
import PowerFormulas.Proofs.Registry.Reachability
import PowerFormulas.Proofs.Registry.Runs
import PowerFormulas.Proofs.Evaluation.Frame
import PowerFormulas.Proofs.Evaluation.Calls
import PowerFormulas.Proofs.Registry.Listing
import PowerFormulas.Proofs.Catalog.Policies
import PowerFormulas.Proofs.Dump.Collisions
import PowerFormulas.Proofs.Record.Bounds
import PowerFormulas.Proofs.Source.Index
import PowerFormulas.Proofs.Evaluation.Blocking
import PowerFormulas.Proofs.Evaluation.Locality
import PowerFormulas.Proofs.Registry.StoredIds
import PowerFormulas.Proofs.Record.Contents
import PowerFormulas.Proofs.TagMap.Faults
import PowerFormulas.Proofs.Dump.Programs
import PowerFormulas.Proofs.Record.Relocation
import PowerFormulas.Proofs.Cursor.Sequence
