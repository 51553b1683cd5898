import FieldAccess.Assoc
import FieldAccess.Batch
import FieldAccess.Binary.Format
import FieldAccess.Binary.Number
import FieldAccess.Binary.Shortest
import FieldAccess.Binary.Text
import FieldAccess.Body
import FieldAccess.Catalog
import FieldAccess.ClassFile.Basic
import FieldAccess.ClassFile.Format
import FieldAccess.CommandLine.Arguments
import FieldAccess.CommandLine.Command
import FieldAccess.CommandLine.FileTree
import FieldAccess.CommandLine.Listing
import FieldAccess.Eval.Accessor
import FieldAccess.Eval.Basic
import FieldAccess.Eval.Error
import FieldAccess.Heap.Basic
import FieldAccess.Heap.Snapshot
import FieldAccess.Hierarchy
import FieldAccess.Injection
import FieldAccess.Java.Text
import FieldAccess.Java.Source
import FieldAccess.Json.Basic
import FieldAccess.Json.Number
import FieldAccess.Json.Parser
import FieldAccess.Json.Printer
import FieldAccess.Json.Record
import FieldAccess.Main
import FieldAccess.Program.Basic
import FieldAccess.Program.Json
import FieldAccess.Synthesis
import FieldAccess.Text
import FieldAccess.TypeDesc.Basic
import FieldAccess.TypeDesc.Parser
import FieldAccess.TypeDesc.Token
import FieldAccess.Value.Basic
import FieldAccess.Value.Json
import FieldAccess.Yaml.Buffer
import FieldAccess.Yaml.Cursor
import FieldAccess.Yaml.Document
import FieldAccess.Yaml.Node
import FieldAccess.Yaml.Reading
import FieldAccess.Yaml.Scalar
import FieldAccess.Yaml.Scan
import FieldAccess.Yaml.Token
import FieldAccess.Proofs.Association
import FieldAccess.Proofs.Calls
import FieldAccess.Proofs.Catalogs
import FieldAccess.Proofs.Clients
import FieldAccess.Proofs.Agreement
import FieldAccess.Proofs.Laws
import FieldAccess.Proofs.Sessions
import FieldAccess.Proofs.TypedHeaps
import FieldAccess.Proofs.Batches
import FieldAccess.Proofs.ClassFiles
import FieldAccess.Proofs.FileClients
import FieldAccess.Proofs.FileSessions
import FieldAccess.Proofs.LastWrite
import FieldAccess.Proofs.SequenceFields
import FieldAccess.Proofs.Subtyping
import FieldAccess.Proofs.FailedWrites
import FieldAccess.Proofs.Grafts
import FieldAccess.Proofs.Construction
import FieldAccess.Proofs.Verdicts
import FieldAccess.Proofs.Isolation
import FieldAccess.Proofs.Reruns
import FieldAccess.Proofs.SequenceSlots
import FieldAccess.Proofs.LiveHandles
import FieldAccess.Proofs.Edits
import FieldAccess.Proofs.Unstuck
import FieldAccess.Proofs.Renaming
import FieldAccess.Proofs.Supertypes
import FieldAccess.Proofs.Emission
import FieldAccess.Proofs.Placement
import FieldAccess.Proofs.ClassOrder
import FieldAccess.Proofs.KeptTypes
import FieldAccess.Proofs.ExactCatalogs
import FieldAccess.Proofs.DispatchTables
import FieldAccess.Proofs.TypeGrammar
import FieldAccess.Proofs.TypeTexts
import FieldAccess.Proofs.ProgramJson
import FieldAccess.Proofs.PortableFiles
import FieldAccess.Proofs.SynthesizedTypes
import FieldAccess.Proofs.CommandRuns
import FieldAccess.Proofs.FileTrees
import FieldAccess.Proofs.SourceFiles
import FieldAccess.Proofs.SubtypeSearch
import FieldAccess.Proofs.CallDepth
import FieldAccess.Proofs.Snapshots
import FieldAccess.Proofs.GeneratedAccessors
import FieldAccess.Proofs.NestedSources
import FieldAccess.Proofs.JavaNames
import FieldAccess.Proofs.NullWrites
import FieldAccess.Proofs.SubclassInstances
