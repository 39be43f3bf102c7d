import WireCodec.Game.Message
import WireCodec.Program.Instance
import WireCodec.Program.Run
import WireCodec.Schema.Decode
import WireCodec.Source.Tree
import WireCodec.Proofs.ItemRoundTrip
import WireCodec.Proofs.Planning
import WireCodec.Proofs.ProgramRoundTrip
import WireCodec.Proofs.Packet
import WireCodec.Proofs.MessageItems
import WireCodec.Proofs.MessageRoundTrip
import WireCodec.Proofs.Outcomes
import WireCodec.Proofs.Rounding
import WireCodec.Proofs.Repacking
import WireCodec.Proofs.Bindings
import WireCodec.Proofs.Words
import WireCodec.Proofs.TreeScopes
import WireCodec.Proofs.ModuleText
import WireCodec.Proofs.LayoutNames
import WireCodec.Proofs.SpelledNames
import WireCodec.Proofs.ModuleNames
import WireCodec.Proofs.Shadowing
import WireCodec.Proofs.PlacedModules
import WireCodec.Proofs.NameClashes
import WireCodec.Proofs.PacketStream
import WireCodec.Proofs.WireLayout
import WireCodec.Proofs.FieldReads
import WireCodec.Proofs.PriorState
import WireCodec.Proofs.Incremental
import WireCodec.Proofs.Truncation
import WireCodec.Proofs.ReadPrograms
import WireCodec.Proofs.ItemSequences
import WireCodec.Proofs.References
import WireCodec.Proofs.DispatchTables
import WireCodec.Proofs.Verdicts
import WireCodec.Proofs.Locality
import WireCodec.Proofs.WriterOperations
import WireCodec.Proofs.SizeLimits
import WireCodec.Proofs.Resetting
import WireCodec.Proofs.VarintReads
import WireCodec.Proofs.VarintWords
import WireCodec.Proofs.WellFormed
import WireCodec.Proofs.Emission
import WireCodec.Proofs.Framing
import WireCodec.Proofs.ProtocolPrograms
import WireCodec.Proofs.IntegerCasts
import WireCodec.Proofs.OpenValues
import WireCodec.Proofs.ShortestVarints
import WireCodec.Proofs.FilePaths
import WireCodec.Proofs.ModuleParts
import WireCodec.Proofs.ExactImports
import WireCodec.Proofs.TreeContents
import WireCodec.Proofs.SchemaReading
import WireCodec.Proofs.WordBreaks
import WireCodec.Proofs.Identifiers
import WireCodec.Proofs.ModulePlaces
import WireCodec.Proofs.Registrations
import WireCodec.Proofs.NestedCode
import WireCodec.Proofs.ParentChains
import WireCodec.Proofs.FunctionBodies
