import Cecore.Analysis.Il2CppBinary
import Cecore.Analysis.Il2CppBounds
import Cecore.Analysis.Il2CppHierarchy
import Cecore.Analysis.Il2CppLayout
import Cecore.Analysis.Il2CppMetadata
import Cecore.Analysis.Il2CppMethods
import Cecore.Analysis.MonoDump
import Cecore.Analysis.Signature
import Cecore.Analysis.StructureTools
import Cecore.AutoAsm.AnonymousLabels
import Cecore.AutoAsm.Assertions
import Cecore.AutoAsm.Atomicity
import Cecore.AutoAsm.BranchChoice
import Cecore.AutoAsm.Check
import Cecore.AutoAsm.DataValues
import Cecore.AutoAsm.Execute
import Cecore.AutoAsm.Ledger
import Cecore.AutoAsm.NamedLabels
import Cecore.AutoAsm.Phases
import Cecore.AutoAsm.Session
import Cecore.AutoAsm.StructLayout
import Cecore.AutoAsm.Substitution
import Cecore.AutoAsm.Surroundings
import Cecore.AutoAsm.SymbolOwnership
import Cecore.AutoAsm.Undo
import Cecore.AutoAsm.UniqueAob
import Cecore.Core.GuestView
import Cecore.Core.ScalarText
import Cecore.Debug.Activations
import Cecore.Debug.BreakpointManager
import Cecore.Debug.Breakpoints
import Cecore.Debug.CodeBytes
import Cecore.Debug.GdbRemote
import Cecore.Debug.HitAccounting
import Cecore.Debug.Moves
import Cecore.Debug.OriginalText
import Cecore.Debug.RunUntil
import Cecore.Debug.Session
import Cecore.Debug.Signals
import Cecore.Debug.SoftwareWatch
import Cecore.Debug.ThreadSets
import Cecore.Debug.ThreadView
import Cecore.Debug.TraceDiscipline
import Cecore.Debug.TraceRings
import Cecore.Debug.Tracee
import Cecore.Debug.Tracer
import Cecore.Debug.Transparency
import Cecore.Debug.Turns
import Cecore.Debug.WatchExactness
import Cecore.Debug.Watchpoints
import Cecore.Expression.Failure
import Cecore.Expression.ModuleOffset
import Cecore.Expression.Parser
import Cecore.Expression.Sum
import Cecore.Library.Ancestry
import Cecore.Library.BitMask
import Cecore.Library.BreadthFirst
import Cecore.Library.CLexer
import Cecore.Library.CPhase
import Cecore.Library.CTemplate
import Cecore.Library.CallStack
import Cecore.Library.Characters
import Cecore.Library.CheckedBuffer
import Cecore.Library.Effects
import Cecore.Library.Elements
import Cecore.Library.FileStream
import Cecore.Library.Forest
import Cecore.Library.Journal
import Cecore.Library.LittleEndian
import Cecore.Library.Obligations
import Cecore.Library.Occurrences
import Cecore.Library.Stride
import Cecore.Platform.Blocks
import Cecore.Platform.InjectionTransparency
import Cecore.Platform.Injector
import Cecore.Platform.LinuxProcess
import Cecore.Platform.MonoDebugger
import Cecore.Platform.NearAllocation
import Cecore.Platform.ProcessHandle
import Cecore.Platform.ReadMany
import Cecore.Platform.ResidentRuns
import Cecore.Platform.SimpleHook
import Cecore.Platform.Target
import Cecore.Plugins.ScaledWaits
import Cecore.Plugins.Speedhack
import Cecore.Pointer.BuildMap
import Cecore.Pointer.Completeness
import Cecore.Pointer.Dereference
import Cecore.Pointer.PathRoundTrip
import Cecore.Pointer.PathText
import Cecore.Pointer.PointerFiles
import Cecore.Pointer.PointerMap
import Cecore.Pointer.ScanWithMap
import Cecore.Pointer.Shards
import Cecore.Pointer.Soundness
import Cecore.Pointer.Window
import Cecore.Remote.Ceserver
import Cecore.Remote.LockStep
import Cecore.Remote.Protocol
import Cecore.Remote.RemoteDebugger
import Cecore.Scanner.ExactRescan
import Cecore.Scanner.Exactness
import Cecore.Scanner.FastScan
import Cecore.Scanner.FirstScan
import Cecore.Scanner.Grouped
import Cecore.Scanner.Matcher
import Cecore.Scanner.NaiveScan
import Cecore.Scanner.NextScan
import Cecore.Scanner.PageSkipping
import Cecore.Scanner.Pattern
import Cecore.Scanner.PatternGrammar
import Cecore.Scanner.Rescan
import Cecore.Scanner.ScanChain
import Cecore.Scanner.ScanConfig
import Cecore.Scanner.ScanResult
import Cecore.Scanner.Snapshot
import Cecore.Scanner.StorageRoundTrip
import Cecore.Scanner.StoredResult
import Cecore.Scanner.Visits
import Cecore.Symbols.SymbolResolver
import Cecore.Symbols.UserLabels
import Cecore.Table.AddressList
import Cecore.Table.Collapse
import Cecore.Table.FormatAgreement
import Cecore.Table.Isolation
import Cecore.Table.JsonFile
import Cecore.Table.JsonReads
import Cecore.Table.JsonRoundTrip
import Cecore.Table.JsonText
import Cecore.Table.PointerExpression
import Cecore.Table.Protected
import Cecore.Table.Trainer
import Cecore.Table.TrainerSource
import Cecore.Table.Types
import Cecore.Table.XmlEntry
import Cecore.Table.XmlFields
import Cecore.Table.XmlForest
import Cecore.Table.XmlHierarchy
import Cecore.Table.XmlHotkeys
import Cecore.Table.XmlLoad
import Cecore.Table.XmlPieces
import Cecore.Table.XmlReading
import Cecore.Table.XmlRoundTrip
import Cecore.Table.XmlSave
import Cecore.Table.XmlTags
import Cecore.Table.XmlText
import Cecore.Analysis.PeExports
import Cecore.Arch.EffectiveAddress
import Cecore.AutoAsm.BlockExpansion
import Cecore.Kernel.ChunkedTransfer
import Cecore.Kernel.TransferAccounts
import Cecore.Platform.ChildFollowing
import Cecore.Symbols.ElfBounds
