import StackCodegen.Artifact.DefaultPath
import StackCodegen.Artifact.Report
import StackCodegen.CommandLine.Session
import StackCodegen.FileStore
import StackCodegen.Machine.InputText
import StackCodegen.Main
import StackCodegen.Program.Document
import StackCodegen.Program.Variables
import StackCodegen.Settings.Store
import StackCodegen.Proofs.ClassFile.EncodedText
import StackCodegen.Proofs.ClassFile.RoundTrip
import StackCodegen.Proofs.Managed.ClassConstants
import StackCodegen.Proofs.Managed.ConsoleRuns
import StackCodegen.Proofs.Managed.Faults
import StackCodegen.Proofs.Managed.FirstOffence
import StackCodegen.Proofs.Managed.DebugInfo
import StackCodegen.Proofs.Managed.FrameSafety
import StackCodegen.Proofs.Machine.Requests
import StackCodegen.Proofs.Managed.Preservation
import StackCodegen.Proofs.Managed.SlotAllocation
import StackCodegen.Proofs.Managed.StackBounds
import StackCodegen.Proofs.Managed.ClassLimits
import StackCodegen.Proofs.Managed.StatementPlaces
import StackCodegen.Proofs.Native.Acceptance
import StackCodegen.Proofs.Native.Comments
import StackCodegen.Proofs.Native.ControlFlow
import StackCodegen.Proofs.Native.FrameLayout
import StackCodegen.Proofs.Native.FunctionOrder
import StackCodegen.Proofs.Native.Parameters
import StackCodegen.Proofs.Native.References
import StackCodegen.Proofs.Native.StackSafety
import StackCodegen.Proofs.Native.Symbols
import StackCodegen.Proofs.Native.Traps
import StackCodegen.Proofs.Native.UnsetLocals
import StackCodegen.Proofs.Machine.Limits
import StackCodegen.Proofs.Machine.Termination
import StackCodegen.Proofs.Json.Lexer
import StackCodegen.Proofs.Program.Store
import StackCodegen.Proofs.Json.Reader
import StackCodegen.Proofs.Program.Document
