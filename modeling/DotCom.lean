import DotCom.CompileError
import DotCom.Program
import DotCom.Token.Scan
import DotCom.Program.Parse
import DotCom.Word
import DotCom.Instr
import DotCom.Image
import DotCom.Frame
import DotCom.FunctionTable
import DotCom.Compile
import DotCom.Machine.Run
import DotCom.Main
import DotCom.Proofs.WellFormed
import DotCom.Proofs.Slots
import DotCom.Proofs.Placement
import DotCom.Proofs.Machine.Effects
import DotCom.Proofs.Machine.Printing
import DotCom.Proofs.Machine.Streams
import DotCom.Proofs.Machine.Conditions
import DotCom.Proofs.Semantics
import DotCom.Proofs.Balance
import DotCom.Proofs.Rendering
import DotCom.Proofs.Relocation
import DotCom.Proofs.Capacity
import DotCom.Proofs.Extension
import DotCom.Proofs.Renaming
import DotCom.Proofs.Gaps
import DotCom.Proofs.Tiling
import DotCom.Proofs.Diagnostics
import DotCom.Proofs.Parsing.Positions
import DotCom.Proofs.Totality
import DotCom.Proofs.Safety
import DotCom.Proofs.Sessions
import DotCom.Proofs.Lowering.Chains
import DotCom.Proofs.Construction
import DotCom.Proofs.Scopes
import DotCom.Proofs.Simulation.Literals
import DotCom.Proofs.Command.Files
