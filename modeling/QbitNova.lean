import QbitNova.Library.Transition
import QbitNova.Library.Cells
import QbitNova.Library.Checks
import QbitNova.Library.LittleEndian
import QbitNova.Library.CText
import QbitNova.Library.FileLock
import QbitNova.Device.Wire
import QbitNova.Device.Frontend
import QbitNova.Device.FrontendSystem
import QbitNova.Device.FrontendMoves
import QbitNova.Device.FrontendOwnership
import QbitNova.Device.FrontendContract
import QbitNova.Device.FrontendChecks
import QbitNova.Device.FrontendCounters
import QbitNova.Device.FrontendSessions
import QbitNova.Device.FrontendCancel
import QbitNova.Device.FrontendLate
import QbitNova.Device.FrontendStates
import QbitNova.Device.Processes
import QbitNova.Device.DeviceIo
import QbitNova.Language.Lexer
import QbitNova.Language.Parser
import QbitNova.Language.ParserBounds
import QbitNova.Language.ParserCells
import QbitNova.Language.RoundTrip
import QbitNova.Language.Lexical
import QbitNova.Language.LexerStorage
import QbitNova.Library.Doubles
import QbitNova.Library.Sweep
import QbitNova.Library.ExactReals
import QbitNova.Library.Selection
import QbitNova.Library.BitGates
import QbitNova.Library.Numbering
import QbitNova.Library.Words
import QbitNova.Library.Triples
import QbitNova.Library.Storage
import QbitNova.Library.Generators
import QbitNova.Library.Registers
import QbitNova.Library.Numerals
import QbitNova.Library.OpenQasm
import QbitNova.Library.Grids
import QbitNova.Quantum.Kernel
import QbitNova.Quantum.Gates
import QbitNova.Quantum.Sampling
import QbitNova.Quantum.Exact
import QbitNova.Quantum.KernelRuns
import QbitNova.Quantum.Generator
import QbitNova.Quantum.Circuit
import QbitNova.Quantum.Simulators
import QbitNova.Quantum.Entrywise
import QbitNova.Quantum.Measurement
import QbitNova.Quantum.CircuitLoad
import QbitNova.Quantum.CircuitReading
import QbitNova.Quantum.CircuitGrammar
import QbitNova.Quantum.GateAlgebra
import QbitNova.Quantum.CircuitGates
import QbitNova.Quantum.Shots
import QbitNova.Quantum.Unitary
import QbitNova.Quantum.Born
import QbitNova.Library.Rounding
import QbitNova.Device.Norm
import QbitNova.Device.Daemon
import QbitNova.Device.Adapter
import QbitNova.Device.Pipeline
import QbitNova.Device.Replies
import QbitNova.Device.AdapterCancel
import QbitNova.Device.AdapterDescriptors
import QbitNova.Language.VM
import QbitNova.Language.CompilerCorrect
import QbitNova.Language.ProgramLogic
import QbitNova.Language.CompilerStorage
import QbitNova.Language.Termination
import QbitNova.Language.Consumers
import QbitNova.Language.State2Runs
import QbitNova.Language.QasmExport
import QbitNova.Language.VMInvariant
import QbitNova.Language.Marginals
import QbitNova.Language.Lookup
import QbitNova.Language.Bell
import QbitNova.Language.Links
import QbitNova.Language.Qbc
import QbitNova.Language.Interpreter
import QbitNova.Language.Runners
import QbitNova.Language.Drivers
import QbitNova.Language.OtherwiseRuns
import QbitNova.Language.Messages
import QbitNova.Tools.Arguments
import QbitNova.Device.Service
import QbitNova.Device.ServiceAnswers
import QbitNova.Device.ServiceStop
import QbitNova.Quantum.CircuitExport
import QbitNova.Language.QasmReading
import QbitNova.Quantum.QasmMeaning
