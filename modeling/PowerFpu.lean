import PowerFpu.Architecture
import PowerFpu.Float.Format
import PowerFpu.Float.Arithmetic
import PowerFpu.Host
import PowerFpu.Fpscr
import PowerFpu.Bus
import PowerFpu.Instruction
import PowerFpu.Execution
import PowerFpu.Statistics
import PowerFpu.Json
import PowerFpu.Configuration
import PowerFpu.Core
import PowerFpu.Proofs.Core.Step
import PowerFpu.Proofs.Fpscr.Summaries
import PowerFpu.Proofs.Fpscr.Window
import PowerFpu.Proofs.Core.Ambient
import PowerFpu.Proofs.Fpscr.Accrual
import PowerFpu.Proofs.Core.Run
import PowerFpu.Proofs.Core.Request
import PowerFpu.Proofs.Core.Failure
import PowerFpu.Proofs.Float.Value
import PowerFpu.Proofs.Float.CorrectRounding
import PowerFpu.Proofs.Float.RoundMagnitude
import PowerFpu.Proofs.Float.ExactReal
import PowerFpu.Proofs.Float.DoubleArithmetic
import PowerFpu.Proofs.Float.Ideal
import PowerFpu.Proofs.Float.Representable
import PowerFpu.Proofs.Float.DoubleRounding
import PowerFpu.Proofs.Float.Narrow
import PowerFpu.Proofs.Float.Negation
import PowerFpu.Proofs.Float.SingleRounding
import PowerFpu.Proofs.Core.CorrectArithmetic
import PowerFpu.Proofs.Float.IntegerPart
import PowerFpu.Proofs.Core.IntegerConversion
import PowerFpu.Proofs.Bus.FlatMemory
import PowerFpu.Proofs.Core.ContextSave
import PowerFpu.Proofs.Core.SharedThread
import PowerFpu.Proofs.Core.StickyExceptions
import PowerFpu.Proofs.Execution.TransferForms
import PowerFpu.Proofs.Core.TransferProtocol
import PowerFpu.Proofs.Core.Narrowing
import PowerFpu.Proofs.Bus.ByteMap
import PowerFpu.Proofs.Instruction.Fields
import PowerFpu.Proofs.Core.RecordBit
import PowerFpu.Proofs.Core.DetachedHost
import PowerFpu.Proofs.Execution.Comparison
import PowerFpu.Proofs.Core.ResultDescription
import PowerFpu.Proofs.Instruction.Decoding
import PowerFpu.Proofs.Fpscr.MaskedWrite
import PowerFpu.Proofs.Core.ControlWrites
import PowerFpu.Proofs.Core.Accounting
import PowerFpu.Proofs.Core.Frame
import PowerFpu.Proofs.Host.Nesting
import PowerFpu.Proofs.Core.Settings
import PowerFpu.Proofs.Core.FusedExceptions
import PowerFpu.Proofs.Core.NegatedForms
import PowerFpu.Proofs.Json.Grammar
import PowerFpu.Proofs.Json.Scanner
import PowerFpu.Proofs.Json.Reader
import PowerFpu.Proofs.Configuration.Decoding
import PowerFpu.Proofs.Core.OperandIndependence
import PowerFpu.Proofs.Core.DrainedFields
import PowerFpu.Proofs.Core.Restart
import PowerFpu.Proofs.Core.RootEstimate
import PowerFpu.Proofs.Statistics.Percentage
import PowerFpu.Proofs.Statistics.Table
import PowerFpu.Proofs.Statistics.Report
