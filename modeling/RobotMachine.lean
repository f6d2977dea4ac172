import RobotMachine.Assembly.Diagnostic
import RobotMachine.Console.Workspace
import RobotMachine.Main
import RobotMachine.Proofs.LittleEndian
import RobotMachine.Service.Queue
import RobotMachine.Proofs.Memory
import RobotMachine.Proofs.Outcome
import RobotMachine.Proofs.Undo
import RobotMachine.Proofs.Reachable
import RobotMachine.Proofs.TimeTravel
import RobotMachine.Proofs.Codec
import RobotMachine.Proofs.Image
import RobotMachine.Proofs.CodeLayout
import RobotMachine.Proofs.CodeEmission
import RobotMachine.Proofs.Numerals
import RobotMachine.Proofs.Words
import RobotMachine.Proofs.OperandText
import RobotMachine.Proofs.Disassembly
import RobotMachine.Proofs.Lifecycle
import RobotMachine.Proofs.GuardedCode
import RobotMachine.Proofs.FailingCalls
import RobotMachine.Proofs.DataExtent
import RobotMachine.Proofs.AssembledProgram
import RobotMachine.Proofs.LoadedCode
import RobotMachine.Proofs.AssembledImage
import RobotMachine.Proofs.SelfDelimiting
import RobotMachine.Proofs.InterruptedRun
import RobotMachine.Proofs.FreshLoad
import RobotMachine.Proofs.SequentialService
import RobotMachine.Proofs.LoadableProgram
import RobotMachine.Proofs.OperandLists
import RobotMachine.Proofs.ByteMap
import RobotMachine.Proofs.ByteWalk
import RobotMachine.Proofs.LiteralWalk
import RobotMachine.Proofs.LineScan
import RobotMachine.Proofs.ExpressionScan
import RobotMachine.Proofs.OperandScan
import RobotMachine.Proofs.SourceWidth
import RobotMachine.Proofs.LayoutInPlace
import RobotMachine.Proofs.AssemblyInPlace
import RobotMachine.Proofs.ScannedLines
import RobotMachine.Proofs.SettledSymbols
import RobotMachine.Proofs.DataStretches
import RobotMachine.Proofs.DataContents
import RobotMachine.Proofs.EarlyValues
import RobotMachine.Proofs.WaitingLabels
import RobotMachine.Proofs.SameText
import RobotMachine.Proofs.AlikeLines
import RobotMachine.Proofs.AlikePrograms
import RobotMachine.Proofs.LineContents
import RobotMachine.Proofs.Respelling
import RobotMachine.Proofs.QuotedText
import RobotMachine.Proofs.LabelledLines
import RobotMachine.Proofs.UsableLabels
import RobotMachine.Proofs.SplitLines
import RobotMachine.Proofs.LinePlaces
import RobotMachine.Proofs.ErrorPlaces
import RobotMachine.Proofs.Caret
import RobotMachine.Proofs.FittingValues
import RobotMachine.Proofs.LineMap
import RobotMachine.Proofs.LineStatements
import RobotMachine.Proofs.ReportedErrors
import RobotMachine.Proofs.Transfers
import RobotMachine.Proofs.StepOutcomes
import RobotMachine.Proofs.StoreEvents
import RobotMachine.Proofs.IteratedSteps
import RobotMachine.Proofs.PublishedSymbols
import RobotMachine.Proofs.MachineRuns
import RobotMachine.Proofs.ExactFlags
import RobotMachine.Proofs.Comparisons
import RobotMachine.Proofs.OneBitShifts
import RobotMachine.Proofs.MachineStack
import RobotMachine.Proofs.DecodedWords
import RobotMachine.Proofs.LoadedProgram
import RobotMachine.Proofs.NestedUndo
import RobotMachine.Proofs.StepPredicates
import RobotMachine.Proofs.CutImages
import RobotMachine.Proofs.TracedRuns
import RobotMachine.Proofs.TraceLines
import RobotMachine.Proofs.SecondLook
