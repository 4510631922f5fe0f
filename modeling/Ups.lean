import Ups.AddrLines
import Ups.AggrLayout
import Ups.AllocPool
import Ups.ArgBraces
import Ups.ArgGlob
import Ups.ArgLparse
import Ups.ArithConversions
import Ups.Bitfields
import Ups.BreakpointToggles
import Ups.Breakpoints
import Ups.BumpTarget
import Ups.ByteParser
import Ups.Callbacks
import Ups.CheckedDivision
import Ups.CodeLayout
import Ups.CodeText
import Ups.Comments
import Ups.Compaction
import Ups.CompileExpr
import Ups.Completion
import Ups.CxFile
import Ups.CxLibrary
import Ups.CxRoundTrip
import Ups.CxSymtab
import Ups.DeclTypes
import Ups.Declarators
import Ups.Demand
import Ups.Disassemble
import Ups.DisplayEdits
import Ups.DisplayedInts
import Ups.Execute
import Ups.ExprBlocks
import Ups.ExprCode
import Ups.ExprMeaning
import Ups.Exprs
import Ups.ExtFlags
import Ups.FdTable
import Ups.FieldValues
import Ups.FileLines
import Ups.FirstRewrite
import Ups.Formf
import Ups.FuncPointers
import Ups.FuncTable
import Ups.GetJumps
import Ups.HashApply
import Ups.HashRuns
import Ups.HashTab
import Ups.HashValues
import Ups.HeapList
import Ups.History
import Ups.Initialisers
import Ups.LayoutLoops
import Ups.Lbuf
import Ups.LbufBlocks
import Ups.LbufEdits
import Ups.LbufFailure
import Ups.LeBytes
import Ups.LexNumbers
import Ups.LexStrings
import Ups.LineEntries
import Ups.LineLayout
import Ups.LineTables
import Ups.LineWidths
import Ups.Lineinfo
import Ups.LineinfoRuns
import Ups.LinkFailure
import Ups.LinkInfo
import Ups.LinkLibrary
import Ups.LinkNames
import Ups.LinkedPath
import Ups.LocalStores
import Ups.Locals
import Ups.Longjmp
import Ups.Machine
import Ups.MacroExpansion
import Ups.MacroTable
import Ups.Marking
import Ups.MatchingFuncs
import Ups.MergeSort
import Ups.NarrowInts
import Ups.NextPc
import Ups.NodeArena
import Ups.NodeSort
import Ups.ObjIndex
import Ups.ObjLinks
import Ups.ObjRuns
import Ups.ObjTree
import Ups.Opcodes
import Ups.OperandForms
import Ups.Packing
import Ups.PixelCounts
import Ups.PrintfFormats
import Ups.ProcOpcodes
import Ups.PropChanges
import Ups.QuotedWords
import Ups.Restarts
import Ups.Ring
import Ups.Selection
import Ups.SiblingLists
import Ups.SortedScan
import Ups.SourceFds
import Ups.SourceFile
import Ups.SourceRuns
import Ups.SrcBuf
import Ups.StackWords
import Ups.StateFile
import Ups.StateFileRuns
import Ups.Statements
import Ups.StepJumps
import Ups.Strcache
import Ups.StrcacheAges
import Ups.StrcacheEnds
import Ups.StrcacheRuns
import Ups.SwitchCode
import Ups.SwitchDispatch
import Ups.SwitchLabels
import Ups.TagRuns
import Ups.TagScopes
import Ups.Traps
import Ups.Trees
import Ups.TswapFailures
import Ups.TypeToDecl
import Ups.TypesSame
import Ups.Walks
import Ups.Watchpoints
