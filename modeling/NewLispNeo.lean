import NewLispNeo.OperatorCode
import NewLispNeo.Conditionals
import NewLispNeo.JumpTargets
import NewLispNeo.StackDiscipline
import NewLispNeo.TailCalls
import NewLispNeo.Protection
import NewLispNeo.Control
import NewLispNeo.Coherence
import NewLispNeo.BigintInt64
import NewLispNeo.BigintDivision
import NewLispNeo.Grammar
import NewLispNeo.SymbolRuns
import NewLispNeo.DictionaryMap
import NewLispNeo.Printer
import NewLispNeo.TokenText
import NewLispNeo.RedBlack
import NewLispNeo.SymbolTree
import NewLispNeo.ContextWalk
import NewLispNeo.CopyRuns
import NewLispNeo.Restoring
import NewLispNeo.Utf8
import NewLispNeo.TreeOrder
import NewLispNeo.CompareOrder
import NewLispNeo.Unify
import NewLispNeo.UnifyResidue
import NewLispNeo.Unification
import NewLispNeo.UnificationRuns
import NewLispNeo.UnifyTerms
import NewLispNeo.UnifyRuns
import NewLispNeo.Json
import NewLispNeo.JsonText
import NewLispNeo.JsonDoc
import NewLispNeo.JsonScan
import NewLispNeo.JsonReads
import NewLispNeo.JsonRuns
import NewLispNeo.JsonSafe
import NewLispNeo.JsonRfc
import NewLispNeo.Binary64Round
import NewLispNeo.Binary32
import NewLispNeo.Pack
import NewLispNeo.PackFormat
import NewLispNeo.PackRuns
import NewLispNeo.Calendar
import NewLispNeo.DateValue
import NewLispNeo.SpawnRuns
import NewLispNeo.MessageFraming
import NewLispNeo.Constants
import NewLispNeo.HttpContainment
import NewLispNeo.Rotation
import NewLispNeo.Slicing
import NewLispNeo.SortErrors
import NewLispNeo.ReplaceList
import NewLispNeo.ListMatch
import NewLispNeo.Factor
import NewLispNeo.Gcd
import NewLispNeo.FileSearch
import NewLispNeo.LineReading
import NewLispNeo.FindAll
import NewLispNeo.BufferSearch
import NewLispNeo.HttpPage
import NewLispNeo.CgiCommand
import NewLispNeo.BigintText
import NewLispNeo.IntegerOps
import NewLispNeo.IntegerLoops
import NewLispNeo.BlockRelease
import NewLispNeo.FourierLists
import NewLispNeo.CompiledLambdas
import NewLispNeo.MatrixInverse
import NewLispNeo.SharedValues
