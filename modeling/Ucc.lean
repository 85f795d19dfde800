import Ucc.Cpp.Text
import Ucc.Cpp.Macro
import Ucc.Cpp.Directive
import Ucc.Cpp.Conditional
import Ucc.Cpp.Expr
import Ucc.Cpp.ExprGrammar
import Ucc.Cc1.FoldSue
import Ucc.Lib.Interval
import Ucc.Cc1.Storage
import Ucc.Cc1.Overlap
import Ucc.Cpp.Eval
import Ucc.Cpp.EvalBalance
import Ucc.Cpp.EvalHalts
import Ucc.Cpp.ObjectExpand
import Ucc.Cc1.Blk
import Ucc.Cc1.BlkFlush
import Ucc.Cc1.Call
import Ucc.Cc1.ConstOp
import Ucc.Cc1.Inline
import Ucc.Cc1.NumberFold
import Ucc.Cc1.TypeCmp
import Ucc.Cc1.TypeNav
import Ucc.Cc1.Variadic
import Ucc.Lib.Keyed
import Ucc.Util.Dynmap
import Ucc.Util.Escape
import Ucc.Cc1.Stack
import Ucc.Cc1.StackSlots
import Ucc.Cc1.AddrFold
import Ucc.Cc1.AddrFoldSound
import Ucc.Cc1.CallStack
import Ucc.Cc1.CastFold
import Ucc.Cc1.Declarator
import Ucc.Cc1.DeclaratorReading
import Ucc.Cc1.Dwarf
import Ucc.Cc1.DwarfOffset
import Ucc.Cc1.StackAlign
import Ucc.Cc1.UnsignedFold
import Ucc.Cpp.ExprEval
import Ucc.Cc1.ParseExpr
import Ucc.Cc1.ParseExprGrammar
import Ucc.Cc1.ParseExprReads
import Ucc.Cc1.ParseExprTrees
import Ucc.Cc1.StmtGen
import Ucc.Cc1.StmtGraph
import Ucc.Cc1.StmtKinds
import Ucc.Cc1.StmtSim
import Ucc.Cc1.CompoundAssign
import Ucc.Cc1.CondType
import Ucc.Cc1.ConstTruth
import Ucc.Cc1.LiteralType
import Ucc.Cc1.PtrDiff
import Ucc.Cc1.RegCopy
import Ucc.Cc1.StructLayout
import Ucc.Lib.Rooted
import Ucc.Lib.WrapCount
import Ucc.Lib.Narrow
import Ucc.Lib.BitRange
import Ucc.Lib.Moves
import Ucc.Cc1.SlotAlign
import Ucc.Cc1.OutOp
import Ucc.Cc1.OutOpSound
import Ucc.Cc1.PtrStep
import Ucc.Cc1.Bitfield
import Ucc.Cc1.Mem
import Ucc.Cc1.Memcpy
import Ucc.Cc1.Reserve
import Ucc.Cc1.ScopeLeave
import Ucc.Cc1.SaveRegs
import Ucc.Cc1.SaveRegsSound
import Ucc.Cc1.SaveRegsFree
import Ucc.Cc1.SaveRegsLoop
import Ucc.Cc1.BitfieldPromotion
import Ucc.Lib.Links
import Ucc.Cc1.DeclChain
import Ucc.Cc1.Tentative
import Ucc.Lib.Qsort
import Ucc.Cc1.Members
import Ucc.Cc1.SwitchDups
import Ucc.Cc1.SwitchDupsStored
import Ucc.Cc1.Strlen
import Ucc.Cc1.Offsetof
import Ucc.Cc1.CheckedArith
import Ucc.Cc1.SwitchChain
import Ucc.Cc1.StmtPassable
import Ucc.Cc1.PassableSound
import Ucc.Util.ReadNum
import Ucc.Cc1.Comment
import Ucc.Cc1.StrAppend
import Ucc.Util.Math
import Ucc.Cc1.EnumFold
import Ucc.Cc1.QualReading
import Ucc.Cc1.TypeQualify
import Ucc.Cc1.PrintfGrammar
import Ucc.Cc1.FormatChk
import Ucc.Cc1.FormatArgs
import Ucc.Cc1.TypeAgree
import Ucc.Cc1.Generic
import Ucc.Cc1.TypeDies
import Ucc.Cc1.Redecl
import Ucc.Lib.Leb
import Ucc.Cc1.Leb
import Ucc.Cc1.Truncate
import Ucc.Cpp.Stringise
import Ucc.Lib.Resolve
import Ucc.Util.Path
import Ucc.Cpp.Splice
import Ucc.Cpp.Lexing
import Ucc.Cpp.StripComment
import Ucc.Cpp.Tokens
import Ucc.Cpp.Quotes
import Ucc.Cpp.Arguments
import Ucc.Cpp.PpTokens
import Ucc.Cpp.BodyTokens
import Ucc.Cpp.Substitute
import Ucc.Lib.Block
import Ucc.Util.Dynarray
import Ucc.Cc1.Pack
import Ucc.Cc1.StackRealign
import Ucc.Cc1.ShiftConv
import Ucc.Cc1.VlaSound
import Ucc.Lib.Image
import Ucc.Cc1.AsmInit
import Ucc.Cc1.DataImage
import Ucc.Cc1.DataSound
import Ucc.Cc1.DataStruct
import Ucc.Cc1.DataEmit
import Ucc.Cc1.AutoInit
import Ucc.Cc1.AutoImage
import Ucc.Cc1.AutoSound
import Ucc.Cc1.BraceUp
import Ucc.Cc1.CurrentObject
import Ucc.Cc1.BraceRun
import Ucc.Cc1.BraceUpSound
import Ucc.Cc1.BraceUpLoops
import Ucc.Cc1.BraceUpStart
import Ucc.Cc1.ParseStmt
import Ucc.Cc1.ParseStmtGrammar
import Ucc.Cc1.ParseStmtReads
import Ucc.Cc1.ParseStmtBlocks
import Ucc.Cc1.ParseStmtTargets
