import Cranelift.Lib.ParentForest
import Cranelift.Lib.EqvClosure
import Cranelift.Lib.AList
import Cranelift.Lib.Representatives
import Cranelift.Lib.Worklist
import Cranelift.Lib.Loops
import Cranelift.Isle.DisjointSets
import Cranelift.Isle.DisjointSetsRefinement
import Cranelift.Isle.Lexer
import Cranelift.Isle.Sema
import Cranelift.Isle.TrieAgain
import Cranelift.Isle.Serialize
import Cranelift.Veri.Expand
import Cranelift.Aarch64.ImmLogic
import Cranelift.Veri.Reachability
import Cranelift.Veri.Expander
import Cranelift.Veri.ChainingCalls
import Cranelift.Bitset.Scalar
import Cranelift.Bitset.Compound
import Cranelift.Lib.KeyedList
import Cranelift.Entity.Sparse
import Cranelift.Pulley.Stack
import Cranelift.Lib.Slice
import Cranelift.Entity.List
import Cranelift.Entity.ListBlocks
import Cranelift.Entity.ListOps
import Cranelift.Entity.ListGrow
import Cranelift.Entity.ListEdit
import Cranelift.Entity.ListSystem
import Cranelift.Lib.Smt
import Cranelift.Lib.LeadingZeros
import Cranelift.Veri.Solver
import Cranelift.Veri.Encoded.Basic
import Cranelift.Veri.Encoded.Popcnt
import Cranelift.Veri.Encoded.Rev
import Cranelift.Veri.Encoded.Clz
import Cranelift.Veri.Encoded.Cls
import Cranelift.Lib.PartialCmp
import Cranelift.Veri.Types
import Cranelift.Veri.TypeInference
import Cranelift.Lib.BitFields
import Cranelift.Aarch64.AsimdFpModImm
import Cranelift.Lib.FiniteHeight
import Cranelift.Veri.TypeSolver
import Cranelift.Lib.Numerals
import Cranelift.Ir.Immediates
import Cranelift.Ir.IntegerImmediates
import Cranelift.Lib.BinaryFloat
import Cranelift.Ir.IeeeOrder
import Cranelift.Lib.StreamParser
import Cranelift.Pulley.Bytecode
import Cranelift.Pulley.Decode
import Cranelift.Pulley.Interp
import Cranelift.Pulley.Patch
