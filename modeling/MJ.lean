import MJ.Folder
import MJ.Main
import MJ.Proofs.Boundaries
import MJ.Proofs.Realization
import MJ.Proofs.Resolution
import MJ.Proofs.Addresses
import MJ.Proofs.Finishing
import MJ.Proofs.Compilation
import MJ.Proofs.Expression.Syntax
import MJ.Proofs.Expression.Correctness
import MJ.Proofs.Statement.Syntax
import MJ.Proofs.Statement.Placement
import MJ.Proofs.Statement.Simulation
import MJ.Proofs.Statement.Allocation
import MJ.Proofs.Statement.Correctness
import MJ.Proofs.Array.Correctness
import MJ.Proofs.Rejection
import MJ.Proofs.Commit
import MJ.Proofs.Limits
import MJ.Proofs.Frames
import MJ.Proofs.Capacity
import MJ.Proofs.Decoding
import MJ.Proofs.ObjectFile
import MJ.Proofs.Guarded.Safety
import MJ.Proofs.Activation
import MJ.Proofs.Request.Session
import MJ.Proofs.Request.Storage
import MJ.Proofs.Request.Constants
import MJ.Proofs.Request.Texts
import MJ.Proofs.Array.Mirroring
import MJ.Proofs.Array.Nesting
import MJ.Proofs.Faulting
import MJ.Proofs.Freshness
import MJ.Proofs.Access.Heap
import MJ.Proofs.Operands
import MJ.Proofs.Access.Generation
import MJ.Proofs.Access.Execution
import MJ.Proofs.Access.Allocation
import MJ.Proofs.Access.Correctness
import MJ.Proofs.ListedCode
import MJ.Proofs.LabelListing
import MJ.Proofs.LabelFile
import MJ.Proofs.Request.Separation
import MJ.Proofs.Codec
import MJ.Proofs.TypeEquality
import MJ.Proofs.StaticAccess
import MJ.Proofs.NumberInput
import MJ.Proofs.WriteOnce
import MJ.Proofs.Histogram
