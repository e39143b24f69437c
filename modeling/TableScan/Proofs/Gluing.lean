import TableScan.Proofs.Agreement
import TableScan.Proofs.Cuts

namespace TableScan

namespace Operand

end Operand

namespace Expr

open Operand

variable {b : Batch} {e : Expr}

end Expr

namespace Batch

variable {b u : Batch} {bs : List Batch} {s : Schema}

end Batch

namespace ParquetOptions

end ParquetOptions

end TableScan
