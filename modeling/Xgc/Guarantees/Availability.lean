import Xgc.Guarantees.MinorLosses
import Xgc.Guarantees.Registration

/-! What a client can count on when memory is short: a young object is always to be had. -/

namespace Xgc

open Lib (Run)

variable {w : GenWorld}

end Xgc
