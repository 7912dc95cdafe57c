/-
  Foundation/Rank.lean --- runs that a rank bounds.

  Some of the labels of a machine are watched.  When each of them lowers a rank of the
  state and no other label raises it, a run takes no more of them than the rank it starts
  with, however many of the others come in between.
-/
import JvmHookFramework.Foundation.Transition

set_option autoImplicit false

namespace JvmHookFramework.Foundation

section

variable {σ ℓ : Type} {step : σ → ℓ → Option σ} {inv : σ → Prop} {rank : σ → Nat}
  {watched : ℓ → Bool} {ok : ℓ → Prop}

end

end JvmHookFramework.Foundation
