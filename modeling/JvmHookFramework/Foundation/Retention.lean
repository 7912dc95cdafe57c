/-
  Foundation/Retention.lean --- what lies below the top of a stack.

  A step pushes on a stack or pops from it, so of the stacks before and after it one is the
  end of the other.  A run then keeps the lower part of its first stack for as long as the
  stack is not shorter than this part.
-/
import JvmHookFramework.Foundation.Transition

set_option autoImplicit false

namespace JvmHookFramework.Foundation

section

variable {α : Type}

/-- The stack is pushed on or popped, by any number of entries. -/
def PushesOrPops (before after : List α) : Prop := before <:+ after ∨ after <:+ before

theorem PushesOrPops.refl (stack : List α) : PushesOrPops stack stack :=
  Or.inl (List.suffix_refl stack)

theorem PushesOrPops.push (stack : List α) (x : α) : PushesOrPops stack (x :: stack) :=
  Or.inl (List.suffix_cons x stack)

theorem PushesOrPops.pop (stack : List α) (x : α) : PushesOrPops (x :: stack) stack :=
  Or.inr (List.suffix_cons x stack)

theorem PushesOrPops.retains {before after base : List α} (h : PushesOrPops before after)
    (hbase : base <:+ before) (hlength : base.length ≤ after.length) : base <:+ after := by
  rcases h with hpush | hpop
  · exact hbase.trans hpush
  · exact List.suffix_of_suffix_length_le hbase hpop hlength

variable {σ ℓ : Type} {step : σ → ℓ → Option σ} {stack : σ → List α}

/-- The part of the stack below which a run never gets is there at the end of the run. -/
theorem retained_of_takes
    (hstep : ∀ s l s', step s l = some s' → PushesOrPops (stack s) (stack s'))
    {base : List α} {ls : List ℓ} {s s' : σ} (hbase : base <:+ stack s)
    (hrun : run step s ls = some s')
    (hstays : ∀ u l, Takes step s ls u l → base.length ≤ (stack u).length)
    (hend : base.length ≤ (stack s').length) : base <:+ stack s' := by
  let inv : σ → Prop := fun u => base.length ≤ (stack u).length → base <:+ stack u
  let ok : σ → ℓ → Prop := fun u _ => base.length ≤ (stack u).length
  refine @run_invariant_of_takes _ _ step inv ok ?_ ls s s' (fun _ => hbase) hrun hstays hend
  intro u l u' hinv hlong hu hlong'
  exact (hstep u l u' hu).retains (hinv hlong) hlong'

end

end JvmHookFramework.Foundation
