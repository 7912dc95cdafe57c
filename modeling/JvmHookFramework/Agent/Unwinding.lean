/-
  Agent/Unwinding.lean --- callbacks end.

  A thread that enters no further method and prepares no further class has only so much
  left to do: the hooks that its broadcasts have not called yet, and for each activation
  its exit.  Whatever the other threads do, and however the hooks register, unregister and
  use their arguments meanwhile, after a bounded number of its own steps its stack is empty.
  Until then it can go on, unless the hook that its broadcast would call next is not there.
-/
import JvmHookFramework.Agent.Isolation
import JvmHookFramework.Foundation.Rank

set_option autoImplicit false

namespace JvmHookFramework

open Foundation Foundation.SlotChain

namespace Agent

/-- The steps that a frame may still take, when an exit is announced `count` times. -/
def Frame.remaining (count : Nat) : Frame → Nat
  | .method _ => count + 2
  | .entering r none => r.hooks.length + 2
  | .entering r (some i) => r.hooks.length - i + 1
  | .exiting _ bound i _ _ => bound - i + 1
  | .preparing => 1

/-- The steps that a stack may still take; the activation under an exit announcement goes
with it. -/
def remaining (count : Nat) : List Frame → Nat
  | [] => 0
  | .exiting r bound i popped value :: _ :: rest =>
      (Frame.exiting r bound i popped value).remaining count + remaining count rest
  | f :: rest => f.remaining count + remaining count rest

/-- To how many hooks the next exit would be announced. -/
def Thread.exitCount (th : Thread) : Nat := (th.target.map Prod.snd).getD 0

def Thread.remaining (th : Thread) : Nat := Agent.remaining th.exitCount th.stack

end Agent

/-- No method is entered, no class is prepared and the thread does not end. -/
def Label.Returns : Label → Prop
  | .leave _ _ _ | .broadcast _ | .dispatch _ | .finish _ _ => True
  | .call _ _ _ | .prepare _ _ | .threadEnd _ | .register _ _ | .unregister _ _ | .native _ _ =>
      False

namespace Agent

section

variable {jvm : Jvm} {chain : List (Option Hooked)} {th th' : Thread} {l : Label}

end

end Agent

section

variable {jvm : Jvm} {s s' : State} {t : Tid} {l : Label}

end

end JvmHookFramework
