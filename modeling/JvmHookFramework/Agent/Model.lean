/-
  Agent/Model.lean --- what the agent does, as its hooks see it.

  The abstract agent knows hooks and methods and nothing of arrays, references, handles
  and flags.  It holds the chain of registered hooks and, for each thread, what runs on it,
  the method whose call was announced last and the hooks that wait for an exit.  A call of
  a hooked method is announced unless an announcement of a call or of an exit runs on the
  thread already; an exit is announced to the waiting hooks when its method is that of the
  call announced last.  What it emits is what the hooks are called with.
-/
import JvmHookFramework.Foundation.Parts
import JvmHookFramework.Foundation.SlotChain
import JvmHookFramework.Machine.Metadata

set_option autoImplicit false

namespace JvmHookFramework

open Foundation Foundation.SlotChain

namespace Agent

/-- A hook, a Java object or null, and the method it is registered for. -/
abbrev Hooked := JmethodID × Option Obj

/-- What the hooks are called with.  No hook: the loop has read past the hooks that were
collected. -/
inductive Event where
  | preInvoke (call : Metadata) (hook : Option (Option Obj))
  | postInvoke (call : Metadata) (hook : Option (Option Obj)) (isException : Bool)
      (value : Option Jvalue)
  | classPrepare (klass : Klass) (loader : Option Obj)

/-- An announcement: what it says and whom it is for. -/
structure Announcement where
  about : Metadata
  hooks : List (Option Obj)

/-- What runs on a thread.  `next` is the hook to be called next; of a call, `none` while
the announcement is prepared. -/
inductive Frame where
  | method (m : JmethodID)
  | entering (r : Announcement) (next : Option Nat)
  | exiting (r : Announcement) (count next : Nat) (popped : Bool) (value : Option Jvalue)
  | preparing

structure Thread where
  stack : List Frame := []
  /-- The method whose call was announced last, and to how many hooks. -/
  target : Option (JmethodID × Nat) := none
  /-- The hooks that wait for an exit. -/
  pending : Option (List (Option Obj)) := none
  ended : Bool := false

def Frame.isEntering : Frame → Bool
  | .entering _ _ => true
  | _ => false

def Frame.isExiting : Frame → Bool
  | .exiting .. => true
  | _ => false

def Frame.isPreparing : Frame → Bool
  | .preparing => true
  | _ => false

/-- The hooks of a method, in the order of the chain. -/
def hooksOf (jvm : Jvm) (chain : List (Option Hooked)) (m : JmethodID) : List (Option Obj) :=
  ((values chain).filter fun h => jvm.deref h.1 = jvm.deref m).map Prod.snd

/-- The hooks that `unregister(m, hook)` names. -/
def named (jvm : Jvm) (m : JmethodID) (hook : Option Obj) (h : Hooked) : Bool :=
  decide (jvm.deref h.1 = jvm.deref m ∧ (hook = none ∨ h.2 = hook))

/-- What an exit of `m` is announced with when the call of `target` was announced last. -/
def exitMetadata (jvm : Jvm) (m target : JmethodID) : Metadata :=
  { jvm.metadata target with owner := jvm.GetMethodDeclaringClass m, modifiers := 0 }

/-- Classes of the framework, of the extensions and of the virtual machine itself. -/
def ownClass (jvm : Jvm) (klass : Klass) : Bool :=
  let loader := jvm.GetClassLoader klass
  decide (loader = none ∨ loader = jvm.classLoaderX ∨ loader = jvm.extClassLoader)

namespace Thread

variable (jvm : Jvm) (chain : List (Option Hooked)) (th : Thread)

/-- The call of `m` is announced. -/
def announces (m : JmethodID) : Bool :=
  !(hooksOf jvm chain m).isEmpty && !th.stack.any Frame.isEntering &&
    !th.stack.any Frame.isExiting && !jvm.skipsEntry m

/-- The call of `m`, which is on top, is announced to the hooks. -/
def announce (m : JmethodID) (hooks : List (Option Obj)) : Thread :=
  { th with
    stack := .entering ⟨jvm.metadata m, hooks⟩ none :: th.stack
    target := some (m, hooks.length) }

def call (m : JmethodID) : Thread :=
  let entered := { th with stack := .method m :: th.stack }
  if th.announces jvm chain m then entered.announce jvm m (hooksOf jvm chain m) else entered

/-- The exit of `m`, on top of `rest`. -/
def leave (m : JmethodID) (rest : List Frame) (popped : Bool) (value : Option Jvalue) :
    Option Thread :=
  match th.pending, th.target with
  | none, _ => some { th with stack := rest }
  | some _, none => none
  | some hooks, some (target, count) =>
      if jvm.deref target = jvm.deref m && !th.stack.any Frame.isExiting then
        some { th with
          stack := .exiting ⟨exitMetadata jvm m target, hooks⟩ count 0 popped value ::
            .method m :: rest }
      else some { th with stack := rest }

/-- The preparation of `klass` is announced. -/
def announcesClass (klass : Klass) : Bool :=
  !th.stack.any Frame.isPreparing && !th.stack.any Frame.isEntering && !ownClass jvm klass

def prepare (klass : Klass) : Thread :=
  if th.announcesClass jvm klass then { th with stack := .preparing :: th.stack } else th

/-- The next hook is called. -/
def dispatch : Option Thread :=
  match th.stack with
  | .entering r (some i) :: rest =>
      if i < r.hooks.length then some { th with stack := .entering r (some (i + 1)) :: rest }
      else none
  | .exiting r count i popped value :: rest =>
      if i < count then some { th with stack := .exiting r count (i + 1) popped value :: rest }
      else none
  | _ => none

/-- The announcement on top ends, after its last hook or because a hook threw. -/
def finish (threw : Bool) : Option Thread :=
  match th.stack with
  | .entering r (some i) :: .method m :: rest =>
      if threw || i = r.hooks.length then
        some { th with stack := .method m :: rest, pending := some r.hooks }
      else none
  | .exiting _ count i _ _ :: .method _ :: rest =>
      if threw || i = count then some { th with stack := rest, pending := none } else none
  | .preparing :: rest => some { th with stack := rest }
  | _ => none

def move : Label → Option Thread
  | .call _ m _ => if th.ended then none else some (th.call jvm chain m)
  | .leave _ popped value =>
      match th.stack with
      | .method m :: rest => th.leave jvm m rest popped value
      | _ => none
  | .prepare _ klass => if th.ended then none else some (th.prepare jvm klass)
  | .broadcast _ =>
      match th.stack with
      | .entering r none :: rest => some { th with stack := .entering r (some 0) :: rest }
      | _ => none
  | .dispatch _ => th.dispatch
  | .finish _ threw => th.finish threw
  | .threadEnd _ => if th.stack.isEmpty && !th.ended then some { ended := true } else none
  | .register _ _ | .unregister _ _ | .native _ _ => none

def emit : Label → List Event
  | .prepare _ klass =>
      if th.announcesClass jvm klass then [.classPrepare klass (jvm.GetClassLoader klass)]
      else []
  | .dispatch _ =>
      match th.stack with
      | .entering r (some i) :: _ => [.preInvoke r.about r.hooks[i]?]
      | .exiting r _ i popped value :: _ => [.postInvoke r.about r.hooks[i]? popped value]
      | _ => []
  | _ => []

end Thread

/-- Removing a hook reads through every slot, so it ends only when none is empty. -/
def change (jvm : Jvm) (chain : List (Option Hooked)) : Label → Option (List (Option Hooked))
  | .register m hook => some (fill chain (m, hook))
  | .unregister m hook => if none ∈ chain then none else some (clear (named jvm m hook) chain)
  | _ => some chain

def machine (jvm : Jvm) : Parts (List (Option Hooked)) Thread Tid Label Event where
  owner := Label.thread
  change := change jvm
  move chain th := th.move jvm chain
  emit _ th := th.emit jvm

/-- One empty slot, and nothing runs. -/
def initial : Compound (List (Option Hooked)) Thread Tid := ⟨[none], fun _ => {}⟩

end Agent

end JvmHookFramework
