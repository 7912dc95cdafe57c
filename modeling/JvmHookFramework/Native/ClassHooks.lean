/-
  Native/ClassHooks.lean --- the hook registry of ClassHooks.cpp, with the lookup
  `shouldRunHook` of lib.cpp.

  The list `headHookInfo` stands for the slots met from the head along `next`.  A slot
  whose method is null is empty: `registerHook` and `shouldRunHook` test for it,
  `unregisterHook` reads through the method pointer of every slot it passes, so that
  an empty one stops it (the result `none`).
-/
import JvmHookFramework.Jvm.Interface

set_option autoImplicit false

namespace JvmHookFramework

open Foundation

/-- One slot of the registry; `hook` is a global reference. -/
structure MethodHookInfo where
  method : Option JmethodID
  hook : Option Nat
  deriving DecidableEq, Repr

/-- `new MethodHookInfo` and `memset` to zero. -/
def newMethodHookInfo : MethodHookInfo := ⟨none, none⟩

/-- The globals of ClassHooks.cpp, with the global references that `registerHook`
creates. -/
structure Registry where
  headHookInfo : List MethodHookInfo
  methodHookCount : Int
  hookRefs : RefTable Obj
  deriving Repr

def initialRegistry : Registry where
  headHookInfo := [newMethodHookInfo]
  methodHookCount := 0
  hookRefs := {}

/-! ## registerHook -/

/-- The `while (true)` of `registerHook` from the current slot on; the empty list is
the slot after the last one, which the code allocates and links. -/
def registerHook.loop (method : JmethodID) (hook : Option Nat) :
    List MethodHookInfo → List MethodHookInfo
  | [] => [{ newMethodHookInfo with hook := hook, method := some method }]
  | currentInfo :: next =>
      match currentInfo.method with
      | none => { currentInfo with method := some method, hook := hook } :: next
      | some _ => currentInfo :: registerHook.loop method hook next

def registerHook (r : Registry) (method : JmethodID) (hook : Option Obj) : Registry :=
  let (hook, refs) := NewGlobalRef hook r.hookRefs
  { headHookInfo := registerHook.loop method hook r.headHookInfo
    methodHookCount := r.methodHookCount + 1
    hookRefs := refs }

/-! ## unregisterHook -/

/-- The scan of `unregisterHook` from the current slot on, with the reference table
and `methodHookCount` it has reached. -/
def unregisterHook.loop (jvm : Jvm) (method : JmethodID) (hook : Option Obj) :
    List MethodHookInfo → RefTable Obj → Int → Option Registry
  | [], refs, count => some ⟨[], count, refs⟩
  | currentInfo :: next, refs, count =>
      match currentInfo.method with
      | none => none
      | some m =>
          if jvm.deref m = jvm.deref method ∧
              (hook = none ∨ denote refs currentInfo.hook = hook) then
            match unregisterHook.loop jvm method hook next
                (DeleteGlobalRef currentInfo.hook refs) (count - 1) with
            | none => none
            | some r => some
                { r with headHookInfo :=
                    { currentInfo with method := none, hook := none } :: r.headHookInfo }
          else
            match unregisterHook.loop jvm method hook next refs count with
            | none => none
            | some r => some { r with headHookInfo := currentInfo :: r.headHookInfo }

def unregisterHook (jvm : Jvm) (r : Registry) (method : JmethodID) (hook : Option Obj) :
    Option Registry :=
  unregisterHook.loop jvm method hook r.headHookInfo r.hookRefs r.methodHookCount

/-! ## shouldRunHook -/

/-- An array of `jobject` from `malloc`: how many cells were asked for, and the cells
that were written, which the code writes in order from index 0. -/
structure HookArray where
  capacity : Int
  cells : List (Option Nat)
  deriving DecidableEq, Repr

/-- The `do … while` of `shouldRunHook`; the result is `hccount` and `allHooks0`. -/
def shouldRunHook.loop (jvm : Jvm) (methodHookCount : Int) (metid : JmethodID) :
    List MethodHookInfo → Nat → Option HookArray → Nat × Option HookArray
  | [], hccount, allHooks0 => (hccount, allHooks0)
  | mh :: next, hccount, allHooks0 =>
      match mh.method with
      | none => shouldRunHook.loop jvm methodHookCount metid next hccount allHooks0
      | some m =>
          if jvm.deref m = jvm.deref metid then
            let allocated := allHooks0.getD ⟨methodHookCount, []⟩
            shouldRunHook.loop jvm methodHookCount metid next (hccount + 1)
              (some { allocated with cells := allocated.cells ++ [mh.hook] })
          else shouldRunHook.loop jvm methodHookCount metid next hccount allHooks0

/-- The answer, `*hookCounts` and `*allHooks` (`none` is null). -/
def shouldRunHook (jvm : Jvm) (r : Registry) (metid : JmethodID) :
    Bool × Nat × Option HookArray :=
  let (hccount, allHooks0) :=
    shouldRunHook.loop jvm r.methodHookCount metid r.headHookInfo 0 none
  if hccount ≠ 0 then (true, hccount, allHooks0) else (false, hccount, none)

end JvmHookFramework
