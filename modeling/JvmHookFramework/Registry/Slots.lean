/-
  Registry/Slots.lean --- the registry's operations as slot-chain operations.

  Each function of ClassHooks.cpp gets one lemma that says what it does to the chain
  of slots, to the counter and to the reference table; nothing later unfolds a loop.
-/
import JvmHookFramework.Foundation.SlotChain
import JvmHookFramework.Native.ClassHooks

set_option autoImplicit false

namespace JvmHookFramework

open Foundation Foundation.SlotChain

/-- What a filled slot holds. -/
abbrev Registration := JmethodID × Option Nat

/-- The slot as a slot of the abstract chain: empty exactly when the method is null. -/
def MethodHookInfo.slot (mh : MethodHookInfo) : Option Registration :=
  mh.method.map fun m => (m, mh.hook)

namespace Registry

def slots (r : Registry) : List (Option Registration) :=
  r.headHookInfo.map MethodHookInfo.slot

/-- The slots with `method != null`, nearest the head first. -/
def registrations (r : Registry) : List Registration := values r.slots

/-- The global references stored in those slots. -/
def storedRefs (r : Registry) : List Nat := r.registrations.filterMap Prod.snd

end Registry

/-! ## registerHook -/

theorem registerHook_loop_slots (method : JmethodID) (hook : Option Nat)
    (chain : List MethodHookInfo) :
    (registerHook.loop method hook chain).map MethodHookInfo.slot =
      fill (chain.map MethodHookInfo.slot) (method, hook) := by
  induction chain with
  | nil => rfl
  | cons currentInfo next ih =>
      obtain ⟨currentMethod, currentHook⟩ := currentInfo
      cases currentMethod with
      | none => rfl
      | some m =>
          simp only [registerHook.loop, List.map_cons, ih]
          rfl

theorem registerHook_slots (r : Registry) (method : JmethodID) (hook : Option Obj) :
    (registerHook r method hook).slots =
      fill r.slots (method, (NewGlobalRef hook r.hookRefs).1) :=
  registerHook_loop_slots method _ r.headHookInfo

theorem registerHook_hookRefs (r : Registry) (method : JmethodID) (hook : Option Obj) :
    (registerHook r method hook).hookRefs = (NewGlobalRef hook r.hookRefs).2 := rfl

/-! ## unregisterHook -/

/-- The test `unregisterHook(method, hook)` makes on a filled slot. -/
def removes (jvm : Jvm) (refs : RefTable Obj) (method : JmethodID) (hook : Option Obj)
    (reg : Registration) : Bool :=
  decide (jvm.deref reg.1 = jvm.deref method ∧ (hook = none ∨ denote refs reg.2 = hook))

/-- The references of the slots that `unregisterHook(method, hook)` clears. -/
def removedRefs (jvm : Jvm) (refs : RefTable Obj) (method : JmethodID) (hook : Option Obj)
    (regs : List Registration) : List Nat :=
  (regs.filter (removes jvm refs method hook)).filterMap Prod.snd

theorem removes_DeleteGlobalRef (jvm : Jvm) (refs : RefTable Obj) (method : JmethodID)
    (hook : Option Obj) (ref : Option Nat) :
    removes jvm (DeleteGlobalRef ref refs) method hook = removes jvm refs method hook := by
  funext reg
  simp only [removes, denote_DeleteGlobalRef]

/-- Put a slot back in front of what the rest of the scan returned. -/
def Registry.consSlot (mh : MethodHookInfo) (r : Registry) : Registry :=
  { r with headHookInfo := mh :: r.headHookInfo }

@[simp] theorem Registry.slots_consSlot (mh : MethodHookInfo) (r : Registry) :
    (r.consSlot mh).slots = mh.slot :: r.slots := rfl

theorem unregisterHook_loop_cleared {jvm : Jvm} {refs : RefTable Obj} {method m : JmethodID}
    {hook : Option Obj} {currentHook : Option Nat}
    (hremoves : removes jvm refs method hook (m, currentHook) = true)
    (next : List MethodHookInfo) (count : Int) :
    unregisterHook.loop jvm method hook (⟨some m, currentHook⟩ :: next) refs count =
      (unregisterHook.loop jvm method hook next (DeleteGlobalRef currentHook refs)
        (count - 1)).map (Registry.consSlot ⟨none, none⟩) := by
  have hmatch : jvm.deref m = jvm.deref method ∧
      (hook = none ∨ denote refs currentHook = hook) := by
    simpa [removes] using hremoves
  simp only [unregisterHook.loop, if_pos hmatch]
  cases unregisterHook.loop jvm method hook next (DeleteGlobalRef currentHook refs)
    (count - 1) <;> rfl

theorem unregisterHook_loop_kept {jvm : Jvm} {refs : RefTable Obj} {method m : JmethodID}
    {hook : Option Obj} {currentHook : Option Nat}
    (hremoves : removes jvm refs method hook (m, currentHook) = false)
    (next : List MethodHookInfo) (count : Int) :
    unregisterHook.loop jvm method hook (⟨some m, currentHook⟩ :: next) refs count =
      (unregisterHook.loop jvm method hook next refs count).map
        (Registry.consSlot ⟨some m, currentHook⟩) := by
  have hmatch : ¬ (jvm.deref m = jvm.deref method ∧
      (hook = none ∨ denote refs currentHook = hook)) := by
    simpa [removes] using hremoves
  simp only [unregisterHook.loop, if_neg hmatch]
  cases unregisterHook.loop jvm method hook next refs count <;> rfl

/-- The scan completes exactly when it meets no empty slot. -/
theorem unregisterHook_loop_isSome (jvm : Jvm) (method : JmethodID) (hook : Option Obj)
    (chain : List MethodHookInfo) (refs : RefTable Obj) (count : Int) :
    (unregisterHook.loop jvm method hook chain refs count).isSome ↔
      none ∉ chain.map MethodHookInfo.slot := by
  induction chain generalizing refs count with
  | nil => simp [unregisterHook.loop]
  | cons currentInfo next ih =>
      obtain ⟨currentMethod, currentHook⟩ := currentInfo
      cases currentMethod with
      | none => simp [unregisterHook.loop, MethodHookInfo.slot]
      | some m =>
          have hhead : (none : Option Registration) ∉
              (MethodHookInfo.mk (some m) currentHook :: next).map MethodHookInfo.slot ↔
              none ∉ next.map MethodHookInfo.slot := by
            simp [MethodHookInfo.slot]
          rw [hhead]
          cases hremoves : removes jvm refs method hook (m, currentHook) with
          | true => rw [unregisterHook_loop_cleared hremoves, Option.isSome_map, ih]
          | false => rw [unregisterHook_loop_kept hremoves, Option.isSome_map, ih]

/-- What a scan that completes has done. -/
theorem unregisterHook_loop_spec {jvm : Jvm} {method : JmethodID} {hook : Option Obj}
    {chain : List MethodHookInfo} {refs : RefTable Obj} {count : Int} {r : Registry}
    (h : unregisterHook.loop jvm method hook chain refs count = some r) :
    r.slots = clear (removes jvm refs method hook) (chain.map MethodHookInfo.slot) ∧
      r.methodHookCount = count - ((values (chain.map MethodHookInfo.slot)).filter
        (removes jvm refs method hook)).length ∧
      r.hookRefs = refs.deleteAll (removedRefs jvm refs method hook
        (values (chain.map MethodHookInfo.slot))) := by
  induction chain generalizing refs count r with
  | nil =>
      obtain rfl := Option.some.inj h
      simp [Registry.slots, removedRefs]
  | cons currentInfo next ih =>
      obtain ⟨currentMethod, currentHook⟩ := currentInfo
      cases currentMethod with
      | none => simp [unregisterHook.loop] at h
      | some m =>
          have hslot : (MethodHookInfo.mk (some m) currentHook).slot = some (m, currentHook) :=
            rfl
          rw [List.map_cons, hslot, values_some]
          cases hremoves : removes jvm refs method hook (m, currentHook) with
          | true =>
              rw [unregisterHook_loop_cleared hremoves, Option.map_eq_some_iff] at h
              obtain ⟨rest, hrest, rfl⟩ := h
              obtain ⟨hslots, hcount, hrefs⟩ := ih hrest
              rw [removes_DeleteGlobalRef] at hslots hcount
              refine ⟨?_, ?_, ?_⟩
              · rw [Registry.slots_consSlot, hslots, clear_cons]
                simp [MethodHookInfo.slot, Option.filter, hremoves]
              · simp only [Registry.consSlot, hcount, List.filter_cons, hremoves, if_true,
                  List.length_cons]
                omega
              · simp only [Registry.consSlot, hrefs, removedRefs, removes_DeleteGlobalRef,
                  List.filter_cons, hremoves, if_true]
                cases currentHook with
                | none => rfl
                | some ref => rfl
          | false =>
              rw [unregisterHook_loop_kept hremoves, Option.map_eq_some_iff] at h
              obtain ⟨rest, hrest, rfl⟩ := h
              obtain ⟨hslots, hcount, hrefs⟩ := ih hrest
              refine ⟨?_, ?_, ?_⟩
              · rw [Registry.slots_consSlot, hslots, clear_cons]
                simp [MethodHookInfo.slot, Option.filter, hremoves]
              · simpa [Registry.consSlot, hremoves] using hcount
              · simpa [Registry.consSlot, removedRefs, hremoves] using hrefs

theorem unregisterHook_isSome (jvm : Jvm) (r : Registry) (method : JmethodID)
    (hook : Option Obj) : (unregisterHook jvm r method hook).isSome ↔ none ∉ r.slots :=
  unregisterHook_loop_isSome jvm method hook r.headHookInfo r.hookRefs r.methodHookCount

theorem unregisterHook_spec {jvm : Jvm} {r r' : Registry} {method : JmethodID}
    {hook : Option Obj} (h : unregisterHook jvm r method hook = some r') :
    r'.slots = clear (removes jvm r.hookRefs method hook) r.slots ∧
      r'.methodHookCount = r.methodHookCount -
        (r.registrations.filter (removes jvm r.hookRefs method hook)).length ∧
      r'.hookRefs = r.hookRefs.deleteAll
        (removedRefs jvm r.hookRefs method hook r.registrations) :=
  unregisterHook_loop_spec h

/-! ## shouldRunHook -/

/-- The hooks of one method among some registrations. -/
def ofMethod (jvm : Jvm) (metid : JmethodID) (regs : List Registration) :
    List (Option Nat) :=
  (regs.filter fun reg => jvm.deref reg.1 = jvm.deref metid).map Prod.snd

/-- The hooks that `shouldRunHook` collects for a method, in the order of the chain. -/
def Registry.hooksOf (jvm : Jvm) (r : Registry) (metid : JmethodID) : List (Option Nat) :=
  ofMethod jvm metid r.registrations

theorem shouldRunHook_loop_eq (jvm : Jvm) (methodHookCount : Int) (metid : JmethodID)
    (chain : List MethodHookInfo) (hccount : Nat) (allHooks0 : Option HookArray) :
    shouldRunHook.loop jvm methodHookCount metid chain hccount allHooks0 =
      let found := ofMethod jvm metid (values (chain.map MethodHookInfo.slot))
      (hccount + found.length,
        if found = [] then allHooks0
        else some ⟨(allHooks0.getD ⟨methodHookCount, []⟩).capacity,
          (allHooks0.getD ⟨methodHookCount, []⟩).cells ++ found⟩) := by
  induction chain generalizing hccount allHooks0 with
  | nil => simp [shouldRunHook.loop, ofMethod]
  | cons mh next ih =>
      obtain ⟨currentMethod, currentHook⟩ := mh
      cases currentMethod with
      | none => exact ih hccount allHooks0
      | some m =>
          have hslot : (MethodHookInfo.mk (some m) currentHook).slot = some (m, currentHook) :=
            rfl
          rw [List.map_cons, hslot, values_some]
          by_cases hkey : jvm.deref m = jvm.deref metid
          · have hfound : ∀ regs : List Registration,
                ofMethod jvm metid ((m, currentHook) :: regs) =
                  currentHook :: ofMethod jvm metid regs := by
              intro regs
              simp [ofMethod, hkey]
            simp only [shouldRunHook.loop, hkey, if_true, ih, hfound, List.length_cons,
              Option.getD_some, List.cons_ne_nil, if_false]
            split
            · rename_i hnil
              simp [hnil]
            · simp only [List.append_assoc, List.singleton_append, Prod.mk.injEq, and_true]
              omega
          · have hfound : ∀ regs : List Registration,
                ofMethod jvm metid ((m, currentHook) :: regs) = ofMethod jvm metid regs := by
              intro regs
              simp [ofMethod, hkey]
            simp only [shouldRunHook.loop, hkey, if_false, ih, hfound]

/-- `shouldRunHook` answers from the hooks of the method: whether there is one, how
many, and, in an array of `methodHookCount` cells, which. -/
theorem shouldRunHook_eq (jvm : Jvm) (r : Registry) (metid : JmethodID) :
    shouldRunHook jvm r metid =
      if r.hooksOf jvm metid = [] then (false, 0, none)
      else (true, (r.hooksOf jvm metid).length,
        some ⟨r.methodHookCount, r.hooksOf jvm metid⟩) := by
  have hfound : ofMethod jvm metid (values (r.headHookInfo.map MethodHookInfo.slot)) =
      r.hooksOf jvm metid := rfl
  simp only [shouldRunHook, shouldRunHook_loop_eq, Option.getD_none, List.nil_append,
    Nat.zero_add, hfound]
  by_cases hnil : r.hooksOf jvm metid = []
  · simp [hnil]
  · simp [hnil]

end JvmHookFramework
