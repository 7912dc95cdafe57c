/-
  Machine/Ranges.lean --- the ranges of rewritten arguments over whole runs.

  A `put*` on an integer parameter is accepted by its tag alone, whatever the parameter
  was declared as.
-/
import JvmHookFramework.Machine.Rewriting
import JvmHookFramework.Native.IntRanges

set_option autoImplicit false

namespace JvmHookFramework

open Foundation ArgumentsNative

/-- The `SetLocalInt` calls of the write-back loop of the entry callback `c`, if it ends in
this state. -/
def State.intWrites (s : State) (c : CallbackId) : List (Nat × Cell (BitVec 32)) :=
  (s.callbacks[c]?).elim [] fun cb => setLocalInts cb.parameters

/-- At the end of an entry callback of a method with a legal descriptor, `SetLocalInt` gets
only values of the declared types, and locals that held such values still do, exactly when
for each integer parameter the declared type admits the argument of the last setter that
its cell accepted. -/
theorem ranges_kept_iff (jvm : Jvm) (ls : List Label) (t : Tid) (threw : Bool) (c : CallbackId)
    (a a' : Activation) (s₁ s₂ : State) (d : MethodDescriptor)
    (hends : EntryEnds jvm ls t threw c a a' s₁ s₂)
    (hdesc : jvm.methodDesc a.method = d.render) :
    RangesKept (jvm.firstSlot a.method) d.params (s₁.intWrites c) a.frame a'.frame ↔
      PutsAdmitted d.params (putsOf (callsOn jvm c ls)) := by
  obtain ⟨cb, hcb, htable, hframe⟩ := hends.exists_table hdesc
  have hwrites : s₁.intWrites c = setLocalInts cb.parameters := by
    rw [State.intWrites, hcb, Option.elim_some]
  rw [hwrites, hframe]
  exact rangesKept_iff htable

/-! ## Two runs -/

/-- A machine whose methods are all `static void m(byte)`. -/
def Jvm.plainByte : Jvm := { Jvm.plain with methodDesc := fun _ => ['(', 'B', ')', 'V'] }

def byteDescriptor : MethodDescriptor := { params := [.byte], ret := none }

/-- A hook puts the `char` 100 into a `byte` parameter. -/
theorem ranges_kept_small_char :
    ∃ a' s₁ s₂, EntryEnds .plainByte (putRun intFrame (.putChar 100) 0) 0 false 0
        (entered ⟨1⟩ intFrame) a' s₁ s₂ ∧
      RangesKept 0 [.byte] (s₁.intWrites 0) intFrame a'.frame := by
  refine ⟨_, _, _, ⟨rfl, ⟨_, _, rfl, rfl, rfl⟩, rfl⟩, ?_⟩
  refine (ranges_kept_iff .plainByte (putRun intFrame (.putChar 100) 0) 0 false 0
    (entered ⟨1⟩ intFrame) _ _ _ byteDescriptor ⟨rfl, ⟨_, _, rfl, rfl, rfl⟩, rfl⟩ rfl).mpr ?_
  intro x t op ht _ hop
  cases x with
  | zero =>
      obtain rfl := Option.some.inj ht
      obtain rfl := Option.some.inj hop
      exact (by decide : (100 : BitVec 16).toNat ≤ 127)
  | succ x => cases ht

/-- A hook puts the `char` 65535 into a `byte` parameter that held 7, and `SetLocalInt` gets
65535. -/
theorem range_left_in_putRun :
    ¬ ∀ jvm ls t threw c a a' s₁ s₂ (d : MethodDescriptor),
      EntryEnds jvm ls t threw c a a' s₁ s₂ → jvm.methodDesc a.method = d.render →
        (∀ x t v, d.params[x]? = some t →
          a.frame (slotAt (jvm.firstSlot a.method) d.params x) = some (.int v) →
            t.InRange v.toInt) →
          RangesKept (jvm.firstSlot a.method) d.params (s₁.intWrites c) a.frame a'.frame := by
  intro hkept
  have horiginal : ∀ x t v, byteDescriptor.params[x]? = some t →
      intFrame (slotAt 0 byteDescriptor.params x) = some (.int v) → t.InRange v.toInt := by
    intro x t v ht hslot
    cases x with
    | zero =>
        obtain rfl := Option.some.inj ht
        obtain rfl := Local.int.inj (Option.some.inj hslot)
        exact (by decide : -128 ≤ (7 : BitVec 32).toInt ∧ (7 : BitVec 32).toInt ≤ 127)
    | succ x => cases ht
  have h := hkept .plainByte (putRun intFrame (.putChar 0xFFFF) 0) 0 false 0
    (entered ⟨1⟩ intFrame) _ _ _ byteDescriptor ⟨rfl, ⟨_, _, rfl, rfl, rfl⟩, rfl⟩ rfl horiginal
  obtain ⟨v, hv, hrange⟩ := h.stored 0 .byte (some 0xFFFF) rfl List.mem_cons_self
  obtain rfl := Option.some.inj hv
  exact absurd hrange (by decide : ¬ (-128 ≤ (0xFFFF : BitVec 32).toInt ∧
    (0xFFFF : BitVec 32).toInt ≤ 127))

end JvmHookFramework
