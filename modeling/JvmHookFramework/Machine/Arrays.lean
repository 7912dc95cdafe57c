/-
  Machine/Arrays.lean --- the allocated hook arrays.

  What `shouldRunHook` wrote to an array never changes, whoever still holds its address.
  An array in use has one holder: the entry callback that collected it, and from its end
  on the `hooks` field of its thread, until the exit callback frees it.
-/
import JvmHookFramework.Foundation.Ownership
import JvmHookFramework.Machine.Guards

set_option autoImplicit false

namespace JvmHookFramework

open Foundation

/-! ## What the arrays hold -/

/-- The part of an allocated array that never changes. -/
structure Snapshot where
  metid : JmethodID
  array : HookArray
  stamp : Nat
  deriving DecidableEq, Repr

def MallocedArray.snapshot (m : MallocedArray) : Snapshot := ⟨m.metid, m.array, m.stamp⟩

/-- What the call of `shouldRunHook` with number `a` collected. -/
def State.snapshot (s : State) (a : ArrayId) : Option Snapshot :=
  s.arrays[a]?.map MallocedArray.snapshot

/-- The array of an entry callback. -/
def Frame.entryArray : Frame → Option ArrayId
  | .methodEntry c => some c.hookInstances
  | .activation _ | .methodExit _ | .classPrepare => none

/-- The arrays of the entry callbacks on a stack. -/
def entryArrays (frames : List Frame) : List ArrayId := frames.filterMap Frame.entryArray

@[simp] theorem entryArrays_nil : entryArrays [] = [] := rfl

@[simp] theorem entryArrays_activation (a : Activation) (rest : List Frame) :
    entryArrays (.activation a :: rest) = entryArrays rest := rfl

@[simp] theorem entryArrays_methodEntry (c : EntryCall) (rest : List Frame) :
    entryArrays (.methodEntry c :: rest) = c.hookInstances :: entryArrays rest := rfl

@[simp] theorem entryArrays_methodExit (c : ExitCall) (rest : List Frame) :
    entryArrays (.methodExit c :: rest) = entryArrays rest := rfl

@[simp] theorem entryArrays_classPrepare (rest : List Frame) :
    entryArrays (.classPrepare :: rest) = entryArrays rest := rfl

/-- There is an entry callback exactly when there is an array of one. -/
theorem length_entryArrays (frames : List Frame) :
    (entryArrays frames).length = (guards frames).count .runningHook := by
  induction frames with
  | nil => rfl
  | cons f rest ih =>
      cases f with
      | activation a => exact ih
      | methodEntry c => simp [ih]
      | methodExit c => simp [ih]
      | classPrepare => simp [ih]

/-- A thread has at most one entry callback. -/
theorem length_entryArrays_le {info : HookInvokingInfo} {frames : List Frame}
    (h : GuardStack.Exact info.flag (guards frames)) : (entryArrays frames).length ≤ 1 := by
  rw [length_entryArrays]
  exact List.nodup_iff_count_le_one.mp h.nodup .runningHook

theorem entryArrays_eq_nil {info : HookInvokingInfo} {frames : List Frame}
    (h : GuardStack.Exact info.flag (guards frames)) (hquiet : info.runningHook = false) :
    entryArrays frames = [] := by
  have hnone : Guard.runningHook ∉ guards frames := by
    rw [← h.set_iff, HookInvokingInfo.flag, hquiet]
    exact Bool.false_ne_true
  rw [← List.length_eq_zero_iff, length_entryArrays]
  exact List.count_eq_zero_of_not_mem hnone

/-- No entry callback runs below another one. -/
theorem entryArrays_below {info : HookInvokingInfo} {c : EntryCall} {frames rest : List Frame}
    (h : GuardStack.Exact info.flag (guards frames)) (hframes : frames = .methodEntry c :: rest) :
    entryArrays rest = [] := by
  have hlength := length_entryArrays_le h
  rw [hframes, entryArrays_methodEntry, List.length_cons] at hlength
  exact List.eq_nil_of_length_eq_zero (by omega)

/-- How a step may change the arrays. -/
inductive ArrayStep (jvm : Jvm) (s : State) : Label → List MallocedArray → Prop where
  | same {l : Label} : ArrayStep jvm s l s.arrays
  | malloc {t : Tid} {method : JmethodID} {frame : Locals}
      (hsome : s.registry.hooksOf jvm method ≠ []) :
      ArrayStep jvm s (.call t method frame) (s.malloc (s.collected jvm method) method).arrays
  | free {t : Tid} {threw : Bool} {c : ExitCall} {a : Activation} {rest : List Frame}
      (hstack : s.stack t = .methodExit c :: .activation a :: rest) :
      ArrayStep jvm s (.finish t threw) (s.free (s.info t).hooks).arrays

section

variable {jvm : Jvm} {s s' : State} {t : Tid} {l : Label} {a : ArrayId}

theorem Step.arrays (h : Step jvm s l s') : ArrayStep jvm s l s'.arrays := by
  cases h with
  | callSuppressed halive hsome hguard => exact .malloc hsome
  | callBroadcast halive hpasses hread => exact .malloc hpasses.1
  | finishExit hframes hcb => exact .free hframes
  | _ => exact .same

theorem Step.arrays_call {method : JmethodID} {frame : Locals}
    (h : Step jvm s (.call t method frame) s') (hsome : s.registry.hooksOf jvm method ≠ []) :
    s'.arrays = (s.malloc (s.collected jvm method) method).arrays := by
  cases h with
  | callUnhooked halive hnone => exact absurd hnone hsome
  | callSuppressed => rfl
  | callBroadcast => rfl

theorem State.getElem?_malloc (s : State) (array : HookArray) (metid : JmethodID)
    (h : a < s.arrays.length) : (s.malloc array metid).arrays[a]? = s.arrays[a]? :=
  List.getElem?_append_left h

theorem State.getElem?_free (s : State) (p : Option ArrayId) (h : p ≠ some a) :
    (s.free p).arrays[a]? = s.arrays[a]? := by
  cases p with
  | none => rfl
  | some b =>
      have hne : ¬ b = a := fun hba => h (congrArg some hba)
      unfold State.free
      simp only [List.getElem?_modify, if_neg hne, Option.map_eq_map, Option.map_id']

theorem State.snapshot_free (s : State) (p : Option ArrayId) (a : ArrayId) :
    (s.free p).snapshot a = s.snapshot a := by
  cases p with
  | none => rfl
  | some b =>
      unfold State.free State.snapshot
      rw [List.getElem?_modify, Option.map_eq_map, Option.map_map]
      congr 1
      funext m
      rw [Function.comp_apply]
      split
      · rfl
      · rfl

theorem State.lt_of_snapshot {m : Snapshot} (h : s.snapshot a = some m) :
    a < s.arrays.length := by
  obtain ⟨m', hm', _⟩ := Option.map_eq_some_iff.mp h
  exact (List.getElem?_eq_some_iff.mp hm').1

theorem ArrayStep.snapshot {m : Snapshot} (h : ArrayStep jvm s l s'.arrays)
    (ha : s.snapshot a = some m) : s'.snapshot a = some m := by
  have hlt := State.lt_of_snapshot ha
  unfold State.snapshot at ha ⊢
  generalize s'.arrays = arrays at h
  cases h with
  | same => exact ha
  | malloc hsome => rwa [State.getElem?_malloc s _ _ hlt]
  | free hstack => exact (s.snapshot_free _ a).trans ha

/-- A step leaves the contents of every array as they are. -/
theorem Step.snapshot {m : Snapshot} (h : Step jvm s l s') (ha : s.snapshot a = some m) :
    s'.snapshot a = some m :=
  h.arrays.snapshot ha

/-- The array that a call of a hooked method allocates. -/
theorem Step.snapshot_call {method : JmethodID} {frame : Locals}
    (h : Step jvm s (.call t method frame) s') (hsome : s.registry.hooksOf jvm method ≠ []) :
    s'.snapshot s.arrays.length =
      some ⟨method, s.collected jvm method, s.unregistered.length⟩ := by
  unfold State.snapshot
  rw [h.arrays_call hsome, State.malloc, List.getElem?_concat_length]
  rfl

/-- An array that there is after a step was there before, or the step has collected it. -/
theorem Step.snapshot_cases {m : Snapshot} (h : Step jvm s l s') (ha : s'.snapshot a = some m) :
    s.snapshot a = some m ∨ ∃ t method frame, l = .call t method frame ∧
      m = ⟨method, s.collected jvm method, s.unregistered.length⟩ := by
  have harrays := h.arrays
  unfold State.snapshot at ha ⊢
  generalize s'.arrays = arrays at harrays ha
  cases harrays with
  | same => exact Or.inl ha
  | @malloc t method frame hsome =>
      rcases Nat.lt_or_ge a s.arrays.length with hlt | hge
      · rw [State.getElem?_malloc s _ _ hlt] at ha
        exact Or.inl ha
      · unfold State.malloc at ha
        rw [List.getElem?_append_right hge, List.getElem?_singleton] at ha
        split at ha
        · exact Or.inr ⟨t, method, frame, rfl, (Option.some.inj ha).symm⟩
        · cases ha
  | free hstack => exact Or.inl ((s.snapshot_free _ a).symm.trans ha)

end

end JvmHookFramework
