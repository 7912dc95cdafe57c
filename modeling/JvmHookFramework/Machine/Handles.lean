/-
  Machine/Handles.lean --- handles and the callbacks they lead to.

  A callback owns the objects that it creates.  While its frame is on a stack their
  addresses lead to its variables; before the frame goes, the callback has cleared every
  one of them.  An address therefore always leads to a callback that is running.
-/
import JvmHookFramework.Foundation.Ownership
import JvmHookFramework.Foundation.Transition
import JvmHookFramework.Machine.Thread

set_option autoImplicit false

namespace JvmHookFramework

open Foundation

/-! ## Callbacks and their objects -/

/-- The callback of a frame, with the objects it has created. -/
def Frame.owner : Frame → Option (CallbackId × List HandleId)
  | .methodEntry c => some (c.callback, [c.anc, c.forceERN, c.inf])
  | .methodExit c => some (c.callback, [c.cc, c.retV, c.metInfo])
  | .activation _ | .classPrepare => none

def owners (frames : List Frame) : List (CallbackId × List HandleId) :=
  frames.filterMap Frame.owner

/-- The callbacks that run on a thread. -/
def State.runningCallbacks (s : State) (t : Tid) : List CallbackId :=
  (owners (s.stack t)).map Prod.fst

/-- The callback is on the stack of some thread. -/
def State.Runs (s : State) (c : CallbackId) : Prop := ∃ t, c ∈ s.runningCallbacks t

/-- The callback that the address of the object leads to. -/
def State.address (s : State) (h : HandleId) : Option CallbackId :=
  (s.handles[h]?).bind Handle.address

/-- A callback with the objects `hs` begins on `t`. -/
structure Begins (s s' : State) (t : Tid) (hs : List HandleId) : Prop where
  stack_self : owners (s'.stack t) = (s.callbacks.length, hs) :: owners (s.stack t)
  stack_of_ne : ∀ u, u ≠ t → owners (s'.stack u) = owners (s.stack u)
  callbacks : ∃ cb : Callback, cb.returned = false ∧ s'.callbacks = s.callbacks ++ [cb]
  handles : ∀ h (o : Handle), s'.handles[h]? = some o → s.handles[h]? = some o ∨
    h ∈ hs ∧ o.address = some s.callbacks.length ∧ o.creator = s.callbacks.length
  more : s.handles.length ≤ s'.handles.length

/-- The callback `c` with the objects `hs` returns on `t`: no object of it keeps an
address. -/
structure Returns (s s' : State) (t : Tid) (c : CallbackId) (hs : List HandleId) : Prop where
  stack_self : owners (s.stack t) = (c, hs) :: owners (s'.stack t)
  stack_of_ne : ∀ u, u ≠ t → owners (s'.stack u) = owners (s.stack u)
  callbacks : s'.callbacks = s.callbacks.modify c fun cb => { cb with returned := true }
  handles : ∀ h (o : Handle) a, s'.handles[h]? = some o → o.address = some a →
    h ∉ hs ∧ s.handles[h]? = some o
  length : s'.handles.length = s.handles.length

/-- No callback begins or returns. -/
structure Continues (s s' : State) : Prop where
  stack : ∀ u, owners (s'.stack u) = owners (s.stack u)
  callbacks : ∀ c : CallbackId, (s'.callbacks[c]?).map Callback.returned =
    (s.callbacks[c]?).map Callback.returned
  handles : s'.handles = s.handles

section

variable {jvm : Jvm} {s s' : State} {t : Tid} {l : Label}

theorem continues_of_setThread {th : Thread} (hcallbacks : s'.callbacks = s.callbacks)
    (hhandles : s'.handles = s.handles) (hthreads : s'.threads = s.threads)
    (howners : owners th.frames = owners (s.stack t)) : Continues s (s'.setThread t th) where
  stack := by
    intro u
    by_cases hut : u = t
    · subst hut
      rw [State.stack_setThread_self, howners]
    · rw [State.stack, State.setThread_threads_of_ne _ hut, hthreads]
      rfl
  callbacks := by
    intro c
    rw [State.setThread_callbacks, hcallbacks]
  handles := hhandles

theorem State.getElem?_newHandle {cls : HandleClass} {c : CallbackId} {h : HandleId}
    {o : Handle} (ho : (s.newHandle cls c).handles[h]? = some o) :
    s.handles[h]? = some o ∨ h = s.handles.length ∧ o.address = some c ∧ o.creator = c := by
  unfold State.newHandle at ho
  rcases Nat.lt_or_ge h s.handles.length with hlt | hge
  · exact Or.inl ((List.getElem?_append_left hlt).symm.trans ho)
  · rw [List.getElem?_append_right hge, List.getElem?_singleton] at ho
    split at ho
    · rename_i hzero
      obtain rfl := Option.some.inj ho
      exact Or.inr ⟨Nat.le_antisymm (Nat.sub_eq_zero_iff_le.mp hzero) hge, rfl, rfl⟩
    · cases ho

theorem State.length_newHandle (s : State) (cls : HandleClass) (c : CallbackId) :
    (s.newHandle cls c).handles.length = s.handles.length + 1 := by
  unfold State.newHandle
  exact List.length_append

/-- Three objects in a row, as the callbacks create them. -/
theorem State.getElem?_newHandles {cls₁ cls₂ cls₃ : HandleClass} {c : CallbackId}
    {h : HandleId} {o : Handle}
    (ho : (((s.newHandle cls₁ c).newHandle cls₂ c).newHandle cls₃ c).handles[h]? = some o) :
    s.handles[h]? = some o ∨
      h ∈ [s.handles.length, s.handles.length + 1, s.handles.length + 2] ∧
        o.address = some c ∧ o.creator = c := by
  rcases State.getElem?_newHandle ho with ho | ⟨rfl, hnew⟩
  · rcases State.getElem?_newHandle ho with ho | ⟨rfl, hnew⟩
    · rcases State.getElem?_newHandle ho with ho | ⟨rfl, hnew⟩
      · exact Or.inl ho
      · exact Or.inr ⟨by simp, hnew⟩
    · exact Or.inr ⟨by simp [State.length_newHandle], hnew⟩
  · exact Or.inr ⟨by simp [State.length_newHandle], hnew⟩

theorem State.length_newHandles_le (s : State) (cls₁ cls₂ cls₃ : HandleClass)
    (c : CallbackId) : s.handles.length ≤
      (((s.newHandle cls₁ c).newHandle cls₂ c).newHandle cls₃ c).handles.length := by
  simp only [State.length_newHandle]
  omega

theorem onMethodEntry.begins {th : Thread} {method : JmethodID} {frame : Locals}
    {hookCount : Nat} {array : ArrayId} {parameters : List CallParameter}
    (hframes : owners th.frames = owners (s.stack t)) :
    Begins s (onMethodEntry.begin jvm s t th method frame hookCount array parameters) t
      [s.handles.length, s.handles.length + 1, s.handles.length + 2] where
  stack_self := by
    unfold onMethodEntry.begin
    rw [State.stack_setThread_self, ← hframes]
    rfl
  stack_of_ne := by
    intro u hut
    unfold onMethodEntry.begin
    rw [State.stack, State.setThread_threads_of_ne _ hut]
    rfl
  callbacks := ⟨_, rfl, rfl⟩
  handles := fun _ _ ho => State.getElem?_newHandles ho
  more := State.length_newHandles_le s _ _ _ _

/-- The array for a callback is allocated before its block. -/
theorem Begins.of_malloc {array : HookArray} {metid : JmethodID} {hs : List HandleId}
    (h : Begins (s.malloc array metid) s' t hs) : Begins s s' t hs :=
  ⟨h.stack_self, h.stack_of_ne, h.callbacks, h.handles, h.more⟩

theorem onMethodExit.begins {a : Activation} {rest : List Frame} {hooks : ArrayId}
    {popped : Bool} {value : Option Jvalue} (hstack : s.stack t = .activation a :: rest) :
    Begins s (onMethodExit.begin jvm s t a rest hooks popped value) t
      [s.handles.length, s.handles.length + 1, s.handles.length + 2] where
  stack_self := by
    unfold onMethodExit.begin
    rw [State.stack_setThread_self, hstack]
    rfl
  stack_of_ne := by
    intro u hut
    unfold onMethodExit.begin
    rw [State.stack, State.setThread_threads_of_ne _ hut]
    rfl
  callbacks := ⟨_, rfl, rfl⟩
  handles := fun _ _ ho => State.getElem?_newHandles ho
  more := State.length_newHandles_le s _ _ _ _

theorem State.getElem?_clearAddress {h h' : HandleId} {o : Handle} {a : CallbackId}
    (ho : (s.clearAddress h).handles[h']? = some o) (ha : o.address = some a) :
    h' ≠ h ∧ s.handles[h']? = some o := by
  unfold State.clearAddress at ho
  rw [List.getElem?_modify] at ho
  by_cases hh : h = h'
  · simp only [hh, if_true] at ho
    obtain ⟨o', _, rfl⟩ := Option.map_eq_some_iff.mp ho
    cases ha
  · refine ⟨fun heq => hh heq.symm, ?_⟩
    simpa [hh] using ho

@[simp] theorem State.length_clearAddress (s : State) (h : HandleId) :
    (s.clearAddress h).handles.length = s.handles.length :=
  List.length_modify _ _ _

theorem onMethodEntry.returns {c : EntryCall} {cb : Callback} {a : Activation}
    {rest : List Frame} (hstack : s.stack t = .methodEntry c :: .activation a :: rest) :
    Returns s (onMethodEntry.finish jvm s t c cb a rest) t c.callback
      [c.anc, c.forceERN, c.inf] where
  stack_self := by
    obtain ⟨forced, hthreads⟩ := onMethodEntry.threads_finish jvm s t c cb a rest
    rw [hstack, State.stack, hthreads, Function.update_self]
    rfl
  stack_of_ne := by
    intro u hut
    obtain ⟨forced, hthreads⟩ := onMethodEntry.threads_finish jvm s t c cb a rest
    rw [State.stack, hthreads, Function.update_of_ne hut]
    rfl
  callbacks := rfl
  handles := by
    intro h o a' ho ha
    have hcleared : (((s.clearAddress c.forceERN).clearAddress c.inf).clearAddress
        c.anc).handles[h]? = some o := ho
    obtain ⟨hanc, ho⟩ := State.getElem?_clearAddress hcleared ha
    obtain ⟨hinf, ho⟩ := State.getElem?_clearAddress ho ha
    obtain ⟨hforce, ho⟩ := State.getElem?_clearAddress ho ha
    exact ⟨by simp [hanc, hinf, hforce], ho⟩
  length := by
    have hlength : (((s.clearAddress c.forceERN).clearAddress c.inf).clearAddress
        c.anc).handles.length = s.handles.length := by simp
    exact hlength

theorem onMethodExit.returns {c : ExitCall} {cb : Callback} {a : Activation}
    {rest : List Frame} (hstack : s.stack t = .methodExit c :: .activation a :: rest) :
    Returns s (onMethodExit.finish jvm s t c cb a rest) t c.callback
      [c.cc, c.retV, c.metInfo] where
  stack_self := by
    obtain ⟨forced, hthreads⟩ := onMethodExit.threads_finish jvm s t c cb a rest
    rw [hstack, State.stack, hthreads, Function.update_self]
    rfl
  stack_of_ne := by
    intro u hut
    obtain ⟨forced, hthreads⟩ := onMethodExit.threads_finish jvm s t c cb a rest
    rw [State.stack, hthreads, Function.update_of_ne hut]
    rfl
  callbacks := rfl
  handles := by
    intro h o a' ho ha
    have hcleared : ((((s.clearAddress c.retV).clearAddress c.metInfo).clearAddress
        c.retV).clearAddress c.cc).handles[h]? = some o := ho
    obtain ⟨hcc, ho⟩ := State.getElem?_clearAddress hcleared ha
    obtain ⟨_, ho⟩ := State.getElem?_clearAddress ho ha
    obtain ⟨hinfo, ho⟩ := State.getElem?_clearAddress ho ha
    obtain ⟨hret, ho⟩ := State.getElem?_clearAddress ho ha
    exact ⟨by simp [hcc, hinfo, hret], ho⟩
  length := by
    have hlength : ((((s.clearAddress c.retV).clearAddress c.metInfo).clearAddress
        c.retV).clearAddress c.cc).handles.length = s.handles.length := by simp
    exact hlength

/-- A native method does not mark its callback as returned, nor as running again. -/
theorem HandleOp.call_returned {op : HandleOp} {cls : HandleClass} {cb : Callback}
    {refs : JniRefs} {outcome : CallOutcome} (h : op.call cls (some cb) refs = some outcome) :
    ∀ old : Callback, old = cb → (outcome.2.1.getD old).returned = old.returned := by
  rintro old rfl
  cases op <;> cases cls <;> first
    | (obtain rfl := Option.some.inj h; rfl)
    | cases h

theorem continues_of_native {callback : CallbackId} {cb : Callback} {outcome : CallOutcome}
    (hcb : s.callbacks[callback]? = some cb)
    (hreturned : ∀ old : Callback, old = cb → (outcome.2.1.getD old).returned = old.returned) :
    Continues s { s with
      refs := outcome.2.2
      callbacks := s.callbacks.modify callback fun old => outcome.2.1.getD old } where
  stack := fun _ => rfl
  callbacks := by
    intro c
    rw [List.getElem?_modify]
    by_cases hc : callback = c
    · subst hc
      simp [hcb, hreturned cb rfl]
    · simp [hc]
  handles := rfl

theorem le_of_mem_newHandles {h n : Nat} (hmem : h ∈ [n, n + 1, n + 2]) : n ≤ h := by
  simp only [List.mem_cons, List.not_mem_nil, or_false] at hmem
  omega

theorem State.address_newHandle (s : State) (cls : HandleClass) (c : CallbackId) (h : HandleId) :
    (s.newHandle cls c).address h = if h = s.handles.length then some c else s.address h := by
  unfold State.address State.newHandle
  rcases Nat.lt_trichotomy h s.handles.length with hlt | rfl | hgt
  · rw [List.getElem?_append_left hlt, if_neg (Nat.ne_of_lt hlt)]
  · rw [List.getElem?_concat_length, if_pos rfl]
    rfl
  · rw [if_neg (Nat.ne_of_gt hgt), List.getElem?_eq_none (Nat.le_of_lt hgt), List.getElem?_eq_none]
    rw [List.length_append]
    exact hgt

/-- The objects that a callback creates lead to it. -/
theorem State.address_newHandles (s : State) (cls₁ cls₂ cls₃ : HandleClass) (c : CallbackId)
    (h : HandleId) :
    (((s.newHandle cls₁ c).newHandle cls₂ c).newHandle cls₃ c).address h =
      if h ∈ [s.handles.length, s.handles.length + 1, s.handles.length + 2] then some c
      else s.address h := by
  have hlength : ((s.newHandle cls₁ c).newHandle cls₂ c).handles.length = s.handles.length + 2 := by
    rw [State.length_newHandle, State.length_newHandle]
  rw [State.address_newHandle, State.address_newHandle, State.address_newHandle, hlength,
    State.length_newHandle]
  simp only [List.mem_cons, List.not_mem_nil, or_false]
  split_ifs <;> tauto

theorem State.address_clearAddress {h h' : HandleId} (s : State) (hne : h ≠ h') :
    (s.clearAddress h').address h = s.address h := by
  unfold State.address State.clearAddress
  rw [List.getElem?_modify_ne _ _ (Ne.symm hne)]

/-- Every step lets callbacks continue, begins one or ends one; only the addresses of its
objects change. -/
theorem Step.callbacks_addresses (h : Step jvm s l s') :
    Continues s s' ∨
      (∃ t, Begins s s' t [s.handles.length, s.handles.length + 1, s.handles.length + 2] ∧
        ∀ h, s'.address h =
          if h ∈ [s.handles.length, s.handles.length + 1, s.handles.length + 2] then
            some s.callbacks.length
          else s.address h) ∨
      ∃ t c hs, Returns s s' t c hs ∧ ∀ h, h ∉ hs → s'.address h = s.address h := by
  have hrefl : ∀ {s' : State}, s'.threads = s.threads → s'.callbacks = s.callbacks →
      s'.handles = s.handles → Continues s s' := by
    intro s' hthreads hcallbacks hhandles
    refine ⟨fun u => ?_, fun c => by rw [hcallbacks], hhandles⟩
    rw [State.stack, hthreads]
    rfl
  have hthread : ∀ {t : Tid} {th : Thread} {s' : State}, s'.callbacks = s.callbacks →
      s'.handles = s.handles → s'.threads = s.threads →
      owners th.frames = owners (s.threads t).frames → Continues s (s'.setThread t th) :=
    fun hcallbacks hhandles hthreads howners =>
      continues_of_setThread hcallbacks hhandles hthreads howners
  cases h with
  | register | unregister | nativeInert => exact Or.inl (hrefl rfl rfl rfl)
  | callUnhooked | callSuppressed | prepareSkipped | prepareBroadcast =>
      exact Or.inl (hthread rfl rfl rfl rfl)
  | callBroadcast =>
      exact Or.inr (Or.inl ⟨_, .of_malloc (onMethodEntry.begins rfl),
        State.address_newHandles _ _ _ _ _⟩)
  | leaveSkipped hframes =>
      exact Or.inl (hthread rfl rfl rfl (by rw [hframes]; rfl))
  | leaveBroadcast hframes =>
      exact Or.inr (Or.inl ⟨_, onMethodExit.begins hframes, State.address_newHandles _ _ _ _ _⟩)
  | broadcast hframes => exact Or.inl (hthread rfl rfl rfl (by rw [hframes]; rfl))
  | dispatchEntry hframes => exact Or.inl (hthread rfl rfl rfl (by rw [hframes]; rfl))
  | dispatchExit hframes => exact Or.inl (hthread rfl rfl rfl (by rw [hframes]; rfl))
  | finishEntry hframes =>
      refine Or.inr (Or.inr ⟨_, _, _, onMethodEntry.returns hframes, fun h hnot => ?_⟩)
      simp only [List.mem_cons, List.not_mem_nil, or_false, not_or] at hnot
      exact (State.address_clearAddress _ hnot.1).trans ((State.address_clearAddress _ hnot.2.2).trans
        (State.address_clearAddress _ hnot.2.1))
  | finishExit hframes =>
      refine Or.inr (Or.inr ⟨_, _, _, onMethodExit.returns hframes, fun h hnot => ?_⟩)
      simp only [List.mem_cons, List.not_mem_nil, or_false, not_or] at hnot
      exact (State.address_clearAddress _ hnot.1).trans ((State.address_clearAddress _ hnot.2.1).trans
        ((State.address_clearAddress _ hnot.2.2).trans (State.address_clearAddress _ hnot.2.1)))
  | finishPrepare hframes => exact Or.inl (hthread rfl rfl rfl (by rw [hframes]; rfl))
  | nativeLive hhandle haddress hcb hrunning hcall =>
      exact Or.inl (continues_of_native hcb (HandleOp.call_returned hcall))
  | threadEnd hframes => exact Or.inl (hthread rfl rfl rfl rfl)

/-- Every step lets callbacks continue, begins one or ends one. -/
theorem Step.callbacks (h : Step jvm s l s') :
    Continues s s' ∨
      (∃ t, Begins s s' t [s.handles.length, s.handles.length + 1, s.handles.length + 2]) ∨
      ∃ t c hs, Returns s s' t c hs := by
  rcases h.callbacks_addresses with hcontinues | ⟨t, hbegins, _⟩ | ⟨t, c, hs, hreturns, _⟩
  · exact Or.inl hcontinues
  · exact Or.inr (Or.inl ⟨t, hbegins⟩)
  · exact Or.inr (Or.inr ⟨t, c, hs, hreturns⟩)

/-! ## Who runs what, before and after -/

theorem Begins.running_self {hs : List HandleId} (h : Begins s s' t hs) :
    s'.runningCallbacks t = s.callbacks.length :: s.runningCallbacks t :=
  congrArg (List.map Prod.fst) h.stack_self

theorem Begins.running_of_ne {hs : List HandleId} (h : Begins s s' t hs) {u : Tid} (hut : u ≠ t) :
    s'.runningCallbacks u = s.runningCallbacks u :=
  congrArg (List.map Prod.fst) (h.stack_of_ne u hut)

/-- Only the new callback was not there before. -/
theorem Begins.mem_owners {hs : List HandleId} (h : Begins s s' t hs) {u : Tid}
    {x : CallbackId × List HandleId} (hx : x ∈ owners (s'.stack u)) :
    x = (s.callbacks.length, hs) ∨ x ∈ owners (s.stack u) := by
  by_cases hut : u = t
  · subst hut
    rw [h.stack_self] at hx
    exact List.mem_cons.mp hx
  · exact Or.inr (h.stack_of_ne u hut ▸ hx)

theorem Begins.mem_owners_of_mem {hs : List HandleId} (h : Begins s s' t hs) {u : Tid}
    {x : CallbackId × List HandleId} (hx : x ∈ owners (s.stack u)) : x ∈ owners (s'.stack u) := by
  refine mem_of_others h.stack_of_ne (fun ht => ?_) hx
  rw [h.stack_self]
  exact List.mem_cons_of_mem _ ht

theorem Returns.running_self {c : CallbackId} {hs : List HandleId} (h : Returns s s' t c hs) :
    s.runningCallbacks t = c :: s'.runningCallbacks t :=
  congrArg (List.map Prod.fst) h.stack_self

theorem Returns.running_of_ne {c : CallbackId} {hs : List HandleId} (h : Returns s s' t c hs)
    {u : Tid} (hut : u ≠ t) : s'.runningCallbacks u = s.runningCallbacks u :=
  congrArg (List.map Prod.fst) (h.stack_of_ne u hut)

/-- Only the callback that returns is not there afterwards. -/
theorem Returns.mem_owners_cases {c : CallbackId} {hs : List HandleId} (h : Returns s s' t c hs)
    {u : Tid} {x : CallbackId × List HandleId} (hx : x ∈ owners (s.stack u)) :
    x = (c, hs) ∨ x ∈ owners (s'.stack u) := by
  by_cases hut : u = t
  · subst hut
    rw [h.stack_self] at hx
    exact List.mem_cons.mp hx
  · exact Or.inr ((h.stack_of_ne u hut).symm ▸ hx)

theorem Returns.mem_owners {c : CallbackId} {hs : List HandleId} (h : Returns s s' t c hs)
    {u : Tid} {x : CallbackId × List HandleId} (hx : x ∈ owners (s'.stack u)) :
    x ∈ owners (s.stack u) := by
  refine mem_of_others' h.stack_of_ne (fun ht => ?_) hx
  rw [h.stack_self]
  exact List.mem_cons_of_mem _ ht

theorem State.exists_of_running {c : CallbackId} {u : Tid} (hc : c ∈ s.runningCallbacks u) :
    ∃ hs, (c, hs) ∈ owners (s.stack u) := by
  obtain ⟨⟨_, hs⟩, hmem, rfl⟩ := List.mem_map.mp hc
  exact ⟨hs, hmem⟩

/-! ## The invariant -/

structure HandlesOk (s : State) : Prop where
  /-- A callback is on one stack, once. -/
  exclusive : Exclusive s.runningCallbacks
  running : ∀ t, ∀ c ∈ s.runningCallbacks t,
    ∃ cb, s.callbacks[c]? = some cb ∧ cb.returned = false
  /-- An object with an address is one of a running callback's. -/
  owned : ∀ h o c, s.handles[h]? = some o → o.address = some c →
    o.creator = c ∧ ∃ t hs, (c, hs) ∈ owners (s.stack t) ∧ h ∈ hs

theorem handlesOk_initial : HandlesOk initialState where
  exclusive := exclusive_nil
  running := by
    intro t c hc
    cases hc
  owned := by
    intro h o c ho
    cases ho

theorem HandlesOk.continues (h : HandlesOk s) (hstep : Continues s s') : HandlesOk s' := by
  have hsame : s'.runningCallbacks = s.runningCallbacks := by
    funext t
    rw [State.runningCallbacks, hstep.stack t]
    rfl
  refine ⟨hsame ▸ h.exclusive, fun t c hc => ?_, fun h' o c ho ha => ?_⟩
  · rw [hsame] at hc
    obtain ⟨cb, hcb, hrunning⟩ := h.running t c hc
    have hkept := hstep.callbacks c
    rw [hcb, Option.map_some, hrunning] at hkept
    exact Option.map_eq_some_iff.mp hkept
  · rw [hstep.handles] at ho
    obtain ⟨hcreator, t, hs, hmem, hh⟩ := h.owned h' o c ho ha
    exact ⟨hcreator, t, hs, hstep.stack t ▸ hmem, hh⟩

/-- A callback that runs was created before. -/
theorem HandlesOk.running_lt {c : CallbackId} {u : Tid} (h : HandlesOk s)
    (hc : c ∈ s.runningCallbacks u) : c < s.callbacks.length := by
  obtain ⟨cb, hcb, _⟩ := h.running u c hc
  exact (List.getElem?_eq_some_iff.mp hcb).1

theorem HandlesOk.begins {hs : List HandleId} (h : HandlesOk s) (hstep : Begins s s' t hs) :
    HandlesOk s' := by
  have hnew : ∀ u, s.callbacks.length ∉ s.runningCallbacks u :=
    fun u hmem => Nat.lt_irrefl _ (h.running_lt hmem)
  obtain ⟨cb, hrunning, hcallbacks⟩ := hstep.callbacks
  refine ⟨h.exclusive.acquire (fun u => hstep.running_of_ne) hstep.running_self hnew,
    fun u c hc => ?_, fun h' o c ho ha => ?_⟩
  · obtain ⟨hs', hmem⟩ := State.exists_of_running hc
    rw [hcallbacks]
    rcases hstep.mem_owners hmem with heq | hold
    · obtain ⟨rfl, _⟩ := Prod.mk.inj heq
      exact ⟨cb, List.getElem?_concat_length, hrunning⟩
    · have hc' : c ∈ s.runningCallbacks u := List.mem_map_of_mem hold
      obtain ⟨cb', hcb', hrunning'⟩ := h.running u c hc'
      exact ⟨cb', (List.getElem?_append_left (h.running_lt hc')).trans hcb', hrunning'⟩
  · rcases hstep.handles h' o ho with hkept | ⟨hmem, haddress, hcreator⟩
    · obtain ⟨hcreator, u, hs', hmem, hh⟩ := h.owned h' o c hkept ha
      exact ⟨hcreator, u, hs', hstep.mem_owners_of_mem hmem, hh⟩
    · obtain rfl := Option.some.inj (haddress.symm.trans ha)
      refine ⟨hcreator, t, hs, ?_, hmem⟩
      rw [hstep.stack_self]
      exact List.mem_cons_self

/-- The callback that returns runs nowhere afterwards. -/
theorem HandlesOk.release {c : CallbackId} {hs : List HandleId} (h : HandlesOk s)
    (hstep : Returns s s' t c hs) :
    Exclusive s'.runningCallbacks ∧ ∀ u, c ∉ s'.runningCallbacks u :=
  h.exclusive.release (fun _ => hstep.running_of_ne) hstep.running_self

theorem HandlesOk.returns {c : CallbackId} {hs : List HandleId} (h : HandlesOk s)
    (hstep : Returns s s' t c hs) : HandlesOk s' := by
  obtain ⟨hexclusive, hgone⟩ := h.release hstep
  refine ⟨hexclusive, fun u d hd => ?_, fun h' o d ho ha => ?_⟩
  · obtain ⟨hs', hmem⟩ := State.exists_of_running hd
    have hold : d ∈ s.runningCallbacks u := List.mem_map_of_mem (hstep.mem_owners hmem)
    have hne : ¬ c = d := by
      rintro rfl
      exact hgone u hd
    obtain ⟨cb, hcb, hrunning⟩ := h.running u d hold
    refine ⟨cb, ?_, hrunning⟩
    rw [hstep.callbacks, List.getElem?_modify]
    simpa [hne] using hcb
  · obtain ⟨hnot, hkept⟩ := hstep.handles h' o d ho ha
    obtain ⟨hcreator, u, hs', hmem, hh⟩ := h.owned h' o d hkept ha
    refine ⟨hcreator, u, hs', ?_, hh⟩
    rcases hstep.mem_owners_cases hmem with heq | hmem
    · obtain ⟨_, rfl⟩ := Prod.mk.inj heq
      exact absurd hh hnot
    · exact hmem

theorem HandlesOk.step (h : HandlesOk s) (hstep : step jvm s l = some s') : HandlesOk s' := by
  rcases (step_cases hstep).callbacks with hcontinues | ⟨t, hbegins⟩ | ⟨t, c, hs, hreturns⟩
  · exact h.continues hcontinues
  · exact h.begins hbegins
  · exact h.returns hreturns

theorem handlesOk_of_reachable (h : Reachable (JvmHookFramework.step jvm) initialState s) :
    HandlesOk s :=
  reachable_invariant handlesOk_initial (fun _ _ _ hok hstep => hok.step hstep) h

/-- The objects of a running callback lead to it. -/
def AddressesOk (s : State) : Prop :=
  ∀ t c hs h, (c, hs) ∈ owners (s.stack t) → h ∈ hs → s.address h = some c

theorem AddressesOk.step (h : AddressesOk s) (hok : HandlesOk s)
    (hstep : step jvm s l = some s') : AddressesOk s' := by
  rcases (step_cases hstep).callbacks_addresses with hcontinues | ⟨t, hbegins, haddress⟩ |
    ⟨t, c, hs, hreturns, haddress⟩
  · intro u d hs' h' hmem hh
    rw [hcontinues.stack u] at hmem
    unfold State.address
    rw [hcontinues.handles]
    exact h u d hs' h' hmem hh
  · have hlt : ∀ {h' : HandleId} {d : CallbackId}, s.address h' = some d →
        h' < s.handles.length := by
      intro h' d hd
      obtain ⟨o, ho, _⟩ := Option.bind_eq_some_iff.mp hd
      exact (List.getElem?_eq_some_iff.mp ho).1
    have hold : ∀ u d hs' h', (d, hs') ∈ owners (s.stack u) → h' ∈ hs' →
        s'.address h' = some d := by
      intro u d hs' h' hmem hh
      have hd := h u d hs' h' hmem hh
      have hbound := hlt hd
      rw [haddress, if_neg fun hnew => Nat.not_lt.mpr (le_of_mem_newHandles hnew) hbound, hd]
    intro u d hs' h' hmem hh
    rcases hbegins.mem_owners hmem with heq | hmem
    · obtain ⟨rfl, rfl⟩ := Prod.mk.inj heq
      rw [haddress, if_pos hh]
    · exact hold u d hs' h' hmem hh
  · intro u d hs' h' hmem hh
    have hreturned : c ∉ s'.runningCallbacks u := (hok.release hreturns).2 u
    have hmem' : (d, hs') ∈ owners (s.stack u) := hreturns.mem_owners hmem
    have hd := h u d hs' h' hmem' hh
    rw [haddress h' fun hin => ?_, hd]
    -- an object of the one that returns leads to it, not to `d`
    have hc : s.address h' = some c :=
      h t c hs h' (hreturns.stack_self ▸ List.mem_cons_self) hin
    obtain rfl := Option.some.inj (hc.symm.trans hd)
    exact hreturned (List.mem_map_of_mem hmem)

theorem addressesOk_of_reachable (h : Reachable (JvmHookFramework.step jvm) initialState s) :
    AddressesOk s := by
  have hinit : AddressesOk initialState := fun t c hs h hmem => absurd hmem List.not_mem_nil
  refine reachable_invariant_with hinit ?_ h
  intro s l s' hreachable hinv hstep
  exact hinv.step (handlesOk_of_reachable hreachable) hstep

/-! ## Kept objects -/

/-- The object has no address; nor will it ever have one again. -/
def Kept (h : HandleId) (s : State) : Prop :=
  h < s.handles.length ∧ ∀ o, s.handles[h]? = some o → o.address = none

theorem Kept.step {h : HandleId} (hkept : Kept h s) (hstep : step jvm s l = some s') :
    Kept h s' := by
  obtain ⟨hlt, hnone⟩ := hkept
  rcases (step_cases hstep).callbacks with hcontinues | ⟨t, hbegins⟩ | ⟨t, c, hs, hreturns⟩
  · unfold Kept
    rw [hcontinues.handles]
    exact ⟨hlt, hnone⟩
  · refine ⟨Nat.lt_of_lt_of_le hlt hbegins.more, fun o ho => ?_⟩
    rcases hbegins.handles h o ho with hold | ⟨hmem, _⟩
    · exact hnone o hold
    · exact absurd hlt (Nat.not_lt.mpr (le_of_mem_newHandles hmem))
  · refine ⟨hreturns.length ▸ hlt, fun o ho => ?_⟩
    by_contra hsome
    obtain ⟨a, ha⟩ := Option.ne_none_iff_exists'.mp hsome
    exact hsome (hnone o (hreturns.handles h o a ho ha).2)

theorem HandlesOk.kept {h : HandleId} {o : Handle} (hok : HandlesOk s)
    (ho : s.handles[h]? = some o) (hreturned : ¬ s.Runs o.creator) : Kept h s := by
  refine ⟨(List.getElem?_eq_some_iff.mp ho).1, fun o' ho' => ?_⟩
  obtain rfl := Option.some.inj (ho.symm.trans ho')
  by_contra hsome
  obtain ⟨a, ha⟩ := Option.ne_none_iff_exists'.mp hsome
  obtain ⟨rfl, t, hs, hmem, _⟩ := hok.owned h o a ho ha
  exact hreturned ⟨t, List.mem_map.mpr ⟨_, hmem, rfl⟩⟩

theorem Kept.native {h : HandleId} {op : HandleOp} {result : Result} (hkept : Kept h s)
    (hnative : s.native h op = some (result, s')) : result = op.inert ∧ s' = s := by
  unfold State.native at hnative
  split at hnative
  · cases hnative
  · rename_i o ho
    simp only [hkept.2 o ho] at hnative
    split at hnative
    · cases hnative
    · rename_i res cb refs hcall
      have hinert := HandleOp.call_of_null hcall
      simp only [Prod.mk.injEq] at hinert
      obtain ⟨rfl, _, rfl⟩ := hinert
      obtain ⟨rfl, rfl⟩ := Prod.mk.inj (Option.some.inj hnative)
      exact ⟨rfl, rfl⟩

end

/-- An object that a callback created has an address only while that callback is on a
stack.  From the return of the callback on, at every later point of the run, a native
method called on the object returns the default and changes nothing. -/
theorem kept_handles_inert (jvm : Jvm) (s : State)
    (hreachable : Reachable (step jvm) initialState s) :
    (∀ o ∈ s.handles, o.address ≠ none → o.address = some o.creator ∧ s.Runs o.creator) ∧
    ∀ h o, s.handles[h]? = some o → ¬ s.Runs o.creator →
      ∀ ls s₁, run (step jvm) s ls = some s₁ →
        ∀ op result s₂, s₁.native h op = some (result, s₂) → result = op.inert ∧ s₂ = s₁ := by
  have hok := handlesOk_of_reachable hreachable
  constructor
  · intro o ho hsome
    obtain ⟨h, hh⟩ := List.mem_iff_getElem?.mp ho
    obtain ⟨a, ha⟩ := Option.ne_none_iff_exists'.mp hsome
    obtain ⟨rfl, t, hs, hmem, _⟩ := hok.owned h o a hh ha
    exact ⟨ha, t, List.mem_map.mpr ⟨_, hmem, rfl⟩⟩
  · intro h o ho hreturned ls s₁ hrun op result s₂ hnative
    have hkept : Kept h s₁ :=
      run_invariant (fun _ _ _ hk hstep => hk.step hstep) (hok.kept ho hreturned) hrun
    exact hkept.native hnative

/-- The `Arguments` of a callback, kept until after its return. -/
theorem kept_handles_inert_arguments :
    ∃ s, Reachable (step .plain) initialState s ∧ ¬ s.Runs 0 ∧
      (s.native 0 (.get .getAsInt 0)).map Prod.fst = some (.value (some (.i (-1)))) := by
  let ls : List Label := [.register ⟨1⟩ (some ⟨5⟩), .call 0 ⟨1⟩ fun _ => none, .broadcast 0,
    .finish 0 true]
  let s := (run (step .plain) initialState ls).get rfl
  have hreachable : Reachable (step .plain) initialState s := ⟨ls, rfl⟩
  have hreturned : ¬ s.Runs 0 := by
    rintro ⟨t, hmem⟩
    obtain ⟨cb, hcb, hrunning⟩ := (handlesOk_of_reachable hreachable).running t 0 hmem
    have hdone : (s.callbacks[0]?).map Callback.returned = some true := rfl
    rw [hcb, Option.map_some, hrunning] at hdone
    cases hdone
  refine ⟨s, hreachable, hreturned, ?_⟩
  obtain ⟨hresult, _⟩ := (kept_handles_inert .plain s hreachable).2 0 _ rfl hreturned [] s rfl
    (.get .getAsInt 0) _ _ rfl
  exact congrArg some hresult

end JvmHookFramework
