/-
  Agent/Calls.lean --- what the hooks are really called with.

  The abstract agent calls hooks that it has collected, and describes methods to them.  The
  machine has references for both, and a reference can be dead by the time it is used:
  `unregisterHook` deletes a hook that an array still holds, and the strings of an exit
  belong to the callback of an entry that is gone.  Here a dead reference is told from a
  live one.  The machine hands out references to what the abstract agent emits, in the same
  order; those to hooks are all live exactly when nothing disturbs a dispatch.
-/
import JvmHookFramework.Agent.Refinement

set_option autoImplicit false

namespace JvmHookFramework

open Foundation Foundation.SlotChain Foundation.GuardStack

/-! ## References as they are found -/

/-- What native code hands out. -/
inductive Handed (α : Type) where
  /-- A live reference, or null. -/
  | read (x : Option α)
  /-- A reference that was made for `x` and has been deleted, or whose callback has returned, or
  that is in an array that was freed.  What it denotes no one knows; `x` cannot be read. -/
  | dead (x : Option α)
  /-- Memory in which no reference was stored. -/
  | unwritten
  deriving DecidableEq, Repr

/-- What the reference was made for. -/
def Handed.made {α : Type} : Handed α → Option (Option α)
  | .read x | .dead x => some x
  | .unwritten => none

/-- `valueOfPointer(pointer, i)` as the loops get it. -/
def State.handed (s : State) (pointer : ArrayId) (i : Nat) : Handed Obj :=
  match s.arrays[pointer]? with
  | none => .unwritten
  | some m =>
      match m.array.cells[i]? with
      | none => .unwritten
      | some hook =>
          if m.frees = 0 ∧ ∀ ref ∈ hook, s.registry.hookRefs.Live ref then
            .read (denote s.registry.hookRefs hook)
          else .dead (denote s.registry.hookRefs hook)

/-- A string that a callback on `t` gives to the hooks.  It puts it into their objects when it
begins, and nothing below it on the stack ends as long as it calls them: the string is valid
when a hook is called if and only if it was then. -/
def State.string (s : State) (t : Tid) (j : Option Jstring) : Handed (List Char) :=
  if ∀ x ∈ j, x.Valid s t then .read (j.map Jstring.chars) else .dead (j.map Jstring.chars)

/-- What a hook is told about the method. -/
structure Told where
  owner : Klass
  name : Handed (List Char)
  desc : Handed (List Char)
  modifiers : BitVec 32
  deriving DecidableEq, Repr

def State.told (s : State) (t : Tid) (call : MethodCallImpl) : Told where
  owner := call.owner
  name := s.string t call.metName
  desc := s.string t call.metDesc
  modifiers := call.modifiers

/-- All of it can be read. -/
def Metadata.told (about : Metadata) : Told where
  owner := about.owner
  name := .read about.name
  desc := .read about.desc
  modifiers := about.modifiers

/-- All of it, with dead strings. -/
def Metadata.stale (about : Metadata) : Told where
  owner := about.owner
  name := .dead about.name
  desc := .dead about.desc
  modifiers := about.modifiers

/-- It is `about`, except that the strings may be dead. -/
structure Told.For (about : Metadata) (told : Told) : Prop where
  owner : told.owner = about.owner
  name : told.name.made = some about.name
  desc : told.desc.made = some about.desc
  modifiers : told.modifiers = about.modifiers

/-! ## Calls of hooks -/

inductive HookCall where
  | preInvoke (told : Told) (hook : Handed Obj)
  | postInvoke (told : Told) (hook : Handed Obj) (isException : Bool) (value : Option Jvalue)
  | classPrepare (klass : Klass) (loader : Option Obj)
  deriving DecidableEq

/-- The next call of a broadcast loop. -/
def Frame.hookCall (s : State) (t : Tid) : Frame → Option HookCall
  | .methodEntry c =>
      c.loop.map fun i => .preInvoke (s.told t c.call) (s.handed c.hookInstances i)
  | .methodExit c =>
      some (.postInvoke (s.told t c.call) (s.handed c.pointer c.i) (s.isException c.retV)
        (s.returnValue c.callback).join)
  | .activation _ | .classPrepare => none

/-- What the step calls hooks with: `hookEvents`, with references as they are found. -/
def hookCalls (jvm : Jvm) (s : State) : Label → List (Tid × HookCall)
  | .dispatch t =>
      ((s.stack t).head?.bind (Frame.hookCall s t)).toList.map fun call => (t, call)
  | .prepare t klass =>
      if (s.stack t).length < ((onClassPrepare jvm s t klass).stack t).length then
        [(t, .classPrepare klass (jvm.GetClassLoader klass))]
      else []
  | _ => []

/-- The call is what the abstract agent emits, except that references may be dead: that to the
hook, and of an exit the strings. -/
def HookCall.Hears : HookCall → Agent.Event → Prop
  | .preInvoke told hook, .preInvoke about given => told = about.told ∧ hook.made = given
  | .postInvoke told hook isException value, .postInvoke about given isException' value' =>
      told.For about ∧ hook.made = given ∧ isException = isException' ∧ value = value'
  | .classPrepare klass loader, .classPrepare klass' loader' => klass = klass' ∧ loader = loader'
  | _, _ => False

/-- On the same thread. -/
def Heard (x : Tid × HookCall) (y : Tid × Agent.Event) : Prop := x.1 = y.1 ∧ x.2.Hears y.2

def HookCall.isPreInvoke : HookCall → Bool
  | .preInvoke _ _ => true
  | .postInvoke _ _ _ _ | .classPrepare _ _ => false

def HookCall.isPostInvoke : HookCall → Bool
  | .postInvoke _ _ _ _ => true
  | .preInvoke _ _ | .classPrepare _ _ => false

/-- The hook can be read, null or not. -/
def HookCall.HookRead : HookCall → Prop
  | .preInvoke _ hook | .postInvoke _ hook _ _ => ∃ o, hook = .read o
  | .classPrepare _ _ => True

section

variable {jvm : Jvm} {s s' : State} {t : Tid} {l : Label}

/-! ## Strings -/

/-- The strings of an entry callback are its own. -/
theorem entryStrings_of_reachable (hreachable : Reachable (step jvm) initialState s) (t : Tid) :
    ∀ c, .methodEntry c ∈ s.stack t → ∀ j ∈ c.call.strings, j.callback = c.callback := by
  refine @methodEntry_invariant jvm s
    (fun _ c => ∀ j ∈ c.call.strings, j.callback = c.callback) (fun _ _ hc => hc) ?_ hreachable t
  intro s s' t method frame c rest hstep hpasses hstack
  cases hstep with
  | callUnhooked halive hnone => exact absurd hnone hpasses.1
  | callSuppressed halive hsome hguard => exact absurd hguard hpasses.2
  | callBroadcast =>
      unfold onMethodEntry.begin at hstack
      rw [State.stack_setThread_self] at hstack
      obtain rfl := Frame.methodEntry.inj (List.cons.inj hstack).1
      simp [MethodCallImpl.strings]

theorem mem_strings_left {call : MethodCallImpl} {j : Jstring} (h : j ∈ call.metName) :
    j ∈ call.strings :=
  List.mem_append_left _ (Option.mem_toList.mpr h)

theorem mem_strings_right {call : MethodCallImpl} {j : Jstring} (h : j ∈ call.metDesc) :
    j ∈ call.strings :=
  List.mem_append_right _ (Option.mem_toList.mpr h)

/-- So the hooks of a call can read them. -/
theorem told_of_entry (hreachable : Reachable (step jvm) initialState s) {c : EntryCall}
    (hc : .methodEntry c ∈ s.stack t) : s.told t c.call = c.call.metadata.told := by
  have hvalid : ∀ j ∈ c.call.strings, j.Valid s t := by
    intro j hj
    unfold Jstring.Valid
    rw [entryStrings_of_reachable hreachable t c hc j hj]
    exact List.mem_map.mpr ⟨_, List.mem_filterMap.mpr ⟨_, hc, rfl⟩, rfl⟩
  have hname : s.string t c.call.metName = .read (c.call.metName.map Jstring.chars) :=
    if_pos fun j hj => hvalid j (mem_strings_left hj)
  have hdesc : s.string t c.call.metDesc = .read (c.call.metDesc.map Jstring.chars) :=
    if_pos fun j hj => hvalid j (mem_strings_right hj)
  unfold State.told
  rw [hname, hdesc]
  rfl

theorem State.made_string (s : State) (t : Tid) (j : Option Jstring) :
    (s.string t j).made = some (j.map Jstring.chars) := by
  unfold State.string
  split <;> rfl

theorem State.told_for (s : State) (t : Tid) (call : MethodCallImpl) :
    (s.told t call).For call.metadata where
  owner := rfl
  name := s.made_string t call.metName
  desc := s.made_string t call.metDesc
  modifiers := rfl

/-- The hooks of an exit cannot, if the entry was broadcast. -/
theorem BroadcastTwice.told {s₀ : State} {c₀ : EntryCall} {ls : List Label} {a : Activation}
    {c : ExitCall} (htwice : BroadcastTwice jvm t s₀ c₀ ls a s' c) :
    s'.told t c.call = (Agent.exitMetadata jvm a.method a.method).stale := by
  obtain ⟨⟨d, hname, hdesc, hdead⟩, _, hmetadata, _⟩ := htwice.reports
  have howner := congrArg Metadata.owner hmetadata
  have hmodifiers := congrArg Metadata.modifiers hmetadata
  have hstring : ∀ chars, s'.string t (some ⟨d, chars⟩) = .dead (some chars) :=
    fun _ => if_neg fun hvalid => hdead (hvalid _ rfl)
  unfold State.told
  rw [hname, hdesc, hstring, hstring]
  exact congrArg₂ (fun owner modifiers => Told.mk owner _ _ modifiers) howner hmodifiers

/-! ## Hooks -/

/-- A loop is handed a reference to the hook that was collected, where there is one. -/
theorem State.made_handed (s : State) (pointer : ArrayId) (i : Nat) :
    (s.handed pointer i).made = s.valueOfPointer pointer i := by
  unfold State.handed State.valueOfPointer State.snapshot
  cases s.arrays[pointer]? with
  | none => rfl
  | some m =>
      simp only [Option.map_some, Option.bind_some, MallocedArray.snapshot]
      cases m.array.cells[i]? with
      | none => rfl
      | some hook =>
          simp only [Option.map_some]
          split <;> rfl

/-- It can read it when the array is there and the reference is live. -/
theorem State.handed_read_iff {pointer : ArrayId} {i : Nat} :
    (∃ o, s.handed pointer i = .read o) ↔
      ∃ m, s.arrays[pointer]? = some m ∧ m.frees = 0 ∧
        ∃ hook, m.array.cells[i]? = some hook ∧
          ∀ ref, hook = some ref → s.registry.hookRefs.Live ref := by
  unfold State.handed
  cases s.arrays[pointer]? with
  | none => simp
  | some m =>
      cases hcell : m.array.cells[i]? with
      | none => simp [hcell]
      | some hook =>
          by_cases hlive : m.frees = 0 ∧ ∀ ref ∈ hook, s.registry.hookRefs.Live ref
          · simp only [hcell, if_pos hlive]
            exact iff_of_true ⟨_, rfl⟩ ⟨m, rfl, hlive.1, hook, hcell, hlive.2⟩
          · simp only [hcell, if_neg hlive]
            refine iff_of_false nofun ?_
            rintro ⟨m', hm, hfrees, hook', hhook, hrefs⟩
            obtain rfl := Option.some.inj hm
            obtain rfl := Option.some.inj (hcell.symm.trans hhook)
            exact hlive ⟨hfrees, hrefs⟩

/-- The calls of a step are what `hookEvents` has, dead references apart. -/
theorem hookCalls_heard (hreachable : Reachable (step jvm) initialState s) :
    List.Forall₂ Heard (hookCalls jvm s l) (hookEvents jvm s l) := by
  cases l with
  | register | unregister | native | call | leave | broadcast | finish | threadEnd => exact .nil
  | prepare t klass =>
      simp only [hookCalls, hookEvents]
      split
      · exact .cons ⟨rfl, rfl, rfl⟩ .nil
      · exact .nil
  | dispatch t =>
      simp only [hookCalls, hookEvents]
      rcases hstack : s.stack t with _ | ⟨_ | c | c | _, rest⟩
      · exact .nil
      · exact .nil
      · have hc : .methodEntry c ∈ s.stack t := hstack ▸ List.mem_cons_self
        simp only [List.head?_cons, Option.bind_some, Frame.hookCall]
        cases c.loop with
        | none => exact .nil
        | some i =>
            exact .cons ⟨rfl, told_of_entry hreachable hc, s.made_handed c.hookInstances i⟩ .nil
      · exact .cons ⟨rfl, s.told_for t c.call, s.made_handed c.pointer c.i, rfl, rfl⟩ .nil
      · exact .nil

/-- A loop calls a hook with what `valueOfPointer` hands it. -/
theorem Frame.hookRead_iff (f : Frame) (s : State) (t : Tid) :
    (∀ call, f.hookCall s t = some call → call.HookRead) ↔
      ∀ pointer i, f.valueOfPointer = some (pointer, i) → ∃ o, s.handed pointer i = .read o := by
  cases f with
  | activation | classPrepare => simp [Frame.hookCall, Frame.valueOfPointer]
  | methodEntry c => cases hloop : c.loop <;>
      simp [Frame.hookCall, Frame.valueOfPointer, hloop, HookCall.HookRead]
  | methodExit c => simp [Frame.hookCall, Frame.valueOfPointer, HookCall.HookRead]

theorem mem_hookCalls_dispatch {u : Tid} {call : HookCall} :
    (t, call) ∈ hookCalls jvm s (.dispatch u) ↔
      u = t ∧ ∃ f, (s.stack t).head? = some f ∧ f.hookCall s t = some call := by
  simp only [hookCalls, List.mem_map, Option.mem_toList, Option.bind_eq_some_iff, Prod.mk.injEq]
  constructor
  · rintro ⟨_, hcall, rfl, rfl⟩
    exact ⟨rfl, hcall⟩
  · rintro ⟨rfl, hcall⟩
    exact ⟨call, hcall, rfl, rfl⟩

/-- The hooks that a step calls on `t` can be read exactly when it dispatches to live
references there. -/
theorem hookRead_iff (hsome : (step jvm s l).isSome = true) (t : Tid) :
    (∀ call, (t, call) ∈ hookCalls jvm s l → call.HookRead) ↔ DispatchLive jvm t s l := by
  have hnone : l ≠ .dispatch t → DispatchLive jvm t s l := fun hne _ _ _ _ hl => absurd hl hne
  cases l with
  | register | unregister | native | call | leave | broadcast | finish | threadEnd =>
      exact iff_of_true (fun _ hcall => absurd hcall List.not_mem_nil) (hnone nofun)
  | prepare u klass =>
      refine iff_of_true (fun call hcall => ?_) (hnone nofun)
      simp only [hookCalls] at hcall
      split at hcall
      · obtain ⟨_, rfl⟩ := Prod.mk.inj (List.mem_singleton.mp hcall)
        trivial
      · cases hcall
  | dispatch u =>
      simp only [mem_hookCalls_dispatch]
      constructor
      · rintro hread f rest pointer i hl _ hstack hvalue
        have hcalls := (f.hookRead_iff s t).mp fun call hcall =>
          hread call ⟨Label.dispatch.inj hl, f, by rw [hstack]; rfl, hcall⟩
        exact State.handed_read_iff.mp (hcalls pointer i hvalue)
      · rintro hlive call ⟨rfl, f, hf, hcall⟩
        obtain ⟨rest, hstack⟩ := List.head?_eq_some_iff.mp hf
        refine (f.hookRead_iff s u).mpr (fun pointer i hvalue => ?_) call hcall
        exact State.handed_read_iff.mpr (hlive f rest pointer i rfl hsome hstack hvalue)

/-- Every call is one that the abstract agent emits. -/
theorem exists_heard {calls : List (Tid × HookCall)} {events : List (Tid × Agent.Event)}
    (h : List.Forall₂ Heard calls events) {x : Tid × HookCall} (hx : x ∈ calls) :
    ∃ e, (x.1, e) ∈ events ∧ x.2.Hears e := by
  induction h with
  | nil => cases hx
  | @cons c e calls events hheard _ ih =>
      rcases List.mem_cons.mp hx with rfl | hx
      · refine ⟨e.2, ?_, hheard.2⟩
        rw [hheard.1]
        exact List.mem_cons_self
      · obtain ⟨e', hmem, hheard'⟩ := ih hx
        exact ⟨e', List.mem_cons_of_mem _ hmem, hheard'⟩

/-- The calls of a run are what `hookEvents` has, dead references apart. -/
theorem calls_heard (jvm : Jvm) (ls : List Label) :
    List.Forall₂ Heard (emitted (step jvm) (hookCalls jvm) initialState ls)
      (emitted (step jvm) (hookEvents jvm) initialState ls) :=
  emitted_forall₂ (fun _ _ _ hreachable _ => hookCalls_heard hreachable) (.refl initialState)

/-- Those of `t` go through live references exactly when nothing disturbs a dispatch of `t`. -/
theorem calls_read_iff (jvm : Jvm) (ls : List Label) (t : Tid) :
    (∀ call, (t, call) ∈ emitted (step jvm) (hookCalls jvm) initialState ls → call.HookRead) ↔
      ∀ s l, Takes (step jvm) initialState ls s l → DispatchUndisturbed jvm t s l := by
  have hthread : (∀ call, (t, call) ∈ emitted (step jvm) (hookCalls jvm) initialState ls →
      call.HookRead) ↔
        ∀ x ∈ emitted (step jvm) (hookCalls jvm) initialState ls, x.1 = t → x.2.HookRead := by
    constructor
    · rintro hread ⟨_, call⟩ hx rfl
      exact hread call hx
    · exact fun hread call hcall => hread (t, call) hcall rfl
  rw [hthread, forall_emitted_iff]
  refine forall_takes_congr fun s l hreachable => ?_
  rw [← dispatchLive_iff hreachable]
  constructor
  · intro hread f rest pointer i hl hsome
    refine (hookRead_iff hsome t).mp (fun call hcall => ?_) f rest pointer i hl hsome
    exact hread hsome (t, call) hcall rfl
  · rintro hlive hsome ⟨_, call⟩ hcall rfl
    exact (hookRead_iff hsome _).mpr hlive call hcall

end

/-- A run of the machine is a run of the abstract agent over the same labels, and in it the
hooks are called with what the abstract agent emits, except for dead references.  The hooks of
a thread are all called through live references or null exactly when nothing disturbs a dispatch
of it. -/
theorem calls_refine_agent (jvm : Jvm) (ls : List Label) (s : State)
    (hrun : run (step jvm) initialState ls = some s) :
    run (Agent.machine jvm).step Agent.initial ls = some s.abstract ∧
      List.Forall₂ Heard (emitted (step jvm) (hookCalls jvm) initialState ls)
        (emitted (Agent.machine jvm).step (Agent.machine jvm).events Agent.initial ls) ∧
      ∀ t, (∀ call, (t, call) ∈ emitted (step jvm) (hookCalls jvm) initialState ls →
          call.HookRead) ↔
        ∀ s₁ l, Takes (step jvm) initialState ls s₁ l → DispatchUndisturbed jvm t s₁ l := by
  obtain ⟨hagent, hevents⟩ := runs_refine_agent jvm ls s hrun
  refine ⟨hagent, ?_, calls_read_iff jvm ls⟩
  rw [← hevents]
  exact calls_heard jvm ls

/-- A hooked call and its exit. -/
def announcedCallRun : List Label :=
  [.register ⟨1⟩ (some ⟨5⟩), .call 0 ⟨1⟩ fun _ => none, .broadcast 0, .dispatch 0,
    .finish 0 false, .leave 0 false none, .dispatch 0, .finish 0 false]

/-- The strings of the exit are dead. -/
theorem calls_refine_agent_announcedCall :
    ∃ s, run (step .plain) initialState announcedCallRun = some s ∧
      run (Agent.machine .plain).step Agent.initial announcedCallRun = some s.abstract ∧
      List.Forall₂ Heard
        [(0, .preInvoke (Jvm.plain.metadata ⟨1⟩).told (.read (some ⟨5⟩))),
          (0, .postInvoke (Agent.exitMetadata .plain ⟨1⟩ ⟨1⟩).stale
            (.read (some ⟨5⟩)) false none)]
        (emitted (Agent.machine .plain).step (Agent.machine .plain).events Agent.initial
          announcedCallRun) := by
  have hcalls : emitted (step .plain) (hookCalls .plain) initialState announcedCallRun =
      [(0, .preInvoke (Jvm.plain.metadata ⟨1⟩).told (.read (some ⟨5⟩))),
        (0, .postInvoke (Agent.exitMetadata .plain ⟨1⟩ ⟨1⟩).stale
          (.read (some ⟨5⟩)) false none)] := rfl
  obtain ⟨hrefines, hheard, _⟩ := calls_refine_agent .plain announcedCallRun _ rfl
  exact ⟨_, rfl, hrefines, hcalls ▸ hheard⟩

end JvmHookFramework
