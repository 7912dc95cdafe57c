/-
  Agent/Refinement.lean --- the machine does what the abstract agent does.

  In a reachable state the flags of a thread say what is on its stack, its record says
  whose call was announced last, and every reference in the registry denotes the hook that
  was registered.  So a step of the machine is a step of the abstract agent, and its hooks
  are called with what the abstract agent emits.
-/
import JvmHookFramework.Agent.View
import JvmHookFramework.Foundation.Simulation

set_option autoImplicit false

namespace JvmHookFramework

open Foundation Foundation.SlotChain Foundation.GuardStack

/-! ## The registry -/

section Registry

variable {jvm : Jvm} {r r' : Registry} {method : JmethodID} {hook : Option Obj}

theorem Registry.hooked_registerHook (hok : r.Ok) (method : JmethodID) (hook : Option Obj) :
    (registerHook r method hook).hooked = fill r.hooked (method, hook) := by
  unfold Registry.hooked
  rw [registerHook_slots, registerHook_hookRefs, fill_map, denote_NewGlobalRef]
  congr 1
  refine List.map_congr_left fun slot hslot => ?_
  cases slot with
  | none => rfl
  | some reg =>
      have hstored := hok.stored_lt (mem_values.mpr hslot)
      rw [Option.map_some, Option.map_some, denote_NewGlobalRef_of_lt hook hstored]

theorem Registry.none_mem_hooked : none ∈ r.hooked ↔ none ∈ r.slots := by
  unfold Registry.hooked
  simp

theorem Registry.hooked_unregisterHook (h : unregisterHook jvm r method hook = some r') :
    r'.hooked = clear (Agent.named jvm method hook) r.hooked := by
  obtain ⟨hslots, _, hrefs⟩ := unregisterHook_spec h
  unfold Registry.hooked
  have hsame : ∀ reg : Registration, denote r'.hookRefs reg.2 = denote r.hookRefs reg.2 := by
    intro reg
    unfold denote
    rw [hrefs]
    exact congrArg _ (funext fun q => RefTable.get?_deleteAll _ _ q)
  simp only [hsame]
  rw [hslots, clear_map]
  intro reg _
  rfl

theorem Registry.hooksOf_hooked (jvm : Jvm) (r : Registry) (m : JmethodID) :
    Agent.hooksOf jvm r.hooked m = (r.hooksOf jvm m).map (denote r.hookRefs) := by
  unfold Agent.hooksOf Registry.hooked Registry.hooksOf ofMethod Registry.registrations
  rw [values_map, List.filter_map, List.map_map, List.map_map]
  rfl

end Registry

/-! ## One thread -/

section

variable {jvm : Jvm} {s s' : State} {t u : Tid} {l : Label}

/-- A flag is set exactly while something of its kind is on the abstract stack. -/
theorem State.any_view {g : Guard} {q : Agent.Frame → Bool}
    (hexact : Exact (s.info t).flag (s.running t))
    (hq : ∀ f : Frame, q (f.view s) = true ↔ f.guard = some g) :
    (s.view t).stack.any q = (s.info t).flag g := by
  rw [Bool.eq_iff_iff, hexact.set_iff, State.running, mem_guards, List.any_eq_true]
  constructor
  · rintro ⟨_, hmem, htrue⟩
    obtain ⟨f, hf, rfl⟩ := List.mem_map.mp hmem
    exact ⟨f, hf, (hq f).mp htrue⟩
  · rintro ⟨f, hf, hguard⟩
    exact ⟨_, List.mem_map_of_mem hf, (hq f).mpr hguard⟩

theorem State.any_isEntering (hexact : Exact (s.info t).flag (s.running t)) :
    (s.view t).stack.any Agent.Frame.isEntering = (s.info t).runningHook := by
  refine State.any_view (g := .runningHook) hexact fun f => ?_
  cases f <;> simp [Frame.view, Agent.Frame.isEntering, Frame.guard]

theorem State.any_isExiting (hexact : Exact (s.info t).flag (s.running t)) :
    (s.view t).stack.any Agent.Frame.isExiting = (s.info t).exitingMethod := by
  refine State.any_view (g := .exitingMethod) hexact fun f => ?_
  cases f <;> simp [Frame.view, Agent.Frame.isExiting, Frame.guard]

theorem State.any_isPreparing (hexact : Exact (s.info t).flag (s.running t)) :
    (s.view t).stack.any Agent.Frame.isPreparing =
      (s.info t).broadcastingMethodPrepareLoad := by
  refine State.any_view (g := .broadcastingMethodPrepareLoad) hexact fun f => ?_
  cases f <;> simp [Frame.view, Agent.Frame.isPreparing, Frame.guard]

/-- The agent announces the calls that pass the guards of `onMethodEntry`. -/
theorem State.announces_iff (hexact : Exact (s.info t).flag (s.running t)) (m : JmethodID) :
    (s.view t).announces jvm s.registry.hooked m = true ↔ EntryPasses jvm s t m := by
  unfold Agent.Thread.announces EntryPasses EntrySuppressed
  rw [State.any_isEntering hexact, State.any_isExiting hexact, Registry.hooksOf_hooked]
  simp only [Bool.and_eq_true, Bool.not_eq_true', List.isEmpty_eq_false_iff, ne_eq,
    List.map_eq_nil_iff, not_or, Bool.not_eq_true]
  tauto

/-- It announces the classes that pass the guards of `onClassPrepare`. -/
theorem State.announcesClass_iff (hexact : Exact (s.info t).flag (s.running t)) (klass : Klass) :
    (s.view t).announcesClass jvm klass = true ↔ PreparePasses jvm (s.info t) klass := by
  unfold Agent.Thread.announcesClass PreparePasses Agent.ownClass
  rw [State.any_isEntering hexact, State.any_isPreparing hexact]
  simp only [Bool.and_eq_true, Bool.not_eq_true', decide_eq_false_iff_not, not_or, ne_eq]
  tauto

/-- A step leaves alone what the frames and the record that it keeps stand for. -/
theorem Step.viewOf_kept (h : Step jvm s l s') (hcells : CellsOk jvm s)
    {info : HookInvokingInfo} {stack : List Frame} {ended : Bool}
    (hmade : ∀ f ∈ stack, f.Made s)
    (hallocated : ∀ a, info.hooks = some a → ∃ m, s.snapshot a = some m) :
    s'.viewOf info stack ended = s.viewOf info stack ended := by
  have hframes : stack.map (Frame.view s') = stack.map (Frame.view s) :=
    List.map_congr_left fun f hf => (hmade f hf).view h hcells
  have hpending : info.hooks.map s'.hooksIn = info.hooks.map s.hooksIn := by
    cases hhooks : info.hooks with
    | none => rfl
    | some a =>
        obtain ⟨m, hm⟩ := hallocated a hhooks
        rw [Option.map_some, Option.map_some, h.hooksIn hcells hm]
  unfold State.viewOf
  rw [hframes, hpending]

theorem State.view_setThread (s : State) (t : Tid) (th : Thread) :
    (s.setThread t th).view t =
      (s.setThread t th).viewOf th.getHookInvokingInfo th.frames th.ended := by
  unfold State.view
  rw [State.info_setThread_self, State.stack_setThread_self, State.setThread_threads_self]

/-- A step leaves alone what the thread keeps. -/
theorem Step.view_kept (h : Step jvm s l s') (hreachable : Reachable (step jvm) initialState s)
    {info : HookInvokingInfo} {stack : List Frame} {ended : Bool}
    (hframes : ∀ f ∈ stack, f ∈ s.stack t ∨ f.Made s)
    (hhooks : ∀ a, info.hooks = some a → (s.info t).hooks = some a ∨ ∃ m, s.snapshot a = some m) :
    s'.viewOf info stack ended = s.viewOf info stack ended := by
  refine h.viewOf_kept (cellsOk_of_reachable hreachable) (fun f hf => ?_) (fun a ha => ?_)
  · exact (hframes f hf).elim (made_of_reachable hreachable t f) id
  · exact (hhooks a ha).elim ((recordOk_of_reachable hreachable t).allocated a) id

/-- The block of `onMethodEntry` announces the call. -/
theorem onMethodEntry.view_begin (jvm : Jvm) (s : State) (t : Tid) (th : Thread)
    (method : JmethodID) (frame : Locals) (array : ArrayId) (parameters : List CallParameter)
    {hookCount : Nat} {hooks : List (Option Obj)} {s' : State}
    (hs' : s' = onMethodEntry.begin jvm s t th method frame hookCount array parameters)
    (hcount : hooks.length = hookCount) (hhooks : s'.hooksIn array = hooks) :
    s'.view t =
      (s'.viewOf th.getHookInvokingInfo th.frames th.ended).announce jvm method hooks := by
  subst hs'
  rw [Agent.Thread.announce, hcount, ← hhooks]
  unfold onMethodEntry.begin
  rw [State.view_setThread]
  rfl

theorem Step.move_call {method : JmethodID} {frame : Locals}
    (h : Step jvm s (.call t method frame) s')
    (hreachable : Reachable (step jvm) initialState s) :
    (s.view t).move jvm s.registry.hooked (.call t method frame) = some (s'.view t) := by
  have hexact := guarded_of_reachable hreachable t
  have hannounces_iff := @State.announces_iff jvm s t hexact method
  have hpushed : ∀ f ∈ Frame.activation (entered method frame) :: s.stack t,
      f ∈ s.stack t ∨ f.Made s := by
    intro f hf
    rcases List.mem_cons.mp hf with rfl | hf
    · exact Or.inr trivial
    · exact Or.inl hf
  have hsame : s'.viewOf (s.info t) (.activation (entered method frame) :: s.stack t)
      (s.threads t).ended = { s.view t with stack := .method method :: (s.view t).stack } :=
    h.view_kept hreachable hpushed fun _ ha => Or.inl ha
  have hmove : (s.threads t).ended = false →
      (s.view t).move jvm s.registry.hooked (.call t method frame) =
        some ((s.view t).call jvm s.registry.hooked method) := fun halive =>
    if_neg fun hended => Bool.false_ne_true (halive.symm.trans hended)
  cases hcases : h with
  | callUnhooked halive hnone =>
      have hannounces := mt hannounces_iff.mp fun hpasses => hpasses.1 hnone
      rw [hmove halive, Agent.Thread.call, if_neg hannounces, ← hsame, State.view_setThread]
      rfl
  | callSuppressed halive hsome hguard =>
      have hannounces := mt hannounces_iff.mp fun hpasses => hpasses.2 hguard
      rw [hmove halive, Agent.Thread.call, if_neg hannounces, ← hsame, State.view_setThread]
      rfl
  | @callBroadcast _ _ _ parameters halive hpasses hread =>
      have hannounces := hannounces_iff.mpr hpasses
      have hcollected := Registry.hooksOf_hooked jvm s.registry method
      have hcount := congrArg List.length hcollected
      rw [List.length_map] at hcount
      have hhooks := State.hooksIn_of_snapshot (h.snapshot_call hpasses.1)
      rw [hmove halive, Agent.Thread.call, if_pos hannounces, ← hsame,
        onMethodEntry.view_begin jvm _ t _ method frame _ parameters rfl hcount
          (hhooks.trans hcollected.symm)]
      rfl

/-- The exit callback is told what the agent announces of an exit. -/
theorem exit_metadata (hreachable : Reachable (step jvm) initialState s) {target : JmethodID}
    (htarget : (s.info t).targetMethod = some target) (m : JmethodID) :
    (s.info t).metadata (jvm.GetMethodDeclaringClass m) = Agent.exitMetadata jvm m target := by
  obtain ⟨c, _, ⟨hname, hdesc⟩, _⟩ := (stringsOk_of_reachable hreachable t).target _ htarget
  unfold HookInvokingInfo.metadata Agent.exitMetadata Jvm.metadata
  rw [hname, hdesc, modifiers_of_reachable hreachable t]
  rfl

/-- The block of `onMethodExit` announces the exit. -/
theorem onMethodExit.view_begin (jvm : Jvm) (s : State) (t : Tid) (a : Activation)
    (rest : List Frame) (array : ArrayId) (popped : Bool) (value : Option Jvalue)
    {about : Metadata} {s' : State}
    (hs' : s' = onMethodExit.begin jvm s t a rest array popped value)
    (habout : (s.info t).metadata (jvm.GetMethodDeclaringClass a.method) = about) :
    s'.view t =
      let view := s'.viewOf (s.info t) (.activation a :: rest) (s.threads t).ended
      { view with
        stack := .exiting ⟨about, s'.hooksIn array⟩ (s.info t).hookCounts 0 popped value ::
          view.stack } := by
  obtain ⟨c, hstack, hcls, hvalue⟩ :=
    onMethodExit.outcome_begin jvm s t a rest array popped value
  rw [← hs'] at hstack hcls hvalue
  have hbegin : c.pointer = array ∧ c.size = (s.info t).hookCounts ∧ c.i = 0 ∧
      c.call.metadata = (s.info t).metadata (jvm.GetMethodDeclaringClass a.method) := by
    rw [hs'] at hstack
    unfold onMethodExit.begin at hstack
    rw [State.stack_setThread_self] at hstack
    obtain rfl := Frame.methodExit.inj (List.cons.inj hstack).1
    exact ⟨rfl, rfl, rfl, rfl⟩
  have hrecord : s'.info t = { s.info t with exitingMethod := true } ∧
      (s'.threads t).ended = (s.threads t).ended := by
    rw [hs']
    unfold onMethodExit.begin
    rw [State.info_setThread_self, State.setThread_threads_self]
    exact ⟨rfl, rfl⟩
  obtain ⟨hpointer, hsize, hi, hmetadata⟩ := hbegin
  unfold State.view
  rw [hstack, hrecord.1, hrecord.2, ← habout, ← hmetadata, ← hpointer, ← hsize]
  simp only [State.viewOf, List.map_cons, Frame.view, State.isException, hcls, hvalue, hi,
    Option.join_some]

theorem State.move_leave {a : Activation} {rest : List Frame} {popped : Bool}
    {value : Option Jvalue} (hframes : (s.threads t).frames = .activation a :: rest) :
    (s.view t).move jvm s.registry.hooked (.leave t popped value) =
      (s.view t).leave jvm a.method (rest.map (Frame.view s)) popped value := by
  have hstack : (s.view t).stack = .method a.method :: rest.map (Frame.view s) := by
    unfold State.view State.viewOf State.stack
    rw [hframes]
    rfl
  unfold Agent.Thread.move
  simp only [hstack]

theorem Step.move_leave {popped : Bool} {value : Option Jvalue}
    (h : Step jvm s (.leave t popped value) s')
    (hreachable : Reachable (step jvm) initialState s) :
    (s.view t).move jvm s.registry.hooked (.leave t popped value) = some (s'.view t) := by
  have hexact := guarded_of_reachable hreachable t
  have hexiting := State.any_isExiting hexact
  have hkept : ∀ {frames : List Frame}, (∀ f ∈ frames, f ∈ s.stack t) →
      s'.viewOf (s.info t) frames (s.threads t).ended =
        { s.view t with stack := frames.map (Frame.view s) } :=
    fun hsub => h.view_kept hreachable (fun f hf => Or.inl (hsub f hf)) fun _ ha => Or.inl ha
  cases hcases : h with
  | @leaveSkipped _ _ _ a rest hframes hguard =>
      have hstack : s.stack t = .activation a :: rest := hframes
      have hsame := hkept fun f hf => hstack ▸ List.mem_cons_of_mem _ hf
      rw [State.move_leave hframes, State.view_setThread]
      refine Eq.trans ?_ (congrArg some hsame.symm)
      unfold Agent.Thread.leave
      cases hhooks : (s.info t).hooks with
      | none =>
          have hpending : (s.view t).pending = none := congrArg (Option.map s.hooksIn) hhooks
          simp only [hpending]
      | some array =>
          obtain ⟨target, htarget⟩ := target_of_hooks hreachable t hhooks
          have hpending : (s.view t).pending = some (s.hooksIn array) :=
            congrArg (Option.map s.hooksIn) hhooks
          have htarget' : (s.view t).target = some (target, (s.info t).hookCounts) :=
            congrArg (Option.map fun m => (m, (s.info t).hookCounts)) htarget
          simp only [hpending, htarget', hexiting]
          rw [if_neg]
          rcases hguard with hnone | hset | ⟨target', htarget₂, hne⟩
          · rw [hnone] at hhooks
            cases hhooks
          · simp [hset]
          · obtain rfl := Option.some.inj (htarget.symm.trans htarget₂)
            simp [hne]
  | @leaveBroadcast _ _ _ a rest array hframes hpasses =>
      have hstack : s.stack t = .activation a :: rest := hframes
      have hsame := hkept fun f hf => hstack ▸ hf
      obtain ⟨hhooks, hclear, target, htarget, hkey⟩ := hpasses
      have habout := @exit_metadata jvm s t hreachable target htarget a.method
      obtain ⟨m, hm⟩ := (recordOk_of_reachable hreachable t).allocated _ hhooks
      have hpending : (s.view t).pending = some (s.hooksIn array) :=
        congrArg (Option.map s.hooksIn) hhooks
      have htarget' : (s.view t).target = some (target, (s.info t).hookCounts) :=
        congrArg (Option.map fun m => (m, (s.info t).hookCounts)) htarget
      rw [State.move_leave hframes,
        onMethodExit.view_begin jvm s t a rest array popped value rfl habout, hsame,
        h.hooksIn (cellsOk_of_reachable hreachable) hm]
      unfold Agent.Thread.leave
      simp only [hpending, htarget', hexiting, hclear, hkey, decide_true, Bool.not_false,
        Bool.and_self, if_true]
      rfl

theorem Step.move_prepare {klass : Klass} (h : Step jvm s (.prepare t klass) s')
    (hreachable : Reachable (step jvm) initialState s) :
    (s.view t).move jvm s.registry.hooked (.prepare t klass) = some (s'.view t) := by
  have hannounces_iff :=
    @State.announcesClass_iff jvm s t (guarded_of_reachable hreachable t) klass
  have hsame : s'.viewOf (s.info t) (s.stack t) (s.threads t).ended = s.view t :=
    h.view_kept hreachable (fun _ hf => Or.inl hf) fun _ ha => Or.inl ha
  have hmove : (s.threads t).ended = false →
      (s.view t).move jvm s.registry.hooked (.prepare t klass) =
        some ((s.view t).prepare jvm klass) := fun halive =>
    if_neg fun hended => Bool.false_ne_true (halive.symm.trans hended)
  cases hcases : h with
  | prepareSkipped halive hguard =>
      rw [hmove halive, Agent.Thread.prepare, if_neg (mt hannounces_iff.mp hguard), ← hsame,
        State.view_setThread]
      rfl
  | prepareBroadcast halive hpasses =>
      rw [hmove halive, Agent.Thread.prepare, if_pos (hannounces_iff.mpr hpasses), ← hsame,
        State.view_setThread]
      rfl

/-- A step that gives the top of the stack another loop index. -/
theorem Step.view_loop {f g : Frame} {rest : List Frame} (h : Step jvm s l s')
    (hreachable : Reachable (step jvm) initialState s) (hstack : s.stack t = f :: rest)
    (hmade : f.Made s → g.Made s) :
    s'.viewOf (s.info t) (g :: rest) (s.threads t).ended =
      { s.view t with stack := g.view s :: rest.map (Frame.view s) } := by
  have hbelow := made_of_reachable hreachable t
  rw [hstack] at hbelow
  refine h.view_kept hreachable (fun x hx => Or.inr ?_) fun _ ha => Or.inl ha
  rcases List.mem_cons.mp hx with rfl | hx
  · exact hmade (hbelow f List.mem_cons_self)
  · exact hbelow x (List.mem_cons_of_mem _ hx)

theorem State.stack_view {frames : List Frame} (hframes : (s.threads t).frames = frames) :
    (s.view t).stack = frames.map (Frame.view s) :=
  congrArg (List.map (Frame.view s)) hframes

/-- The array of an entry callback on top holds as many hooks as the callback counts. -/
theorem State.length_hooksIn {c : EntryCall} (hmade : (Frame.methodEntry c).Made s) :
    (s.hooksIn c.hookInstances).length = c.hookCount := by
  obtain ⟨m, hm, hcount⟩ := hmade
  rw [State.hooksIn_of_snapshot hm, List.length_map, hcount]

theorem Step.move_broadcast (h : Step jvm s (.broadcast t) s')
    (hreachable : Reachable (step jvm) initialState s) :
    (s.view t).move jvm s.registry.hooked (.broadcast t) = some (s'.view t) := by
  cases hcases : h with
  | @broadcast _ c rest hframes hloop =>
      have hsame := h.view_loop (g := .methodEntry { c with loop := some 0 }) hreachable
        hframes id
      have hstack := State.stack_view hframes
      rw [State.view_setThread]
      refine Eq.trans ?_ (congrArg some hsame.symm)
      unfold Agent.Thread.move
      simp only [hstack, List.map_cons, Frame.view, hloop]

theorem Step.move_dispatch (h : Step jvm s (.dispatch t) s')
    (hreachable : Reachable (step jvm) initialState s) :
    (s.view t).move jvm s.registry.hooked (.dispatch t) = some (s'.view t) := by
  have hmade := made_of_reachable hreachable t
  cases hcases : h with
  | @dispatchEntry _ c rest i hframes hloop hlt =>
      have hsame := h.view_loop (g := .methodEntry { c with loop := some (i + 1) }) hreachable
        hframes id
      have hstack := State.stack_view hframes
      have htop : s.stack t = .methodEntry c :: rest := hframes
      rw [← State.length_hooksIn (hmade _ (htop ▸ List.mem_cons_self))] at hlt
      rw [State.view_setThread]
      refine Eq.trans ?_ (congrArg some hsame.symm)
      unfold Agent.Thread.move Agent.Thread.dispatch
      simp only [hstack, List.map_cons, Frame.view, hloop, hlt, if_true]
  | @dispatchExit _ c rest hframes hlt =>
      have hsame := h.view_loop (g := .methodExit { c with i := c.i + 1 }) hreachable hframes id
      have hstack := State.stack_view hframes
      rw [State.view_setThread]
      refine Eq.trans ?_ (congrArg some hsame.symm)
      unfold Agent.Thread.move Agent.Thread.dispatch
      simp only [hstack, List.map_cons, Frame.view, hlt, if_true]

/-- A broadcast ends after its last hook, or because a hook threw. -/
theorem finish_guard {threw : Bool} {f : Frame} {a : Activation} {rest : List Frame}
    (hstep : step jvm s (.finish t threw) = some s')
    (hframes : (s.threads t).frames = f :: .activation a :: rest) :
    (∀ c, f = .methodEntry c → ∃ i, c.loop = some i ∧ (threw = true ∨ i = c.hookCount)) ∧
      ∀ c, f = .methodExit c → threw = true ∨ c.i = c.size := by
  constructor
  · rintro c rfl
    simp only [step, hframes] at hstep
    split at hstep
    · cases hstep
    · rename_i i hloop
      split at hstep
      · rename_i hguard
        exact ⟨i, hloop, by simpa using hguard⟩
      · cases hstep
  · rintro c rfl
    simp only [step, hframes] at hstep
    split at hstep
    · rename_i hguard
      simpa using hguard
    · cases hstep

/-- What a thread stands for after its callback has come to its end. -/
theorem State.view_of_update {th : Thread} (hthreads : s'.threads = Function.update s.threads t th) :
    s'.view t = s'.viewOf th.getHookInvokingInfo th.frames th.ended := by
  unfold State.view State.info State.stack
  rw [hthreads, Function.update_self]

theorem Step.move_finish {threw : Bool} (h : Step jvm s (.finish t threw) s')
    (hstep : step jvm s (.finish t threw) = some s')
    (hreachable : Reachable (step jvm) initialState s) :
    (s.view t).move jvm s.registry.hooked (.finish t threw) = some (s'.view t) := by
  have hmade := made_of_reachable hreachable t
  have hkept : ∀ {info : HookInvokingInfo} {stack : List Frame},
      (∀ f ∈ stack, f ∈ s.stack t ∨ f.Made s) →
      (∀ a, info.hooks = some a → (s.info t).hooks = some a ∨ ∃ m, s.snapshot a = some m) →
      s'.viewOf info stack (s.threads t).ended = s.viewOf info stack (s.threads t).ended :=
    h.view_kept hreachable
  cases hcases : h with
  | @finishEntry _ _ c cb a rest i hframes hloop hcb =>
      obtain ⟨i', hi', hend⟩ := (finish_guard hstep hframes).1 c rfl
      obtain rfl := Option.some.inj (hloop.symm.trans hi')
      have hstack : s.stack t = .methodEntry c :: .activation a :: rest := hframes
      have htop := hmade _ (hstack ▸ List.mem_cons_self)
      rw [← State.length_hooksIn htop] at hend
      obtain ⟨m, hm, _⟩ := htop
      obtain ⟨forced, hthreads⟩ := onMethodEntry.threads_finish jvm s t c cb a rest
      have hsame := @hkept
        { s.info t with hooks := some c.hookInstances, runningHook := false }
        (.activation { a with
          frame := (writeParameters cb.parameters a.frame s.refs).1
          broadcast := some c.hookInstances } :: rest)
        (fun f hf => by
          rcases List.mem_cons.mp hf with rfl | hf
          · exact Or.inr trivial
          · exact Or.inl (hstack ▸ List.mem_cons_of_mem _ (List.mem_cons_of_mem _ hf)))
        (fun x hx => Or.inr (Option.some.inj hx ▸ ⟨m, hm⟩))
      rw [State.view_of_update hthreads]
      refine Eq.trans ?_ (congrArg some hsame.symm)
      unfold Agent.Thread.move Agent.Thread.finish
      simp only [State.stack_view hframes, List.map_cons, Frame.view, hloop, Bool.or_eq_true,
        decide_eq_true_eq, hend, if_true]
      rfl
  | @finishExit _ _ c cb a rest hframes hcb =>
      have hend := (finish_guard hstep hframes).2 c rfl
      have hstack : s.stack t = .methodExit c :: .activation a :: rest := hframes
      obtain ⟨forced, hthreads⟩ := onMethodExit.threads_finish jvm s t c cb a rest
      have hsame := @hkept { s.info t with hooks := none, exitingMethod := false } rest
        (fun f hf => Or.inl (hstack ▸ List.mem_cons_of_mem _ (List.mem_cons_of_mem _ hf)))
        (fun x hx => absurd hx.symm (Option.some_ne_none x))
      rw [State.view_of_update hthreads]
      refine Eq.trans ?_ (congrArg some hsame.symm)
      unfold Agent.Thread.move Agent.Thread.finish
      simp only [State.stack_view hframes, List.map_cons, Frame.view, Bool.or_eq_true,
        decide_eq_true_eq, hend, if_true]
      rfl
  | @finishPrepare _ _ rest hframes =>
      have hstack : s.stack t = .classPrepare :: rest := hframes
      have hsame := @hkept { s.info t with broadcastingMethodPrepareLoad := false } rest
        (fun f hf => Or.inl (hstack ▸ List.mem_cons_of_mem _ hf)) (fun _ ha => Or.inl ha)
      unfold onClassPrepare.finish at hsame ⊢
      rw [State.view_setThread]
      refine Eq.trans ?_ (congrArg some hsame.symm)
      unfold Agent.Thread.move Agent.Thread.finish
      simp only [State.stack_view hframes, List.map_cons, Frame.view]
      rfl

theorem Step.move_threadEnd (h : Step jvm s (.threadEnd t) s') :
    (s.view t).move jvm s.registry.hooked (.threadEnd t) = some (s'.view t) := by
  cases h with
  | threadEnd hframes halive =>
      have hended : (s.view t).ended = false := halive
      rw [State.view_setThread, hframes]
      unfold Agent.Thread.move
      simp only [State.stack_view hframes, hended]
      rfl

/-- The step of a thread is one of the abstract thread. -/
theorem step_move (hstep : step jvm s l = some s')
    (hreachable : Reachable (step jvm) initialState s) (hself : l.thread = some t) :
    (s.view t).move jvm s.registry.hooked l = some (s'.view t) := by
  have h := step_cases hstep
  cases l with
  | register | unregister | native => cases hself
  | call => exact Option.some.inj hself ▸ h.move_call hreachable
  | leave => exact Option.some.inj hself ▸ h.move_leave hreachable
  | prepare => exact Option.some.inj hself ▸ h.move_prepare hreachable
  | broadcast => exact Option.some.inj hself ▸ h.move_broadcast hreachable
  | dispatch => exact Option.some.inj hself ▸ h.move_dispatch hreachable
  | finish => exact Option.some.inj hself ▸ h.move_finish hstep hreachable
  | threadEnd => exact Option.some.inj hself ▸ h.move_threadEnd

/-! ## The whole machine -/

/-- A step leaves alone what the other threads stand for. -/
theorem Step.view_of_ne (h : Step jvm s l s') (hreachable : Reachable (step jvm) initialState s)
    (hne : l.thread ≠ some u) : s'.view u = s.view u := by
  unfold State.view State.info State.stack
  rw [h.threads_of_ne hne]
  exact h.view_kept hreachable (fun _ hf => Or.inl hf) fun _ ha => Or.inl ha

theorem Step.view_of_thread (h : Step jvm s l s')
    (hreachable : Reachable (step jvm) initialState s) (hself : l.thread = some t) :
    s'.view = Function.update s.view t (s'.view t) := by
  funext u
  by_cases hut : u = t
  · rw [hut, Function.update_self]
  · have hne : l.thread ≠ some u := fun heq =>
      hut (Option.some.inj (heq.symm.trans hself))
    rw [Function.update_of_ne hut, h.view_of_ne hreachable hne]

/-- A step that belongs to no thread changes the registry as the agent changes its chain. -/
theorem Step.change (h : Step jvm s l s') (hreachable : Reachable (step jvm) initialState s)
    (hnone : l.thread = none) :
    Agent.change jvm s.registry.hooked l = some s'.registry.hooked := by
  have hok := (cellsOk_of_reachable hreachable).registry
  cases h with
  | register method hook =>
      rw [Registry.hooked_registerHook hok method hook]
      rfl
  | @unregister method hook registry hcompletes =>
      have hfull : none ∉ s.registry.hooked := by
        rw [Registry.none_mem_hooked, ← unregisterHook_isSome jvm s.registry method hook,
          hcompletes]
        rfl
      rw [Registry.hooked_unregisterHook hcompletes]
      exact if_neg hfull
  | nativeInert | nativeLive => rfl
  | _ => cases hnone

/-- Every step of the machine is one of the abstract agent. -/
theorem step_refines (hreachable : Reachable (step jvm) initialState s)
    (hstep : step jvm s l = some s') :
    (Agent.machine jvm).step s.abstract l = some s'.abstract := by
  have hcases := step_cases hstep
  unfold Parts.step
  cases hthread : l.thread with
  | none =>
      have hview : s'.view = s.view := by
        funext u
        refine hcases.view_of_ne hreachable ?_
        rw [hthread]
        exact (Option.some_ne_none u).symm
      have hchange := hcases.change hreachable hthread
      simp only [Agent.machine, hthread, State.abstract, hchange, hview, Option.map_some]
  | some t =>
      have hmove := step_move hstep hreachable hthread
      have hview := hcases.view_of_thread hreachable hthread
      simp only [Agent.machine, hthread, State.abstract, hmove, Option.map_some,
        hcases.registry_of_thread hthread]
      rw [← hview]

/-- `onClassPrepare` goes on to its broadcast exactly when that puts a frame on the stack. -/
theorem Step.prepare_grows {klass : Klass} (h : Step jvm s (.prepare t klass) s') :
    (s.stack t).length < (s'.stack t).length ↔ PreparePasses jvm (s.info t) klass := by
  cases h with
  | prepareSkipped halive hguard =>
      rw [State.stack_setThread_self]
      exact iff_of_false (Nat.lt_irrefl _) hguard
  | prepareBroadcast halive hpasses =>
      rw [State.stack_setThread_self]
      exact iff_of_true (Nat.lt_succ_self _) hpasses

instance (jvm : Jvm) (info : HookInvokingInfo) (klass : Klass) :
    Decidable (PreparePasses jvm info klass) :=
  inferInstanceAs (Decidable (_ ∧ _ ∧ _ ∧ _ ∧ _))

theorem hookEvents_prepare {klass : Klass} (hstep : step jvm s (.prepare t klass) = some s') :
    hookEvents jvm s (.prepare t klass) =
      if PreparePasses jvm (s.info t) klass then
        [(t, .classPrepare klass (jvm.GetClassLoader klass))]
      else [] := by
  have hgrows := (step_cases hstep).prepare_grows
  have hs' : s' = onClassPrepare jvm s t klass := by
    simp only [step] at hstep
    split at hstep
    · cases hstep
    · exact (Option.some.inj hstep).symm
  rw [hs'] at hgrows
  simp only [hookEvents, hgrows]

/-- The hooks are called with what the agent emits. -/
theorem hookEvents_eq (hreachable : Reachable (step jvm) initialState s)
    (hstep : step jvm s l = some s') :
    hookEvents jvm s l = (Agent.machine jvm).events s.abstract l := by
  unfold Parts.events
  cases l with
  | register | unregister | native | call | leave | broadcast | finish | threadEnd => rfl
  | prepare t klass =>
      have hannounces_iff :=
        @State.announcesClass_iff jvm s t (guarded_of_reachable hreachable t) klass
      rw [hookEvents_prepare hstep]
      simp only [← hannounces_iff, Agent.machine, Label.thread, Agent.Thread.emit, State.abstract]
      split <;> rfl
  | dispatch t =>
      simp only [hookEvents, Agent.machine, Label.thread, Agent.Thread.emit, State.abstract]
      cases hstack : s.stack t with
      | nil => simp only [State.stack_view hstack, List.map_nil]
      | cons f rest =>
          cases f with
          | activation | classPrepare =>
              simp only [State.stack_view hstack, List.map_cons, Frame.view, List.map_nil]
          | methodEntry c =>
              cases hloop : c.loop with
              | none =>
                  simp only [State.stack_view hstack, List.map_cons, Frame.view, hloop,
                    List.map_nil]
              | some i =>
                  simp only [State.stack_view hstack, List.map_cons, Frame.view, hloop,
                    State.valueOfPointer_eq, List.map_nil]
          | methodExit c =>
              simp only [State.stack_view hstack, List.map_cons, Frame.view,
                State.valueOfPointer_eq, List.map_nil]

end

theorem machine_simulates (jvm : Jvm) :
    Simulates (step jvm) (hookEvents jvm) (Agent.machine jvm).step (Agent.machine jvm).events
      fun s a => Reachable (step jvm) initialState s ∧ a = s.abstract where
  steps := by
    rintro s s' _ l ⟨hreachable, rfl⟩ hstep
    exact ⟨_, step_refines hreachable hstep, hreachable.tail hstep, rfl⟩
  emits := by
    rintro s s' _ l ⟨hreachable, rfl⟩ hstep
    exact hookEvents_eq hreachable hstep

/-- A run of the machine is a run of the abstract agent over the same labels, and the hooks
are called with exactly what the abstract agent emits, as long as dead references denote what
they did. -/
theorem runs_refine_agent (jvm : Jvm) (ls : List Label) (s : State)
    (hrun : run (step jvm) initialState ls = some s) :
    run (Agent.machine jvm).step Agent.initial ls = some s.abstract ∧
      emitted (step jvm) (hookEvents jvm) initialState ls =
        emitted (Agent.machine jvm).step (Agent.machine jvm).events Agent.initial ls := by
  obtain ⟨a, hrun', ⟨_, rfl⟩, hevents⟩ :=
    (machine_simulates jvm).run ⟨.refl initialState, rfl⟩ hrun
  exact ⟨hrun', hevents⟩

end JvmHookFramework
