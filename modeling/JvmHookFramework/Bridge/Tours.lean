/-
  Bridge/Tours.lean --- class prepare hooks are called in tours of their queue.

  A broadcast of a class is a tour of the queue.  On one thread the tours do not overlap:
  the flag `broadcastingMethodPrepareLoad` is set exactly while a loop runs.  Whatever the
  other threads and the hooks themselves add and remove in the meantime, no registration is
  called twice in a tour, and one that stays is called.
-/
import JvmHookFramework.Bridge.Model
import JvmHookFramework.Foundation.Simulation

set_option autoImplicit false

namespace JvmHookFramework

open Foundation Foundation.Traversal Foundation.GuardStack

namespace Bridge

/-! ## The cases of a step -/

/-- A step of the machine that neither begins nor ends a loop. -/
def Quiet (jvm : Jvm) (s : JvmHookFramework.State) : JvmHookFramework.Label → Prop
  | .prepare t klass => ¬ PreparePasses jvm (s.info t) klass
  | .finish t _ => ∀ rest, s.stack t ≠ .classPrepare :: rest
  | _ => True

inductive Step (jvm : Jvm) (linkage : Linkage) (s : State) : Label → State → Prop where
  | native {label : Label} {l : JvmHookFramework.Label} {agent : JvmHookFramework.State}
      (hnative : label.native linkage = some l) (hquiet : Quiet jvm s.agent l)
      (hstep : JvmHookFramework.step jvm s.agent l = some agent) :
      Step jvm linkage s label { s with agent := agent }
  | begins {t : Tid} {klass : Klass} {agent : JvmHookFramework.State}
      (hpasses : PreparePasses jvm (s.agent.info t) klass)
      (hstep : JvmHookFramework.step jvm s.agent (.prepare t klass) = some agent) :
      Step jvm linkage s (.event (.prepare t klass))
        { s with
          agent := agent
          loops := Function.update s.loops t
            (⟨klass, jvm.GetClassLoader klass, iterator s.classPrepareLoadingHook⟩ ::
              s.loops t) }
  | ends {t : Tid} {threw : Bool} {rest : List Frame} {loop : Loop} {outer : List Loop}
      {agent : JvmHookFramework.State} (hstack : s.agent.stack t = .classPrepare :: rest)
      (hloops : s.loops t = loop :: outer) (hend : threw = true ∨ loop.iterator.next = none)
      (hstep : JvmHookFramework.step jvm s.agent (.finish t threw) = some agent) :
      Step jvm linkage s (.event (.finish t threw))
        { s with agent := agent, loops := Function.update s.loops t outer }
  | accepts {t : Tid} {rest : List Frame} {loop : Loop} {outer : List Loop} {node : Nat × Obj}
      {it : Iterator Obj} (hstack : s.agent.stack t = .classPrepare :: rest)
      (hloops : s.loops t = loop :: outer)
      (hadvance : loop.iterator.advance s.classPrepareLoadingHook = some (node, it)) :
      Step jvm linkage s (.accept t)
        { s with loops := Function.update s.loops t ({ loop with iterator := it } :: outer) }
  | fails {c : Call} (hnative : (Label.call c).native linkage = none)
      (hhooks : ∀ hooks, registered linkage hooks (.call c) = hooks) :
      Step jvm linkage s (.call c) s
  | adds (hook : Obj) :
      Step jvm linkage s (.call (.registerClassPrepareHook (some hook)))
        { s with classPrepareLoadingHook := add s.classPrepareLoadingHook hook }
  | removes (hook : Obj) :
      Step jvm linkage s (.call (.unregisterClassPrepareHook (some hook)))
        { s with
          classPrepareLoadingHook := remove (linkage.equals hook) s.classPrepareLoadingHook }

section

variable {jvm : Jvm} {linkage : Linkage} {s s' : State} {l : Label}

theorem State.native_eq_some {k : JvmHookFramework.Label} (h : s.native jvm k = some s') :
    ∃ agent, JvmHookFramework.step jvm s.agent k = some agent ∧ s' = { s with agent := agent } := by
  obtain ⟨agent, hstep, heq⟩ := Option.map_eq_some_iff.mp h
  exact ⟨agent, hstep, heq.symm⟩

theorem step_native {k : JvmHookFramework.Label} (hnative : l.native linkage = some k)
    (hquiet : Quiet jvm s.agent k) (h : s.native jvm k = some s') : Step jvm linkage s l s' := by
  obtain ⟨agent, hstep, rfl⟩ := State.native_eq_some h
  exact .native hnative hquiet hstep

theorem findMetOfHook_cases (linkage : Linkage) (target : Klass) (metName metDesc : List Char) :
    (∃ m, findMetOfHook linkage target metName metDesc = (some m, none)) ∨
      findMetOfHook linkage target metName metDesc = (none, some .NoSuchMethodError) := by
  unfold findMetOfHook
  split
  · exact Or.inl ⟨_, rfl⟩
  · split
    · exact Or.inl ⟨_, rfl⟩
    · exact Or.inr rfl

theorem changeAt_cases {change : JmethodID → JvmHookFramework.Label}
    {met : Option JmethodID × Option JavaError} {pending : Option JavaError}
    (h : s.changeAt jvm change met = some (pending, s')) :
    pending = met.2 ∧ ((met.1 = none ∧ s' = s) ∨
      ∃ m, met.1 = some m ∧ s.native jvm (change m) = some s') := by
  obtain ⟨_ | m, pending'⟩ := met
  · obtain ⟨rfl, rfl⟩ := Prod.mk.inj (Option.some.inj h)
    exact ⟨rfl, Or.inl ⟨rfl, rfl⟩⟩
  · obtain ⟨mid, hmid, heq⟩ := Option.map_eq_some_iff.mp h
    obtain ⟨rfl, rfl⟩ := Prod.mk.inj heq
    exact ⟨rfl, Or.inr ⟨m, rfl, hmid⟩⟩

/-- A call that throws leaves everything as it is. -/
theorem invoke_throws {c : Call} {error : JavaError}
    (h : s.invoke jvm linkage c = some (some error, s')) : s' = s := by
  have hlookup : ∀ {target : Klass} {metName metDesc : List Char}
      {change : JmethodID → JvmHookFramework.Label},
      s.changeAt jvm change (findMetOfHook linkage target metName metDesc) =
        some (some error, s') → s' = s := by
    intro target metName metDesc change hchange
    obtain ⟨hpending, hnone | ⟨m, hm, _⟩⟩ := changeAt_cases hchange
    · exact hnone.2
    · rcases findMetOfHook_cases linkage target metName metDesc with ⟨_, heq⟩ | heq
      · rw [heq] at hpending
        cases hpending
      · rw [heq] at hm
        cases hm
  cases c with
  | registerHook | unregisterHook => exact hlookup h
  | registerHook0 | unregisterHook0 =>
      unfold State.invoke at h
      cases (changeAt_cases h).1
  | registerClassPrepareHook hook | unregisterClassPrepareHook hook =>
      cases hook with
      | none => exact (Prod.mk.inj (Option.some.inj h)).2.symm
      | some hook => cases (Prod.mk.inj (Option.some.inj h)).1

/-- A call that changes the hooks of the method that is found. -/
theorem step_cases_changeAt {change : JmethodID → JvmHookFramework.Label}
    {met : Option JmethodID × Option JavaError} {pending : Option JavaError} {c : Call}
    (h : s.changeAt jvm change met = some (pending, s'))
    (hnative : (Label.call c).native linkage = met.1.map change)
    (hquiet : ∀ m, Quiet jvm s.agent (change m))
    (hhooks : ∀ hooks, registered linkage hooks (.call c) = hooks) :
    Step jvm linkage s (.call c) s' := by
  obtain ⟨_, ⟨hnone, rfl⟩ | ⟨m, hm, hstep⟩⟩ := changeAt_cases h
  · exact .fails (by rw [hnative, hnone, Option.map_none]) hhooks
  · exact step_native (by rw [hnative, hm, Option.map_some]) (hquiet m) hstep

theorem step_cases_call {c : Call} {pending : Option JavaError}
    (h : s.invoke jvm linkage c = some (pending, s')) : Step jvm linkage s (.call c) s' := by
  cases c with
  | registerHook | unregisterHook | registerHook0 | unregisterHook0 =>
      unfold State.invoke at h
      exact step_cases_changeAt h rfl (fun _ => trivial) fun _ => rfl
  | registerClassPrepareHook hook =>
      cases hook with
      | none =>
          obtain ⟨_, rfl⟩ := Prod.mk.inj (Option.some.inj h)
          exact .fails rfl fun _ => rfl
      | some hook =>
          obtain ⟨_, rfl⟩ := Prod.mk.inj (Option.some.inj h)
          exact .adds hook
  | unregisterClassPrepareHook hook =>
      cases hook with
      | none =>
          obtain ⟨_, rfl⟩ := Prod.mk.inj (Option.some.inj h)
          exact .fails rfl fun _ => rfl
      | some hook =>
          obtain ⟨_, rfl⟩ := Prod.mk.inj (Option.some.inj h)
          exact .removes hook

theorem step_cases_prepare {t : Tid} {klass : Klass}
    (h : step jvm linkage s (.event (.prepare t klass)) = some s') :
    Step jvm linkage s (.event (.prepare t klass)) s' := by
  obtain ⟨mid, hmid, heq⟩ := Option.map_eq_some_iff.mp h
  split at heq
  · rename_i hpasses
    obtain ⟨agent, hstep, rfl⟩ := State.native_eq_some hmid
    rw [← heq]
    exact .begins hpasses hstep
  · rename_i hquiet
    obtain rfl := heq
    exact step_native rfl hquiet hmid

theorem step_cases_finish {t : Tid} {threw : Bool}
    (h : step jvm linkage s (.event (.finish t threw)) = some s') :
    Step jvm linkage s (.event (.finish t threw)) s' := by
  simp only [step] at h
  split at h
  · rename_i rest loop outer hstack hloops
    split at h
    · rename_i hend
      obtain ⟨mid, hmid, rfl⟩ := Option.map_eq_some_iff.mp h
      obtain ⟨agent, hstep, rfl⟩ := State.native_eq_some hmid
      exact .ends hstack hloops (by simpa using hend) hstep
    · cases h
  · cases h
  · rename_i hother hnone
    refine step_native rfl (fun rest hrest => ?_) h
    cases hloops : s.loops t with
    | nil => exact hnone rest hrest hloops
    | cons loop outer => exact hother rest loop outer hrest hloops

theorem step_cases (h : step jvm linkage s l = some s') : Step jvm linkage s l s' := by
  cases l with
  | event k =>
      cases k with
      | register | unregister => cases h
      | prepare => exact step_cases_prepare h
      | finish => exact step_cases_finish h
      | _ => exact step_native rfl trivial h
  | call c =>
      obtain ⟨⟨pending, mid⟩, hinvoke, rfl⟩ := Option.map_eq_some_iff.mp h
      exact step_cases_call hinvoke
  | accept t =>
      simp only [step] at h
      split at h
      · rename_i rest loop outer hstack hloops
        obtain ⟨⟨node, it⟩, hadvance, rfl⟩ := Option.map_eq_some_iff.mp h
        exact .accepts hstack hloops hadvance
      · cases h

/-! ## The machine below -/

theorem projects (jvm : Jvm) (linkage : Linkage) :
    Projects (step jvm linkage) (JvmHookFramework.step jvm) State.agent
      (Label.native linkage) where
  stays := by
    intro s s' l h hnone
    cases step_cases h with
    | native hnative => cases hnative.symm.trans hnone
    | begins | ends => cases hnone
    | accepts | fails | adds | removes => rfl
  moves := by
    intro s s' l k h hk
    cases step_cases h with
    | native hnative hquiet hstep =>
        obtain rfl := Option.some.inj (hnative.symm.trans hk)
        exact hstep
    | begins hpasses hstep =>
        obtain rfl := Option.some.inj hk
        exact hstep
    | ends hstack hloops hend hstep =>
        obtain rfl := Option.some.inj hk
        exact hstep
    | fails hnone => cases hnone.symm.trans hk
    | accepts | adds | removes => cases hk

theorem agent_reachable (h : Reachable (step jvm linkage) initial s) :
    Reachable (JvmHookFramework.step jvm) initialState s.agent :=
  (projects jvm linkage).reachable h

/-! ## The queue -/

theorem registered_of_native {k : JvmHookFramework.Label} (hnative : l.native linkage = some k)
    (hooks : List Obj) : registered linkage hooks l = hooks := by
  cases l with
  | event | accept => rfl
  | call c =>
      cases c with
      | registerClassPrepareHook | unregisterClassPrepareHook => cases hnative
      | _ => rfl

theorem Step.values (h : Step jvm linkage s l s') :
    SlotChain.values s'.classPrepareLoadingHook =
      registered linkage (SlotChain.values s.classPrepareLoadingHook) l := by
  cases h with
  | native hnative => rw [registered_of_native hnative]
  | begins | ends | accepts => rfl
  | fails _ hhooks => rw [hhooks]
  | adds hook => exact values_add _ _
  | removes hook => exact values_remove _ _

theorem values_of_run {ls : List Label} (hrun : run (step jvm linkage) s ls = some s') :
    SlotChain.values s'.classPrepareLoadingHook =
      ls.foldl (registered linkage) (SlotChain.values s.classPrepareLoadingHook) := by
  induction ls generalizing s with
  | nil =>
      obtain rfl := Option.some.inj hrun
      rfl
  | cons l ls ih =>
      obtain ⟨mid, hmid, hrest⟩ := run_cons_eq_some_iff.mp hrun
      rw [ih hrest, (step_cases hmid).values, List.foldl_cons]

theorem Step.later (h : Step jvm linkage s l s') :
    Later s.classPrepareLoadingHook s'.classPrepareLoadingHook := by
  cases h with
  | adds hook => exact later_add _ _
  | removes hook => exact later_remove _ _
  | _ => exact .refl _

/-! ## The loops -/

/-- A quiet step leaves the flag of the loops as it is. -/
theorem Quiet.flag {a a' : JvmHookFramework.State} {k : JvmHookFramework.Label}
    (hquiet : Quiet jvm a k) (hguarded : a.Guarded)
    (hstep : JvmHookFramework.step jvm a k = some a') (t : Tid) :
    (a'.info t).broadcastingMethodPrepareLoad = (a.info t).broadcastingMethodPrepareLoad := by
  have hthread := (JvmHookFramework.step_cases hstep).thread t
  generalize a'.info t = info, a'.stack t = stack at hthread
  cases hthread with
  | ended hstack =>
      have hexact := hguarded t
      rw [State.running, hstack] at hexact
      exact (hexact.eq_false_of_nil .broadcastingMethodPrepareLoad).symm
  | prepareBegins hpasses => exact absurd hpasses hquiet
  | prepareEnds hstack => exact absurd hstack (hquiet _)
  | _ => rfl

/-- A thread has a loop exactly while its flag is set, and never two. -/
def State.Looping (s : State) : Prop :=
  ∀ t, (s.loops t).length = (s.agent.info t).broadcastingMethodPrepareLoad.toNat

theorem State.Looping.outer_eq_nil {t : Tid} {loop : Loop} {outer : List Loop} (h : s.Looping)
    (hloops : s.loops t = loop :: outer) : outer = [] := by
  have hlength := h t
  rw [hloops, List.length_cons] at hlength
  have hle := Bool.toNat_le (s.agent.info t).broadcastingMethodPrepareLoad
  exact List.eq_nil_of_length_eq_zero (by omega)

theorem length_update {loops : Tid → List Loop} {t : Tid} {own : List Loop}
    {a a' : JvmHookFramework.State}
    (hlooping : ∀ u, (loops u).length = (a.info u).broadcastingMethodPrepareLoad.toNat)
    (hother : ∀ u, u ≠ t → a'.threads u = a.threads u)
    (hown : own.length = (a'.info t).broadcastingMethodPrepareLoad.toNat) (u : Tid) :
    (Function.update loops t own u).length = (a'.info u).broadcastingMethodPrepareLoad.toNat := by
  by_cases hu : u = t
  · rw [hu, Function.update_self, hown]
  · rw [Function.update_of_ne hu, hlooping u, State.info, State.info, hother u hu]

theorem Step.looping (h : Step jvm linkage s l s') (hguarded : s.agent.Guarded)
    (hlooping : s.Looping) : s'.Looping := by
  cases h with
  | native hnative hquiet hstep =>
      intro t
      exact (hlooping t).trans (congrArg Bool.toNat (hquiet.flag hguarded hstep t).symm)
  | @begins t klass agent hpasses hstep =>
      have hcases := JvmHookFramework.step_cases hstep
      refine length_update hlooping (fun u hu => hcases.threads_of_ne ?_) ?_
      · exact fun heq => hu (Option.some.inj heq).symm
      · have hflag : (s.agent.info t).broadcastingMethodPrepareLoad = false := hpasses.1
        have hset : (agent.info t).broadcastingMethodPrepareLoad = true := by
          cases hcases with
          | prepareSkipped halive hguard => exact absurd hpasses hguard
          | prepareBroadcast halive hpasses =>
              rw [State.info_setThread_self]
              rfl
        rw [List.length_cons, hlooping t, hflag, hset]
        rfl
  | @ends t threw rest loop outer agent hstack hloops hend hstep =>
      have hcases := JvmHookFramework.step_cases hstep
      refine length_update hlooping (fun u hu => hcases.threads_of_ne ?_) ?_
      · exact fun heq => hu (Option.some.inj heq).symm
      · have hclear : (agent.info t).broadcastingMethodPrepareLoad = false := by
          cases hcases with
          | finishEntry hframes | finishExit hframes => cases hframes.symm.trans hstack
          | finishPrepare hframes =>
              unfold onClassPrepare.finish
              rw [State.info_setThread_self]
              rfl
        rw [hlooping.outer_eq_nil hloops, hclear]
        rfl
  | @accepts t rest loop outer node it hstack hloops hadvance =>
      refine length_update hlooping (fun u hu => rfl) ?_
      rw [← hlooping t, hloops, List.length_cons, List.length_cons]
  | fails | adds | removes => exact hlooping

/-! ## The tours -/

/-- The loop that runs on a thread: what it is about, and its iterator. -/
def State.running (s : State) (t : Tid) : Option ((Klass × Option Obj) × Iterator Obj) :=
  (s.loops t).head?.map fun loop => ((loop.klass, loop.loader), loop.iterator)

theorem State.running_eq {loops : List Loop} {t : Tid} (h : s.loops t = loops) :
    s.running t = loops.head?.map fun loop => ((loop.klass, loop.loader), loop.iterator) :=
  congrArg (fun loops : List Loop => loops.head?.map _) h

theorem tourLog_of_quiet {k : JvmHookFramework.Label} (hnative : l.native linkage = some k)
    (hquiet : Quiet jvm s.agent k) : tourLog jvm s l = [] := by
  cases l with
  | call => rfl
  | accept => cases hnative
  | event k' =>
      obtain rfl := Option.some.inj hnative
      cases k' with
      | prepare => exact if_neg hquiet
      | finish t threw =>
          simp only [tourLog]
          split
          · rename_i rest hstack
            exact absurd hstack (hquiet rest)
          · rfl
      | _ => rfl

/-- What one thread logs is nothing to another. -/
theorem traverses_of_ne {t u : Tid} (hne : u ≠ t) (es : List (Visit (Klass × Option Obj) Obj))
    {queue : List (Option Obj)} {own : List Loop} (hqueue : s'.classPrepareLoadingHook = queue)
    (hloops : s'.loops = Function.update s.loops u own) :
    Traverses queue (s.running t) (Parts.ofPart t (es.map fun e => (u, e)))
      s'.classPrepareLoadingHook (s'.running t) := by
  have hsame : s'.running t = s.running t :=
    State.running_eq (by rw [hloops, Function.update_of_ne (Ne.symm hne)])
  rw [Parts.ofPart_map_of_ne hne, hsame, hqueue]
  exact .idle (.refl queue)

theorem Step.traverses (h : Step jvm linkage s l s') (hlooping : s.Looping) (t : Tid) :
    Traverses s.classPrepareLoadingHook (s.running t) (Parts.ofPart t (tourLog jvm s l))
      s'.classPrepareLoadingHook (s'.running t) := by
  have hlater := h.later
  cases h with
  | native hnative hquiet hstep =>
      rw [tourLog_of_quiet hnative hquiet]
      exact .idle hlater
  | fails | adds | removes => exact .idle hlater
  | @begins u klass agent hpasses hstep =>
      have hlog : tourLog jvm s (.event (.prepare u klass)) =
          [.start (klass, jvm.GetClassLoader klass) s.classPrepareLoadingHook].map
            fun e => (u, e) := if_pos hpasses
      rw [hlog]
      by_cases hut : u = t
      · subst hut
        have hflag : (s.agent.info u).broadcastingMethodPrepareLoad = false := hpasses.1
        have hlength := hlooping u
        rw [hflag] at hlength
        rw [Parts.ofPart_map_self, State.running_eq (List.eq_nil_of_length_eq_zero hlength),
          State.running_eq (Function.update_self ..)]
        exact .start _
      · exact traverses_of_ne hut _ rfl rfl
  | @ends u threw rest loop outer agent hstack hloops hend hstep =>
      have hlog : tourLog jvm s (.event (.finish u threw)) =
          [.stop threw s.classPrepareLoadingHook].map fun e => (u, e) := by
        simp only [tourLog, hstack, List.map_cons, List.map_nil]
      rw [hlog]
      by_cases hut : u = t
      · subst hut
        rw [Parts.ofPart_map_self, State.running_eq hloops, State.running_eq
          (Function.update_self ..), hlooping.outer_eq_nil hloops]
        exact .stop hend
      · exact traverses_of_ne hut _ rfl rfl
  | @accepts u rest loop outer node it hstack hloops hadvance =>
      obtain ⟨n, hnext, heq⟩ := Option.map_eq_some_iff.mp hadvance
      obtain rfl : n = node := (Prod.mk.inj heq).1
      have hlog : tourLog jvm s (.accept u) =
          [.visit (loop.klass, loop.loader) n].map fun e => (u, e) := by
        simp only [tourLog, hstack, hloops, hnext, Option.toList_some, List.map_cons, List.map_nil]
      rw [hlog]
      by_cases hut : u = t
      · subst hut
        rw [Parts.ofPart_map_self, State.running_eq hloops,
          State.running_eq (Function.update_self ..)]
        exact .visit hadvance
      · exact traverses_of_ne hut _ rfl rfl

/-- What a thread has logged, and the loop that runs on it. -/
theorem touring_of_run {ls : List Label} (hrun : run (step jvm linkage) initial ls = some s)
    (t : Tid) :
    ∃ tours last, Touring (Parts.ofPart t (emitted (step jvm linkage) (tourLog jvm) initial ls))
      s.classPrepareLoadingHook (s.running t) tours last := by
  let inv : List (Tid × Visit (Klass × Option Obj) Obj) → State → Prop := fun log s =>
    s.Looping ∧ ∃ tours last,
      Touring (Parts.ofPart t log) s.classPrepareLoadingHook (s.running t) tours last
  have hinit : inv [] initial := ⟨fun _ => rfl, [], none, touring_nil []⟩
  refine (@run_history_with _ _ _ _ _ inv _ _ _ ?_ hinit hrun).2
  rintro log s l s' hreachable ⟨hlooping, tours, last, htouring⟩ hstep
  have hcases := step_cases hstep
  refine ⟨hcases.looping (guarded_of_reachable (agent_reachable hreachable)) hlooping, ?_⟩
  rw [Parts.ofPart_append]
  exact htouring.traverses (hcases.traverses hlooping t)

/-! ## What is broadcast -/

/-- The class that an event of the agent announces, and its loader. -/
def prepared? : Agent.Event → Option (Klass × Option Obj)
  | .classPrepare klass loader => some (klass, loader)
  | .preInvoke _ _ | .postInvoke _ _ _ _ => none

/-- What a reader of one thread's log of the kind `ε` finds in it. -/
def onThread {ε δ : Type} (t : Tid) (read : ε → Option δ) (e : Tid × ε) : Option δ :=
  if e.1 = t then read e.2 else none

theorem filterMap_onThread {ε δ : Type} (t : Tid) (read : ε → Option δ) (log : List (Tid × ε)) :
    log.filterMap (onThread t read) = (Parts.ofPart t log).filterMap read := by
  rw [Parts.ofPart, List.filterMap_filterMap]
  refine List.filterMap_congr fun e _ => ?_
  unfold onThread
  split <;> rfl

theorem hookEvents_of_quiet {a : JvmHookFramework.State} {k : JvmHookFramework.Label}
    (hquiet : Quiet jvm a k) {a' : JvmHookFramework.State}
    (hstep : JvmHookFramework.step jvm a k = some a') (t : Tid) :
    (hookEvents jvm a k).filterMap (onThread t prepared?) = [] := by
  cases k with
  | prepare u klass => rw [hookEvents_prepare hstep, if_neg hquiet, List.filterMap_nil]
  | dispatch u =>
      simp only [hookEvents]
      rcases a.stack u with _ | ⟨_ | c | c | _, rest⟩
      · rfl
      · rfl
      · cases hloop : c.loop <;> simp [hloop, onThread, prepared?]
      · simp [onThread, prepared?]
      · rfl
  | _ => rfl

/-- A loop begins exactly when the machine announces a class. -/
theorem starts_eq (t : Tid) (h : step jvm linkage s l = some s') :
    (tourLog jvm s l).filterMap (onThread t Visit.starts?) =
      (l.native linkage).elim []
        fun k => (hookEvents jvm s.agent k).filterMap (onThread t prepared?) := by
  cases step_cases h with
  | native hnative hquiet hstep =>
      rw [tourLog_of_quiet hnative hquiet, hnative, Option.elim_some,
        hookEvents_of_quiet hquiet hstep, List.filterMap_nil]
  | @begins u klass agent hpasses hstep =>
      simp only [tourLog, Label.native, Option.elim_some, hookEvents_prepare hstep, if_pos hpasses]
      rfl
  | ends hstack => simp [tourLog, hstack, onThread, Visit.starts?, Label.native, hookEvents]
  | accepts hstack hloops =>
      simp [tourLog, hstack, hloops, onThread, Visit.starts?, Label.native]
  | fails hnone =>
      rw [hnone]
      rfl
  | adds | removes => rfl

end

/-- A run of the interface is a run of the machine: a call by the name of a method and a call
by its reflection are the registry operations at the method that is found, and a call that
finds none, like every call that throws, changes nothing.  The class prepare hooks are what
the calls make of a list. -/
theorem runs_project (jvm : Jvm) (linkage : Linkage) (ls : List Label) (s : State)
    (hrun : run (step jvm linkage) initial ls = some s) :
    run (JvmHookFramework.step jvm) initialState (ls.filterMap (Label.native linkage)) =
        some s.agent ∧
      SlotChain.values s.classPrepareLoadingHook = ls.foldl (registered linkage) [] ∧
      ∀ c error s', s.invoke jvm linkage c = some (some error, s') → s' = s := by
  exact ⟨(projects jvm linkage).run hrun, values_of_run hrun, fun c error s' => invoke_throws⟩

/-- A method is hooked by its name, another name is not found, and the first of two class
prepare hooks unregisters itself when it is called. -/
def unregisteringRun : List Label :=
  [.call (.registerHook ⟨0⟩ ['m'] ['(', ')', 'V'] (some ⟨4⟩)),
    .call (.registerHook ⟨0⟩ ['n'] ['(', ')', 'V'] (some ⟨4⟩)),
    .call (.registerClassPrepareHook (some ⟨5⟩)), .call (.registerClassPrepareHook (some ⟨6⟩)),
    .event (.prepare 0 ⟨3⟩), .accept 0, .call (.unregisterClassPrepareHook (some ⟨5⟩)), .accept 0,
    .event (.finish 0 false), .event (.prepare 0 ⟨2⟩), .accept 0, .event (.finish 0 false)]

theorem runs_project_unregistering :
    ∃ s : State, run (JvmHookFramework.step .plain) initialState
        [.register ⟨1⟩ (some ⟨4⟩), .prepare 0 ⟨3⟩, .finish 0 false, .prepare 0 ⟨2⟩,
          .finish 0 false] = some s.agent ∧
      SlotChain.values s.classPrepareLoadingHook = [⟨6⟩] ∧
      ∀ c error s', s.invoke .plain (.plain ⟨1⟩) c = some (some error, s') → s' = s :=
  ⟨_, runs_project .plain (.plain ⟨1⟩) unregisteringRun _ rfl⟩

/-- On every thread, and whatever the others do, the classes that the machine announces are
broadcast in tours, one for each and in order.  A tour calls the hooks in the order of their
registrations and none of them twice; it calls no hook that was unregistered when it began,
and unless a hook throws it calls every one that stays registered until it ends. -/
theorem class_prepare_hooks_in_tours (jvm : Jvm) (linkage : Linkage) (ls : List Label) (s : State)
    (hrun : run (step jvm linkage) initial ls = some s) (t : Tid) :
    ∃ tours, InTours (Parts.ofPart t (emitted (step jvm linkage) (tourLog jvm) initial ls)) tours ∧
      tours.map Tour.about =
        (Parts.ofPart t (emitted (JvmHookFramework.step jvm) (hookEvents jvm) initialState
          (ls.filterMap (Label.native linkage)))).filterMap prepared? := by
  obtain ⟨tours, last, htouring⟩ := touring_of_run hrun t
  refine ⟨_, htouring.inTours, ?_⟩
  rw [← htouring.inTours.starts, ← filterMap_onThread, ← filterMap_onThread, ← emitted_filterMap,
    ← emitted_filterMap]
  exact (projects jvm linkage).emitted (starts_eq t) hrun

theorem class_prepare_hooks_in_tours_unregistering :
    ∃ tours : List (Tour (Klass × Option Obj) Obj), InTours
        [.start (⟨3⟩, some ⟨10⟩) [some ⟨5⟩, some ⟨6⟩], .visit (⟨3⟩, some ⟨10⟩) (0, ⟨5⟩),
          .visit (⟨3⟩, some ⟨10⟩) (1, ⟨6⟩), .stop false [none, some ⟨6⟩],
          .start (⟨2⟩, some ⟨10⟩) [none, some ⟨6⟩], .visit (⟨2⟩, some ⟨10⟩) (1, ⟨6⟩),
          .stop false [none, some ⟨6⟩]] tours ∧
      tours.map Tour.about = [(⟨3⟩, some ⟨10⟩), (⟨2⟩, some ⟨10⟩)] :=
  class_prepare_hooks_in_tours .plain (.plain ⟨1⟩) unregisteringRun _ rfl 0

end Bridge

end JvmHookFramework
