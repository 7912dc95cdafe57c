/-
  Machine/Outcome.lean --- the outcome that postInvoke is shown.

  The exit callback hands the hooks a `JvmReturnValueImpl` over the `jvalue` that JVMTI
  passed it.  The object knows whether the activation was unwound, but it is given no
  throwable, and its accessors read the member of the union that they are named after,
  whichever one JVMTI has stored.
-/
import JvmHookFramework.Jvm.Descriptor
import JvmHookFramework.Machine.Metadata

set_option autoImplicit false

namespace JvmHookFramework

open Foundation JvmReturnValueImpl

namespace JvmReturnValueImpl

/-- The accessor of the member that is stored. -/
def accessor : Jvalue → AsOp
  | .z _ => .asBoolean
  | .b _ => .asByte
  | .c _ => .asChar
  | .s _ => .asShort
  | .i _ => .asInt
  | .j _ => .asLong
  | .f _ => .asFloat
  | .d _ => .asDouble
  | .l _ => .asObject

/-- The accessor of a return type; `void` has none. -/
def AsOp.ofReturn : Option FieldType → Option AsOp
  | none => none
  | some .boolean => some .asBoolean
  | some .byte => some .asByte
  | some .char => some .asChar
  | some .short => some .asShort
  | some .int => some .asInt
  | some .long => some .asLong
  | some .float => some .asFloat
  | some .double => some .asDouble
  | some (.object _) | some (.array _) => some .asObject

/-- What JVMTI passes in `return_value`: the member of the return type on a normal exit, and
nothing defined when the activation was unwound. -/
def Delivers (ret : Option FieldType) (was_popped_by_exception : Bool)
    (return_value : Option Jvalue) : Prop :=
  if was_popped_by_exception then return_value = none
  else return_value.map accessor = AsOp.ofReturn ret

/-- A safe answer of the accessor `op`: the value that was returned for the accessor of the
return type, and its default or an `IllegalArgumentException` for every other one. -/
def AnswersSafely (ret : Option FieldType) (was_popped_by_exception : Bool)
    (return_value : Option Jvalue) (op : AsOp) (result : Result) : Prop :=
  if was_popped_by_exception = false ∧ AsOp.ofReturn ret = some op then
    result = .value return_value
  else result = .value (some op.default) ∨ result = .thrown .illegalArgumentException

theorem AsOp.read_accessor (v : Jvalue) : (accessor v).read v = some v := by
  cases v <;> rfl

theorem AsOp.read_of_ne {op : AsOp} {v : Jvalue} (hne : accessor v ≠ op) : op.read v = none := by
  cases v <;> cases op <;> first | rfl | exact absurd rfl hne

/-- An accessor reads a defined member exactly when it is the one of the return type. -/
theorem answersSafely_iff {ret : Option FieldType} {popped : Bool} {value : Option Jvalue}
    (hdelivers : Delivers ret popped value) (op : AsOp) :
    AnswersSafely ret popped value op (.value (value.bind op.read)) ↔
      popped = false ∧ AsOp.ofReturn ret = some op := by
  have hundefined : value.bind op.read = none →
      ¬ (Result.value (value.bind op.read) = .value (some op.default) ∨
        Result.value (value.bind op.read) = .thrown .illegalArgumentException) := by
    intro hnone
    rw [hnone]
    simp
  unfold AnswersSafely
  cases popped with
  | true =>
      obtain rfl : value = none := hdelivers
      simp
  | false =>
      have hmember : value.map accessor = AsOp.ofReturn ret := hdelivers
      by_cases hop : AsOp.ofReturn ret = some op
      · obtain ⟨v, rfl, rfl⟩ := Option.map_eq_some_iff.mp (hmember.trans hop)
        simp only [hop, and_self, if_true, Option.bind_some, AsOp.read_accessor]
      · have hnone : value.bind op.read = none := by
          cases value with
          | none => rfl
          | some v =>
              refine AsOp.read_of_ne fun heq => hop ?_
              rw [← hmember, Option.map_some, heq]
        simp only [hop, and_false, if_false, iff_false]
        exact hundefined hnone

end JvmReturnValueImpl

section

variable {jvm : Jvm} {s s' : State} {t : Tid} {l : Label} {h : HandleId}

/-! ## The value of a callback -/

/-- The `jvalue` of a callback. -/
def State.returnValue (s : State) (c : CallbackId) : Option (Option Jvalue) :=
  (s.callbacks[c]?).map Callback.return_value

theorem HandleOp.call_return_value {op : HandleOp} {cls : HandleClass} {cb : Callback}
    {refs : JniRefs} {outcome : CallOutcome} (hcall : op.call cls (some cb) refs = some outcome) :
    (outcome.2.1.getD cb).return_value = cb.return_value := by
  cases op <;> cases cls <;> first
    | (obtain rfl := Option.some.inj hcall; rfl)
    | cases hcall

theorem Step.returnValue {c : CallbackId} {value : Option Jvalue} (hstep : Step jvm s l s')
    (hvalue : s.returnValue c = some value) : s'.returnValue c = some value := by
  obtain ⟨cb, hcb, rfl⟩ := Option.map_eq_some_iff.mp hvalue
  have hlt := (List.getElem?_eq_some_iff.mp hcb).1
  have happend : ∀ {cb' : Callback}, s'.callbacks = s.callbacks ++ [cb'] →
      s'.returnValue c = some cb.return_value := by
    intro cb' hcallbacks
    unfold State.returnValue
    rw [hcallbacks, List.getElem?_append_left hlt, hcb, Option.map_some]
  have hreturns : ∀ {d : CallbackId},
      s'.callbacks = s.callbacks.modify d (fun cb => { cb with returned := true }) →
      s'.returnValue c = some cb.return_value := by
    intro d hcallbacks
    unfold State.returnValue
    rw [hcallbacks, List.getElem?_modify, hcb]
    simp only [Option.map_eq_map, Option.map_some]
    split <;> rfl
  cases hcases : hstep with
  | callBroadcast => exact happend rfl
  | leaveBroadcast => exact happend rfl
  | finishEntry => exact hreturns rfl
  | finishExit => exact hreturns rfl
  | @nativeLive h op o d cb' outcome hhandle haddress hcb' hrunning hcall =>
      unfold State.returnValue
      rw [List.getElem?_modify, hcb]
      by_cases hd : d = c
      · subst hd
        obtain rfl := Option.some.inj (hcb.symm.trans hcb')
        simp [HandleOp.call_return_value hcall]
      · simp [hd]
  | _ => exact hvalue

/-- An accessor that is called on an object with its address reads the `jvalue`. -/
theorem native_as {e : Option Obj} {isE : Bool} {c : CallbackId} {value : Option Jvalue}
    (hok : HandlesOk s) (hcls : s.cls h = some (.jvmReturnValueImpl e isE))
    (haddress : s.address h = some c) (hruns : c ∈ s.runningCallbacks t)
    (hvalue : s.returnValue c = some value) (op : AsOp) :
    ∃ s₂, s.native h (.as op) = some (.value (value.bind op.read), s₂) := by
  obtain ⟨o, ho, hocls, hoaddress⟩ := State.exists_handle hcls haddress
  obtain ⟨cb, hcb, hreturned⟩ := hok.running t c hruns
  obtain ⟨cb', hcb', rfl⟩ := Option.map_eq_some_iff.mp hvalue
  obtain rfl := Option.some.inj (hcb.symm.trans hcb')
  unfold State.native
  simp only [ho, hoaddress, hcb, hreturned, hocls]
  exact ⟨_, rfl⟩

/-- The second of the objects that a callback creates. -/
theorem State.cls_newHandle_second (s : State) (cls₁ cls₂ : HandleClass) (c : CallbackId) :
    ((s.newHandle cls₁ c).newHandle cls₂ c).cls (s.handles.length + 1) = some cls₂ := by
  rw [← State.length_newHandle s cls₁ c, State.cls_newHandle_self]

/-- What the object for the outcome is made of. -/
theorem onMethodExit.outcome_begin (jvm : Jvm) (s : State) (t : Tid) (a : Activation)
    (rest : List Frame) (hooks : ArrayId) (popped : Bool) (value : Option Jvalue) :
    ∃ c, (onMethodExit.begin jvm s t a rest hooks popped value).stack t =
        .methodExit c :: .activation a :: rest ∧
      (onMethodExit.begin jvm s t a rest hooks popped value).cls c.retV =
        some (.jvmReturnValueImpl none popped) ∧
      (onMethodExit.begin jvm s t a rest hooks popped value).returnValue c.callback =
        some value := by
  unfold onMethodExit.begin
  rw [State.stack_setThread_self]
  refine ⟨_, rfl, ?_, ?_⟩
  · exact State.cls_newHandle _ _ (State.cls_newHandle_second _ _ _ _)
  · exact congrArg (Option.map Callback.return_value) List.getElem?_concat_length

end

/-! ## Exit broadcasts -/

/-- The exit event of `a`, whose method has the descriptor `d`, starts the exit callback `c`
on `t`, with the arguments that JVMTI passes for it. -/
structure ExitBroadcast (jvm : Jvm) (t : Tid) (popped : Bool) (value : Option Jvalue)
    (a : Activation) (d : MethodDescriptor) (s : State) (c : ExitCall) (s' : State) : Prop where
  reachable : Reachable (step jvm) initialState s
  stack : ∃ rest, s.stack t = .activation a :: rest
  desc : jvm.methodDesc a.method = d.render
  delivers : Delivers d.ret popped value
  leave : step jvm s (.leave t popped value) = some s'
  begins : s'.stack t = .methodExit c :: s.stack t

/-- A state after `s'` in which the exit callback `c` is still on the stack. -/
structure During (jvm : Jvm) (t : Tid) (c : ExitCall) (s' s₁ : State) : Prop where
  later : ∃ ls, run (step jvm) s' ls = some s₁
  onStack : ∃ i, .methodExit { c with i := i } ∈ s₁.stack t

/-- The hooks see in `s₁` what became of the activation: `isException()` says whether it was
unwound, `exception()` is the throwable that did it, the accessor of the return type yields
the value, and of the accessors `ops` that are called none reads an undefined member. -/
structure OutcomeShown (ret : Option FieldType) (popped : Bool) (value : Option Jvalue)
    (thrown : Obj) (ops : List AsOp) (c : ExitCall) (s₁ : State) : Prop where
  isException : ∃ e, s₁.cls c.retV = some (.jvmReturnValueImpl e popped)
  exception : popped = true → ∃ isE, s₁.cls c.retV = some (.jvmReturnValueImpl (some thrown) isE)
  declared : popped = false → ∀ op', AsOp.ofReturn ret = some op' →
    ∃ s₂, s₁.native c.retV (.as op') = some (.value value, s₂)
  safe : ∀ op ∈ ops, ∃ result s₂, s₁.native c.retV (.as op) = some (result, s₂) ∧
    AnswersSafely ret popped value op result

section

variable {jvm : Jvm} {t : Tid} {popped : Bool} {value : Option Jvalue} {a : Activation}
  {d : MethodDescriptor} {c : ExitCall} {s s' s₁ : State}

/-- The object for the outcome, as long as the callback runs. -/
theorem ExitBroadcast.during (h : ExitBroadcast jvm t popped value a d s c s')
    (hduring : During jvm t c s' s₁) :
    s₁.cls c.retV = some (.jvmReturnValueImpl none popped) ∧
      ∀ op : AsOp, ∃ s₂, s₁.native c.retV (.as op) = some (.value (value.bind op.read), s₂) := by
  obtain ⟨rest, hstack⟩ := h.stack
  obtain ⟨ls, hrun⟩ := hduring.later
  obtain ⟨i, hmem⟩ := hduring.onStack
  -- the callback as it began
  have hbegins := h.begins
  obtain ⟨_, _, a', rest', hl, hstack₂, hpasses, _⟩ :=
    ((step_cases h.leave).thread t).exit_begins hbegins
  obtain ⟨e, he, hcls, hvalue⟩ :=
    onMethodExit.outcome_begin jvm s t a' rest' c.pointer popped value
  have hstep := (hpasses.step_leave hstack₂ popped value).symm.trans h.leave
  rw [Option.some.inj hstep] at he hcls hvalue
  obtain rfl := Frame.methodExit.inj (List.cons.inj (he.symm.trans hbegins)).1
  -- the callback in the later state
  obtain ⟨before, hbefore⟩ := h.reachable.tail h.leave
  have hreachable : Reachable (step jvm) initialState s₁ :=
    ⟨before ++ ls, run_append.mpr ⟨s', hbefore, hrun⟩⟩
  have hcls₁ := cls_of_run hcls hrun
  have hvalue₁ : s₁.returnValue e.callback = some value :=
    run_invariant (fun _ _ _ hinv hstep => (step_cases hstep).returnValue hinv) hvalue hrun
  have howner : (e.callback, [e.cc, e.retV, e.metInfo]) ∈ owners (s₁.stack t) :=
    List.mem_filterMap.mpr ⟨_, hmem, rfl⟩
  have haddress : s₁.address e.retV = some e.callback :=
    addressesOk_of_reachable hreachable t _ _ _ howner (by simp)
  exact ⟨hcls₁, native_as (handlesOk_of_reachable hreachable) hcls₁ haddress
    (List.mem_map_of_mem howner) hvalue₁⟩

end

/-- While an exit callback runs, its hooks are shown the outcome exactly when the activation
was not unwound and they call no accessor but the one of the return type. -/
theorem outcome_shown_iff (jvm : Jvm) (t : Tid) (popped : Bool) (value : Option Jvalue)
    (a : Activation) (d : MethodDescriptor) (s s' s₁ : State) (c : ExitCall) (thrown : Obj)
    (ops : List AsOp) (hexit : ExitBroadcast jvm t popped value a d s c s')
    (hduring : During jvm t c s' s₁) :
    OutcomeShown d.ret popped value thrown ops c s₁ ↔
      popped = false ∧ ∀ op ∈ ops, AsOp.ofReturn d.ret = some op := by
  obtain ⟨hcls, hnative⟩ := hexit.during hduring
  constructor
  · intro hshown
    have hnormal : popped = false := by
      refine eq_false_of_ne_true fun hset => ?_
      obtain ⟨isE, hthrown⟩ := hshown.exception hset
      have hclash := Option.some.inj (hcls.symm.trans hthrown)
      cases hclash
    refine ⟨hnormal, fun op hop => ?_⟩
    obtain ⟨result, s₂, hcall, hsafe⟩ := hshown.safe op hop
    obtain ⟨s₃, hcall'⟩ := hnative op
    obtain ⟨rfl, _⟩ := Prod.mk.inj (Option.some.inj (hcall'.symm.trans hcall))
    exact ((answersSafely_iff hexit.delivers op).mp hsafe).2
  · rintro ⟨rfl, hops⟩
    have hanswer : ∀ op, AsOp.ofReturn d.ret = some op →
        ∃ s₂, s₁.native c.retV (.as op) = some (.value value, s₂) := by
      intro op hop
      have hsafe := (answersSafely_iff hexit.delivers op).mpr ⟨rfl, hop⟩
      rw [AnswersSafely, if_pos ⟨rfl, hop⟩] at hsafe
      rw [← hsafe]
      exact hnative op
    refine ⟨⟨none, hcls⟩, fun hset => absurd hset Bool.false_ne_true, fun _ => hanswer, ?_⟩
    intro op hop
    obtain ⟨s₂, hcall⟩ := hanswer op (hops op hop)
    refine ⟨_, s₂, hcall, ?_⟩
    rw [AnswersSafely, if_pos ⟨rfl, hops op hop⟩]

/-- A machine whose methods are all `static int m()`. -/
def Jvm.plainReturnInt : Jvm := { Jvm.plain with methodDesc := fun _ => ['(', ')', 'I'] }

/-- A hooked method is called; its exit is still to come. -/
def beforeExitRun : List Label :=
  [.register ⟨1⟩ (some ⟨5⟩), .call 0 ⟨1⟩ fun _ => none, .broadcast 0, .finish 0 true]

/-- The activation that is left in `beforeExitRun`. -/
def beforeExitActivation : Activation :=
  { entered ⟨1⟩ (fun _ => none) with broadcast := some 0 }

theorem exitBroadcast_of_beforeExitRun {popped : Bool} {value : Option Jvalue}
    (hdelivers : Delivers (some .int) popped value) :
    ∃ s c s', ExitBroadcast .plainReturnInt 0 popped value beforeExitActivation
      { params := [], ret := some .int } s c s' ∧ During .plainReturnInt 0 c s' s' :=
  ⟨_, _, _, ⟨⟨beforeExitRun, rfl⟩, ⟨_, rfl⟩, rfl, hdelivers, rfl, rfl⟩, ⟨[], rfl⟩,
    ⟨0, List.mem_cons_self⟩⟩

/-- A hook calls `asInt` after a normal exit of an `int` method. -/
theorem outcome_shown_int :
    ∃ s c s', ExitBroadcast .plainReturnInt 0 false (some (.i 7)) beforeExitActivation
        { params := [], ret := some .int } s c s' ∧
      OutcomeShown (some .int) false (some (.i 7)) ⟨9⟩ [.asInt] c s' := by
  obtain ⟨s, c, s', hexit, hduring⟩ :=
    @exitBroadcast_of_beforeExitRun false (some (.i 7)) rfl
  refine ⟨s, c, s', hexit, (outcome_shown_iff .plainReturnInt 0 false _ _ _ s s' s' c ⟨9⟩ _
    hexit hduring).mpr ⟨rfl, fun op hop => ?_⟩⟩
  rw [List.mem_singleton.mp hop]
  rfl

/-- After an exceptional exit `exception()` is null. -/
theorem outcome_hidden_popped :
    ¬ ∀ jvm t popped value a d s s' s₁ c thrown ops,
      ExitBroadcast jvm t popped value a d s c s' → During jvm t c s' s₁ →
        OutcomeShown d.ret popped value thrown ops c s₁ := by
  intro hshown
  obtain ⟨s, c, s', hexit, hduring⟩ := @exitBroadcast_of_beforeExitRun true none rfl
  obtain ⟨isE, hthrown⟩ :=
    (hshown _ _ _ _ _ _ s s' s' c ⟨9⟩ [] hexit hduring).exception rfl
  obtain ⟨hcls, _⟩ := hexit.during hduring
  have hclash := Option.some.inj (hcls.symm.trans hthrown)
  cases hclash

end JvmHookFramework
