/-
  Machine/References.lean --- who holds the global references of the callbacks.

  A running callback holds references in the cells of its table and in its record for the
  forced return.  A native call swaps what one of the two holds, and the end of the
  callback lets both go.
-/
import JvmHookFramework.Machine.Callbacks
import JvmHookFramework.Native.OwnedRefs
import JvmHookFramework.Native.ReturnType

set_option autoImplicit false

namespace JvmHookFramework

open Foundation

/-! ## Holders -/

/-- What a callback holds a reference for. -/
inductive Purpose where
  /-- an argument that `put*` rewrote -/
  | put
  /-- a value that `return*` forces -/
  | ret
  deriving DecidableEq, Repr

def Callback.holds (cb : Callback) : Purpose → List Nat
  | .put => ownedBy cb.parameters
  | .ret => globals cb.returnForce.value

/-- What a callback holds until it returns. -/
def State.holds (s : State) (holder : CallbackId × Purpose) : List Nat :=
  match s.callbacks[holder.1]? with
  | none => []
  | some cb => if cb.returned then [] else cb.holds holder.2

/-- The flags of a callback's variables tell what they hold. -/
structure Callback.Keeps (cb : Callback) : Prop where
  table : ∀ p ∈ cb.parameters, p.Keeps
  force : Deletable cb.returnForce.value
  unedited : cb.returnForce.edited = false → cb.returnForce.value = some .null

/-- What the reference is held for that a native method creates. -/
def HandleOp.purpose? : HandleOp → Option Purpose
  | .put (.putObject _) _ => some .put
  | .ret (.returnObject _) => some .ret
  | _ => none

/-- The callback has returned. -/
def State.Returned (s : State) (c : CallbackId) : Prop :=
  ∃ cb, s.callbacks[c]? = some cb ∧ cb.returned = true

/-- The character that the callback takes for the return type of the method. -/
def Frame.returnChar (jvm : Jvm) (method : JmethodID) : Frame → Char
  | .methodEntry _ => charAt (jvm.methodDesc method) (entryReturnIndex (jvm.methodDesc method))
  | _ => charAt (jvm.methodDesc method) (exitReturnIndex (jvm.methodDesc method))

section

variable {jvm : Jvm} {s s' : State} {t : Tid} {l : Label} {c : CallbackId} {cb : Callback}

theorem State.holds_of_running (hcb : s.callbacks[c]? = some cb) (hrunning : cb.returned = false)
    (k : Purpose) : s.holds (c, k) = cb.holds k := by
  simp only [State.holds, hcb, hrunning, Bool.false_eq_true, if_false]

theorem holds_of_append (hfresh : ∀ k, cb.holds k = [])
    (hcallbacks : s'.callbacks = s.callbacks ++ [cb]) : s'.holds = s.holds := by
  funext ⟨d, k⟩
  simp only [State.holds, hcallbacks]
  rcases Nat.lt_trichotomy d s.callbacks.length with hlt | heq | hgt
  · rw [List.getElem?_append_left hlt]
  · subst heq
    rw [List.getElem?_concat_length, List.getElem?_eq_none (Nat.le_refl _)]
    simp only [hfresh, ite_self]
  · rw [List.getElem?_eq_none (Nat.le_of_lt hgt), List.getElem?_eq_none]
    rw [List.length_append]
    exact hgt

theorem holds_of_modify {f : Callback → Callback}
    (hcallbacks : s'.callbacks = s.callbacks.modify c f) {d : CallbackId} (hd : d ≠ c)
    (k : Purpose) : s'.holds (d, k) = s.holds (d, k) := by
  simp only [State.holds, hcallbacks, List.getElem?_modify_ne _ s.callbacks (Ne.symm hd)]

theorem holds_of_return
    (hcallbacks : s'.callbacks = s.callbacks.modify c fun cb => { cb with returned := true })
    (k : Purpose) : s'.holds (c, k) = [] := by
  simp only [State.holds, hcallbacks, List.getElem?_modify_eq]
  cases s.callbacks[c]? with
  | none => rfl
  | some cb => rfl

theorem returned_of_return (hcb : s.callbacks[c]? = some cb)
    (hcallbacks : s'.callbacks = s.callbacks.modify c fun cb => { cb with returned := true }) :
    s'.Returned c := by
  refine ⟨{ cb with returned := true }, ?_, rfl⟩
  rw [hcallbacks, List.getElem?_modify_eq, hcb]
  rfl

/-! ## The cases of a step -/

/-- What the end of the callback `c` deletes: the arguments, for an entry callback, and the
forced return where the method is taken to return a reference. -/
def State.gone (jvm : Jvm) (s : State) (f : Frame) (a : Activation) (c : CallbackId) :
    Purpose → List Nat
  | .put =>
      match f with
      | .methodEntry _ => s.holds (c, .put)
      | _ => []
  | .ret => if TakenForReference (f.returnChar jvm a.method) then s.holds (c, .ret) else []

theorem State.gone_cases (jvm : Jvm) (s : State) (f : Frame) (a : Activation) (c : CallbackId)
    (k : Purpose) : s.gone jvm f a c k = s.holds (c, k) ∨ s.gone jvm f a c k = [] := by
  cases k with
  | put => cases f <;> simp [State.gone]
  | ret =>
      by_cases ht : TakenForReference (f.returnChar jvm a.method)
      · exact Or.inl (if_pos ht)
      · exact Or.inr (if_neg ht)

/-- The callback `c` ends, run by the frame `f` over the activation `a`. -/
structure RefsEnd (jvm : Jvm) (s s' : State) (f : Frame) (a : Activation) (c : CallbackId) :
    Prop where
  refs : s'.refs = { s.refs with
    table := (s.refs.table.deleteAll (s.gone jvm f a c .put)).deleteAll (s.gone jvm f a c .ret) }
  self : ∀ k, s'.holds (c, k) = []
  returned : s'.Returned c
  others : ∀ d k, d ≠ c → s'.holds (d, k) = s.holds (d, k)

/-- What a step does to the references and to what is held. -/
inductive RefStep (jvm : Jvm) (s s' : State) : Label → Prop where
  | kept {l : Label} (hrefs : s'.refs = s.refs) (hholds : s'.holds = s.holds) : RefStep jvm s s' l
  /-- A `putObject` or `returnObject` on an object of the callback `c`. -/
  | called {h : HandleId} {op : HandleOp} {c : CallbackId} {k : Purpose}
      (haddress : s.address h = some c) (hpurpose : op.purpose? = some k)
      (hswap : Swap s.refs (s.holds (c, k)) s'.refs (s'.holds (c, k)))
      (hothers : ∀ holder, holder ≠ (c, k) → s'.holds holder = s.holds holder) :
      RefStep jvm s s' (.native h op)
  | ended {t : Tid} {threw : Bool} {f : Frame} {a : Activation} {c : CallbackId}
      (hends : RefsEnd jvm s s' f a c) : RefStep jvm s s' (.finish t threw)

/-- What a call does to what its callback holds. -/
structure CallKeeps (op : HandleOp) (cb cb' : Callback) (refs refs' : JniRefs) : Prop where
  keeps : cb'.Keeps
  other : ∀ k, op.purpose? ≠ some k → cb'.holds k = cb.holds k
  swap : ∀ k, op.purpose? = some k → Swap refs (cb.holds k) refs' (cb'.holds k)
  idle : op.purpose? = none → refs' = refs

theorem CallKeeps.of_same {op : HandleOp} {refs refs' : JniRefs} {cb' : Callback}
    (hpurpose : op.purpose? = none) (hkeeps : cb'.Keeps) (hholds : ∀ k, cb'.holds k = cb.holds k)
    (hrefs : refs' = refs) : CallKeeps op cb cb' refs refs' where
  keeps := hkeeps
  other := fun k _ => hholds k
  swap := by
    intro k hk
    cases hpurpose.symm.trans hk
  idle := fun _ => hrefs

theorem callKeeps_put {size : Int} {thisObj : Cell Jobject} {index : Int} {refs : JniRefs}
    (op : ArgumentsNative.PutOp) {outcome : CallOutcome} (hkeeps : cb.Keeps)
    (hcall : (HandleOp.put op index).call (.argumentsNative size thisObj) (some cb) refs =
      some outcome) :
    CallKeeps (.put op index) cb (outcome.2.1.getD cb) refs outcome.2.2 := by
  obtain rfl := Option.some.inj hcall
  by_cases hop : ∃ value, op = .putObject value
  · obtain ⟨value, rfl⟩ := hop
    obtain ⟨hswap, htable⟩ := putObject_swap refs value hkeeps.table size index
    refine ⟨⟨htable, hkeeps.force, hkeeps.unedited⟩, fun k hk => ?_, fun k hk => ?_, nofun⟩
    · cases k with
      | put => exact absurd rfl hk
      | ret => rfl
    · obtain rfl := Option.some.inj hk
      exact hswap
  · have hother : ∀ value, op ≠ .putObject value := fun value heq => hop ⟨value, heq⟩
    have hpurpose : (HandleOp.put op index).purpose? = none := by
      cases op with
      | putObject value => exact absurd rfl (hother value)
      | _ => rfl
    have hidle := ArgumentsNative.PutOp.idle refs hother hkeeps.table size index
    refine .of_same hpurpose ⟨hidle.keeps, hkeeps.force, hkeeps.unedited⟩ (fun k => ?_) hidle.refs
    cases k with
    | put => exact hidle.owned
    | ret => rfl

theorem callKeeps_ret {refs : JniRefs} (op : ForceEarlyReturnNative.ReturnOp)
    {outcome : CallOutcome} (hkeeps : cb.Keeps)
    (hcall : (HandleOp.ret op).call .forceEarlyReturnNative (some cb) refs = some outcome) :
    CallKeeps (.ret op) cb (outcome.2.1.getD cb) refs outcome.2.2 := by
  obtain rfl := Option.some.inj hcall
  have hrecord : ∀ {c' : CallParameter}, (op.call (some cb.returnForce) refs).1 = some c' →
      c'.edited = true → Deletable c'.value →
      ({ cb with returnForce :=
        (op.call (some cb.returnForce) refs).1.getD cb.returnForce } : Callback).Keeps := by
    intro c' hc' hedited hforce
    rw [hc', Option.getD_some]
    exact ⟨hkeeps.table, hforce, fun h => absurd (hedited.symm.trans h) (by decide)⟩
  by_cases hop : ∃ value, op = .returnObject value
  · obtain ⟨value, rfl⟩ := hop
    obtain ⟨c', hc', hedited, hforce, hswap⟩ :=
      returnObject_swap refs value hkeeps.force hkeeps.unedited
    refine ⟨hrecord hc' hedited hforce, fun k hk => ?_, fun k hk => ?_, nofun⟩
    · cases k with
      | put => rfl
      | ret => exact absurd rfl hk
    · obtain rfl := Option.some.inj hk
      have hvalue : ((((ForceEarlyReturnNative.ReturnOp.returnObject value).call
          (some cb.returnForce) refs).1).getD cb.returnForce).value = c'.value := by
        rw [hc', Option.getD_some]
      rw [← hvalue] at hswap
      exact hswap
  · have hother : ∀ value, op ≠ .returnObject value := fun value heq => hop ⟨value, heq⟩
    have hpurpose : (HandleOp.ret op).purpose? = none := by
      cases op with
      | returnObject value => exact absurd rfl (hother value)
      | _ => rfl
    obtain ⟨c', hcall', hedited, hvalue⟩ :=
      ForceEarlyReturnNative.ReturnOp.idle refs hother cb.returnForce
    have hc' : (op.call (some cb.returnForce) refs).1 = some c' := congrArg Prod.fst hcall'
    refine .of_same hpurpose (hrecord hc' hedited (hvalue ▸ hkeeps.force)) (fun k => ?_)
      (congrArg Prod.snd hcall')
    cases k with
    | put => rfl
    | ret => exact congrArg globals ((congrArg (fun c => (c.getD cb.returnForce).value) hc').trans
        hvalue)

/-- A call changes what is held for its purpose, and nothing else. -/
theorem HandleOp.call_keeps {op : HandleOp} {cls : HandleClass} {refs : JniRefs}
    {outcome : CallOutcome} (hcall : op.call cls (some cb) refs = some outcome)
    (hkeeps : cb.Keeps) : CallKeeps op cb (outcome.2.1.getD cb) refs outcome.2.2 := by
  cases op with
  | put op index =>
      cases cls with
      | argumentsNative size thisObj => exact callKeeps_put op hkeeps hcall
      | _ => cases hcall
  | ret op =>
      cases cls with
      | forceEarlyReturnNative => exact callKeeps_ret op hkeeps hcall
      | _ => cases hcall
  | _ =>
      have hsame : outcome.2.1.getD cb = cb ∧ outcome.2.2 = refs := by
        cases cls <;> first
          | (obtain rfl := Option.some.inj hcall; exact ⟨rfl, rfl⟩)
          | cases hcall
      rw [hsame.1]
      exact .of_same rfl hkeeps (fun _ => rfl) hsame.2

/-- A native call swaps what it has a purpose for. -/
theorem refStep_of_native {h : HandleId} {op : HandleOp} {o : Handle} {outcome : CallOutcome}
    (hhandle : s.handles[h]? = some o) (haddress : o.address = some c)
    (hcb : s.callbacks[c]? = some cb) (hrunning : cb.returned = false)
    (hcall : op.call o.cls (some cb) s.refs = some outcome) (hkeeps : cb.Keeps)
    (hrefs : s'.refs = outcome.2.2)
    (hcallbacks : s'.callbacks = s.callbacks.modify c fun old => outcome.2.1.getD old) :
    RefStep jvm s s' (.native h op) := by
  obtain ⟨_, hsame, hswap, hidle⟩ := HandleOp.call_keeps hcall hkeeps
  have hold : ∀ k, s.holds (c, k) = cb.holds k := State.holds_of_running hcb hrunning
  have hcb' : s'.callbacks[c]? = some (outcome.2.1.getD cb) := by
    rw [hcallbacks, List.getElem?_modify_eq, hcb]
    rfl
  have hnew : ∀ k, s'.holds (c, k) = (outcome.2.1.getD cb).holds k :=
    State.holds_of_running hcb' ((HandleOp.call_returned hcall cb rfl).trans hrunning)
  have hothers : ∀ d k, (d = c → op.purpose? ≠ some k) → s'.holds (d, k) = s.holds (d, k) := by
    intro d k hk
    by_cases hd : d = c
    · rw [hd, hnew, hold, hsame k (hk hd)]
    · exact holds_of_modify hcallbacks hd k
  cases hpurpose : op.purpose? with
  | none =>
      refine .kept (hrefs.trans (hidle hpurpose)) ?_
      funext ⟨d, k⟩
      refine hothers d k fun _ hk => ?_
      cases hpurpose.symm.trans hk
  | some k =>
      refine @RefStep.called jvm s s' h op c k ?_ hpurpose ?_ fun ⟨d, k'⟩ hne => hothers d k' ?_
      · rw [State.address, hhandle, Option.bind_some, haddress]
      · rw [hold, hnew, hrefs]
        exact hswap k hpurpose
      · rintro rfl hk
        obtain rfl := Option.some.inj (hpurpose.symm.trans hk)
        exact hne rfl

theorem refsEnd_of_finishEntry {e : EntryCall} {a : Activation} {rest : List Frame}
    (hcb : s.callbacks[e.callback]? = some cb) (hrunning : cb.returned = false)
    (hkeeps : cb.Keeps) :
    RefsEnd jvm s (onMethodEntry.finish jvm s t e cb a rest) (.methodEntry e) a e.callback := by
  have hcallbacks : (onMethodEntry.finish jvm s t e cb a rest).callbacks =
      s.callbacks.modify e.callback fun cb => { cb with returned := true } := rfl
  have hrefs : (onMethodEntry.finish jvm s t e cb a rest).refs =
      (forceReturn ((Frame.methodEntry e).returnChar jvm a.method) cb.returnForce
        (writeParameters cb.parameters a.frame s.refs).2).2 := rfl
  rw [writeParameters_refs hkeeps.table, forceReturn_refs hkeeps.force hkeeps.unedited] at hrefs
  refine ⟨hrefs.trans ?_, holds_of_return hcallbacks, returned_of_return hcb hcallbacks,
    fun d k hd => holds_of_modify hcallbacks hd k⟩
  simp only [State.gone, State.holds_of_running hcb hrunning, Callback.holds]

theorem refsEnd_of_finishExit {e : ExitCall} {a : Activation} {rest : List Frame}
    (hcb : s.callbacks[e.callback]? = some cb) (hrunning : cb.returned = false)
    (hkeeps : cb.Keeps) :
    RefsEnd jvm s (onMethodExit.finish jvm s t e cb a rest) (.methodExit e) a e.callback := by
  have hcallbacks : (onMethodExit.finish jvm s t e cb a rest).callbacks =
      s.callbacks.modify e.callback fun cb => { cb with returned := true } := rfl
  have hrefs : (onMethodExit.finish jvm s t e cb a rest).refs =
      (forceReturn ((Frame.methodExit e).returnChar jvm a.method) cb.returnForce s.refs).2 := rfl
  rw [forceReturn_refs hkeeps.force hkeeps.unedited] at hrefs
  refine ⟨hrefs.trans ?_, holds_of_return hcallbacks, returned_of_return hcb hcallbacks,
    fun d k hd => holds_of_modify hcallbacks hd k⟩
  simp only [State.gone, State.holds_of_running hcb hrunning, Callback.holds,
    RefTable.deleteAll_nil]

/-! ## The invariant -/

/-- Every reference that a callback holds is live and held once, and `DeleteGlobalRef` was
never applied to anything but a global reference. -/
structure ReferencesOk (s : State) : Prop where
  refs : RefsOk s.refs s.holds
  keeps : ∀ cb ∈ s.callbacks, cb.Keeps

theorem referencesOk_initial : ReferencesOk initialState := by
  have hnone : initialState.holds = fun _ => [] := by
    funext holder
    rfl
  refine ⟨⟨?_, rfl⟩, fun cb hcb => absurd hcb List.not_mem_nil⟩
  rw [hnone]
  exact Custody.empty

/-- A callback on top of a stack still runs. -/
theorem HandlesOk.running_top (h : HandlesOk s) {f : Frame} {rest : List Frame}
    (hstack : s.stack t = f :: rest) (howner : f.owner.map Prod.fst = some c)
    (hcb : s.callbacks[c]? = some cb) : cb.returned = false := by
  obtain ⟨⟨d, hs⟩, hf, rfl⟩ := Option.map_eq_some_iff.mp howner
  have hmem : d ∈ s.runningCallbacks t := by
    refine List.mem_map.mpr ⟨(d, hs), List.mem_filterMap.mpr ⟨f, ?_, hf⟩, rfl⟩
    rw [hstack]
    exact List.mem_cons_self
  obtain ⟨cb', hcb', hrunning⟩ := h.running t d hmem
  obtain rfl := Option.some.inj (hcb.symm.trans hcb')
  exact hrunning

theorem HandlesOk.not_returned (h : HandlesOk s) {f : Frame} {rest : List Frame}
    (hstack : s.stack t = f :: rest) (howner : f.owner.map Prod.fst = some c) :
    ¬ s.Returned c := by
  rintro ⟨cb, hcb, hdone⟩
  rw [h.running_top hstack howner hcb] at hdone
  cases hdone

/-- The end of a callback that is on top of a stack. -/
theorem Step.refsEnd {threw : Bool} {f : Frame} {a : Activation} {rest : List Frame}
    (h : Step jvm s (.finish t threw) s') (hok : ReferencesOk s) (hhandles : HandlesOk s)
    (hstack : s.stack t = f :: .activation a :: rest) (howner : f.owner.map Prod.fst = some c) :
    RefsEnd jvm s s' f a c := by
  have hruns : ∀ {cb : Callback}, s.callbacks[c]? = some cb → cb.returned = false :=
    fun hcb => hhandles.running_top hstack howner hcb
  cases h with
  | finishEntry hframes hloop hcb =>
      obtain ⟨rfl, hrest⟩ := List.cons.inj (hstack.symm.trans hframes)
      obtain ⟨hactivation, rfl⟩ := List.cons.inj hrest
      obtain rfl := Frame.activation.inj hactivation
      obtain rfl := Option.some.inj howner
      exact refsEnd_of_finishEntry hcb (hruns hcb) (hok.keeps _ (List.mem_of_getElem? hcb))
  | finishExit hframes hcb =>
      obtain ⟨rfl, hrest⟩ := List.cons.inj (hstack.symm.trans hframes)
      obtain ⟨hactivation, rfl⟩ := List.cons.inj hrest
      obtain rfl := Frame.activation.inj hactivation
      obtain rfl := Option.some.inj howner
      exact refsEnd_of_finishExit hcb (hruns hcb) (hok.keeps _ (List.mem_of_getElem? hcb))
  | finishPrepare hframes =>
      obtain ⟨rfl, _⟩ := List.cons.inj (hstack.symm.trans hframes)
      cases howner

theorem Step.refStep (h : Step jvm s l s') (hok : ReferencesOk s) (hhandles : HandlesOk s) :
    RefStep jvm s s' l := by
  cases hcases : h with
  | callBroadcast halive hpasses hread =>
      have hfresh := fresh_readParameters hread
      refine .kept rfl (holds_of_append (fun k => ?_) rfl)
      cases k with
      | put => exact ownedBy_fresh hfresh
      | ret => rfl
  | leaveBroadcast =>
      refine .kept rfl (holds_of_append (fun k => ?_) rfl)
      cases k <;> rfl
  | finishEntry hframes => exact .ended (h.refsEnd hok hhandles hframes rfl)
  | finishExit hframes => exact .ended (h.refsEnd hok hhandles hframes rfl)
  | nativeLive hhandle haddress hcb hrunning hcall =>
      exact refStep_of_native hhandle haddress hcb hrunning hcall
        (hok.keeps _ (List.mem_of_getElem? hcb)) rfl rfl
  | _ => exact .kept rfl rfl

/-- What the end of a callback deletes comes behind what was deleted before. -/
theorem RefsEnd.deletes {f : Frame} {a : Activation} (h : RefsEnd jvm s s' f a c) :
    s'.refs.table.deletes =
      s.refs.table.deletes ++ s.gone jvm f a c .put ++ s.gone jvm f a c .ret := by
  rw [h.refs]
  simp only [RefTable.deletes_deleteAll]

/-- A reference that was deleted before the callback ends stays deleted. -/
theorem RefsEnd.mem_deletes_of_mem {f : Frame} {a : Activation} (h : RefsEnd jvm s s' f a c)
    {r : Nat} (hr : r ∈ s.refs.table.deletes) : r ∈ s'.refs.table.deletes := by
  rw [h.deletes, List.append_assoc]
  exact List.mem_append_left _ hr

theorem RefsEnd.refsOk {f : Frame} {a : Activation} (h : RefsEnd jvm s s' f a c)
    (hok : RefsOk s.refs s.holds) : RefsOk s'.refs s'.holds := by
  -- the arguments go first, then the forced return
  let mid := Function.update s.holds (c, .put) []
  have hzero : mid (c, .put) = [] := Function.update_self _ _ _
  have hmid : mid (c, .ret) = s.holds (c, .ret) := Function.update_of_ne (by simp) _ _
  have hfirst : Custody (s.refs.table.deleteAll (s.gone jvm f a c .put)) mid :=
    hok.custody.finish (s.gone_cases jvm f a c .put) hzero
      fun holder hne => Function.update_of_ne hne _ _
  have hret : s.gone jvm f a c .ret = mid (c, .ret) ∨ s.gone jvm f a c .ret = [] :=
    hmid ▸ s.gone_cases jvm f a c .ret
  have hothers : ∀ holder, holder ≠ (c, Purpose.ret) → s'.holds holder = mid holder := by
    rintro ⟨d, k⟩ hne
    by_cases hd : d = c
    · subst hd
      cases k with
      | put => exact (h.self .put).trans hzero.symm
      | ret => exact absurd rfl hne
    · have hneq : (d, k) ≠ (c, Purpose.put) := fun heq => hd (Prod.mk.inj heq).1
      exact (h.others d k hd).trans (Function.update_of_ne hneq _ _).symm
  rw [h.refs]
  exact ⟨hfirst.finish hret (h.self .ret) hothers, hok.misused⟩

theorem RefStep.refsOk (h : RefStep jvm s s' l) (hok : RefsOk s.refs s.holds) :
    RefsOk s'.refs s'.holds := by
  cases h with
  | kept hrefs hholds =>
      rw [hrefs, hholds]
      exact hok
  | called haddress hpurpose hswap hothers => exact hok.swap hswap hothers
  | ended hends => exact hends.refsOk hok

theorem Callback.keeps_of_fresh (htable : ∀ p ∈ cb.parameters, p.Fresh)
    (hforce : cb.returnForce = {}) : cb.Keeps where
  table := fun p hp => (htable p hp).keeps
  force := hforce ▸ trivial
  unedited := fun _ => hforce ▸ rfl

theorem Step.keeps (h : Step jvm s l s') (hkeeps : ∀ cb ∈ s.callbacks, cb.Keeps) :
    ∀ cb ∈ s'.callbacks, cb.Keeps := by
  have happend : ∀ {cb₀ : Callback}, cb₀.Keeps → s'.callbacks = s.callbacks ++ [cb₀] →
      ∀ cb ∈ s'.callbacks, cb.Keeps := by
    intro cb₀ hcb₀ hcallbacks cb hcb
    rw [hcallbacks, List.mem_append, List.mem_singleton] at hcb
    rcases hcb with hold | rfl
    · exact hkeeps cb hold
    · exact hcb₀
  have hmodify : ∀ {d : CallbackId} {f : Callback → Callback},
      s'.callbacks = s.callbacks.modify d f →
      (∀ cb, s.callbacks[d]? = some cb → cb.Keeps → (f cb).Keeps) →
      ∀ cb ∈ s'.callbacks, cb.Keeps := by
    intro d f hcallbacks hf cb hcb
    obtain ⟨c, hc⟩ := List.mem_iff_getElem?.mp hcb
    by_cases hd : d = c
    · subst hd
      rw [hcallbacks, List.getElem?_modify_eq] at hc
      obtain ⟨cb₀, hcb₀, rfl⟩ := Option.map_eq_some_iff.mp hc
      exact hf cb₀ hcb₀ (hkeeps cb₀ (List.mem_of_getElem? hcb₀))
    · rw [hcallbacks, List.getElem?_modify_ne _ s.callbacks hd] at hc
      exact hkeeps cb (List.mem_of_getElem? hc)
  have hreturn : ∀ cb : Callback, cb.Keeps → ({ cb with returned := true } : Callback).Keeps :=
    fun cb h => ⟨h.table, h.force, h.unedited⟩
  cases h with
  | callBroadcast halive hpasses hread =>
      refine happend ?_ rfl
      exact Callback.keeps_of_fresh (fresh_readParameters hread) rfl
  | leaveBroadcast =>
      refine happend ?_ rfl
      exact Callback.keeps_of_fresh (fun p hp => absurd hp List.not_mem_nil) rfl
  | finishEntry => exact hmodify rfl fun cb _ => hreturn cb
  | finishExit => exact hmodify rfl fun cb _ => hreturn cb
  | nativeLive hhandle haddress hcb hrunning hcall =>
      refine hmodify rfl fun cb hcb' hold => ?_
      obtain rfl := Option.some.inj (hcb.symm.trans hcb')
      exact (HandleOp.call_keeps hcall hold).keeps
  | _ => exact hkeeps

theorem referencesOk_of_reachable (h : Reachable (JvmHookFramework.step jvm) initialState s) :
    ReferencesOk s := by
  refine reachable_invariant_with referencesOk_initial ?_ h
  intro s l s' hreachable hok hstep
  have hcases := step_cases hstep
  have hrefs := hcases.refStep hok (handlesOk_of_reachable hreachable)
  exact ⟨hrefs.refsOk hok.refs, hcases.keeps hok.keeps⟩

end

end JvmHookFramework
