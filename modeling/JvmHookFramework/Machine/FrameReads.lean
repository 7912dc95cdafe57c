/-
  Machine/FrameReads.lean --- what the hooks see of the locals that JVMTI could not read.

  The filling loop stores the out-variable of a `GetLocal*` call into its cell whatever
  the call returned, so the cell of a failed read holds what the variable happened to
  hold.  A `put*` that the cell accepts overwrites it; until then a getter of its kind
  returns it.
-/
import JvmHookFramework.Machine.Metadata
import JvmHookFramework.Machine.Rewriting
import JvmHookFramework.Native.ArgumentLaws

set_option autoImplicit false

namespace JvmHookFramework

open Foundation ArgumentsNative

/-! ## Getters on a table -/

theorem CallParameter.kind_of_read {p : CallParameter} {refs : JniRefs} {k : Kind} {v : Local}
    (h : p.read refs k = some v) : v.kind = k := by
  cases k with
  | _ =>
      obtain ⟨w, _, rfl⟩ := Option.map_eq_some_iff.mp h
      rfl

/-- A cell that was just made holds the local, if it is of the parameter's kind. -/
theorem FieldType.read_cell (frame : Locals) (slot : Nat) (t : FieldType) (refs : JniRefs) :
    (t.cell frame slot).read refs t.kind = (frame slot).filter fun v => v.kind = t.kind := by
  rcases hslot : frame slot with _ | (v | v | v | v | (_ | o)) <;> cases t <;>
    simp only [cell, CallParameter.read, kind, Locals.GetLocalObject, Locals.GetLocalInt,
      Locals.GetLocalFloat, Locals.GetLocalLong, Locals.GetLocalDouble, hslot] <;>
    rfl

namespace ArgumentsNative

theorem GetOp.exists_kind (k : Kind) : ∃ g : GetOp, g.kind = k := by
  cases k with
  | int => exact ⟨.getAsInt, rfl⟩
  | float => exact ⟨.getAsFloat, rfl⟩
  | long => exact ⟨.getAsLong, rfl⟩
  | double => exact ⟨.getAsDouble, rfl⟩
  | object => exact ⟨.getAsObject, rfl⟩

/-- An undefined field is returned as it is. -/
theorem GetOp.field_of_undefined {g : GetOp} {px : CallParameter} {refs : JniRefs}
    (h : px.read refs g.kind = none) : g.field px = none := by
  cases g with
  | _ =>
      have hfield := Option.map_eq_none_iff.mp h
      simp only [field, hfield, Option.map_none]

theorem GetOp.narrows_read {g : GetOp} {px : CallParameter} {refs : JniRefs} {v : Local}
    (h : px.read refs g.kind = some v) : g.Narrows refs v (.value (g.field px)) := by
  have hkind := CallParameter.kind_of_read h
  rw [← hkind] at h
  exact narrows_field hkind.symm h

theorem GetOp.Narrows.defined {g : GetOp} {refs : JniRefs} {v : Local} {result : Result}
    (h : g.Narrows refs v result) : result ≠ .value none := by
  rintro rfl
  cases g <;> cases v <;> first
    | exact h.elim
    | (obtain ⟨_, hvalue, _⟩ := h; cases hvalue)
    | cases h

section

variable {refs : JniRefs} {log : List (Int × PutOp)} {frame : Locals} {first x : Nat}
  {params : List FieldType} {table : List CallParameter} {t : FieldType}

theorem GetOp.call_of_cell {p : CallParameter} (hp : table[x]? = some p)
    (htype : p.type = t.kind.tag) (g : GetOp) :
    g.call (some table) table.length x =
      if t.kind ≠ g.kind then .thrown .illegalArgumentException else .value (g.field p) := by
  rw [g.call_eq_getAs, getAs_of_cell hp, htype]
  by_cases hkind : t.kind = g.kind
  · rw [if_neg (not_not.mpr hkind), if_neg (not_not.mpr (congrArg Kind.tag hkind))]
  · rw [if_pos hkind, if_pos fun htag => hkind (Kind.tag_injective htag)]

/-- What a getter returns: its default, or what is in the cell of a parameter. -/
theorem TableOk.get_cases (htable : TableOk refs log (cellsOf frame first params) table)
    (g : GetOp) (index : Int) :
    g.call (some table) table.length index = .value (some g.default) ∨
    ∃ (x : Nat) (t : FieldType) (p : CallParameter), index = x ∧ params[x]? = some t ∧
      CellOk refs log x (t.cell frame (slotAt first params x)) p ∧
      g.call (some table) table.length index =
        if t.kind ≠ g.kind then .thrown .illegalArgumentException else .value (g.field p) := by
  by_cases houtside : index < 0 ∨ (table.length : Int) ≤ index
  · rw [g.call_eq_getAs]
    exact Or.inl (getAs_of_absent (houtside.imp_right Or.inl))
  · obtain ⟨x, p, rfl, hp⟩ := ArgumentsNative.exists_cell houtside
    have hlength : table.length = params.length := htable.length.trans (length_cellsOf _ _ _)
    have hlt : x < params.length := hlength ▸ (List.getElem?_eq_some_iff.mp hp).1
    have ht : params[x]? = some params[x] := List.getElem?_eq_getElem hlt
    obtain ⟨p', hp', _, hok⟩ := htable.exists_cell ht
    obtain rfl := Option.some.inj (hp.symm.trans hp')
    refine Or.inr ⟨x, _, p, rfl, ht, hok, ?_⟩
    exact g.call_of_cell hp (hok.type.trans (FieldType.cell_type _ _ _))

end

end ArgumentsNative

/-! ## Getters in a run -/

/-- A hook that has an object of the callback `c` gets this from its function `g`. -/
def State.Gets (s : State) (c : CallbackId) (g : GetOp) (index : Int) (result : Result) : Prop :=
  ∃ h s', s.address h = some c ∧ s.native h (.get g index) = some (result, s')

section

variable {jvm : Jvm} {s s' : State} {t : Tid} {l : Label} {c : CallbackId} {a : Activation}
  {cb : Callback}

/-- The `ArgumentsNative` of an entry callback is one. -/
def EntryCall.HasArguments (s : State) (e : EntryCall) : Prop :=
  ∃ size thisObj, s.cls e.anc = some (.argumentsNative size thisObj)

theorem Step.hasArguments {method : JmethodID} {frame : Locals} {e : EntryCall}
    {rest : List Frame} (hstep : Step jvm s (.call t method frame) s')
    (hpasses : EntryPasses jvm s t method) (hstack : s'.stack t = .methodEntry e :: rest) :
    e.HasArguments s' := by
  cases hstep with
  | callUnhooked halive hnone => exact absurd hnone hpasses.1
  | callSuppressed halive hsome hguard => exact absurd hguard hpasses.2
  | callBroadcast =>
      unfold onMethodEntry.begin at hstack ⊢
      rw [State.stack_setThread_self] at hstack
      obtain rfl := Frame.methodEntry.inj (List.cons.inj hstack).1
      exact ⟨_, _, State.cls_newHandle _ _ (State.cls_newHandle _ _
        (State.cls_newHandle_self _ _ _))⟩

theorem hasArguments_of_reachable (hreachable : Reachable (step jvm) initialState s) (t : Tid) :
    ∀ e, .methodEntry e ∈ s.stack t → e.HasArguments s :=
  methodEntry_invariant
    (fun _ hstep ⟨size, thisObj, hcls⟩ => ⟨size, thisObj, hstep.cls hcls⟩)
    (fun hstep hpasses hstack => hstep.hasArguments hpasses hstack) hreachable t

/-- While an entry callback runs, its getters work on its table. -/
theorem gets_iff {ls : List Label} (hrun : run (step jvm) initialState ls = some s)
    (hentry : (c, a) ∈ entries (s.stack t)) (hcb : s.callbacks[c]? = some cb) (g : GetOp)
    (index : Int) (result : Result) :
    s.Gets c g index result ↔
      result = g.call (some cb.parameters) cb.parameters.length index := by
  have hreachable : Reachable (step jvm) initialState s := ⟨ls, hrun⟩
  have hok : CallbackOk jvm c (callsOn jvm c ls) s := callbackOk_of_run hrun
  constructor
  · rintro ⟨h, s', haddress, hnative⟩
    cases nativeCall_of_eq hnative with
    | @inert o outcome hhandle hnull hcall =>
        rw [State.address, hhandle, Option.bind_some, hnull] at haddress
        cases haddress
    | @live o callback cb' outcome hhandle hlive hcb' hrunning hcall =>
        rw [State.address, hhandle, Option.bind_some, hlive] at haddress
        obtain rfl := Option.some.inj haddress
        obtain rfl := Option.some.inj (hcb.symm.trans hcb')
        have hsized := hok.sized o (List.mem_of_getElem? hhandle) hlive cb hcb
        cases hcls : o.cls with
        | argumentsNative size thisObj =>
            rw [hcls] at hcall hsized
            obtain rfl : size = cb.parameters.length := hsized
            obtain rfl := Option.some.inj hcall
            rfl
        | _ =>
            rw [hcls] at hcall
            cases hcall
  · rintro rfl
    obtain ⟨e, he, rfl⟩ := exists_of_entries hentry
    have haddress : s.address e.anc = some e.callback :=
      addressesOk_of_reachable hreachable t _ _ _ (mem_owners_of_methodEntry he)
        List.mem_cons_self
    obtain ⟨size, thisObj, hcls⟩ := hasArguments_of_reachable hreachable t e he
    obtain ⟨o, ho, hocls, hoaddress⟩ := State.exists_handle hcls haddress
    have hsized := hok.sized o (List.mem_of_getElem? ho) hoaddress cb hcb
    rw [hocls] at hsized
    obtain rfl : size = cb.parameters.length := hsized
    obtain ⟨cb', hcb', hreturned⟩ := hok.handles.running t _ (mem_owners_of_entries hentry)
    obtain rfl := Option.some.inj (hcb.symm.trans hcb')
    have hnative : ∃ s₂, s.native e.anc (.get g index) =
        some (g.call (some cb.parameters) cb.parameters.length index, s₂) := by
      unfold State.native
      simp only [ho, hoaddress, hcb, hreturned, hocls]
      exact ⟨_, rfl⟩
    obtain ⟨s₂, hs₂⟩ := hnative
    exact ⟨e.anc, s₂, haddress, hs₂⟩

end

/-! ## What the getters return -/

/-- The JVMTI call that read the parameter `x` of type `t` has stored a value. -/
def Delivered (first : Nat) (params : List FieldType) (frame : Locals) (x : Nat) (t : FieldType)
    (v : Local) : Prop :=
  frame (slotAt first params x) = some v ∧ v.kind = t.kind

/-- No `put*` has stored into the cell of the parameter `x` of type `t`. -/
def Unput (log : List (Int × PutOp)) (x : Nat) (t : FieldType) : Prop :=
  lastSome (storedAt x t.kind) log = none

/-- Nothing that an out-variable happened to hold is returned to the hooks of the entry
callback `c`. -/
structure ReadsHidden (s : State) (c : CallbackId) (first : Nat) (params : List FieldType)
    (log : List (Int × PutOp)) (frame : Locals) : Prop where
  defined : ∀ g index result, s.Gets c g index result → result ≠ .value none
  /-- Before any put a cell holds what JVMTI delivered for its parameter, or a default. -/
  delivered : ∀ g (x : Nat) t result, params[x]? = some t → Unput log x t →
    s.Gets c g x result →
      result = .thrown .illegalArgumentException ∨ result = .value (some g.default) ∨
        ∃ v, (Delivered first params frame x t v ∨ v = t.kind.zero) ∧ g.Narrows s.refs v result

/-- JVMTI has delivered each parameter of the table that no `put*` has stored into. -/
def UnputDelivered (first : Nat) (params : List FieldType) (log : List (Int × PutOp))
    (frame : Locals) : Prop :=
  ∀ x t, (scanned params)[x]? = some t → Unput log x t →
    ∃ v, Delivered first params frame x t v

section

variable {refs : JniRefs} {log : List (Int × PutOp)} {frame : Locals} {first x : Nat}
  {params : List FieldType} {table : List CallParameter} {t : FieldType} {p : CallParameter}

/-- What the cell of a parameter of the table holds that no put has stored into. -/
theorem read_of_unput (hunput : Unput log x t)
    (hok : CellOk refs log x (t.cell frame (slotAt first params x)) p) {v : Local} :
    p.read refs t.kind = some v ↔ Delivered first params frame x t v := by
  have hread := hok.read t.kind (t.cell_type frame _)
  rw [hunput, Option.none_or, t.read_cell] at hread
  rw [hread, Option.filter_eq_some_iff, decide_eq_true_eq, Delivered]

/-- A cell that a put has stored into holds a value. -/
theorem read_of_put (hput : ¬ Unput log x t) {p₀ : CallParameter} (htype : p₀.type = t.kind.tag)
    (hok : CellOk refs log x p₀ p) : ∃ v, p.read refs t.kind = some v := by
  obtain ⟨v, hv⟩ := Option.ne_none_iff_exists'.mp hput
  rw [hok.read t.kind htype, hv, Option.some_or]
  exact ⟨v, rfl⟩

/-- If no getter returns an undefined value, then JVMTI has delivered what no put has
replaced. -/
theorem unputDelivered_of_defined
    (htable : TableOk refs log (cellsOf frame first (scanned params)) table)
    (h : ∀ (g : GetOp) (index : Int), g.call (some table) table.length index ≠ .value none) :
    UnputDelivered first params log frame := by
  intro x t ht hunput
  obtain ⟨p, hp, _, hok⟩ := htable.exists_cell_scanned ht
  obtain ⟨g, hg⟩ := GetOp.exists_kind t.kind
  have hcall : g.call (some table) table.length x = .value (g.field p) := by
    rw [g.call_of_cell hp (hok.type.trans (t.cell_type _ _)), if_neg (not_not.mpr hg.symm)]
  cases hread : p.read refs t.kind with
  | none =>
      rw [← hg] at hread
      rw [GetOp.field_of_undefined hread] at hcall
      exact absurd hcall (h g x)
  | some v => exact ⟨v, (read_of_unput hunput hok).mp hread⟩

/-- If JVMTI has delivered what no put has replaced, then a getter returns its default,
throws, or returns the value of a parameter. -/
theorem get_of_unputDelivered
    (htable : TableOk refs log (cellsOf frame first (scanned params)) table)
    (h : UnputDelivered first params log frame) (g : GetOp) (index : Int) :
    g.call (some table) table.length index = .value (some g.default) ∨
      g.call (some table) table.length index = .thrown .illegalArgumentException ∨
      ∃ (x : Nat) (t : FieldType) (v : Local), index = x ∧ params[x]? = some t ∧
        (Unput log x t → Delivered first params frame x t v) ∧
        g.Narrows refs v (g.call (some table) table.length index) := by
  rcases htable.get_cases g index with hdefault | ⟨x, t, p, hx, ht, hok, hcall⟩
  · exact Or.inl hdefault
  · rw [slotAt_prefix_eq (scanned_prefix_self params) (List.getElem?_eq_some_iff.mp ht).1] at hok
    rw [hcall]
    by_cases hkind : t.kind = g.kind
    · have hread : ∃ v, p.read refs t.kind = some v := by
        by_cases hunput : Unput log x t
        · obtain ⟨v, hv⟩ := h x t ht hunput
          exact ⟨v, (read_of_unput hunput hok).mpr hv⟩
        · exact read_of_put hunput (t.cell_type _ _) hok
      obtain ⟨v, hv⟩ := hread
      rw [if_neg (not_not.mpr hkind)]
      refine Or.inr (Or.inr ⟨x, t, v, hx, getElem?_of_scanned ht, ?_, ?_⟩)
      · exact fun hunput => (read_of_unput hunput hok).mp hv
      · rw [hkind] at hv
        exact GetOp.narrows_read hv
    · rw [if_pos hkind]
      exact Or.inr (Or.inl rfl)

end

/-- In every state of a run in which an entry callback of a method with a legal descriptor
runs, no getter returns what an out-variable happened to hold, exactly when JVMTI has
delivered each parameter that no `put*` has stored into so far. -/
theorem reads_hidden_iff (jvm : Jvm) (ls : List Label) (s : State) (t : Tid) (c : CallbackId)
    (a : Activation) (d : MethodDescriptor) (hrun : run (step jvm) initialState ls = some s)
    (hentry : (c, a) ∈ entries (s.stack t)) (hdesc : jvm.methodDesc a.method = d.render) :
    ReadsHidden s c (jvm.firstSlot a.method) d.params (putsOf (callsOn jvm c ls)) a.frame ↔
      UnputDelivered (jvm.firstSlot a.method) d.params (putsOf (callsOn jvm c ls)) a.frame := by
  have hok : CallbackOk jvm c (callsOn jvm c ls) s := callbackOk_of_run hrun
  obtain ⟨cb, hcb, _⟩ := hok.handles.running t c (mem_owners_of_entries hentry)
  have hgets := gets_iff hrun hentry hcb
  have htable : TableOk s.refs (putsOf (callsOn jvm c ls))
      (cellsOf a.frame (jvm.firstSlot a.method) (scanned d.params)) cb.parameters :=
    hok.table t a d hentry hdesc cb hcb
  constructor
  · intro h
    refine unputDelivered_of_defined htable fun g index => ?_
    exact h.defined g index _ ((hgets g index _).mpr rfl)
  · intro h
    refine ⟨fun g index result hresult => ?_, fun g x u result hu hunput hresult => ?_⟩
    · obtain rfl := (hgets g index result).mp hresult
      rcases get_of_unputDelivered htable h g index with hdefault | hthrown |
        ⟨_, _, _, _, _, _, hnarrows⟩
      · simp [hdefault]
      · simp [hthrown]
      · exact hnarrows.defined
    · obtain rfl := (hgets g x result).mp hresult
      rcases get_of_unputDelivered htable h g x with hdefault | hthrown |
        ⟨y, u', v, hxy, hu', hdelivered, hnarrows⟩
      · exact Or.inr (Or.inl hdefault)
      · exact Or.inl hthrown
      · obtain rfl : x = y := Int.ofNat.inj hxy
        obtain rfl := Option.some.inj (hu.symm.trans hu')
        exact Or.inr (Or.inr ⟨v, Or.inl (hdelivered hunput), hnarrows⟩)

/-! ## Two runs -/

/-- A method is hooked and called with the given locals, and its hook begins. -/
def hookBeginsRun (frame : Locals) : List Label :=
  [.register ⟨1⟩ (some ⟨5⟩), .call 0 ⟨1⟩ frame, .broadcast 0, .dispatch 0]

/-- A machine whose methods are all `static native void m(int)`. -/
def Jvm.plainNativeInt : Jvm :=
  { Jvm.plainInt with GetMethodModifiers := fun _ => JVM_ACC_STATIC ||| 0x0100 }

/-- The locals that JVMTI reads of a native method: every call fails. -/
def opaqueFrame : Locals := fun _ => none

/-- The argument of a `static void m(int)` that is read from its frame. -/
theorem reads_hidden_int :
    ∃ s, run (step .plainInt) initialState (hookBeginsRun intFrame) = some s ∧
      ReadsHidden s 0 0 [.int] [] intFrame := by
  refine ⟨_, rfl, ?_⟩
  refine (reads_hidden_iff .plainInt (hookBeginsRun intFrame) _ 0 0 (entered ⟨1⟩ intFrame)
    intDescriptor rfl List.mem_cons_self rfl).mpr ?_
  intro x t ht _
  cases x with
  | zero =>
      obtain rfl := Option.some.inj ht
      exact ⟨.int 7, rfl, rfl⟩
  | succ x => cases ht

/-- Of a `static native void m(int)` a hook that calls `getAsInt(0)` gets what the variable
happened to hold. -/
theorem read_exposed_in_nativeMethod :
    ¬ ∀ jvm ls s t c a (d : MethodDescriptor), run (step jvm) initialState ls = some s →
      (c, a) ∈ entries (s.stack t) → jvm.methodDesc a.method = d.render →
        ReadsHidden s c (jvm.firstSlot a.method) d.params (putsOf (callsOn jvm c ls))
          a.frame := by
  intro hhidden
  have h := hhidden .plainNativeInt (hookBeginsRun opaqueFrame) _ 0 0 (entered ⟨1⟩ opaqueFrame)
    intDescriptor rfl List.mem_cons_self rfl
  exact h.defined .getAsInt 0 _ ⟨0, _, rfl, rfl⟩ rfl

end JvmHookFramework
