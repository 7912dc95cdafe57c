/-
  Native/ForcedReturn.lean --- what a sequence of `return*` calls forces.

  The setters share one record.  `ForceOk` says what it holds after a sequence of calls:
  in each field what the last call that stores into it has stored.  `returnDouble` stores
  into the field of `returnFloat`, so the sequences that force what was asked for are
  those in which this makes no difference.
-/
import JvmHookFramework.Foundation.LastWrite
import JvmHookFramework.Native.DescriptorWalk
import JvmHookFramework.Native.ForceEarlyReturnNative

set_option autoImplicit false

namespace JvmHookFramework

open Foundation

namespace ForceEarlyReturnNative

/-! ## The operations -/

/-- The value that an operation asks the method to return, widened; `none` is `void`. -/
def ReturnOp.value : ReturnOp → Option Local
  | .returnVoid => none
  | .returnInt value => some (.int value)
  | .returnFloat value => some (.float value)
  | .returnDouble value => some (.double value)
  | .returnLong value => some (.long value)
  | .returnShort value => some (.int (value.signExtend 32))
  | .returnChar value => some (.int (value.zeroExtend 32))
  | .returnByte value => some (.int (value.signExtend 32))
  | .returnBoolean value => some (.int (if value then 1 else 0))
  | .returnObject value => some (.object value)

/-- What the native code stores in the record. -/
def ReturnOp.stored : ReturnOp → Option Local
  | .returnDouble value => some (.float (jdoubleToJfloat value))
  | op => op.value

/-- What the native code stores in the field of kind `k`. -/
def ReturnOp.storedAs (k : Kind) (op : ReturnOp) : Option Local :=
  op.stored.filter fun v => v.kind = k

/-- The value of an operation of the family of a return type. -/
def ReturnOp.ofFamily (ret : Option FieldType) (op : ReturnOp) : Option (Option Local) :=
  if op.value.map Local.kind = ret.map FieldType.kind then some op.value else none

/-- The argument of a `returnFloat`. -/
def ReturnOp.float? : ReturnOp → Option (BitVec 32)
  | .returnFloat value => some value
  | _ => none

/-- The argument of a `returnDouble`. -/
def ReturnOp.double? : ReturnOp → Option (BitVec 64)
  | .returnDouble value => some value
  | _ => none

/-- The argument of a `returnFloat`, or that of a `returnDouble` narrowed to `float`. -/
def ReturnOp.narrowed? : ReturnOp → Option (BitVec 32)
  | .returnFloat value => some value
  | .returnDouble value => some (jdoubleToJfloat value)
  | _ => none

theorem ReturnOp.ofFamily_void {op : ReturnOp} {v : Option Local}
    (h : op.ofFamily none = some v) : v = none := by
  unfold ReturnOp.ofFamily at h
  split at h
  · rename_i hfamily
    obtain rfl := Option.some.inj h
    exact Option.map_eq_none_iff.mp hfamily
  · cases h

/-- Outside the two families that share a field, what is stored is what is asked for. -/
theorem ReturnOp.ofFamily_eq_storedAs {t : FieldType} (hfloat : t.kind ≠ .float)
    (hdouble : t.kind ≠ .double) (op : ReturnOp) :
    op.ofFamily (some t) = (op.storedAs t.kind).map some := by
  unfold ReturnOp.ofFamily ReturnOp.storedAs
  rw [Option.map_some]
  generalize t.kind = k at *
  cases k with
  | float => exact absurd rfl hfloat
  | double => exact absurd rfl hdouble
  | _ => cases op <;> rfl

theorem ReturnOp.storedAs_double (op : ReturnOp) : op.storedAs .double = none := by
  cases op <;> rfl

theorem ReturnOp.storedAs_float (op : ReturnOp) :
    op.storedAs .float = op.narrowed?.map .float := by
  cases op <;> rfl

theorem ReturnOp.float?_of_narrowed? (op : ReturnOp) (h : op.narrowed? = none) :
    op.float? = none := by
  cases op with
  | returnFloat value => cases h
  | _ => rfl

theorem ReturnOp.ofFamily_double (op : ReturnOp) :
    op.ofFamily (some .double) = op.double?.map fun v => some (.double v) := by
  cases op <;> rfl

theorem ReturnOp.ofFamily_float (op : ReturnOp) :
    op.ofFamily (some .float) = op.float?.map fun v => some (.float v) := by
  cases op <;> rfl

theorem ReturnOp.call_extends (op : ReturnOp) (c : Option CallParameter) (refs : JniRefs) :
    refs.Extends (op.call c refs).2 := by
  cases c with
  | none => cases op <;> exact JniRefs.Extends.refl refs
  | some c =>
      cases op with
      | returnObject value => exact (c.extends_drop refs).trans (JniRefs.extends_new _ value)
      | _ => exact JniRefs.Extends.refl refs

/-- A call on the record: it stores into one field and leaves the others. -/
theorem ReturnOp.call_some {refs : JniRefs} {c : CallParameter} (op : ReturnOp)
    (hknown : c.Known refs) :
    ∃ c', (op.call (some c) refs).1 = some c' ∧ c'.edited = true ∧
      c'.Known (op.call (some c) refs).2 ∧
      ∀ k, c'.read (op.call (some c) refs).2 k = (op.storedAs k).or (c.read refs k) := by
  cases op with
  | returnObject value =>
      refine ⟨_, rfl, rfl, ?_, fun k => ?_⟩
      · intro jo hjo
        obtain rfl := Option.some.inj hjo
        exact JniRefs.known_new_self _ value
      · cases k with
        | object => exact congrArg (some ∘ Local.object) (JniRefs.denote_new _ value)
        | _ => rfl
  | _ =>
      refine ⟨_, rfl, rfl, hknown, fun k => ?_⟩
      cases k <;> rfl

end ForceEarlyReturnNative

open ForceEarlyReturnNative

/-- The value that a JVMTI call makes the method return; the outer `none` is a variable
that was not written. -/
def ForceCall.value (refs : JniRefs) : ForceCall → Option (Option Local)
  | .ForceEarlyReturnObject v => v.map fun jo => some (.object (refs.denote jo))
  | .ForceEarlyReturnInt v => v.map fun v => some (.int v)
  | .ForceEarlyReturnVoid => some none
  | .ForceEarlyReturnFloat v => v.map fun v => some (.float v)
  | .ForceEarlyReturnDouble v => v.map fun v => some (.double v)
  | .ForceEarlyReturnLong v => v.map fun v => some (.long v)

/-! ## The record after a sequence of calls -/

/-- The record after the calls of `log`. -/
structure ForceOk (refs : JniRefs) (log : List ReturnOp) (c : CallParameter) : Prop where
  edited : c.edited = true ↔ log ≠ []
  known : c.Known refs
  holds : ∀ k, c.read refs k = some ((lastSome (ReturnOp.storedAs k) log).getD k.zero)

section

variable {refs refs' : JniRefs} {log : List ReturnOp} {c : CallParameter}

theorem forceOk_nil (refs : JniRefs) : ForceOk refs [] {} where
  edited := by decide
  known := by
    intro jo hjo
    obtain rfl := Option.some.inj hjo
    trivial
  holds := by
    intro k
    cases k <;> rfl

theorem ForceOk.extends (h : ForceOk refs log c) (hextends : refs.Extends refs') :
    ForceOk refs' log c where
  edited := h.edited
  known := h.known.extends hextends
  holds := fun k => (CallParameter.read_extends hextends h.known k).trans (h.holds k)

/-- Every call is one more entry of the log. -/
theorem ForceOk.call (h : ForceOk refs log c) (op : ReturnOp) :
    ∃ c', (op.call (some c) refs).1 = some c' ∧
      ForceOk (op.call (some c) refs).2 (log ++ [op]) c' := by
  obtain ⟨c', hcall, hedited, hknown, hread⟩ := ReturnOp.call_some op h.known
  refine ⟨c', hcall, ⟨?_, hknown, fun k => ?_⟩⟩
  · simp [hedited]
  · rw [hread, h.holds, lastSome_concat]
    cases op.storedAs k with
    | none => rfl
    | some v => rfl

end

/-! ## The switch -/

/-- The one JVMTI call that an edited record leads to. -/
theorem forceReturn_of_edited {c : CallParameter} (hedited : c.edited = true) (refs : JniRefs)
    (ret : Option FieldType) :
    ∃ call, (forceReturn (returnTag ret) c refs).1 = [call] ∧
      ∀ refs', call.value refs' = match ret with
        | none => some none
        | some t => (c.read refs' t.kind).map some := by
  unfold forceReturn
  rw [if_pos hedited]
  have hcall : ∀ {α : Type} (f : α → Local) (v : Option α),
      v.map (fun v => some (f v)) = (v.map f).map some := by
    intro α f v
    cases v <;> rfl
  cases ret with
  | none => exact ⟨_, rfl, fun _ => rfl⟩
  | some t => cases t <;> exact ⟨_, rfl, fun _ => hcall _ _⟩

theorem forceReturn_of_unedited {c : CallParameter} (hedited : ¬ c.edited = true) (t : Char)
    (refs : JniRefs) : forceReturn t c refs = ([], refs) := by
  unfold forceReturn
  rw [if_neg hedited]

theorem forceReturn_extends (t : Char) (c : CallParameter) (refs : JniRefs) :
    refs.Extends (forceReturn t c refs).2 := by
  unfold forceReturn
  split
  · split
    · exact JniRefs.extends_delete refs c.value
    · repeat' split
      all_goals exact JniRefs.Extends.refl refs
  · exact JniRefs.Extends.refl refs

/-! ## What is forced -/

/-- The calls force what the last operation of the family of the return type asked for,
by one JVMTI call, and none is made when there was no operation at all. -/
structure ForcesLast (ret : Option FieldType) (refs : JniRefs) (log : List ReturnOp)
    (calls : List ForceCall) : Prop where
  silent : log = [] → calls = []
  last : ∀ v, lastSome (ReturnOp.ofFamily ret) log = some v →
    ∃ call, calls = [call] ∧ call.value refs = some v

/-- The operations that store into the wrong field make no difference: for a `double`
method the last `returnDouble` asked for the default, and for a `float` method no
`returnDouble` with another value follows the last `returnFloat`. -/
def ReturnsKept (ret : Option FieldType) (log : List ReturnOp) : Prop :=
  match ret with
  | some .double => ∀ v, lastSome ReturnOp.double? log = some v → v = 0
  | some .float => ∀ v, lastSome ReturnOp.float? log = some v →
      lastSome ReturnOp.narrowed? log = some v
  | _ => True

/-- The value in the field of the return type is the last one asked for. -/
def StoredLast (t : FieldType) (log : List ReturnOp) : Prop :=
  ∀ v, lastSome (ReturnOp.ofFamily (some t)) log = some (some v) →
    (lastSome (ReturnOp.storedAs t.kind) log).getD t.kind.zero = v

section

variable {refs refs' : JniRefs} {log : List ReturnOp} {c : CallParameter}
  {ret : Option FieldType}

theorem forcesLast_iff_storedLast (h : ForceOk refs log c) :
    ForcesLast ret refs log (forceReturn (returnTag ret) c refs').1 ↔
      ∀ t ∈ ret, StoredLast t log := by
  by_cases hlog : log = []
  · have hunedited : ¬ c.edited = true := fun hedited => h.edited.mp hedited hlog
    rw [forceReturn_of_unedited hunedited, hlog]
    constructor
    · intro _ t _ v hv
      cases hv
    · intro _
      exact ⟨fun _ => rfl, fun v hv => nomatch hv⟩
  · obtain ⟨call, hcalls, hvalue⟩ := forceReturn_of_edited (h.edited.mpr hlog) refs' ret
    rw [hcalls]
    constructor
    · rintro ⟨_, hlast⟩ t ht v hv
      obtain rfl := ht
      obtain ⟨call', hcall', hforced⟩ := hlast _ hv
      obtain rfl := List.singleton_injective hcall'
      have hread := hvalue refs
      simp only [h.holds, hforced] at hread
      exact (Option.some.inj (Option.some.inj hread)).symm
    · intro hstored
      refine ⟨fun hnil => absurd hnil hlog, fun v hv => ⟨call, rfl, ?_⟩⟩
      cases ret with
      | none =>
          obtain ⟨op, _, hop⟩ := exists_of_lastSome hv
          rw [hvalue, ReturnOp.ofFamily_void hop]
      | some t =>
          cases v with
          | none =>
              obtain ⟨op, _, hop⟩ := exists_of_lastSome hv
              cases op <;> simp [ReturnOp.ofFamily, ReturnOp.value] at hop
          | some v =>
              rw [hvalue]
              simp only [h.holds, hstored t rfl v hv]
              rfl

theorem storedLast_of_kind {t : FieldType} (hfloat : t.kind ≠ .float)
    (hdouble : t.kind ≠ .double) : StoredLast t log := by
  intro v hv
  rw [lastSome_congr fun op _ => ReturnOp.ofFamily_eq_storedAs hfloat hdouble op,
    lastSome_map] at hv
  obtain ⟨w, hw, hwv⟩ := Option.map_eq_some_iff.mp hv
  rw [hw]
  exact Option.some.inj hwv

theorem storedLast_double_iff :
    StoredLast .double log ↔ ReturnsKept (some .double) log := by
  have hstored : lastSome (ReturnOp.storedAs .double) log = none :=
    lastSome_eq_none_iff.mpr fun op _ => op.storedAs_double
  have hfamily : lastSome (ReturnOp.ofFamily (some .double)) log =
      (lastSome ReturnOp.double? log).map fun v => some (.double v) := by
    rw [lastSome_congr fun op _ => op.ofFamily_double, lastSome_map]
  constructor
  · intro h v hv
    have hzero := h (.double v) (by rw [hfamily, hv]; rfl)
    simp only [FieldType.kind, hstored, Option.getD_none, Kind.zero, Local.double.injEq] at hzero
    exact hzero.symm
  · intro h v hv
    rw [hfamily] at hv
    obtain ⟨w, hw, hwv⟩ := Option.map_eq_some_iff.mp hv
    obtain rfl := Option.some.inj hwv
    simp only [FieldType.kind, hstored, Option.getD_none, Kind.zero, h w hw]

theorem storedLast_float_iff :
    StoredLast .float log ↔ ReturnsKept (some .float) log := by
  have hstored : lastSome (ReturnOp.storedAs .float) log =
      (lastSome ReturnOp.narrowed? log).map .float := by
    rw [lastSome_congr fun op _ => op.storedAs_float, lastSome_map]
  have hfamily : lastSome (ReturnOp.ofFamily (some .float)) log =
      (lastSome ReturnOp.float? log).map fun v => some (.float v) := by
    rw [lastSome_congr fun op _ => op.ofFamily_float, lastSome_map]
  constructor
  · intro h v hv
    obtain ⟨w, hw⟩ := exists_lastSome_of_imp ReturnOp.float?_of_narrowed? hv
    have hlast := h (.float v) (by rw [hfamily, hv]; rfl)
    simp only [FieldType.kind, hstored, hw, Option.map_some, Option.getD_some,
      Local.float.injEq] at hlast
    rw [hw, hlast]
  · intro h v hv
    rw [hfamily] at hv
    obtain ⟨w, hw, hwv⟩ := Option.map_eq_some_iff.mp hv
    obtain rfl := Option.some.inj hwv
    simp only [FieldType.kind, hstored, h w hw, Option.map_some, Option.getD_some]

theorem storedLast_iff : (∀ t ∈ ret, StoredLast t log) ↔ ReturnsKept ret log := by
  cases ret with
  | none => exact ⟨fun _ => trivial, fun _ t ht => nomatch ht⟩
  | some t =>
      have hself : (∀ u ∈ some t, StoredLast u log) ↔ StoredLast t log :=
        ⟨fun h => h t rfl, fun h u hu => Option.some.inj hu ▸ h⟩
      rw [hself]
      cases t with
      | double => exact storedLast_double_iff
      | float => exact storedLast_float_iff
      | _ => exact ⟨fun _ => trivial, fun _ => storedLast_of_kind nofun nofun⟩

/-- What the switch forces is what was asked for exactly when the shared field makes no
difference. -/
theorem forcesLast_iff (h : ForceOk refs log c) :
    ForcesLast ret refs log (forceReturn (returnTag ret) c refs').1 ↔ ReturnsKept ret log :=
  (forcesLast_iff_storedLast h).trans storedLast_iff

end

end JvmHookFramework
