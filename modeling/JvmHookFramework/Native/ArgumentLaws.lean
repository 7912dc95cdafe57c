/-
  Native/ArgumentLaws.lean --- the laws of the native accessors of an argument table.

  What a setter has stored, every getter of the same tag reads, narrowed to its own type.
  A setter touches one field of one cell, a call with the wrong tag fails and a call
  outside the table does nothing.
-/
import JvmHookFramework.Native.ArgumentTable

set_option autoImplicit false

namespace JvmHookFramework

/-- `{ px with edited := true }`, with the field of the kind taken from `px'`. -/
def Kind.overwrite (k : Kind) (px px' : CallParameter) : CallParameter :=
  match k with
  | .int => { px with edited := true, iv := px'.iv }
  | .float => { px with edited := true, jf := px'.jf }
  | .long => { px with edited := true, lv := px'.lv }
  | .double => { px with edited := true, jd := px'.jd }
  | .object => { px with edited := true, value := px'.value }

namespace ArgumentsNative

/-! ## The functions of ArgumentNative.cpp -/

/-- A setter that is exported, with the value it is called with. -/
inductive NativePut where
  | putByte (value : BitVec 8)
  | putFloat (value : BitVec 32)
  | putShort (value : BitVec 16)
  | putBoolean (value : BitVec 8)
  | putDouble (value : BitVec 64)
  | putLong (value : BitVec 64)
  | putChar (value : BitVec 16)
  | putObject (value : Option Obj)
  deriving DecidableEq, Repr

namespace NativePut

def call : NativePut → Option (List CallParameter) → Int → Int → JniRefs → PutOutcome
  | .putByte value => ArgumentsNative.putByte value
  | .putFloat value => ArgumentsNative.putFloat value
  | .putShort value => ArgumentsNative.putShort value
  | .putBoolean value => ArgumentsNative.putBoolean value
  | .putDouble value => ArgumentsNative.putDouble value
  | .putLong value => ArgumentsNative.putLong value
  | .putChar value => ArgumentsNative.putChar value
  | .putObject value => ArgumentsNative.putObject value

/-- The value as the cell holds it. -/
def widened : NativePut → Local
  | .putByte value => .int (value.signExtend 32)
  | .putFloat value => .float value
  | .putShort value => .int (value.signExtend 32)
  | .putBoolean value => .int (value.zeroExtend 32)
  | .putDouble value => .double value
  | .putLong value => .long value
  | .putChar value => .int (value.zeroExtend 32)
  | .putObject value => .object value

def kind (op : NativePut) : Kind := op.widened.kind

/-- The getter of the same type. -/
def getter : NativePut → GetOp
  | .putByte _ => .getAsByte
  | .putFloat _ => .getAsFloat
  | .putShort _ => .getAsShort
  | .putBoolean _ => .getAsBoolean
  | .putDouble _ => .getAsDouble
  | .putLong _ => .getAsLong
  | .putChar _ => .getAsChar
  | .putObject _ => .getAsObject

/-- The result is the value that was put; of an object, a reference to it. -/
def GivesBack (refs : JniRefs) : NativePut → Result → Prop
  | .putByte value, result => result = .value (some (.b value))
  | .putFloat value, result => result = .value (some (.f value))
  | .putShort value, result => result = .value (some (.s value))
  | .putBoolean value, result => result = .value (some (.z value))
  | .putDouble value, result => result = .value (some (.d value))
  | .putLong value, result => result = .value (some (.j value))
  | .putChar value, result => result = .value (some (.c value))
  | .putObject value, result => ∃ jo, result = .value (some (.l jo)) ∧ refs.denote jo = value

end NativePut

/-- The native function behind a method of `Arguments`. -/
def PutOp.native : PutOp → Option NativePut
  | .putInt _ => none
  | .putByte value => some (.putByte value)
  | .putFloat value => some (.putFloat value)
  | .putShort value => some (.putShort value)
  | .putBoolean value => some (.putBoolean (if value then 1 else 0))
  | .putDouble value => some (.putDouble value)
  | .putLong value => some (.putLong value)
  | .putChar value => some (.putChar value)
  | .putObject value => some (.putObject value)

/-- The machine calls the native functions. -/
theorem PutOp.call_of_native {op : PutOp} {native : NativePut} (h : op.native = some native) :
    op.call = native.call := by
  cases op with
  | putInt value => cases h
  | _ =>
      obtain rfl := Option.some.inj h
      rfl

namespace GetOp

/-- The kind of the cells that the getter reads. -/
def kind : GetOp → Kind
  | .getAsInt | .getAsByte | .getAsShort | .getAsBoolean | .getAsChar => .int
  | .getAsFloat => .float
  | .getAsLong => .long
  | .getAsDouble => .double
  | .getAsObject => .object

/-- What the getter returns when there is no such cell: -1, false or null. -/
def default : GetOp → Jvalue
  | .getAsInt => .i (-1)
  | .getAsByte => .b (-1)
  | .getAsDouble => .d 0xBFF0000000000000
  | .getAsFloat => .f 0xBF800000
  | .getAsShort => .s (-1)
  | .getAsBoolean => .z 0
  | .getAsLong => .j (-1)
  | .getAsChar => .c (-1)
  | .getAsObject => .l .null

/-- The field that the getter returns, converted to its type. -/
def field : GetOp → CallParameter → Cell Jvalue
  | .getAsInt, px => px.iv.map .i
  | .getAsByte, px => px.iv.map fun iv => .b (iv.truncate 8)
  | .getAsDouble, px => px.jd.map .d
  | .getAsFloat, px => px.jf.map .f
  | .getAsShort, px => px.iv.map fun iv => .s (iv.truncate 16)
  | .getAsBoolean, px => px.iv.map fun iv => .z (iv.truncate 8)
  | .getAsLong, px => px.lv.map .j
  | .getAsChar, px => px.iv.map fun iv => .c (iv.truncate 16)
  | .getAsObject, px => px.value.map .l

/-- The result is the value `v` of a cell, narrowed to the type of the getter. -/
def Narrows (refs : JniRefs) : GetOp → Local → Result → Prop
  | .getAsInt, .int v, result => result = .value (some (.i v))
  | .getAsByte, .int v, result => result = .value (some (.b (v.truncate 8)))
  | .getAsShort, .int v, result => result = .value (some (.s (v.truncate 16)))
  | .getAsBoolean, .int v, result => result = .value (some (.z (v.truncate 8)))
  | .getAsChar, .int v, result => result = .value (some (.c (v.truncate 16)))
  | .getAsFloat, .float v, result => result = .value (some (.f v))
  | .getAsLong, .long v, result => result = .value (some (.j v))
  | .getAsDouble, .double v, result => result = .value (some (.d v))
  | .getAsObject, .object v, result => ∃ jo, result = .value (some (.l jo)) ∧ refs.denote jo = v
  | _, _, _ => False

/-- Every getter is the shared body at its own default, tag and field. -/
theorem call_eq_getAs (g : GetOp) : g.call = getAs g.default g.kind.tag g.field := by
  cases g <;> rfl

/-- A getter that reads a cell holding `v` narrows it. -/
theorem narrows_field {g : GetOp} {px : CallParameter} {refs : JniRefs} {v : Local}
    (hkind : g.kind = v.kind) (hread : px.read refs v.kind = some v) :
    g.Narrows refs v (.value (g.field px)) := by
  cases v with
  | object o =>
      obtain ⟨jo, hvalue, hdenote⟩ := Option.map_eq_some_iff.mp hread
      cases g with
      | getAsObject =>
          refine ⟨jo, ?_, Local.object.inj hdenote⟩
          rw [field, hvalue, Option.map_some]
      | _ => cases hkind
  | _ =>
      obtain ⟨w, hfield, hw⟩ := Option.map_eq_some_iff.mp hread
      cases hw
      cases g <;> first
        | (simp only [Narrows, field, hfield, Option.map_some]; done)
        | cases hkind

end GetOp

/-! ## Widening and narrowing -/

theorem truncate_signExtend {w n : Nat} (value : BitVec w) (h : w ≤ n) :
    (value.signExtend n).truncate w = value := by
  apply BitVec.eq_of_getLsbD_eq
  intro i hi
  have hlt : i < n := Nat.lt_of_lt_of_le hi h
  simp only [BitVec.truncate_eq_setWidth, BitVec.getLsbD_setWidth, BitVec.getLsbD_signExtend,
    hi, hlt, decide_true, Bool.true_and, if_true]

/-- The getter of the same type undoes the widening. -/
theorem NativePut.givesBack_of_narrows {op : NativePut} {refs : JniRefs} {result : Result}
    (h : op.getter.Narrows refs op.widened result) : op.GivesBack refs result := by
  cases op with
  | putByte value =>
      have hback : (value.signExtend 32).truncate 8 = value := truncate_signExtend value (by decide)
      have hresult : result = .value (some (.b ((value.signExtend 32).truncate 8))) := h
      rwa [hback] at hresult
  | putShort value =>
      have hback : (value.signExtend 32).truncate 16 = value :=
        truncate_signExtend value (by decide)
      have hresult : result = .value (some (.s ((value.signExtend 32).truncate 16))) := h
      rwa [hback] at hresult
  | putBoolean value =>
      have hback : (value.zeroExtend 32).truncate 8 = value :=
        BitVec.setWidth_setWidth_of_le value (by decide) |>.trans (BitVec.setWidth_eq value)
      have hresult : result = .value (some (.z ((value.zeroExtend 32).truncate 8))) := h
      rwa [hback] at hresult
  | putChar value =>
      have hback : (value.zeroExtend 32).truncate 16 = value :=
        BitVec.setWidth_setWidth_of_le value (by decide) |>.trans (BitVec.setWidth_eq value)
      have hresult : result = .value (some (.c ((value.zeroExtend 32).truncate 16))) := h
      rwa [hback] at hresult
  | _ => exact h

/-! ## The calls -/

/-- A getter does nothing but return its default outside the table, or without one. -/
theorem getAs_of_absent {default : Jvalue} {tag : Char} {field : CallParameter → Cell Jvalue}
    {p : Option (List CallParameter)} {size index : Int}
    (habsent : index < 0 ∨ size ≤ index ∨ p = none) :
    getAs default tag field p size index = .value (some default) := by
  unfold getAs
  by_cases hnegative : index < 0
  · rw [if_pos hnegative]
  · rw [if_neg hnegative]
    cases p with
    | none => rfl
    | some table =>
        have hpast : ¬ index < size := by
          rcases habsent with h | h | h
          · exact absurd h hnegative
          · exact Int.not_lt.mpr h
          · cases h
        exact if_neg hpast

/-- A getter on a cell tests the tag, and reads. -/
theorem getAs_of_cell {default : Jvalue} {tag : Char} {field : CallParameter → Cell Jvalue}
    {table : List CallParameter} {x : Nat} {px : CallParameter} (hpx : table[x]? = some px) :
    getAs default tag field (some table) table.length x =
      if px.type ≠ tag then .thrown .illegalArgumentException else .value (field px) := by
  have hlt : (x : Int) < table.length := Int.ofNat_lt.mpr (List.getElem?_eq_some_iff.mp hpx).1
  unfold getAs
  rw [if_neg (Int.not_lt.mpr (Int.natCast_nonneg x))]
  simp only [if_pos hlt, Int.toNat_natCast, hpx]

/-- Every setter is the shared body at its own tag, and overwrites the field of its kind. -/
theorem NativePut.call_eq_put (op : NativePut) :
    ∃ store, op.call = ArgumentsNative.put op.kind.tag store ∧ Stores op.widened store ∧
      ∀ px refs, (store px refs).1 = op.kind.overwrite px (store px refs).1 := by
  cases op with
  | putObject value => exact ⟨_, rfl, stores_putObject value, fun _ _ => rfl⟩
  | _ =>
      unfold NativePut.call
      refine ⟨_, rfl, ?_, fun _ _ => rfl⟩
      exact .of_field (fun _ => rfl) (fun _ => rfl) (fun _ => rfl) (fun _ => rfl) fun _ _ => rfl

/-! ## The object -/

/-- An `ArgumentsNative`: its `size` and, while its `address` is not 0, the table of that
size that it leads to. -/
@[ext] structure ArgumentsObject where
  size : Nat
  table : Option (List CallParameter)
  sized : ∀ cells ∈ table, cells.length = size

namespace ArgumentsObject

variable {o : ArgumentsObject} {refs : JniRefs} {cells : List CallParameter} {x : Nat}
  {px : CallParameter} {op : NativePut} {g : GetOp} {index : Int}

def get (o : ArgumentsObject) (g : GetOp) (index : Int) : Result := g.call o.table o.size index

theorem get_of_cell (htable : o.table = some cells) (hpx : cells[x]? = some px) :
    o.get g x = if px.type ≠ g.kind.tag then .thrown .illegalArgumentException
      else .value (g.field px) := by
  rw [get, g.call_eq_getAs, htable, ← o.sized cells htable, getAs_of_cell hpx]

theorem get_of_absent (habsent : index < 0 ∨ (o.size : Int) ≤ index ∨ o.table = none) :
    o.get g index = .value (some g.default) := by
  rw [get, g.call_eq_getAs, getAs_of_absent habsent]

theorem sized_call (o : ArgumentsObject) (op : NativePut) (index : Int) (refs : JniRefs) :
    ∀ cells ∈ (op.call o.table o.size index refs).2.1, cells.length = o.size := by
  obtain ⟨store, hcall, _⟩ := op.call_eq_put
  rw [hcall]
  cases htable : o.table with
  | none =>
      rw [put_of_absent (Or.inr (Or.inr rfl))]
      exact nofun
  | some cells =>
      have hsized : cells.length = o.size := o.sized cells htable
      rw [← hsized]
      intro cells' hcells'
      rcases put_cases op.kind.tag store cells index refs with
        ⟨hsame, _⟩ | ⟨x, px, _, _, _, hset⟩
      · rw [hsame] at hcells'
        exact Option.some.inj hcells' ▸ rfl
      · rw [hset] at hcells'
        exact Option.some.inj hcells' ▸ List.length_set

/-- A call of a setter: its result, the object behind it and the references. -/
def put (o : ArgumentsObject) (op : NativePut) (index : Int) (refs : JniRefs) :
    Result × ArgumentsObject × JniRefs :=
  ((op.call o.table o.size index refs).1,
    ⟨o.size, (op.call o.table o.size index refs).2.1, o.sized_call op index refs⟩,
    (op.call o.table o.size index refs).2.2)

theorem put_of_unchanged {result : Result}
    (hcall : op.call o.table o.size index refs = (result, o.table, refs)) :
    o.put op index refs = (result, o, refs) := by
  obtain ⟨hresult, hrest⟩ := Prod.mk.inj hcall
  obtain ⟨htable, hrefs⟩ := Prod.mk.inj hrest
  exact Prod.ext hresult (Prod.ext (ArgumentsObject.ext rfl htable) hrefs)

/-- What a setter does to a cell of its tag. -/
theorem put_of_fits (refs : JniRefs) (htable : o.table = some cells) (hpx : cells[x]? = some px)
    (htype : px.type = op.kind.tag) :
    ∃ px', (o.put op x refs).1 = .void ∧
      (o.put op x refs).2.1.table = some (cells.set x px') ∧
      px' = op.kind.overwrite px px' ∧
      px'.read (o.put op x refs).2.2 op.kind = some op.widened := by
  obtain ⟨store, hcall, hstores, honly⟩ := op.call_eq_put
  have houtcome : op.call o.table o.size x refs =
      (.void, some (cells.set x (store px refs).1), (store px refs).2) := by
    rw [hcall, htable, ← o.sized cells htable, put_of_cell hpx, if_neg (not_not.mpr htype)]
  obtain ⟨hresult, hrest⟩ := Prod.mk.inj houtcome
  obtain ⟨htable', hrefs⟩ := Prod.mk.inj hrest
  refine ⟨_, hresult, htable', honly px refs, ?_⟩
  have hread := hstores.read px refs
  rw [← hrefs] at hread
  exact hread

/-! ## The laws -/

/-- A call outside the table, or on an object whose address is 0. -/
def Absent (o : ArgumentsObject) (index : Int) : Prop :=
  index < 0 ∨ (o.size : Int) ≤ index ∨ o.table = none

/-- The laws of the accessors, for one object and one state of the references. -/
structure Laws (o : ArgumentsObject) (refs : JniRefs) : Prop where
  /-- What is put is read back, and narrowed by the other getters of the tag. -/
  put_get : ∀ cells (x : Nat) px (op : NativePut), o.table = some cells → cells[x]? = some px →
    px.type = op.kind.tag → (o.put op x refs).1 = .void ∧
      op.GivesBack (o.put op x refs).2.2 ((o.put op x refs).2.1.get op.getter x) ∧
      ∀ g : GetOp, g.kind = op.kind →
        g.Narrows (o.put op x refs).2.2 op.widened ((o.put op x refs).2.1.get g x)
  /-- Only the cell is changed, and of it only `edited` and the field of the tag. -/
  put_only : ∀ cells (x : Nat) px (op : NativePut), o.table = some cells → cells[x]? = some px →
    px.type = op.kind.tag → ∃ px', px' = op.kind.overwrite px px' ∧
      (o.put op x refs).2.1.table = some (cells.set x px')
  put_mismatch : ∀ cells (x : Nat) px (op : NativePut), o.table = some cells →
    cells[x]? = some px → px.type ≠ op.kind.tag →
      o.put op x refs = (.thrown .illegalArgumentException, o, refs)
  get_mismatch : ∀ cells (x : Nat) px (g : GetOp), o.table = some cells → cells[x]? = some px →
    px.type ≠ g.kind.tag → o.get g x = .thrown .illegalArgumentException
  put_absent : ∀ index (op : NativePut), o.Absent index → o.put op index refs = (.void, o, refs)
  get_absent : ∀ index (g : GetOp), o.Absent index → o.get g index = .value (some g.default)

theorem getter_kind (op : NativePut) : op.getter.kind = op.kind := by
  cases op <;> rfl

/-- Every getter of the tag narrows what was put. -/
theorem narrows_put (htable : o.table = some cells) (hpx : cells[x]? = some px)
    (htype : px.type = op.kind.tag) (hkind : g.kind = op.kind) :
    g.Narrows (o.put op x refs).2.2 op.widened ((o.put op x refs).2.1.get g x) := by
  obtain ⟨px', _, htable', honly, hread⟩ := put_of_fits refs htable hpx htype
  have hlt := (List.getElem?_eq_some_iff.mp hpx).1
  have hpx' : (cells.set x px')[x]? = some px' := List.getElem?_set_self hlt
  have htype' : px'.type = g.kind.tag := by
    have hsame : (op.kind.overwrite px px').type = px.type := by
      cases op.kind <;> rfl
    rw [honly, hsame, htype, hkind]
  rw [get_of_cell htable' hpx', if_neg (not_not.mpr htype')]
  exact GetOp.narrows_field hkind hread

theorem laws (o : ArgumentsObject) (refs : JniRefs) : o.Laws refs where
  put_get := by
    intro cells x px op htable hpx htype
    obtain ⟨_, hvoid, _⟩ := put_of_fits refs htable hpx htype
    refine ⟨hvoid, ?_, fun g hkind => narrows_put htable hpx htype hkind⟩
    exact NativePut.givesBack_of_narrows (narrows_put htable hpx htype (getter_kind op))
  put_only := by
    intro cells x px op htable hpx htype
    obtain ⟨px', _, htable', honly, _⟩ := put_of_fits refs htable hpx htype
    exact ⟨px', honly, htable'⟩
  put_mismatch := by
    intro cells x px op htable hpx htype
    apply put_of_unchanged
    obtain ⟨store, hcall, _⟩ := op.call_eq_put
    rw [hcall, htable, ← o.sized cells htable, put_of_cell hpx, if_pos htype]
  get_mismatch := by
    intro cells x px g htable hpx htype
    rw [get_of_cell htable hpx, if_pos htype]
  put_absent := by
    intro index op habsent
    apply put_of_unchanged
    obtain ⟨store, hcall, _⟩ := op.call_eq_put
    rw [hcall, put_of_absent habsent]
  get_absent := fun index g habsent => get_of_absent habsent

/-! ## Sequences of calls -/

/-- The types and slots of the cells. -/
def shape (o : ArgumentsObject) : Option (List (Char × Nat)) :=
  o.table.map fun cells => cells.map fun px => (px.type, px.slot)

theorem shape_put (o : ArgumentsObject) (op : NativePut) (index : Int) (refs : JniRefs) :
    (o.put op index refs).2.1.shape = o.shape := by
  have hlaws := o.laws refs
  by_cases habsent : o.Absent index
  · rw [hlaws.put_absent index op habsent]
  · obtain ⟨cells, htable⟩ : ∃ cells, o.table = some cells :=
      Option.ne_none_iff_exists'.mp fun h => habsent (Or.inr (Or.inr h))
    obtain ⟨x, px, rfl, hpx⟩ : ∃ (x : Nat) (px : CallParameter), index = x ∧
        cells[x]? = some px := by
      apply exists_cell
      rw [o.sized cells htable]
      exact fun h => habsent (h.imp_right Or.inl)
    by_cases htype : px.type = op.kind.tag
    · obtain ⟨px', hpx', htable'⟩ := hlaws.put_only cells x px op htable hpx htype
      have hsame : (px'.type, px'.slot) = (px.type, px.slot) := by
        rw [hpx']
        cases op.kind <;> rfl
      have hself : cells.set x px = cells := by
        obtain ⟨hlt, rfl⟩ := List.getElem?_eq_some_iff.mp hpx
        exact List.set_getElem_self hlt
      rw [shape, shape, htable, htable', Option.map_some, Option.map_some, List.map_set, hsame]
      exact congrArg some (List.map_set.symm.trans (congrArg _ hself))
    · rw [hlaws.put_mismatch cells x px op htable hpx htype]

end ArgumentsObject

/-- A call of one of the functions. -/
inductive ArgumentsCall where
  | get (op : GetOp) (index : Int)
  | put (op : NativePut) (index : Int)
  deriving DecidableEq, Repr

/-- What a call leaves of an object and of the references; a getter leaves both. -/
def ArgumentsCall.apply (state : ArgumentsObject × JniRefs) :
    ArgumentsCall → ArgumentsObject × JniRefs
  | .get _ _ => state
  | .put op index => (state.1.put op index state.2).2

theorem ArgumentsCall.shape_apply (state : ArgumentsObject × JniRefs) (call : ArgumentsCall) :
    (call.apply state).1.size = state.1.size ∧ (call.apply state).1.shape = state.1.shape := by
  cases call with
  | get op index => exact ⟨rfl, rfl⟩
  | put op index => exact ⟨rfl, state.1.shape_put op index state.2⟩

/-- After any sequence of calls the laws hold, and size, types and slots are what they
were. -/
theorem argument_laws (state : ArgumentsObject × JniRefs) (calls : List ArgumentsCall) :
    (calls.foldl ArgumentsCall.apply state).1.Laws (calls.foldl ArgumentsCall.apply state).2 ∧
      (calls.foldl ArgumentsCall.apply state).1.size = state.1.size ∧
      (calls.foldl ArgumentsCall.apply state).1.shape = state.1.shape := by
  refine ⟨ArgumentsObject.laws _ _, ?_⟩
  induction calls generalizing state with
  | nil => exact ⟨rfl, rfl⟩
  | cons call calls ih =>
      obtain ⟨hsize, hshape⟩ := call.shape_apply state
      obtain ⟨hsize', hshape'⟩ := ih (call.apply state)
      exact ⟨hsize'.trans hsize, hshape'.trans hshape⟩

end ArgumentsNative

end JvmHookFramework
