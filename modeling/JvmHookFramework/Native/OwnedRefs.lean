/-
  Native/OwnedRefs.lean --- the global references that the variables of a callback hold.

  One field of a `CallParameter` holds a local reference, then a global one that the
  record must delete, and only `edited` tells which.  Every setter swaps what is held, and
  the ends of the callbacks delete it.
-/
import JvmHookFramework.Foundation.Custody
import JvmHookFramework.Native.ForcedReturn
import JvmHookFramework.Native.ParameterSlots

set_option autoImplicit false

namespace JvmHookFramework

open Foundation ArgumentsNative ForceEarlyReturnNative

/-! ## Deleting and creating -/

/-- The global reference in a variable, if there is one. -/
def globals : Cell Jobject → List Nat
  | some (.globalRef r) => [r]
  | _ => []

/-- `DeleteGlobalRef` may be applied to it: it is null or a global reference. -/
def Deletable : Cell Jobject → Prop
  | some .null | some (.globalRef _) => True
  | _ => False

theorem JniRefs.delete_of_deletable {v : Cell Jobject} (hv : Deletable v) (refs : JniRefs) :
    refs.delete v = { refs with table := refs.table.deleteAll (globals v) } := by
  rcases v with _ | (_ | _ | _)
  · exact hv.elim
  · rfl
  · exact hv.elim
  · rfl

theorem deletable_new (refs : JniRefs) (obj : Option Obj) : Deletable (some (refs.new obj).1) := by
  cases obj <;> trivial

/-- The references are in the hands of their owners, and nothing else was deleted. -/
structure RefsOk {τ : Type} (refs : JniRefs) (own : τ → List Nat) : Prop where
  custody : Custody refs.table own
  misused : refs.misused = []

section

variable {τ : Type} {refs refs' : JniRefs} {own own' : τ → List Nat} {t : τ}
  {v : Cell Jobject} {rest : List Nat}

theorem RefsOk.delete (h : RefsOk refs own) (hv : Deletable v)
    (hown : (own t).Perm (globals v ++ rest)) (hown' : (own' t).Perm rest)
    (hothers : ∀ u, u ≠ t → own' u = own u) : RefsOk (refs.delete v) own' := by
  rw [JniRefs.delete_of_deletable hv]
  exact ⟨h.custody.release hown hown' hothers, h.misused⟩

theorem RefsOk.new (h : RefsOk refs own) (obj : Option Obj)
    (hown' : (own' t).Perm (globals (some (refs.new obj).1) ++ own t))
    (hothers : ∀ u, u ≠ t → own' u = own u) : RefsOk (refs.new obj).2 own' := by
  cases obj with
  | none =>
      have hown : (own t).Perm ([] ++ own t) := .refl _
      exact ⟨h.custody.drop hown hown' hothers, h.misused⟩
  | some o => exact ⟨h.custody.acquire o hown' hothers, h.misused⟩

/-! ## Setters -/

/-- How a setter changes the references and those it holds: it leaves both, or deletes what
was held in the variable `v` and creates another. -/
inductive Swap (refs : JniRefs) (held : List Nat) (refs' : JniRefs) (held' : List Nat) : Prop where
  | kept (hrefs : refs' = refs) (hheld : held' = held)
  | swapped {v : Cell Jobject} {rest : List Nat} (obj : Option Obj) (hv : Deletable v)
      (hheld : held.Perm (globals v ++ rest)) (hrefs : refs' = ((refs.delete v).new obj).2)
      (hheld' : held'.Perm (globals (some ((refs.delete v).new obj).1) ++ rest))

theorem RefsOk.swap [DecidableEq τ] (h : RefsOk refs own) (hswap : Swap refs (own t) refs' (own' t))
    (hothers : ∀ u, u ≠ t → own' u = own u) : RefsOk refs' own' := by
  cases hswap with
  | kept hrefs hheld =>
      have hsame : own' = own := funext (eq_of_others hothers hheld)
      rw [hrefs, hsame]
      exact h
  | @swapped v rest obj hv hheld hrefs hheld' =>
      -- between the two the owner holds the rest
      let mid := Function.update own t rest
      have hmid : mid t = rest := Function.update_self t rest own
      have hfirst : RefsOk (refs.delete v) mid := by
        refine h.delete hv hheld (hmid ▸ .refl _) fun u hut => ?_
        exact Function.update_of_ne hut rest own
      rw [hrefs]
      refine hfirst.new obj (hmid.symm ▸ hheld') fun u hut => ?_
      rw [hothers u hut]
      exact (Function.update_of_ne hut rest own).symm

/-- A setter makes the new reference its own. -/
theorem Swap.created {held held' : List Nat} (h : Swap refs held refs' held') {r : Nat}
    (hold : refs.table.next ≤ r) (hnew : r < refs'.table.next) : r ∈ held' := by
  cases h with
  | kept hrefs =>
      rw [hrefs] at hnew
      exact absurd hnew (Nat.not_lt.mpr hold)
  | @swapped v rest obj hv hheld hrefs hheld' =>
      rw [hrefs, JniRefs.delete_of_deletable hv] at hnew
      rw [JniRefs.delete_of_deletable hv] at hheld'
      apply hheld'.mem_iff.mpr
      apply List.mem_append_left
      cases obj with
      | none =>
          simp only [JniRefs.new, RefTable.next_deleteAll] at hnew
          exact absurd hnew (Nat.not_lt.mpr hold)
      | some o =>
          simp only [JniRefs.new, RefTable.next_newRef, RefTable.next_deleteAll] at hnew
          simp only [JniRefs.new, globals, RefTable.next_deleteAll, List.mem_singleton]
          omega

/-- What a setter holds it held before, or has created. -/
theorem Swap.mem_held {held held' : List Nat} (h : Swap refs held refs' held') {r : Nat}
    (hr : r ∈ held') : r ∈ held ∨ refs.table.next ≤ r ∧ r < refs'.table.next := by
  cases h with
  | kept hrefs hheld => exact Or.inl (hheld ▸ hr)
  | @swapped v rest obj hv hheld hrefs hheld' =>
      rw [JniRefs.delete_of_deletable hv] at hheld' hrefs
      rcases List.mem_append.mp (hheld'.mem_iff.mp hr) with hnew | hrest
      · cases obj with
        | none => exact absurd hnew List.not_mem_nil
        | some o =>
            simp only [JniRefs.new, globals, RefTable.next_deleteAll, List.mem_singleton] at hnew
            rw [hrefs, hnew]
            simp only [JniRefs.new, RefTable.next_newRef, RefTable.next_deleteAll]
            exact Or.inr ⟨Nat.le_refl _, Nat.lt_succ_self _⟩
      · exact Or.inl (hheld.mem_iff.mpr (List.mem_append_right _ hrest))

/-- A setter deletes only what it held, and that which it no longer holds. -/
theorem Swap.deletes {held held' : List Nat} (h : Swap refs held refs' held') :
    ∃ gone, refs'.table.deletes = refs.table.deletes ++ gone ∧ (∀ r ∈ gone, r ∈ held) ∧
      ∀ r ∈ held, r ∈ held' ∨ r ∈ gone := by
  cases h with
  | kept hrefs hheld =>
      refine ⟨[], ?_, nofun, fun r hr => Or.inl (hheld ▸ hr)⟩
      rw [hrefs, List.append_nil]
  | @swapped v rest obj hv hheld hrefs hheld' =>
      refine ⟨globals v, ?_, fun r hr => ?_, fun r hr => ?_⟩
      · rw [hrefs, JniRefs.delete_of_deletable hv]
        cases obj <;> exact RefTable.deletes_deleteAll refs.table (globals v)
      · exact hheld.mem_iff.mpr (List.mem_append_left rest hr)
      · rcases List.mem_append.mp (hheld.mem_iff.mp hr) with hgone | hrest
        · exact Or.inr hgone
        · exact Or.inl (hheld'.mem_iff.mpr (List.mem_append_right _ hrest))

end

/-! ## The parameter table -/

/-- The global reference that the write-back loop deletes. -/
def CallParameter.owned (p : CallParameter) : List Nat :=
  if p.edited = true ∧ p.type = JVM_SIGNATURE_CLASS then globals p.value else []

/-- The flag tells what the cell holds: a global reference, or null, once it is edited. -/
def CallParameter.Keeps (p : CallParameter) : Prop :=
  p.type = JVM_SIGNATURE_CLASS →
    if p.edited = true then Deletable p.value else globals p.value = []

/-- The references that the cells of a table hold. -/
def ownedBy (table : List CallParameter) : List Nat := table.flatMap CallParameter.owned

theorem owned_of_unedited {p : CallParameter} (h : p.edited = false) : p.owned = [] := by
  unfold CallParameter.owned
  rw [h, if_neg (fun hset => absurd hset.1 Bool.false_ne_true)]

/-- A cell taken out of its table. -/
theorem exists_split {table : List CallParameter} {x : Nat} {px : CallParameter}
    (hpx : table[x]? = some px) : ∃ before after, table = before ++ px :: after ∧
      ∀ px', table.set x px' = before ++ px' :: after := by
  induction table generalizing x with
  | nil => cases hpx
  | cons p table ih =>
      cases x with
      | zero =>
          obtain rfl := Option.some.inj hpx
          exact ⟨[], table, rfl, fun _ => rfl⟩
      | succ x =>
          obtain ⟨before, after, htable, hset⟩ := ih hpx
          refine ⟨p :: before, after, ?_, fun px' => ?_⟩
          · rw [htable, List.cons_append]
          · rw [List.set_cons_succ, hset, List.cons_append]

theorem ownedBy_split (before after : List CallParameter) (px : CallParameter) :
    (ownedBy (before ++ px :: after)).Perm (px.owned ++ ownedBy (before ++ after)) :=
  (List.perm_middle).flatMap_right CallParameter.owned

/-- `putObject` swaps the reference of its cell. -/
theorem swap_putObject {table : List CallParameter} {x : Nat} {px : CallParameter}
    (hpx : table[x]? = some px) (htype : px.type = JVM_SIGNATURE_CLASS) (hkeeps : px.Keeps)
    (value : Option Obj) (refs : JniRefs) :
    Swap refs (ownedBy table)
      ((if px.edited then refs.delete px.value else refs).new value).2
      (ownedBy (table.set x { px with
        edited := true
        value := some ((if px.edited then refs.delete px.value else refs).new value).1 })) := by
  obtain ⟨before, after, htable, hset⟩ := exists_split hpx
  have hclass := hkeeps htype
  rw [hset, htable]
  have hnew : ∀ v, ({ px with edited := true, value := v } : CallParameter).owned = globals v :=
    fun v => if_pos ⟨rfl, htype⟩
  cases hedited : px.edited with
  | true =>
      rw [hedited, if_pos rfl] at hclass
      have howned : px.owned = globals px.value := if_pos ⟨hedited, htype⟩
      refine .swapped value hclass (howned ▸ ownedBy_split before after px) rfl ?_
      have hsplit := ownedBy_split before after
        { px with edited := true, value := some ((refs.delete px.value).new value).1 }
      rw [hnew] at hsplit
      exact hsplit
  | false =>
      have howned : px.owned = [] := owned_of_unedited hedited
      have hold := ownedBy_split before after px
      rw [howned] at hold
      refine @Swap.swapped refs _ _ _ (some .null) _ value trivial hold rfl ?_
      have hsplit := ownedBy_split before after
        { px with edited := true, value := some (refs.new value).1 }
      rw [hnew] at hsplit
      exact hsplit

/-- A call leaves the references and what the cells of the table `table` hold of them. -/
structure PutIdle (table : List CallParameter) (refs : JniRefs)
    (outcome : Option (List CallParameter) × JniRefs) : Prop where
  refs : outcome.2 = refs
  owned : ownedBy (outcome.1.getD table) = ownedBy table
  keeps : ∀ p ∈ outcome.1.getD table, p.Keeps

section

variable {table : List CallParameter} {refs : JniRefs}

theorem putIdle_same (hkeeps : ∀ p ∈ table, p.Keeps) : PutIdle table refs (some table, refs) :=
  ⟨rfl, rfl, hkeeps⟩

/-- A setter leaves everything as it is, or stores into a cell of its tag, whatever size the
object has. -/
theorem put_effect (tag : Char) (store : CallParameter → JniRefs → CallParameter × JniRefs)
    (table : List CallParameter) (size index : Int) (refs : JniRefs) :
    (put tag store (some table) size index refs).2 = (some table, refs) ∨
    ∃ (x : Nat) (px : CallParameter), table[x]? = some px ∧ px.type = tag ∧
      (put tag store (some table) size index refs).2 =
        (some (table.set x (store px refs).1), (store px refs).2) := by
  unfold put
  split
  · exact Or.inl rfl
  · dsimp only
    split
    · split
      · exact Or.inl rfl
      · rename_i px hpx
        split
        · exact Or.inl rfl
        · rename_i htype
          exact Or.inr ⟨_, px, hpx, not_not.mp htype, rfl⟩
    · exact Or.inl rfl

theorem keeps_set (hkeeps : ∀ p ∈ table, p.Keeps) {x : Nat} {px' : CallParameter}
    (hpx' : px'.Keeps) : ∀ p ∈ table.set x px', p.Keeps := by
  intro p hp
  rcases List.mem_or_eq_of_mem_set hp with hold | rfl
  · exact hkeeps p hold
  · exact hpx'

/-- A setter of another kind touches no cell that holds a reference. -/
theorem putIdle_field {tag : Char} {f : CallParameter → CallParameter}
    (htag : tag ≠ JVM_SIGNATURE_CLASS) (hf : ∀ px, (f px).type = px.type)
    (hkeeps : ∀ p ∈ table, p.Keeps) (size index : Int) :
    PutIdle table refs (put tag (fun px refs => (f px, refs)) (some table) size index refs).2 := by
  rcases put_effect tag (fun px refs => (f px, refs)) table size index refs with
    hsame | ⟨x, px, hpx, htype, hset⟩
  · rw [hsame]
    exact putIdle_same hkeeps
  · rw [hset]
    have hother : ∀ p : CallParameter, p.type = tag → p.type ≠ JVM_SIGNATURE_CLASS :=
      fun p hp => hp ▸ htag
    have hfx : (f px).type = tag := (hf px).trans htype
    have hnone : ∀ p : CallParameter, p.type = tag → p.owned = [] :=
      fun p hp => if_neg fun hset => hother p hp hset.2
    refine ⟨rfl, ?_, keeps_set hkeeps fun hclass => absurd hclass (hother _ hfx)⟩
    obtain ⟨before, after, htable, hsplit⟩ := exists_split hpx
    rw [Option.getD_some, hsplit, htable]
    simp only [ownedBy, List.flatMap_append, List.flatMap_cons, hnone _ hfx, hnone _ htype]

/-- Only `putObject` touches references. -/
theorem ArgumentsNative.PutOp.idle {op : PutOp} (refs : JniRefs)
    (hop : ∀ value, op ≠ .putObject value) (hkeeps : ∀ p ∈ table, p.Keeps) (size index : Int) :
    PutIdle table refs (op.call (some table) size index refs).2 := by
  cases op with
  | putInt value => exact putIdle_same hkeeps
  | putObject value => exact absurd rfl (hop value)
  | _ =>
      refine putIdle_field ?_ ?_ hkeeps size index
      · decide
      · exact fun _ => rfl

/-- `putObject` swaps a reference of the table, or fails. -/
theorem putObject_swap (refs : JniRefs) (value : Option Obj) (hkeeps : ∀ p ∈ table, p.Keeps)
    (size index : Int) :
    Swap refs (ownedBy table) ((PutOp.putObject value).call (some table) size index refs).2.2
        (ownedBy (((PutOp.putObject value).call (some table) size index refs).2.1.getD table)) ∧
      ∀ p ∈ ((PutOp.putObject value).call (some table) size index refs).2.1.getD table,
        p.Keeps := by
  rcases put_effect JVM_SIGNATURE_CLASS _ table size index refs with
    hsame | ⟨x, px, hpx, htype, hset⟩
  · have hcall : ((PutOp.putObject value).call (some table) size index refs).2 = _ := hsame
    rw [hcall]
    exact ⟨.kept rfl rfl, hkeeps⟩
  · have hpxKeeps := hkeeps px (List.mem_of_getElem? hpx)
    have hcall : ((PutOp.putObject value).call (some table) size index refs).2 = _ := hset
    rw [hcall]
    refine ⟨swap_putObject hpx htype hpxKeeps value refs, keeps_set hkeeps fun _ => ?_⟩
    exact deletable_new _ value

/-! ## The record of the forced return -/

/-- Only `returnObject` touches references. -/
theorem ForceEarlyReturnNative.ReturnOp.idle {op : ReturnOp} (refs : JniRefs)
    (hop : ∀ value, op ≠ .returnObject value) (c : CallParameter) :
    ∃ c', op.call (some c) refs = (some c', refs) ∧ c'.edited = true ∧ c'.value = c.value := by
  cases op with
  | returnObject value => exact absurd rfl (hop value)
  | _ => exact ⟨_, rfl, rfl, rfl⟩

/-- `returnObject` swaps the reference of the record; one that was not edited is null. -/
theorem returnObject_swap (refs : JniRefs) (value : Option Obj) {c : CallParameter}
    (hc : Deletable c.value) (hedited : c.edited = false → c.value = some .null) :
    ∃ c', ((ReturnOp.returnObject value).call (some c) refs).1 = some c' ∧ c'.edited = true ∧
      Deletable c'.value ∧ Swap refs (globals c.value)
        ((ReturnOp.returnObject value).call (some c) refs).2 (globals c'.value) := by
  have hdrop : (if c.edited then refs.delete c.value else refs) = refs.delete c.value := by
    cases hset : c.edited with
    | true => rfl
    | false =>
        rw [hedited hset]
        rfl
  have hcall : (ReturnOp.returnObject value).call (some c) refs =
      (some { c with edited := true, value := some ((refs.delete c.value).new value).1 },
        ((refs.delete c.value).new value).2) := by
    rw [← hdrop]
    rfl
  rw [hcall]
  refine ⟨_, rfl, rfl, deletable_new _ value, ?_⟩
  exact @Swap.swapped refs _ _ _ c.value [] value hc (List.append_nil _ ▸ .refl _) rfl
    (List.append_nil _ ▸ .refl _)

end

/-! ## The ends of the callbacks -/

/-- A pass of the write-back loop deletes what its cell holds. -/
theorem writeParameter_refs {p : CallParameter} (hkeeps : p.Keeps) (frame : Locals)
    (refs : JniRefs) : (writeParameter (frame, refs) p).2 =
      { refs with table := refs.table.deleteAll p.owned } := by
  by_cases hedited : p.edited = true
  · by_cases hclass : p.type = JVM_SIGNATURE_CLASS
    · have hvalue := hkeeps hclass
      rw [if_pos hedited] at hvalue
      have howned : p.owned = globals p.value := if_pos ⟨hedited, hclass⟩
      rw [howned, ← JniRefs.delete_of_deletable hvalue]
      unfold writeParameter
      simp only [if_pos hedited, hclass]
      rfl
    · have howned : p.owned = [] := if_neg fun hset => hclass hset.2
      rw [howned, RefTable.deleteAll_nil]
      unfold writeParameter
      simp only [if_pos hedited, if_neg hclass]
      repeat' split
      all_goals rfl
  · rw [writeParameter_of_unedited _ hedited, owned_of_unedited (eq_false_of_ne_true hedited)]
    rfl

/-- The write-back loop deletes what the table holds. -/
theorem writeParameters_refs {table : List CallParameter} (hkeeps : ∀ p ∈ table, p.Keeps) :
    ∀ (frame : Locals) (refs : JniRefs), (writeParameters table frame refs).2 =
      { refs with table := refs.table.deleteAll (ownedBy table) } := by
  induction table with
  | nil =>
      intro frame refs
      rfl
  | cons p table ih =>
      intro frame refs
      rw [List.forall_mem_cons] at hkeeps
      rw [writeParameters_cons, ih hkeeps.2, writeParameter_refs hkeeps.1]
      simp only [ownedBy, List.flatMap_cons, RefTable.deleteAll, List.foldl_append]

/-- The callback takes the method to return a reference. -/
def TakenForReference (t : Char) : Prop := t ∈ [JVM_SIGNATURE_CLASS, JVM_SIGNATURE_ARRAY]

instance (t : Char) : Decidable (TakenForReference t) :=
  inferInstanceAs (Decidable (t ∈ _))

/-- The end of a callback deletes what the record holds when it takes the method to return
a reference, and else deletes nothing. -/
theorem forceReturn_refs {c : CallParameter} (hc : Deletable c.value)
    (hedited : c.edited = false → c.value = some .null) (t : Char) (refs : JniRefs) :
    (forceReturn t c refs).2 =
      { refs with
        table := refs.table.deleteAll (if TakenForReference t then globals c.value else []) } := by
  by_cases hset : c.edited = true
  · unfold forceReturn
    rw [if_pos hset]
    by_cases ht : TakenForReference t
    · rw [if_pos ht, ← JniRefs.delete_of_deletable hc]
      exact congrArg Prod.snd (if_pos ht)
    · rw [if_neg ht, RefTable.deleteAll_nil]
      have hlist : ¬ t ∈ [JVM_SIGNATURE_CLASS, JVM_SIGNATURE_ARRAY] := ht
      rw [if_neg hlist]
      repeat' split
      all_goals rfl
  · rw [forceReturn_of_unedited hset, hedited (eq_false_of_ne_true hset)]
    have hnone : (if TakenForReference t then globals (some .null) else []) = [] := ite_self _
    rw [hnone]
    rfl

/-! ## The table as it is made -/

/-- A cell that was just made holds no global reference. -/
def CallParameter.Fresh (p : CallParameter) : Prop := p.edited = false ∧ globals p.value = []

theorem CallParameter.Fresh.keeps {p : CallParameter} (h : p.Fresh) : p.Keeps := by
  intro _
  rw [h.1, if_neg Bool.false_ne_true]
  exact h.2

theorem globals_GetLocalObject (frame : Locals) (slot : Nat) :
    globals (frame.GetLocalObject slot) = [] := by
  unfold Locals.GetLocalObject
  split <;> rfl

theorem fresh_readParameter {frame : Locals} {t : Char} {slots : Nat}
    {cell : CallParameter × Nat} (h : readParameter frame t slots = some cell) :
    cell.1.Fresh := by
  unfold readParameter at h
  split at h
  · obtain rfl := Option.some.inj h
    exact ⟨rfl, globals_GetLocalObject frame slots⟩
  · repeat' split at h
    all_goals first
      | (obtain rfl := Option.some.inj h; exact ⟨rfl, rfl⟩)
      | cases h

theorem fresh_fillParameters {frame : Locals} {desc : List Char} {stop : Option Nat} :
    ∀ {fuel i x slots : Nat} {table table' : List CallParameter},
      (∀ p ∈ table, p.Fresh) →
      fillParameters frame desc stop fuel i x slots table = some table' →
      ∀ p ∈ table', p.Fresh := by
  intro fuel
  induction fuel with
  | zero =>
      intro i x slots table table' hfresh h
      unfold fillParameters at h
      split at h
      · cases h
      · exact Option.some.inj h ▸ hfresh
  | succ fuel ih =>
      intro i x slots table table' hfresh h
      unfold fillParameters at h
      split at h
      · cases hread : readParameter frame (readType desc i stop).1 slots with
        | none =>
            simp only [hread] at h
            exact ih hfresh h
        | some cell =>
            simp only [hread] at h
            split at h
            · refine ih (fun p hp => ?_) h
              rcases List.mem_or_eq_of_mem_set hp with hold | rfl
              · exact hfresh p hold
              · exact fresh_readParameter hread
            · cases h
      · exact Option.some.inj h ▸ hfresh

/-- The table of a callback starts without global references. -/
theorem fresh_readParameters {frame : Locals} {desc : List Char} {isStatic : Bool}
    {table : List CallParameter} (h : readParameters frame desc isStatic = some table) :
    ∀ p ∈ table, p.Fresh := by
  unfold readParameters at h
  dsimp only at h
  split at h
  · cases h
  · refine fresh_fillParameters (fun p hp => ?_) h
    rw [List.eq_of_mem_replicate hp]
    exact ⟨rfl, rfl⟩

theorem ownedBy_fresh {table : List CallParameter} (h : ∀ p ∈ table, p.Fresh) :
    ownedBy table = [] :=
  List.flatMap_eq_nil_iff.mpr fun p hp => owned_of_unedited (h p hp).1

end JvmHookFramework
