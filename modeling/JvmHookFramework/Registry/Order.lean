/-
  Registry/Order.lean --- the order of the hooks and the length of the chain.

  A registration is named by the number of the operation that made it.  The slots of
  the registry hold the registrations that are still live, each in the slot it was put
  in, whatever is registered or removed around it: the reference a slot holds is the one
  its registration was given.  So `shouldRunHook` collects two registrations in one
  order for as long as both are live.
-/
import Mathlib.Data.List.Induction
import Mathlib.Data.Set.Card
import Mathlib.Order.Bounds.Basic
import JvmHookFramework.Registry.Refinement

set_option autoImplicit false

namespace JvmHookFramework

open Foundation Foundation.SlotChain

/-! ## Registrations by number -/

/-- What the operation with this number registered. -/
structure Registered where
  number : Nat
  method : JmethodID
  hook : Option Obj
  deriving DecidableEq, Repr

namespace Registered

/-- The pair of the abstract registry. -/
def pair (jvm : Jvm) (x : Registered) : Nat × Option Obj := (jvm.deref x.method, x.hook)

/-- The operation with its number made the registration, and no later one names it. -/
structure Live (jvm : Jvm) (ops : List RegistryOp) (x : Registered) : Prop where
  made : ops[x.number]? = some (.register x.method x.hook)
  kept : ∀ j method hook, x.number < j → ops[j]? = some (.unregister method hook) →
    ¬ Named jvm method hook (x.pair jvm)

theorem Live.number_lt {jvm : Jvm} {ops : List RegistryOp} {x : Registered}
    (h : x.Live jvm ops) : x.number < ops.length :=
  (List.getElem?_eq_some_iff.mp h.made).1

theorem getElem?_concat_eq_some_iff {ops : List RegistryOp} {op other : RegistryOp} {k : Nat} :
    (ops ++ [op])[k]? = some other ↔
      ops[k]? = some other ∨ (k = ops.length ∧ op = other) := by
  rcases Nat.lt_trichotomy k ops.length with hlt | rfl | hgt
  · rw [List.getElem?_append_left hlt]
    exact (or_iff_left fun h => Nat.ne_of_lt hlt h.1).symm
  · rw [List.getElem?_concat_length, List.getElem?_eq_none (Nat.le_refl _)]
    simp
  · have hlength : (ops ++ [op]).length ≤ k := by
      rw [List.length_append, List.length_singleton]
      exact hgt
    rw [List.getElem?_eq_none hlength, List.getElem?_eq_none (Nat.le_of_lt hgt)]
    simpa using fun h : k = ops.length => absurd h (Nat.ne_of_gt hgt)

/-- One more operation makes one registration, or removes those it names. -/
theorem live_append_singleton {jvm : Jvm} {ops : List RegistryOp} {op : RegistryOp}
    {x : Registered} :
    x.Live jvm (ops ++ [op]) ↔
      (x.number = ops.length ∧ op = .register x.method x.hook) ∨
        (x.Live jvm ops ∧ ∀ method hook, op = .unregister method hook →
          ¬ Named jvm method hook (x.pair jvm)) := by
  constructor
  · rintro ⟨hmade, hkept⟩
    rcases getElem?_concat_eq_some_iff.mp hmade with hold | hnew
    · refine Or.inr ⟨⟨hold, fun j method hook hj hop => ?_⟩, fun method hook hop => ?_⟩
      · exact hkept j method hook hj (getElem?_concat_eq_some_iff.mpr (Or.inl hop))
      · have hlt : x.number < ops.length := (List.getElem?_eq_some_iff.mp hold).1
        exact hkept ops.length method hook hlt
          (getElem?_concat_eq_some_iff.mpr (Or.inr ⟨rfl, hop⟩))
    · exact Or.inl hnew
  · rintro (hnew | ⟨hlive, hop⟩)
    · refine ⟨getElem?_concat_eq_some_iff.mpr (Or.inr hnew), fun j method hook hj hget => ?_⟩
      rw [hnew.1] at hj
      rcases getElem?_concat_eq_some_iff.mp hget with hold | ⟨hlast, _⟩
      · exact absurd hj (Nat.lt_asymm (List.getElem?_eq_some_iff.mp hold).1)
      · exact absurd hlast (Nat.ne_of_gt hj)
    · refine ⟨getElem?_concat_eq_some_iff.mpr (Or.inl hlive.made),
        fun j method hook hj hget => ?_⟩
      rcases getElem?_concat_eq_some_iff.mp hget with hold | ⟨_, hlast⟩
      · exact hlive.kept j method hook hj hold
      · exact hop method hook hlast

end Registered

/-! ## Where the registrations are -/

/-- The slots with the registrations they hold, after a number of operations. -/
structure Placement where
  chain : List (Option Registered) := [none]
  calls : Nat := 0
  deriving DecidableEq, Repr

namespace Placement

def apply (jvm : Jvm) (p : Placement) : RegistryOp → Placement
  | .register method hook => ⟨fill p.chain ⟨p.calls, method, hook⟩, p.calls + 1⟩
  | .unregister method hook =>
      ⟨clear (fun x => decide (Named jvm method hook (x.pair jvm))) p.chain, p.calls + 1⟩

def after (jvm : Jvm) (ops : List RegistryOp) : Placement := ops.foldl (apply jvm) {}

theorem after_append_singleton (jvm : Jvm) (ops : List RegistryOp) (op : RegistryOp) :
    after jvm (ops ++ [op]) = (after jvm ops).apply jvm op := by
  simp [after]

theorem calls_after (jvm : Jvm) (ops : List RegistryOp) :
    (after jvm ops).calls = ops.length := by
  induction ops using List.reverseRecOn with
  | nil => rfl
  | append_singleton ops op ih =>
      rw [after_append_singleton, List.length_append, List.length_singleton, ← ih]
      cases op <;> rfl

theorem chain_register (jvm : Jvm) (ops : List RegistryOp) (method : JmethodID)
    (hook : Option Obj) :
    (after jvm (ops ++ [.register method hook])).chain =
      fill (after jvm ops).chain ⟨ops.length, method, hook⟩ := by
  rw [after_append_singleton, ← calls_after jvm ops]
  rfl

theorem chain_unregister (jvm : Jvm) (ops : List RegistryOp) (method : JmethodID)
    (hook : Option Obj) :
    (after jvm (ops ++ [.unregister method hook])).chain =
      clear (fun x => decide (Named jvm method hook (x.pair jvm)))
        (after jvm ops).chain := by
  rw [after_append_singleton]
  rfl

/-- The slots hold the live registrations. -/
theorem mem_values_iff {jvm : Jvm} {ops : List RegistryOp} {x : Registered} :
    x ∈ values (after jvm ops).chain ↔ x.Live jvm ops := by
  induction ops using List.reverseRecOn with
  | nil => exact iff_of_false List.not_mem_nil fun h => Nat.not_lt_zero _ h.number_lt
  | append_singleton ops op ih =>
      rw [Registered.live_append_singleton, ← ih]
      cases op with
      | register method hook =>
          rw [chain_register, mem_values_fill]
          constructor
          · rintro (rfl | hold)
            · exact Or.inl ⟨rfl, rfl⟩
            · exact Or.inr ⟨hold, fun _ _ hop => RegistryOp.noConfusion hop⟩
          · rintro (⟨hnumber, hop⟩ | ⟨hold, _⟩)
            · obtain ⟨rfl, rfl⟩ := RegistryOp.register.inj hop
              exact Or.inl (by rw [← hnumber])
            · exact Or.inr hold
      | unregister method hook =>
          rw [chain_unregister, values_clear, List.mem_filter]
          constructor
          · rintro ⟨hold, hkept⟩
            refine Or.inr ⟨hold, fun m h hop => ?_⟩
            obtain ⟨rfl, rfl⟩ := RegistryOp.unregister.inj hop
            simpa using hkept
          · rintro (⟨_, hop⟩ | ⟨hold, hkept⟩)
            · exact RegistryOp.noConfusion hop
            · exact ⟨hold, by simpa using hkept method hook rfl⟩

theorem nodup_values (jvm : Jvm) (ops : List RegistryOp) :
    (values (after jvm ops).chain).Nodup := by
  induction ops using List.reverseRecOn with
  | nil => exact List.nodup_nil
  | append_singleton ops op ih =>
      cases op with
      | register method hook =>
          rw [chain_register]
          refine nodup_values_fill ih fun hmem => ?_
          exact Nat.lt_irrefl ops.length (mem_values_iff.mp hmem).number_lt
      | unregister method hook =>
          rw [chain_unregister, values_clear]
          exact ih.filter _

/-- Two registrations that an operation leaves live stay in their order. -/
theorem pair_sublist_append_singleton {jvm : Jvm} {ops : List RegistryOp} {op : RegistryOp}
    {x y : Registered} (hx : x.Live jvm ops) (hy : y.Live jvm ops)
    (hx' : x.Live jvm (ops ++ [op])) (hy' : y.Live jvm (ops ++ [op])) :
    [x, y].Sublist (values (after jvm (ops ++ [op])).chain) ↔
      [x, y].Sublist (values (after jvm ops).chain) := by
  cases op with
  | register method hook =>
      rw [chain_register]
      refine pair_sublist_fill (fun hmem => ?_) (mem_values_iff.mpr hx) (mem_values_iff.mpr hy)
      exact Nat.lt_irrefl ops.length (mem_values_iff.mp hmem).number_lt
  | unregister method hook =>
      have hkept : ∀ {z : Registered}, z.Live jvm ops →
          z.Live jvm (ops ++ [.unregister method hook]) →
          decide (Named jvm method hook (z.pair jvm)) = false := by
        intro z hz hz'
        refine decide_eq_false (hz'.kept ops.length method hook hz.number_lt ?_)
        exact List.getElem?_concat_length
      rw [chain_unregister]
      exact pair_sublist_clear (hkept hx hx') (hkept hy hy')

/-- So they do over a stretch of operations that leaves both live throughout. -/
theorem pair_sublist_stretch {jvm : Jvm} {ops : List RegistryOp} {x y : Registered} {a b : Nat}
    (hab : a ≤ b)
    (hlive : ∀ k, a ≤ k → k ≤ b → x.Live jvm (ops.take k) ∧ y.Live jvm (ops.take k)) :
    [x, y].Sublist (values (after jvm (ops.take b)).chain) ↔
      [x, y].Sublist (values (after jvm (ops.take a)).chain) := by
  induction b, hab using Nat.le_induction with
  | base => exact Iff.rfl
  | succ b hab ih =>
      rw [← ih fun k hak hkb => hlive k hak (Nat.le_succ_of_le hkb)]
      obtain ⟨hx, hy⟩ := hlive b hab (Nat.le_succ b)
      obtain ⟨hx', hy'⟩ := hlive (b + 1) (Nat.le_succ_of_le hab) (Nat.le_refl _)
      cases hop : ops[b]? with
      | none => rw [List.take_add_one, hop, Option.toList_none, List.append_nil]
      | some op =>
          rw [List.take_add_one, hop] at hx' hy' ⊢
          exact pair_sublist_append_singleton hx hy hx' hy'

/-- The registrations whose hooks `shouldRunHook` collects for a method, in its order. -/
def collected (jvm : Jvm) (ops : List RegistryOp) (metid : JmethodID) : List Registered :=
  (values (after jvm ops).chain).filter fun x => jvm.deref x.method = jvm.deref metid

theorem mem_collected {jvm : Jvm} {ops : List RegistryOp} {metid : JmethodID}
    {x : Registered} :
    x ∈ collected jvm ops metid ↔ x.Live jvm ops ∧ jvm.deref x.method = jvm.deref metid := by
  rw [collected, List.mem_filter, mem_values_iff, decide_eq_true_eq]

theorem nodup_collected (jvm : Jvm) (ops : List RegistryOp) (metid : JmethodID) :
    (collected jvm ops metid).Nodup :=
  (nodup_values jvm ops).filter _

theorem pair_sublist_collected {jvm : Jvm} {ops : List RegistryOp} {metid : JmethodID}
    {x y : Registered} (hx : jvm.deref x.method = jvm.deref metid)
    (hy : jvm.deref y.method = jvm.deref metid) :
    [x, y].Sublist (collected jvm ops metid) ↔
      [x, y].Sublist (values (after jvm ops).chain) :=
  pair_sublist_filter (decide_eq_true hx) (decide_eq_true hy)

end Placement

/-! ## The registry holds the placement -/

/-- The reference that the registration made by operation `number` was given. -/
def refOf (jvm : Jvm) (ops : List RegistryOp) (number : Nat) : Option Nat :=
  match run (registryStep jvm) initialRegistry (ops.take number), ops[number]? with
  | some r, some (.register _ hook) => (NewGlobalRef hook r.hookRefs).1
  | _, _ => none

theorem refOf_append {jvm : Jvm} {ops : List RegistryOp} {number : Nat}
    (h : number < ops.length) (more : List RegistryOp) :
    refOf jvm (ops ++ more) number = refOf jvm ops number := by
  unfold refOf
  rw [List.take_append_of_le_length (Nat.le_of_lt h), List.getElem?_append_left h]

theorem refOf_take {jvm : Jvm} {ops : List RegistryOp} {k number : Nat}
    (h : number < (ops.take k).length) : refOf jvm (ops.take k) number = refOf jvm ops number := by
  rw [← refOf_append h (ops.drop k), List.take_append_drop]

theorem refOf_register {jvm : Jvm} {ops : List RegistryOp} {r : Registry}
    (hrun : run (registryStep jvm) initialRegistry ops = some r) (method : JmethodID)
    (hook : Option Obj) :
    refOf jvm (ops ++ [.register method hook]) ops.length =
      (NewGlobalRef hook r.hookRefs).1 := by
  unfold refOf
  rw [List.take_left, List.getElem?_concat_length, hrun]

/-- What the slot of a registration holds. -/
def Registered.stored (jvm : Jvm) (ops : List RegistryOp) (x : Registered) : Registration :=
  (x.method, refOf jvm ops x.number)

/-- Each slot of the registry holds what the registration placed in it was given. -/
structure Holds (jvm : Jvm) (ops : List RegistryOp) (r : Registry) : Prop where
  slots_eq : r.slots =
    (Placement.after jvm ops).chain.map (Option.map (Registered.stored jvm ops))
  denote_eq : ∀ x : Registered, x.Live jvm ops →
    denote r.hookRefs (refOf jvm ops x.number) = x.hook

theorem holds_initial (jvm : Jvm) : Holds jvm [] initialRegistry where
  slots_eq := rfl
  denote_eq := fun _ h => absurd h.number_lt (Nat.not_lt_zero _)

/-- A registration that is there keeps what its slot holds. -/
theorem map_stored_append (jvm : Jvm) (ops more : List RegistryOp) :
    (Placement.after jvm ops).chain.map (Option.map (Registered.stored jvm (ops ++ more))) =
      (Placement.after jvm ops).chain.map (Option.map (Registered.stored jvm ops)) := by
  refine List.map_congr_left fun slot hslot => ?_
  cases slot with
  | none => rfl
  | some x =>
      have hlive := Placement.mem_values_iff.mp (mem_values.mpr hslot)
      rw [Option.map_some, Option.map_some, Registered.stored, refOf_append hlive.number_lt]
      rfl

theorem Holds.mem_registrations {jvm : Jvm} {ops : List RegistryOp} {r : Registry}
    (h : Holds jvm ops r) {x : Registered} (hx : x.Live jvm ops) :
    x.stored jvm ops ∈ r.registrations := by
  rw [Registry.registrations, h.slots_eq, values_map]
  exact List.mem_map_of_mem (Placement.mem_values_iff.mpr hx)

/-- One completed operation keeps the registry and the placement in step. -/
theorem Holds.step {jvm : Jvm} {ops : List RegistryOp} {op : RegistryOp} {r r' : Registry}
    (h : Holds jvm ops r) (hrun : run (registryStep jvm) initialRegistry ops = some r)
    (hstep : registryStep jvm r op = some r') : Holds jvm (ops ++ [op]) r' := by
  have hok := (refines_of_run hrun).ok
  cases op with
  | register method hook =>
      obtain rfl := Option.some.inj hstep
      have hnew := refOf_register hrun method hook
      refine ⟨?_, fun x hx => ?_⟩
      · rw [registerHook_slots, Placement.chain_register, fill_map, map_stored_append,
          ← h.slots_eq, Registered.stored, hnew]
      · rw [registerHook_hookRefs]
        rcases Registered.live_append_singleton.mp hx with ⟨hnumber, hop⟩ | ⟨hold, _⟩
        · rw [hnumber, hnew, denote_NewGlobalRef]
          exact (RegistryOp.register.inj hop).2
        · rw [refOf_append hold.number_lt, ← h.denote_eq x hold]
          exact denote_NewGlobalRef_of_lt hook (hok.stored_lt (h.mem_registrations hold))
  | unregister method hook =>
      obtain ⟨hslots, _, hrefs⟩ := unregisterHook_spec hstep
      refine ⟨?_, fun x hx => ?_⟩
      · have hcleared : ∀ x ∈ values (Placement.after jvm ops).chain,
            decide (Named jvm method hook (x.pair jvm)) =
              removes jvm r.hookRefs method hook (x.stored jvm ops) := by
          intro x hx
          have hdenote := h.denote_eq x (Placement.mem_values_iff.mp hx)
          simp only [removes, Registered.stored, hdenote]
          rfl
        rw [Placement.chain_unregister, hslots, h.slots_eq, ← clear_map hcleared]
        refine List.map_congr_left fun slot hslot => ?_
        cases slot with
        | none => rfl
        | some x =>
            have hold : x ∈ values (Placement.after jvm ops).chain := by
              have hmem := mem_values.mpr hslot
              rw [values_clear] at hmem
              exact (List.mem_filter.mp hmem).1
            have hlt := (Placement.mem_values_iff.mp hold).number_lt
            rw [Option.map_some, Option.map_some, Registered.stored, Registered.stored,
              refOf_append hlt]
      · rcases Registered.live_append_singleton.mp hx with ⟨_, hop⟩ | ⟨hold, _⟩
        · exact RegistryOp.noConfusion hop
        · rw [refOf_append hold.number_lt, ← h.denote_eq x hold, hrefs]
          cases refOf jvm ops x.number with
          | none => rfl
          | some ref => exact RefTable.get?_deleteAll r.hookRefs _ ref

theorem holds_of_run {jvm : Jvm} {ops : List RegistryOp} {r : Registry}
    (hrun : run (registryStep jvm) initialRegistry ops = some r) : Holds jvm ops r := by
  induction ops using List.reverseRecOn generalizing r with
  | nil =>
      obtain rfl := Option.some.inj hrun
      exact holds_initial jvm
  | append_singleton ops op ih =>
      obtain ⟨mid, hmid, hlast⟩ := run_append.mp hrun
      obtain ⟨r', hstep, hnil⟩ := run_cons_eq_some_iff.mp hlast
      obtain rfl := Option.some.inj hnil
      exact (ih hmid).step hmid hstep

/-- A run has taken each number of its operations. -/
theorem run_take {jvm : Jvm} {ops : List RegistryOp} {r : Registry}
    (hrun : run (registryStep jvm) initialRegistry ops = some r) (k : Nat) :
    ∃ rk, run (registryStep jvm) initialRegistry (ops.take k) = some rk := by
  rw [← List.take_append_drop k ops] at hrun
  obtain ⟨rk, hrk, _⟩ := run_append.mp hrun
  exact ⟨rk, hrk⟩

theorem Holds.hooksOf_eq {jvm : Jvm} {ops : List RegistryOp} {r : Registry}
    (h : Holds jvm ops r) (metid : JmethodID) :
    r.hooksOf jvm metid =
      (Placement.collected jvm ops metid).map fun x => refOf jvm ops x.number := by
  rw [Registry.hooksOf, ofMethod, Registry.registrations, h.slots_eq, values_map,
    List.filter_map, List.map_map]
  rfl

/-- The hooks `shouldRunHook` collects are those of the live registrations, in the order
of the placement. -/
theorem Holds.shouldRunHook_cells {jvm : Jvm} {ops : List RegistryOp} {r : Registry}
    (h : Holds jvm ops r) (metid : JmethodID) :
    ((shouldRunHook jvm r metid).2.2.map HookArray.cells).getD [] =
      (Placement.collected jvm ops metid).map fun x => refOf jvm ops x.number := by
  rw [← h.hooksOf_eq metid, shouldRunHook_eq]
  by_cases hnil : r.hooksOf jvm metid = []
  · rw [if_pos hnil, hnil]
    rfl
  · rw [if_neg hnil]
    rfl

/-! ## The length of the chain -/

/-- How many registrations are live. -/
noncomputable def liveCount (jvm : Jvm) (ops : List RegistryOp) : Nat :=
  {x : Registered | x.Live jvm ops}.ncard

theorem liveCount_eq_length (jvm : Jvm) (ops : List RegistryOp) :
    liveCount jvm ops = (values (Placement.after jvm ops).chain).length := by
  have hset : {x : Registered | x.Live jvm ops} =
      ((values (Placement.after jvm ops).chain).toFinset : Set Registered) := by
    ext x
    rw [Set.mem_ofPred_eq, Finset.mem_coe, List.mem_toFinset, Placement.mem_values_iff]
  rw [liveCount, hset, Set.ncard_coe_finset,
    List.toFinset_card_of_nodup (Placement.nodup_values jvm ops)]

theorem liveCount_eq_card {jvm : Jvm} {ops : List RegistryOp} {r : Registry}
    (hrun : run (registryStep jvm) initialRegistry ops = some r) :
    liveCount jvm ops = (Ledger.after jvm ops).bag.card := by
  rw [liveCount_eq_length, ← (refines_of_run hrun).bag_eq, r.card_bag jvm, card_content,
    (holds_of_run hrun).slots_eq, values_map, List.length_map]

/-- The peak of the ledger is the largest size the bag has had. -/
theorem Ledger.isGreatest_peak (jvm : Jvm) (ops : List RegistryOp) :
    IsGreatest {n | ∃ before, before <+: ops ∧ n = (Ledger.after jvm before).bag.card}
      (Ledger.after jvm ops).peak := by
  induction ops using List.reverseRecOn with
  | nil =>
      refine ⟨⟨[], List.prefix_rfl, rfl⟩, ?_⟩
      rintro n ⟨before, hprefix, rfl⟩
      rw [List.prefix_nil.mp hprefix]
      exact Nat.le_refl _
  | append_singleton ops op ih =>
      have hpeak : (Ledger.after jvm (ops ++ [op])).peak =
          max (Ledger.after jvm ops).peak (Ledger.after jvm (ops ++ [op])).bag.card := by
        rw [Ledger.after_append_singleton]
        rfl
      rw [hpeak]
      constructor
      · rcases le_total (Ledger.after jvm ops).peak
            (Ledger.after jvm (ops ++ [op])).bag.card with hnew | hold
        · rw [max_eq_right hnew]
          exact ⟨ops ++ [op], List.prefix_rfl, rfl⟩
        · rw [max_eq_left hold]
          obtain ⟨before, hprefix, hcard⟩ := ih.1
          exact ⟨before, hprefix.trans (List.prefix_append ops [op]), hcard⟩
      · rintro n ⟨before, hprefix, rfl⟩
        rcases List.prefix_concat_iff.mp hprefix with rfl | hold
        · exact le_max_right _ _
        · exact le_max_of_le_left (ih.2 ⟨before, hold, rfl⟩)

/-! ## The chain over a history -/

/-- What a completed sequence of operations says about the chain of slots and about the
order in which hooks are collected. -/
structure ChainStable (jvm : Jvm) (ops : List RegistryOp) (r : Registry) : Prop where
  /-- There are as many slots as registrations were ever live at a time, and at least one. -/
  length : ∃ peak, IsGreatest {n | ∃ before, before <+: ops ∧ n = liveCount jvm before} peak ∧
    r.headHookInfo.length = max 1 peak
  /-- A slot is appended when no slot is empty. -/
  appends : none ∉ r.slots → ∀ method hook, (registerHook r method hook).slots =
    r.slots ++ [some (method, (NewGlobalRef hook r.hookRefs).1)]
  /-- Otherwise the empty slot nearest the head is filled. -/
  reuses : ∀ before after, r.slots = before ++ none :: after → none ∉ before →
    ∀ method hook, (registerHook r method hook).slots =
      before ++ some (method, (NewGlobalRef hook r.hookRefs).1) :: after
  /-- At each moment the hooks collected are those of the live registrations, by the
  references they were given. -/
  collects : ∀ k, ∃ rk, run (registryStep jvm) initialRegistry (ops.take k) = some rk ∧
    ∀ metid, ((shouldRunHook jvm rk metid).2.2.map HookArray.cells).getD [] =
      (Placement.collected jvm (ops.take k) metid).map fun x => refOf jvm ops x.number
  mem_collected : ∀ k metid x, x ∈ Placement.collected jvm (ops.take k) metid ↔
    x.Live jvm (ops.take k) ∧ jvm.deref x.method = jvm.deref metid
  nodup_collected : ∀ k metid, (Placement.collected jvm (ops.take k) metid).Nodup
  /-- Two registrations that stay live over a stretch are collected in one order. -/
  order : ∀ (x y : Registered) (a b : Nat),
    (∀ k, a ≤ k → k ≤ b → x.Live jvm (ops.take k) ∧ y.Live jvm (ops.take k)) →
    ∀ k k' metid, a ≤ k → k ≤ k' → k' ≤ b →
      ([x, y].Sublist (Placement.collected jvm (ops.take k') metid) ↔
        [x, y].Sublist (Placement.collected jvm (ops.take k) metid))

theorem length_eq_max_liveCount {jvm : Jvm} {ops : List RegistryOp} {r : Registry}
    (hrun : run (registryStep jvm) initialRegistry ops = some r) :
    ∃ peak, IsGreatest {n | ∃ before, before <+: ops ∧ n = liveCount jvm before} peak ∧
      r.headHookInfo.length = max 1 peak := by
  have hset : {n | ∃ before, before <+: ops ∧ n = liveCount jvm before} =
      {n | ∃ before, before <+: ops ∧ n = (Ledger.after jvm before).bag.card} := by
    ext n
    refine exists_congr fun before => and_congr_right fun hprefix => ?_
    obtain ⟨after, rfl⟩ := hprefix
    obtain ⟨mid, hmid, _⟩ := run_append.mp hrun
    rw [liveCount_eq_card hmid]
  have hlength := (refines_of_run hrun).peaked.length_eq
  rw [Registry.slots, List.length_map] at hlength
  rw [hset]
  exact ⟨(Ledger.after jvm ops).peak, Ledger.isGreatest_peak jvm ops, hlength⟩

theorem collects_of_run {jvm : Jvm} {ops : List RegistryOp} {k : Nat} {rk : Registry}
    (hrun : run (registryStep jvm) initialRegistry (ops.take k) = some rk)
    (metid : JmethodID) :
    ((shouldRunHook jvm rk metid).2.2.map HookArray.cells).getD [] =
      (Placement.collected jvm (ops.take k) metid).map fun x => refOf jvm ops x.number := by
  rw [(holds_of_run hrun).shouldRunHook_cells metid]
  refine List.map_congr_left fun x hx => ?_
  exact refOf_take (Placement.mem_collected.mp hx).1.number_lt

theorem order_of_live {jvm : Jvm} {ops : List RegistryOp} {x y : Registered} {a b : Nat}
    (hlive : ∀ k, a ≤ k → k ≤ b → x.Live jvm (ops.take k) ∧ y.Live jvm (ops.take k))
    {k k' : Nat} (metid : JmethodID) (hak : a ≤ k) (hkk' : k ≤ k') (hk'b : k' ≤ b) :
    [x, y].Sublist (Placement.collected jvm (ops.take k') metid) ↔
      [x, y].Sublist (Placement.collected jvm (ops.take k) metid) := by
  by_cases hkeys : jvm.deref x.method = jvm.deref metid ∧ jvm.deref y.method = jvm.deref metid
  · rw [Placement.pair_sublist_collected hkeys.1 hkeys.2,
      Placement.pair_sublist_collected hkeys.1 hkeys.2]
    refine Placement.pair_sublist_stretch hkk' fun n hkn hnk' => ?_
    exact hlive n (Nat.le_trans hak hkn) (Nat.le_trans hnk' hk'b)
  · -- a registration of another method is not collected at all
    have hnot : ∀ n, ¬ [x, y].Sublist (Placement.collected jvm (ops.take n) metid) := by
      intro n hsub
      have hx := Placement.mem_collected.mp (hsub.subset List.mem_cons_self)
      have hy := Placement.mem_collected.mp
        (hsub.subset (List.mem_cons_of_mem x List.mem_cons_self))
      exact hkeys ⟨hx.2, hy.2⟩
    exact iff_of_false (hnot k') (hnot k)

/-- After any completed operations the chain is as long as the peak of the live
registrations, slots are reused before any is appended, and registrations that stay live
stay in their order. -/
theorem registry_chain_stable {jvm : Jvm} {ops : List RegistryOp} {r : Registry}
    (hrun : run (registryStep jvm) initialRegistry ops = some r) : ChainStable jvm ops r where
  length := length_eq_max_liveCount hrun
  appends := by
    intro hfull method hook
    rw [registerHook_slots]
    exact fill_of_notMem _ hfull
  reuses := by
    intro before after hslots hbefore method hook
    rw [registerHook_slots, hslots]
    exact fill_append_none hbefore after _
  collects := by
    intro k
    obtain ⟨rk, hrk⟩ := run_take hrun k
    exact ⟨rk, hrk, fun metid => collects_of_run hrk metid⟩
  mem_collected := fun _ _ _ => Placement.mem_collected
  nodup_collected := fun k metid => Placement.nodup_collected jvm (ops.take k) metid
  order := fun _ _ _ _ hlive _ _ metid hak hkk' hk'b =>
    order_of_live hlive metid hak hkk' hk'b

/-- The head slot is cleared and reused, and the chain stays two slots long. -/
theorem registry_chain_stable_after_reuse :
    ∃ r, run (registryStep Jvm.plain) initialRegistry
        [.register ⟨1⟩ (some ⟨5⟩), .register ⟨2⟩ (some ⟨6⟩), .unregister ⟨1⟩ none,
          .register ⟨3⟩ (some ⟨5⟩)] = some r ∧
      r.headHookInfo.length = 2 ∧
      ChainStable Jvm.plain
        [.register ⟨1⟩ (some ⟨5⟩), .register ⟨2⟩ (some ⟨6⟩), .unregister ⟨1⟩ none,
          .register ⟨3⟩ (some ⟨5⟩)] r :=
  ⟨_, rfl, rfl, registry_chain_stable rfl⟩

end JvmHookFramework
