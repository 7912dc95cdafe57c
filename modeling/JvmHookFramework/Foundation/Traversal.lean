/-
  Foundation/Traversal.lean --- traversals of a queue that changes meanwhile.

  A queue is a list of nodes in the order in which they were added; a node whose item was
  removed stays where it is and is empty.  An iterator holds the node that it returns next,
  so a traversal sees some of what is added and removed after it began and not all of it.
  What it visits is ordered and without repetition all the same, and it visits everything
  that was there when it began and still is when it ends.
-/
import Mathlib.Data.Option.Basic
import JvmHookFramework.Foundation.SlotChain

set_option autoImplicit false

namespace JvmHookFramework.Foundation.Traversal

open SlotChain

section

variable {α : Type}

/-! ## The queue -/

/-- Add an item at the end. -/
def add (queue : List (Option α)) (a : α) : List (Option α) := queue ++ [some a]

/-- Take the first item that satisfies `p` out of its node. -/
def remove (p : α → Bool) : List (Option α) → List (Option α)
  | [] => []
  | none :: rest => none :: remove p rest
  | some a :: rest => if p a then none :: rest else some a :: remove p rest

theorem values_add (queue : List (Option α)) (a : α) :
    values (add queue a) = values queue ++ [a] := by
  simp [values, add]

theorem values_remove (p : α → Bool) (queue : List (Option α)) :
    values (remove p queue) = (values queue).eraseP p := by
  induction queue with
  | nil => rfl
  | cons node rest ih =>
      cases node with
      | none => exact ih
      | some a =>
          rw [remove, values_some, List.eraseP_cons]
          cases p a with
          | true => rfl
          | false => exact congrArg (a :: ·) ih

@[simp] theorem length_remove (p : α → Bool) (queue : List (Option α)) :
    (remove p queue).length = queue.length := by
  induction queue with
  | nil => rfl
  | cons node rest ih =>
      cases node with
      | none => rw [remove, List.length_cons, List.length_cons, ih]
      | some a =>
          rw [remove]
          split
          · rfl
          · rw [List.length_cons, List.length_cons, ih]

/-- An item that is there after a removal was there before. -/
theorem getElem?_of_remove {p : α → Bool} {queue : List (Option α)} {i : Nat} {a : α}
    (h : (remove p queue)[i]? = some (some a)) : queue[i]? = some (some a) := by
  induction queue generalizing i with
  | nil => exact h
  | cons node rest ih =>
      cases node with
      | none =>
          cases i with
          | zero => exact h
          | succ i => exact ih h
      | some b =>
          rw [remove] at h
          split at h
          · cases i with
            | zero => cases h
            | succ i => exact h
          · cases i with
            | zero => exact h
            | succ i => exact ih h

/-- What additions and removals make of a queue: nodes stay where they are, and one that is
empty stays empty. -/
structure Later (queue queue' : List (Option α)) : Prop where
  length_le : queue.length ≤ queue'.length
  kept : ∀ i a, i < queue.length → queue'[i]? = some (some a) → queue[i]? = some (some a)

theorem Later.refl (queue : List (Option α)) : Later queue queue := ⟨le_rfl, fun _ _ _ => id⟩

theorem Later.trans {q r s : List (Option α)} (h : Later q r) (h' : Later r s) : Later q s where
  length_le := h.length_le.trans h'.length_le
  kept := fun i a hi hs => h.kept i a hi (h'.kept i a (hi.trans_le h.length_le) hs)

theorem later_add (queue : List (Option α)) (a : α) : Later queue (add queue a) where
  length_le := by simp [add]
  kept := fun i b hi h => by rwa [add, List.getElem?_append_left hi] at h

theorem later_remove (p : α → Bool) (queue : List (Option α)) : Later queue (remove p queue) where
  length_le := (length_remove p queue).ge
  kept := fun _ _ _ h => getElem?_of_remove h

/-! ## The iterator -/

/-- The first node with an item, where the nodes are numbered from `i`. -/
def firstLive : List (Option α) → Nat → Option (Nat × α)
  | [], _ => none
  | none :: rest, i => firstLive rest (i + 1)
  | some a :: _, i => some (i, a)

/-- The first node with an item from node `i` on. -/
def liveFrom (queue : List (Option α)) (i : Nat) : Option (Nat × α) := firstLive (queue.drop i) i

/-- An iterator, which has looked up the node that it returns next. -/
structure Iterator (α : Type) where
  next : Option (Nat × α)
  deriving DecidableEq

def iterator (queue : List (Option α)) : Iterator α := ⟨liveFrom queue 0⟩

/-- Return the next node and look up the one behind it. -/
def Iterator.advance (queue : List (Option α)) (it : Iterator α) :
    Option ((Nat × α) × Iterator α) :=
  it.next.map fun node => (node, ⟨liveFrom queue (node.1 + 1)⟩)

theorem firstLive_bounds {queue : List (Option α)} {i : Nat} {n : Nat × α}
    (h : firstLive queue i = some n) : i ≤ n.1 ∧ queue[n.1 - i]? = some (some n.2) := by
  induction queue generalizing i with
  | nil => cases h
  | cons node rest ih =>
      cases node with
      | none =>
          obtain ⟨hle, hitem⟩ := ih h
          refine ⟨Nat.le_of_succ_le hle, ?_⟩
          have hsucc : n.1 - i = (n.1 - (i + 1)) + 1 := by omega
          rw [hsucc, List.getElem?_cons_succ, hitem]
      | some a =>
          obtain rfl := Option.some.inj h
          exact ⟨le_rfl, by simp⟩

theorem firstLive_least {queue : List (Option α)} {i k : Nat} {a : α}
    (h : queue[k]? = some (some a)) : ∃ n, firstLive queue i = some n ∧ n.1 ≤ i + k := by
  induction queue generalizing i k with
  | nil => cases h
  | cons node rest ih =>
      cases node with
      | none =>
          cases k with
          | zero => cases h
          | succ k =>
              obtain ⟨n, hn, hle⟩ := @ih (i + 1) k h
              exact ⟨n, hn, by omega⟩
      | some b => exact ⟨(i, b), rfl, Nat.le_add_right i k⟩

theorem liveFrom_bounds {queue : List (Option α)} {i : Nat} {n : Nat × α}
    (h : liveFrom queue i = some n) : i ≤ n.1 ∧ queue[n.1]? = some (some n.2) := by
  obtain ⟨hle, hitem⟩ := firstLive_bounds h
  rw [List.getElem?_drop, Nat.add_sub_cancel' hle] at hitem
  exact ⟨hle, hitem⟩

theorem liveFrom_least {queue : List (Option α)} {i k : Nat} {a : α} (hle : i ≤ k)
    (h : queue[k]? = some (some a)) : ∃ n, liveFrom queue i = some n ∧ n.1 ≤ k := by
  have hdrop : (queue.drop i)[k - i]? = some (some a) := by
    rw [List.getElem?_drop, Nat.add_sub_cancel' hle, h]
  obtain ⟨n, hn, hbound⟩ := @firstLive_least _ _ i _ _ hdrop
  exact ⟨n, hn, by omega⟩

/-! ## What a traversal has visited -/

/-- A traversal that began on the queue `opened` has visited some nodes, in their order, and
every one with an item that is still there, up to the node its iterator holds. -/
structure Traversed (opened : List (Option α)) (visited : List (Nat × α)) (it : Iterator α)
    (queue : List (Option α)) : Prop where
  later : Later opened queue
  ordered : visited.Pairwise fun m n => m.1 < n.1
  ahead : ∀ n, it.next = some n → ∀ m ∈ visited, m.1 < n.1
  fresh : ∀ n ∈ visited, n.1 < opened.length → opened[n.1]? = some (some n.2)
  next_fresh : ∀ n, it.next = some n → n.1 < opened.length → opened[n.1]? = some (some n.2)
  covers : ∀ i a, opened[i]? = some (some a) → queue[i]? = some (some a) →
    (i, a) ∈ visited ∨ ∃ n, it.next = some n ∧ n.1 ≤ i

theorem traversed_start (queue : List (Option α)) :
    Traversed queue [] (iterator queue) queue where
  later := .refl queue
  ordered := .nil
  ahead := fun _ _ _ hm => absurd hm List.not_mem_nil
  fresh := fun _ hn => absurd hn List.not_mem_nil
  next_fresh := fun _ hn _ => (liveFrom_bounds hn).2
  covers := fun i _ hitem _ => Or.inr (liveFrom_least (Nat.zero_le i) hitem)

variable {opened queue queue' : List (Option α)} {visited : List (Nat × α)} {it it' : Iterator α}
  {node : Nat × α}

/-- Changes of the queue take nothing away from what has to be visited. -/
theorem Traversed.change (h : Traversed opened visited it queue) (hlater : Later queue queue') :
    Traversed opened visited it queue' where
  later := h.later.trans hlater
  ordered := h.ordered
  ahead := h.ahead
  fresh := h.fresh
  next_fresh := h.next_fresh
  covers := by
    intro i a hopened hqueue
    have hlt : i < opened.length := (List.getElem?_eq_some_iff.mp hopened).1
    exact h.covers i a hopened (hlater.kept i a (hlt.trans_le h.later.length_le) hqueue)

theorem Traversed.visit (h : Traversed opened visited it queue)
    (hadvance : it.advance queue = some (node, it')) :
    Traversed opened (visited ++ [node]) it' queue := by
  obtain ⟨n, hnext, heq⟩ := Option.map_eq_some_iff.mp hadvance
  obtain ⟨rfl, rfl⟩ := Prod.mk.inj heq
  constructor
  · exact h.later
  · refine List.pairwise_append.mpr ⟨h.ordered, List.pairwise_singleton _ _, ?_⟩
    intro m hm n' hn'
    rw [List.mem_singleton.mp hn']
    exact h.ahead n hnext m hm
  · intro n' hn' m hm
    have hbehind : n.1 < n'.1 := (liveFrom_bounds hn').1
    rcases List.mem_append.mp hm with hold | hnew
    · exact (h.ahead n hnext m hold).trans hbehind
    · rwa [List.mem_singleton.mp hnew]
  · intro m hm
    rcases List.mem_append.mp hm with hold | hnew
    · exact h.fresh m hold
    · rw [List.mem_singleton.mp hnew]
      exact h.next_fresh n hnext
  · intro n' hn' hlt
    exact h.later.kept _ _ hlt (liveFrom_bounds hn').2
  · intro i a hopened hqueue
    rcases h.covers i a hopened hqueue with hvisited | ⟨m, hm, hle⟩
    · exact Or.inl (List.mem_append_left _ hvisited)
    · obtain rfl := Option.some.inj (hnext.symm.trans hm)
      rcases hle.eq_or_lt with heq | hlt
      · -- The node that is returned now: its item is the one the queue began with.
        have hbound : n.1 < opened.length := heq ▸ (List.getElem?_eq_some_iff.mp hopened).1
        have hitem := h.next_fresh n hnext hbound
        rw [heq, hopened] at hitem
        have hsame : (i, a) = n := Prod.ext heq.symm (Option.some.inj (Option.some.inj hitem))
        exact Or.inl (List.mem_append_right _ (List.mem_singleton.mpr hsame))
      · exact Or.inr (liveFrom_least hlt hqueue)

end

/-! ## The log of a traverser -/

section

variable {κ α : Type}

/-- An entry of the log. -/
inductive Visit (κ α : Type) where
  | start (about : κ) (queue : List (Option α))
  | visit (about : κ) (node : Nat × α)
  | stop (aborted : Bool) (queue : List (Option α))
  deriving DecidableEq

/-- A traversal: the queue it began on, the nodes it visited, and, once it has stopped,
whether it was aborted and the queue of that moment. -/
structure Tour (κ α : Type) where
  about : κ
  opened : List (Option α)
  visited : List (Nat × α)
  stopped : Option (Bool × List (Option α))
  deriving DecidableEq

/-- No node is visited twice or out of order, no node that was empty from the start is
visited, and every one that had an item from the start to the end is, unless the traversal
is aborted. -/
structure Tour.Ok (r : Tour κ α) : Prop where
  ordered : r.visited.Pairwise fun m n => m.1 < n.1
  fresh : ∀ n ∈ r.visited, n.1 < r.opened.length → r.opened[n.1]? = some (some n.2)
  complete : ∀ queue, r.stopped = some (false, queue) → ∀ i a,
    r.opened[i]? = some (some a) → queue[i]? = some (some a) → (i, a) ∈ r.visited

def Tour.log (r : Tour κ α) : List (Visit κ α) :=
  .start r.about r.opened ::
    (r.visited.map (.visit r.about) ++ r.stopped.toList.map fun s => .stop s.1 s.2)

/-- What a step may log: the queue and the traversal that runs, before and after it. -/
inductive Traverses : List (Option α) → Option (κ × Iterator α) → List (Visit κ α) →
    List (Option α) → Option (κ × Iterator α) → Prop where
  | idle {queue queue' : List (Option α)} {running : Option (κ × Iterator α)}
      (hlater : Later queue queue') : Traverses queue running [] queue' running
  | start {queue : List (Option α)} (about : κ) :
      Traverses queue none [.start about queue] queue (some (about, iterator queue))
  | visit {queue : List (Option α)} {about : κ} {it it' : Iterator α} {node : Nat × α}
      (hadvance : it.advance queue = some (node, it')) :
      Traverses queue (some (about, it)) [.visit about node] queue (some (about, it'))
  | stop {queue : List (Option α)} {about : κ} {it : Iterator α} {aborted : Bool}
      (hend : aborted = true ∨ it.next = none) :
      Traverses queue (some (about, it)) [.stop aborted queue] queue none

/-- The log of the traversals: one starts when the one before has stopped. -/
structure InTours (log : List (Visit κ α)) (tours : List (Tour κ α)) : Prop where
  log_eq : log = tours.flatMap Tour.log
  ok : ∀ r ∈ tours, r.Ok
  stopped : ∀ r ∈ tours.dropLast, r.stopped ≠ none

/-- A traversal that runs: what its iterator holds. -/
structure Tour.Runs (queue : List (Option α)) (running : κ × Iterator α) (r : Tour κ α) :
    Prop where
  about : r.about = running.1
  unstopped : r.stopped = none
  traversed : Traversed r.opened r.visited running.2 queue

/-- The traversals that have stopped, and the one that runs. -/
structure Touring (log : List (Visit κ α)) (queue : List (Option α))
    (running : Option (κ × Iterator α)) (tours : List (Tour κ α)) (last : Option (Tour κ α)) :
    Prop where
  log_eq : log = (tours ++ last.toList).flatMap Tour.log
  stopped : ∀ r ∈ tours, r.Ok ∧ r.stopped ≠ none
  last_runs : Option.Rel (Tour.Runs queue) running last

theorem touring_nil (queue : List (Option α)) :
    Touring ([] : List (Visit κ α)) queue none [] none := ⟨rfl, by simp, .none⟩

theorem Tour.Runs.ok {queue : List (Option α)} {running : κ × Iterator α} {r : Tour κ α}
    (h : r.Runs queue running) : r.Ok where
  ordered := h.traversed.ordered
  fresh := h.traversed.fresh
  complete := fun _ hstopped => by cases h.unstopped.symm.trans hstopped

/-- It may stop when it is aborted or its iterator is exhausted. -/
theorem Tour.Runs.ok_stopped {queue : List (Option α)} {running : κ × Iterator α} {r : Tour κ α}
    {aborted : Bool} (h : r.Runs queue running)
    (hend : aborted = true ∨ running.2.next = none) :
    Tour.Ok { r with stopped := some (aborted, queue) } where
  ordered := h.traversed.ordered
  fresh := h.traversed.fresh
  complete := by
    rintro _ hfinal i a hopened hqueue
    obtain ⟨hnot, rfl⟩ := Prod.mk.inj (Option.some.inj hfinal)
    rcases h.traversed.covers i a hopened hqueue with hvisited | ⟨n, hn, _⟩
    · exact hvisited
    · rcases hend with haborted | hexhausted
      · cases haborted.symm.trans hnot
      · cases hn.symm.trans hexhausted

variable {log es : List (Visit κ α)} {queue queue' : List (Option α)}
  {running running' : Option (κ × Iterator α)} {tours : List (Tour κ α)}
  {last : Option (Tour κ α)}

theorem Touring.traverses (h : Touring log queue running tours last)
    (hstep : Traverses queue running es queue' running') :
    ∃ tours' last', Touring (log ++ es) queue' running' tours' last' := by
  obtain ⟨hlog, hstopped, hlast⟩ := h
  cases hstep with
  | idle hlater =>
      refine ⟨tours, last, by rw [List.append_nil, hlog], hstopped, ?_⟩
      cases hlast with
      | none => exact .none
      | some hruns =>
          exact .some ⟨hruns.about, hruns.unstopped, hruns.traversed.change hlater⟩
  | start about =>
      cases hlast
      refine ⟨tours, some ⟨about, queue, [], none⟩, ?_, hstopped,
        .some ⟨rfl, rfl, traversed_start queue⟩⟩
      rw [hlog]
      simp [Tour.log]
  | @visit about it it' node hadvance =>
      cases hlast with
      | @some _ r hruns =>
          refine ⟨tours, some { r with visited := r.visited ++ [node] }, ?_, hstopped,
            .some ⟨hruns.about, hruns.unstopped, hruns.traversed.visit hadvance⟩⟩
          have habout : r.about = about := hruns.about
          rw [hlog]
          simp [Tour.log, hruns.unstopped, habout]
  | @stop about it aborted hend =>
      cases hlast with
      | @some _ r hruns =>
          refine ⟨tours ++ [{ r with stopped := some (aborted, queue) }], none, ?_,
            fun r' hr' => ?_, .none⟩
          · rw [hlog]
            simp [Tour.log, hruns.unstopped]
          · rcases List.mem_append.mp hr' with hold | hnew
            · exact hstopped r' hold
            · rw [List.mem_singleton.mp hnew]
              exact ⟨hruns.ok_stopped hend, Option.some_ne_none _⟩

theorem Touring.inTours (h : Touring log queue running tours last) :
    InTours log (tours ++ last.toList) where
  log_eq := h.log_eq
  ok := by
    intro r hr
    rcases List.mem_append.mp hr with hold | hlast
    · exact (h.stopped r hold).1
    · obtain rfl := Option.mem_toList.mp hlast
      cases h.last_runs with
      | some hruns => exact hruns.ok
  stopped := by
    intro r hr
    refine (h.stopped r ?_).2
    cases last with
    | none => exact List.dropLast_subset _ (by simpa using hr)
    | some r' => simpa using hr

/-! ## What the tours are about -/

/-- What the traversal that starts is about. -/
def Visit.starts? : Visit κ α → Option κ
  | .start about _ => some about
  | .visit _ _ | .stop _ _ => none

theorem starts_log (r : Tour κ α) : r.log.filterMap Visit.starts? = [r.about] := by
  unfold Tour.log
  have hstart : (Visit.start r.about r.opened).starts? = some r.about := rfl
  rw [List.filterMap_cons_some hstart, List.filterMap_append, List.filterMap_map,
    List.filterMap_map]
  have hvisits : Visit.starts? ∘ Visit.visit (α := α) r.about = fun _ => none := rfl
  have hstops : (Visit.starts? ∘ fun s : Bool × List (Option α) => Visit.stop s.1 s.2) =
      fun _ => (none : Option κ) := rfl
  rw [hvisits, hstops, List.filterMap_none, List.filterMap_none, List.append_nil]

theorem InTours.starts (h : InTours log tours) :
    log.filterMap Visit.starts? = tours.map Tour.about := by
  rw [h.log_eq, List.filterMap_flatMap]
  simp only [starts_log]
  exact List.map_eq_flatMap.symm

end

end JvmHookFramework.Foundation.Traversal
