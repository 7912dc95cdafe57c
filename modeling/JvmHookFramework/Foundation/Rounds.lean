/-
  Foundation/Rounds.lean --- items that are served in rounds.

  A server works in rounds.  A round starts with a list of items; they are served one at a
  time and in their order; the round stops when all of them are served, or earlier when it
  is aborted.  Only then the next one starts.  What such a server has logged is a sequence
  of rounds, all of them stopped but the last, and what it has served is the concatenation
  of what the rounds have.
-/
import Mathlib.Data.List.Basic

set_option autoImplicit false

namespace JvmHookFramework.Foundation

/-- An entry of the log. -/
inductive Entry (α : Type) where
  | start (items : List α)
  | serve (item : α)
  | stop (aborted : Bool)
  deriving DecidableEq

/-- A round: its items, how many of them were served, and whether it was aborted, once it
has stopped. -/
structure Round (α : Type) where
  items : List α
  served : Nat
  stopped : Option Bool
  deriving DecidableEq

namespace Round

variable {α : Type}

/-- The round that runs, with the index of the item to be served next. -/
def unfinished (r : List α × Nat) : Round α := ⟨r.1, r.2, none⟩

/-- No more is served than there is, and all of it unless the round is aborted. -/
structure Ok (r : Round α) : Prop where
  served_le : r.served ≤ r.items.length
  complete : r.stopped = some false → r.served = r.items.length

/-- What the round has served. -/
def delivered (r : Round α) : List α := r.items.take r.served

def log (r : Round α) : List (Entry α) :=
  .start r.items :: (r.delivered.map .serve ++ r.stopped.toList.map .stop)

/-- A round that was not aborted has served everything. -/
theorem Ok.delivered_eq {r : Round α} (h : r.Ok) (hstopped : r.stopped = some false) :
    r.delivered = r.items := by
  rw [delivered, h.complete hstopped, List.take_length]

end Round

def Entry.served? {α : Type} : Entry α → Option α
  | .serve item => some item
  | .start _ | .stop _ => none

section

variable {α : Type} {log es : List (Entry α)} {running running' : Option (List α × Nat)}
  {rounds : List (Round α)}

/-- What a step may log: the round that runs, with the index of the item to be served next,
before and after it. -/
inductive Serves : Option (List α × Nat) → List (Entry α) → Option (List α × Nat) → Prop where
  | idle {running : Option (List α × Nat)} : Serves running [] running
  | start (items : List α) : Serves none [.start items] (some (items, 0))
  | serve {items : List α} {i : Nat} {item : α} (hitem : items[i]? = some item) :
      Serves (some (items, i)) [.serve item] (some (items, i + 1))
  | stop {items : List α} {i : Nat} {aborted : Bool} (hend : aborted = true ∨ i = items.length) :
      Serves (some (items, i)) [.stop aborted] none

/-- The log of the rounds: one starts when the one before has stopped. -/
structure InRounds (log : List (Entry α)) (rounds : List (Round α)) : Prop where
  log_eq : log = rounds.flatMap Round.log
  ok : ∀ r ∈ rounds, r.Ok
  stopped : ∀ r ∈ rounds.dropLast, r.stopped ≠ none

/-- The rounds that have stopped, and the one that runs. -/
structure Running (log : List (Entry α)) (running : Option (List α × Nat))
    (rounds : List (Round α)) : Prop where
  log_eq : log = (rounds ++ running.toList.map Round.unfinished).flatMap Round.log
  stopped : ∀ r ∈ rounds, r.Ok ∧ r.stopped ≠ none
  running_le : ∀ r ∈ running, r.2 ≤ r.1.length

theorem running_nil : Running ([] : List (Entry α)) none [] := ⟨rfl, by simp, by simp⟩

theorem Running.serves (h : Running log running rounds) (hserves : Serves running es running') :
    ∃ rounds', Running (log ++ es) running' rounds' := by
  obtain ⟨hlog, hstopped, hle⟩ := h
  cases hserves with
  | idle => exact ⟨rounds, (List.append_nil log).trans hlog, hstopped, hle⟩
  | start items =>
      refine ⟨rounds, ?_, hstopped, by simp⟩
      rw [hlog]
      simp [Round.log, Round.delivered, Round.unfinished]
  | @serve items i item hitem =>
      have hlt : i < items.length := (List.getElem?_eq_some_iff.mp hitem).1
      have htake : items.take (i + 1) = items.take i ++ [item] := by
        rw [List.take_add_one, hitem, Option.toList_some]
      refine ⟨rounds, ?_, hstopped, by simpa using Nat.succ_le_of_lt hlt⟩
      rw [hlog]
      simp only [Option.toList_some, List.map_cons, List.map_nil, List.flatMap_append,
        List.flatMap_cons, List.flatMap_nil, Round.log, Round.delivered, Round.unfinished, htake,
        Option.toList_none, List.map_append, List.append_nil, List.cons_append, List.append_assoc]
  | @stop items i aborted hend =>
      refine ⟨rounds ++ [⟨items, i, some aborted⟩], ?_, fun r hr => ?_, by simp⟩
      · rw [hlog]
        simp [Round.log, Round.delivered, Round.unfinished]
      · rcases List.mem_append.mp hr with hold | hnew
        · exact hstopped r hold
        · rw [List.mem_singleton.mp hnew]
          refine ⟨⟨hle (items, i) rfl, fun hcomplete => ?_⟩, Option.some_ne_none _⟩
          rcases hend with haborted | hall
          · rw [haborted] at hcomplete
            cases hcomplete
          · exact hall

theorem Running.inRounds (h : Running log running rounds) :
    InRounds log (rounds ++ running.toList.map Round.unfinished) where
  log_eq := h.log_eq
  ok := by
    intro r hr
    rcases List.mem_append.mp hr with hold | hlast
    · exact (h.stopped r hold).1
    · obtain ⟨last, hrunning, rfl⟩ := List.mem_map.mp hlast
      exact ⟨h.running_le last (Option.mem_toList.mp hrunning), nofun⟩
  stopped := by
    intro r hr
    refine (h.stopped r ?_).2
    cases running with
    | none => exact List.dropLast_subset _ (by simpa using hr)
    | some last => simpa using hr

/-! ## What was served -/

theorem served_log (r : Round α) : r.log.filterMap Entry.served? = r.delivered := by
  unfold Round.log
  rw [List.filterMap_cons_none rfl, List.filterMap_append, List.filterMap_map, List.filterMap_map]
  have hserves : Entry.served? ∘ Entry.serve = @some α := rfl
  have hstops : Entry.served? ∘ Entry.stop = fun _ => (none : Option α) := rfl
  rw [hserves, hstops, List.filterMap_some, List.filterMap_none, List.append_nil]

theorem InRounds.served (h : InRounds log rounds) :
    log.filterMap Entry.served? = rounds.flatMap Round.delivered := by
  rw [h.log_eq, List.filterMap_flatMap]
  simp only [served_log]

end

end JvmHookFramework.Foundation
