import Mathlib.Data.List.Basic
import Mathlib.Tactic.Common

/-!
# First in, first out

A sequence of arrivals and departures.  Who leaves is the one that has been in the queue for the
longest time; from an empty queue nobody leaves.
-/

namespace Fifo

variable {α : Type*}

/-- Somebody arrives at the end of the queue, or the first one leaves it. -/
inductive Event (α : Type*) where
  | enter (x : α)
  | leave

/-- Those who have left, in order, and the queue. -/
def step : List α × List α → Event α → List α × List α
  | (gone, queue), .enter x => (gone, queue ++ [x])
  | (gone, queue), .leave => (gone ++ queue.take 1, queue.tail)

/-- Those who have left, in order. -/
def gone (events : List (Event α)) : List α := (events.foldl step ([], [])).1

/-- The queue behind the events. -/
def queue (events : List (Event α)) : List α := (events.foldl step ([], [])).2

/-- Who arrives. -/
def Event.arrival : Event α → Option α
  | .enter x => some x
  | .leave => none

/-- Those who have arrived, in order. -/
def entered (events : List (Event α)) : List α := events.filterMap Event.arrival

@[simp] theorem queue_nil : queue ([] : List (Event α)) = [] := rfl

@[simp] theorem queue_enter (events : List (Event α)) (x : α) :
    queue (events ++ [.enter x]) = queue events ++ [x] := by
  rw [queue, List.foldl_append]
  rfl

@[simp] theorem queue_leave (events : List (Event α)) :
    queue (events ++ [.leave]) = (queue events).tail := by
  rw [queue, List.foldl_append]
  rfl

/-- Everybody who arrived has left or is in the queue, once for each arrival and in the order of the
arrivals. -/
theorem gone_append_queue (events : List (Event α)) :
    gone events ++ queue events = entered events := by
  suffices ordered : ∀ state : List α × List α,
      (events.foldl step state).1 ++ (events.foldl step state).2 =
        state.1 ++ state.2 ++ entered events by
    exact ordered ([], [])
  induction events with
  | nil => exact fun state => (List.append_nil _).symm
  | cons event events induction =>
      intro state
      rw [List.foldl_cons, induction]
      cases event with
      | enter x => simp [step, entered, Event.arrival]
      | leave =>
          cases queued : state.2 with
          | nil => simp [step, entered, List.filterMap_cons, Event.arrival, queued]
          | cons x rest => simp [step, entered, List.filterMap_cons, Event.arrival, queued]

end Fifo
