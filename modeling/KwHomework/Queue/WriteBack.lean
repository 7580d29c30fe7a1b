import Mathlib.Data.List.Induction
import Mathlib.Data.List.Nodup
import Mathlib.Tactic.Common

/-!
# Writing back

A trace of a store with a slower one behind it: entries are put, and entries are flushed.  A trace
is frugal if every entry that is flushed was put since it was flushed for the last time.  Then the
flushes, together with the entries that still have to be flushed, are not more than the puts.
-/

namespace WriteBack

variable {α : Type*}

/-- An entry is put, or flushed to the slower store. -/
inductive Event (α : Type*) where
  | put (x : α)
  | flush (x : α)

/-- Whether the event is a put. -/
def Event.isPut : Event α → Bool
  | .put _ => true
  | .flush _ => false

/-- Whether the event is a flush. -/
def Event.isFlush : Event α → Bool
  | .put _ => false
  | .flush _ => true

/-- The number of puts. -/
def puts (trace : List (Event α)) : Nat := trace.countP Event.isPut

/-- The number of flushes. -/
def flushes (trace : List (Event α)) : Nat := trace.countP Event.isFlush

/-- The entry was put, and has not been flushed since. -/
def Pending (trace : List (Event α)) (x : α) : Prop :=
  ∃ before after, trace = before ++ .put x :: after ∧ .flush x ∉ after

/-- Every entry that is flushed is pending. -/
def Frugal (trace : List (Event α)) : Prop :=
  ∀ before x after, trace = before ++ .flush x :: after → Pending before x

variable {trace : List (Event α)} {x y : α}

theorem puts_append (trace trace' : List (Event α)) :
    puts (trace ++ trace') = puts trace + puts trace' := List.countP_append

theorem flushes_append (trace trace' : List (Event α)) :
    flushes (trace ++ trace') = flushes trace + flushes trace' := List.countP_append

theorem not_pending_nil : ¬ Pending ([] : List (Event α)) x := by
  rintro ⟨before, after, split, _⟩
  exact List.append_ne_nil_of_right_ne_nil before (List.cons_ne_nil _ _) split.symm

theorem frugal_nil : Frugal ([] : List (Event α)) := by
  intro before x after split
  exact absurd split.symm (List.append_ne_nil_of_right_ne_nil before (List.cons_ne_nil _ _))

private theorem concat_eq_split {event event' : Event α} {before after : List (Event α)}
    (split : trace ++ [event] = before ++ event' :: after) :
    (after = [] ∧ trace = before ∧ event = event') ∨
      ∃ rest, after = rest ++ [event] ∧ trace = before ++ event' :: rest := by
  rcases List.eq_nil_or_concat after with rfl | ⟨rest, last, rfl⟩
  · exact .inl ⟨rfl, List.append_inj_left' split rfl,
      List.singleton_inj.mp (List.append_inj_right' split rfl)⟩
  · rw [List.concat_eq_append, ← List.cons_append, ← List.append_assoc] at split
    obtain rfl := List.singleton_inj.mp (List.append_inj_right' split rfl)
    exact .inr ⟨rest, List.concat_eq_append, List.append_inj_left' split rfl⟩

theorem pending_put : Pending (trace ++ [.put y]) x ↔ x = y ∨ Pending trace x := by
  constructor
  · rintro ⟨before, after, split, kept⟩
    rcases concat_eq_split split with ⟨_, _, same⟩ | ⟨rest, rfl, same⟩
    · exact .inl (Event.put.inj same).symm
    · exact .inr ⟨before, rest, same, fun member => kept (List.mem_append_left _ member)⟩
  · rintro (rfl | ⟨before, after, rfl, kept⟩)
    · exact ⟨trace, [], rfl, List.not_mem_nil⟩
    · exact ⟨before, after ++ [.put y], by rw [List.append_assoc, List.cons_append], by
        simpa using kept⟩

theorem pending_flush : Pending (trace ++ [.flush y]) x ↔ Pending trace x ∧ x ≠ y := by
  constructor
  · rintro ⟨before, after, split, kept⟩
    rcases concat_eq_split split with ⟨_, _, same⟩ | ⟨rest, rfl, same⟩
    · cases same
    · refine ⟨⟨before, rest, same, fun member => kept (List.mem_append_left _ member)⟩, ?_⟩
      rintro rfl
      exact kept (List.mem_append_right _ (List.mem_singleton_self _))
  · rintro ⟨⟨before, after, rfl, kept⟩, other⟩
    refine ⟨before, after ++ [.flush y], by rw [List.append_assoc, List.cons_append], ?_⟩
    simp [kept, other]

theorem Frugal.put (frugal : Frugal trace) (y : α) : Frugal (trace ++ [.put y]) := by
  intro before x after split
  rcases concat_eq_split split with ⟨_, _, same⟩ | ⟨rest, _, same⟩
  · cases same
  · exact frugal before x rest same

theorem Frugal.flush (frugal : Frugal trace) (pending : Pending trace y) :
    Frugal (trace ++ [.flush y]) := by
  intro before x after split
  rcases concat_eq_split split with ⟨_, rfl, same⟩ | ⟨rest, _, same⟩
  · cases same
    exact pending
  · exact frugal before x rest same

theorem frugal_of_concat {event : Event α} (frugal : Frugal (trace ++ [event])) : Frugal trace := by
  intro before x after split
  refine frugal before x (after ++ [event]) ?_
  rw [split, List.append_assoc, List.cons_append]

/-- Flushing different entries leaves the others pending. -/
theorem pending_flushAll {flushed : List α} :
    Pending (trace ++ flushed.map .flush) x ↔ Pending trace x ∧ x ∉ flushed := by
  induction flushed using List.reverseRecOn with
  | nil => simp
  | append_singleton flushed last induction =>
      rw [List.map_append, List.map_singleton, ← List.append_assoc, pending_flush, induction,
        List.mem_append, List.mem_singleton, not_or, and_assoc]

theorem Frugal.flushAll (frugal : Frugal trace) {flushed : List α} (nodup : flushed.Nodup)
    (pending : ∀ x ∈ flushed, Pending trace x) : Frugal (trace ++ flushed.map .flush) := by
  induction flushed using List.reverseRecOn with
  | nil => simpa using frugal
  | append_singleton flushed last induction =>
      rw [List.map_append, List.map_singleton, ← List.append_assoc]
      have distinct := List.nodup_append.mp nodup
      have frugal' := induction distinct.1 fun x member => pending x (List.mem_append_left _ member)
      refine frugal'.flush (pending_flushAll.mpr ⟨pending last (by simp), fun member => ?_⟩)
      exact distinct.2.2 last member last (List.mem_singleton_self last) rfl

/-- Every flush and every pending entry is paid for by a put of its own. -/
theorem Frugal.flushes_add_le [DecidableEq α] (frugal : Frugal trace) {owed : List α}
    (nodup : owed.Nodup) (pending : ∀ x ∈ owed, Pending trace x) :
    flushes trace + owed.length ≤ puts trace := by
  induction trace using List.reverseRecOn generalizing owed with
  | nil =>
      have empty : owed = [] := List.eq_nil_iff_forall_not_mem.mpr fun x member =>
        not_pending_nil (pending x member)
      simp [empty, flushes, puts]
  | append_singleton trace event induction =>
      have frugal' := frugal_of_concat frugal
      cases event with
      | put y =>
          have rest := induction frugal' (nodup.erase y) fun x member => by
            obtain ⟨other, member⟩ := nodup.mem_erase_iff.mp member
            exact (pending_put.mp (pending x member)).resolve_left other
          have length : owed.length - 1 ≤ (owed.erase y).length := List.le_length_erase
          simp only [flushes, puts, List.countP_append] at rest ⊢
          simp [Event.isPut, Event.isFlush]
          omega
      | flush y =>
          -- the flushed entry was pending, and is none of those that still are
          have paid : Pending trace y := frugal trace y [] rfl
          have unowed : y ∉ owed := fun member =>
            (pending_flush.mp (pending y member)).2 rfl
          have pending' : ∀ x ∈ y :: owed, Pending trace x := List.forall_mem_cons.mpr
            ⟨paid, fun x member => (pending_flush.mp (pending x member)).1⟩
          have rest := induction frugal' (List.nodup_cons.mpr ⟨unowed, nodup⟩) pending'
          simp only [flushes, puts, List.countP_append, List.length_cons] at rest ⊢
          simp [Event.isPut, Event.isFlush]
          omega

end WriteBack
