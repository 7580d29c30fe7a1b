import Mathlib.Data.List.Basic
import Mathlib.Data.List.Nodup
import Mathlib.Tactic.Common

/-!
# Units and wake-ups

Clients take units from a pool and give units back.  A client that finds no unit goes to sleep at
the end of a queue.  A unit that comes back wakes the first sleeper but is not handed over: the
woken client looks again, and another one may have been faster.  No wake-up is lost: as long as a
client sleeps, every free unit has a woken client that will still look for it.
-/

namespace KwHomework

structure UnitPool (κ : Type*) where
  /-- The units that the pool was opened with. -/
  units : Nat
  free : Nat
  asleep : List κ
  /-- The clients that have been woken and have not looked again. -/
  woken : List κ
  taken : Nat
  given : Nat

namespace UnitPool

variable {κ : Type*} {a : UnitPool κ} {p : κ} {l : List κ}

/-- A pool that nobody has used. -/
def opened (units : Nat) : UnitPool κ := ⟨units, units, [], [], 0, 0⟩

/-- A client takes a unit or goes to sleep. -/
def enter (a : UnitPool κ) (p : κ) : UnitPool κ :=
  if a.free = 0 then { a with asleep := a.asleep ++ [p] }
  else { a with free := a.free - 1, taken := a.taken + 1 }

/-- A woken client looks again. -/
def retry [DecidableEq κ] (a : UnitPool κ) (p : κ) : UnitPool κ :=
  { a with woken := a.woken.erase p }.enter p

/-- A unit comes back. -/
def give (a : UnitPool κ) : UnitPool κ :=
  match a.asleep with
  | [] => { a with free := a.free + 1, given := a.given + 1 }
  | p :: l => { a with
      free := a.free + 1, asleep := l, woken := a.woken ++ [p], given := a.given + 1 }

/-- No unit appears or vanishes, no wake-up is lost, and no client is in two places. -/
structure Sound (a : UnitPool κ) : Prop where
  total : a.free + a.taken = a.units + a.given
  heeded : a.asleep ≠ [] → a.free ≤ a.woken.length
  nodup : (a.asleep ++ a.woken).Nodup

theorem enter_zero (gone : a.free = 0) : a.enter p = { a with asleep := a.asleep ++ [p] } :=
  if_pos gone

theorem enter_pos (left : a.free ≠ 0) :
    a.enter p = { a with free := a.free - 1, taken := a.taken + 1 } := if_neg left

theorem retry_zero [DecidableEq κ] (gone : a.free = 0) : a.retry p =
    { a with asleep := a.asleep ++ [p], woken := a.woken.erase p } := if_pos gone

theorem retry_pos [DecidableEq κ] (left : a.free ≠ 0) : a.retry p =
    { a with free := a.free - 1, woken := a.woken.erase p, taken := a.taken + 1 } := if_neg left

theorem give_nil (empty : a.asleep = []) :
    a.give = { a with free := a.free + 1, given := a.given + 1 } := by
  rw [give, empty]

theorem give_cons (front : a.asleep = p :: l) :
    a.give = { a with
      free := a.free + 1, asleep := l, woken := a.woken ++ [p], given := a.given + 1 } := by
  rw [give, front]

namespace Sound

theorem opened (units : Nat) : (opened units : UnitPool κ).Sound :=
  ⟨rfl, fun nonempty => absurd rfl nonempty, List.nodup_nil⟩

/-- A client that is not in the pool enters. -/
theorem enter (sound : a.Sound) (outside : p ∉ a.asleep ++ a.woken) : (a.enter p).Sound := by
  have total := sound.total
  by_cases gone : a.free = 0
  · rw [enter_zero gone]
    refine ⟨total, fun _ => ?_, ?_⟩
    · change a.free ≤ _
      omega
    · have rotated : (p :: (a.asleep ++ a.woken)).Nodup :=
        List.nodup_cons.mpr ⟨outside, sound.nodup⟩
      simpa using List.nodup_middle.mpr rotated
  · rw [enter_pos gone]
    refine ⟨?_, fun sleeps => ?_, sound.nodup⟩
    · change a.free - 1 + (a.taken + 1) = a.units + a.given
      omega
    · have heeded := sound.heeded sleeps
      change a.free - 1 ≤ a.woken.length
      omega

theorem give (sound : a.Sound) : a.give.Sound := by
  have total := sound.total
  cases front : a.asleep with
  | nil =>
      rw [give_nil front]
      refine ⟨?_, fun sleeps => absurd front sleeps, sound.nodup⟩
      change a.free + 1 + a.taken = a.units + (a.given + 1)
      omega
  | cons p l =>
      have heeded := sound.heeded (by simp [front])
      have nodup := sound.nodup
      rw [give_cons front]
      refine ⟨?_, fun _ => ?_, ?_⟩
      · change a.free + 1 + a.taken = a.units + (a.given + 1)
        omega
      · simpa using heeded
      · rw [front, List.cons_append] at nodup
        rw [← List.append_assoc]
        exact (List.perm_append_singleton p _).nodup_iff.mpr nodup

/-- A client sleeps beside a free unit only as long as another one has been woken. -/
theorem exists_woken (sound : a.Sound) (sleeps : a.asleep ≠ []) (left : a.free ≠ 0) :
    ∃ p, p ∈ a.woken := by
  have heeded := sound.heeded sleeps
  exact List.exists_mem_of_length_pos (by omega)

/-- A woken client takes a unit, or sleeps again at the end. -/
theorem retry [DecidableEq κ] (sound : a.Sound) (woken : p ∈ a.woken) : (a.retry p).Sound := by
  have total := sound.total
  have split := List.nodup_append.mp sound.nodup
  have length := List.length_erase_add_one woken
  have outside : p ∉ a.asleep ++ a.woken.erase p := by
    intro member
    rcases List.mem_append.mp member with asleep | still
    · exact split.2.2 p asleep p woken rfl
    · exact split.2.1.not_mem_erase still
  have nodup : (a.asleep ++ a.woken.erase p).Nodup :=
    sound.nodup.sublist (List.Sublist.append_left List.erase_sublist _)
  by_cases gone : a.free = 0
  · have sound' : Sound { a with woken := a.woken.erase p } :=
      ⟨total, fun _ => by change a.free ≤ _; omega, nodup⟩
    exact sound'.enter outside
  · rw [retry_pos gone]
    refine ⟨?_, fun sleeps => ?_, nodup⟩
    · change a.free - 1 + (a.taken + 1) = a.units + a.given
      omega
    · have heeded := sound.heeded sleeps
      change a.free - 1 ≤ (a.woken.erase p).length
      omega

end Sound
end UnitPool
end KwHomework
