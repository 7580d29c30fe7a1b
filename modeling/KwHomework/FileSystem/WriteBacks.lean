import KwHomework.FileSystem.BufferCache
import KwHomework.Queue.WriteBack

/-!
# Blocks written to the disk

The blocks that a call of `buf.c` writes with `DevWriteBlock`, in order, and what is dirty behind
it.
-/

namespace KwHomework

open Function CacheLists WriteBack

/-- The blocks that a call writes, and the cache after it. -/
def BufCache.execLogged (c : BufCache) (call : CacheCall) : Option (List CInt × BufCache) :=
  (c.exec call).map fun c' => (c'.dev.written.drop c.dev.written.length, c')

theorem BufCache.execLogged_snd (c : BufCache) (call : CacheCall) :
    (c.execLogged call).map Prod.snd = c.exec call :=
  (Option.map_map _ _ _).trans (congrFun Option.map_id _)

/-! ## The log on lists -/

namespace CacheLists

/-- What an eviction writes. -/
def evictWrites (l : CacheLists) : List CInt :=
  match l.lru with
  | [] => []
  | iter :: _ => if (l.buf iter).state = .dirty then [(l.buf iter).blkno] else []

/-- What making room writes. -/
def roomWrites (l : CacheLists) : List CInt := if l.free = [] then l.evictWrites else []

/-- The blocks that a call writes. -/
def writes (l : CacheLists) : CacheCall → List CInt
  | .read blkno | .write blkno _ => if l.find blkno = none then l.roomWrites else []
  | .sync => (l.states .dirtyList).map fun buf => (l.buf buf).blkno
  | .syncBlock blkno =>
      match l.find blkno with
      | none => []
      | some buf => if (l.buf buf).state = .dirty then [(l.buf buf).blkno] else []

end CacheLists

/-! ## Dirty blocks -/

/-- The block that a call puts into the cache. -/
def CacheCall.put : CacheCall → Option CInt
  | .write blkno _ => some blkno
  | _ => none

namespace CacheLists

/-- A dirty buffer holds the block. -/
def Dirty (l : CacheLists) (blkno : CInt) : Prop :=
  ∃ buf ∈ l.lru, (l.buf buf).state = .dirty ∧ (l.buf buf).blkno = blkno

variable {l : CacheLists} {blkno : CInt}

private theorem Dirty.of_touch {buf : BufId} (member : buf ∈ l.lru)
    (dirty : (l.touch buf).Dirty blkno) :
    l.Dirty blkno := by
  obtain ⟨other, used, fields⟩ := dirty
  exact ⟨other, (Inv.mem_touch member).mp used, fields⟩

theorem Dirty.of_fill {buf : BufId} {fields : Buf} (dirty : (l.fill buf fields).Dirty blkno) :
    (fields.state = .dirty ∧ fields.blkno = blkno) ∨ l.Dirty blkno := by
  obtain ⟨other, used, state, holds⟩ := dirty
  by_cases same : other = buf
  · subst same
    simp only [CacheLists.fill, update_self] at state holds
    exact .inl ⟨state, holds⟩
  · simp only [CacheLists.fill, update_of_ne same] at state holds
    have old : other ∈ l.lru := by simpa [CacheLists.fill, same] using used
    exact .inr ⟨other, old, state, holds⟩

namespace Inv

private theorem dirty_evict (inv : l.Inv) (dirty : l.evict.Dirty blkno) :
    l.Dirty blkno ∧ blkno ∉ l.evictWrites := by
  cases nodes : l.lru with
  | nil =>
      have same : l.evict = l := by simp [CacheLists.evict, nodes]
      rw [same] at dirty
      exact ⟨dirty, by simp [evictWrites, nodes]⟩
  | cons iter rest =>
      obtain ⟨other, used, state, holds⟩ := dirty
      simp only [CacheLists.evict, nodes] at used state holds
      have old : other ∈ l.lru := by
        rw [nodes]
        exact List.mem_cons_of_mem iter used
      refine ⟨⟨other, old, state, holds⟩, ?_⟩
      have apart : (l.buf iter).blkno ≠ blkno := by
        rintro rfl
        obtain rfl := inv.distinct other old iter (by simp [nodes]) holds
        exact (List.nodup_cons.mp (nodes ▸ inv.lru_nodup)).1 used
      simp only [evictWrites, nodes]
      split_ifs <;> simp [apart.symm]

private theorem dirty_makeRoom (inv : l.Inv) (dirty : l.makeRoom.Dirty blkno) :
    l.Dirty blkno ∧ blkno ∉ l.roomWrites := by
  rw [CacheLists.makeRoom] at dirty
  rw [roomWrites]
  split_ifs at dirty ⊢
  · exact inv.dirty_evict dirty
  · exact ⟨dirty, List.not_mem_nil⟩

theorem dirty_assign (inv : l.Inv) {l' : CacheLists} {buf : BufId} {fields : Buf}
    (dirty : l'.Dirty blkno) (member : buf ∈ l.lru) (lru : l'.lru = l.lru)
    (assigned : l'.buf = update l.buf buf fields) (same : fields.blkno = (l.buf buf).blkno) :
    (fields.state = .dirty ∧ blkno = (l.buf buf).blkno) ∨
      (l.Dirty blkno ∧ blkno ≠ (l.buf buf).blkno) := by
  obtain ⟨other, used, state, holds⟩ := dirty
  rw [lru] at used
  rw [assigned] at state holds
  by_cases here : other = buf
  · subst here
    rw [update_self] at state holds
    exact .inl ⟨state, holds.symm.trans same⟩
  · rw [update_of_ne here] at state holds
    refine .inr ⟨⟨other, used, state, holds⟩, ?_⟩
    rintro rfl
    exact here (inv.distinct other used buf member holds)

private theorem dirty_read (inv : l.Inv) {b : CInt} (dirty : (l.exec (.read b)).Dirty blkno) :
    l.Dirty blkno ∧ blkno ∉ l.writes (.read b) := by
  rcases inv.read_cases b with ⟨buf, member, _, found, read⟩ | ⟨buf, rest, found, _, read⟩
  · rw [CacheLists.exec, read] at dirty
    exact ⟨dirty.of_touch member, by simp [writes, found]⟩
  · rw [CacheLists.exec, read] at dirty
    rcases dirty.of_fill with ⟨state, _⟩ | old
    · cases state
    · rw [writes, if_pos found]
      exact inv.dirty_makeRoom old

private theorem dirty_write (inv : l.Inv) {b : CInt} {pData : Block}
    (dirty : (l.exec (.write b pData)).Dirty blkno) :
    b = blkno ∨ (l.Dirty blkno ∧ blkno ∉ l.writes (.write b pData)) := by
  rw [CacheLists.exec] at dirty
  rcases inv.write_cases b pData with ⟨buf, member, rfl, found, ⟨_, write⟩ | ⟨_, write⟩⟩ |
    ⟨buf, rest, found, _, write⟩
  · have none : blkno ∉ l.writes (.write (l.buf buf).blkno pData) := by simp [writes, found]
    have marked := Dirty.of_touch (l := l.mark buf _) member (write ▸ dirty)
    rcases inv.dirty_assign marked member rfl rfl rfl with ⟨_, same⟩ | old
    · exact .inl same.symm
    · exact .inr ⟨old.1, none⟩
  · have none : blkno ∉ l.writes (.write (l.buf buf).blkno pData) := by simp [writes, found]
    have overwritten := Dirty.of_touch (l := l.overwrite buf pData) member (write ▸ dirty)
    rcases inv.dirty_assign overwritten member rfl rfl rfl with ⟨_, same⟩ | old
    · exact .inl same.symm
    · exact .inr ⟨old.1, none⟩
  · rw [write] at dirty
    rcases dirty.of_fill with ⟨_, rfl⟩ | old
    · exact .inl rfl
    · right
      rw [writes, if_pos found]
      exact inv.dirty_makeRoom old

/-- Nothing is dirty behind a `BufSync`: every dirty buffer was on the dirty list. -/
theorem not_dirty_sync (inv : l.Inv) : ¬ (l.exec .sync).Dirty blkno := by
  rintro ⟨other, used, state, _⟩
  obtain ⟨_, _, lru, states⟩ := foldl_writeBack inv
    fun buf (member : buf ∈ l.states .dirtyList) => ((inv.states_iff _ _).mp member).1
  simp only [CacheLists.exec, CacheLists.sync] at used state
  rw [lru] at used
  rw [states other] at state
  split_ifs at state with listed
  exact listed ((inv.states_iff _ _).mpr ⟨used, by rw [state]; rfl⟩)

private theorem dirty_syncBlock (inv : l.Inv) {b : CInt}
    (dirty : (l.exec (.syncBlock b)).Dirty blkno) :
    l.Dirty blkno ∧ blkno ∉ l.writes (.syncBlock b) := by
  cases found : l.find b with
  | none =>
      simp only [CacheLists.exec, CacheLists.syncBlock, found] at dirty
      exact ⟨dirty, by simp [writes, found]⟩
  | some buf =>
      obtain ⟨member, rfl⟩ := inv.find_eq_some_iff.mp found
      simp only [CacheLists.exec, CacheLists.syncBlock, found] at dirty
      cases state : (l.buf buf).state with
      | clean =>
          simp only [state] at dirty
          exact ⟨dirty, by simp [writes, found, state]⟩
      | dirty =>
          simp only [state] at dirty
          rcases inv.dirty_assign dirty member rfl rfl rfl with ⟨clean, _⟩ | ⟨old, apart⟩
          · cases clean
          · exact ⟨old, by simpa [writes, found, state] using apart⟩

/-- After a call, dirty blocks were dirty before and are not written, or they are put. -/
theorem dirty_exec (inv : l.Inv) {call : CacheCall} (dirty : (l.exec call).Dirty blkno) :
    call.put = some blkno ∨ (l.Dirty blkno ∧ blkno ∉ l.writes call) := by
  cases call with
  | read b => exact .inr (inv.dirty_read dirty)
  | write b pData => exact (inv.dirty_write dirty).imp_left (congrArg some)
  | sync => exact absurd dirty inv.not_dirty_sync
  | syncBlock b => exact .inr (inv.dirty_syncBlock dirty)

theorem dirty_of_mem_roomWrites (l : CacheLists) :
    l.roomWrites.Nodup ∧ ∀ x ∈ l.roomWrites, l.Dirty x := by
  rw [roomWrites, evictWrites]
  split_ifs
  · cases nodes : l.lru with
    | nil => simp
    | cons iter rest =>
        dsimp only
        split_ifs with state
        · refine ⟨List.nodup_singleton _, fun x member => ?_⟩
          exact ⟨iter, by simp [nodes], state, (List.mem_singleton.mp member).symm⟩
        · simp
  · simp

theorem dirty_of_mem_writes (inv : l.Inv) (call : CacheCall) :
    (l.writes call).Nodup ∧ ∀ x ∈ l.writes call, l.Dirty x := by
  cases call with
  | read b | write b _ =>
      rw [writes]
      split_ifs
      · exact dirty_of_mem_roomWrites l
      · simp
  | sync =>
      constructor
      · refine (List.nodup_map_iff_inj_on (inv.states_nodup _)).mpr
          fun buf listed other listed' same => ?_
        exact inv.distinct buf ((inv.states_iff _ _).mp listed).1 other
          ((inv.states_iff _ _).mp listed').1 same
      · intro x member
        obtain ⟨buf, listed, rfl⟩ := List.mem_map.mp member
        obtain ⟨used, state⟩ := (inv.states_iff _ _).mp listed
        exact ⟨buf, used, BufState.listNum_inj.mp state, rfl⟩
  | syncBlock b =>
      rw [writes]
      cases found : l.find b with
      | none => simp
      | some buf =>
          dsimp only
          split_ifs with state
          · refine ⟨List.nodup_singleton _, fun x member => ?_⟩
            exact ⟨buf, (inv.find_eq_some_iff.mp found).1, state,
              (List.mem_singleton.mp member).symm⟩
          · simp

/-- The device has written these blocks, and counted them. -/
structure Wrote (dev dev' : Device) (blocks : List CInt) : Prop where
  written : dev'.written = dev.written ++ blocks
  count : dev'.diskWriteCount = dev.diskWriteCount + blocks.length

private theorem wrote_nil {dev dev' : Device} (same : dev' = dev) : Wrote dev dev' [] :=
  ⟨by rw [same, List.append_nil], by rw [same, List.length_nil, Nat.add_zero]⟩

private theorem wrote_devWriteBlock (dev : Device) (blkno : CInt) (data : Block) :
    Wrote dev (dev.devWriteBlock blkno data) [blkno] := ⟨rfl, rfl⟩

private theorem Wrote.trans {dev dev' dev'' : Device} {blocks blocks' : List CInt}
    (first : Wrote dev dev' blocks) (second : Wrote dev' dev'' blocks') :
    Wrote dev dev'' (blocks ++ blocks') where
  written := by rw [second.written, first.written, List.append_assoc]
  count := by rw [second.count, first.count, List.length_append, Nat.add_assoc]

private theorem wrote_makeRoom (l : CacheLists) : Wrote l.dev l.makeRoom.dev l.roomWrites := by
  rw [CacheLists.makeRoom, roomWrites]
  split_ifs
  · rw [CacheLists.evict, evictWrites]
    cases l.lru with
    | nil => exact wrote_nil rfl
    | cons iter rest =>
        cases state : (l.buf iter).state with
        | clean => simpa [state] using wrote_nil rfl
        | dirty => simpa [state] using wrote_devWriteBlock l.dev _ _
  · exact wrote_nil rfl

private theorem wrote_writeBack (l : CacheLists) (buf : BufId) :
    Wrote l.dev (l.writeBack buf).dev [(l.buf buf).blkno] :=
  wrote_devWriteBlock l.dev _ _

private theorem wrote_foldl : ∀ (bufs : List BufId) (l : CacheLists),
    Wrote l.dev (bufs.foldl CacheLists.writeBack l).dev (bufs.map fun buf => (l.buf buf).blkno)
  | [], _ => wrote_nil rfl
  | buf :: bufs, l => by
      have kept : ∀ other, ((l.writeBack buf).buf other).blkno = (l.buf other).blkno := by
        intro other
        by_cases same : other = buf
        · simp [CacheLists.writeBack, CacheLists.mark, same]
        · simp [CacheLists.writeBack, CacheLists.mark, CacheLists.flush, same]
      have rest := (wrote_writeBack l buf).trans (wrote_foldl bufs (l.writeBack buf))
      simp only [kept] at rest
      exact rest

theorem wrote_exec (inv : l.Inv) (call : CacheCall) :
    Wrote l.dev (l.exec call).dev (l.writes call) := by
  cases call with
  | read b =>
      rcases inv.read_cases b with ⟨buf, _, _, found, read⟩ | ⟨buf, rest, found, _, read⟩
      · rw [CacheLists.exec, read, writes, if_neg (by simp [found])]
        exact wrote_nil rfl
      · rw [CacheLists.exec, read, writes, if_pos found]
        obtain ⟨written, count⟩ := wrote_makeRoom l
        exact ⟨written, count⟩
  | write b pData =>
      rcases inv.write_cases b pData with ⟨buf, _, _, found, ⟨_, write⟩ | ⟨_, write⟩⟩ |
        ⟨buf, rest, found, _, write⟩
      · rw [CacheLists.exec, write, writes, if_neg (by simp [found])]
        exact wrote_nil rfl
      · rw [CacheLists.exec, write, writes, if_neg (by simp [found])]
        exact wrote_nil rfl
      · rw [CacheLists.exec, write, writes, if_pos found]
        exact wrote_makeRoom l
  | sync => exact wrote_foldl _ l
  | syncBlock b =>
      rw [CacheLists.exec, CacheLists.syncBlock, writes]
      cases l.find b with
      | none => exact wrote_nil rfl
      | some buf =>
          cases state : (l.buf buf).state with
          | clean => simpa [state] using wrote_nil rfl
          | dirty => simpa [state] using wrote_writeBack l buf

end Inv
end CacheLists

/-! ## Runs -/

namespace BufCache

variable {c₀ c₁ c c' : BufCache} {l : CacheLists} {history : List CacheCall} {call : CacheCall}
  {trace : List (Event CInt)} {log : List CInt}

/-- A run, with the `DevWriteBlock` calls and the `BufWrite` calls in order.  A call that writes
blocks to the disk does so before it puts one into the cache. -/
inductive LoggedRun (initial : BufCache) :
    List CacheCall → List (Event CInt) → BufCache → Prop
  | nil : LoggedRun initial [] [] initial
  | snoc {history : List CacheCall} {trace : List (Event CInt)} {c c' : BufCache}
      {call : CacheCall} {log : List CInt} : LoggedRun initial history trace c →
      c.Allowed call → c.execLogged call = some (log, c') →
      LoggedRun initial (history ++ [call])
        (trace ++ log.map .flush ++ call.put.toList.map .put) c'

private theorem exec_of_logged (run : c.execLogged call = some (log, c')) :
    c.exec call = some c' := by
  rw [← execLogged_snd, run]
  rfl

/-- A run with a log is a run, -/
theorem LoggedRun.run (logged : LoggedRun c₁ history trace c) : Run c₁ history c := by
  induction logged with
  | nil => exact .nil
  | snoc _ allowed step induction => exact .snoc induction allowed (exec_of_logged step)

/-- and every run has a log. -/
theorem Run.exists_logged (run : Run c₁ history c) : ∃ trace, LoggedRun c₁ history trace c := by
  induction run with
  | nil => exact ⟨[], .nil⟩
  | snoc _ allowed step induction =>
      obtain ⟨trace, logged⟩ := induction
      rw [← execLogged_snd] at step
      obtain ⟨⟨log, _⟩, written, rfl⟩ := Option.map_eq_some_iff.mp step
      exact ⟨_, .snoc logged allowed written⟩

private theorem LoggedRun.puts_eq (logged : LoggedRun c₁ history trace c) :
    puts trace = (history.filterMap CacheCall.put).length := by
  induction logged with
  | nil => rfl
  | @snoc _ _ _ _ call log _ _ _ induction =>
      have flushed : puts (log.map .flush) = 0 := by simp [puts, Event.isPut]
      have put : puts (call.put.toList.map .put) = call.put.toList.length := by
        cases call.put <;> simp [puts, Event.isPut]
      rw [List.filterMap_append, List.length_append, ← induction, puts_append, puts_append, flushed,
        put, Nat.add_zero]
      cases call <;> rfl

/-- The lists behind a run: dirty blocks are pending, and the device counts the flushes. -/
structure Owes (c₁ c : BufCache) (trace : List (Event CInt)) (l : CacheLists) : Prop where
  shows : c.Shows l
  inv : l.Inv
  pending : ∀ x, l.Dirty x → Pending trace x
  frugal : Frugal trace
  count : l.dev.diskWriteCount = c₁.dev.diskWriteCount + flushes trace

theorem Owes.writes_eq (owes : Owes c₁ c trace l) (allowed : c.Allowed call)
    (step : c.execLogged call = some (log, c')) : log = l.writes call := by
  obtain ⟨c'', run, same⟩ := Option.map_eq_some_iff.mp step
  obtain ⟨rfl, rfl⟩ := Prod.mk.inj same
  obtain ⟨_, run', shows, _⟩ := owes.shows.exec owes.inv allowed
  obtain rfl := Option.some.inj (run.symm.trans run')
  rw [shows.dev, owes.shows.dev, (owes.inv.wrote_exec call).written, List.drop_left]

private theorem Owes.step (owes : Owes c₁ c trace l) (allowed : c.Allowed call)
    (step : c.execLogged call = some (log, c')) :
    Owes c₁ c' (trace ++ log.map .flush ++ call.put.toList.map .put) (l.exec call) := by
  obtain rfl := owes.writes_eq allowed step
  obtain ⟨c'', run, shows, inv⟩ := owes.shows.exec owes.inv allowed
  rw [exec_of_logged step, Option.some.injEq] at run
  subst run
  obtain ⟨nodup, dirty⟩ := owes.inv.dirty_of_mem_writes call
  have frugal := owes.frugal.flushAll nodup fun x member => owes.pending x (dirty x member)
  refine ⟨shows, inv, fun x dirty' => ?_, ?_, ?_⟩
  · rcases owes.inv.dirty_exec dirty' with put | ⟨old, unwritten⟩
    · rw [put, Option.toList_some, List.map_singleton]
      exact pending_put.mpr (.inl rfl)
    · have pending := pending_flushAll.mpr ⟨owes.pending x old, unwritten⟩
      cases call.put with
      | none => simpa using pending
      | some y => exact pending_put.mpr (.inr pending)
  · cases call.put with
    | none => simpa using frugal
    | some y => exact frugal.put y
  · have flushed : flushes ((l.writes call).map .flush) = (l.writes call).length := by
      simp [flushes, Event.isFlush]
    have put : flushes (call.put.toList.map .put) = 0 := by
      cases call.put <;> simp [flushes, Event.isFlush]
    rw [(owes.inv.wrote_exec call).count, owes.count, flushes_append, flushes_append, flushed, put,
      Nat.add_zero, Nat.add_assoc]

private theorem LoggedRun.owes (logged : LoggedRun c₁ history trace c)
    (init : c₀.bufInit = some c₁) :
    ∃ l, Owes c₁ c trace l := by
  induction logged with
  | nil =>
      obtain ⟨c', l, run, shows, inv, unused, _⟩ := bufInit_shows c₀
      rw [run, Option.some.injEq] at init
      subst init
      refine ⟨l, shows, inv, fun x dirty => ?_, frugal_nil, ?_⟩
      · obtain ⟨buf, used, _⟩ := dirty
        rw [unused] at used
        cases used
      · rw [shows.dev]
        rfl
  | snoc _ allowed step induction =>
      obtain ⟨l, owes⟩ := induction
      exact ⟨_, owes.step allowed step⟩

/-- Along a run, the `DevWriteBlock` calls together with the dirty buffers are at most as many as
the `BufWrite` calls, every block that is written to the disk was put into the cache since it was
written for the last time, and a `BufSync` behind a `BufSync` writes nothing. -/
theorem run_writeBacks (init : c₀.bufInit = some c₁) (logged : LoggedRun c₁ history trace c) :
    (∃ dirty, c.getBufInfoInStateList .dirtyList = some dirty ∧
      flushes trace + dirty.length ≤ (history.filterMap CacheCall.put).length) ∧
    c.dev.diskWriteCount = c₁.dev.diskWriteCount + flushes trace ∧
    Frugal trace ∧
    ∀ log c' log' c'', c.execLogged .sync = some (log, c') →
      c'.execLogged .sync = some (log', c'') →
      log' = [] ∧ c''.dev = c'.dev := by
  obtain ⟨l, owes⟩ := logged.owes init
  have inv := owes.inv
  refine ⟨⟨_, listing_eq owes.shows.states .dirtyList, ?_⟩, ?_, owes.frugal, ?_⟩
  · obtain ⟨nodup, dirty⟩ := inv.dirty_of_mem_writes .sync
    have bound := owes.frugal.flushes_add_le nodup fun x member => owes.pending x (dirty x member)
    rwa [CacheLists.writes, List.length_map, logged.puts_eq] at bound
  · rw [owes.shows.dev, owes.count]
  · intro log c' log' c'' first second
    have allowed (c : BufCache) : c.Allowed .sync := trivial
    have synced := owes.step (allowed c) first
    have clean : (l.exec .sync).states .dirtyList = [] := by
      refine List.eq_nil_iff_forall_not_mem.mpr fun buf listed => ?_
      obtain ⟨used, state⟩ := (synced.inv.states_iff _ _).mp listed
      exact inv.not_dirty_sync ⟨buf, used, BufState.listNum_inj.mp state, rfl⟩
    have again := synced.step (allowed c') second
    refine ⟨?_, ?_⟩
    · rw [synced.writes_eq (allowed c') second, CacheLists.writes, clean, List.map_nil]
    · rw [again.shows.dev, synced.shows.dev, CacheLists.exec, CacheLists.sync, clean,
        List.foldl_nil]

/-- Nineteen writes, evictions and a `BufSync`: at the end a first `BufSync` may write the block
that was written last, and a second one writes nothing. -/
theorem run_writeBacks_sweep : ∃ c₁ c trace dirty, blank.bufInit = some c₁ ∧
    LoggedRun c₁ sweep trace c ∧ c.getBufInfoInStateList .dirtyList = some dirty ∧
      flushes trace + dirty.length ≤ 19 ∧
      c.dev.diskWriteCount = c₁.dev.diskWriteCount + flushes trace ∧ Frugal trace ∧
      ∀ log c' log' c'', c.execLogged .sync = some (log, c') →
        c'.execLogged .sync = some (log', c'') → log' = [] ∧ c''.dev = c'.dev := by
  obtain ⟨c₁, c, init, run⟩ := exists_run_sweep
  obtain ⟨trace, logged⟩ := run.exists_logged
  obtain ⟨⟨dirty, listed, bound⟩, counted, frugal, again⟩ := run_writeBacks init logged
  exact ⟨c₁, c, trace, dirty, init, logged, listed, bound, counted, frugal, again⟩

end BufCache
end KwHomework
