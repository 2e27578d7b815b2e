import Sbunix.Lib.Chain
import Sbunix.Lib.Runs
import Sbunix.Task

/-!
# The clock

What `_timer_intr_hdlr`, `runNextTask` and the calls for alarms and sleeps do to the run ring and
to the counters in its records: `Clock` has the links and the counters of all records, and the two
static counters of the handler. Every 19th interrupt completes a second, and every third of the
others switches tasks.

The walk through the ring and the searches for a predecessor follow links, so the ring has to be
one: `Valid` says that it is, and that the delete queue is apart from it. Every event keeps this
(`Valid.step`), and says what it does to the counters of a task that stays (`countersAfter`).
-/

namespace Sbunix

open Chain

/-- The counters of a record, and the handler of its alarm. -/
structure Counters where
  currAlarmCount : Nat
  expectedAlarmCount : Nat
  currSleepCount : Nat
  expectedSleepCount : Nat
  functionPointer : Nat
  deriving DecidableEq, Repr

namespace Counters

/-- The counters in a page of `kmalloc`. -/
def zeroed : Counters := ⟨0, 0, 0, 0, 0⟩

/-- `if (count >= 1) count++;` -/
def advance (count : Nat) : Nat := if 1 ≤ count then (count + 1) % 2 ^ 64 else count

/-- A second passes. -/
def tick (t : Counters) : Counters :=
  { t with currAlarmCount := advance t.currAlarmCount, currSleepCount := advance t.currSleepCount }

/-- The alarm is due. -/
def Due (t : Counters) : Prop := t.expectedAlarmCount < t.currAlarmCount

instance (t : Counters) : Decidable t.Due := inferInstanceAs (Decidable (_ < _))

/-- A zero count is never due. -/
theorem Due.ne_zero {t : Counters} (h : t.Due) : t.currAlarmCount ≠ 0 :=
  Nat.ne_of_gt (Nat.zero_lt_of_lt h)

/-- A count that started at one, after so many seconds. -/
def countAfter (elapsed : Nat) : Nat := if elapsed + 1 < 2 ^ 64 then elapsed + 1 else 0

theorem advance_countAfter (t : Nat) : advance (countAfter t) = countAfter (t + 1) := by
  rw [countAfter, countAfter, advance]
  by_cases h : t + 1 + 1 < 2 ^ 64
  · rw [if_pos (Nat.lt_of_succ_lt h), if_pos (Nat.le_add_left 1 t), if_pos h, Nat.mod_eq_of_lt h]
  · rw [if_neg h]
    by_cases h' : t + 1 < 2 ^ 64
    · -- the last value before the count passes over to zero
      have hlast : t + 1 + 1 = 2 ^ 64 := by omega
      rw [if_pos h', if_pos (Nat.le_add_left 1 t), hlast, Nat.mod_self]
    · rw [if_neg h']
      rfl

theorem lt_countAfter {n t : Nat} : n < countAfter t ↔ n ≤ t ∧ t < 2 ^ 64 - 1 := by
  rw [countAfter]
  split <;> omega

/-- What `runNextTask` does with the counters of the task that it switches to. -/
def deliver (t : Counters) : Counters :=
  if t.Due then { t with functionPointer := 0, currAlarmCount := 0, expectedAlarmCount := 0 } else t

end Counters

/-- The links and the counters of the records, and the static variables `i` and `j`. -/
structure Clock where
  next : Nat → Nat
  counters : Nat → Counters
  runningThread : Nat
  deleteQueue : Nat
  i : Nat
  j : Nat

namespace Clock

/-- The loop over the other tasks, from `temp` on. -/
def tickFrom (stop : Nat) (next : Nat → Nat) : Nat → Nat → (Nat → Counters) →
    Option (Nat → Counters)
  | 0, _, _ => none
  | fuel + 1, temp, t =>
    if temp = stop then some t
    else tickFrom stop next fuel (next temp) (Function.update t temp (t temp).tick)

/-- A second is complete: the running task first, then the others. -/
def second (c : Clock) : Option Clock :=
  (tickFrom c.runningThread c.next walkFuel (c.next c.runningThread)
    (Function.update c.counters c.runningThread (c.counters c.runningThread).tick)).map
    fun t => { c with counters := t }

/-- `runNextTask`. -/
def runNextTask (c : Clock) : Clock :=
  let task := c.next c.runningThread
  { c with
    runningThread := task
    counters := Function.update c.counters task (c.counters task).deliver }

/-- `_timer_intr_hdlr`. -/
def timerIntrHdlr (c : Clock) (mutex : Bool) : Option Clock :=
  let c := { c with i := c.i + 1, j := c.j + 1 }
  if c.i % 19 = 0 then { c with i := 0 }.second
  else if c.j % 3 = 0 then
    let c := { c with j := 0 }
    some (if mutex then c else c.runNextTask)
  else some c

/-- `addToQueue`, for a record as `kmalloc` returns it. -/
def addToQueue (c : Clock) (task : Nat) : Clock :=
  { c with
    next := Function.update (Function.update c.next task (c.next c.runningThread))
      c.runningThread task
    counters := Function.update c.counters task .zeroed }

/-- `addToDeleteQueue`. -/
def addToDeleteQueue (c : Clock) (task : Nat) : Option Clock :=
  if c.deleteQueue = 0 then
    some { c with next := Function.update c.next task 0, deleteQueue := task }
  else do
    let temp ← find c.next (fun a => c.next a == 0) walkFuel c.deleteQueue
    return { c with next := Function.update (Function.update c.next temp task) task 0 }

/-- `exit` and `exitpid`: `task` is taken off the ring and its successor runs. -/
def terminate (c : Clock) (task : Nat) : Option Clock := do
  let temp ← find c.next (fun a => c.next a == task) walkFuel task
  let c := { c with next := Function.update c.next temp (c.next (c.next temp)) }
  let temp := c.next temp
  let c ← c.addToDeleteQueue task
  return { c with runningThread := temp }

/-- `kill`: another task is taken off the ring. -/
def kill (c : Clock) (task : Nat) : Option Clock := do
  let temp ← find c.next (fun a => c.next a == c.runningThread || c.next a == task) walkFuel
    c.runningThread
  let skipped := { c with next := Function.update c.next temp (c.next (c.next temp)) }
  if c.next temp = c.runningThread then some c else skipped.addToDeleteQueue task

def modify (c : Clock) (f : Counters → Counters) : Clock :=
  { c with
    counters := Function.update c.counters c.runningThread (f (c.counters c.runningThread)) }

/-- The counters of the running task. -/
def running (c : Clock) : Counters := c.counters c.runningThread

/-- `setSleep`. -/
def setSleep (c : Clock) (seconds : Nat) : Clock :=
  c.modify fun t => { t with currSleepCount := 1, expectedSleepCount := seconds }

/-- `getCounter`, with what it returns. -/
def getCounter (c : Clock) : Nat × Clock :=
  if c.running.expectedSleepCount < c.running.currSleepCount then
    (1, c.modify fun t => { t with currSleepCount := 0, expectedSleepCount := 0 })
  else (0, c)

/-- `setAlarmFP`, for the signal 14. -/
def setAlarmFP (c : Clock) (functionPointer : Nat) : Clock :=
  c.modify fun t => { t with functionPointer := functionPointer }

/-- `setAlarm`, with what it returns. -/
def setAlarm (c : Clock) (seconds : Nat) : Nat × Clock :=
  if c.running.functionPointer = 0 then (0, c)
  else
    (if c.running.currAlarmCount ≠ 0 then
      (c.running.expectedAlarmCount + (2 ^ 64 - c.running.currAlarmCount)) % 2 ^ 64 else 0,
    c.modify fun t => { t with currAlarmCount := 1, expectedAlarmCount := seconds })

/-- What happens: a timer interrupt, or a call of the running task. -/
inductive Event
  | timer (mutex : Bool)
  | fork (task : Nat)
  | exit
  | exitpid (task : Nat)
  | kill (task : Nat)
  | setSleep (seconds : Nat)
  | getCounter
  | setAlarmFP (functionPointer : Nat)
  | setAlarm (seconds : Nat)
  deriving DecidableEq

def step (c : Clock) : Event → Option Clock
  | .timer mutex => c.timerIntrHdlr mutex
  | .fork task => some (c.addToQueue task)
  | .exit => c.terminate c.runningThread
  | .exitpid task => c.terminate task
  | .kill task => c.kill task
  | .setSleep seconds => some (c.setSleep seconds)
  | .getCounter => some c.getCounter.2
  | .setAlarmFP functionPointer => some (c.setAlarmFP functionPointer)
  | .setAlarm seconds => some (c.setAlarm seconds).2

def Event.isTimer : Event → Bool
  | .timer _ => true
  | _ => false

/-- The interrupt completes a second. -/
def Second (c : Clock) (e : Event) : Prop := e.isTimer = true ∧ (c.i + 1) % 19 = 0

/-- The interrupt switches tasks. -/
def Switches (c : Clock) (e : Event) : Prop :=
  e = .timer false ∧ (c.i + 1) % 19 ≠ 0 ∧ (c.j + 1) % 3 = 0

instance (c : Clock) (e : Event) : Decidable (c.Second e) := inferInstanceAs (Decidable (_ ∧ _))

instance (c : Clock) (e : Event) : Decidable (c.Switches e) :=
  inferInstanceAs (Decidable (_ ∧ _))

/-- The task that the event takes off the ring. -/
def leaves (c : Clock) : Event → Option Nat
  | .exit => some c.runningThread
  | .exitpid task => some task
  | .kill task => some task
  | _ => none

/-- The calls for sleeps and alarms. -/
def called (c : Clock) : Event → Clock
  | .setSleep seconds => c.setSleep seconds
  | .getCounter => c.getCounter.2
  | .setAlarmFP functionPointer => c.setAlarmFP functionPointer
  | .setAlarm seconds => (c.setAlarm seconds).2
  | _ => c

/-- **The counters of a task after a step** that leaves it on the ring. -/
def countersAfter (c : Clock) (e : Event) (a : Nat) : Counters :=
  if c.Second e then (c.counters a).tick
  else if c.Switches e ∧ a = c.next c.runningThread then (c.counters a).deliver
  else (c.called e).counters a

/-! ### The ring and the queue -/

/-- Records are pages. -/
def IsRecord (a : Nat) : Prop := ∃ f < maxFrames, a = kernbase + f * 4096

/-- **A well-formed run ring**: `L` are the tasks on it, from the running one on, and `D` those on
the delete queue. -/
structure Valid (c : Clock) (L D : List Nat) : Prop where
  ring : Ring c.next c.runningThread L
  queue : Seg c.next c.deleteQueue D 0
  nodup : (L ++ D).Nodup
  record : ∀ a ∈ L ++ D, IsRecord a

/-- **The events in question**: `fork` takes a page that holds no record, and tasks that are taken
off the ring are on it and are not alone. -/
def Admits (c : Clock) (L D : List Nat) : Event → Prop
  | .fork task => IsRecord task ∧ task ∉ L ++ D
  | .exit => L ≠ [c.runningThread]
  | .exitpid task => task ∈ L ∧ L ≠ [c.runningThread]
  | .kill task => task ∈ L ∧ task ≠ c.runningThread
  | _ => True

variable {c c' : Clock} {L D : List Nat} {a b x : Nat} {e : Event}

theorem IsRecord.ne_zero (h : IsRecord a) : a ≠ 0 := by
  obtain ⟨f, -, rfl⟩ := h
  have hk : 0 < kernbase := by decide
  omega

/-- Records are few. -/
theorem length_lt_of_records {l : List Nat} (hnd : l.Nodup) (h : ∀ a ∈ l, IsRecord a) :
    l.length < walkFuel :=
  Nat.lt_succ_of_le (length_le_of_nodes (by decide) hnd h)

theorem Valid.length_lt (h : Valid c L D) : (L ++ D).length < walkFuel :=
  length_lt_of_records h.nodup h.record

theorem Valid.length_ring_lt (h : Valid c L D) : L.length < walkFuel := by
  have := h.length_lt
  rw [List.length_append] at this
  omega

/-- Only the links of the tasks on the ring and on the queue matter. -/
theorem Valid.congr (h : Valid c L D) (hn : ∀ a ∈ L ++ D, c'.next a = c.next a)
    (hr : c'.runningThread = c.runningThread) (hq : c'.deleteQueue = c.deleteQueue) :
    Valid c' L D where
  ring := by
    rw [hr]
    exact h.ring.congr fun a ha => hn a (List.mem_append_left D ha)
  queue := by
    rw [hq]
    exact h.queue.congr fun a ha => hn a (List.mem_append_right L ha)
  nodup := h.nodup
  record := h.record

/-! ### A second -/

/-- The walk advances every task once. -/
theorem tickFrom_of_seg {stop : Nat} {next : Nat → Nat} {n b : Nat} {l : List Nat}
    {t : Nat → Counters} (h : Seg next b l stop) (hstop : stop ∉ l) (hnd : l.Nodup)
    (hn : l.length < n) :
    tickFrom stop next n b t = some fun x => if x ∈ l then (t x).tick else t x := by
  induction l generalizing b n t with
  | nil =>
    obtain ⟨n, rfl⟩ := Nat.exists_eq_succ_of_ne_zero (Nat.ne_of_gt hn)
    obtain rfl : b = stop := h
    rw [tickFrom, if_pos rfl]
    simp
  | cons y l ih =>
    obtain ⟨n, rfl⟩ := Nat.exists_eq_succ_of_ne_zero (Nat.ne_of_gt (Nat.zero_lt_of_lt hn))
    obtain ⟨rfl, h⟩ := h
    obtain ⟨hbl, hnd⟩ := List.nodup_cons.mp hnd
    have hne : b ≠ stop := fun hc => hstop (hc ▸ List.mem_cons_self)
    rw [tickFrom, if_neg hne, ih h (fun hc => hstop (List.mem_cons_of_mem b hc)) hnd
      (Nat.lt_of_succ_lt_succ hn), Option.some_inj]
    funext x
    by_cases hxb : x = b
    · subst hxb
      rw [if_neg hbl, Function.update_self, if_pos List.mem_cons_self]
    · rw [Function.update_of_ne hxb]
      simp only [List.mem_cons, hxb, false_or]

/-- **A second** advances every task on the ring exactly once, whichever is running. -/
theorem Valid.second (h : Valid c L D) :
    c.second = some { c with
      counters := fun x => if x ∈ L then (c.counters x).tick else c.counters x } := by
  obtain ⟨M, rfl⟩ := h.ring.exists_tail
  obtain ⟨hnot, hnd⟩ := List.nodup_cons.mp h.ring.nodup
  have hlen := h.length_ring_lt
  rw [List.length_cons] at hlen
  rw [Clock.second, tickFrom_of_seg h.ring.seg.2 hnot hnd (by omega), Option.map_some,
    Option.some_inj]
  congr 1
  funext x
  by_cases hx : x = c.runningThread
  · rw [hx, if_neg hnot, Function.update_self, if_pos List.mem_cons_self]
  · rw [Function.update_of_ne hx]
    simp only [List.mem_cons, hx, false_or]

/-! ### Taking tasks off -/

/-- **`addToDeleteQueue`** of a task that is on neither list. -/
theorem Valid.addToDeleteQueue (h : Valid c L D) (hx : x ∉ L ++ D) (hr : IsRecord x) :
    ∃ c', c.addToDeleteQueue x = some c' ∧ Valid c' L (D ++ [x]) ∧ c'.counters = c.counters ∧
      c'.runningThread = c.runningThread ∧ c'.i = c.i ∧ c'.j = c.j ∧
      ∀ a ∈ L, c'.next a = c.next a := by
  have hxL : x ∉ L := fun hc => hx (List.mem_append_left D hc)
  have hxD : x ∉ D := fun hc => hx (List.mem_append_right L hc)
  have hnodup : (L ++ (D ++ [x])).Nodup := by
    rw [← List.append_assoc]
    exact List.nodup_append.mpr ⟨h.nodup, List.nodup_singleton x, fun a ha b hb => by
      rw [List.mem_singleton.mp hb]
      exact fun hc => hx (hc ▸ ha)⟩
  have hrecord : ∀ a ∈ L ++ (D ++ [x]), IsRecord a := by
    intro a ha
    rw [← List.append_assoc] at ha
    rcases List.mem_append.mp ha with ha | ha
    · exact h.record a ha
    · rw [List.mem_singleton.mp ha]
      exact hr
  rw [Clock.addToDeleteQueue]
  by_cases hq : c.deleteQueue = 0
  · -- the queue was empty
    have hD : D = [] := by
      cases D with
      | nil => rfl
      | cons y D =>
        have hy := (h.record y (by simp)).ne_zero
        exact absurd (h.queue.1.symm.trans hq) hy
    subst hD
    rw [if_pos hq]
    have hne : ∀ a ∈ L, Function.update c.next x 0 a = c.next a := fun a ha =>
      Function.update_of_ne (ne_of_mem_of_not_mem ha hxL) _ _
    refine ⟨_, rfl, ⟨h.ring.congr hne, ?_, hnodup, hrecord⟩, rfl, rfl, rfl, rfl, hne⟩
    exact ⟨rfl, Function.update_self ..⟩
  · -- behind its last task
    rw [if_neg hq]
    obtain ⟨D', p, rfl⟩ : ∃ D' p, D = D' ++ [p] := by
      rcases List.eq_nil_or_concat D with hD | ⟨D', p, hD⟩
      · subst hD
        exact absurd h.queue hq
      · exact ⟨D', p, by rw [hD, List.concat_eq_append]⟩
    have hlen := h.length_lt
    rw [List.length_append, List.length_append, List.length_singleton] at hlen
    have hz : (0 : Nat) ∉ (D' ++ [p]).tail := fun hc =>
      (h.record 0 (List.mem_append_right L (List.mem_of_mem_tail hc))).ne_zero rfl
    obtain ⟨hfind, -⟩ := Seg.find_last (n := walkFuel) h.queue hz (by omega)
    have hndD := (List.nodup_append.mp h.nodup).2.1
    have hp : p ∉ D' := fun hc => (List.nodup_append.mp hndD).2.2 p hc p (by simp) rfl
    have hpL : p ∉ L := fun hc => (List.nodup_append.mp h.nodup).2.2 p hc p (by simp) rfl
    have hne : ∀ a ∈ L, Function.update (Function.update c.next p x) x 0 a = c.next a := by
      intro a ha
      rw [Function.update_of_ne (ne_of_mem_of_not_mem ha hxL),
        Function.update_of_ne (ne_of_mem_of_not_mem ha hpL)]
    rw [hfind]
    exact ⟨_, rfl, ⟨h.ring.congr hne, h.queue.snoc hp hxD, hnodup, hrecord⟩, rfl, rfl, rfl, rfl,
      hne⟩

/-- The queue does not depend on who is running. -/
theorem addToDeleteQueue_running (c : Clock) (r x : Nat) :
    { c with runningThread := r }.addToDeleteQueue x =
      (c.addToDeleteQueue x).map fun c => { c with runningThread := r } := by
  rw [Clock.addToDeleteQueue, Clock.addToDeleteQueue]
  dsimp only
  split
  · rfl
  · cases find c.next (fun a => c.next a == 0) walkFuel c.deleteQueue <;> rfl

/-- **Taking a task off**, where the link of `p` has been redirected so that the ring is without
it. -/
theorem Valid.unlink {L' : List Nat} {p v r : Nat} (h : Valid c L D) (hperm : L.Perm (x :: L'))
    (hp : p ∈ L) (hring : Ring (Function.update c.next p v) r L') :
    ∃ c', { c with next := Function.update c.next p v, runningThread := r }.addToDeleteQueue x =
        some c' ∧ Valid c' L' (D ++ [x]) ∧ c'.counters = c.counters ∧ c'.i = c.i ∧ c'.j = c.j ∧
      c'.runningThread = r ∧ ∀ a, a ∈ L' ↔ a ∈ L ∧ a ≠ x := by
  have hnd : (x :: (L' ++ D)).Nodup := (hperm.append_right D).nodup_iff.mp h.nodup
  rw [List.nodup_cons] at hnd
  have hpD : p ∉ D := fun hc => (List.nodup_append.mp h.nodup).2.2 p hp p hc rfl
  have hmem : ∀ a, a ∈ L' ↔ a ∈ L ∧ a ≠ x := by
    intro a
    rw [hperm.mem_iff, List.mem_cons]
    constructor
    · intro ha
      exact ⟨Or.inr ha, fun hc => hnd.1 (hc ▸ List.mem_append_left D ha)⟩
    · rintro ⟨ha, hne⟩
      exact ha.resolve_left hne
  have hvalid : Valid { c with next := Function.update c.next p v, runningThread := r } L' D := by
    refine ⟨hring, h.queue.congr fun a ha => ?_, hnd.2, fun a ha => h.record a ?_⟩
    · exact Function.update_of_ne (ne_of_mem_of_not_mem ha hpD) _ _
    · rcases List.mem_append.mp ha with ha | ha
      · exact List.mem_append_left D ((hmem a).mp ha).1
      · exact List.mem_append_right L ha
  have hx : x ∈ L := hperm.mem_iff.mpr List.mem_cons_self
  obtain ⟨c', hc', hv, hcount, hrun, hi, hj, -⟩ :=
    hvalid.addToDeleteQueue hnd.1 (h.record x (List.mem_append_left D hx))
  exact ⟨c', hc', hv, hcount, hi, hj, hrun, hmem⟩

/-- **`terminate`** of a task on a ring of at least two: the ring is read on from its successor. -/
theorem Valid.terminate_ring (h : Valid c L D) (hx : x ∈ L) (hL : L ≠ [c.runningThread]) :
    ∃ c' L', c.terminate x = some c' ∧ Valid c' L' (D ++ [x]) ∧ c'.counters = c.counters ∧
      c'.i = c.i ∧ c'.j = c.j ∧ c'.runningThread = c.next x ∧ (∀ a, a ∈ L' ↔ a ∈ L ∧ a ≠ x) ∧ Ring c.next x (x :: L') := by
  obtain ⟨L₁, hring, hperm⟩ := h.ring.of_mem hx
  obtain ⟨M, rfl⟩ := hring.exists_tail
  -- somebody else is on the ring
  have hM : M ≠ [] := by
    rintro rfl
    obtain ⟨M', rfl⟩ := h.ring.exists_tail
    have hlen := hperm.length_eq
    rw [List.length_singleton, List.length_cons] at hlen
    exact hL (by rw [List.length_eq_zero_iff.mp (by omega : M'.length = 0)])
  obtain ⟨m, p, rfl⟩ := (List.eq_nil_or_concat' M).resolve_left hM
  have hlen := h.length_lt
  have hplen := hperm.length_eq
  rw [List.length_append] at hlen
  rw [List.length_cons, List.length_append, List.length_singleton] at hplen
  obtain ⟨hfind, hback⟩ := hring.find_last (n := walkFuel) (by omega)
  -- the ring without the task, read from its successor
  have hring' : Ring (Function.update c.next p (c.next (c.next p))) (c.next x) (m ++ [p]) := by
    rw [hback]
    exact hring.remove
  obtain ⟨c', hc', hv, hcount, hi, hj, hrun, hmem⟩ :=
    h.unlink hperm.symm (hperm.mem_iff.mp (by simp)) hring'
  refine ⟨c', m ++ [p], ?_, hv, hcount, hi, hj, hrun, hmem, hring⟩
  have hself : Function.update c.next p (c.next (c.next p)) p = c.next x := by
    rw [Function.update_self, hback]
  rw [Clock.terminate, hfind]
  obtain ⟨c₁, hc₁, rfl⟩ := Option.map_eq_some_iff.mp
    ((addToDeleteQueue_running { c with next := Function.update c.next p (c.next (c.next p)) }
      (c.next x) x).symm.trans hc')
  simp only [Option.bind_eq_bind, Option.bind_some, hc₁, hself]
  rfl

theorem Valid.terminate (h : Valid c L D) (hx : x ∈ L) (hL : L ≠ [c.runningThread]) :
    ∃ c' L', c.terminate x = some c' ∧ Valid c' L' (D ++ [x]) ∧ c'.counters = c.counters ∧
      c'.i = c.i ∧ c'.j = c.j ∧ c'.runningThread = c.next x ∧ ∀ a, a ∈ L' ↔ a ∈ L ∧ a ≠ x := by
  obtain ⟨c', L', hc', hv, hcount, hi, hj, hrun, hmem, -⟩ := h.terminate_ring hx hL
  exact ⟨c', L', hc', hv, hcount, hi, hj, hrun, hmem⟩

/-- **`kill`** of another task on the ring: the others stay in order. -/
theorem Valid.kill_ring (h : Valid c L D) (hx : x ∈ L) (hne : x ≠ c.runningThread) :
    ∃ c', c.kill x = some c' ∧ Valid c' (L.erase x) (D ++ [x]) ∧ c'.counters = c.counters ∧
      c'.i = c.i ∧ c'.j = c.j ∧ c'.runningThread = c.runningThread ∧
      ∀ a, a ∈ L.erase x ↔ a ∈ L ∧ a ≠ x := by
  obtain ⟨l₁, l₂, rfl⟩ := List.append_of_mem hx
  obtain ⟨m, p, rfl⟩ : ∃ m p, l₁ = m ++ [p] := by
    refine (List.eq_nil_or_concat' l₁).resolve_left ?_
    rintro rfl
    exact hne h.ring.head.symm
  have hring : Ring c.next c.runningThread (m ++ p :: x :: l₂) := by
    have := h.ring
    rwa [List.append_assoc, List.singleton_append] at this
  obtain ⟨b, h₁, h₂⟩ := seg_append.mp hring.seg
  obtain ⟨rfl, hpx, -⟩ : b = p ∧ c.next p = x ∧ _ := ⟨h₂.1, h₂.2.1, trivial⟩
  have hnd := hring.nodup
  have hlen := h.length_ring_lt
  simp only [List.length_append, List.length_cons, List.length_nil] at hlen
  -- the search stops at the predecessor
  have hsearch : ∀ y ∈ m, (c.next y == c.runningThread || c.next y == x) = false := by
    intro y hy
    have hseg : Seg c.next c.runningThread (m ++ [b]) x := seg_append.mpr ⟨b, h₁, rfl, hpx⟩
    have htail := hseg.next_mem_tail hy
    have hrx : c.next y ≠ x := by
      intro hc
      have hmb := List.mem_of_mem_tail (hc ▸ htail)
      rw [← List.singleton_append, ← List.append_assoc] at hnd
      exact (List.nodup_append.mp hnd).2.2 x hmb x List.mem_cons_self rfl
    have hrr : c.next y ≠ c.runningThread := by
      intro hc
      obtain ⟨z, m', rfl⟩ := List.exists_cons_of_ne_nil (List.ne_nil_of_mem hy)
      obtain rfl : c.runningThread = z := h₁.1
      rw [List.cons_append, List.tail_cons, hc] at htail
      rw [List.cons_append, List.nodup_cons] at hnd
      refine hnd.1 (List.mem_append.mpr ((List.mem_append.mp htail).imp_right fun hm => ?_))
      rw [List.mem_singleton.mp hm]
      exact List.mem_cons_self
    rw [beq_eq_false_iff_ne.mpr hrr, beq_eq_false_iff_ne.mpr hrx, Bool.or_self]
  have hfind := find_of_seg (n := walkFuel) h₁ hsearch (by simp [hpx]) (by omega)
  -- what is left of the ring
  have hperm : (m ++ [b] ++ x :: l₂).Perm (x :: (m ++ b :: l₂)) := by
    have := @List.perm_middle _ x (m ++ [b]) l₂
    rwa [List.append_assoc m [b] l₂, List.singleton_append] at this
  have hring' : Ring (Function.update c.next b (c.next (c.next b))) c.runningThread
      (m ++ b :: l₂) := by
    rw [hpx]
    exact hring.skip
  have herase : (m ++ [b] ++ x :: l₂).erase x = m ++ b :: l₂ := by
    have hxm : x ∉ m ++ [b] := fun hc => by
      rw [← List.singleton_append, ← List.append_assoc] at hnd
      exact (List.nodup_append.mp hnd).2.2 x hc x List.mem_cons_self rfl
    rw [List.erase_append_right _ hxm, List.erase_cons_head, List.append_assoc,
      List.singleton_append]
  obtain ⟨c', hc', hv, hcount, hi, hj, hrun, hmem⟩ := h.unlink hperm (by simp) hring'
  rw [← herase] at hv hmem
  refine ⟨c', ?_, hv, hcount, hi, hj, hrun, hmem⟩
  rw [Clock.kill, hfind]
  simp only [Option.bind_eq_bind, Option.bind_some, hpx, if_neg hne]
  rw [hpx] at hc'
  exact hc'

theorem Valid.kill (h : Valid c L D) (hx : x ∈ L) (hne : x ≠ c.runningThread) :
    ∃ c' L', c.kill x = some c' ∧ Valid c' L' (D ++ [x]) ∧ c'.counters = c.counters ∧
      c'.i = c.i ∧ c'.j = c.j ∧ c'.runningThread = c.runningThread ∧
      ∀ a, a ∈ L' ↔ a ∈ L ∧ a ≠ x := by
  obtain ⟨c', hc', hv⟩ := h.kill_ring hx hne
  exact ⟨c', _, hc', hv⟩

/-! ### The other steps -/

/-- **A fork**: the child is behind the running task, with its counters zero. -/
theorem Valid.addToQueue (h : Valid c L D) (hr : IsRecord x) (hx : x ∉ L ++ D) :
    ∃ L', Valid (c.addToQueue x) L' D ∧ ∀ a, a ∈ L' ↔ a = x ∨ a ∈ L := by
  obtain ⟨M, rfl⟩ := h.ring.exists_tail
  have hperm : (c.runningThread :: x :: M).Perm (x :: c.runningThread :: M) := List.Perm.swap ..
  have hrun : c.runningThread ∉ D := fun hc =>
    (List.nodup_append.mp h.nodup).2.2 _ List.mem_cons_self _ hc rfl
  refine ⟨c.runningThread :: x :: M, ⟨?_, h.queue.congr fun a ha => ?_, ?_, fun a ha => ?_⟩,
    fun a => by rw [hperm.mem_iff, List.mem_cons]⟩
  · exact h.ring.insert fun hc => hx (List.mem_append_left D hc)
  · -- neither link is one of the queue
    have hax : a ≠ x := ne_of_mem_of_not_mem ha fun hc => hx (List.mem_append_right _ hc)
    exact (Function.update_of_ne (ne_of_mem_of_not_mem ha hrun) _ _).trans
      (Function.update_of_ne hax _ _)
  · exact (hperm.append_right D).nodup_iff.mpr (List.nodup_cons.mpr ⟨hx, h.nodup⟩)
  · rcases List.mem_cons.mp ((hperm.append_right D).mem_iff.mp ha) with rfl | ha
    · exact hr
    · exact h.record a ha

theorem Valid.runNextTask (h : Valid c L D) :
    ∃ L', Valid c.runNextTask L' D ∧ ∀ a, a ∈ L' ↔ a ∈ L := by
  obtain ⟨M, rfl⟩ := h.ring.exists_tail
  have hperm : (M ++ [c.runningThread]).Perm (c.runningThread :: M) := List.perm_append_comm
  refine ⟨M ++ [c.runningThread], ⟨h.ring.step, h.queue,
    (hperm.append_right D).nodup_iff.mpr h.nodup, fun a ha => ?_⟩, fun a => hperm.mem_iff⟩
  exact h.record a ((hperm.append_right D).mem_iff.mp ha)

/-- **What a step does**: the ring stays a ring, a task is on it afterwards unless it is the one
taken off, and its counters are those of `countersAfter`; a task that was not on it is a child with
its counters zero. -/
structure Steps (c : Clock) (L : List Nat) (e : Event) (c' : Clock) (L' D' : List Nat) : Prop where
  valid : Valid c' L' D'
  stays : ∀ a ∈ L, c.leaves e ≠ some a → a ∈ L'
  arrives : ∀ a ∈ L', a ∈ L ∨ e = .fork a ∧ c'.counters a = .zeroed
  counters : ∀ a ∈ L, c.leaves e ≠ some a → c'.counters a = c.countersAfter e a

/-- An interrupt. -/
theorem Valid.timer (h : Valid c L D) (mutex : Bool) :
    ∃ c' L' D', c.timerIntrHdlr mutex = some c' ∧ Steps c L (.timer mutex) c' L' D' := by
  rw [timerIntrHdlr]
  dsimp only
  by_cases hs : (c.i + 1) % 19 = 0
  · -- a second is complete
    have hv : Valid { c with i := 0, j := c.j + 1 } L D := h.congr (fun _ _ => rfl) rfl rfl
    rw [if_pos hs]
    refine ⟨_, L, D, hv.second, hv.congr (fun _ _ => rfl) rfl rfl, fun a ha _ => ha,
      fun a ha => Or.inl ha, ?_⟩
    intro a ha _
    rw [countersAfter, if_pos ⟨rfl, hs⟩]
    exact if_pos ha
  · have hsec : ¬ c.Second (.timer mutex) := fun hc => hs hc.2
    rw [if_neg hs]
    by_cases hj : (c.j + 1) % 3 = 0
    · have hv : Valid { c with i := c.i + 1, j := 0 } L D := h.congr (fun _ _ => rfl) rfl rfl
      rw [if_pos hj]
      cases mutex with
      | true =>
        refine ⟨{ c with i := c.i + 1, j := 0 }, L, D, rfl, hv, fun a ha _ => ha,
          fun a ha => Or.inl ha, fun a _ _ => ?_⟩
        have hsw : ¬ c.Switches (.timer true) := fun hc => by cases hc.1
        rw [countersAfter, if_neg hsec, if_neg fun hc => hsw hc.1]
        rfl
      | false =>
        -- the next task runs
        obtain ⟨L', hv', hmem⟩ := hv.runNextTask
        refine ⟨Clock.runNextTask { c with i := c.i + 1, j := 0 }, L', D, rfl, hv',
          fun a ha _ => (hmem a).mpr ha, fun a ha => Or.inl ((hmem a).mp ha), fun a _ _ => ?_⟩
        have hsw : c.Switches (.timer false) := ⟨rfl, hs, hj⟩
        rw [countersAfter, if_neg hsec]
        by_cases ha : a = c.next c.runningThread
        · rw [if_pos ⟨hsw, ha⟩, ha]
          exact Function.update_self ..
        · rw [if_neg fun hc => ha hc.2]
          exact Function.update_of_ne ha _ _
    · have hv : Valid { c with i := c.i + 1, j := c.j + 1 } L D :=
        h.congr (fun _ _ => rfl) rfl rfl
      rw [if_neg hj]
      refine ⟨_, L, D, rfl, hv, fun a ha _ => ha, fun a ha => Or.inl ha, fun a _ _ => ?_⟩
      rw [countersAfter, if_neg hsec, if_neg fun hc => hj hc.1.2.2]
      rfl

theorem countersAfter_of_not_timer (he : e.isTimer = false) :
    c.countersAfter e a = (c.called e).counters a := by
  have hsec : ¬ c.Second e := fun hc => Bool.false_ne_true (he.symm.trans hc.1)
  have hsw : ¬ c.Switches e := fun hc => by
    rw [hc.1] at he
    cases he
  rw [countersAfter, if_neg hsec, if_neg fun hc => hsw hc.1]

/-- The calls write no link, and no counters but those of the running task. -/
theorem called_frame (c : Clock) (e : Event) :
    (c.called e).next = c.next ∧ (c.called e).runningThread = c.runningThread ∧
      (c.called e).deleteQueue = c.deleteQueue ∧ (c.called e).i = c.i ∧ (c.called e).j = c.j ∧
      ∀ a ≠ c.runningThread, (c.called e).counters a = c.counters a := by
  have hmodify : ∀ f, ∀ a ≠ c.runningThread, (c.modify f).counters a = c.counters a :=
    fun f a ha => Function.update_of_ne ha _ _
  cases e with
  | setSleep seconds =>
    rw [called, setSleep]
    exact ⟨rfl, rfl, rfl, rfl, rfl, hmodify _⟩
  | getCounter =>
    rw [called, getCounter]
    split <;> dsimp only
    · exact ⟨rfl, rfl, rfl, rfl, rfl, hmodify _⟩
    · exact ⟨rfl, rfl, rfl, rfl, rfl, fun _ _ => rfl⟩
  | setAlarmFP functionPointer =>
    rw [called, setAlarmFP]
    exact ⟨rfl, rfl, rfl, rfl, rfl, hmodify _⟩
  | setAlarm seconds =>
    rw [called, setAlarm]
    split <;> dsimp only
    · exact ⟨rfl, rfl, rfl, rfl, rfl, fun _ _ => rfl⟩
    · exact ⟨rfl, rfl, rfl, rfl, rfl, hmodify _⟩
  | _ => exact ⟨rfl, rfl, rfl, rfl, rfl, fun _ _ => rfl⟩

theorem Valid.called (h : Valid c L D) (e : Event) : Valid (c.called e) L D := by
  obtain ⟨hn, hr, hq, -⟩ := c.called_frame e
  exact h.congr (fun a _ => congrFun hn a) hr hq

/-- A step that is no interrupt, from what it leaves of the ring. -/
theorem Steps.of_not_timer {L' D' : List Nat} (he : e.isTimer = false) (hv : Valid c' L' D')
    (hstays : ∀ a ∈ L, c.leaves e ≠ some a → a ∈ L')
    (harrives : ∀ a ∈ L', a ∈ L ∨ e = .fork a ∧ c'.counters a = .zeroed)
    (hc : ∀ a ∈ L, c'.counters a = (c.called e).counters a) : Steps c L e c' L' D' :=
  ⟨hv, hstays, harrives, fun a ha _ => (hc a ha).trans (countersAfter_of_not_timer he).symm⟩

/-- A call for a sleep or an alarm. -/
theorem Valid.call (h : Valid c L D) (he : e.isTimer = false) : Steps c L e (c.called e) L D :=
  .of_not_timer he (h.called e) (fun _ ha _ => ha) (fun _ ha => Or.inl ha) fun _ _ => rfl

/-- A task is taken off. -/
theorem Steps.of_leaves {L' D' : List Nat} (he : e.isTimer = false) (hl : c.leaves e = some x)
    (hcall : c.called e = c) (hv : Valid c' L' D') (hcount : c'.counters = c.counters)
    (hmem : ∀ a, a ∈ L' ↔ a ∈ L ∧ a ≠ x) : Steps c L e c' L' D' := by
  refine .of_not_timer he hv (fun a ha hne => ?_) (fun a ha => Or.inl ((hmem a).mp ha).1)
    fun a _ => by rw [hcount, hcall]
  exact (hmem a).mpr ⟨ha, fun hc => hne (hl.trans (congrArg some hc.symm))⟩

/-- **Every admitted step completes.** -/
theorem Valid.step (h : Valid c L D) (ha : c.Admits L D e) :
    ∃ c' L' D', c.step e = some c' ∧ Steps c L e c' L' D' := by
  cases e with
  | timer mutex => exact h.timer mutex
  | fork task =>
    obtain ⟨L', hv, hmem⟩ := h.addToQueue ha.1 ha.2
    refine ⟨_, L', D, rfl, .of_not_timer rfl hv (fun a hL _ => (hmem a).mpr (Or.inr hL)) ?_ ?_⟩
    · intro a hL
      refine ((hmem a).mp hL).symm.imp_right ?_
      rintro rfl
      exact ⟨rfl, Function.update_self ..⟩
    · intro a hL
      -- the child was not on the ring
      have hne : a ≠ task := by
        rintro rfl
        exact ha.2 (List.mem_append_left D hL)
      exact Function.update_of_ne hne _ _
  | exit =>
    obtain ⟨c', L', hc', hv, hcount, -, -, -, hmem⟩ := h.terminate h.ring.mem ha
    exact ⟨c', L', _, hc', .of_leaves rfl rfl rfl hv hcount hmem⟩
  | exitpid task =>
    obtain ⟨c', L', hc', hv, hcount, -, -, -, hmem⟩ := h.terminate ha.1 ha.2
    exact ⟨c', L', _, hc', .of_leaves rfl rfl rfl hv hcount hmem⟩
  | kill task =>
    obtain ⟨c', L', hc', hv, hcount, -, -, -, hmem⟩ := h.kill ha.1 ha.2
    exact ⟨c', L', _, hc', .of_leaves rfl rfl rfl hv hcount hmem⟩
  | setSleep seconds => exact ⟨_, L, D, rfl, h.call (e := .setSleep seconds) rfl⟩
  | getCounter => exact ⟨_, L, D, rfl, h.call (e := .getCounter) rfl⟩
  | setAlarmFP functionPointer =>
    exact ⟨_, L, D, rfl, h.call (e := .setAlarmFP functionPointer) rfl⟩
  | setAlarm seconds => exact ⟨_, L, D, rfl, h.call (e := .setAlarm seconds) rfl⟩

/-- Who runs after an interrupt. -/
theorem timerIntrHdlr_running {mutex : Bool} (h : c.timerIntrHdlr mutex = some c') :
    c'.runningThread =
      if c.Switches (.timer mutex) then c.next c.runningThread else c.runningThread := by
  rw [timerIntrHdlr] at h
  dsimp only at h
  by_cases hs : (c.i + 1) % 19 = 0
  · rw [if_pos hs] at h
    rw [if_neg fun hc => hc.2.1 hs]
    obtain ⟨t, -, rfl⟩ := Option.map_eq_some_iff.mp h
    rfl
  rw [if_neg hs] at h
  by_cases hj : (c.j + 1) % 3 = 0
  · rw [if_pos hj] at h
    obtain rfl := Option.some.inj h
    cases mutex with
    | true =>
      have hsw : ¬ c.Switches (.timer true) := fun hc => Bool.noConfusion (Event.timer.inj hc.1)
      rw [if_neg hsw]
      rfl
    | false =>
      have hsw : c.Switches (.timer false) := ⟨rfl, hs, hj⟩
      rw [if_pos hsw]
      rfl
  · rw [if_neg hj] at h
    rw [if_neg fun hc => hj hc.2.2]
    obtain rfl := Option.some.inj h
    rfl

/-- An interrupt that finds the mutex held switches no task. -/
theorem timerIntrHdlr_held (h : c.timerIntrHdlr true = some c') :
    c'.runningThread = c.runningThread ∧ c'.i = if (c.i + 1) % 19 = 0 then 0 else c.i + 1 := by
  rw [timerIntrHdlr] at h
  dsimp only at h
  split at h
  · obtain ⟨t, -, rfl⟩ := Option.map_eq_some_iff.mp h
    exact ⟨rfl, (if_pos ‹_›).symm⟩
  · rw [if_neg ‹_›]
    split at h <;> obtain rfl := Option.some.inj h <;> exact ⟨rfl, rfl⟩

/-! ### A task alone -/

/-- The clock of a task alone on the ring, which never slept. -/
def alone : Clock where
  next _ := kernbase + 4096
  counters _ := .zeroed
  runningThread := kernbase + 4096
  deleteQueue := 0
  i := 0
  j := 0

theorem alone_valid : alone.Valid [alone.runningThread] [] where
  ring := ⟨List.cons_ne_nil _ _, List.nodup_singleton _, rfl, rfl⟩
  queue := rfl
  nodup := List.nodup_singleton _
  record a ha := by
    rw [List.append_nil, List.mem_singleton] at ha
    exact ⟨1, by decide, ha⟩

end Clock

end Sbunix
