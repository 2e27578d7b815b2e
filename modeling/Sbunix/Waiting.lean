import Sbunix.Frames
import Sbunix.KernelClock
import Sbunix.Lib.Turns

/-!
# Waiting for the processor

The ring is served in turn, from the running task on: a task waits for those in front of it. A child
comes in behind its parent and delays everybody else by one turn, and a Ctrl-C hands the turn to the
successor of its victim, which may send a task a whole round back.

Turns are passed on by every third interrupt, but not by one that completes a second, so that six
interrupts in a row switch once at least (`untilSwitch_le`). Both together bound how long a task
waits (`gets_turn`), in every history of the ring. The calls of `exec` are among the events here.
-/

namespace Sbunix

open Chain Runs Turns

namespace Clock

/-- The run ring, read along the links from the running task on. -/
def ring (c : Clock) : List Nat :=
  c.runningThread ::
    (collect c.next (· == c.runningThread) walkFuel (c.next c.runningThread)).getD []

/-- `deleteRunningThreadAndJump`, for a record as `kmalloc` returns it. -/
def deleteRunningThreadAndJump (c : Clock) (task : Nat) : Option Clock := do
  let c := { c with
    next := Function.update c.next task (c.next c.runningThread)
    counters := Function.update c.counters task .zeroed }
  let temp ← find c.next (fun a => c.next a == c.runningThread) walkFuel c.runningThread
  return { c with next := Function.update c.next temp task, runningThread := task }

/-- The interrupts up to the next one that switches, if none finds the mutex held. -/
def untilSwitch (c : Clock) : Nat :=
  let n := 2 - c.j % 3
  if (c.i + n + 1) % 19 = 0 then n + 4 else n + 1

variable {c c' : Clock} {L D : List Nat} {a x : Nat} {mutex : Bool}

theorem Valid.ring_eq (h : Valid c L D) : c.ring = L := by
  obtain ⟨M, rfl⟩ := h.ring.exists_tail
  have hnd := List.nodup_cons.mp h.ring.nodup
  have hlen := h.length_ring_lt
  rw [List.length_cons] at hlen
  have hc := collect_of_seg (q := (· == c.runningThread)) (n := walkFuel) h.ring.seg.2
    (fun y hy => beq_false_of_ne fun hc => hnd.1 (hc ▸ hy)) (beq_self_eq_true _) (by omega)
  rw [Clock.ring, hc, Option.getD_some]

/-! ### Interrupts -/

/-- What an interrupt leaves alone, and the static variables afterwards. -/
theorem timerIntrHdlr_frame (h : c.timerIntrHdlr mutex = some c') :
    c'.next = c.next ∧ c'.deleteQueue = c.deleteQueue ∧
      c'.i = (if (c.i + 1) % 19 = 0 then 0 else c.i + 1) ∧
      c'.j = if (c.i + 1) % 19 = 0 then c.j + 1 else if (c.j + 1) % 3 = 0 then 0 else c.j + 1 := by
  rw [timerIntrHdlr] at h
  dsimp only at h
  by_cases hs : (c.i + 1) % 19 = 0
  · rw [if_pos hs] at h
    obtain ⟨t, -, rfl⟩ := Option.map_eq_some_iff.mp h
    exact ⟨rfl, rfl, (if_pos hs).symm, (if_pos hs).symm⟩
  rw [if_neg hs] at h
  by_cases hj : (c.j + 1) % 3 = 0
  · rw [if_pos hj] at h
    obtain rfl := Option.some.inj h
    simp only [if_neg hs, if_pos hj]
    cases mutex <;> exact ⟨rfl, rfl, rfl, rfl⟩
  · rw [if_neg hj] at h
    obtain rfl := Option.some.inj h
    simp only [if_neg hs, if_neg hj]
    exact ⟨trivial, trivial, trivial, trivial⟩

theorem untilSwitch_pos (c : Clock) : 1 ≤ c.untilSwitch := by
  simp only [untilSwitch]
  split <;> omega

/-- **Six interrupts are enough** for a switch. -/
theorem untilSwitch_le (c : Clock) : c.untilSwitch ≤ 6 := by
  simp only [untilSwitch]
  split <;> omega

/-- An interrupt that does not switch brings the switch nearer. -/
theorem untilSwitch_timer (h : c.timerIntrHdlr false = some c') (hs : ¬ c.Switches (.timer false)) :
    c'.untilSwitch + 1 = c.untilSwitch := by
  obtain ⟨-, -, hi, hj⟩ := timerIntrHdlr_frame h
  have hno : ¬ ((c.i + 1) % 19 ≠ 0 ∧ (c.j + 1) % 3 = 0) := fun hc => hs ⟨rfl, hc⟩
  simp only [untilSwitch, hi, hj]
  -- the interrupt completes a second, or the third one is still to come
  split_ifs <;> omega

/-! ### The order of the turns -/

/-- **`deleteRunningThreadAndJump`** puts the new task in the place of the running one, which stays
behind it if it was alone. -/
theorem Valid.deleteRunningThreadAndJump (h : Valid c L D) (hr : IsRecord x) (hx : x ∉ L ++ D) :
    ∃ c', c.deleteRunningThreadAndJump x = some c' ∧ Valid c' ((Op.replace x).apply L) D ∧
      c'.i = c.i ∧ c'.j = c.j := by
  obtain ⟨M, rfl⟩ := h.ring.exists_tail
  set r := c.runningThread with hrun
  have hxL : x ∉ r :: M := fun hc => hx (List.mem_append_left D hc)
  have hxr : x ≠ r := fun hc => hxL (hc ▸ List.mem_cons_self)
  set next := Function.update c.next x (c.next r) with hnext
  have hring : Ring next r (r :: M) :=
    h.ring.congr fun y hy => Function.update_of_ne (ne_of_mem_of_not_mem hy hxL) _ _
  have hlen := h.length_ring_lt
  rw [List.length_cons] at hlen
  -- the predecessor of the running task, and the ring when its link has been redirected
  obtain ⟨p, hp, hfind, hring'⟩ : ∃ p ∈ r :: M,
      find next (fun y => next y == r) walkFuel r = some p ∧
        Ring (Function.update next p x) x ((Op.replace x).apply (r :: M)) := by
    rcases List.eq_nil_or_concat' M with rfl | ⟨m, p, rfl⟩
    · have hback : next r = r := hring.seg.2
      refine ⟨r, List.mem_cons_self, ?_, ?_⟩
      · exact find_of_seg (l := []) rfl (by simp) (by simp [hback]) (by decide)
      · have hself : Function.update next r x x = r := by
          rw [Function.update_of_ne hxr, hnext, Function.update_self]
          exact h.ring.seg.2
        show Ring (Function.update next r x) x [x, r]
        refine ⟨by simp, by simpa using hxr, rfl, ?_⟩
        rw [hself]
        exact ⟨rfl, Function.update_self ..⟩
    · rw [List.length_append, List.length_singleton] at hlen
      obtain ⟨hfind, -⟩ := hring.find_last (n := walkFuel) (by omega)
      refine ⟨p, by simp, hfind, ?_⟩
      have hne : m ++ [p] ≠ [] := by simp
      show Ring _ x (x :: if m ++ [p] = [] then _ else m ++ [p])
      rw [if_neg hne]
      exact h.ring.substitute hxL
  have hpD : p ∉ D := fun hc => (List.nodup_append.mp h.nodup).2.2 p hp p hc rfl
  have hsub : ∀ y ∈ (Op.replace x).apply (r :: M), y = x ∨ y ∈ r :: M := by
    intro y hy
    rcases List.mem_cons.mp hy with rfl | hy
    · exact .inl rfl
    · refine .inr ?_
      split at hy
      · exact hy
      · exact List.mem_cons_of_mem r hy
  refine ⟨{ c with
    next := Function.update next p x
    counters := Function.update c.counters x .zeroed
    runningThread := x }, ?_, ⟨hring', h.queue.congr fun y hy => ?_, ?_, fun y hy => ?_⟩, rfl, rfl⟩
  · rw [Clock.deleteRunningThreadAndJump]
    simp only [Option.bind_eq_bind, ← hrun, ← hnext, hfind, Option.bind_some]
    rfl
  · have hxy : y ≠ x := ne_of_mem_of_not_mem hy fun hc => hx (List.mem_append_right _ hc)
    exact (Function.update_of_ne (ne_of_mem_of_not_mem hy hpD) _ _).trans
      (Function.update_of_ne hxy _ _)
  · refine List.nodup_append.mpr ⟨hring'.nodup, (List.nodup_append.mp h.nodup).2.1, ?_⟩
    intro y hy z hz hyz
    rcases hsub y hy with rfl | hy
    · exact hx (List.mem_append_right _ (hyz ▸ hz))
    · exact (List.nodup_append.mp h.nodup).2.2 y hy z hz hyz
  · rcases List.mem_append.mp hy with hy | hy
    · rcases hsub y hy with rfl | hy
      · exact hr
      · exact h.record y (List.mem_append_left D hy)
    · exact h.record y (List.mem_append_right _ hy)

/-- `exit` and `exitpid` hand the turn to the successor. -/
theorem Valid.terminate_order (h : Valid c L D) (hx : x ∈ L) (hL : L ≠ [c.runningThread]) :
    ∃ c', c.terminate x = some c' ∧ Valid c' ((Op.jump x).apply L) (D ++ [x]) ∧ c'.i = c.i ∧
      c'.j = c.j := by
  obtain ⟨c', L', hc', hv, -, hi, hj, -, -, hring⟩ := h.terminate_ring hx hL
  obtain ⟨A, B, rfl⟩ := List.append_of_mem hx
  have hA : x ∉ A := fun hc => (List.nodup_append.mp h.ring.nodup).2.2 x hc x (by simp) rfl
  have horder : L' = B ++ A := (List.cons.inj (hring.unique h.ring.rotate)).2
  refine ⟨c', hc', ?_, hi, hj⟩
  rwa [Op.apply_jump_append hA, ← horder]

end Clock

/-! ### Histories of the ring -/

namespace Waiting

open Clock

/-- An event of the clock, or an `exec` that has loaded its program into the record `task`. -/
inductive Event
  | clock (e : Clock.Event)
  | exec (task : Nat)
  deriving DecidableEq

def step (c : Clock) : Event → Option Clock
  | .clock e => c.step e
  | .exec task => c.deleteRunningThreadAndJump task

def Admits (c : Clock) (L D : List Nat) : Event → Prop
  | .clock e => c.Admits L D e
  | .exec task => IsRecord task ∧ task ∉ L ++ D

/-- What an event does to the order of the turns. -/
def turn (c : Clock) : Event → Op Nat
  | .clock (.timer mutex) => if c.Switches (.timer mutex) then .pass else .stay
  | .clock (.fork task) => .join task
  | .clock .exit => .jump c.runningThread
  | .clock (.exitpid task) => .jump task
  | .clock (.kill task) => .leave task
  | .clock _ => .stay
  | .exec task => .replace task

/-- The interrupt that finds the mutex free. -/
def interrupt : Event := .clock (.timer false)

def isInterrupt (e : Event) : Bool := e == interrupt

/-- **The delay of an event**, in interrupts: six for a turn, and for an interrupt that may miss its
switch because the mutex is held. -/
def delay (c : Clock) (e : Event) : Nat :=
  6 * ((turn c e).delay c.ring + if e = .clock (.timer true) then 1 else 0)

/-- The event is possible, and does not take `a` off the ring. -/
def Stays (a : Nat) (c : Clock) (e : Event) : Prop :=
  (∃ L D, c.Valid L D ∧ Admits c L D e) ∧ ∀ e', e = .clock e' → c.leaves e' ≠ some a

variable {c c' : Clock} {L D : List Nat} {a : Nat} {e : Event}

/-- **Every event completes**, and changes the order of the turns as `turn` says. -/
theorem step_order (h : c.Valid L D) (ha : Admits c L D e) :
    ∃ c' D', step c e = some c' ∧ c'.Valid ((turn c e).apply L) D' ∧
      ((∀ mutex, e ≠ .clock (.timer mutex)) → c'.i = c.i ∧ c'.j = c.j) := by
  cases e with
  | exec task =>
    obtain ⟨c', hc', hv, hij⟩ := h.deleteRunningThreadAndJump ha.1 ha.2
    exact ⟨c', D, hc', hv, fun _ => hij⟩
  | clock e =>
    cases e with
    | timer mutex =>
      obtain ⟨c', -, -, hc', -⟩ := h.timer mutex
      obtain ⟨hn, hq, -⟩ := timerIntrHdlr_frame hc'
      have hrun := timerIntrHdlr_running hc'
      refine ⟨c', D, hc', ?_, fun hne => absurd rfl (hne mutex)⟩
      by_cases hs : c.Switches (.timer mutex)
      · -- the next task runs
        obtain ⟨M, rfl⟩ := h.ring.exists_tail
        have hturn : turn c (.clock (.timer mutex)) = .pass := if_pos hs
        have hperm : (M ++ [c.runningThread]).Perm (c.runningThread :: M) := List.perm_append_comm
        rw [if_pos hs] at hrun
        rw [hturn]
        refine ⟨?_, ?_, (hperm.append_right D).nodup_iff.mpr h.nodup, fun b hb => h.record b
          ((hperm.append_right D).mem_iff.mp hb)⟩
        · rw [hn, hrun]
          exact h.ring.step
        · rw [hn, hq]
          exact h.queue
      · have hturn : turn c (.clock (.timer mutex)) = .stay := if_neg hs
        rw [if_neg hs] at hrun
        rw [hturn]
        exact h.congr (fun b _ => congrFun hn b) hrun hq
    | fork task =>
      obtain ⟨L', hv, -⟩ := h.addToQueue ha.1 ha.2
      obtain ⟨M, rfl⟩ := h.ring.exists_tail
      have hnew : task ∉ c.runningThread :: M := fun hc => ha.2 (List.mem_append_left D hc)
      rw [hv.ring.unique (h.ring.insert hnew)] at hv
      exact ⟨_, D, rfl, hv, fun _ => ⟨rfl, rfl⟩⟩
    | exit =>
      obtain ⟨c', hc', hv, hij⟩ := h.terminate_order h.ring.mem ha
      exact ⟨c', _, hc', hv, fun _ => hij⟩
    | exitpid task =>
      obtain ⟨c', hc', hv, hij⟩ := h.terminate_order ha.1 ha.2
      exact ⟨c', _, hc', hv, fun _ => hij⟩
    | kill task =>
      obtain ⟨c', hc', hv, -, hi, hj, -⟩ := h.kill_ring ha.1 ha.2
      exact ⟨c', _, hc', hv, fun _ => ⟨hi, hj⟩⟩
    | setSleep seconds => exact ⟨_, D, rfl, h.called (.setSleep seconds), fun _ => ⟨rfl, rfl⟩⟩
    | setAlarmFP fp => exact ⟨_, D, rfl, h.called (.setAlarmFP fp), fun _ => ⟨rfl, rfl⟩⟩
    | getCounter =>
      obtain ⟨-, -, -, hi, hj, -⟩ := c.called_frame .getCounter
      exact ⟨_, D, rfl, h.called .getCounter, fun _ => ⟨hi, hj⟩⟩
    | setAlarm seconds =>
      obtain ⟨-, -, -, hi, hj, -⟩ := c.called_frame (.setAlarm seconds)
      exact ⟨_, D, rfl, h.called (.setAlarm seconds), fun _ => ⟨hi, hj⟩⟩

/-- The interrupts before `a` gets the processor, if nothing delays it. -/
def wait (a : Nat) (c : Clock) : Nat :=
  if c.ring.idxOf a = 0 then 0 else 6 * (c.ring.idxOf a - 1) + c.untilSwitch

theorem turn_spares (ha : a ∈ L) (hne : c.runningThread ≠ a)
    (hadm : Admits c L D e) (hl : ∀ e', e = .clock e' → c.leaves e' ≠ some a) :
    (turn c e).Spares a := by
  have hnew : ∀ {x}, x ∉ L ++ D → x ≠ a := fun hx hc => hx (hc ▸ List.mem_append_left D ha)
  cases e with
  | exec task => exact hnew hadm.2
  | clock e =>
    have hleave := hl e rfl
    cases e with
    | timer mutex =>
      rw [turn]
      split <;> trivial
    | fork task => exact hnew hadm.2
    | exit => exact hne
    | exitpid task => exact fun hc => hleave (congrArg some hc)
    | kill task => exact fun hc => hleave (congrArg some hc)
    | _ => trivial

/-- **One step**: an interrupt brings the turn of a waiting task nearer, and nothing but a delay
puts it off. -/
theorem wait_step (h : c.Valid L D) (ha : a ∈ L) (hne : c.runningThread ≠ a)
    (hadm : Admits c L D e) (hl : ∀ e', e = .clock e' → c.leaves e' ≠ some a)
    (hs : step c e = some c') :
    (∃ L' D', c'.Valid L' D' ∧ a ∈ L') ∧
      (if isInterrupt e = true then 1 else 0) + wait a c' ≤ wait a c + delay c e := by
  obtain ⟨c₁, D', hc₁, hv, hij⟩ := step_order h hadm
  obtain rfl : c' = c₁ := Option.some.inj (hs.symm.trans hc₁)
  have hspares := turn_spares ha hne hadm hl
  have hring := h.ring_eq
  obtain ⟨M, rfl⟩ := h.ring.exists_tail
  have haM : a ∈ M := (List.mem_cons.mp ha).resolve_left (Ne.symm hne)
  have hjump : ∀ x, turn c e = .jump x → x ∈ c.runningThread :: M := by
    intro x hx
    cases e with
    | exec task => cases hx
    | clock e =>
      cases e with
      | timer mutex =>
        rw [turn] at hx
        split at hx <;> cases hx
      | exit =>
        cases hx
        exact List.mem_cons_self
      | exitpid task =>
        cases hx
        exact hadm.1
      | _ => cases hx
  have hle := Op.idxOf_apply_le h.ring.nodup haM hspares hjump
  refine ⟨⟨_, D', hv, Op.mem_apply hspares haM⟩, ?_⟩
  -- `a` is not the first one
  have hpos : (c.runningThread :: M).idxOf a ≠ 0 := by
    rw [List.idxOf_cons_ne M hne]
    exact Nat.succ_ne_zero _
  have hu := c.untilSwitch_pos
  have hu' := c'.untilSwitch_le
  rw [wait, wait, delay, hv.ring_eq, hring, if_neg hpos]
  by_cases hint : e = interrupt
  · subst hint
    rw [if_pos (by decide)]
    have hfree : ¬ interrupt = .clock (.timer true) := by decide
    by_cases hsw : c.Switches (.timer false)
    · -- the turn is passed on
      have hturn : turn c interrupt = .pass := if_pos hsw
      simp only [hturn, Op.passed, Op.delay, if_neg hfree] at hle ⊢
      split_ifs <;> omega
    · have hturn : turn c interrupt = .stay := if_neg hsw
      have hnear := untilSwitch_timer hs hsw
      simp only [hturn, Op.passed, Op.delay, if_neg hfree] at hle ⊢
      split_ifs <;> omega
  rw [if_neg (by simpa [isInterrupt] using hint)]
  by_cases hheld : e = .clock (.timer true)
  · rw [if_pos hheld]
    split_ifs <;> omega
  · -- the count of the interrupts is not touched
    have hsame : c'.untilSwitch = c.untilSwitch := by
      obtain ⟨hi, hj⟩ := hij fun mutex hc => by
        cases mutex
        · exact hint hc
        · exact hheld hc
      rw [untilSwitch, untilSwitch, hi, hj]
    rw [if_neg hheld, hsame]
    split_ifs <;> omega

/-- **A task that waits gets the processor**, after six interrupts for each task in front of it and
for each delay, in every history in which it stays on the ring. -/
theorem gets_turn (h : c.Valid L D) (ha : a ∈ L) {es : List Event}
    (hr : Run step (Stays a) c es c')
    (hlong : 6 * L.idxOf a + total step delay es c ≤ es.countP isInterrupt) :
    ∃ es₁ es₂ c₁, es = es₁ ++ es₂ ∧ Run step (Stays a) c es₁ c₁ ∧ c₁.runningThread = a := by
  refine (hr.until (q := fun c => c.runningThread = a)).resolve_right ?_
  rintro ⟨hwait, hend⟩
  -- while it waits, each interrupt is paid for
  have hstep : ∀ s e s', (∃ L D, s.Valid L D ∧ a ∈ L) →
      (Stays a s e ∧ ¬ s.runningThread = a) → step s e = some s' →
      (∃ L D, s'.Valid L D ∧ a ∈ L) ∧
        (if isInterrupt e = true then 1 else 0) + wait a s' ≤ wait a s + delay s e := by
    rintro s e s' ⟨L, D, hv, hmem⟩ ⟨⟨⟨L', D', hv', hadm⟩, hl⟩, hne⟩ hs
    rw [hv.ring.unique hv'.ring] at hmem
    exact wait_step hv' hmem hne hadm hl hs
  have hbudget := hwait.budget ⟨L, D, h, ha⟩ hstep
  rw [hwait.total_countP] at hbudget
  obtain ⟨L', D', hv', ha'⟩ := hwait.invariant (I := fun s => ∃ L D, s.Valid L D ∧ a ∈ L)
    ⟨L, D, h, ha⟩ fun s e s' hI hok hs => (hstep s e s' hI hok hs).1
  -- at the end it waits still
  have hpos : c'.ring.idxOf a ≠ 0 := by
    rw [Clock.ring, List.idxOf_cons_ne _ hend]
    exact Nat.succ_ne_zero _
  have hleft : 1 ≤ wait a c' := by
    rw [wait, if_neg hpos]
    exact Nat.le_add_left_of_le c'.untilSwitch_pos
  have hstart : wait a c ≤ 6 * L.idxOf a := by
    rw [wait, h.ring_eq]
    have := c.untilSwitch_le
    split_ifs <;> omega
  omega

/-- Interrupts may come at any time. -/
theorem run_interrupts (h : c.Valid L D) (a n : Nat) :
    ∃ c', Run step (Stays a) c (List.replicate n interrupt) c' := by
  induction n generalizing c L D with
  | zero => exact ⟨c, .nil c⟩
  | succ n ih =>
    obtain ⟨c₁, D₁, hs, hv, -⟩ := step_order (e := interrupt) h trivial
    obtain ⟨c', hr⟩ := ih hv
    refine ⟨c', .cons ⟨⟨L, D, h, trivial⟩, fun e' he' => ?_⟩ hs hr⟩
    obtain rfl := Event.clock.inj he'
    exact fun hc => by cases hc

theorem delay_interrupt (c : Clock) : delay c interrupt = 0 := by
  rw [delay, interrupt, turn]
  split <;> rfl

/-- A task with a child, which gets the processor within six interrupts. -/
theorem gets_turn_child : ∃ es₁ es₂ c₁, List.replicate 6 interrupt = es₁ ++ es₂ ∧
    Run step (Stays (kernbase + 8192)) (alone.addToQueue (kernbase + 8192)) es₁ c₁ ∧
      c₁.runningThread = kernbase + 8192 := by
  have hnew : kernbase + 8192 ∉ [alone.runningThread] ++ [] := by decide
  obtain ⟨c₀, D₀, hc₀, hv, -⟩ := step_order (e := .clock (.fork (kernbase + 8192))) alone_valid
    ⟨⟨2, by decide, rfl⟩, hnew⟩
  obtain rfl := Option.some.inj hc₀
  obtain ⟨c', hr⟩ := run_interrupts hv (kernbase + 8192) 6
  refine gets_turn hv (L := [alone.runningThread, kernbase + 8192]) (by decide) hr ?_
  rw [total_eq_zero fun e he s => by rw [List.eq_of_mem_replicate he, delay_interrupt]]
  decide

end Waiting

/-! ### Runs of the kernel -/

/-- What an event does to the order of the turns. -/
def Kernel.turn (k : Kernel) : Event → Op Nat
  | .fork _ => .join (kernbase + k.phys.kmalloc.1)
  | .exec .. => .replace (kernbase + k.phys.kmalloc.1)
  | .exit => if k.running.pidT = 1 then .stay else .jump k.runningThread
  | .kill pid => (k.killed pid).elim .stay .leave
  | .exitpid pid => (k.exited pid).elim .stay .jump
  | .timer _ => .pass
  | .access v w =>
    if ¬ k.phys.Permits v k.cr3 w ∧ k.faultCase v (k.errorCode v w) = .exit ∧
      k.running.pidT ≠ 1 then .jump k.runningThread else .stay

def Event.isSwitch : Event → Bool
  | .timer _ => true
  | _ => false

/-- The step stays clear of the defects, finds memory, and does not take `a` off the ring. -/
def Kernel.Spares (image a : Nat) (k : Kernel) (e : Event) : Prop :=
  k.Sound image e ∧ k.Enough e ∧ (k.turn e).Spares a

/-- The delay of an event, in turns. -/
def Kernel.turnDelay (k : Kernel) (e : Event) : Nat := (k.turn e).delay (k.runningThread :: k.others)

theorem Kernel.ringAfter_eq (k : Kernel) (L : List Nat) (e : Event) :
    k.ringAfter L e = (k.turn e).apply L := by
  cases e with
  | exit =>
    simp only [ringAfter, turn]
    split <;> rfl
  | kill pid =>
    simp only [ringAfter, turn]
    cases k.killed pid <;> rfl
  | exitpid pid =>
    simp only [ringAfter, turn]
    cases k.exited pid <;> rfl
  | access v w =>
    simp only [ringAfter, turn]
    split <;> rfl
  | _ => rfl

variable {image : Nat} {Γ : Nat → Use} {L D G : List Nat} {k k' : Kernel} {a : Nat}

/-- **One step of the kernel** while `a` waits. -/
theorem Inv.turn_step (h : Inv image Γ L D G k) (ha : a ∈ L) (hne : k.runningThread ≠ a)
    {e : Event} (hok : k.Spares image a e) (hs : k.step e = some k') :
    (∃ Γ' L' D' G', Inv image Γ' L' D' G' k' ∧ a ∈ L') ∧
      (if e.isSwitch = true then 1 else 0) + (k'.runningThread :: k'.others).idxOf a ≤
        (k.runningThread :: k.others).idxOf a + k.turnDelay e := by
  obtain ⟨hsound, hen, hspares⟩ := hok
  obtain ⟨Γ', D', G', hI⟩ := h.step hsound hen hs
  obtain ⟨M, rfl⟩ := h.ring.exists_tail
  have haM : a ∈ M := (List.mem_cons.mp ha).resolve_left (Ne.symm hne)
  rw [k.ringAfter_eq] at hI
  have hmem := Op.mem_apply (r := k.runningThread) hspares haM
  have hjump : ∀ x, k.turn e = .jump x → x ∈ k.runningThread :: M := by
    intro x hx
    cases e with
    | exit =>
      rw [Kernel.turn] at hx
      split at hx <;> cases hx
      exact List.mem_cons_self
    | kill pid =>
      rw [Kernel.turn] at hx
      cases hk : k.killed pid <;> rw [hk] at hx <;> cases hx
    | exitpid pid =>
      rw [Kernel.turn] at hx
      cases hk : k.exited pid with
      | none =>
        rw [hk] at hx
        cases hx
      | some y =>
        rw [hk] at hx
        obtain rfl := Op.jump.inj hx
        exact (h.exited_mem hk).1
    | access v w =>
      rw [Kernel.turn] at hx
      split at hx <;> cases hx
      exact List.mem_cons_self
    | _ => cases hx
  have hle := Op.idxOf_apply_le h.ring.nodup haM hspares hjump
  have hgain : (if e.isSwitch = true then 1 else 0) ≤ (k.turn e).passed := by
    cases e with
    | timer r => exact Nat.le_refl _
    | _ => exact Nat.zero_le _
  have hring : k'.runningThread :: k'.others = (k.turn e).apply (k.runningThread :: M) := by
    obtain ⟨M', hM'⟩ := hI.ring.exists_tail
    rw [hM'] at hI ⊢
    rw [hI.others_eq]
  refine ⟨⟨Γ', _, D', G', hI, hmem⟩, ?_⟩
  rw [hring, Kernel.turnDelay, h.others_eq]
  omega

/-- **Nobody is starved**: in every run of the kernel that stays clear of the defects, a task that
stays on the ring runs after as many switches as there are tasks in front of it, and delays. -/
theorem scheduled_of_run (h : Inv image Γ L D G k) (ha : a ∈ L) {es : List Event}
    (hr : Run Kernel.step (Kernel.Spares image a) k es k')
    (hlong : L.idxOf a + total Kernel.step Kernel.turnDelay es k ≤ es.countP Event.isSwitch) :
    ∃ es₁ es₂ k₁, es = es₁ ++ es₂ ∧ Run Kernel.step (Kernel.Spares image a) k es₁ k₁ ∧
      k₁.runningThread = a := by
  refine (hr.until (q := fun k => k.runningThread = a)).resolve_right ?_
  rintro ⟨hwait, hend⟩
  have hstep : ∀ s e s', (∃ Γ L D G, Inv image Γ L D G s ∧ a ∈ L) →
      (Kernel.Spares image a s e ∧ ¬ s.runningThread = a) → Kernel.step s e = some s' →
      (∃ Γ L D G, Inv image Γ L D G s' ∧ a ∈ L) ∧
        (if e.isSwitch = true then 1 else 0) + (s'.runningThread :: s'.others).idxOf a ≤
          (s.runningThread :: s.others).idxOf a + s.turnDelay e := by
    rintro s e s' ⟨Γ, L, D, G, hI, hmem⟩ ⟨hspares, hne⟩ hs
    exact hI.turn_step hmem hne hspares hs
  have hbudget := hwait.budget ⟨Γ, L, D, G, h, ha⟩ hstep
  rw [hwait.total_countP] at hbudget
  -- at the end it waits still
  have hpos := List.idxOf_cons_ne k'.others hend
  have hstart : k.runningThread :: k.others = L := by
    obtain ⟨M, rfl⟩ := h.ring.exists_tail
    rw [h.others_eq]
  rw [hstart] at hbudget
  omega

/-- The child of the shell runs at the next switch. -/
theorem scheduled_of_run_child : ∃ k a k' es₁ es₂ k₁,
    (shellAt [pageVma 0x400000] 0x400000).step (.fork entryRegs) = some k ∧
      k.runningThread ≠ a ∧ Run Kernel.step (Kernel.Spares 0x1000 a) k [.timer tickRegs] k' ∧
      [.timer tickRegs] = es₁ ++ es₂ ∧ Run Kernel.step (Kernel.Spares 0x1000 a) k es₁ k₁ ∧
      k₁.runningThread = a := by
  have hm : UserPages [pageVma 0x400000] := userPages_pageVma (by decide)
  obtain ⟨Γ, hI, -⟩ := shellAt_inv hm (show pml4Index 0x400000 < 511 by decide)
  obtain ⟨pid, k, hs, hx⟩ := shell_fork hm (vmaPages_pageVma (v := 0x400000) (by decide))
    (by simp [pageVma, stackTop]) (by simp)
  have hstep : (shellAt [pageVma 0x400000] 0x400000).step (.fork entryRegs) = some k := by
    rw [Kernel.step, hs, Option.map_some]
  obtain ⟨Γ', D, G, hI'⟩ := hI.step (e := .fork entryRegs) trivial
    (fun k' hk' => Option.some.inj (hstep.symm.trans hk') ▸ hx) hstep
  set child := kernbase + (shellAt [pageVma 0x400000] 0x400000).phys.kmalloc.1 with hchild
  have hL : (shellAt [pageVma 0x400000] 0x400000).ringAfter [shellTask] (.fork entryRegs) =
      [shellTask, child] := rfl
  rw [hL] at hI'
  have hrunning : k.runningThread = shellTask := hI'.ring.head
  have hne : shellTask ≠ child := by
    have hnd := hI'.ring.nodup
    simp only [List.nodup_cons, List.mem_singleton] at hnd
    exact hnd.1
  -- the switch
  obtain ⟨k₂, hk₂, hrel, -⟩ := hI'.runNextTask_eq tickRegs
  have hrun : Run Kernel.step (Kernel.Spares 0x1000 child) k [.timer tickRegs]
      (k₂.moveToNextProcess (k.phys.next k.runningThread)) := by
    refine .cons ⟨trivial, fun k' hk' => ?_, trivial⟩ hk₂ (.nil _)
    obtain rfl := Option.some.inj (hk₂.symm.trans hk')
    exact hrel.exhausted.trans hx
  have hlong : [shellTask, child].idxOf child + total Kernel.step Kernel.turnDelay
      [.timer tickRegs] k ≤ [Event.timer tickRegs].countP Event.isSwitch := by
    rw [List.idxOf_cons_ne _ hne, List.idxOf_cons_self,
      total_eq_zero fun e he s => by rw [List.mem_singleton.mp he]; rfl]
    exact Nat.le_refl 1
  obtain ⟨es₁, es₂, k₁, hes, hr₁, hrun₁⟩ := scheduled_of_run hI'
    (List.mem_cons_of_mem _ (List.mem_singleton_self child)) hrun hlong
  exact ⟨k, child, _, es₁, es₂, k₁, hstep, hrunning.trans_ne hne, hrun, hes, hr₁, hrun₁⟩

end Sbunix
