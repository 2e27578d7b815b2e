import Sbunix.Alarms
import Sbunix.Interrupts

/-!
# Delivering alarms

`runNextTask` delivers an alarm by rewriting the frame that the task will return through:
`_changeToAlarmFunction` puts the handler in it and pushes the interrupted `rip` on the user stack.
`Signals` has what this reads: the clock, the frames on the kernel stacks, the user memory of every
task, and from outside the handlers a task has registered and its pending request (`Alarm`).

The frame is at the depth that is expected because a task with a request has run before, and an
interrupted task has its frame at the top of its kernel stack (`Framed`). What can go wrong is the
handler, which `setAlarmFP` may take away from a pending request, and the page below the user
stack pointer, which need not be there; runs in which neither happens deliver alarms as they should
(`alarm_delivery_of_run`).
-/

namespace Sbunix

open Runs

/-- The kernel as far as alarms are concerned, general registers aside. `memory` and `mapped` are
the user memory that each task sees; `interrupted` is what each task has returned to the kernel
with, `handlers` what it has registered, and `pending` and `elapsed` are its request. -/
structure Signals where
  clock : Clock
  tasks : Nat → Thread
  tssRsp : Nat
  cpu : Frame
  memory : Nat → ByteMem.Mem
  mapped : Nat → Nat → Bool
  interrupted : Nat → Frame
  handlers : Nat → List Nat
  pending : Nat → Option Nat
  elapsed : Nat → Nat

namespace Signals

open Clock Counters

/-- The running program gets on and memory changes in any way, a timer interrupt comes, or the
running program makes a call. -/
inductive Event
  | user (cpu : Frame) (memory : Nat → ByteMem.Mem) (mapped : Nat → Nat → Bool)
  | timer (mutex : Bool)
  | fork (task kernelRsp : Nat)
  | setAlarmFP (functionPointer : Nat)
  | setAlarm (seconds : Nat)

/-- What the clock sees. -/
def Event.clock : Event → Option Clock.Event
  | .user .. => none
  | .timer mutex => some (.timer mutex)
  | .fork task _ => some (.fork task)
  | .setAlarmFP functionPointer => some (.setAlarmFP functionPointer)
  | .setAlarm seconds => some (.setAlarm seconds)

variable (s : Signals)

def running : Nat := s.clock.runningThread

/-- The CPU enters the kernel: a frame goes to the kernel stack. -/
def enter : Signals :=
  let t := s.tasks s.running
  { s with
    tasks := Function.update s.tasks s.running
      { t with stack := Function.update t.stack (s.tssRsp - 40) s.cpu }
    interrupted := Function.update s.interrupted s.running s.cpu }

/-- `runningThread->regs.kernelRsp = switchRsp`. -/
def save : Signals :=
  let t := s.tasks s.running
  { s with
    tasks := Function.update s.tasks s.running
      { t with regs := { t.regs with kernelRsp := s.tssRsp - 40 } } }

/-- The block that sets `add`, `count` and the stack pointer of the TSS. -/
def activate (task : Nat) : Signals :=
  let t := s.tasks task
  { s with
    tasks := Function.update s.tasks task
      { t with regs :=
          if t.regs.count = 0 then { t.regs with add := 40, count := 1 }
          else { t.regs with add := 0 } }
    tssRsp := if t.regs.count = 0 then t.regs.kernelRsp else t.regs.kernelRsp + 40 }

/-- `pushq` on the user stack, where all eight bytes are mapped. -/
def push (task rsp v : Nat) : Option Signals :=
  if (List.range 8).all fun n => s.mapped task (rsp + n) then
    some { s with
      memory := Function.update s.memory task (ByteMem.write64 (s.memory task) rsp v) }
  else none

/-- `_changeToAlarmFunction`: the frame at `kernelRsp` returns to the handler. -/
def changeToAlarmFunction (fp task : Nat) : Option Signals :=
  let t := s.tasks task
  let frame := t.stack t.regs.kernelRsp
  let rsp := (frame.rsp + (2 ^ 64 - 8)) % 2 ^ 64
  let s := { s with
    tasks := Function.update s.tasks task
      { t with stack := Function.update t.stack t.regs.kernelRsp ⟨fp, frame.rflags, rsp⟩ } }
  s.push task rsp frame.rip

/-- `_moveToNextProcess` and its `iretq`. -/
def moveToNextProcess (task : Nat) : Signals :=
  let t := s.tasks task
  { s with cpu := t.stack (t.regs.kernelRsp - t.regs.add) }

/-- `runNextTask`; the fields it clears are those of `Clock.runNextTask`. -/
def runNextTask : Option Signals := do
  let task := s.clock.next s.running
  let s := s.save.activate task
  let s ←
    if (s.clock.counters task).Due then
      s.changeToAlarmFunction (s.clock.counters task).functionPointer task
    else some s
  return s.moveToNextProcess task

/-- What the event does outside the clock. A call returns through the frame that it came with. -/
def act : Event → Option Signals
  | .user cpu memory mapped => some { s with cpu := cpu, memory := memory, mapped := mapped }
  | .timer mutex => if s.clock.Switches (.timer mutex) then s.enter.runNextTask else some s.enter
  | .fork task kernelRsp =>
    some { s.enter with
      tasks := Function.update s.enter.tasks task
        { regs := { (s.tasks task).regs with kernelRsp := kernelRsp, count := 0, add := 0 }
          stack := Function.update (s.tasks task).stack (kernelRsp - 40)
            { s.cpu with rflags := s.cpu.rflags ||| 0x200 } }
      interrupted := Function.update s.enter.interrupted task
        { s.cpu with rflags := s.cpu.rflags ||| 0x200 }
      handlers := Function.update s.handlers task []
      pending := Function.update s.pending task none
      elapsed := Function.update s.elapsed task 0 }
  | .setAlarmFP functionPointer =>
    some { s.enter with
      handlers := Function.update s.handlers s.running (functionPointer :: s.handlers s.running) }
  | .setAlarm _ => some s.enter

/-- The alarm of a task. -/
def alarm (a : Nat) : Alarm := ⟨s.clock, s.pending a, s.elapsed a⟩

/-- The clock gets on to `c`, and with it the requests. -/
def advance (e : Clock.Event) (c : Clock) : Signals :=
  { s with
    clock := c
    pending := fun a => ((s.alarm a).after a e c).pending
    elapsed := fun a => ((s.alarm a).after a e c).elapsed }

def step (e : Event) : Option Signals := do
  let s' ← s.act e
  match e.clock with
  | none => return s'
  | some e =>
    let c ← s.clock.step e
    return s'.advance e c

/-- The event delivers the alarm of `a`. -/
def Delivers (a : Nat) (e : Event) : Prop := ∃ e' ∈ e.clock, Alarm.Delivers s.clock a e'

/-- A value of `rip` and `rsp` that a register holds. -/
def Fits (w : Frame) : Prop := w.rip < 2 ^ 64 ∧ w.rsp < 2 ^ 64

/-- There is room for a word below the user stack pointer of the task. -/
def RoomBelow (s : Signals) (a : Nat) : Prop :=
  8 ≤ (s.enter.interrupted a).rsp ∧
    ∀ n < 8, s.mapped a ((s.enter.interrupted a).rsp - 8 + n) = true

/-- **The events in question**: what comes from registers fits them, and a child is a page that
holds no record, with a kernel stack of its own. -/
def Allowed (s : Signals) : Event → Prop
  | .user cpu _ _ => Fits cpu
  | .timer _ => True
  | .fork task kernelRsp =>
    (∀ L D, s.clock.Valid L D → s.clock.Admits L D (.fork task)) ∧ 40 ≤ kernelRsp
  | .setAlarmFP functionPointer => functionPointer < 2 ^ 64
  | .setAlarm seconds => seconds < 2 ^ 64

/-- **The condition.** A handler is not taken away while the count of its alarm runs, and the task
whose alarm is delivered has room on its user stack. -/
def Careful (s : Signals) (e : Event) : Prop :=
  (e = .setAlarmFP 0 → s.clock.running.currAlarmCount = 0) ∧
    ∀ a, s.Delivers a e → s.RoomBelow a

/-! ### Frames -/

/-- The next frame of a task that is not running. -/
structure Framed (t : Thread) (w : Frame) : Prop where
  fits : Fits w
  room : t.regs.count = 0 → 40 ≤ t.regs.kernelRsp
  frame : t.stack (t.regs.kernelRsp - if t.regs.count = 0 then 40 else 0) = w

/-- **The frames** of the tasks in `L`. -/
structure FramesOk (s : Signals) (L : List Nat) : Prop where
  /-- The running task has been switched to before. -/
  started : (s.tasks s.running).regs.count ≠ 0
  tss : 40 ≤ s.tssRsp
  fits : Fits s.cpu
  others : ∀ a ∈ L, a ≠ s.running → Framed (s.tasks a) (s.interrupted a)

variable {s s' : Signals} {L D : List Nat} {a task : Nat} {e : Event}

theorem enter_tasks_of_ne (h : a ≠ s.running) : s.enter.tasks a = s.tasks a :=
  Function.update_of_ne h _ _

theorem enter_interrupted_of_ne (h : a ≠ s.running) : s.enter.interrupted a = s.interrupted a :=
  Function.update_of_ne h _ _

theorem enter_regs (s : Signals) (a : Nat) : (s.enter.tasks a).regs = (s.tasks a).regs := by
  by_cases h : a = s.running
  · rw [h]
    simp only [Signals.enter, Function.update_self]
  · rw [enter_tasks_of_ne h]

theorem save_count (s : Signals) (a : Nat) :
    (s.save.tasks a).regs.count = (s.tasks a).regs.count := by
  by_cases h : a = s.running
  · rw [h]
    simp only [Signals.save, Function.update_self]
  · exact congrArg (fun t : Thread => t.regs.count) (Function.update_of_ne h _ _)

/-- Entering the kernel keeps the frames of the others. -/
theorem FramesOk.enter (h : FramesOk s L) : FramesOk s.enter L where
  started := by
    rw [enter_regs]
    exact h.started
  tss := h.tss
  fits := h.fits
  others a ha hne := by
    rw [enter_tasks_of_ne (s := s) hne, enter_interrupted_of_ne (s := s) hne]
    exact h.others a ha hne

/-- **When the record is saved** every task has its next frame, the interrupted one at the top of
its kernel stack. -/
theorem FramesOk.save (h : FramesOk s L) (ha : a ∈ L) :
    Framed (s.enter.save.tasks a) (s.enter.interrupted a) := by
  by_cases hr : a = s.running
  · subst hr
    have htask : s.enter.save.tasks s.running =
        { regs := { (s.tasks s.running).regs with kernelRsp := s.tssRsp - 40 }
          stack := Function.update (s.tasks s.running).stack (s.tssRsp - 40) s.cpu } := by
      refine (Function.update_self ..).trans ?_
      rw [show s.enter.tasks s.enter.running = _ from Function.update_self ..]
      rfl
    have hint : s.enter.interrupted s.running = s.cpu := Function.update_self ..
    rw [htask, hint]
    -- it has been switched to before, so that its frame is at `kernelRsp` itself
    refine ⟨h.fits, fun hc => absurd hc h.started, ?_⟩
    dsimp only
    rw [if_neg h.started, Nat.sub_zero, Function.update_self]
  · rw [enter_interrupted_of_ne hr]
    have htask : s.enter.save.tasks a = s.tasks a :=
      (Function.update_of_ne (show a ≠ s.enter.running from hr) _ _).trans (enter_tasks_of_ne hr)
    rw [htask]
    exact h.others a ha hr

/-- **The task that is activated** will return through its next frame. -/
theorem Framed.activate {w : Frame} (h : Framed (s.tasks task) w) :
    let t := (s.activate task).tasks task
    t.stack (t.regs.kernelRsp - t.regs.add) = w ∧ t.regs.count ≠ 0 ∧
      40 ≤ (s.activate task).tssRsp ∧
      ((s.tasks task).regs.count ≠ 0 → t.regs.add = 0) := by
  have htask : (s.activate task).tasks task = { s.tasks task with regs :=
      if (s.tasks task).regs.count = 0 then { (s.tasks task).regs with add := 40, count := 1 }
      else { (s.tasks task).regs with add := 0 } } := Function.update_self ..
  have hframe := h.frame
  simp only [htask]
  by_cases hc : (s.tasks task).regs.count = 0
  · rw [if_pos hc] at hframe
    rw [if_pos hc]
    refine ⟨hframe, Nat.one_ne_zero, ?_, fun hne => absurd hc hne⟩
    simp only [Signals.activate, if_pos hc]
    exact h.room hc
  · rw [if_neg hc] at hframe
    rw [if_neg hc]
    refine ⟨hframe, hc, ?_, fun _ => rfl⟩
    simp only [Signals.activate, if_neg hc]
    exact Nat.le_add_left 40 _

theorem push_of_room {rsp v : Nat} (h : ∀ n < 8, s.mapped task (rsp + n) = true) :
    s.push task rsp v = some { s with
      memory := Function.update s.memory task (ByteMem.write64 (s.memory task) rsp v) } :=
  if_pos (List.all_eq_true.mpr fun n hn => h n (List.mem_range.mp hn))

/-! ### Switching -/

/-- **A switch to `task`** from `s`: what the program that runs then finds, and what else has
changed. -/
structure Switched (s s' : Signals) (task : Nat) : Prop where
  clock : s'.clock = s.clock
  interrupted : s'.interrupted = s.interrupted
  handlers : s'.handlers = s.handlers
  pending : s'.pending = s.pending
  elapsed : s'.elapsed = s.elapsed
  others : ∀ b ≠ task, s'.tasks b = s.save.tasks b
  started : (s'.tasks task).regs.count ≠ 0
  tss : 40 ≤ s'.tssRsp
  plain : ¬ (s.clock.counters task).Due → s'.cpu = s.interrupted task
  rip : (s.clock.counters task).Due → s'.cpu.rip = (s.clock.counters task).functionPointer
  rsp : (s.clock.counters task).Due → s'.cpu.rsp + 8 = (s.interrupted task).rsp
  top : (s.clock.counters task).Due →
    ByteMem.read64 (s'.memory task) s'.cpu.rsp = (s.interrupted task).rip

/-- **`runNextTask`** completes when there is room for what it pushes. -/
theorem FramesOk.runNextTask (h : FramesOk s L) (hL : s.clock.next s.running ∈ L)
    (hstarted : (s.clock.counters (s.clock.next s.running)).Due →
      (s.tasks (s.clock.next s.running)).regs.count ≠ 0)
    (hroom : (s.clock.counters (s.clock.next s.running)).Due →
      s.RoomBelow (s.clock.next s.running)) :
    ∃ s', s.enter.runNextTask = some s' ∧ Switched s.enter s' (s.clock.next s.running) := by
  have hframed := h.save hL
  generalize htask : s.clock.next s.running = task at *
  obtain ⟨hframe, hcount, htss, hadd⟩ := hframed.activate
  have hothers : ∀ b ≠ task, (s.enter.save.activate task).tasks b = s.enter.save.tasks b :=
    fun b hb => Function.update_of_ne hb _ _
  rw [Signals.runNextTask]
  simp only [Option.bind_eq_bind, show s.enter.clock.next s.enter.running = task from htask,
    show (s.enter.save.activate task).clock = s.clock from rfl]
  generalize ht : (s.enter.save.activate task).tasks task = t at *
  by_cases hdue : (s.clock.counters task).Due
  · -- the alarm is delivered
    -- the frame that is rewritten is the interrupted one because the task has run before
    have hcount₀ : (s.enter.save.tasks task).regs.count ≠ 0 := by
      rw [save_count, enter_regs]
      exact hstarted hdue
    obtain ⟨hle, hmapped⟩ := hroom hdue
    have hfits := hframed.fits
    generalize hw : s.enter.interrupted task = w at *
    have hrsp : (w.rsp + (2 ^ 64 - 8)) % 2 ^ 64 = w.rsp - 8 := by
      have := hfits.2
      omega
    rw [hadd hcount₀, Nat.sub_zero] at hframe
    rw [if_pos hdue, changeToAlarmFunction]
    simp only [ht, hframe, hrsp]
    rw [push_of_room (by exact hmapped)]
    refine ⟨_, rfl, rfl, rfl, rfl, rfl, rfl, fun b hb => ?_, ?_, htss, fun hc => absurd hdue hc, ?_,
      ?_, ?_⟩
    · exact (Function.update_of_ne hb _ _).trans (hothers b hb)
    all_goals
      simp only [Signals.moveToNextProcess, Function.update_self, hadd hcount₀, Nat.sub_zero]
    · exact hcount
    · exact fun _ => rfl
    · intro _
      have : s.enter.interrupted task = w := hw
      rw [this]
      omega
    · intro _
      have : s.enter.interrupted task = w := hw
      rw [this]
      exact ByteMem.read64_write64_self _ _ hfits.1
  · rw [if_neg hdue]
    refine ⟨_, rfl, rfl, rfl, rfl, rfl, rfl, hothers, ?_, htss, fun _ => ?_,
      fun hc => absurd hc hdue, fun hc => absurd hc hdue, fun hc => absurd hc hdue⟩
    · exact ht ▸ hcount
    · exact (congrArg (fun t : Thread => t.stack (t.regs.kernelRsp - t.regs.add)) ht).trans hframe

/-- What the program that runs then finds fits the registers. -/
theorem Switched.fits (h : Switched s s' task) (hint : Fits (s.interrupted task))
    (hword : (s.clock.counters task).functionPointer < 2 ^ 64) : Fits s'.cpu := by
  by_cases hdue : (s.clock.counters task).Due
  · -- a handler is a word as well, and the push does not wrap
    have hrsp := h.rsp hdue
    have hle := hint.2
    refine ⟨?_, by omega⟩
    rw [h.rip hdue]
    exact hword
  · rw [h.plain hdue]
    exact hint

/-- The frames after a switch, where the clock gets on to the task. -/
theorem Switched.framesOk {c' : Clock} {e : Clock.Event} {L' : List Nat}
    (h : Switched s.enter s' task) (hframes : FramesOk s L) (ha : task ∈ L)
    (hword : (s.clock.counters task).functionPointer < 2 ^ 64) (hrun : c'.runningThread = task)
    (hL : ∀ a ∈ L', a ∈ L) : FramesOk (s'.advance e c') L' where
  started := by
    rw [show (s'.advance e c').running = task from hrun]
    exact h.started
  tss := h.tss
  fits := h.fits (hframes.save ha).fits hword
  others a haL hne := by
    rw [show (s'.advance e c').running = task from hrun] at hne
    have hframed := hframes.save (hL a haL)
    rw [← h.others a hne] at hframed
    exact (congrFun h.interrupted a).symm ▸ hframed

/-! ### Alarms -/

/-- The handler that the event registers for `a`. -/
def registration (c : Clock) (a : Nat) : Clock.Event → Option Nat
  | .setAlarmFP functionPointer => if c.runningThread = a then some functionPointer else none
  | _ => none

theorem registration_eq_some {c : Clock} {e : Clock.Event} {fp : Nat}
    (h : registration c a e = some fp) : e = .setAlarmFP fp ∧ c.runningThread = a := by
  cases e with
  | setAlarmFP functionPointer =>
    rw [registration] at h
    split at h
    · exact ⟨by rw [Option.some.inj h], ‹_›⟩
    · cases h
  | _ => cases h

theorem registration_eq_none {c : Clock} {e : Clock.Event} (h : ∀ fp, e ≠ .setAlarmFP fp) :
    registration c a e = none := by
  cases hreg : registration c a e with
  | none => rfl
  | some fp => exact absurd (registration_eq_some hreg).1 (h fp)

/-- **The handler of a task after a step.** -/
theorem countersAfter_functionPointer (c : Clock) (e : Clock.Event) (a : Nat) :
    (c.countersAfter e a).functionPointer =
      if Alarm.Delivers c a e then 0
      else (registration c a e).getD (c.counters a).functionPointer := by
  rw [countersAfter]
  -- an interrupt that counts a second registers and delivers nothing
  by_cases hs : c.Second e
  · have hd : ¬ Alarm.Delivers c a e := fun hc => hc.1.2.1 hs.2
    have hreg : registration c a e = none := registration_eq_none fun fp hc => by
      have := hs.1
      rw [hc] at this
      cases this
    rw [if_pos hs, if_neg hd, hreg]
    rfl
  rw [if_neg hs]
  -- one that switches to `a` delivers its alarm if it is due
  by_cases hsw : c.Switches e ∧ a = c.next c.runningThread
  · have hreg : registration c a e = none := registration_eq_none fun fp hc => by
      have := hsw.1.1
      rw [hc] at this
      cases this
    rw [if_pos hsw, deliver, hreg]
    by_cases hdue : (c.counters a).Due
    · rw [if_pos hdue, if_pos ⟨hsw.1, hsw.2, hdue⟩]
    · rw [if_neg hdue, if_neg fun hc => hdue hc.2.2]
      rfl
  rw [if_neg hsw, if_neg fun hc => hsw ⟨hc.1, hc.2.1⟩]
  -- what is left are the calls, which change the counters of the running task
  by_cases ha : c.runningThread = a
  · subst ha
    cases e with
    | setAlarmFP functionPointer =>
      rw [called, setAlarmFP, registration, if_pos rfl]
      simp only [Clock.modify, Function.update_self]
      rfl
    | setAlarm seconds =>
      rw [registration_eq_none fun _ => Clock.Event.noConfusion, called, setAlarm]
      split
      · rfl
      · simp only [Clock.modify, Function.update_self]
        rfl
    | getCounter =>
      rw [registration_eq_none fun _ => Clock.Event.noConfusion, called, getCounter]
      split
      · simp only [Clock.modify, Function.update_self]
        rfl
      · rfl
    | setSleep seconds =>
      rw [registration_eq_none fun _ => Clock.Event.noConfusion, called, setSleep]
      simp only [Clock.modify, Function.update_self]
      rfl
    | _ =>
      rw [registration_eq_none fun _ => Clock.Event.noConfusion]
      rfl
  · rw [(c.called_frame e).2.2.2.2.2 a (Ne.symm ha)]
    cases hreg : registration c a e with
    | none => rfl
    | some fp => exact absurd (registration_eq_some hreg).2 ha

/-- **The alarm of a task on the ring**: its count is that of its request, a running count has a
handler, which the task has registered, and a task that has never run has no alarm. -/
structure AlarmOk (s : Signals) (a : Nat) : Prop where
  armed : Alarm.Armed a (s.alarm a)
  handler : (s.clock.counters a).currAlarmCount ≠ 0 → (s.clock.counters a).functionPointer ≠ 0
  registered : (s.clock.counters a).functionPointer ≠ 0 →
    (s.clock.counters a).functionPointer ∈ s.handlers a
  word : (s.clock.counters a).functionPointer < 2 ^ 64
  started : (s.tasks a).regs.count = 0 → (s.clock.counters a).currAlarmCount = 0

theorem AlarmOk.congr (h : AlarmOk s a) (hc : s'.clock = s.clock)
    (hp : s'.pending a = s.pending a) (he : s'.elapsed a = s.elapsed a)
    (hh : ∀ fp ∈ s.handlers a, fp ∈ s'.handlers a)
    (hs : (s'.tasks a).regs.count = 0 → (s.tasks a).regs.count = 0) : AlarmOk s' a where
  armed := by
    rw [show s'.alarm a = s.alarm a by rw [alarm, alarm, hc, hp, he]]
    exact h.armed
  handler := by
    rw [hc]
    exact h.handler
  registered hne := by
    rw [hc] at hne ⊢
    exact hh _ (h.registered hne)
  word := by
    rw [hc]
    exact h.word
  started h0 := by
    rw [hc]
    exact h.started (hs h0)

/-- **A step of the clock** keeps it. -/
theorem AlarmOk.advance {c' : Clock} {e : Clock.Event} {L' D' : List Nat} (h : AlarmOk s a)
    (hst : s.clock.Steps L e c' L' D') (ha : a ∈ L) (hleave : s.clock.leaves e ≠ some a)
    (hreq : ∀ r, Alarm.request s.clock a e = some r → r < 2 ^ 64 ∧ (s.tasks a).regs.count ≠ 0)
    (hreg : ∀ fp, registration s.clock a e = some fp → fp < 2 ^ 64 ∧ fp ∈ s.handlers a ∧
      (fp = 0 → (s.clock.counters a).currAlarmCount = 0)) : AlarmOk (s.advance e c') a := by
  have hcurr := congrArg Prod.fst (Alarm.countersAfter_alarm s.clock e a)
  have hfp := countersAfter_functionPointer s.clock e a
  rw [← hst.counters a ha hleave] at hcurr hfp
  dsimp only at hcurr
  refine ⟨h.armed.after hst ha hleave fun r hr => (hreq r hr).1, ?_, ?_, ?_, ?_⟩ <;>
    dsimp only [Signals.advance]
  · intro hne
    by_cases hd : Alarm.Delivers s.clock a e
    · rw [if_pos hd] at hcurr
      exact absurd hcurr hne
    rw [hfp, if_neg hd]
    rw [if_neg hd] at hcurr
    cases hg : registration s.clock a e with
    | some fp =>
      -- the count does not start with a handler
      obtain ⟨rfl, -⟩ := registration_eq_some hg
      refine fun h0 => hne ?_
      rw [hcurr, Alarm.request_eq_none fun _ => Clock.Event.noConfusion]
      dsimp only
      rw [(hreg fp hg).2.2 h0]
      exact ite_self _
    | none =>
      cases hr : Alarm.request s.clock a e with
      | some r => exact (Alarm.request_eq_some hr).2.2
      | none =>
        -- a count that goes on has a handler already
        refine h.handler fun h0 => hne ?_
        rw [hcurr, hr, h0]
        exact ite_self _
  · intro hne
    by_cases hd : Alarm.Delivers s.clock a e
    · rw [if_pos hd] at hfp
      exact absurd hfp hne
    rw [if_neg hd] at hfp
    rw [hfp] at hne ⊢
    cases hg : registration s.clock a e with
    | some fp => exact (hreg fp hg).2.1
    | none =>
      rw [hg] at hne
      exact h.registered hne
  · rw [hfp]
    split
    · exact Nat.two_pow_pos 64
    · cases hg : registration s.clock a e with
      | some fp => exact (hreg fp hg).1
      | none => exact h.word
  · intro h0
    rw [hcurr]
    split
    · rfl
    · cases hr : Alarm.request s.clock a e with
      | some r => exact absurd h0 (hreq r hr).2
      | none =>
        dsimp only
        rw [h.started h0]
        exact ite_self _

/-- A child has no alarm. -/
theorem alarmOk_child {c' : Clock} {L' D' : List Nat} (hv : c'.Valid L' D') (ha : a ∈ L')
    (hz : c'.counters a = .zeroed) (hp : s.pending a = none) :
    AlarmOk (s.advance (.fork a) c') a where
  armed := by
    have hd : ¬ Alarm.Delivers s.clock a (.fork a) := fun hc => Clock.Event.noConfusion hc.1.1
    refine ⟨⟨L', D', hv, ha⟩, fun _ => by rw [alarm, Signals.advance, hz]; rfl, fun r hr => ?_⟩
    have hnone : (s.advance (.fork a) c').pending a = none := by
      simp only [Signals.advance, Alarm.after, Signals.alarm, if_neg hd, hp]
      rfl
    exact absurd (hnone.symm.trans hr) (Option.some_ne_none r).symm
  handler hne := absurd (by rw [Signals.advance, hz]; rfl) hne
  registered hne := absurd (by rw [Signals.advance, hz]; rfl) hne
  word := by
    rw [Signals.advance, hz]
    exact Nat.two_pow_pos 64
  started _ := by
    rw [Signals.advance, hz]
    rfl

/-! ### Runs -/

/-- **The invariant.** -/
structure Sound (s : Signals) (L D : List Nat) : Prop where
  valid : s.clock.Valid L D
  alarms : ∀ a ∈ L, AlarmOk s a
  frames : FramesOk s L

/-- The invariant after a step of the clock, from what the event does outside it. -/
theorem Sound.of_advance {c' : Clock} {e : Clock.Event} {L' D' : List Nat}
    (hst : s.clock.Steps L e c' L' D') (hl : s.clock.leaves e = none)
    (halarms : ∀ a ∈ L, AlarmOk s a)
    (hreq : ∀ a r, Alarm.request s.clock a e = some r → r < 2 ^ 64 ∧ (s.tasks a).regs.count ≠ 0)
    (hreg : ∀ a fp, registration s.clock a e = some fp → fp < 2 ^ 64 ∧ fp ∈ s.handlers a ∧
      (fp = 0 → (s.clock.counters a).currAlarmCount = 0))
    (hchild : ∀ a, e = .fork a → s.pending a = none)
    (hframes : FramesOk (s.advance e c') L') : Sound (s.advance e c') L' D' where
  valid := hst.valid
  alarms a ha := by
    rcases hst.arrives a ha with hL | ⟨rfl, hz⟩
    · have hleave : s.clock.leaves e ≠ some a := by
        rw [hl]
        exact (Option.some_ne_none a).symm
      exact (halarms a hL).advance hst hL hleave (hreq a) (hreg a)
    · exact alarmOk_child hst.valid ha hz (hchild a rfl)
  frames := hframes

/-- **A delivery as it should be**: the task has registered the handler, its last request is as old
as it asked and has not been delivered before, and it goes on in the handler, with the interrupted
`rip` on top of its stack. -/
structure Redirects (s s' : Signals) (a : Nat) : Prop where
  handler : (s.clock.counters a).functionPointer ≠ 0 ∧
    (s.clock.counters a).functionPointer ∈ s.handlers a
  requested : ∃ seconds, s.pending a = some seconds ∧ seconds ≤ s.elapsed a
  once : s'.pending a = none
  running : s'.running = a
  rip : s'.cpu.rip = (s.clock.counters a).functionPointer
  rsp : s'.cpu.rsp + 8 = (s.enter.interrupted a).rsp
  top : ByteMem.read64 (s'.memory a) s'.cpu.rsp = (s.enter.interrupted a).rip

/-- **An event as it should be**: alarms are delivered as they should be, and where none is
delivered the program that runs goes on where it was interrupted. -/
structure Delivered (s : Signals) (e : Event) (s' : Signals) : Prop where
  redirects : ∀ a, s.Delivers a e → Redirects s s' a
  plain : e.clock ≠ none → ¬ s.Delivers s'.running e → s'.cpu = s.enter.interrupted s'.running

/-- The counters of a task whose alarm is due. -/
theorem Sound.redirects (h : Sound s L D) (ha : a ∈ L) (hdue : (s.clock.counters a).Due) :
    ((s.clock.counters a).functionPointer ≠ 0 ∧
      (s.clock.counters a).functionPointer ∈ s.handlers a) ∧
      ∃ seconds, s.pending a = some seconds ∧ seconds ≤ s.elapsed a := by
  have hfp := (h.alarms a ha).handler hdue.ne_zero
  exact ⟨⟨hfp, (h.alarms a ha).registered hfp⟩, (h.alarms a ha).armed.of_due hdue⟩

/-- A switch delivers the alarm of the task that is next, if it is due. -/
theorem delivers_timer (hsw : s.clock.Switches (.timer false)) : s.Delivers a (.timer false) ↔
    a = s.clock.next s.running ∧ (s.clock.counters a).Due := by
  constructor
  · rintro ⟨e', -, hd⟩
    exact hd.2
  · rintro ⟨ha, hdue⟩
    exact ⟨.timer false, rfl, hsw, ha, hdue⟩

/-- An interrupt that switches tasks. -/
theorem Sound.switch (h : Sound s L D) (hsw : s.clock.Switches (.timer false))
    (hc : s.Careful (.timer false)) :
    ∃ s' L' D', s.step (.timer false) = some s' ∧ Sound s' L' D' ∧
      Delivered s (.timer false) s' := by
  obtain ⟨c', L', D', hc', hst⟩ := h.valid.timer false
  have hrun : c'.runningThread = s.clock.next s.running :=
    (timerIntrHdlr_running hc').trans (if_pos hsw)
  have hL : s.clock.next s.running ∈ L := h.valid.ring.next_mem h.valid.ring.mem
  obtain ⟨t, ht, hw⟩ := h.frames.runNextTask hL
    (fun hdue h0 => hdue.ne_zero ((h.alarms _ hL).started h0))
    (fun hdue => hc.2 _ ((delivers_timer hsw).mpr ⟨rfl, hdue⟩))
  have hclock : t.clock = s.clock := hw.clock
  have hact : s.act (.timer false) = some t := (if_pos hsw).trans ht
  refine ⟨t.advance (.timer false) c', L', D', ?_, ?_, ?_, ?_⟩
  · rw [step, hact]
    simp only [Option.bind_eq_bind, Option.bind_some, Event.clock, Clock.step, hc']
    rfl
  · -- the invariant: an interrupt requests and registers nothing
    refine .of_advance (hclock.symm ▸ hst) rfl (fun a ha => ?_) (fun a r hr => ?_)
      (fun a fp hfp => ?_) (fun a ha => Clock.Event.noConfusion ha) ?_
    · refine (h.alarms a ha).congr hclock (congrFun hw.pending a) (congrFun hw.elapsed a)
        (fun fp hfp => hw.handlers ▸ hfp) fun h0 => ?_
      by_cases hat : a = s.clock.next s.running
      · exact absurd (hat ▸ h0) hw.started
      · rwa [hw.others a hat, save_count, enter_regs] at h0
    · exact Clock.Event.noConfusion (Alarm.request_eq_some hr).1
    · exact Clock.Event.noConfusion (registration_eq_some hfp).1
    · exact hw.framesOk h.frames hL (h.alarms _ hL).word hrun fun a ha =>
        (hst.arrives a ha).resolve_right fun hc => Clock.Event.noConfusion hc.1
  · -- the delivery
    intro a hd
    obtain ⟨ha, hdue⟩ := (delivers_timer hsw).mp hd
    obtain ⟨hhandler, hreq⟩ := h.redirects (ha ▸ hL) hdue
    subst ha
    refine ⟨hhandler, hreq, ?_, hrun, hw.rip hdue, hw.rsp hdue, hw.top hdue⟩
    have hdel : Alarm.Delivers t.clock (s.clock.next s.running) (.timer false) := by
      rw [hclock]
      exact ⟨hsw, rfl, hdue⟩
    exact if_pos hdel
  · intro _ hd
    have hrunning : (t.advance (.timer false) c').running = s.clock.next s.running := hrun
    rw [hrunning] at hd ⊢
    exact hw.plain fun hdue => hd ((delivers_timer hsw).mpr ⟨rfl, hdue⟩)

/-- Every other event of the clock, from what it does outside it: it returns to the running
program. -/
theorem Sound.stay {t : Signals} {e' : Clock.Event} (h : Sound s L D) (he : e.clock = some e')
    (hact : s.act e = some t) (hadm : s.clock.Admits L D e')
    (hl : s.clock.leaves e' = none) (hrun : ∀ c', s.clock.step e' = some c' →
      c'.runningThread = s.running) (hsw : ¬ s.clock.Switches e')
    (hclock : t.clock = s.clock) (hcpu : t.cpu = s.cpu) (htss : t.tssRsp = s.tssRsp)
    (hold : ∀ a ∈ L, t.pending a = s.pending a ∧ t.elapsed a = s.elapsed a ∧
      (∀ fp ∈ s.handlers a, fp ∈ t.handlers a) ∧ t.tasks a = s.enter.tasks a ∧
      t.interrupted a = s.enter.interrupted a)
    (hreq : ∀ a r, Alarm.request s.clock a e' = some r → r < 2 ^ 64 ∧ a = s.running)
    (hreg : ∀ a fp, registration s.clock a e' = some fp → fp < 2 ^ 64 ∧ fp ∈ t.handlers a ∧
      (fp = 0 → (s.clock.counters a).currAlarmCount = 0))
    (hchild : ∀ a, e' = .fork a → t.pending a = none ∧ Framed (t.tasks a) (t.interrupted a)) :
    ∃ s' L' D', s.step e = some s' ∧ Sound s' L' D' ∧ Delivered s e s' := by
  obtain ⟨c', L', D', hc', hst⟩ := h.valid.step hadm
  have hr := hold s.running h.valid.ring.mem
  have hcount : (t.tasks s.running).regs.count ≠ 0 := by
    rw [hr.2.2.2.1, enter_regs]
    exact h.frames.started
  have hrunning : (t.advance e' c').running = s.running := hrun c' hc'
  refine ⟨t.advance e' c', L', D', ?_, ?_, ?_, ?_⟩
  · rw [step, hact, he]
    simp only [Option.bind_eq_bind, Option.bind_some, hc']
    rfl
  · refine .of_advance (hclock.symm ▸ hst) (hclock.symm ▸ hl) (fun a ha => ?_)
      (fun a r hreq' => ?_) (fun a fp hfp => ?_) (fun a ha => (hchild a ha).1) ?_
    · obtain ⟨hp, hel, hh, ht, -⟩ := hold a ha
      refine (h.alarms a ha).congr hclock hp hel hh fun h0 => ?_
      rwa [ht, enter_regs] at h0
    · rw [hclock] at hreq'
      obtain ⟨hlt, rfl⟩ := hreq a r hreq'
      exact ⟨hlt, hcount⟩
    · rw [hclock] at hfp ⊢
      exact hreg a fp hfp
    · refine ⟨by rw [hrunning]; exact hcount, by rw [Signals.advance, htss]; exact h.frames.tss,
        by rw [Signals.advance, hcpu]; exact h.frames.fits, fun a ha hne => ?_⟩
      rw [hrunning] at hne
      rcases hst.arrives a ha with hL | ⟨rfl, -⟩
      · -- the others have been left as they were
        obtain ⟨-, -, -, ht, hi⟩ := hold a hL
        have := h.frames.enter.others a hL hne
        rw [← ht, ← hi] at this
        exact this
      · exact (hchild a rfl).2
  · rintro a ⟨e'', he'', hd⟩
    obtain rfl : e'' = e' := Option.some.inj (he''.symm.trans he)
    exact absurd hd.1 hsw
  · intro _ _
    rw [hrunning]
    exact hcpu.trans (Function.update_self s.running s.cpu s.interrupted).symm

/-- **One step.** -/
theorem Sound.step (h : Sound s L D) (ha : s.Allowed e) (hc : s.Careful e) :
    ∃ s' L' D', s.step e = some s' ∧ Sound s' L' D' ∧ Delivered s e s' := by
  cases e with
  | user cpu memory mapped =>
    -- the program itself: neither the clock nor a record changes
    refine ⟨_, L, D, rfl, ⟨h.valid, fun a haL => ?_, ?_⟩, ?_, fun hne => absurd rfl hne⟩
    · exact (h.alarms a haL).congr rfl rfl rfl (fun _ => id) id
    · exact ⟨h.frames.started, h.frames.tss, ha, h.frames.others⟩
    · rintro a ⟨e', he', -⟩
      cases he'
  | timer mutex =>
    by_cases hsw : s.clock.Switches (.timer mutex)
    · obtain rfl : mutex = false := Clock.Event.timer.inj hsw.1
      exact h.switch hsw hc
    · refine h.stay (t := s.enter) rfl (if_neg hsw) trivial rfl (fun c' hc' => ?_) hsw rfl rfl rfl
        (fun a _ => ⟨rfl, rfl, fun _ => id, rfl, rfl⟩) (fun a r hr => ?_) (fun a fp hfp => ?_)
        fun a he => Clock.Event.noConfusion he
      · exact (timerIntrHdlr_running hc').trans (if_neg hsw)
      · exact Clock.Event.noConfusion (Alarm.request_eq_some hr).1
      · exact Clock.Event.noConfusion (registration_eq_some hfp).1
  | fork task kernelRsp =>
    have hadm : s.clock.Admits L D (.fork task) := ha.1 L D h.valid
    have hne : ∀ a ∈ L, a ≠ task := by
      rintro a haL rfl
      exact hadm.2 (List.mem_append_left D haL)
    refine h.stay rfl rfl hadm rfl (fun c' hc' => ?_) (fun hsw => Clock.Event.noConfusion hsw.1) rfl
      rfl rfl (fun a haL => ?_) (fun a r hr => ?_) (fun a fp hfp => ?_) (fun a he => ?_)
    · obtain rfl := Option.some.inj hc'
      rfl
    · dsimp only
      rw [Function.update_of_ne (hne a haL), Function.update_of_ne (hne a haL),
        Function.update_of_ne (hne a haL), Function.update_of_ne (hne a haL),
        Function.update_of_ne (hne a haL)]
      exact ⟨rfl, rfl, fun _ => id, rfl, rfl⟩
    · exact Clock.Event.noConfusion (Alarm.request_eq_some hr).1
    · exact Clock.Event.noConfusion (registration_eq_some hfp).1
    · -- the child returns where its parent called
      obtain rfl : task = a := Clock.Event.fork.inj he
      dsimp only
      rw [Function.update_self, Function.update_self, Function.update_self]
      refine ⟨rfl, h.frames.fits, fun _ => ha.2, ?_⟩
      dsimp only
      rw [if_pos rfl]
      exact Function.update_self ..
  | setAlarmFP functionPointer =>
    refine h.stay rfl rfl trivial rfl (fun c' hc' => ?_) (fun hsw => Clock.Event.noConfusion hsw.1)
      rfl rfl rfl (fun a haL => ?_) (fun a r hr => ?_) (fun a fp hfp => ?_)
      fun a he => Clock.Event.noConfusion he
    · obtain rfl := Option.some.inj hc'
      rfl
    · refine ⟨rfl, rfl, fun fp hfp => ?_, rfl, rfl⟩
      dsimp only
      by_cases hr : a = s.running
      · subst hr
        rw [Function.update_self]
        exact List.mem_cons_of_mem _ hfp
      · rwa [Function.update_of_ne hr]
    · exact Clock.Event.noConfusion (Alarm.request_eq_some hr).1
    · obtain ⟨he, rfl⟩ := registration_eq_some hfp
      obtain rfl : functionPointer = fp := Clock.Event.setAlarmFP.inj he
      refine ⟨ha, ?_, fun h0 => hc.1 (by rw [h0])⟩
      dsimp only
      rw [show s.clock.runningThread = s.running from rfl, Function.update_self]
      exact List.mem_cons_self
  | setAlarm seconds =>
    refine h.stay rfl rfl trivial rfl (fun c' hc' => ?_) (fun hsw => Clock.Event.noConfusion hsw.1)
      rfl rfl rfl (fun a _ => ⟨rfl, rfl, fun _ => id, rfl, rfl⟩) (fun a r hr => ?_)
      (fun a fp hfp => ?_) fun a he => Clock.Event.noConfusion he
    · obtain rfl := Option.some.inj hc'
      exact (s.clock.called_frame (.setAlarm seconds)).2.1
    · obtain ⟨he, hrun, -⟩ := Alarm.request_eq_some hr
      obtain rfl : seconds = r := Clock.Event.setAlarm.inj he
      exact ⟨ha, hrun.symm⟩
    · exact Clock.Event.noConfusion (registration_eq_some hfp).1

/-- **The start**: no task on the ring has an alarm or a handler. -/
structure Starts (s : Signals) (L D : List Nat) : Prop where
  valid : s.clock.Valid L D
  quiet : ∀ a ∈ L, (s.clock.counters a).currAlarmCount = 0 ∧
    (s.clock.counters a).functionPointer = 0 ∧ s.pending a = none
  frames : FramesOk s L

theorem Starts.sound (h : Starts s L D) : Sound s L D := by
  refine ⟨h.valid, fun a ha => ?_, h.frames⟩
  obtain ⟨hcurr, hfp, hp⟩ := h.quiet a ha
  refine ⟨⟨⟨L, D, h.valid, ha⟩, fun _ => hcurr, fun r hr => ?_⟩, fun hne => absurd hcurr hne,
    fun hne => absurd hfp hne, ?_, fun _ => hcurr⟩
  · exact absurd (hp.symm.trans hr) (Option.some_ne_none r).symm
  · rw [hfp]
    exact Nat.two_pow_pos 64

/-- **Delivering alarms.** From a start without alarms, in whatever order programs run, interrupts
come and calls are made, as long as no handler is taken away while the count of its alarm runs and
there is room on the user stacks: every further step completes, alarms are delivered as they
should be, and a program whose alarm is not delivered goes on where it was interrupted. -/
theorem alarm_delivery_of_run {s₀ : Signals} (h : Starts s₀ L D) {es : List Event}
    (hr : Run Signals.step (fun s e => s.Allowed e ∧ s.Careful e) s₀ es s)
    (ha : s.Allowed e) (hc : s.Careful e) : ∃ s', s.step e = some s' ∧ Delivered s e s' := by
  have hsound : ∃ L D, Sound s L D := by
    refine hr.invariant_of_completes (I := fun s => ∃ L D, Sound s L D) ⟨L, D, h.sound⟩ ?_
    rintro t e ⟨L₁, D₁, ht⟩ ⟨hallow, hcare⟩
    obtain ⟨t', L', D', hstep, ht', -⟩ := ht.step hallow hcare
    exact ⟨t', hstep, L', D', ht'⟩
  obtain ⟨L₁, D₁, hs⟩ := hsound
  obtain ⟨s', -, -, hs', -, hd⟩ := hs.step ha hc
  exact ⟨s', hs', hd⟩

/-- A task alone, with all of its memory mapped. -/
def lone : Signals where
  clock := Clock.alone
  tasks _ := ⟨{ Task.zeroed.regs with count := 1 }, fun _ => ⟨0, 0, 0⟩⟩
  tssRsp := kernbase + 0x3000
  cpu := ⟨0x400100, 0x202, 0x7000⟩
  memory _ _ := 0
  mapped _ _ := true
  interrupted _ := ⟨0, 0, 0⟩
  handlers _ := []
  pending _ := none
  elapsed _ := 0

theorem lone_starts : lone.Starts [lone.running] [] where
  valid := Clock.alone_valid
  quiet _ _ := ⟨rfl, rfl, rfl⟩
  frames := by
    refine ⟨by decide, by decide, ⟨by decide, by decide⟩, fun a ha hne => ?_⟩
    exact absurd (List.mem_singleton.mp ha) hne

/-- An event that is no switch delivers nothing. -/
theorem careful_of_not_switches {s : Signals} {e : Event} (h : e ≠ .setAlarmFP 0)
    (hsw : ∀ e' ∈ e.clock, ¬ s.clock.Switches e') : s.Careful e :=
  ⟨fun hc => absurd hc h, fun _ ⟨e', he', hd⟩ => absurd hd.1 (hsw e' he')⟩

/-- A switch delivers the alarm of the task that is next. -/
theorem careful_of_room {s : Signals} (h : s.RoomBelow (s.clock.next s.running)) :
    s.Careful (.timer false) := by
  refine ⟨fun hc => Event.noConfusion hc, ?_⟩
  rintro a ⟨e', -, -, rfl, -⟩
  exact h

/-- The task alone requests an alarm in no seconds, and the third interrupt delivers it. -/
theorem alarm_delivery_lone : ∃ s s', s.step (.timer false) = some s' ∧
    Delivered s (.timer false) s' ∧ s'.cpu.rip = 0x400000 := by
  have hr : Run Signals.step (fun s e => s.Allowed e ∧ s.Careful e) lone
      [.setAlarmFP 0x400000, .setAlarm 0, .timer false, .timer false] _ :=
    .cons ⟨show 0x400000 < 2 ^ 64 by decide,
        careful_of_not_switches (by simp) (by rintro e' ⟨⟩; decide)⟩ rfl
      (.cons ⟨Nat.two_pow_pos 64, careful_of_not_switches (by simp) (by rintro e' ⟨⟩; decide)⟩ rfl
        (.cons ⟨trivial, careful_of_not_switches (by simp) (by rintro e' ⟨⟩; decide)⟩ rfl
          (.cons ⟨trivial, careful_of_not_switches (by simp) (by rintro e' ⟨⟩; decide)⟩ rfl
            (.nil _))))
  obtain ⟨s', hs', hd⟩ := alarm_delivery_of_run lone_starts hr (e := .timer false) trivial
    (careful_of_room ⟨by decide, fun _ _ => rfl⟩)
  refine ⟨_, s', hs', hd, ?_⟩
  obtain rfl := Option.some.inj hs'
  decide

/-- **A handler that is taken away.** The task alone takes its handler away before the alarm is
delivered, and goes on at address 0. -/
theorem alarm_delivery_to_null : ∃ s s',
    Run Signals.step (fun s e => s.Allowed e) lone
      [.setAlarmFP 0x400000, .setAlarm 0, .setAlarmFP 0, .timer false, .timer false] s ∧
    s.step (.timer false) = some s' ∧ s.Delivers s.running (.timer false) ∧ s'.cpu.rip = 0 ∧
    ¬ Delivered s (.timer false) s' := by
  have hr : Run Signals.step (fun s e => s.Allowed e) lone
      [.setAlarmFP 0x400000, .setAlarm 0, .setAlarmFP 0, .timer false, .timer false] _ :=
    .cons (show 0x400000 < 2 ^ 64 by decide) rfl (.cons (Nat.two_pow_pos 64) rfl
      (.cons (Nat.two_pow_pos 64) rfl (.cons trivial rfl (.cons trivial rfl (.nil _)))))
  have hdel := fun (s : Signals) (h : Alarm.Delivers s.clock s.running (.timer false)) =>
    show s.Delivers s.running (.timer false) from ⟨.timer false, rfl, h⟩
  refine ⟨_, _, hr, rfl, hdel _ (by decide), by decide, fun hd => ?_⟩
  exact (hd.redirects _ (hdel _ (by decide))).handler.1 (by decide)

end Signals

end Sbunix
