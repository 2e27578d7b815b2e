import Sbunix.Clock

/-!
# Sleeping

A task that called `setSleep` with `n` polls with `getCounter`. `Sleeper` carries the clock together
with the seconds that have been completed since that call and with whether the task has polled at
or after `n` of them; what holds of a sleep holds at any point of a run in which the task stays on
the ring and does not call `setSleep` again (`Undisturbed`).

The invariant is `Asleep`: the count is one more than the seconds until the first such poll, and
zero from there on. Zero is also what the count becomes when it passes the largest 64-bit value, so
a task that has not polled for 2⁶⁴ − 1 seconds is not woken any more (`sleep_oversleeps`).
-/

namespace Sbunix

open Runs

/-- A sleeping task: the clock, the seconds since the call of `setSleep`, and whether the task has
polled when they were enough. -/
structure Sleeper where
  clock : Clock
  elapsed : Nat
  polled : Bool

namespace Sleeper

open Clock Counters

/-- A step, for the task `a` that asked for `n` seconds. -/
def step (a n : Nat) (s : Sleeper) (e : Event) : Option Sleeper :=
  (s.clock.step e).map fun c =>
    { clock := c
      elapsed := if s.clock.Second e then s.elapsed + 1 else s.elapsed
      polled := s.polled ||
        decide (e = .getCounter ∧ s.clock.runningThread = a ∧ n ≤ s.elapsed) }

/-- `a` stays on the ring and calls `setSleep` no more. The ring is one, and the two lists are all
that it and the queue hold. -/
def Undisturbed (a : Nat) (s : Sleeper) (e : Event) : Prop :=
  (∃ L D, s.clock.Valid L D ∧ s.clock.Admits L D e) ∧ s.clock.leaves e ≠ some a ∧
    ∀ seconds, s.clock.runningThread = a → e ≠ .setSleep seconds

variable {a n : Nat} {c : Clock} {s s' : Sleeper} {e : Event} {L D : List Nat}

/-- **The sleep of a task after a step** in which it makes no call of `setSleep`. -/
theorem countersAfter_sleep (hset : ∀ seconds, c.runningThread = a → e ≠ .setSleep seconds) :
    ((c.countersAfter e a).currSleepCount, (c.countersAfter e a).expectedSleepCount) =
      if c.Second e then
        (advance (c.counters a).currSleepCount, (c.counters a).expectedSleepCount)
      else if e = .getCounter ∧ c.runningThread = a ∧
          (c.counters a).expectedSleepCount < (c.counters a).currSleepCount then (0, 0)
      else ((c.counters a).currSleepCount, (c.counters a).expectedSleepCount) := by
  rw [countersAfter]
  by_cases hs : c.Second e
  · rw [if_pos hs, if_pos hs]
    rfl
  rw [if_neg hs, if_neg hs]
  by_cases hd : c.Switches e ∧ a = c.next c.runningThread
  · -- an alarm is delivered, a sleep is not
    have he : e ≠ .getCounter := fun hc => by
      rw [hc] at hd
      cases hd.1.1
    rw [if_pos hd, if_neg fun hc => he hc.1, Counters.deliver]
    split <;> rfl
  rw [if_neg hd]
  by_cases ha : c.runningThread = a
  · subst ha
    cases e with
    | setSleep seconds => exact absurd rfl (hset seconds rfl)
    | getCounter =>
      rw [called, getCounter, running]
      by_cases hdue : (c.counters c.runningThread).expectedSleepCount <
          (c.counters c.runningThread).currSleepCount
      · rw [if_pos hdue, if_pos ⟨rfl, rfl, hdue⟩]
        simp only [Clock.modify, Function.update_self]
      · rw [if_neg hdue, if_neg fun hc => hdue hc.2.2]
    | setAlarmFP functionPointer =>
      rw [called, setAlarmFP, if_neg fun hc => Event.noConfusion hc.1]
      simp only [Clock.modify, Function.update_self]
    | setAlarm seconds =>
      rw [if_neg fun hc => Event.noConfusion hc.1, called, setAlarm]
      split <;> simp only [Clock.modify, Function.update_self]
    | _ =>
      rw [if_neg fun hc => Event.noConfusion hc.1]
      rfl
  · rw [(c.called_frame e).2.2.2.2.2 a (Ne.symm ha), if_neg fun hc => ha hc.2.1]

/-- **The invariant**: until the task polls after `n` seconds its count runs with them, and from
there on it is zero. -/
structure Asleep (a n : Nat) (s : Sleeper) : Prop where
  valid : ∃ L D, s.clock.Valid L D ∧ a ∈ L
  before : s.polled = false → (s.clock.counters a).currSleepCount = countAfter s.elapsed ∧
    (s.clock.counters a).expectedSleepCount = n
  after : s.polled = true → (s.clock.counters a).currSleepCount = 0

/-- What `getCounter` answers. -/
theorem Asleep.due_iff (h : Asleep a n s) :
    (s.clock.counters a).expectedSleepCount < (s.clock.counters a).currSleepCount ↔
      s.polled = false ∧ n ≤ s.elapsed ∧ s.elapsed < 2 ^ 64 - 1 := by
  cases hp : s.polled with
  | false =>
    obtain ⟨hcurr, hexp⟩ := h.before hp
    rw [hcurr, hexp, lt_countAfter]
    exact (and_iff_right rfl).symm
  | true =>
    rw [h.after hp]
    exact iff_of_false (Nat.not_lt_zero _) fun hc => Bool.noConfusion hc.1

/-- A poll after `n` seconds leaves the count at zero, also where it comes too late. -/
theorem Asleep.count_of_poll (h : Asleep a n s) (hn : n ≤ s.elapsed)
    (hnot : ¬ (s.clock.counters a).expectedSleepCount < (s.clock.counters a).currSleepCount) :
    (s.clock.counters a).currSleepCount = 0 := by
  cases hp : s.polled with
  | true => exact h.after hp
  | false =>
    have hlate : ¬ s.elapsed < 2 ^ 64 - 1 := fun hc => hnot (h.due_iff.mpr ⟨hp, hn, hc⟩)
    rw [(h.before hp).1, countAfter, if_neg (by omega)]

/-- **A step** keeps the invariant. -/
theorem Asleep.step (h : Asleep a n s) (hu : Undisturbed a s e) :
    ∃ s', s.step a n e = some s' ∧ Asleep a n s' := by
  obtain ⟨⟨L, D, hv, hadm⟩, hleave, hset⟩ := hu
  obtain ⟨L₀, D₀, hv₀, ha⟩ := h.valid
  obtain rfl : L₀ = L := hv₀.ring.unique hv.ring
  obtain ⟨c', L', D', hc', hst⟩ := hv.step hadm
  have hcount := (congrArg
    (fun t : Counters => (t.currSleepCount, t.expectedSleepCount)) (hst.counters a ha hleave)).trans
    (countersAfter_sleep hset)
  refine ⟨_, by rw [Sleeper.step, hc', Option.map_some], ⟨L', D', hst.valid,
    hst.stays a ha hleave⟩, ?_, ?_⟩
  · -- no poll has come yet
    intro hp
    obtain ⟨hp, hpoll⟩ := Bool.or_eq_false_iff.mp hp
    obtain ⟨hcurr, hexp⟩ := h.before hp
    by_cases hs : s.clock.Second e
    · rw [if_pos hs, hcurr, hexp, advance_countAfter] at hcount
      dsimp only
      rw [if_pos hs]
      exact Prod.mk.inj hcount
    · have hnot : ¬ (e = .getCounter ∧ s.clock.runningThread = a ∧
          (s.clock.counters a).expectedSleepCount < (s.clock.counters a).currSleepCount) :=
        fun ⟨he, hr, hlt⟩ => of_decide_eq_false hpoll ⟨he, hr, (h.due_iff.mp hlt).2.1⟩
      rw [if_neg hs, if_neg hnot, hcurr, hexp] at hcount
      dsimp only
      rw [if_neg hs]
      exact Prod.mk.inj hcount
  · -- a poll has come, or this is it
    intro hp
    have hzero : s.polled = true ∨ e = .getCounter ∧ s.clock.runningThread = a ∧ n ≤ s.elapsed :=
      (Bool.or_eq_true_iff.mp hp).imp_right of_decide_eq_true
    by_cases hs : s.clock.Second e
    · -- zero does not advance
      have hp' : s.polled = true := hzero.resolve_right fun hc => by
        have := hs.1
        rw [hc.1] at this
        cases this
      rw [if_pos hs, h.after hp'] at hcount
      exact (Prod.mk.inj hcount).1
    · rw [if_neg hs] at hcount
      split at hcount
      · exact (Prod.mk.inj hcount).1
      · rename_i hnot
        refine (Prod.mk.inj hcount).1.trans (hzero.elim h.after fun hc => ?_)
        exact h.count_of_poll hc.2.2 fun hlt => hnot ⟨hc.1, hc.2.1, hlt⟩

/-- The call of `setSleep`. -/
theorem asleep_setSleep (h : c.Valid L D) (n : Nat) :
    Asleep c.runningThread n ⟨c.setSleep n, 0, false⟩ := by
  have hself : (c.setSleep n).counters c.runningThread =
      { c.counters c.runningThread with currSleepCount := 1, expectedSleepCount := n } :=
    Function.update_self ..
  refine ⟨⟨L, D, h.called (.setSleep n), h.ring.mem⟩, fun _ => ?_, fun hc => Bool.noConfusion hc⟩
  dsimp only
  rw [hself]
  exact ⟨rfl, rfl⟩

theorem asleep_of_run (h : c.Valid L D) {es : List Event}
    (hr : Run (step c.runningThread n) (Undisturbed c.runningThread) ⟨c.setSleep n, 0, false⟩ es
      s) : Asleep c.runningThread n s :=
  hr.invariant_of_completes (asleep_setSleep h n) fun _ _ ht hu => ht.step hu

/-- Interrupts one after the other complete a second every 19 times. -/
theorem Asleep.interrupts (h : Asleep a n s) (hi : s.clock.i = 0) (m : Nat) :
    ∃ s', Run (Sleeper.step a n) (Undisturbed a) s (List.replicate m (.timer true)) s' ∧
      Asleep a n s' ∧ s'.elapsed = s.elapsed + m / 19 ∧ s'.clock.i = m % 19 ∧
      s'.polled = s.polled ∧ s'.clock.runningThread = s.clock.runningThread := by
  induction m with
  | zero => exact ⟨s, .nil s, h, rfl, hi, rfl, rfl⟩
  | succ m ih =>
    obtain ⟨s₁, hr, h₁, helapsed, hi₁, hpolled, hrun⟩ := ih
    obtain ⟨L, D, hv, -⟩ := h₁.valid
    have hu : Undisturbed a s₁ (.timer true) :=
      ⟨⟨L, D, hv, trivial⟩, (Option.some_ne_none a).symm, fun _ _ hc => Event.noConfusion hc⟩
    obtain ⟨s₂, hs₂, h₂⟩ := h₁.step hu
    obtain ⟨c', hc', rfl⟩ := Option.map_eq_some_iff.mp hs₂
    obtain ⟨hrun', hi'⟩ := timerIntrHdlr_held hc'
    have hsec : s₁.clock.Second (.timer true) ↔ (m % 19 + 1) % 19 = 0 := by
      rw [Clock.Second, hi₁]
      exact and_iff_right rfl
    refine ⟨_, ?_, h₂, ?_, ?_, ?_, hrun'.trans hrun⟩
    · rw [List.replicate_succ']
      exact hr.snoc hu hs₂
    · -- one more second when the 19th comes
      dsimp only
      rw [helapsed]
      by_cases hs : s₁.clock.Second (.timer true)
      · have := hsec.mp hs
        rw [if_pos hs]
        omega
      · have := mt hsec.mpr hs
        rw [if_neg hs]
        omega
    · dsimp only
      rw [hi', hi₁]
      split <;> omega
    · dsimp only
      rw [hpolled, decide_eq_false fun hc => Event.noConfusion hc.1, Bool.or_false]

/-- **Sleeping.** The running task calls `setSleep` with `n`. Whatever happens afterwards, in any
order (interrupts, switches, forks, exits of others, calls of others and polls of its own), a poll
of the task answers 1 when it is the first one after `n` seconds and they are less than 2⁶⁴ − 1, and
0 otherwise; and every further step completes. -/
theorem getCounter_of_run (h : c.Valid L D) {es : List Event}
    (hr : Run (step c.runningThread n) (Undisturbed c.runningThread) ⟨c.setSleep n, 0, false⟩ es
      s) :
    (s.clock.runningThread = c.runningThread → s.clock.getCounter.1 =
      if s.polled = false ∧ n ≤ s.elapsed ∧ s.elapsed < 2 ^ 64 - 1 then 1 else 0) ∧
    ∀ e, Undisturbed c.runningThread s e → ∃ s', s.step c.runningThread n e = some s' := by
  have hasleep := asleep_of_run h hr
  refine ⟨fun hrun => ?_, fun e hu => ?_⟩
  · rw [getCounter, running, hrun]
    by_cases hdue : (s.clock.counters c.runningThread).expectedSleepCount <
        (s.clock.counters c.runningThread).currSleepCount
    · rw [if_pos hdue, if_pos (hasleep.due_iff.mp hdue)]
    · rw [if_neg hdue, if_neg (mt hasleep.due_iff.mpr hdue)]
  · obtain ⟨s', hs', -⟩ := hasleep.step hu
    exact ⟨s', hs'⟩

/-- A task alone that asks for no seconds is awake at once. -/
theorem getCounter_at_once : (alone.setSleep 0).getCounter.1 = 1 := by
  have h := (getCounter_of_run (n := 0) alone_valid (.nil _)).1 rfl
  rw [h, if_pos ⟨rfl, le_rfl, by decide⟩]

/-- **A task that oversleeps.** Alone, it asks for no seconds and polls for the first time after
2⁶⁴ − 1 of them. -/
theorem sleep_oversleeps : ∃ s,
    Run (step alone.runningThread 0) (Undisturbed alone.runningThread)
      ⟨alone.setSleep 0, 0, false⟩ (List.replicate (19 * (2 ^ 64 - 1)) (.timer true)) s ∧
    s.clock.runningThread = alone.runningThread ∧ s.polled = false ∧ 0 ≤ s.elapsed ∧
    s.clock.getCounter.1 = 0 := by
  obtain ⟨s, hr, hasleep, helapsed, -, hpolled, hrun⟩ :=
    (asleep_setSleep alone_valid 0).interrupts rfl (19 * (2 ^ 64 - 1))
  have hlate : ¬ s.elapsed < 2 ^ 64 - 1 := by
    rw [helapsed, Nat.mul_div_cancel_left _ (by decide)]
    omega
  refine ⟨s, hr, hrun, hpolled, Nat.zero_le _, ?_⟩
  rw [getCounter, running, hrun]
  exact congrArg Prod.fst (if_neg fun hc => hlate (hasleep.due_iff.mp hc).2.2)

end Sleeper

end Sbunix
