import Sbunix.Clock

/-!
# What `setAlarm` returns

`Alarm` carries the clock together with what the alarm of one task is from outside: the request
that is pending, if one is, and the seconds that have been completed since it was made. A request is
a call of `setAlarm` by the task while it has a handler, and it is pending until a switch to the
task delivers it.

`Armed` ties the two: without a pending request the count is zero, with one it is one more than the
seconds since. So while a request is pending `setAlarm` subtracts one too many, and wraps around
when the request is due and not delivered; the remaining time is returned exactly when the count is
zero (`setAlarm_of_run`).
-/

namespace Sbunix

open Runs

/-- The clock, the pending request of a task, and the seconds since it was made. -/
structure Alarm where
  clock : Clock
  pending : Option Nat
  elapsed : Nat

namespace Alarm

open Clock Counters

/-- The seconds that the event requests for `a`. -/
def request (c : Clock) (a : Nat) : Event → Option Nat
  | .setAlarm seconds =>
    if c.runningThread = a ∧ (c.counters a).functionPointer ≠ 0 then some seconds else none
  | _ => none

/-- The event is a switch to `a` that delivers its alarm. -/
def Delivers (c : Clock) (a : Nat) (e : Event) : Prop :=
  c.Switches e ∧ a = c.next c.runningThread ∧ (c.counters a).Due

instance (c : Clock) (a : Nat) (e : Event) : Decidable (Delivers c a e) :=
  inferInstanceAs (Decidable (_ ∧ _))

/-- The alarm of `a` after the event, which leads to the clock `c`. -/
def after (a : Nat) (s : Alarm) (e : Event) (c : Clock) : Alarm where
  clock := c
  pending := if Delivers s.clock a e then none else (request s.clock a e).or s.pending
  elapsed :=
    if (request s.clock a e).isSome then 0
    else if s.clock.Second e then s.elapsed + 1 else s.elapsed

def step (a : Nat) (s : Alarm) (e : Event) : Option Alarm := (s.clock.step e).map (s.after a e)

/-- `a` stays on the ring, and what it requests fits a register. -/
def Undisturbed (a : Nat) (s : Alarm) (e : Event) : Prop :=
  (∃ L D, s.clock.Valid L D ∧ s.clock.Admits L D e) ∧ s.clock.leaves e ≠ some a ∧
    ∀ seconds, request s.clock a e = some seconds → seconds < 2 ^ 64

/-- **The time remaining**: the request less the seconds since. -/
def remaining (s : Alarm) : Nat :=
  match s.pending with
  | none => 0
  | some seconds => seconds - s.elapsed

variable {a r : Nat} {c : Clock} {s s' : Alarm} {e : Event} {L D : List Nat}

theorem request_eq_some (h : request c a e = some r) :
    e = .setAlarm r ∧ c.runningThread = a ∧ (c.counters a).functionPointer ≠ 0 := by
  cases e with
  | setAlarm seconds =>
    rw [request] at h
    split at h
    · exact ⟨by rw [Option.some.inj h], ‹_›⟩
    · cases h
  | _ => cases h

theorem request_eq_none (h : ∀ seconds, e ≠ .setAlarm seconds) : request c a e = none := by
  cases hreq : request c a e with
  | none => rfl
  | some seconds => exact absurd (request_eq_some hreq).1 (h seconds)

theorem request_of_timer (he : e.isTimer = true) : request c a e = none := by
  refine request_eq_none fun seconds hc => ?_
  rw [hc] at he
  cases he

/-- **The alarm of a task after a step.** -/
theorem countersAfter_alarm (c : Clock) (e : Event) (a : Nat) :
    ((c.countersAfter e a).currAlarmCount, (c.countersAfter e a).expectedAlarmCount) =
      if Delivers c a e then (0, 0)
      else match request c a e with
        | some seconds => (1, seconds)
        | none =>
          (if c.Second e then advance (c.counters a).currAlarmCount
            else (c.counters a).currAlarmCount, (c.counters a).expectedAlarmCount) := by
  rw [countersAfter]
  by_cases hs : c.Second e
  · have hd : ¬ Delivers c a e := fun hc => hc.1.2.1 hs.2
    rw [if_pos hs, if_pos hs, if_neg hd, request_of_timer hs.1]
    rfl
  rw [if_neg hs, if_neg hs]
  by_cases hsw : c.Switches e ∧ a = c.next c.runningThread
  · have he : e.isTimer = true := by rw [hsw.1.1]; rfl
    rw [if_pos hsw, deliver, request_of_timer he]
    by_cases hdue : (c.counters a).Due
    · rw [if_pos hdue, if_pos ⟨hsw.1, hsw.2, hdue⟩]
    · rw [if_neg hdue, if_neg fun hc => hdue hc.2.2]
  rw [if_neg hsw, if_neg fun hc => hsw ⟨hc.1, hc.2.1⟩]
  by_cases ha : c.runningThread = a
  · subst ha
    cases e with
    | setAlarm seconds =>
      rw [called, setAlarm, running]
      by_cases hfp : (c.counters c.runningThread).functionPointer = 0
      · have hreq : request c c.runningThread (.setAlarm seconds) = none :=
          if_neg fun hc => hc.2 hfp
        rw [hreq, if_pos hfp]
      · have hreq : request c c.runningThread (.setAlarm seconds) = some seconds :=
          if_pos ⟨rfl, hfp⟩
        rw [hreq, if_neg hfp]
        simp only [Clock.modify, Function.update_self]
    | getCounter =>
      rw [request_eq_none fun _ => Event.noConfusion, called, getCounter]
      split <;> simp only [Clock.modify, Function.update_self]
    | setSleep seconds =>
      rw [request_eq_none fun _ => Event.noConfusion, called, setSleep]
      simp only [Clock.modify, Function.update_self]
    | setAlarmFP functionPointer =>
      rw [request_eq_none fun _ => Event.noConfusion, called, setAlarmFP]
      simp only [Clock.modify, Function.update_self]
    | _ =>
      rw [request_eq_none fun _ => Event.noConfusion]
      rfl
  · rw [(c.called_frame e).2.2.2.2.2 a (Ne.symm ha)]
    cases hreq : request c a e with
    | none => rfl
    | some seconds => exact absurd (request_eq_some hreq).2.1 ha

/-- **The invariant.** -/
structure Armed (a : Nat) (s : Alarm) : Prop where
  valid : ∃ L D, s.clock.Valid L D ∧ a ∈ L
  idle : s.pending = none → (s.clock.counters a).currAlarmCount = 0
  armed : ∀ r, s.pending = some r → r < 2 ^ 64 ∧
    (s.clock.counters a).currAlarmCount = countAfter s.elapsed ∧
    (s.clock.counters a).expectedAlarmCount = r

/-- **A step** keeps the invariant. -/
theorem Armed.after {L' D' : List Nat} {c' : Clock} (h : Armed a s)
    (hst : s.clock.Steps L e c' L' D') (ha : a ∈ L) (hleave : s.clock.leaves e ≠ some a)
    (hfits : ∀ seconds, request s.clock a e = some seconds → seconds < 2 ^ 64) :
    Armed a (s.after a e c') := by
  have hcount := (congrArg
    (fun t : Counters => (t.currAlarmCount, t.expectedAlarmCount)) (hst.counters a ha hleave)).trans
    (countersAfter_alarm s.clock e a)
  refine ⟨⟨L', D', hst.valid, hst.stays a ha hleave⟩, ?_, ?_⟩ <;> dsimp only [Alarm.after]
  · intro hp
    by_cases hd : Delivers s.clock a e
    · rw [if_pos hd] at hcount
      exact (Prod.mk.inj hcount).1
    · -- nothing was pending before
      rw [if_neg hd] at hp hcount
      obtain ⟨hreq, hp⟩ := Option.or_eq_none_iff.mp hp
      rw [hreq, h.idle hp] at hcount
      refine (Prod.mk.inj hcount).1.trans ?_
      split <;> rfl
  · intro r hr
    have hd : ¬ Delivers s.clock a e := fun hd => by
      rw [if_pos hd] at hr
      cases hr
    rw [if_neg hd] at hr hcount
    cases hreq : request s.clock a e with
    | some seconds =>
      -- a new request
      rw [hreq] at hr hcount
      obtain rfl : seconds = r := Option.some.inj hr
      exact ⟨hfits _ hreq, (Prod.mk.inj hcount).1, (Prod.mk.inj hcount).2⟩
    | none =>
      -- the request was pending before, and a second passes or not
      rw [hreq, Option.none_or] at hr
      obtain ⟨hlt, hcurr, hexp⟩ := h.armed r hr
      rw [hreq] at hcount
      dsimp only at hcount
      rw [hcurr, hexp, advance_countAfter] at hcount
      refine ⟨hlt, (Prod.mk.inj hcount).1.trans ?_, (Prod.mk.inj hcount).2⟩
      have hnone : ¬ (none : Option Nat).isSome = true := Bool.false_ne_true
      by_cases hs : s.clock.Second e
      · rw [if_pos hs, if_neg hnone, if_pos hs]
      · rw [if_neg hs, if_neg hnone, if_neg hs]

theorem Armed.step (h : Armed a s) (hu : Undisturbed a s e) :
    ∃ s', s.step a e = some s' ∧ Armed a s' := by
  obtain ⟨⟨L, D, hv, hadm⟩, hleave, hfits⟩ := hu
  obtain ⟨L₀, D₀, hv₀, ha⟩ := h.valid
  obtain rfl : L₀ = L := hv₀.ring.unique hv.ring
  obtain ⟨c', L', D', hc', hst⟩ := hv.step hadm
  exact ⟨_, by rw [Alarm.step, hc', Option.map_some], h.after hst ha hleave hfits⟩

theorem armed_of_run (h : Armed a s) {es : List Event}
    (hr : Run (step a) (Undisturbed a) s es s') : Armed a s' :=
  hr.invariant_of_completes h fun _ _ ht hu => ht.step hu

/-- What is due has been requested, long enough ago. -/
theorem Armed.of_due (h : Armed a s) (hdue : (s.clock.counters a).Due) :
    ∃ r, s.pending = some r ∧ r ≤ s.elapsed := by
  have hlt : (s.clock.counters a).expectedAlarmCount < (s.clock.counters a).currAlarmCount := hdue
  cases hp : s.pending with
  | none =>
    rw [h.idle hp] at hlt
    exact absurd hlt (Nat.not_lt_zero _)
  | some r =>
    obtain ⟨-, hcurr, hexp⟩ := h.armed r hp
    rw [hcurr, hexp, lt_countAfter] at hlt
    exact ⟨r, rfl, hlt.1⟩

/-- When the count of a task is zero. -/
theorem Armed.count_eq_zero (h : Armed a s) : (s.clock.counters a).currAlarmCount = 0 ↔
    s.pending = none ∨ 2 ^ 64 - 1 ≤ s.elapsed := by
  cases hp : s.pending with
  | none => exact iff_of_true (h.idle hp) (Or.inl rfl)
  | some r =>
    rw [(h.armed r hp).2.1, countAfter]
    constructor
    · intro hc
      refine Or.inr (Nat.le_of_not_lt fun hlt => ?_)
      rw [if_pos (by omega)] at hc
      cases hc
    · rintro (hc | hc)
      · cases hc
      · exact if_neg (by omega)

/-- **One second less**, modulo 2⁶⁴: what is returned while the count runs. -/
theorem Armed.returned (h : Armed a s) (hp : s.pending = some r)
    (hne : (s.clock.counters a).currAlarmCount ≠ 0) :
    (r + (2 ^ 64 - (s.clock.counters a).currAlarmCount)) % 2 ^ 64 ≠ r - s.elapsed := by
  obtain ⟨hlt, hcurr, -⟩ := h.armed r hp
  have hrange : s.elapsed < 2 ^ 64 - 1 := by
    refine Nat.lt_of_not_le fun hle => hne (h.count_eq_zero.mpr (Or.inr hle))
  rw [hcurr, countAfter, if_pos (by omega)]
  by_cases hle : s.elapsed + 1 ≤ r
  · -- the request is not due
    have : r + (2 ^ 64 - (s.elapsed + 1)) = (r - (s.elapsed + 1)) + 2 ^ 64 := by omega
    rw [this, Nat.add_mod_right, Nat.mod_eq_of_lt (by omega)]
    omega
  · -- it is due, and the difference wraps around
    rw [Nat.mod_eq_of_lt (by omega)]
    omega

/-- **`setAlarm`.** A task of the ring starts with no alarm pending. Whatever happens, in any order,
a call of `setAlarm` by the task while it has a handler returns the time remaining exactly when its
count is zero, that is, when no request is pending or the count of the pending one has passed
over. -/
theorem setAlarm_of_run (h : c.Valid L D) (ha : a ∈ L) (h0 : (c.counters a).currAlarmCount = 0)
    {es : List Event} (hr : Run (step a) (Undisturbed a) ⟨c, none, 0⟩ es s)
    (hrun : s.clock.runningThread = a) (hfp : s.clock.running.functionPointer ≠ 0)
    (seconds : Nat) :
    ((s.clock.setAlarm seconds).1 = s.remaining ↔ s.clock.running.currAlarmCount = 0) ∧
      (s.clock.running.currAlarmCount = 0 ↔ s.pending = none ∨ 2 ^ 64 - 1 ≤ s.elapsed) := by
  have harmed : Armed a s :=
    armed_of_run ⟨⟨L, D, h, ha⟩, fun _ => h0, fun _ hc => by cases hc⟩ hr
  have hzero := harmed.count_eq_zero
  subst hrun
  refine ⟨?_, hzero⟩
  rw [setAlarm, if_neg hfp, remaining]
  rw [running] at hfp ⊢
  by_cases hcurr : (s.clock.counters s.clock.runningThread).currAlarmCount = 0
  · refine iff_of_true ?_ hcurr
    rw [if_neg (not_not.mpr hcurr)]
    cases hp : s.pending with
    | none => rfl
    | some r =>
      -- the count has passed over, long after the request was due
      have hlate := (hzero.mp hcurr).resolve_left (by rw [hp]; exact Option.some_ne_none r)
      have hlt := (harmed.armed r hp).1
      exact (Nat.sub_eq_zero_of_le (by omega)).symm
  · refine iff_of_false ?_ hcurr
    rw [if_pos hcurr]
    obtain ⟨r, hp⟩ := Option.ne_none_iff_exists'.mp fun hc => hcurr (harmed.idle hc)
    rw [hp, (harmed.armed r hp).2.2]
    exact harmed.returned hp hcurr

/-- A task alone installs a handler and makes its first request. -/
theorem setAlarm_first : ((alone.setAlarmFP 0x400000).setAlarm 5).1 = 0 := by
  have hr : Run (step alone.runningThread) (Undisturbed alone.runningThread) ⟨alone, none, 0⟩
      [.setAlarmFP 0x400000] ⟨alone.setAlarmFP 0x400000, none, 0⟩ :=
    .cons ⟨⟨_, _, alone_valid, trivial⟩, (Option.some_ne_none _).symm, fun _ hc => by cases hc⟩
      rfl (.nil _)
  exact (setAlarm_of_run alone_valid List.mem_cons_self rfl hr rfl (by decide) 5).1.mpr (by decide)

/-- **A request that is replaced at once.** Of its five seconds four are reported to remain. -/
theorem setAlarm_one_less : ∃ s,
    Run (step alone.runningThread) (Undisturbed alone.runningThread) ⟨alone, none, 0⟩
      [.setAlarmFP 0x400000, .setAlarm 5] s ∧
    s.clock.runningThread = alone.runningThread ∧ s.clock.running.functionPointer ≠ 0 ∧
    s.remaining = 5 ∧ (s.clock.setAlarm 1).1 = 4 := by
  refine ⟨⟨((alone.setAlarmFP 0x400000).setAlarm 5).2, some 5, 0⟩, ?_, by decide, by decide, rfl,
    by decide⟩
  refine .cons ⟨⟨_, _, alone_valid, trivial⟩, (Option.some_ne_none _).symm,
    fun _ hc => by cases hc⟩ rfl (.cons ⟨⟨_, _, alone_valid.called (.setAlarmFP 0x400000), trivial⟩,
      (Option.some_ne_none _).symm, fun _ hc => ?_⟩ rfl (.nil _))
  rw [← Option.some.inj hc]
  decide

end Alarm

end Sbunix
