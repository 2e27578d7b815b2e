import Mathlib.Tactic.Common

/-!
# Runs of a partial step function

A system is given by `step : S → E → Option S`; `none` is a step that never completes. A `Run`
is a finite sequence of completed steps, each of which meets a side condition `ok` that may look
at the state before the step and at the event.

* `Run.invariant`, `Run.invariant_of_completes` — what every step under `ok` preserves holds in
  every state reached;
* `Run.mono` — a run under a stronger side condition is a run under a weaker one;
* `Run.trans`, `Run.snoc` — runs compose.

Where every step completes, `Always run P es s` says that each step of the sequence `es` from `s`
meets `P`; `always_iff` exchanges two such conditions that agree under an invariant.
-/

namespace Runs

variable {S E : Type}

/-- A finite sequence of completed steps, each meeting `ok` in the state it starts from. -/
inductive Run (step : S → E → Option S) (ok : S → E → Prop) : S → List E → S → Prop
  | nil (s : S) : Run step ok s [] s
  | cons {s s' s'' : S} {e : E} {es : List E} (hok : ok s e) (hs : step s e = some s')
      (hr : Run step ok s' es s'') : Run step ok s (e :: es) s''

variable {step : S → E → Option S} {ok ok' : S → E → Prop} {s s' s'' : S} {es es' : List E}

/-- **Invariant rule.** -/
theorem Run.invariant {I : S → Prop} (hr : Run step ok s es s') (h0 : I s)
    (hstep : ∀ s e s', I s → ok s e → step s e = some s' → I s') : I s' := by
  induction hr with
  | nil => exact h0
  | cons hok hs _ ih => exact ih (hstep _ _ _ h0 hok hs)

/-- The same where the step lemma also says that steps complete. -/
theorem Run.invariant_of_completes {I : S → Prop} (hr : Run step ok s es s') (h0 : I s)
    (hstep : ∀ s e, I s → ok s e → ∃ s', step s e = some s' ∧ I s') : I s' := by
  refine hr.invariant h0 fun t e t' ht hok hs => ?_
  obtain ⟨t'', hs', ht''⟩ := hstep t e ht hok
  obtain rfl : t' = t'' := Option.some.inj (hs.symm.trans hs')
  exact ht''

theorem Run.mono (hr : Run step ok s es s') (h : ∀ s e, ok s e → ok' s e) :
    Run step ok' s es s' := by
  induction hr with
  | nil => exact .nil _
  | cons hok hs _ ih => exact .cons (h _ _ hok) hs ih

theorem Run.trans (hr : Run step ok s es s') (hr' : Run step ok s' es' s'') :
    Run step ok s (es ++ es') s'' := by
  induction hr with
  | nil => exact hr'
  | cons hok hs _ ih => exact .cons hok hs (ih hr')

theorem Run.snoc {e : E} (hr : Run step ok s es s') (hok : ok s' e) (hs : step s' e = some s'') :
    Run step ok s (es ++ [e]) s'' :=
  hr.trans (.cons hok hs (.nil _))

/-- The rule for `foldlM`, with the elements done so far in view. -/
theorem foldlM_invariant_prefix {α : Type} {f : S → α → Option S} {I : List α → S → Prop}
    {d l : List α} (hf : l.foldlM f s = some s') (h0 : I d s)
    (hstep : ∀ p a q t t', d ++ l = p ++ a :: q → I p t → f t a = some t' → I (p ++ [a]) t') :
    I (d ++ l) s' := by
  induction l generalizing s d with
  | nil =>
    obtain rfl : s = s' := by simpa using hf
    simpa using h0
  | cons a l ih =>
    rw [List.foldlM_cons] at hf
    obtain ⟨t, ht, hf⟩ := Option.bind_eq_some_iff.mp hf
    have h1 := hstep d a l s t rfl h0 ht
    have h2 := ih (d := d ++ [a]) hf h1 fun p b q t t' hp =>
      hstep p b q t t' (by simpa using hp)
    simpa using h2

/-! ### Total steps -/

/-- Each step of the sequence meets `P` in the state it starts from. -/
def Always (run : S → E → S) (P : S → E → Prop) : List E → S → Prop
  | [], _ => True
  | e :: es, s => P s e ∧ Always run P es (run s e)

/-- **Exchange rule.** Conditions that say the same under an invariant say the same of a sequence
of steps, when steps that meet them keep the invariant. -/
theorem always_iff {run : S → E → S} {P Q : S → E → Prop} {I : S → Prop} (h0 : I s)
    (hiff : ∀ s, ∀ e ∈ es, I s → (P s e ↔ Q s e))
    (hstep : ∀ s, ∀ e ∈ es, I s → Q s e → I (run s e)) :
    Always run P es s ↔ Always run Q es s := by
  induction es generalizing s with
  | nil => exact Iff.rfl
  | cons e es ih =>
    unfold Always
    rw [hiff s e List.mem_cons_self h0]
    refine and_congr_right fun hq => ih (hstep s e List.mem_cons_self h0 hq) ?_ ?_
    · exact fun t d hd => hiff t d (List.mem_cons_of_mem e hd)
    · exact fun t d hd => hstep t d (List.mem_cons_of_mem e hd)

theorem always_append {run : S → E → S} {P : S → E → Prop} :
    Always run P (es ++ es') s ↔ Always run P es s ∧ Always run P es' (es.foldl run s) := by
  induction es generalizing s with
  | nil => simp [Always]
  | cons e es ih => simp only [List.cons_append, Always, ih, List.foldl_cons, and_assoc]

end Runs
