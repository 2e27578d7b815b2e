import Mathlib.Data.List.Basic
import Sbunix.Lib.Runs

/-!
# Taking turns

Who waits in a list has its turn after those in front of it: `List.idxOf` counts them. `Op` is what
may happen to the list, and `Op.idxOf_apply_le` says how this number changes.

* `total` — what the steps of a run cost, added up;
* `Run.budget` — a quantity that a step lowers by its gain and raises by at most its cost bounds
  the gains of a run by its costs.
-/

namespace Runs

/-! ### Adding up along a run -/

section Total

variable {S E : Type} (step : S → E → Option S) (f : S → E → Nat)

/-- The values of `f` along the steps of a sequence of events, added up. -/
def total : List E → S → Nat
  | [], _ => 0
  | e :: es, s => f s e + (step s e).elim 0 (total es)

variable {step f} {ok : S → E → Prop} {s s' : S} {es : List E}

theorem total_cons_of_eq {e : E} (hs : step s e = some s') :
    total step f (e :: es) s = f s e + total step f es s' := by
  rw [total, hs, Option.elim_some]

/-- Events that cost nothing in any state. -/
theorem total_eq_zero (h : ∀ e ∈ es, ∀ s, f s e = 0) (s : S) : total step f es s = 0 := by
  induction es generalizing s with
  | nil => rfl
  | cons e es ih =>
    have hes := ih fun e he => h e (List.mem_cons_of_mem _ he)
    rw [total, h e List.mem_cons_self, Nat.zero_add]
    cases step s e with
    | none => rfl
    | some s' => exact hes s'

/-- Events of one kind counted. -/
theorem Run.total_countP (hr : Run step ok s es s') (p : E → Bool) :
    total step (fun _ e => if p e = true then 1 else 0) es s = es.countP p := by
  induction hr with
  | nil => rfl
  | cons hok hs _ ih => rw [total_cons_of_eq hs, ih, List.countP_cons, Nat.add_comm]

/-- **Budget rule.** Under `ok`, a step that keeps `I` lowers `φ` by at least `gain` once its cost
is paid; a run gains no more than `φ` at its start and its costs. -/
theorem Run.budget {I : S → Prop} {φ : S → Nat} {gain cost : S → E → Nat}
    (hr : Run step ok s es s') (h0 : I s)
    (hstep : ∀ s e s', I s → ok s e → step s e = some s' →
      I s' ∧ gain s e + φ s' ≤ φ s + cost s e) :
    total step gain es s + φ s' ≤ φ s + total step cost es s := by
  induction hr with
  | nil => simp [total]
  | cons hok hs _ ih =>
    obtain ⟨hI, hle⟩ := hstep _ _ _ h0 hok hs
    rw [total_cons_of_eq hs, total_cons_of_eq hs]
    have := ih hI
    omega

/-- A run whose steps meet a condition up to some point, or all along. -/
theorem Run.until {q : S → Prop} [DecidablePred q] (hr : Run step ok s es s') :
    (∃ es₁ es₂ t, es = es₁ ++ es₂ ∧ Run step ok s es₁ t ∧ q t) ∨
      (Run step (fun s e => ok s e ∧ ¬ q s) s es s' ∧ ¬ q s') := by
  induction hr with
  | nil s =>
    by_cases hq : q s
    · exact .inl ⟨[], [], s, rfl, .nil s, hq⟩
    · exact .inr ⟨.nil s, hq⟩
  | @cons s t s' e es hok hs hr ih =>
    by_cases hq : q s
    · exact .inl ⟨[], e :: es, s, rfl, .nil s, hq⟩
    rcases ih with ⟨es₁, es₂, u, rfl, hu, hqu⟩ | ⟨hr', hq'⟩
    · exact .inl ⟨e :: es₁, es₂, u, rfl, .cons hok hs hu, hqu⟩
    · exact .inr ⟨.cons ⟨hok, hq⟩ hs hr', hq'⟩

end Total

end Runs

namespace Turns

variable {α : Type} [DecidableEq α]

/-- What happens to those who take turns in the order of a list: the turn passes to the next one,
a newcomer comes in behind the head or takes its place, or somebody leaves; `jump` is a leave that
hands the turn to the successor of who left. -/
inductive Op (α : Type)
  | stay
  | pass
  | join (x : α)
  | replace (x : α)
  | leave (x : α)
  | jump (x : α)

namespace Op

/-- The order afterwards. -/
def apply (L : List α) : Op α → List α
  | stay => L
  | pass => L.tail ++ L.take 1
  | join x => L.take 1 ++ x :: L.tail
  | replace x => x :: if L.tail = [] then L else L.tail
  | leave x => L.erase x
  | jump x => (L.dropWhile (· != x)).tail ++ L.takeWhile (· != x)

/-- The turns that are passed on. -/
def passed : Op α → Nat
  | pass => 1
  | _ => 0

/-- By how many turns the others are delayed at most: those between the head and who left have a
whole round in front of them. -/
def delay (L : List α) : Op α → Nat
  | join _ => 1
  | jump x => if L.head? = some x then 0 else L.length
  | _ => 0

/-- Somebody else comes or leaves. -/
def Spares (a : α) : Op α → Prop
  | stay => True
  | pass => True
  | join x => x ≠ a
  | replace x => x ≠ a
  | leave x => x ≠ a
  | jump x => x ≠ a

variable {a r x : α} {L M : List α}

/-- Who leaves does not delay anybody. -/
theorem idxOf_erase_le (hne : x ≠ a) : (L.erase x).idxOf a ≤ L.idxOf a := by
  induction L with
  | nil => simp
  | cons y L ih =>
    by_cases hy : y = x
    · subst hy
      rw [List.erase_cons_head, List.idxOf_cons_ne L hne]
      exact Nat.le_succ _
    · rw [List.erase_cons_tail (by simpa using hy)]
      by_cases hya : y = a
      · subst hya
        simp
      · rw [List.idxOf_cons_ne _ hya, List.idxOf_cons_ne _ hya]
        exact Nat.succ_le_succ ih

theorem apply_jump_append {A B : List α} (hx : x ∉ A) :
    (jump x).apply (A ++ x :: B) = B ++ A := by
  have hA : ∀ y ∈ A, (y != x) = true := fun y hy => bne_iff_ne.mpr (ne_of_mem_of_not_mem hy hx)
  rw [apply, List.dropWhile_append_of_pos hA, List.takeWhile_append_of_pos hA]
  simp

/-- Who waits and is spared stays. -/
theorem mem_apply {op : Op α} (h : op.Spares a) (ha : a ∈ M) : a ∈ op.apply (r :: M) := by
  have hL : a ∈ r :: M := List.mem_cons_of_mem r ha
  cases op with
  | stay => exact hL
  | pass => exact List.mem_append_left [r] ha
  | join x => exact List.mem_cons_of_mem r (List.mem_cons_of_mem x ha)
  | replace x =>
    refine List.mem_cons_of_mem x ?_
    rw [List.tail_cons, if_neg (List.ne_nil_of_mem ha)]
    exact ha
  | leave x => exact (List.mem_erase_of_ne (Ne.symm h)).mpr hL
  | jump x =>
    show a ∈ ((r :: M).dropWhile (· != x)).tail ++ (r :: M).takeWhile (· != x)
    rw [← List.takeWhile_append_dropWhile (p := (· != x)) (l := r :: M)] at hL
    rcases List.mem_append.mp hL with ha | ha
    · exact List.mem_append_right _ ha
    · -- the rest begins with who left
      refine List.mem_append_left _ ?_
      cases hd : (r :: M).dropWhile (· != x) with
      | nil => simp [hd] at ha
      | cons y B =>
        have hy : ¬ (y != x) = true := by
          have := List.head_dropWhile_not (· != x) (l := r :: M) (by simp [hd])
          simpa [hd] using this
        rw [hd] at ha
        rcases List.mem_cons.mp ha with rfl | ha
        · exact absurd (bne_iff_ne.mpr (Ne.symm h)) hy
        · exact ha

/-- **Waiting for a turn.** What happens to the others lowers the number of turns before that of
`a` by those passed on, and raises it by the delay at most. -/
theorem idxOf_apply_le (hnd : (r :: M).Nodup) (ha : a ∈ M) {op : Op α} (h : op.Spares a)
    (hmem : ∀ x, op = jump x → x ∈ r :: M) :
    (op.apply (r :: M)).idxOf a + op.passed ≤ (r :: M).idxOf a + op.delay (r :: M) := by
  have hr : r ≠ a := fun hc => (List.nodup_cons.mp hnd).1 (hc ▸ ha)
  have hM : M ≠ [] := List.ne_nil_of_mem ha
  cases op with
  | stay => exact Nat.le_refl _
  | pass =>
    have hidx : (M ++ [r]).idxOf a + 1 = (r :: M).idxOf a := by
      rw [List.idxOf_cons_ne M hr, List.idxOf_append_of_mem ha]
    exact Nat.le_of_eq hidx
  | join x =>
    have hidx : (r :: x :: M).idxOf a = (r :: M).idxOf a + 1 := by
      rw [List.idxOf_cons_ne _ hr, List.idxOf_cons_ne _ h, List.idxOf_cons_ne _ hr]
    exact Nat.le_of_eq hidx
  | replace x =>
    have hidx : (x :: if M = [] then r :: M else M).idxOf a = (r :: M).idxOf a := by
      rw [if_neg hM, List.idxOf_cons_ne _ h, List.idxOf_cons_ne _ hr]
    exact Nat.le_of_eq hidx
  | leave x => exact Nat.add_le_add_right (idxOf_erase_le h) 0
  | jump x =>
    obtain ⟨A, B, hL⟩ := List.append_of_mem (hmem x rfl)
    have hxA : x ∉ A := fun hc => by
      rw [hL] at hnd
      exact (List.nodup_append.mp hnd).2.2 x hc x List.mem_cons_self rfl
    rw [hL, apply_jump_append hxA, ← hL]
    simp only [passed, delay, List.head?_cons, Option.some.injEq]
    by_cases hrx : r = x
    · -- the head itself leaves
      subst hrx
      have hA : A = [] := by
        cases A with
        | nil => rfl
        | cons y A => exact absurd (List.cons.inj hL).1 fun hc => hxA (hc ▸ List.mem_cons_self)
      subst hA
      obtain rfl : M = B := (List.cons.inj hL).2
      rw [List.append_nil, List.idxOf_cons_ne M hr, if_pos rfl]
      exact Nat.le_succ _
    · -- those in front of who left go behind the others
      have hlen : (B ++ A).idxOf a ≤ (B ++ A).length := List.idxOf_le_length
      have hlen' := congrArg List.length hL
      rw [if_neg hrx]
      simp only [List.length_append, List.length_cons] at hlen hlen' ⊢
      omega

end Op

end Turns
