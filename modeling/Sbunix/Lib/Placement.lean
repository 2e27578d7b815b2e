import Mathlib.Data.List.Induction
import Mathlib.Logic.Function.Basic
import Mathlib.Tactic.Common

/-!
# Tries stored in a heap

A forest of tries whose nodes are heap cells: `child n i` is the node the `i`-th slot of node `n`
points to, and `walk child r p` follows the slots `p` from the root `r`.

Separation is stated by a *placement*: a partial map from nodes to a root and a path, such that
every slot of a placed node points to the node placed one step further (`Placed`). A node has
one place, so two walks that meet are the same walk (`Placed.injective`), and conversely any
forest in which walks are injective has a placement (`exists_placed_of_injective`).

* `Placed.walk_congr` — a heap change that keeps the slots of placed nodes keeps every walk;
* `Placed.link` — storing a fresh, empty node in an empty slot extends the placement by that
  node and changes exactly the walk that ends in it.
-/

namespace Placement

variable {Node Idx : Type}

/-- Follow the slots `p` from node `n`. -/
def walk (child : Node → Idx → Option Node) : Node → List Idx → Option Node
  | n, [] => some n
  | n, i :: p => (child n i).bind fun m => walk child m p

@[simp] theorem walk_nil (child : Node → Idx → Option Node) (n : Node) :
    walk child n [] = some n := rfl

theorem walk_append (child : Node → Idx → Option Node) (n : Node) (p q : List Idx) :
    walk child n (p ++ q) = (walk child n p).bind fun m => walk child m q := by
  induction p generalizing n with
  | nil => rfl
  | cons i p ih =>
    simp only [List.cons_append, walk]
    cases child n i with
    | none => rfl
    | some m => exact ih m

theorem walk_snoc (child : Node → Idx → Option Node) (n : Node) (p : List Idx) (i : Idx) :
    walk child n (p ++ [i]) = (walk child n p).bind fun m => child m i := by
  rw [walk_append]
  cases walk child n p with
  | none => rfl
  | some m =>
    simp only [Option.bind_some, walk]
    cases child m i <;> rfl

/-- `dom r p` says which walks are considered; every prefix of such a walk is one too. -/
def PrefixClosed (dom : Node → List Idx → Prop) : Prop :=
  ∀ r p i, dom r (p ++ [i]) → dom r p

/-- **A placement.** Roots are placed at the empty path, and a slot of a placed node points to
the node placed one step further. -/
structure Placed (child : Node → Idx → Option Node) (dom : Node → List Idx → Prop)
    (place : Node → Option (Node × List Idx)) : Prop where
  root : ∀ r, dom r [] → place r = some (r, [])
  step : ∀ n r p i m, place n = some (r, p) → dom r (p ++ [i]) → child n i = some m →
    place m = some (r, p ++ [i])

variable {child c : Node → Idx → Option Node} {dom : Node → List Idx → Prop}
  {place : Node → Option (Node × List Idx)}

/-- Fewer walks to consider. -/
theorem Placed.mono {d : Node → List Idx → Prop} (h : Placed child dom place)
    (hd : ∀ r p, d r p → dom r p) : Placed child d place :=
  ⟨fun r hr => h.root r (hd r [] hr),
    fun n r p i m hn hp hm => h.step n r p i m hn (hd r (p ++ [i]) hp) hm⟩

/-- A walk ends in the node placed there. -/
theorem Placed.walk (h : Placed child dom place) (hd : PrefixClosed dom) {r n : Node}
    {p : List Idx} (hp : dom r p) (hw : walk child r p = some n) : place n = some (r, p) := by
  induction p using List.reverseRecOn generalizing n with
  | nil =>
    obtain rfl : r = n := Option.some.inj hw
    exact h.root r hp
  | append_singleton p i ih =>
    rw [walk_snoc] at hw
    obtain ⟨m, hm, hmn⟩ := Option.bind_eq_some_iff.mp hw
    exact h.step m r p i n (ih (hd r p i hp) hm) hp hmn

/-- **Separation.** Walks that meet are the same walk. -/
theorem Placed.injective (h : Placed child dom place) (hd : PrefixClosed dom)
    {r r' n : Node} {p p' : List Idx} (hp : dom r p) (hp' : dom r' p')
    (hw : Placement.walk child r p = some n) (hw' : Placement.walk child r' p' = some n) :
    r = r' ∧ p = p' := by
  have h₁ := h.walk hd hp hw
  rw [h.walk hd hp' hw'] at h₁
  have h₂ := Option.some.inj h₁
  exact ⟨congrArg Prod.fst h₂.symm, congrArg Prod.snd h₂.symm⟩

open Classical in
/-- **A forest with injective walks has a placement**, which places exactly the nodes some walk
reaches. -/
theorem exists_placed_of_injective {c : Node → Idx → Option Node} {d : Node → List Idx → Prop}
    (hinj : ∀ r r' p p' n, d r p → d r' p' → Placement.walk c r p = some n →
      Placement.walk c r' p' = some n → r = r' ∧ p = p') :
    ∃ place, Placed c d place ∧
      ∀ n r p, place n = some (r, p) → d r p ∧ Placement.walk c r p = some n := by
  let place : Node → Option (Node × List Idx) := fun n =>
    if h : ∃ q : Node × List Idx, d q.1 q.2 ∧ Placement.walk c q.1 q.2 = some n then
      some h.choose else none
  have hsome : ∀ n r p, place n = some (r, p) →
      d r p ∧ Placement.walk c r p = some n := by
    intro n r p hn
    by_cases h : ∃ q : Node × List Idx, d q.1 q.2 ∧ Placement.walk c q.1 q.2 = some n
    · have hq : h.choose = (r, p) := by
        have := hn
        simp only [place, dif_pos h, Option.some.injEq] at this
        exact this
      have hs := h.choose_spec
      rw [hq] at hs
      exact hs
    · simp only [place, dif_neg h] at hn
      cases hn
  have hplace : ∀ n r p, d r p → Placement.walk c r p = some n →
      place n = some (r, p) := by
    intro n r p hp hw
    have h : ∃ q : Node × List Idx, d q.1 q.2 ∧ Placement.walk c q.1 q.2 = some n :=
      ⟨(r, p), hp, hw⟩
    have heq := hinj _ _ _ _ n h.choose_spec.1 hp h.choose_spec.2 hw
    simp only [place, dif_pos h]
    exact congrArg some (Prod.ext heq.1 heq.2)
  refine ⟨place, ⟨fun r hr => hplace r r [] hr rfl, ?_⟩, hsome⟩
  intro n r p i m hn hp hi
  obtain ⟨-, hw⟩ := hsome n r p hn
  refine hplace m r (p ++ [i]) hp ?_
  rw [walk_snoc, hw]
  exact hi

/-- Keeping the slots of placed nodes keeps the placement and every walk. -/
theorem Placed.walk_congr (h : Placed child dom place) (hd : PrefixClosed dom)
    (hc : ∀ n r p i, place n = some (r, p) → dom r (p ++ [i]) → c n i = child n i) :
    Placed c dom place ∧
      ∀ r p, dom r p → Placement.walk c r p = Placement.walk child r p := by
  refine ⟨⟨h.root, fun n r p i m hn hp hm => ?_⟩, fun r p hp => ?_⟩
  · rw [hc n r p i hn hp] at hm
    exact h.step n r p i m hn hp hm
  · induction p using List.reverseRecOn with
    | nil => rfl
    | append_singleton p i ih =>
      rw [walk_snoc, walk_snoc, ih (hd r p i hp)]
      cases hw : Placement.walk child r p with
      | none => rfl
      | some m => exact hc m r p i (h.walk hd (hd r p i hp) hw) hp

variable [DecidableEq Node]

/-- **Linking a fresh node.** Slot `i` of the node `a` that the walk `(r, p)` ends in is empty;
it is made to point to an unplaced node `m` without children. The placement grows by `m`, and
the only walk that changes is the one that now ends in `m`. -/
theorem Placed.link (h : Placed child dom place) (hd : PrefixClosed dom) {r a m : Node}
    {p : List Idx} {i : Idx} (hp : dom r (p ++ [i])) (ha : Placement.walk child r p = some a)
    (hempty : child a i = none) (hm : place m = none) (hslot : c a i = some m)
    (hleaf : ∀ j, dom r (p ++ [i] ++ [j]) → c m j = none)
    (hkeep : ∀ n r' p' j, place n = some (r', p') → dom r' (p' ++ [j]) → (n, j) ≠ (a, i) →
      c n j = child n j) :
    Placed c dom (Function.update place m (some (r, p ++ [i]))) ∧
      ∀ r' p', dom r' p' →
        (r' = r ∧ p' = p ++ [i] → Placement.walk c r' p' = some m) ∧
        (¬ (r' = r ∧ p' = p ++ [i]) →
          Placement.walk c r' p' = Placement.walk child r' p') := by
  have hpa : place a = some (r, p) := h.walk hd (hd r p i hp) ha
  -- the old nodes keep their places
  have hold : ∀ n q, place n = some q →
      Function.update place m (some (r, p ++ [i])) n = some q := by
    intro n q hn
    have hnm : n ≠ m := by
      rintro rfl
      rw [hm] at hn
      cases hn
    rwa [Function.update_of_ne hnm]
  constructor
  · refine ⟨fun r' hr' => hold r' _ (h.root r' hr'), ?_⟩
    intro n r' p' j n' hn hp' hc
    by_cases hnm : n = m
    · -- the fresh node has no children
      subst hnm
      rw [Function.update_self] at hn
      obtain ⟨rfl, rfl⟩ := Prod.mk.inj (Option.some.inj hn)
      rw [hleaf j hp'] at hc
      cases hc
    · rw [Function.update_of_ne hnm] at hn
      by_cases hna : (n, j) = (a, i)
      · obtain ⟨rfl, rfl⟩ := Prod.mk.inj hna
        rw [hpa] at hn
        obtain ⟨rfl, rfl⟩ := Prod.mk.inj (Option.some.inj hn)
        obtain rfl : m = n' := Option.some.inj (hslot.symm.trans hc)
        exact Function.update_self ..
      · rw [hkeep n r' p' j hn hp' hna] at hc
        exact hold n' _ (h.step n r' p' j n' hn hp' hc)
  · intro r' p' hp'
    -- the walk to a path: induction from its end
    induction p' using List.reverseRecOn with
    | nil => exact ⟨fun hc => absurd hc.2 (by simp), fun _ => rfl⟩
    | append_singleton q j ih =>
      obtain ⟨ihm, ihk⟩ := ih (hd _ _ _ hp')
      rw [walk_snoc, walk_snoc]
      by_cases hq : r' = r ∧ q = p ++ [i]
      · -- below the new node nothing is reachable, before or after
        obtain ⟨rfl, rfl⟩ := hq
        rw [ihm ⟨rfl, rfl⟩, walk_snoc, ha]
        refine ⟨fun hc => ?_, fun _ => ?_⟩
        · have hlen := congrArg List.length hc.2
          simp at hlen
        · simp only [Option.bind_some, hempty, Option.bind_none]
          exact hleaf j hp'
      · rw [ihk hq]
        constructor
        · rintro ⟨rfl, hqj⟩
          obtain ⟨rfl, rfl⟩ : q = p ∧ j = i := by simpa using hqj
          rw [ha]
          exact hslot
        · intro hne
          cases hw : Placement.walk child r' q with
          | none => rfl
          | some b =>
            have hb := h.walk hd (hd _ _ _ hp') hw
            refine hkeep b r' q j hb hp' fun hba => ?_
            obtain ⟨rfl, rfl⟩ := Prod.mk.inj hba
            rw [hpa] at hb
            obtain ⟨rfl, rfl⟩ := Prod.mk.inj (Option.some.inj hb)
            exact hne ⟨rfl, rfl⟩

end Placement
