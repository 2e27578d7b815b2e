import Mathlib.Data.List.Nodup
import Mathlib.Data.List.Perm.Basic
import Mathlib.Logic.Function.Iterate
import Mathlib.Tactic.Common

/-!
# Linked lists through a successor function

Linked structures whose links are read off a successor function `next : α → α`.

* `Seg next a l b` — following `next` from `a` runs through the nodes `l` in order and arrives
  at `b`. With `b` a null address this is a null-terminated list; with `b = a` it is a ring.
* `Ring next r l` — the circular list through the distinct nodes `l`, read from `r`.

The splices of a hand-written circular list are `Ring.insert` (link a node behind the head),
`Ring.skip` and `Ring.remove` (take a node out behind the head, or the head itself),
`Ring.substitute` (put another node in place of the head) and `Ring.rotate` (read the ring from
another node). `find` and `collect` are the two search loops over such structures, with a step bound;
`find_of_seg` and `collect_of_seg` say what they return on a segment.
-/

namespace Chain

variable {α : Type}

/-- Following `next` from `a` runs through `l` in order and arrives at `b`. -/
def Seg (next : α → α) : α → List α → α → Prop
  | a, [], b => a = b
  | a, x :: l, b => a = x ∧ Seg next (next x) l b

@[simp] theorem seg_nil {next : α → α} {a b : α} : Seg next a [] b ↔ a = b := Iff.rfl

@[simp] theorem seg_cons {next : α → α} {a b x : α} {l : List α} :
    Seg next a (x :: l) b ↔ a = x ∧ Seg next (next x) l b := Iff.rfl

theorem seg_append {next : α → α} {a c : α} {l₁ l₂ : List α} :
    Seg next a (l₁ ++ l₂) c ↔ ∃ b, Seg next a l₁ b ∧ Seg next b l₂ c := by
  induction l₁ generalizing a with
  | nil => simp
  | cons x l ih =>
    rw [List.cons_append, seg_cons, ih]
    constructor
    · rintro ⟨hax, b, h₁, h₂⟩
      exact ⟨b, ⟨hax, h₁⟩, h₂⟩
    · rintro ⟨b, ⟨hax, h₁⟩, h₂⟩
      exact ⟨hax, b, h₁, h₂⟩

/-- A segment only reads the links of its own nodes. -/
theorem Seg.congr {next next' : α → α} {a b : α} {l : List α} (h : Seg next a l b)
    (hn : ∀ x ∈ l, next' x = next x) : Seg next' a l b := by
  induction l generalizing a with
  | nil => exact h
  | cons x l ih =>
    refine ⟨h.1, ?_⟩
    rw [hn x List.mem_cons_self]
    exact ih h.2 fun y hy => hn y (List.mem_cons_of_mem x hy)

/-- Two walks from one node to one end, neither of which passes that end, are the same walk. -/
theorem Seg.unique {next : α → α} {a b : α} {l l' : List α} (h : Seg next a l b)
    (h' : Seg next a l' b) (hb : b ∉ l) (hb' : b ∉ l') : l = l' := by
  induction l generalizing a l' with
  | nil =>
    cases l' with
    | nil => rfl
    | cons y l' =>
      obtain rfl : a = b := h
      exact absurd (h'.1 ▸ List.mem_cons_self) hb'
  | cons x l ih =>
    cases l' with
    | nil =>
      obtain rfl : a = b := h'
      exact absurd (h.1 ▸ List.mem_cons_self) hb
    | cons y l' =>
      obtain rfl : x = y := h.1.symm.trans h'.1
      rw [ih h.2 h'.2 (fun hm => hb (List.mem_cons_of_mem x hm))
        (fun hm => hb' (List.mem_cons_of_mem x hm))]

/-! ### Rings -/

/-- The circular list through the distinct nodes `l`, read from its node `r`. -/
structure Ring (next : α → α) (r : α) (l : List α) : Prop where
  ne : l ≠ []
  nodup : l.Nodup
  seg : Seg next r l r

theorem Ring.head {next : α → α} {r x : α} {l : List α} (h : Ring next r (x :: l)) : r = x :=
  h.seg.1

/-- A ring starts at the node it is read from. -/
theorem Ring.exists_tail {next : α → α} {r : α} {l : List α} (h : Ring next r l) :
    ∃ l', l = r :: l' := by
  cases l with
  | nil => exact absurd rfl h.ne
  | cons x l => exact ⟨l, by rw [h.head]⟩

theorem Ring.mem {next : α → α} {r : α} {l : List α} (h : Ring next r l) : r ∈ l := by
  obtain ⟨l', rfl⟩ := h.exists_tail
  exact List.mem_cons_self

/-- Reading a ring from another of its nodes. -/
theorem Ring.rotate {next : α → α} {r x : α} {l₁ l₂ : List α}
    (h : Ring next r (l₁ ++ x :: l₂)) : Ring next x (x :: l₂ ++ l₁) where
  ne := by simp
  nodup := (List.perm_append_comm : (l₁ ++ x :: l₂).Perm (x :: l₂ ++ l₁)).nodup_iff.mp h.nodup
  seg := by
    obtain ⟨b, h₁, h₂⟩ := seg_append.mp h.seg
    obtain rfl : b = x := h₂.1
    exact seg_append.mpr ⟨r, h₂, h₁⟩

/-- Every node of a ring is a node to read it from. -/
theorem Ring.of_mem {next : α → α} {r x : α} {l : List α} (h : Ring next r l) (hx : x ∈ l) :
    ∃ l', Ring next x l' ∧ l'.Perm l := by
  obtain ⟨l₁, l₂, rfl⟩ := List.append_of_mem hx
  exact ⟨x :: l₂ ++ l₁, h.rotate, List.perm_append_comm⟩

/-- One step along a ring. -/
theorem Ring.step {next : α → α} {r : α} {l : List α} (h : Ring next r (r :: l)) :
    Ring next (next r) (l ++ [r]) where
  ne := by simp
  nodup := (List.perm_append_comm : ([r] ++ l).Perm (l ++ [r])).nodup_iff.mp h.nodup
  seg := seg_append.mpr ⟨r, h.seg.2, by simp⟩

theorem Ring.next_mem {next : α → α} {r x : α} {l : List α} (h : Ring next r l) (hx : x ∈ l) :
    next x ∈ l := by
  obtain ⟨l', h', hp⟩ := h.of_mem hx
  obtain ⟨l'', rfl⟩ := h'.exists_tail
  have hm : next x ∈ x :: l'' := by
    have := h'.step.mem
    simp only [List.mem_append, List.mem_singleton] at this
    exact List.mem_cons.mpr this.symm
  exact hp.mem_iff.mp hm

/-- The links of a ring that matter are those of its nodes. -/
theorem Ring.congr {next next' : α → α} {r : α} {l : List α} (h : Ring next r l)
    (hn : ∀ x ∈ l, next' x = next x) : Ring next' r l :=
  ⟨h.ne, h.nodup, h.seg.congr hn⟩

/-- A ring determines its nodes and their order. -/
theorem Ring.unique {next : α → α} {r : α} {l l' : List α} (h : Ring next r l)
    (h' : Ring next r l') : l = l' := by
  obtain ⟨t, rfl⟩ := h.exists_tail
  obtain ⟨t', rfl⟩ := h'.exists_tail
  rw [h.seg.2.unique h'.seg.2 (List.nodup_cons.mp h.nodup).1 (List.nodup_cons.mp h'.nodup).1]

section Update

variable [DecidableEq α]

/-- Redirecting a link off the segment changes nothing on it. -/
theorem Seg.update {next : α → α} {a b x v : α} {l : List α} (h : Seg next a l b) (hx : x ∉ l) :
    Seg (Function.update next x v) a l b :=
  h.congr fun y hy => Function.update_of_ne (by rintro rfl; exact hx hy) v next

/-- **Linking a node in behind the head.** -/
theorem Ring.insert {next : α → α} {r t : α} {l : List α} (h : Ring next r (r :: l))
    (ht : t ∉ r :: l) :
    Ring (Function.update (Function.update next t (next r)) r t) r (r :: t :: l) := by
  have hrt : t ≠ r := fun h' => ht (h' ▸ List.mem_cons_self)
  have hrl := (List.nodup_cons.mp h.nodup).1
  have htl : t ∉ l := fun h' => ht (List.mem_cons_of_mem r h')
  refine ⟨by simp, ?_, ?_⟩
  · refine List.nodup_cons.mpr ⟨?_, List.nodup_cons.mpr ⟨htl, (List.nodup_cons.mp h.nodup).2⟩⟩
    simp only [List.mem_cons, not_or]
    exact ⟨fun h' => hrt h'.symm, hrl⟩
  · simp only [seg_cons, Function.update_self, Function.update_of_ne hrt, true_and]
    exact (h.seg.2.update htl).update hrl

end Update

/-! ### Search loops -/

/-- The first node from `a` on that satisfies `stop`, within `n` tests. -/
def find (next : α → α) (stop : α → Bool) : Nat → α → Option α
  | 0, _ => none
  | n + 1, a => if stop a then some a else find next stop n (next a)

/-- The nodes passed from `a` on before the first one that satisfies `stop`, within `n` tests. -/
def collect (next : α → α) (stop : α → Bool) : Nat → α → Option (List α)
  | 0, _ => none
  | n + 1, a => if stop a then some [] else (collect next stop n (next a)).map (a :: ·)

theorem find_of_seg {next : α → α} {q : α → Bool} {a x : α} {l : List α} {n : Nat}
    (h : Seg next a l x) (hl : ∀ y ∈ l, q y = false) (hx : q x = true)
    (hn : l.length < n) : find next q n a = some x := by
  induction l generalizing a n with
  | nil =>
    obtain ⟨n, rfl⟩ := Nat.exists_eq_succ_of_ne_zero (Nat.ne_of_gt hn)
    obtain rfl : a = x := h
    simp [find, hx]
  | cons y l ih =>
    obtain ⟨n, rfl⟩ := Nat.exists_eq_succ_of_ne_zero (by omega : n ≠ 0)
    obtain ⟨rfl, h⟩ := h
    simp only [find, hl a List.mem_cons_self, Bool.false_eq_true, if_false]
    exact ih h (fun z hz => hl z (List.mem_cons_of_mem a hz)) (by simpa using hn)

theorem collect_of_seg {next : α → α} {q : α → Bool} {a b : α} {l : List α} {n : Nat}
    (h : Seg next a l b) (hl : ∀ y ∈ l, q y = false) (hb : q b = true)
    (hn : l.length < n) : collect next q n a = some l := by
  induction l generalizing a n with
  | nil =>
    obtain ⟨n, rfl⟩ := Nat.exists_eq_succ_of_ne_zero (Nat.ne_of_gt hn)
    obtain rfl : a = b := h
    simp [collect, hb]
  | cons y l ih =>
    obtain ⟨n, rfl⟩ := Nat.exists_eq_succ_of_ne_zero (by omega : n ≠ 0)
    obtain ⟨rfl, h⟩ := h
    simp only [collect, hl a List.mem_cons_self, Bool.false_eq_true, if_false]
    rw [ih h (fun z hz => hl z (List.mem_cons_of_mem a hz)) (by simpa using hn)]
    rfl

/-- A list with an element satisfying `q` splits at the first such element. -/
theorem exists_first {q : α → Prop} [DecidablePred q] {l : List α} {p : α} (hp : p ∈ l)
    (hq : q p) : ∃ l₁ p' l₂, l = l₁ ++ p' :: l₂ ∧ q p' ∧ ∀ y ∈ l₁, ¬ q y := by
  induction l with
  | nil => cases hp
  | cons z l ih =>
    by_cases hz : q z
    · exact ⟨[], z, l, rfl, hz, by simp⟩
    · rcases List.mem_cons.mp hp with rfl | hp
      · exact absurd hq hz
      · obtain ⟨l₁, p', l₂, rfl, hq', hl₁⟩ := ih hp
        refine ⟨z :: l₁, p', l₂, rfl, hq', fun w hw => ?_⟩
        rcases List.mem_cons.mp hw with rfl | hw
        · exact hz
        · exact hl₁ w hw

/-! ### Taking nodes out and putting others in -/

section Splice

variable [DecidableEq α] {next : α → α} {r x t : α} {l : List α} {n : Nat}

omit [DecidableEq α] in
/-- The nodes of a segment but the last one link to nodes of the segment behind the first. -/
theorem Seg.next_mem_tail {a p y z : α} (h : Seg next a (l ++ [p]) z) (hy : y ∈ l) :
    next y ∈ (l ++ [p]).tail := by
  induction l generalizing a with
  | nil => cases hy
  | cons w l ih =>
    obtain ⟨rfl, h⟩ := h
    rcases List.mem_cons.mp hy with rfl | hy
    · cases hl : l ++ [p] with
      | nil => simp at hl
      | cons u m =>
        have h' : Seg next (next y) (l ++ [p]) z := h
        rw [hl] at h'
        simp only [List.cons_append, List.tail_cons, hl, h'.1, List.mem_cons_self]
    · exact List.mem_of_mem_tail (ih h hy)

/-- The search for the last node of a segment: only it links to the end `z`. -/
theorem Seg.find_last {a p z : α} (h : Seg next a (l ++ [p]) z) (hz : z ∉ (l ++ [p]).tail)
    (hn : l.length < n) : find next (fun y => next y == z) n a = some p ∧ next p = z := by
  obtain ⟨b, h₁, h₂⟩ := seg_append.mp h
  obtain rfl : b = p := h₂.1
  have hback : next b = z := h₂.2
  refine ⟨find_of_seg h₁ (fun y hy => ?_) (by simpa using hback) hn, hback⟩
  exact beq_eq_false_iff_ne.mpr fun hc => hz (hc ▸ h.next_mem_tail hy)

/-- On a ring read from `x`, only the last node links back to `x`. -/
theorem Ring.find_last {p : α} (h : Ring next x (x :: (l ++ [p]))) (hn : l.length + 1 < n) :
    find next (fun y => next y == x) n x = some p ∧ next p = x :=
  Seg.find_last (l := x :: l) h.seg (List.nodup_cons.mp h.nodup).1 (by simpa using hn)

/-- **Taking the head out.** The predecessor skips it, and the ring is read from its
successor. -/
theorem Ring.remove {p : α} (h : Ring next x (x :: (l ++ [p]))) :
    Ring (Function.update next p (next x)) (next x) (l ++ [p]) := by
  have hnd := (List.nodup_cons.mp h.nodup).2
  have hp : p ∉ l := fun hp => (List.nodup_append.mp hnd).2.2 p hp p (by simp) rfl
  obtain ⟨b, h₁, h₂⟩ := seg_append.mp h.seg.2
  obtain rfl : b = p := h₂.1
  exact ⟨by simp, hnd, seg_append.mpr ⟨b, h₁.update hp, by simp⟩⟩

/-- **Putting another node in place of the head.** -/
theorem Ring.substitute {p : α} (h : Ring next x (x :: (l ++ [p]))) (ht : t ∉ x :: (l ++ [p])) :
    Ring (Function.update (Function.update next t (next x)) p t) t (t :: (l ++ [p])) := by
  have hnd := (List.nodup_cons.mp h.nodup).2
  have hp : p ∉ l := fun hp => (List.nodup_append.mp hnd).2.2 p hp p (by simp) rfl
  have htl : t ∉ l ++ [p] := fun hc => ht (List.mem_cons_of_mem x hc)
  have htp : t ≠ p := fun hc => htl (by simp [hc])
  obtain ⟨b, h₁, h₂⟩ := seg_append.mp h.seg.2
  obtain rfl : b = p := h₂.1
  refine ⟨by simp, List.nodup_cons.mpr ⟨htl, hnd⟩, rfl, ?_⟩
  rw [Function.update_of_ne htp, Function.update_self]
  exact seg_append.mpr ⟨b, (h₁.update fun hc => htl (by simp [hc])).update hp, by simp⟩

/-- **Skipping a node** anywhere behind the head. -/
theorem Ring.skip {p : α} {l₁ l₂ : List α} (h : Ring next r (l₁ ++ p :: x :: l₂)) :
    Ring (Function.update next p (next x)) r (l₁ ++ p :: l₂) := by
  have hsub : (l₁ ++ p :: l₂).Sublist (l₁ ++ p :: x :: l₂) :=
    (List.Sublist.refl l₁).append (((List.Sublist.refl l₂).cons x).cons_cons p)
  have hnd := h.nodup.sublist hsub
  obtain ⟨b, h₁, h₂⟩ := seg_append.mp h.seg
  obtain ⟨rfl, rfl, h₃⟩ : b = p ∧ next p = x ∧ Seg next (next x) l₂ r :=
    ⟨h₂.1, h₂.2.1, h₂.2.2⟩
  have hb₁ : b ∉ l₁ := fun hc => (List.nodup_append.mp hnd).2.2 b hc b (by simp) rfl
  have hb₂ : b ∉ l₂ := (List.nodup_cons.mp (List.nodup_append.mp hnd).2.1).1
  refine ⟨by simp, hnd, seg_append.mpr ⟨b, h₁.update hb₁, rfl, ?_⟩⟩
  rw [Function.update_self]
  exact h₃.update hb₂

/-- **Linking a node to the end of a null-terminated list.** -/
theorem Seg.snoc {p z : α} (h : Seg next r (l ++ [p]) z) (hp : p ∉ l) (ht : t ∉ l ++ [p]) :
    Seg (Function.update (Function.update next p t) t z) r (l ++ [p] ++ [t]) z := by
  obtain ⟨b, h₁, h₂⟩ := seg_append.mp h
  obtain rfl : b = p := h₂.1
  have htp : t ≠ b := fun hc => ht (by simp [hc])
  refine seg_append.mpr ⟨t, seg_append.mpr ⟨b, ?_, rfl, ?_⟩, rfl, by simp⟩
  · exact (h₁.update hp).update fun hc => ht (by simp [hc])
  · rw [Function.update_of_ne htp.symm, Function.update_self]
    rfl

end Splice

/-! ### Reachability -/

/-- The nodes of a ring are those reached from the node it is read from. -/
theorem Ring.mem_iff_iterate {next : α → α} {r x : α} {l : List α} (h : Ring next r l) :
    x ∈ l ↔ ∃ n, next^[n] r = x := by
  constructor
  · intro hx
    obtain ⟨l₁, l₂, rfl⟩ := List.append_of_mem hx
    obtain ⟨b, h₁, h₂⟩ := seg_append.mp h.seg
    obtain rfl : b = x := h₂.1
    clear h h₂ hx
    induction l₁ generalizing r with
    | nil => exact ⟨0, h₁⟩
    | cons y l₁ ih =>
      obtain ⟨n, hn⟩ := ih h₁.2
      exact ⟨n + 1, by rw [Function.iterate_succ_apply, h₁.1, hn]⟩
  · rintro ⟨n, rfl⟩
    induction n with
    | zero => exact h.mem
    | succ n ih =>
      rw [Function.iterate_succ_apply']
      exact h.next_mem ih

/-! ### How long a list can be -/

/-- Distinct nodes that lie at the first `n` multiples of `size` from `base` on. -/
theorem length_le_of_nodes {l : List Nat} {base size n : Nat} (hsize : 0 < size) (hnd : l.Nodup)
    (h : ∀ a ∈ l, ∃ f < n, a = base + f * size) : l.length ≤ n := by
  have hsub : l.map (fun a => (a - base) / size) ⊆ List.range n := by
    intro m hm
    obtain ⟨a, ha, rfl⟩ := List.mem_map.mp hm
    obtain ⟨f, hf, rfl⟩ := h a ha
    rw [Nat.add_sub_cancel_left, Nat.mul_div_cancel f hsize]
    exact List.mem_range.mpr hf
  have hnd' : (l.map fun a => (a - base) / size).Nodup := by
    refine List.Nodup.map_on (fun a ha b hb hab => ?_) hnd
    obtain ⟨f, -, rfl⟩ := h a ha
    obtain ⟨g, -, rfl⟩ := h b hb
    rw [Nat.add_sub_cancel_left, Nat.add_sub_cancel_left, Nat.mul_div_cancel f hsize,
      Nat.mul_div_cancel g hsize] at hab
    rw [hab]
  have hle := (List.subperm_of_subset hnd' hsub).length_le
  rwa [List.length_map, List.length_range] at hle

end Chain
