import Mathlib.Tactic.Common

/-!
# Words

The words of a list are its maximal runs of elements that are not separators (`words`). A scanner
reads them from left to right and keeps the run that is still open (`wordsFrom`).

* `wordsFrom_eq` — the scanner finds the words;
* `wordsFrom_open` — the run that is open at the start is a prefix of the first word.
-/

namespace Words

variable {α : Type*} (p : α → Bool) {l cur : List α} {x : α}

/-- The maximal runs of elements on which `p` is false. -/
def words (l : List α) : List (List α) := (l.splitOnP p).filter (· ≠ [])

/-- A run that has been closed; the empty run is no word. -/
def closed (cur : List α) : List (List α) := if cur = [] then [] else [cur]

/-- The words of `cur ++ l`, where the run `cur` is still open. -/
def wordsFrom : List α → List α → List (List α)
  | cur, [] => closed cur
  | cur, x :: l => if p x then closed cur ++ wordsFrom [] l else wordsFrom (cur ++ [x]) l

variable {p}

theorem closed_nil : closed ([] : List α) = [] := rfl

theorem closed_of_ne_nil (h : cur ≠ []) : closed cur = [cur] := if_neg h

theorem filter_singleton_ne_nil (cur : List α) : [cur].filter (· ≠ []) = closed cur := by
  by_cases h : cur = []
  · simp [closed, h]
  · simp [closed, h]

/-- **The scanner finds the words.** -/
theorem wordsFrom_eq (h : ∀ y ∈ cur, p y = false) (l : List α) :
    wordsFrom p cur l = words p (cur ++ l) := by
  -- on what is left to scan; a separator splits `cur ++ x :: l` since `cur` has none
  induction l generalizing cur with
  | nil =>
    rw [List.append_nil, words, List.splitOnP_eq_singleton h, filter_singleton_ne_nil, wordsFrom]
  | cons x l ih =>
    by_cases hx : p x = true
    · calc wordsFrom p cur (x :: l)
          = closed cur ++ wordsFrom p [] l := by rw [wordsFrom, if_pos hx]
        _ = closed cur ++ words p l := by rw [ih (by simp), List.nil_append]
        _ = words p (cur ++ x :: l) := by
            rw [words, words, List.splitOnP_append_cons_of_forall_mem h x hx,
              ← List.singleton_append, List.filter_append, filter_singleton_ne_nil]
    · have hcur : ∀ y ∈ cur ++ [x], p y = false := by
        intro y hy
        rcases List.mem_append.mp hy with hy | hy
        · exact h y hy
        · rw [List.mem_singleton.mp hy]
          exact eq_false_of_ne_true hx
      rw [wordsFrom, if_neg hx, ih hcur, List.append_assoc, List.singleton_append]

theorem wordsFrom_nil (l : List α) : wordsFrom p [] l = words p l := by
  rw [wordsFrom_eq (by simp), List.nil_append]

/-- The open run begins the first word. -/
theorem wordsFrom_open (h : cur ≠ []) (l : List α) :
    ∃ t ws, wordsFrom p cur l = (cur ++ t) :: ws := by
  induction l generalizing cur with
  | nil => exact ⟨[], [], by rw [wordsFrom, closed_of_ne_nil h, List.append_nil]⟩
  | cons x l ih =>
    by_cases hx : p x = true
    · exact ⟨[], wordsFrom p [] l, by
        rw [wordsFrom, if_pos hx, closed_of_ne_nil h, List.append_nil, List.singleton_append]⟩
    · obtain ⟨t, ws, ht⟩ := ih (show cur ++ [x] ≠ [] by simp)
      exact ⟨x :: t, ws, by
        rw [wordsFrom, if_neg hx, ht, List.append_assoc, List.singleton_append]⟩

theorem words_nil : words p ([] : List α) = [] := by
  rw [← wordsFrom_nil, wordsFrom, closed_nil]

theorem words_cons_of_pos (hx : p x = true) (l : List α) : words p (x :: l) = words p l := by
  rw [← wordsFrom_nil, wordsFrom, if_pos hx, closed_nil, wordsFrom_nil, List.nil_append]

/-- A list that is not all separators has a word. -/
theorem words_ne_nil (hx : x ∈ l) (hp : p x = false) : words p l ≠ [] := by
  induction l with
  | nil => cases hx
  | cons y l ih =>
    by_cases hy : p y = true
    · rw [words_cons_of_pos hy]
      refine ih ((List.mem_cons.mp hx).resolve_left ?_)
      rintro rfl
      rw [hp] at hy
      cases hy
    · obtain ⟨t, ws, h⟩ := wordsFrom_open (p := p) (show [y] ≠ [] by simp) l
      rw [← wordsFrom_nil, wordsFrom, if_neg hy, List.nil_append, h]
      exact List.cons_ne_nil _ _

/-- The elements of the words are those of the open run and those of the list that are not
separators. -/
theorem forall_mem_wordsFrom {P : α → Prop} (hcur : ∀ y ∈ cur, P y)
    (hl : ∀ y ∈ l, p y = false → P y) : ∀ w ∈ wordsFrom p cur l, ∀ y ∈ w, P y := by
  -- a run is made of the elements that have opened it
  have hclosed : ∀ {run : List α}, (∀ y ∈ run, P y) → ∀ w ∈ closed run, ∀ y ∈ w, P y := by
    intro run hrun w hw y hy
    rw [closed] at hw
    split_ifs at hw
    · cases hw
    · rw [List.mem_singleton.mp hw] at hy
      exact hrun y hy
  induction l generalizing cur with
  | nil => exact hclosed hcur
  | cons x l ih =>
    have hl' : ∀ y ∈ l, p y = false → P y := fun y hy => hl y (List.mem_cons_of_mem x hy)
    intro w hw
    rw [wordsFrom] at hw
    split_ifs at hw with hx
    · rcases List.mem_append.mp hw with hw | hw
      · exact hclosed hcur w hw
      · exact ih (by simp) hl' w hw
    · refine ih (fun y hy => ?_) hl' w hw
      rcases List.mem_append.mp hy with hy | hy
      · exact hcur y hy
      · rw [List.mem_singleton.mp hy]
        exact hl x List.mem_cons_self (eq_false_of_ne_true hx)

/-- A word has no separators. -/
theorem eq_false_of_mem_words {w : List α} (hw : w ∈ words p l) (hx : x ∈ w) : p x = false := by
  rw [← wordsFrom_nil] at hw
  exact forall_mem_wordsFrom (P := fun y => p y = false) (by simp) (fun _ _ h => h) w hw x hx

/-- The words are parts of the list. -/
theorem mem_of_mem_words {w : List α} (hw : w ∈ words p l) (hx : x ∈ w) : x ∈ l := by
  rw [← wordsFrom_nil] at hw
  exact forall_mem_wordsFrom (P := (· ∈ l)) (by simp) (fun _ h _ => h) w hw x hx

end Words
