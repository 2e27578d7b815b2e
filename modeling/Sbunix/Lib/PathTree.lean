import Mathlib.Data.List.Basic
import Mathlib.Data.List.Infix
import Mathlib.Data.List.TakeWhile

/-!
# Trees of names as flat lists of paths

A directory tree is written down as the list of its full paths in depth-first order: the path of a
directory ends in the separator, and what is in the directory follows it immediately. Here are such
trees, over any alphabet, and what one needs to know in order to find the children of a directory
again in the flat list.

* `dirs_split` — a directory in the list: what is in it follows it, and nothing else starts with
  its path;
* `changes_paths` — the children are the first components of the paths, where they change.

The separator `sep` is a parameter. Induction is on the tree, which is a binary one: first what is
in a directory, then the rest of the list it is in.
-/

namespace PathTree

variable {α β γ : Type*}

/-- A list of files with their contents and of directories. -/
inductive Forest (α β : Type*)
  | nil
  | file (name : List α) (content : β) (rest : Forest α β)
  | dir (name : List α) (inside rest : Forest α β)

namespace Forest

/-- The names in a directory. -/
def names : Forest α β → List (List α)
  | nil => []
  | file name _ rest => name :: rest.names
  | dir name _ rest => name :: rest.names

/-- **Proper names**: not empty, without separator, and different within a directory. -/
def Proper (sep : α) : Forest α β → Prop
  | nil => True
  | file name _ rest => name ≠ [] ∧ sep ∉ name ∧ name ∉ rest.names ∧ rest.Proper sep
  | dir name inside rest =>
    name ≠ [] ∧ sep ∉ name ∧ name ∉ rest.names ∧ inside.Proper sep ∧ rest.Proper sep

/-- The names in a directory as a listing has them: those of directories end in the separator. -/
def children (sep : α) : Forest α β → List (List α)
  | nil => []
  | file name _ rest => name :: rest.children sep
  | dir name _ rest => (name ++ [sep]) :: rest.children sep

/-- **The paths in depth-first order**, all behind `pre`, with the contents of the files. -/
def paths (sep : α) (pre : List α) : Forest α β → List (List α × Option β)
  | nil => []
  | file name content rest => (pre ++ name, some content) :: rest.paths sep pre
  | dir name inside rest =>
    (pre ++ name ++ [sep], none) :: (inside.paths sep (pre ++ name ++ [sep]) ++ rest.paths sep pre)

/-- The directories with their paths. -/
def dirs (sep : α) (pre : List α) : Forest α β → List (List α × Forest α β)
  | nil => []
  | file _ _ rest => rest.dirs sep pre
  | dir name inside rest =>
    (pre ++ name ++ [sep], inside) :: (inside.dirs sep (pre ++ name ++ [sep]) ++ rest.dirs sep pre)

end Forest

open Forest

variable {sep : α} {pre name d : List α} {t inside : Forest α β} {p : List α × Option β}

theorem names_eq_nil_iff : t.names = [] ↔ t = .nil := by
  cases t with
  | nil => exact ⟨fun _ => rfl, fun _ => rfl⟩
  | file name content rest => exact ⟨fun h => by simp [names] at h, fun h => by simp at h⟩
  | dir name inside rest => exact ⟨fun h => by simp [names] at h, fun h => by simp at h⟩

theorem ne_nil_of_mem_names (ht : t.Proper sep) (h : name ∈ t.names) : name ≠ [] := by
  induction t with
  | nil => cases h
  | file n content rest ih =>
    obtain ⟨hn, -, -, hrest⟩ := ht
    rcases List.mem_cons.mp h with rfl | h
    · exact hn
    · exact ih hrest h
  | dir n inside rest _ ihr =>
    obtain ⟨hn, -, -, -, hrest⟩ := ht
    rcases List.mem_cons.mp h with rfl | h
    · exact hn
    · exact ihr hrest h

theorem getLastD_of_forall_eq {prev : γ} {xs : List γ} (h : ∀ x ∈ xs, x = prev) :
    xs.getLastD prev = prev := by
  induction xs with
  | nil => rfl
  | cons x xs ih =>
    rw [List.getLastD_cons, h x List.mem_cons_self]
    exact ih fun y hy => h y (List.mem_cons_of_mem x hy)

variable [DecidableEq α] [DecidableEq γ]

/-- The first component of a path. -/
def first (sep : α) (path : List α) : List α := path.takeWhile (· ≠ sep)

/-- The first component with the separator behind it, if there is one. -/
def component (sep : α) (path : List α) : List α :=
  path.takeWhile (· ≠ sep) ++ (path.dropWhile (· ≠ sep)).take 1

/-- Where a list changes, beginning with `prev`. -/
def changes (prev : γ) : List γ → List γ
  | [] => []
  | x :: xs => if x = prev then changes prev xs else x :: changes x xs

/-! ### Changes -/

theorem changes_append (prev : γ) (xs ys : List γ) :
    changes prev (xs ++ ys) = changes prev xs ++ changes (xs.getLastD prev) ys := by
  induction xs generalizing prev with
  | nil => rfl
  | cons x xs ih =>
    rw [List.cons_append, changes, changes, List.getLastD_cons]
    split
    · next h => rw [ih, h]
    · rw [ih, List.cons_append]

theorem changes_of_forall_eq {prev : γ} {xs : List γ} (h : ∀ x ∈ xs, x = prev) :
    changes prev xs = [] := by
  induction xs with
  | nil => rfl
  | cons x xs ih =>
    rw [changes, if_pos (h x List.mem_cons_self)]
    exact ih fun y hy => h y (List.mem_cons_of_mem x hy)

/-! ### Components -/

theorem first_append (h : sep ∉ name) (path : List α) :
    first sep (name ++ sep :: path) = name := by
  induction name with
  | nil => simp [first]
  | cons c name ih =>
    have hc : c ≠ sep := fun hc => h (hc ▸ List.mem_cons_self)
    rw [List.cons_append, first, List.takeWhile_cons_of_pos (by simpa using hc)]
    exact congrArg (c :: ·) (ih fun hm => h (List.mem_cons_of_mem c hm))

theorem first_of_notMem (h : sep ∉ name) : first sep name = name := by
  rw [first, List.takeWhile_eq_self_iff]
  intro c hc
  simpa using fun heq : c = sep => h (heq ▸ hc)

theorem component_append (h : sep ∉ name) (path : List α) :
    component sep (name ++ sep :: path) = name ++ [sep] := by
  induction name with
  | nil => simp [component]
  | cons c name ih =>
    have hc : c ≠ sep := fun hc => h (hc ▸ List.mem_cons_self)
    rw [List.cons_append, component, List.takeWhile_cons_of_pos (by simpa using hc),
      List.dropWhile_cons_of_pos (by simpa using hc)]
    exact congrArg (c :: ·) (ih fun hm => h (List.mem_cons_of_mem c hm))

theorem component_of_notMem (h : sep ∉ name) : component sep name = name := by
  have hfirst : name.takeWhile (· ≠ sep) = name := first_of_notMem h
  have hdrop : name.dropWhile (· ≠ sep) = [] :=
    List.dropWhile_eq_nil_iff.mpr (List.takeWhile_eq_self_iff.mp hfirst)
  rw [component, hfirst, hdrop, List.take_nil, List.append_nil]

/-- Every path starts with a name in the directory. -/
theorem mem_paths (ht : t.Proper sep) (hp : p ∈ t.paths sep pre) :
    ∃ q, p.1 = pre ++ q ∧ first sep q ∈ t.names := by
  induction t generalizing pre with
  | nil => cases hp
  | file name content rest ih =>
    obtain ⟨-, hsep, -, hrest⟩ := ht
    rcases List.mem_cons.mp hp with rfl | hp
    · exact ⟨name, rfl, by rw [first_of_notMem hsep]; exact List.mem_cons_self⟩
    · obtain ⟨q, hq, hmem⟩ := ih hrest hp
      exact ⟨q, hq, List.mem_cons_of_mem name hmem⟩
  | dir name inside rest ihi ihr =>
    obtain ⟨-, hsep, -, hinside, hrest⟩ := ht
    rcases List.mem_cons.mp hp with rfl | hp
    · refine ⟨name ++ [sep], List.append_assoc .., ?_⟩
      rw [first_append hsep]
      exact List.mem_cons_self
    rcases List.mem_append.mp hp with hp | hp
    · obtain ⟨q, hq, -⟩ := ihi hinside hp
      refine ⟨name ++ sep :: q, by simp [hq], ?_⟩
      rw [first_append hsep]
      exact List.mem_cons_self
    · obtain ⟨q, hq, hmem⟩ := ihr hrest hp
      exact ⟨q, hq, List.mem_cons_of_mem name hmem⟩

/-- What is in a directory starts with its path, and with nothing less. -/
theorem mem_inside (hinside : inside.Proper sep)
    (hp : p ∈ inside.paths sep (pre ++ name ++ [sep])) : ∃ q, p.1 = pre ++ (name ++ sep :: q) := by
  obtain ⟨q, hq, -⟩ := mem_paths hinside hp
  exact ⟨q, by simp [hq]⟩

/-- Paths of other names do not start with the path of a directory. -/
theorem not_isPrefix (ht : t.Proper sep) (hsep : sep ∉ name) (hname : name ∉ t.names)
    (hp : p ∈ t.paths sep pre) (hd : pre ++ name ++ [sep] <+: d) : ¬ d <+: p.1 := by
  intro hc
  obtain ⟨q, hq, hmem⟩ := mem_paths ht hp
  obtain ⟨x, hx⟩ := hd.trans hc
  have hqx : q = name ++ sep :: x := by
    rw [hq, List.append_assoc, List.append_assoc] at hx
    have := List.append_cancel_left hx
    simpa using this.symm
  rw [hqx, first_append hsep] at hmem
  exact hname hmem

theorem mem_dirs (ht : t.Proper sep) (hd : (d, inside) ∈ t.dirs sep pre) :
    ∃ q, d = pre ++ q ∧ first sep q ∈ t.names := by
  induction t generalizing pre with
  | nil => cases hd
  | file name content rest ih =>
    obtain ⟨-, -, -, hrest⟩ := ht
    obtain ⟨q, hq, hmem⟩ := ih hrest hd
    exact ⟨q, hq, List.mem_cons_of_mem name hmem⟩
  | dir name inside' rest ihi ihr =>
    obtain ⟨-, hsep, -, hinside, hrest⟩ := ht
    rcases List.mem_cons.mp hd with heq | hd
    · obtain ⟨rfl, rfl⟩ := Prod.mk.inj heq
      refine ⟨name ++ [sep], List.append_assoc .., ?_⟩
      rw [first_append hsep]
      exact List.mem_cons_self
    rcases List.mem_append.mp hd with hd | hd
    · obtain ⟨q, hq, -⟩ := ihi hinside hd
      refine ⟨name ++ sep :: q, by simp [hq], ?_⟩
      rw [first_append hsep]
      exact List.mem_cons_self
    · obtain ⟨q, hq, hmem⟩ := ihr hrest hd
      exact ⟨q, hq, List.mem_cons_of_mem name hmem⟩

/-- **A directory in the list of paths**: what is in it follows it, and nothing behind that starts
with its path. -/
theorem dirs_split (ht : t.Proper sep) (hd : (d, inside) ∈ t.dirs sep pre) :
    ∃ before after, t.paths sep pre = before ++ (d, none) :: (inside.paths sep d ++ after) ∧
      inside.Proper sep ∧ (∀ p ∈ before, p.1 ≠ d) ∧ ∀ p ∈ after, ¬ d <+: p.1 := by
  induction t generalizing pre with
  | nil => cases hd
  | file name content rest ih =>
    obtain ⟨-, hsep, hnot, hrest⟩ := ht
    obtain ⟨before, after, heq, hin, hbefore, hafter⟩ := ih hrest hd
    refine ⟨(pre ++ name, some content) :: before, after, by rw [paths, heq]; rfl, hin, ?_, hafter⟩
    intro p hp
    rcases List.mem_cons.mp hp with rfl | hp
    · -- the directory has another name
      rintro rfl
      obtain ⟨q, hq, hmem⟩ := mem_dirs hrest hd
      rw [← List.append_cancel_left hq, first_of_notMem hsep] at hmem
      exact hnot hmem
    · exact hbefore p hp
  | dir name inside' rest ihi ihr =>
    obtain ⟨-, hsep, hnot, hinside, hrest⟩ := ht
    rcases List.mem_cons.mp hd with heq | hd
    · obtain ⟨rfl, rfl⟩ := Prod.mk.inj heq
      refine ⟨[], rest.paths sep pre, rfl, hinside, fun _ hp => by simp at hp, fun p hp => ?_⟩
      exact not_isPrefix hrest hsep hnot hp (List.prefix_refl _)
    rcases List.mem_append.mp hd with hd | hd
    · obtain ⟨before, after, heq, hin, hbefore, hafter⟩ := ihi hinside hd
      obtain ⟨q, hq, hmem⟩ := mem_dirs hinside hd
      refine ⟨(pre ++ name ++ [sep], none) :: before, after ++ rest.paths sep pre, ?_, hin, ?_, ?_⟩
      · rw [paths, heq]
        simp only [List.append_assoc, List.cons_append]
      · intro p hp
        rcases List.mem_cons.mp hp with rfl | hp
        · intro hc
          -- it is further down
          have hnil : q = [] := List.append_right_eq_self.mp (hq.symm.trans hc.symm)
          rw [hnil] at hmem
          exact ne_nil_of_mem_names hinside hmem rfl
        · exact hbefore p hp
      · intro p hp
        rcases List.mem_append.mp hp with hp | hp
        · exact hafter p hp
        · exact not_isPrefix hrest hsep hnot hp ⟨q, hq.symm⟩
    · obtain ⟨before, after, heq, hin, hbefore, hafter⟩ := ihr hrest hd
      obtain ⟨q, hq, hmem⟩ := mem_dirs hrest hd
      have hother : ∀ x, pre ++ (name ++ sep :: x) ≠ d := by
        intro x hc
        rw [← List.append_cancel_left (hc.trans hq), first_append hsep] at hmem
        exact hnot hmem
      refine ⟨(pre ++ name ++ [sep], none) :: (inside'.paths sep (pre ++ name ++ [sep]) ++ before),
        after, ?_, hin, ?_, hafter⟩
      · rw [paths, heq]
        simp only [List.append_assoc, List.cons_append]
      · intro p hp
        rcases List.mem_cons.mp hp with rfl | hp
        · exact fun hc => hother [] (by simpa using hc)
        rcases List.mem_append.mp hp with hp | hp
        · obtain ⟨x, hx⟩ := mem_inside hinside hp
          rw [hx]
          exact hother x
        · exact hbefore p hp

/-! ### Children -/

theorem mem_children (ht : t.Proper sep) (h : name ∈ t.children sep) :
    first sep name ∈ t.names := by
  induction t with
  | nil => cases h
  | file n content rest ih =>
    obtain ⟨-, hsep, -, hrest⟩ := ht
    rcases List.mem_cons.mp h with rfl | h
    · rw [first_of_notMem hsep]
      exact List.mem_cons_self
    · exact List.mem_cons_of_mem n (ih hrest h)
  | dir n inside rest _ ihr =>
    obtain ⟨-, hsep, -, -, hrest⟩ := ht
    rcases List.mem_cons.mp h with rfl | h
    · rw [first_append hsep]
      exact List.mem_cons_self
    · exact List.mem_cons_of_mem n (ihr hrest h)

theorem nil_notMem_children (ht : t.Proper sep) : [] ∉ t.children sep :=
  fun h => ne_nil_of_mem_names ht (mem_children ht h) rfl

/-- Every child is listed once. -/
theorem nodup_children (ht : t.Proper sep) : (t.children sep).Nodup := by
  induction t with
  | nil => exact List.nodup_nil
  | file n content rest ih =>
    obtain ⟨-, hsep, hnot, hrest⟩ := ht
    refine List.nodup_cons.mpr ⟨fun h => hnot ?_, ih hrest⟩
    rw [← first_of_notMem hsep]
    exact mem_children hrest h
  | dir n inside rest _ ihr =>
    obtain ⟨-, hsep, hnot, -, hrest⟩ := ht
    refine List.nodup_cons.mpr ⟨fun h => hnot ?_, ihr hrest⟩
    rw [← first_append hsep []]
    exact mem_children hrest h

/-- **The children of a directory** are the first components of the paths in it, where they
change. -/
theorem changes_paths {prev : List α} (ht : t.Proper sep) (hprev : prev ∉ t.children sep) :
    changes prev ((t.paths sep pre).map fun p => component sep (p.1.drop pre.length)) =
      t.children sep := by
  induction t generalizing prev with
  | nil => rfl
  | file n content rest ih =>
    obtain ⟨-, hsep, hnot, hrest⟩ := ht
    have hne : n ≠ prev := fun hc => hprev (hc ▸ List.mem_cons_self)
    have hn : n ∉ rest.children sep := by
      intro h
      have := mem_children hrest h
      rw [first_of_notMem hsep] at this
      exact hnot this
    rw [paths, List.map_cons, List.drop_left, component_of_notMem hsep, changes, if_neg hne,
      ih hrest hn, children]
  | dir n inside rest _ ihr =>
    obtain ⟨-, hsep, hnot, hinside, hrest⟩ := ht
    have hne : n ++ [sep] ≠ prev := fun hc => hprev (hc ▸ List.mem_cons_self)
    have hn : n ++ [sep] ∉ rest.children sep := by
      intro h
      have := mem_children hrest h
      rw [first_append hsep] at this
      exact hnot this
    -- what is in the directory has the component of the directory
    have hsame : ∀ x ∈ (inside.paths sep (pre ++ n ++ [sep])).map
        fun p => component sep (p.1.drop pre.length), x = n ++ [sep] := by
      intro x hx
      obtain ⟨p, hp, rfl⟩ := List.mem_map.mp hx
      obtain ⟨q, hq⟩ := mem_inside hinside hp
      rw [hq, List.drop_left, component_append hsep]
    have hhead : component sep ((pre ++ n ++ [sep]).drop pre.length) = n ++ [sep] := by
      rw [List.append_assoc, List.drop_left, component_append hsep]
    rw [paths, List.map_cons, List.map_append, hhead, changes, if_neg hne, changes_append,
      changes_of_forall_eq hsame, getLastD_of_forall_eq hsame, List.nil_append, ihr hrest hn,
      children]

/-- No path has an empty component. -/
theorem component_ne_nil (ht : t.Proper sep) (hp : p ∈ t.paths sep pre) :
    component sep (p.1.drop pre.length) ≠ [] := by
  obtain ⟨q, hq, hmem⟩ := mem_paths ht hp
  rw [hq, List.drop_left]
  intro hc
  exact ne_nil_of_mem_names ht hmem (List.append_eq_nil_iff.mp hc).1

end PathTree
