import Sbunix.EnvironmentMap
import Sbunix.Paths

/-!
# Changing the directory

`changeDirectory` normalises its path, looks it up in the archive, and stores it where `getCWD`
points. That is the value of `PWD` when there is such a variable. `getCWD` returns its pointer also
when there is none: it points to the value of the last variable then, and to address 0 in an empty
environment.

The path is normalised behind the working directory, which is taken as it is written. So what is
stored for a relative path is its canonical form if the value of `PWD` is canonical, and otherwise
only if the path leads up to the root first (`removeDotslashIn_canonical_iff`).

* `removeDotslashLoopIn_segments` — the main loop, from any directory;
* `changeDirectory_iff` — when a call does what it is for (`DirectoryChanged`), or nothing.
-/

namespace Sbunix

open ByteMem

/-- The loop of `getCWD`, for the pointer that it returns: `pointer` is `env_entry+arg_i` of the
page before. -/
def cwdPointerFrom (m : UserMem) : Nat → Nat → Nat → Option Nat
  | 0, _, _ => none
  | n + 1, a, pointer => do
    let c ← m a
    if c = 0 then some pointer
    else
      let temp ← entryName m 256 a
      if temp.takeWhile (· != 0) = pwdName then some (a + temp.length + 1)
      else cwdPointerFrom m n (a + 0x1000) (a + temp.length + 1)

/-- What `getCWD` returns. -/
def cwdPointer (m : UserMem) : Option Nat := cwdPointerFrom m walkFuel 0x302000 0

/-- `changeDirectory`: what it returns, and the memory of the process. -/
def changeDirectory (m : Mem) (ar : Archive) (user : UserMem) (buf : List UInt8) :
    Option (Int × UserMem) := do
  let dest ← removeDotslashIn user 255 buf 1
  let address ← getDirAddress m ar (dest.drop 1)
  if address = 0 then some (-1, user)
  else
    let envValue ← cwdPointer user
    (storeAll user envValue (dest ++ [0])).map fun user => (0, user)

/-! ### What it is for -/

/-- The components of the absolute form of `buf`, in the working directory `pwd`. -/
def absoluteForm (pwd buf : List UInt8) : List (List UInt8) :=
  (components buf).foldl stepComponent
    (if buf.getD 0 0 = slash then [] else (components pwd).foldl stepComponent [])

/-- **The directory is changed**: `PWD` is the canonical form of the path that was asked for, ends
in a slash and names a directory of the archive; no other variable has changed. -/
structure DirectoryChanged (m : Mem) (ar : Archive) (user : UserMem) (es : List Var)
    (buf : List UInt8) (user' : UserMem) : Prop where
  pwd : ∃ path, getenvValue user' pwdName = some (some path) ∧ Canonical path ∧
    components path = absoluteForm ((envMap es pwdName).getD []) buf ∧
    path.getLast? = some slash ∧ ∃ a ≠ 0, getDirAddress m ar (path.drop 1) = some a
  others : ∀ name ≠ pwdName, getenvValue user' name = getenvValue user name

/-- **What a caller relies on**: the directory is changed, or nothing is. -/
def ChangesDirectory (m : Mem) (ar : Archive) (user : UserMem) (es : List Var)
    (buf : List UInt8) : Prop :=
  (∃ user', changeDirectory m ar user buf = some (0, user') ∧
    DirectoryChanged m ar user es buf user') ∨ changeDirectory m ar user buf = some (-1, user)

/-- A first part of the path leads from `pwd`, as it is written, up to the root. -/
def LeadsToRoot (pwd buf : List UInt8) : Prop :=
  ∃ ss : List (List UInt8), (∀ c ∈ ss, slash ∉ c) ∧ endSlash pwd = some (render ss ++ [slash]) ∧
    ∃ q, q <+: components buf ∧ q.foldl stepComponent ss = []

/-- The path is absolute, or the working directory is canonical, or what is not canonical in it is
left behind. -/
def HasStart (es : List Var) (buf : List UInt8) : Prop :=
  buf.getD 0 0 = slash ∨
    ∃ pwd, envMap es pwdName = some pwd ∧ (Canonical pwd ∨ LeadsToRoot pwd buf)

variable {m : Mem} {ar : Archive} {user user' : UserMem} {es : List Var}
  {buf out input path q : List UInt8} {cs l ss : List (List UInt8)} {n a p last : Nat}

/-! ### The loop -/

/-- The parent is a part of the path. -/
theorem parentPath_part (h : parentPath out = some q) : q ≠ [] ∧ q <+: out := by
  unfold parentPath at h
  split at h
  · cases h
  · obtain rfl := Option.some.inj h
    exact ⟨List.cons_ne_nil _ _, List.prefix_rfl⟩
  · dsimp only at h
    split at h
    · cases h
    next hne =>
    obtain rfl := Option.some.inj h
    refine ⟨fun hc => hne (List.reverse_eq_nil_iff.mp hc), ?_⟩
    have hsuffix := List.dropWhile_suffix (l := (out.take (out.length - 1)).reverse) (· != slash)
    have hprefix := List.reverse_prefix.mpr hsuffix
    rw [List.reverse_reverse] at hprefix
    exact hprefix.trans (List.take_prefix ..)

/-- The characters of the result come from the path and from where the loop starts. -/
theorem removeDotslashLoopIn_all {P : UInt8 → Prop} (hs : P slash)
    (h : removeDotslashLoopIn last n out input = some path) (hout : ∀ c ∈ out, P c)
    (hin : ∀ c ∈ input, P c) : ∀ c ∈ path, P c := by
  have hdrop : ∀ {l : List UInt8} {k : Nat}, (∀ c ∈ l, P c) → ∀ c ∈ l.drop k, P c :=
    fun hl c hc => hl c (List.mem_of_mem_drop hc)
  induction n generalizing out input with
  | zero => cases h
  | succ n ih =>
    rw [removeDotslashLoopIn] at h
    split at h
    · rwa [← Option.some.inj h]
    dsimp only at h
    have hcomp : ∀ c ∈ input.takeWhile (· != slash), P c := fun c hc =>
      hin c (List.takeWhile_subset _ hc)
    split at h
    · cases h
    split at h
    · exact ih h hout (hdrop hin)
    split at h
    · exact ih h hout (hdrop hin)
    split at h
    · obtain ⟨q, hq, h⟩ := Option.bind_eq_some_iff.mp h
      exact ih h (fun c hc => hout c ((parentPath_part hq).2.subset hc)) (hdrop hin)
    split at h
    · refine ih h (fun c hc => ?_) fun c hc => hdrop hin c (List.dropWhile_subset _ hc)
      rcases List.mem_append.mp hc with hc | hc
      · rcases List.mem_append.mp hc with hc | hc
        · exact hout c hc
        · exact hcomp c hc
      · rwa [List.mem_singleton.mp hc]
    · refine ih h (fun c hc => ?_) (hdrop hin)
      rcases List.mem_append.mp hc with hc | hc
      · exact hout c hc
      · exact hcomp c hc

/-- The first character of the output stays. -/
theorem removeDotslashLoopIn_head (hne : out ≠ [])
    (h : removeDotslashLoopIn last n out input = some path) :
    path ≠ [] ∧ path.head? = out.head? := by
  induction n generalizing out input with
  | zero => cases h
  | succ n ih =>
    rw [removeDotslashLoopIn] at h
    split at h
    · obtain rfl := Option.some.inj h
      exact ⟨hne, rfl⟩
    dsimp only at h
    split at h
    · cases h
    split at h
    · exact ih hne h
    split at h
    · exact ih hne h
    split at h
    · obtain ⟨q, hq, h'⟩ := Option.bind_eq_some_iff.mp h
      obtain ⟨hqne, t, rfl⟩ := parentPath_part hq
      rw [List.head?_append_of_ne_nil _ hqne]
      exact ih hqne h'
    -- what is added comes behind
    split at h
    · have := ih (by simp) h
      rwa [List.append_assoc, List.head?_append_of_ne_nil _ hne] at this
    · have := ih (List.append_ne_nil_of_left_ne_nil hne _) h
      rwa [List.head?_append_of_ne_nil _ hne] at this

theorem endSlash_append_slash (p : List UInt8) : endSlash (p ++ [slash]) = some (p ++ [slash]) := by
  simp [endSlash]

/-- There is no slash at the end of a component. -/
theorem endSlash_append {c : List UInt8} (p : List UInt8) (hc : slash ∉ c) (hne : c ≠ []) :
    endSlash (p ++ c) = some (p ++ c ++ [slash]) := by
  obtain ⟨c', x, rfl⟩ := (List.eq_nil_or_concat' c).resolve_left hne
  have hx : x ≠ slash := by
    rintro rfl
    exact hc (by simp)
  simp [endSlash, ← List.append_assoc, hx]

/-- **What the loop makes of any start** that begins and ends with a slash: the components of the
path are applied to what stands between its slashes, whether these are names or not. -/
theorem removeDotslashLoopIn_segments (hcs : ∀ c ∈ cs, slash ∉ c)
    (h : removeDotslashLoopIn last n (render cs ++ [slash]) input = some out) :
    endSlash out = some (render ((components input).foldl stepComponent cs) ++ [slash]) := by
  induction n generalizing cs input with
  | zero => cases h
  | succ n ih =>
    obtain ⟨c, rest, rfl, hc, htake, hrest⟩ := exists_component input
    rw [removeDotslashLoopIn] at h
    split at h
    · next hnil =>
      obtain rfl := Option.some.inj h
      rw [hnil, components_nil, List.foldl_nil, endSlash_append_slash]
    next hne =>
    dsimp only at h
    rw [htake] at h
    split at h
    · cases h
    -- what is read behind the component
    obtain ⟨next, hcomp, hnext⟩ : ∃ next, components (c ++ rest) =
        (if c = [] then [] else [c]) ++ components next ∧
        (rest = [] ∧ next = [] ∨ rest = slash :: next) := by
      rcases hrest with rfl | ⟨r, rfl⟩
      · exact ⟨[], by rw [List.append_nil, components_of_notMem hc, components_nil,
          List.append_nil], .inl ⟨rfl, rfl⟩⟩
      · exact ⟨r, components_append_slash hc r, .inr rfl⟩
    rw [hcomp, List.foldl_append]
    have hz : (0 : UInt8) ≠ slash := by decide
    split at h
    · next hdot =>
      subst hdot
      rcases hnext with ⟨rfl, rfl⟩ | rfl
      · simpa [hz, stepComponent] using ih hcs h
      · simpa [stepComponent] using ih hcs h
    split at h
    · next hempty =>
      subst hempty
      rcases hnext with ⟨rfl, rfl⟩ | rfl
      · exact absurd rfl hne
      · simpa using ih hcs h
    split at h
    · next hdots =>
      subst hdots
      rw [parentPath_render hcs, Option.bind_eq_bind, Option.bind_some] at h
      have hup := ih (fun c hc => hcs c (List.mem_of_mem_dropLast hc)) h
      rcases hnext with ⟨rfl, rfl⟩ | rfl
      · simpa [hz, stepComponent, dot] using hup
      · simpa [stepComponent, dot] using hup
    next hndot hnempty hndots =>
    rw [List.drop_left] at h
    have hstep : stepComponent cs c = cs ++ [c] := by
      rw [stepComponent, if_neg hndot, if_neg hndots]
    rw [if_neg hnempty, List.foldl_cons, List.foldl_nil, hstep]
    rcases hnext with ⟨rfl, rfl⟩ | rfl
    · -- the last name
      rw [if_neg (by simpa using hz)] at h
      cases n with
      | zero => cases h
      | succ n =>
        rw [removeDotslashLoop_nil] at h
        obtain rfl := Option.some.inj h
        rw [endSlash_append _ hc hnempty, components_nil, List.foldl_nil, render_append]
        simp
    · rw [if_pos (show (slash :: next).getD 0 0 = slash from rfl)] at h
      have hout : render cs ++ [slash] ++ c ++ [slash] = render (cs ++ [c]) ++ [slash] := by
        rw [render_append]
        simp
      rw [hout] at h
      have := ih (fun d hd => (List.mem_append.mp hd).elim (hcs d) fun hd =>
        List.mem_singleton.mp hd ▸ hc) h
      rwa [components_dropWhile_slash, components_slash] at this

/-! ### Between the slashes -/

theorem count_render (h : ∀ c ∈ cs, slash ∉ c) : (render cs).count slash = cs.length := by
  induction cs with
  | nil => rfl
  | cons c cs ih =>
    have hc := List.count_eq_zero.mpr (h c List.mem_cons_self)
    have hrest := ih fun d hd => h d (List.mem_cons_of_mem c hd)
    rw [show render (c :: cs) = slash :: (c ++ render cs) from rfl, List.count_cons_self,
      List.count_append, hc, hrest, Nat.zero_add, List.length_cons]

/-- What begins and ends with a slash. -/
theorem exists_render {p : List UInt8} (hhead : p.head? = some slash)
    (hlast : p.getLast? = some slash) :
    ∃ ss : List (List UInt8), (∀ c ∈ ss, slash ∉ c) ∧ p = render ss ++ [slash] := by
  induction hn : p.length using Nat.strongRecOn generalizing p with
  | ind k ih =>
    obtain ⟨q, rfl⟩ : ∃ q, p = slash :: q := by
      cases p with
      | nil => cases hhead
      | cons x q => exact ⟨q, by rw [Option.some.inj hhead]⟩
    obtain ⟨c, rest, rfl, hc, -, hrest⟩ := exists_component q
    rcases hrest with rfl | ⟨r, rfl⟩
    · -- the slash in front is the only one
      rw [List.append_nil] at hlast ⊢
      have hnil : c = [] := by
        by_contra hne
        obtain ⟨c', x, rfl⟩ := (List.eq_nil_or_concat' c).resolve_left hne
        rw [← List.cons_append, List.getLast?_concat] at hlast
        exact hc (by simp [Option.some.inj hlast])
      exact ⟨[], List.forall_mem_nil _, by rw [hnil]; rfl⟩
    · have hlast' : (slash :: r).getLast? = some slash := by
        rwa [← List.cons_append, List.getLast?_append_of_ne_nil _ (List.cons_ne_nil _ _)] at hlast
      obtain ⟨ss, hss, hr⟩ := ih (slash :: r).length (by
        rw [← hn]
        simp only [List.length_cons, List.length_append]
        omega) rfl hlast' rfl
      refine ⟨c :: ss, List.forall_mem_cons.mpr ⟨hc, hss⟩, ?_⟩
      rw [hr]
      simp [render]

theorem components_render_of_notMem (h : ∀ c ∈ cs, slash ∉ c) :
    components (render cs ++ [slash]) = cs.filter (· ≠ []) := by
  induction cs with
  | nil => exact (components_slash []).trans components_nil
  | cons c cs ih =>
    have hrest := ih fun d hd => h d (List.mem_cons_of_mem c hd)
    obtain ⟨r, hr⟩ : ∃ r, render cs ++ [slash] = slash :: r := by
      cases cs with
      | nil => exact ⟨[], rfl⟩
      | cons d cs => exact ⟨_, rfl⟩
    have hrender : render (c :: cs) ++ [slash] = slash :: (c ++ slash :: r) := by
      rw [← hr]
      simp [render]
    rw [hr, components_slash] at hrest
    rw [hrender, components_slash, components_append_slash (h c List.mem_cons_self), hrest,
      List.filter_cons]
    by_cases hc : c = []
    · simp [hc]
    · simp [hc]

theorem components_append_end (p : List UInt8) : components (p ++ [slash]) = components p := by
  induction hn : p.length using Nat.strongRecOn generalizing p with
  | ind k ih =>
    obtain ⟨c, rest, rfl, hc, -, hrest⟩ := exists_component p
    rcases hrest with rfl | ⟨r, rfl⟩
    · rw [List.append_nil, components_append_slash hc, components_nil, List.append_nil,
        components_of_notMem hc]
    · have hr := ih r.length (by
        rw [← hn]
        simp only [List.length_cons, List.length_append]
        omega) r rfl
      rw [List.append_assoc, List.cons_append, components_append_slash hc,
        components_append_slash hc, hr]

/-! ### Lengths -/

theorem length_stepComponent_le (cs : List (List UInt8)) (c : List UInt8) :
    (stepComponent cs c).length ≤ cs.length + 1 := by
  unfold stepComponent
  split_ifs
  · exact Nat.le_succ _
  · rw [List.length_dropLast]
    omega
  · rw [List.length_append, List.length_singleton]

theorem length_foldl_le (cs l : List (List UInt8)) :
    (l.foldl stepComponent cs).length ≤ cs.length + l.length := by
  induction l generalizing cs with
  | nil => exact Nat.le_refl _
  | cons c l ih =>
    have hstep := length_stepComponent_le cs c
    have hrest := ih (stepComponent cs c)
    rw [List.foldl_cons, List.length_cons]
    omega

/-- Components that are all kept are names. -/
theorem ne_dots_of_length (h : (l.foldl stepComponent cs).length = cs.length + l.length) :
    ∀ c ∈ l, c ≠ [dot] ∧ c ≠ [dot, dot] := by
  induction l generalizing cs with
  | nil => exact List.forall_mem_nil _
  | cons c l ih =>
    have hstep := length_stepComponent_le cs c
    have hrest := length_foldl_le (stepComponent cs c) l
    rw [List.foldl_cons, List.length_cons] at h
    have hkept : (stepComponent cs c).length = cs.length + 1 := by omega
    refine List.forall_mem_cons.mpr ⟨?_, @ih (stepComponent cs c) (by omega)⟩
    unfold stepComponent at hkept
    split_ifs at hkept with hdot hdots
    · omega
    · rw [List.length_dropLast] at hkept
      omega
    · exact ⟨hdot, hdots⟩

/-- The longer of two lists stays the longer one. -/
theorem length_stepComponent_mono (h : cs.length ≤ ss.length) (c : List UInt8) :
    (stepComponent cs c).length ≤ (stepComponent ss c).length := by
  unfold stepComponent
  split_ifs
  · exact h
  · rw [List.length_dropLast, List.length_dropLast]
    omega
  · rw [List.length_append, List.length_append]
    omega

theorem length_foldl_mono (h : cs.length ≤ ss.length) :
    (l.foldl stepComponent cs).length ≤ (l.foldl stepComponent ss).length := by
  induction l generalizing cs ss with
  | nil => exact h
  | cons c l ih => exact ih (length_stepComponent_mono h c)

/-- **The difference stays**, unless the longer one becomes empty: only a `..` in the root makes it
smaller. -/
theorem length_eq_of_foldl (h : cs.length ≤ ss.length)
    (hroot : ∀ q, q <+: l → q.foldl stepComponent ss ≠ [])
    (heq : (l.foldl stepComponent ss).length = (l.foldl stepComponent cs).length) :
    ss.length = cs.length := by
  induction l generalizing cs ss with
  | nil => exact heq
  | cons c l ih =>
    have hstep := ih (length_stepComponent_mono h c)
      (fun q hq => hroot (c :: q) (List.prefix_cons_inj c |>.mpr hq)) heq
    have hone := List.length_pos_iff.mpr (hroot [c] (List.prefix_append [c] l))
    rw [List.foldl_cons, List.foldl_nil] at hone
    unfold stepComponent at hstep hone
    split_ifs at hstep hone
    · exact hstep
    · rw [List.length_dropLast] at hstep hone
      rw [List.length_dropLast] at hstep
      omega
    · rw [List.length_append, List.length_append] at hstep
      omega

theorem foldl_stepComponent_of_names (h : ∀ c ∈ l, IsName c) :
    l.foldl stepComponent cs = cs ++ l := by
  induction l generalizing cs with
  | nil => exact (List.append_nil cs).symm
  | cons c l ih =>
    have hc := h c List.mem_cons_self
    rw [List.foldl_cons, stepComponent, if_neg hc.ne_dot, if_neg hc.ne_dots,
      ih fun d hd => h d (List.mem_cons_of_mem c hd), List.append_assoc, List.singleton_append]

/-! ### What is stored -/

theorem removeDotslashIn_some (h : removeDotslashIn user last input 1 = some path) :
    ∃ start rest out, dotslashStart user input = some (start, rest) ∧
      removeDotslashLoopIn last (rest.length + 1) start rest = some out ∧
      endSlash out = some path ∧ path.length ≤ last := by
  obtain ⟨⟨start, rest⟩, hstart, h⟩ := Option.bind_eq_some_iff.mp h
  obtain ⟨out, hout, h⟩ := Option.bind_eq_some_iff.mp h
  obtain ⟨path', hend, h⟩ := Option.bind_eq_some_iff.mp h
  dsimp only at h
  split at h
  · cases h
  · obtain rfl := Option.some.inj h
    exact ⟨start, rest, out, hstart, hout, hend, by omega⟩

theorem endSlash_getLast (h : endSlash out = some path) : path.getLast? = some slash := by
  unfold endSlash at h
  split at h
  · cases h
  next c hc =>
  rw [← Option.some.inj h]
  split
  · exact List.getLast?_concat
  · next hslash => rw [hc, not_not.mp hslash]

theorem endSlash_all {P : UInt8 → Prop} (hs : P slash) (h : endSlash out = some path)
    (hout : ∀ c ∈ out, P c) : ∀ c ∈ path, P c := by
  unfold endSlash at h
  split at h
  · cases h
  rw [← Option.some.inj h]
  intro c hc
  split at hc
  · rcases List.mem_append.mp hc with hc | hc
    · exact hout c hc
    · rwa [List.mem_singleton.mp hc]
  · exact hout c hc

theorem cwdString_ne_zero {cwd : List UInt8} (h : cwdString user = some cwd) :
    ∀ c ∈ cwd, c ≠ 0 := by
  obtain ⟨stored, -, h⟩ := Option.bind_eq_some_iff.mp h
  split at h
  · rw [← Option.some.inj h]
    exact fun c hc => by simpa using List.mem_takeWhile_imp hc
  · cases h

/-- What `remove_dotslash` makes is a string that ends in a slash. -/
theorem removeDotslashIn_string (h : removeDotslashIn user last input 1 = some path)
    (h0 : 0 ∉ input) : path.getLast? = some slash ∧ 0 ∉ path ∧ path.length ≤ last := by
  obtain ⟨start, rest, out, hstart, hout, hend, hlen⟩ := removeDotslashIn_some h
  have hin : ∀ c ∈ input, c ≠ 0 := fun c hc hz => h0 (hz ▸ hc)
  have hs : slash ≠ 0 := by decide
  -- there is no zero where the loop starts, and none in what it reads
  obtain ⟨hs0, hr0⟩ : (∀ c ∈ start, c ≠ 0) ∧ ∀ c ∈ rest, c ≠ 0 := by
    unfold dotslashStart at hstart
    split at hstart
    · obtain ⟨rfl, rfl⟩ := Prod.mk.inj (Option.some.inj hstart)
      exact ⟨fun c hc => List.mem_singleton.mp hc ▸ hs, fun c hc => hin c (List.mem_of_mem_drop hc)⟩
    · obtain ⟨cwd, hcwd, hstart⟩ := Option.bind_eq_some_iff.mp hstart
      obtain ⟨start', hstart', heq⟩ := Option.map_eq_some_iff.mp hstart
      obtain ⟨rfl, rfl⟩ := Prod.mk.inj heq
      exact ⟨endSlash_all hs hstart' (cwdString_ne_zero hcwd), hin⟩
  refine ⟨endSlash_getLast hend, fun hz => ?_, hlen⟩
  exact endSlash_all hs hend (removeDotslashLoopIn_all hs hout hs0 hr0) 0 hz rfl

/-- The value of `PWD` is read to its end, or not at all. -/
theorem cwdString_some {pwd cwd : List UInt8} (h : WorkingDirectory user pwd)
    (hcwd : cwdString user = some cwd) : cwd = pwd := by
  by_cases hshort : pwd.length < 255
  · exact Option.some.inj (hcwd.symm.trans (cwdString_spec h hshort))
  · obtain ⟨es, n, i, henv, hes, hlen, hscan, hi⟩ := h
    obtain ⟨w, a, hw, hmem, -, hfound, hbytes⟩ := getenv_found henv hes hlen hscan
    obtain rfl : w = (pwdName, pwd) := Option.some.inj (hw.symm.trans hi)
    have hzero := (hes _ hmem).valueZero
    -- the array holds no zero
    have hcopy := copyValue_long hzero hbytes (show 256 ≤ pwd.length + 1 by omega)
    have hnone : 0 ∉ pwd.take 256 := fun hc => hzero (List.mem_of_mem_take hc)
    simp [cwdString, getCWD, hfound, hcopy, hnone] at hcwd

theorem WellFormedEnv.scan_eq (h : WellFormedEnv user es) {name value : List UInt8}
    (hv : envMap es name = some value) :
    ∃ i, scan es name = some (some i) ∧ es[i]? = some (name, value) := by
  have hmap := @scan_envMap es name h.name_short
  obtain ⟨o, ho⟩ := scan_isSome h.name_short name
  rw [ho, hv, Option.map_some] at hmap
  obtain ⟨i, rfl, hi⟩ := Option.map_eq_some_iff.mp (Option.some.inj hmap)
  obtain ⟨w, hw, hname, -⟩ := scan_some ho []
  rw [List.getD_eq_getElem?_getD, hw, Option.getD_some] at hi
  exact ⟨i, ho, by rw [hw, ← hname, ← hi]⟩

theorem endSlash_head (hne : out ≠ []) (h : endSlash out = some path) :
    path.head? = out.head? := by
  unfold endSlash at h
  split at h
  · cases h
  rw [← Option.some.inj h]
  split
  · exact List.head?_append_of_ne_nil _ hne
  · rfl

theorem components_endSlash (h : endSlash out = some path) : components path = components out := by
  unfold endSlash at h
  split at h
  · cases h
  rw [← Option.some.inj h]
  split
  · exact components_append_end out
  · rfl

theorem canonical_of_names (h : ∀ c ∈ cs, IsName c) :
    Canonical (render cs ++ [slash]) ∧ components (render cs ++ [slash]) = cs :=
  ⟨⟨cs, h, .inl rfl⟩, IsPath.components h (.inl rfl)⟩

/-- Names between slashes make a canonical path. -/
theorem canonical_of_endSlash {pwd : List UInt8} (h : ∀ c ∈ ss, IsName c)
    (hend : endSlash pwd = some (render ss ++ [slash])) : Canonical pwd := by
  unfold endSlash at hend
  split at hend
  · cases hend
  next x hx =>
  replace hend := Option.some.inj hend
  split at hend
  · have hpwd : pwd = render ss := List.append_cancel_right hend
    refine ⟨ss, h, .inr ⟨?_, hpwd⟩⟩
    rintro rfl
    rw [hpwd] at hx
    cases hx
  · exact ⟨ss, h, .inl hend⟩

/-- A canonical path that ends in a slash has as many components as slashes, the first one apart. -/
theorem length_components_of_canonical (h : Canonical path) (hlast : path.getLast? = some slash) :
    path.count slash = (components path).length + 1 := by
  obtain ⟨cs, hcs, hpath⟩ := h
  have hend := endSlash_path hcs hpath
  obtain ⟨p, rfl⟩ := List.getLast?_eq_some_iff.mp hlast
  rw [endSlash_append_slash] at hend
  rw [hpath.components hcs, Option.some.inj hend, List.count_append,
    count_render fun c hc => (hcs c hc).slash_notMem]
  rfl

theorem components_of_endSlash {pwd : List UInt8} (hss : ∀ c ∈ ss, slash ∉ c)
    (hend : endSlash pwd = some (render ss ++ [slash])) :
    components pwd = ss.filter (· ≠ []) := by
  rw [← components_endSlash hend, components_render_of_notMem hss]

theorem length_foldl_components_le {pwd : List UInt8} (hss : ∀ c ∈ ss, slash ∉ c)
    (hend : endSlash pwd = some (render ss ++ [slash])) :
    ((components pwd).foldl stepComponent []).length ≤ ss.length := by
  have hle := length_foldl_le [] (components pwd)
  rw [List.length_nil, Nat.zero_add, components_of_endSlash hss hend] at hle
  rw [components_of_endSlash hss hend]
  exact hle.trans (List.length_filter_le _ ss)

/-- If nothing is dropped then there are names between the slashes. -/
theorem names_of_length {pwd : List UInt8} (hss : ∀ c ∈ ss, slash ∉ c)
    (hend : endSlash pwd = some (render ss ++ [slash]))
    (hlen : ss.length = ((components pwd).foldl stepComponent []).length) :
    ∀ c ∈ ss, IsName c := by
  have hle := length_foldl_le [] (components pwd)
  have hfilter := List.length_filter_le (· ≠ []) ss
  have hpwd := components_of_endSlash hss hend
  rw [List.length_nil, Nat.zero_add] at hle
  rw [← hpwd] at hfilter
  -- no component is empty
  have hnil := List.length_filter_eq_length_iff.mp (show (ss.filter (· ≠ [])).length = ss.length by
    rw [← hpwd]
    omega)
  rw [List.filter_eq_self.mpr hnil] at hpwd
  rw [hpwd] at hlen
  have hdots := @ne_dots_of_length [] ss (by rw [List.length_nil, Nat.zero_add, ← hlen])
  exact fun c hc => ⟨of_decide_eq_true (hnil c hc), hss c hc, (hdots c hc).1, (hdots c hc).2⟩

/-- **The working directory decides** whether a relative path gets its canonical form. -/
theorem canonical_iff_of_start {pwd start : List UInt8} (hstart : endSlash pwd = some start)
    (hloop : removeDotslashLoopIn last n start input = some out)
    (hend : endSlash out = some path) :
    (Canonical path ∧ components path =
        (components input).foldl stepComponent ((components pwd).foldl stepComponent [])) ↔
      Canonical pwd ∨ LeadsToRoot pwd input := by
  constructor
  · rintro ⟨hcan, hcomp⟩
    -- the path begins with the first character of the working directory
    have hne : start ≠ [] := fun hc => by
      have := endSlash_getLast hstart
      rw [hc] at this
      cases this
    obtain ⟨hout, hhead⟩ := removeDotslashLoopIn_head hne hloop
    obtain ⟨ts, hts, hpath⟩ := hcan
    have hslash : start.head? = some slash := by
      rw [← hhead, ← endSlash_head hout hend]
      exact hpath.head
    obtain ⟨ss, hss, rfl⟩ := exists_render hslash (endSlash_getLast hstart)
    by_cases hroot : ∃ q, q <+: components input ∧ q.foldl stepComponent ss = []
    · exact .inr ⟨ss, hss, hstart, hroot⟩
    left
    -- else all that stands between its slashes has been kept
    have hseg := removeDotslashLoopIn_segments hss hloop
    rw [hend] at hseg
    have hcount := length_components_of_canonical ⟨ts, hts, hpath⟩ (endSlash_getLast hend)
    have hfree : ∀ c ∈ (components input).foldl stepComponent ss, slash ∉ c := fun c hc =>
      (mem_foldl_stepComponent hc).elim (hss c) fun hc => (mem_components hc).2
    rw [hcomp, Option.some.inj hseg, List.count_append, count_render hfree] at hcount
    have hkept := length_eq_of_foldl (length_foldl_components_le hss hstart)
      (fun q hq hc => hroot ⟨q, hq, hc⟩) (Nat.add_right_cancel hcount)
    exact canonical_of_endSlash (names_of_length hss hstart hkept) hstart
  · intro h
    suffices hform : ∃ ts : List (List UInt8), (∀ c ∈ ts, IsName c) ∧ path = render ts ++ [slash] ∧
        (components input).foldl stepComponent ((components pwd).foldl stepComponent []) = ts by
      obtain ⟨ts, hts, rfl, hform⟩ := hform
      rw [hform]
      exact canonical_of_names hts
    rcases h with ⟨cs, hcs, hpath⟩ | ⟨ss, hss, hstart', q, ⟨r, hr⟩, hq⟩
    · obtain rfl : start = render cs ++ [slash] :=
        Option.some.inj (hstart.symm.trans (endSlash_path hcs hpath))
      have hseg := removeDotslashLoopIn_segments (fun c hc => (hcs c hc).slash_notMem) hloop
      rw [hend] at hseg
      refine ⟨_, foldl_stepComponent_names hcs fun c hc => mem_components hc,
        Option.some.inj hseg, ?_⟩
      rw [hpath.components hcs, foldl_stepComponent_of_names hcs, List.nil_append]
    · -- in the root the two start anew
      obtain rfl : start = render ss ++ [slash] := Option.some.inj (hstart.symm.trans hstart')
      have hseg := removeDotslashLoopIn_segments hss hloop
      rw [hend, ← hr, List.foldl_append, hq] at hseg
      have hle := length_foldl_mono (l := q) (length_foldl_components_le hss hstart)
      rw [hq, List.length_nil, Nat.le_zero, List.length_eq_zero_iff] at hle
      refine ⟨r.foldl stepComponent [], foldl_stepComponent_names (List.forall_mem_nil _)
        fun c hc => mem_components (p := input) (hr ▸ List.mem_append_right q hc),
        Option.some.inj hseg, ?_⟩
      rw [← hr, List.foldl_append, hle]

theorem envMap_eq_none_iff {name : List UInt8} :
    envMap es name = none ↔ name ∉ es.map Prod.fst := by
  rw [envMap, Option.map_eq_none_iff, List.find?_eq_none]
  constructor
  · intro h hmem
    obtain ⟨v, hv, rfl⟩ := List.mem_map.mp hmem
    exact h v hv (decide_eq_true rfl)
  · intro h v hv hname
    exact h (List.mem_map.mpr ⟨v, hv, of_decide_eq_true hname⟩)

/-- What is read is the value of `PWD`. -/
theorem WellFormedEnv.envMap_of_cwdString (hwf : WellFormedEnv user es)
    (hlen : es.length < walkFuel) {cwd : List UInt8} (hcwd : cwdString user = some cwd) :
    envMap es pwdName = some cwd := by
  cases hpwd : envMap es pwdName with
  | some pwd =>
    obtain ⟨i, hscan, hi⟩ := hwf.scan_eq hpwd
    rw [cwdString_some ⟨es, 0, i, hwf.environ, hwf.fits, hlen, hscan, hi⟩ hcwd]
  | none =>
    -- nothing is copied without it
    have hnone : scan es pwdName = some none :=
      (scan_eq_none hwf.name_short).mpr (envMap_eq_none_iff.mp hpwd)
    have hget : getenv user pwdName = some none := by
      rw [getenv_spec _ hwf.environ hwf.fits hlen, hnone]
      rfl
    simp [cwdString, getCWD, hget] at hcwd

/-- **What is stored is the canonical form** of the path, exactly if it has a start for it. -/
theorem removeDotslashIn_canonical_iff (hwf : WellFormedEnv user es) (hlen : es.length < walkFuel)
    (h : removeDotslashIn user last input 1 = some path) :
    (Canonical path ∧
      components path = absoluteForm ((envMap es pwdName).getD []) input) ↔ HasStart es input := by
  obtain ⟨start, rest, out, hs, hloop, hend, -⟩ := removeDotslashIn_some h
  rw [absoluteForm]
  by_cases habs : input.getD 0 0 = slash
  · -- from the root on
    refine iff_of_true ?_ (.inl habs)
    rw [dotslashStart, if_pos habs] at hs
    obtain ⟨rfl, rfl⟩ := Prod.mk.inj (Option.some.inj hs)
    have hseg := removeDotslashLoopIn_segments (List.forall_mem_nil _) hloop
    have hdrop : components (input.drop 1) = components input := by
      cases input with
      | nil => exact absurd habs (by decide)
      | cons x q => rw [show x = slash from habs, components_slash, List.drop_one, List.tail_cons]
    rw [hend, hdrop] at hseg
    rw [if_pos habs, Option.some.inj hseg]
    exact canonical_of_names (foldl_stepComponent_names (List.forall_mem_nil _)
      fun c hc => mem_components hc)
  · rw [dotslashStart, if_neg habs] at hs
    obtain ⟨cwd, hcwd, hs⟩ := Option.bind_eq_some_iff.mp hs
    obtain ⟨start', hstart, heq⟩ := Option.map_eq_some_iff.mp hs
    obtain ⟨rfl, rfl⟩ := Prod.mk.inj heq
    have hpwd := hwf.envMap_of_cwdString hlen hcwd
    rw [if_neg habs, hpwd, Option.getD_some, canonical_iff_of_start hstart hloop hend]
    constructor
    · exact fun h => .inr ⟨cwd, hpwd, h⟩
    · rintro (hc | ⟨pwd, hp, h⟩)
      · exact absurd hc habs
      · rwa [Option.some.inj (hpwd.symm.trans hp)]

/-! ### Where it is stored -/

theorem cwdPointerFrom_found {x : Nat} (h : getenvFrom user pwdName n a = some (some x)) :
    cwdPointerFrom user n a p = some x := by
  induction n generalizing a p with
  | zero => cases h
  | succ n ih =>
    obtain ⟨c, hc, h⟩ := Option.bind_eq_some_iff.mp h
    rw [cwdPointerFrom, hc, Option.bind_eq_bind, Option.bind_some]
    split at h
    · cases h
    rw [if_neg ‹_›]
    obtain ⟨temp, htemp, h⟩ := Option.bind_eq_some_iff.mp h
    rw [htemp, Option.bind_eq_bind, Option.bind_some]
    split at h
    · rw [if_pos ‹_›]
      exact Option.some.inj h
    · rw [if_neg ‹_›]
      exact ih h

/-- **Without `PWD`** the pointer is to the value of the last variable. -/
theorem cwdPointerFrom_absent {j : Nat} (hes : ∀ v ∈ es, VarFits v)
    (hshort : ∀ v ∈ es, v.1.length ≤ 255)
    (h : ∀ i ≤ es.length, StringPage user (envPage (j + i)) (stringAt (es.map entryOf) i))
    (hn : es.length < n) (hnot : pwdName ∉ es.map Prod.fst) :
    cwdPointerFrom user n (envPage j) p = some (match es.getLast? with
      | none => p
      | some w => envPage (j + (es.length - 1)) + w.1.length + 1) := by
  -- each round makes the pointer one to the value on its page
  induction es generalizing j n p with
  | nil =>
    obtain ⟨n, rfl⟩ := Nat.exists_eq_succ_of_ne_zero (show n ≠ 0 by omega)
    have h0 : user (envPage j) = some 0 := (h 0 (le_refl 0)).text 0 (Nat.zero_le _)
    simp [cwdPointerFrom, h0]
  | cons v es ih =>
    obtain ⟨n, rfl⟩ := Nat.exists_eq_succ_of_ne_zero (show n ≠ 0 by omega)
    rw [List.map_cons, List.mem_cons, not_or] at hnot
    have hpage := h 0 (Nat.zero_le _)
    rw [Nat.add_zero, show stringAt ((v :: es).map entryOf) 0 = entryOf v from rfl] at hpage
    obtain ⟨⟨c, hc, h0⟩, hentry, htake⟩ := hpage.entry (hes v List.mem_cons_self)
    rw [if_pos (Nat.lt_succ_of_le (hshort v List.mem_cons_self))] at hentry
    have hrest := @ih n (envPage j + v.1.length + 1) (j + 1)
      (fun w hw => hes w (List.mem_cons_of_mem v hw))
      (fun w hw => hshort w (List.mem_cons_of_mem v hw))
      (fun i hi => by
        have := h (i + 1) (Nat.succ_le_succ hi)
        rwa [show j + (i + 1) = j + 1 + i by omega] at this)
      (by simpa using hn) hnot.2
    rw [cwdPointerFrom, h0, Option.bind_eq_bind, Option.bind_some, if_neg hc, hentry,
      Option.bind_eq_bind, Option.bind_some, htake, if_neg (Ne.symm hnot.1),
      show envPage j + 0x1000 = envPage (j + 1) by unfold envPage; omega, hrest]
    cases es with
    | nil => rfl
    | cons e es =>
      rw [List.getLast?_cons_cons, List.length_cons, List.length_cons, Nat.add_sub_cancel,
        Nat.add_sub_cancel, show j + 1 + es.length = j + (es.length + 1) by omega,
        List.getLast?_cons]
      rfl

/-- A variable keeps its name. -/
theorem map_fst_set {i : Nat} {w : Var} (hw : es[i]? = some w) (value : List UInt8) :
    (es.set i (w.1, value)).map Prod.fst = es.map Prod.fst := by
  obtain ⟨hi, rfl⟩ := List.getElem?_eq_some_iff.mp hw
  have hi' : i < (es.map Prod.fst).length := by rwa [List.length_map]
  rw [List.map_set, show es[i].1 = (es.map Prod.fst)[i] from (List.getElem_map Prod.fst).symm,
    List.set_getElem_self]

/-- A path is stored as the value of a variable. -/
theorem WellFormedEnv.store {i : Nat} {w : Var} (h : WellFormedEnv user es) (hw : es[i]? = some w)
    (h0 : 0 ∉ path) (hlen : path.length ≤ 255) :
    ∃ user', storeAll user (envPage i + w.1.length + 1) (path ++ [0]) = some user' ∧
      WellFormedEnv user' (es.set i (w.1, path)) := by
  have hw' := h.settable w (List.mem_of_getElem? hw)
  have hset : VarSettable (w.1, path) :=
    ⟨hw'.name, hw'.nameZero, hw'.nameEq, hw'.nameShort, h0, by
      have := hw'.nameShort
      dsimp only
      omega⟩
  obtain ⟨user', huser, hE, -, hzero⟩ := h.environ.overwrite h.fits hw hset.fits
    (show [(0 : UInt8)][0]? = some 0 from rfl) (Nat.le_succ 1)
  refine ⟨user', huser, hE.wellFormed ?_ ?_ ?_⟩
  · rw [List.length_set]
    exact hzero h.last
  · rw [map_fst_set hw]
    exact h.distinct
  · intro v hv
    rcases List.mem_or_eq_of_mem_set hv with hv | rfl
    · exact h.settable v hv
    · exact hset

/-- Stores change nothing behind their end. -/
theorem storeAll_behind {bs : List UInt8} (h : storeAll user a bs = some user') {x : Nat}
    (hx : a + bs.length ≤ x) : user' x = user x := by
  induction bs generalizing user a with
  | nil => rw [← Option.some.inj h]
  | cons b bs ih =>
    rw [storeAll] at h
    rw [List.length_cons] at hx
    split at h
    · rw [ih h (by omega), Function.update_of_ne (by omega)]
    · cases h

/-! ### The call -/

variable {buf : List UInt8}

/-- **With a variable `PWD`**: its value is replaced. -/
theorem changeDirectory_present {old : List UInt8} (hwf : WellFormedEnv user es)
    (hlen : es.length < walkFuel) (h0 : 0 ∉ buf)
    (hres : removeDotslashIn user 255 buf 1 = some path)
    (ha : getDirAddress m ar (path.drop 1) = some a) (hne : a ≠ 0)
    (hpwd : envMap es pwdName = some old) :
    ∃ user', changeDirectory m ar user buf = some (0, user') ∧
      WellFormedEnv user' (setVar es (pwdName, path)) ∧
      ∀ name, getenvValue user' name = some (assign (envMap es) (pwdName, path) name) := by
  obtain ⟨-, hzero, hshort⟩ := removeDotslashIn_string hres h0
  obtain ⟨i, hscan, hi⟩ := hwf.scan_eq hpwd
  have hget := getenv_spec pwdName hwf.environ hwf.fits hlen
  simp only [hscan, Option.map_some, List.getD_eq_getElem?_getD, hi, Option.getD_some] at hget
  have hpointer : cwdPointer user = some (envPage i + pwdName.length + 1) :=
    cwdPointerFrom_found hget
  obtain ⟨user', huser, hwf'⟩ := hwf.store hi hzero hshort
  obtain ⟨-, -, -, -, hset⟩ := scan_some hscan path
  have hlen' : (es.set i (pwdName, path)).length < walkFuel := by rwa [List.length_set]
  refine ⟨user', ?_, hset ▸ hwf', fun name => ?_⟩
  · simp only [changeDirectory, hres, ha, hpointer, Option.bind_eq_bind, Option.bind_some,
      if_neg hne, huser, Option.map_some]
  · rw [hwf'.getenvValue_eq hlen', ← hset, envMap_setVar]

/-- **Without one**: there is none after the call. -/
theorem changeDirectory_absent (hwf : WellFormedEnv user es) (hlen : es.length < walkFuel)
    (h0 : 0 ∉ buf) (hres : removeDotslashIn user 255 buf 1 = some path)
    (ha : getDirAddress m ar (path.drop 1) = some a) (hne : a ≠ 0)
    (hnot : pwdName ∉ es.map Prod.fst) (h : changeDirectory m ar user buf = some (0, user')) :
    getenvValue user' pwdName = some none := by
  obtain ⟨-, hzero, hshort⟩ := removeDotslashIn_string hres h0
  have hpointer :=
    cwdPointerFrom_absent (p := 0) hwf.fits hwf.name_short hwf.environ.pages hlen hnot
  rw [show envPage 0 = 0x302000 from rfl] at hpointer
  simp only [changeDirectory, hres, ha, cwdPointer, hpointer, Option.bind_eq_bind,
    Option.bind_some, if_neg hne] at h
  obtain ⟨user'', hstore, heq⟩ := Option.map_eq_some_iff.mp h
  obtain rfl : user'' = user' := (Prod.mk.inj heq).2
  cases hlast : es.getLast? with
  | none =>
    -- the store is to address 0
    obtain rfl := List.getLast?_eq_none_iff.mp hlast
    simp only [hlast] at hstore
    have hwf' : WellFormedEnv user'' [] := by
      refine ⟨fun j hj => absurd hj (Nat.not_lt_zero j), fun x hx => ?_, List.nodup_nil,
        List.forall_mem_nil _⟩
      rw [storeAll_behind hstore]
      · exact hwf.last x hx
      · rw [List.length_append, List.length_singleton]
        unfold envPage
        omega
    exact hwf'.getenvValue_eq hlen pwdName
  | some w =>
    rw [hlast, Nat.zero_add] at hstore
    have hw : es[es.length - 1]? = some w := by rw [← List.getLast?_eq_getElem?, hlast]
    obtain ⟨user', huser, hwf'⟩ := hwf.store hw hzero hshort
    obtain rfl : user'' = user' := Option.some.inj (hstore.symm.trans huser)
    rw [hwf'.getenvValue_eq (by rwa [List.length_set]),
      envMap_eq_none_iff.mpr (by rwa [map_fst_set hw])]

/-- **A call that finds its directory** does what it is for exactly if there is a variable `PWD` and
the path has a start. -/
theorem changesDirectory_found_iff (hwf : WellFormedEnv user es) (hlen : es.length < walkFuel)
    (h0 : 0 ∉ buf) (hres : removeDotslashIn user 255 buf 1 = some path)
    (ha : getDirAddress m ar (path.drop 1) = some a) (hne : a ≠ 0) :
    ChangesDirectory m ar user es buf ↔ pwdName ∈ es.map Prod.fst ∧ HasStart es buf := by
  have hstart := removeDotslashIn_canonical_iff hwf hlen hres
  constructor
  · rintro (⟨user', h, hchanged⟩ | h)
    · obtain ⟨path', hpath', hcan, hform, -⟩ := hchanged.pwd
      by_cases hmem : pwdName ∈ es.map Prod.fst
      · obtain ⟨old, hold⟩ := Option.ne_none_iff_exists'.mp
          (mt envMap_eq_none_iff.mp (not_not.mpr hmem))
        obtain ⟨user'', hcall, -, hmap⟩ := changeDirectory_present hwf hlen h0 hres ha hne hold
        obtain rfl := (Prod.mk.inj (Option.some.inj (hcall.symm.trans h))).2
        -- the path that is stored is the one that was made
        rw [hmap, assign, Function.update_self, Option.some_inj, Option.some_inj] at hpath'
        subst hpath'
        exact ⟨hmem, hstart.mp ⟨hcan, hform⟩⟩
      · rw [changeDirectory_absent hwf hlen h0 hres ha hne hmem h] at hpath'
        cases hpath'
    · -- it does not return -1
      simp only [changeDirectory, hres, ha, Option.bind_eq_bind, Option.bind_some, if_neg hne] at h
      obtain ⟨envValue, -, h⟩ := Option.bind_eq_some_iff.mp h
      obtain ⟨stored, -, heq⟩ := Option.map_eq_some_iff.mp h
      exact absurd (Prod.mk.inj heq).1 (by decide)
  · rintro ⟨hmem, hhas⟩
    left
    obtain ⟨old, hold⟩ := Option.ne_none_iff_exists'.mp
      (mt envMap_eq_none_iff.mp (not_not.mpr hmem))
    obtain ⟨user', hcall, -, hmap⟩ := changeDirectory_present hwf hlen h0 hres ha hne hold
    obtain ⟨hcan, hform⟩ := hstart.mpr hhas
    refine ⟨user', hcall, ⟨path, ?_, hcan, hform, (removeDotslashIn_string hres h0).1, a, hne, ha⟩,
      fun name hother => ?_⟩
    · rw [hmap, assign, Function.update_self]
    · rw [hmap, assign, Function.update_of_ne hother, hwf.getenvValue_eq hlen]

/-- **A call changes the directory or nothing**, in a well-formed environment, exactly if the path
is made in its buffers, the archive can be searched for it, and, where it names a directory, there
is a variable `PWD` and the path has a start. -/
theorem changeDirectory_iff (hwf : WellFormedEnv user es) (hlen : es.length < walkFuel)
    (h0 : 0 ∉ buf) :
    ChangesDirectory m ar user es buf ↔
      ∃ path, removeDotslashIn user 255 buf 1 = some path ∧
        ∃ a, getDirAddress m ar (path.drop 1) = some a ∧
          (a ≠ 0 → pwdName ∈ es.map Prod.fst ∧ HasStart es buf) := by
  constructor
  · intro h
    -- the call comes to an end
    obtain ⟨r, hr⟩ : ∃ r, changeDirectory m ar user buf = some r := by
      rcases h with ⟨user', h, -⟩ | h
      · exact ⟨_, h⟩
      · exact ⟨_, h⟩
    obtain ⟨path, hres, hr⟩ := Option.bind_eq_some_iff.mp hr
    obtain ⟨a, ha, hr⟩ := Option.bind_eq_some_iff.mp hr
    exact ⟨path, hres, a, ha, fun hne =>
      (changesDirectory_found_iff hwf hlen h0 hres ha hne).mp h⟩
  · rintro ⟨path, hres, a, ha, hfound⟩
    by_cases hne : a = 0
    · right
      simp only [changeDirectory, hres, ha, Option.bind_eq_bind, Option.bind_some, if_pos hne]
    · exact (changesDirectory_found_iff hwf hlen h0 hres ha hne).mpr (hfound hne)

/-- An archive of one header, of the directory `bin/`. -/
def binArchive : Archive := ⟨kernbase, kernbase + 512⟩

def binHeader : Mem := fun x => [0x62, 0x69, 0x6E, 0x2F].getD (x - kernbase) 0

theorem getDirAddress_bin :
    getDirAddress binHeader binArchive [0x62, 0x69, 0x6E, 0x2F] = some kernbase := by
  decide

/-- `/bin` in the first process. -/
theorem changeDirectory_bin : ChangesDirectory binHeader binArchive
    (startMem (initialEnv.map entryOf)) initialEnv [0x2F, 0x62, 0x69, 0x6E] :=
  (changeDirectory_iff initialEnv_wellFormed (by decide) (by decide)).mpr
    ⟨[0x2F, 0x62, 0x69, 0x6E, 0x2F], rfl, kernbase, getDirAddress_bin,
      fun _ => ⟨by decide, .inl rfl⟩⟩

/-- **Another variable is overwritten.** The environment is `A=1`. -/
theorem changeDirectory_without_pwd : ¬ ChangesDirectory binHeader binArchive
    (startMem ([([0x41], [0x31])].map entryOf)) [([0x41], [0x31])] [0x2F, 0x62, 0x69, 0x6E] := by
  intro h
  have hwf : WellFormedEnv (startMem ([([0x41], [0x31])].map entryOf)) [([0x41], [0x31])] :=
    startMem_wellFormed (by decide) (by decide) (by decide)
  have hres : removeDotslashIn (startMem ([([0x41], [0x31])].map entryOf)) 255
      [0x2F, 0x62, 0x69, 0x6E] 1 = some [0x2F, 0x62, 0x69, 0x6E, 0x2F] := rfl
  have hmem := ((changesDirectory_found_iff hwf (by decide) (by decide) hres getDirAddress_bin
    (by decide)).mp h).1
  exact absurd hmem (by decide)

end Sbunix
