import Sbunix.Tarfs
import Sbunix.Environment

/-!
# Paths

`remove_dotslash` makes an absolute path out of a path and the directory in `PWD`. Where the path
has a `..`, it walks the output pointer back to the last slash but one, so the output has to end
in a slash there.

A directory is a list of names, and `render` writes a slash in front of each. `components` is the
way back.

* `removeDotslashLoop_spec` — the main loop is a fold over the components of its input;
* `remove_dotslash_spec` — what `remove_dotslash` writes, for every path and every canonical `PWD`;
  it is its own normal form.
-/

namespace Sbunix

/-! ### The current directory -/

/-- `PWD`. -/
def pwdName : List UInt8 := [0x50, 0x57, 0x44]

/-- The copying loop of `getCWD` and the byte behind it: what is stored at `buf`. -/
def copyValue (m : UserMem) : Nat → Nat → Option (List UInt8)
  | 0, _ => some []
  | count + 1, a => do
    let c ← m a
    if c = 0 then some (if 0 < count then [0] else [])
    else (copyValue m count (a + 1)).map (c :: ·)

/-- `getCWD`: the bytes that it stores. Without a variable `PWD` it stores none. The pages are
scanned as `getenv` does it. -/
def getCWD (m : UserMem) (count : Nat) : Option (List UInt8) := do
  match ← getenv m pwdName with
  | none => some []
  | some start => copyValue m count start

/-- The string in the array `cwd[256]` after `getCWD(cwd, 256)`; open where there is no NUL byte. -/
def cwdString (m : UserMem) : Option (List UInt8) := do
  let cwd ← getCWD m 256
  if 0 ∈ cwd then some (cwd.takeWhile (· != 0)) else none

/-! ### The main loop -/

/-- `removeDotslashLoop` for an output buffer that ends with byte `last`. -/
def removeDotslashLoopIn (last : Nat) : Nat → List UInt8 → List UInt8 → Option (List UInt8)
  | 0, _, _ => none
  | fuel + 1, out, input =>
    if input = [] then some out
    else
      let component := input.takeWhile (· != slash)
      if 255 < component.length ∨ last < out.length then none
      else if component = [dot] then
        removeDotslashLoopIn last fuel out (input.drop (if input.getD 1 0 = slash then 2 else 1))
      else if component = [] then removeDotslashLoopIn last fuel out (input.drop 1)
      else if component = [dot, dot] then do
        let out ← parentPath out
        removeDotslashLoopIn last fuel out (input.drop (if input.getD 2 0 = slash then 3 else 2))
      else
        let input := input.drop component.length
        if input.getD 0 0 = slash then
          removeDotslashLoopIn last fuel (out ++ component ++ [slash])
            (input.dropWhile (· == slash))
        else removeDotslashLoopIn last fuel (out ++ component) input

/-- What `remove_dotslash` writes before its main loop, and where the loop begins to read. -/
def dotslashStart (m : UserMem) (src : List UInt8) : Option (List UInt8 × List UInt8) :=
  if src.getD 0 0 = slash then some ([slash], src.drop 1)
  else do
    let cwd ← cwdString m
    (endSlash cwd).map (·, src)

/-- `remove_dotslash(src, dest, d)` in the address space `m`, for a `dest` that ends with byte
`last`. -/
def removeDotslashIn (m : UserMem) (last : Nat) (src : List UInt8) (d : Int) :
    Option (List UInt8) := do
  let (out, input) ← dotslashStart m src
  let out ← removeDotslashLoopIn last (input.length + 1) out input
  let out ← if d = 1 then endSlash out else some out
  if last < out.length then none else some out

theorem removeDotslashLoop_eq (fuel : Nat) (out input : List UInt8) :
    removeDotslashLoop fuel out input = removeDotslashLoopIn 255 fuel out input := by
  induction fuel generalizing out input with
  | zero => rfl
  | succ fuel ih => simp only [removeDotslashLoop, removeDotslashLoopIn, ih]

/-- The buffers of `openFile` and `openDirectory` have 256 bytes. -/
theorem removeDotslash_eq {m : UserMem} {cwd : List UInt8} (h : cwdString m = some cwd)
    (src : List UInt8) (d : Int) : removeDotslash cwd src d = removeDotslashIn m 255 src d := by
  simp only [removeDotslash, removeDotslashIn, dotslashStart, removeDotslashLoop_eq, h,
    Option.bind_eq_bind, Option.bind_some]
  split_ifs <;> rfl

/-! ### Components -/

/-- The components of a path: it is split at the slashes, and the empty ones are dropped. -/
def components (p : List UInt8) : List (List UInt8) := (p.splitOn slash).filter (· ≠ [])

/-- One component of a path, in the directory `cs`. -/
def stepComponent (cs : List (List UInt8)) (c : List UInt8) : List (List UInt8) :=
  if c = [dot] then cs else if c = [dot, dot] then cs.dropLast else cs ++ [c]

/-- **What `remove_dotslash` is for**: the components of the absolute form of `src`. -/
def normalised (pwd src : List UInt8) : List (List UInt8) :=
  (components src).foldl stepComponent (if src.getD 0 0 = slash then [] else components pwd)

/-- The name of a file or a directory. -/
structure IsName (c : List UInt8) : Prop where
  ne_nil : c ≠ []
  slash_notMem : slash ∉ c
  ne_dot : c ≠ [dot]
  ne_dots : c ≠ [dot, dot]

/-- A slash in front of each name. -/
def render (cs : List (List UInt8)) : List UInt8 := cs.flatMap (slash :: ·)

/-- `p` is an absolute path of the directory or file `cs`, with or without a slash at the end. -/
def IsPath (cs : List (List UInt8)) (p : List UInt8) : Prop :=
  p = render cs ++ [slash] ∨ cs ≠ [] ∧ p = render cs

/-- An absolute path of names. -/
def Canonical (p : List UInt8) : Prop := ∃ cs, (∀ c ∈ cs, IsName c) ∧ IsPath cs p

variable {cs : List (List UInt8)} {c p rest input out : List UInt8} {last : Nat}

theorem render_append (cs : List (List UInt8)) (c : List UInt8) :
    render (cs ++ [c]) = render cs ++ slash :: c := by
  simp [render]

theorem components_nil : components [] = [] := by
  simp [components, List.splitOn_nil]

theorem components_append_slash (h : slash ∉ c) (rest : List UInt8) :
    components (c ++ slash :: rest) = (if c = [] then [] else [c]) ++ components rest := by
  rw [components, List.splitOn_append_cons_self_of_not_mem h, List.filter_cons]
  by_cases hc : c = []
  · simp [hc, components]
  · simp [hc, components]

theorem components_of_notMem (h : slash ∉ c) : components c = if c = [] then [] else [c] := by
  rw [components, List.splitOn_eq_singleton h, List.filter_cons]
  by_cases hc : c = []
  · simp [hc]
  · simp [hc]

theorem components_slash (rest : List UInt8) : components (slash :: rest) = components rest :=
  (components_append_slash (c := []) List.not_mem_nil rest).trans (List.nil_append _)

theorem components_dropWhile_slash (rest : List UInt8) :
    components (rest.dropWhile (· == slash)) = components rest := by
  induction rest with
  | nil => rfl
  | cons x rest ih =>
    by_cases hx : x = slash
    · rw [List.dropWhile_cons_of_pos (by simp [hx]), ih, hx, components_slash]
    · rw [List.dropWhile_cons_of_neg (by simp [hx])]

/-- The way back. -/
theorem components_render_append (h : ∀ c ∈ cs, IsName c) :
    components (render cs) = cs ∧ components (render cs ++ [slash]) = cs := by
  induction cs with
  | nil => exact ⟨components_nil, by rw [render, List.flatMap_nil, List.nil_append,
      components_slash, components_nil]⟩
  | cons c cs ih =>
    have hc := h c List.mem_cons_self
    obtain ⟨ih, ih'⟩ := ih fun c hc => h c (List.mem_cons_of_mem _ hc)
    -- the path goes on with a slash, or `c` is the last name
    cases cs with
    | nil =>
      have hrender : render [c] = slash :: c := by simp [render]
      have hlast := components_append_slash hc.slash_notMem []
      rw [components_nil, List.append_nil, if_neg hc.ne_nil] at hlast
      refine ⟨?_, ?_⟩
      · rw [hrender, components_slash, components_of_notMem hc.slash_notMem, if_neg hc.ne_nil]
      · rw [hrender, List.cons_append, components_slash, hlast]
    | cons c' cs =>
      have hrender : render (c :: c' :: cs) = slash :: (c ++ slash :: (c' ++ render cs)) := by
        simp [render]
      have hrender' : render (c' :: cs) = slash :: (c' ++ render cs) := by simp [render]
      rw [hrender', components_slash] at ih
      rw [hrender', List.cons_append, components_slash] at ih'
      refine ⟨?_, ?_⟩
      · rw [hrender, components_slash, components_append_slash hc.slash_notMem, ih,
          if_neg hc.ne_nil]
        rfl
      · rw [hrender, List.cons_append, components_slash, List.append_assoc, List.cons_append,
          components_append_slash hc.slash_notMem, ih', if_neg hc.ne_nil]
        rfl

theorem IsPath.components (h : ∀ c ∈ cs, IsName c) (hp : IsPath cs p) : components p = cs := by
  obtain ⟨hrender, hslash⟩ := components_render_append h
  rcases hp with rfl | ⟨-, rfl⟩
  · exact hslash
  · exact hrender

theorem IsPath.head (hp : IsPath cs p) : p.head? = some slash := by
  rcases hp with rfl | ⟨hne, rfl⟩
  · cases cs <;> simp [render]
  · cases cs with
    | nil => exact absurd rfl hne
    | cons c cs => simp [render]

/-- There is one slash in front of a name. -/
theorem IsPath.dropWhile_slash (hp : IsPath cs (slash :: p)) (h : ∀ c ∈ cs, IsName c) :
    p.dropWhile (· == slash) = p := by
  cases cs with
  | nil =>
    rcases hp with hp | ⟨hne, -⟩
    · obtain rfl : p = [] := by simpa [render] using hp
      rfl
    · exact absurd rfl hne
  | cons c cs =>
    have hc := h c List.mem_cons_self
    obtain ⟨x, c', rfl⟩ := List.exists_cons_of_ne_nil hc.ne_nil
    have hx : x ≠ slash := by
      rintro rfl
      exact hc.slash_notMem List.mem_cons_self
    rcases hp with hp | ⟨-, hp⟩
    · obtain rfl : p = x :: (c' ++ (render cs ++ [slash])) := by simpa [render] using hp
      exact List.dropWhile_cons_of_neg (by simp [hx])
    · obtain rfl : p = x :: (c' ++ render cs) := by simpa [render] using hp
      exact List.dropWhile_cons_of_neg (by simp [hx])

/-! ### One round -/

/-- A path is its first component and what a slash separates from it. -/
theorem exists_component (input : List UInt8) : ∃ c rest, input = c ++ rest ∧ slash ∉ c ∧
    input.takeWhile (· != slash) = c ∧ (rest = [] ∨ ∃ r, rest = slash :: r) := by
  induction input with
  | nil => exact ⟨[], [], rfl, List.not_mem_nil, rfl, .inl rfl⟩
  | cons x input ih =>
    obtain ⟨c, rest, hin, hc, htake, hrest⟩ := ih
    by_cases hx : x = slash
    · exact ⟨[], x :: input, rfl, List.not_mem_nil, by simp [hx], .inr ⟨input, by rw [hx]⟩⟩
    · refine ⟨x :: c, rest, by rw [hin, List.cons_append], ?_, ?_, hrest⟩
      · simp only [List.mem_cons, not_or]
        exact ⟨fun h => hx h.symm, hc⟩
      · rw [List.takeWhile_cons_of_pos (by simp [hx]), htake]

theorem takeWhile_append_slash (h : slash ∉ c) (rest : List UInt8) :
    (c ++ slash :: rest).takeWhile (· != slash) = c := by
  rw [List.takeWhile_append_of_pos]
  · simp
  · intro x hx
    simp only [bne_iff_ne, ne_eq]
    rintro rfl
    exact h hx

theorem takeWhile_of_notMem (h : slash ∉ c) : c.takeWhile (· != slash) = c := by
  rw [List.takeWhile_eq_self_iff]
  intro x hx
  simp only [bne_iff_ne, ne_eq]
  rintro rfl
  exact h hx

/-- **The walk back.** The output goes from a directory to its parent and ends in a slash again. -/
theorem parentPath_render (h : ∀ c ∈ cs, slash ∉ c) :
    parentPath (render cs ++ [slash]) = some (render cs.dropLast ++ [slash]) := by
  rcases List.eq_nil_or_concat cs with rfl | ⟨init, c, rfl⟩
  · rfl
  · have hc : slash ∉ c := h c (by simp)
    rw [List.concat_eq_append, List.dropLast_concat, render_append]
    -- the scan back from the end stops at the slash in front of the last name
    have hback : ((render init ++ slash :: c).reverse.dropWhile (· != slash)) =
        slash :: (render init).reverse := by
      rw [List.reverse_append, List.reverse_cons, List.append_assoc,
        List.dropWhile_append_of_pos]
      · simp
      · intro x hx
        simp only [bne_iff_ne, ne_eq]
        rintro rfl
        exact hc (List.mem_reverse.mp hx)
    -- without the slash at the end
    have htake : (render init ++ slash :: c ++ [slash]).take
        ((render init ++ slash :: c ++ [slash]).length - 1) = render init ++ slash :: c := by
      rw [List.length_append, List.length_singleton, Nat.add_sub_cancel, List.take_left']
      rfl
    have hlen : 2 ≤ (render init ++ slash :: c ++ [slash]).length := by
      simp only [List.length_append, List.length_cons, List.length_nil]
      omega
    -- the output is not the root alone
    generalize render init ++ slash :: c ++ [slash] = out at *
    match out, hlen with
    | x :: y :: l, _ =>
      simp only [parentPath, htake, hback]
      simp

theorem removeDotslashLoop_nil {n : Nat} :
    removeDotslashLoopIn last (n + 1) out [] = some out := by
  rw [removeDotslashLoopIn, if_pos rfl]

/-- **One round** on the component `c`. -/
theorem removeDotslashLoop_round {n : Nat} (hout : out.length ≤ last) (hc : c.length ≤ 255)
    (hne : input ≠ []) (htake : input.takeWhile (· != slash) = c) :
    removeDotslashLoopIn last (n + 1) out input =
      if c = [dot] then
        removeDotslashLoopIn last n out (input.drop (if input.getD 1 0 = slash then 2 else 1))
      else if c = [] then removeDotslashLoopIn last n out (input.drop 1)
      else if c = [dot, dot] then (parentPath out).bind fun out =>
        removeDotslashLoopIn last n out (input.drop (if input.getD 2 0 = slash then 3 else 2))
      else if (input.drop c.length).getD 0 0 = slash then
        removeDotslashLoopIn last n (out ++ c ++ [slash])
          ((input.drop c.length).dropWhile (· == slash))
      else removeDotslashLoopIn last n (out ++ c) (input.drop c.length) := by
  have hfits : ¬(255 < c.length ∨ last < out.length) := by omega
  rw [removeDotslashLoopIn, if_neg hne]
  simp only [htake, if_neg hfits]
  rfl

/-- The names of a path are those of its components that are no dots. -/
theorem stepComponent_names (hcs : ∀ c ∈ cs, IsName c) (hne : c ≠ []) (hc : slash ∉ c) :
    ∀ c' ∈ stepComponent cs c, IsName c' := by
  intro c' hc'
  simp only [stepComponent] at hc'
  split_ifs at hc' with hdot hdots
  · exact hcs c' hc'
  · exact hcs c' (List.mem_of_mem_dropLast hc')
  · rcases List.mem_append.mp hc' with hmem | hmem
    · exact hcs c' hmem
    · rw [List.mem_singleton.mp hmem]
      exact ⟨hne, hc, hdot, hdots⟩

theorem length_render_dropLast (cs : List (List UInt8)) :
    (render cs.dropLast).length ≤ (render cs).length := by
  rcases List.eq_nil_or_concat cs with rfl | ⟨init, c, rfl⟩
  · exact Nat.le_refl _
  · rw [List.concat_eq_append, List.dropLast_concat, render_append, List.length_append]
    exact Nat.le_add_right _ _

theorem length_render_step (cs : List (List UInt8)) (c : List UInt8) :
    (render (stepComponent cs c)).length ≤ (render cs).length + c.length + 1 := by
  simp only [stepComponent]
  split_ifs
  · omega
  · have := length_render_dropLast cs
    omega
  · rw [render_append, List.length_append, List.length_cons]
    omega

/-- **A component with a slash behind it** takes the output from a directory to a directory. -/
theorem removeDotslashLoop_slash {n : Nat} (hcs : ∀ c ∈ cs, IsName c)
    (hout : (render cs ++ [slash]).length ≤ last) (hc : slash ∉ c) (hshort : c.length ≤ 255)
    (hne : c ≠ []) (r : List UInt8) :
    ∃ r', (r' = r ∨ r' = r.dropWhile (· == slash)) ∧
      removeDotslashLoopIn last (n + 1) (render cs ++ [slash]) (c ++ slash :: r) =
        removeDotslashLoopIn last n (render (stepComponent cs c) ++ [slash]) r' := by
  rw [removeDotslashLoop_round hout hshort (by simp) (takeWhile_append_slash hc r)]
  by_cases hdot : c = [dot]
  · subst hdot
    exact ⟨r, .inl rfl, rfl⟩
  by_cases hdots : c = [dot, dot]
  · subst hdots
    refine ⟨r, .inl rfl, ?_⟩
    rw [if_neg hdot, if_neg hne, if_pos rfl,
      parentPath_render fun c hc => (hcs c hc).slash_notMem, Option.bind_some]
    rfl
  -- a name: the slashes behind it are skipped
  refine ⟨r.dropWhile (· == slash), .inr rfl, ?_⟩
  have hdrop : (c ++ slash :: r).drop c.length = slash :: r := List.drop_left' rfl
  rw [if_neg hdot, if_neg hne, if_neg hdots, hdrop, List.getD_cons_zero, if_pos rfl,
    List.dropWhile_cons_of_pos (by simp), stepComponent, if_neg hdot, if_neg hdots, render_append]
  simp only [List.append_assoc, List.cons_append, List.nil_append]

/-- The last component is a name, without a slash behind it. -/
theorem removeDotslashLoop_name {n : Nat} (hc : IsName c) (hout : out.length ≤ last)
    (hshort : c.length ≤ 255) :
    removeDotslashLoopIn last (n + 1 + 1) out c = some (out ++ c) := by
  have hend : ¬([] : List UInt8).getD 0 0 = slash := by decide
  rw [removeDotslashLoop_round hout hshort hc.ne_nil (takeWhile_of_notMem hc.slash_notMem),
    if_neg hc.ne_dot, if_neg hc.ne_nil, if_neg hc.ne_dots, List.drop_length, if_neg hend]
  exact removeDotslashLoop_nil

/-- The last component, without a slash behind it. -/
theorem removeDotslashLoop_last {n : Nat} (hcs : ∀ c ∈ cs, IsName c)
    (hout : (render cs ++ [slash]).length ≤ last) (hc : slash ∉ c) (hshort : c.length ≤ 255)
    (hne : c ≠ []) :
    ∃ out, removeDotslashLoopIn last (n + 1 + 1) (render cs ++ [slash]) c = some out ∧
      IsPath (stepComponent cs c) out ∧ out.length ≤ (render cs).length + c.length + 1 := by
  by_cases hdot : c = [dot]
  · subst hdot
    rw [removeDotslashLoop_round hout hshort hne (takeWhile_of_notMem hc), if_pos rfl]
    refine ⟨_, removeDotslashLoop_nil, .inl rfl, ?_⟩
    simp only [List.length_append, List.length_cons, List.length_nil]
    omega
  by_cases hdots : c = [dot, dot]
  · subst hdots
    rw [removeDotslashLoop_round hout hshort hne (takeWhile_of_notMem hc), if_neg hdot,
      if_neg hne, if_pos rfl, parentPath_render fun c hc => (hcs c hc).slash_notMem,
      Option.bind_some]
    refine ⟨_, removeDotslashLoop_nil, .inl rfl, ?_⟩
    have := length_render_dropLast cs
    simp only [List.length_append, List.length_cons, List.length_nil]
    omega
  -- a name is appended, without a slash behind it
  refine ⟨_, removeDotslashLoop_name ⟨hne, hc, hdot, hdots⟩ hout hshort, ?_, ?_⟩
  · rw [stepComponent, if_neg hdot, if_neg hdots]
    refine .inr ⟨by simp, ?_⟩
    rw [render_append, List.append_assoc]
    rfl
  · simp only [List.length_append, List.length_cons, List.length_nil]
    omega

/-- An empty component. -/
theorem removeDotslashLoop_empty {n : Nat} (hout : out.length ≤ last) (r : List UInt8) :
    removeDotslashLoopIn last (n + 1) out (slash :: r) = removeDotslashLoopIn last n out r := by
  rw [removeDotslashLoop_round (c := []) hout (Nat.zero_le _) (by simp) (by simp)]
  rfl

/-! ### The main loop -/

theorem mem_components (hc : c ∈ components p) : c ≠ [] ∧ slash ∉ c := by
  induction hn : p.length using Nat.strongRecOn generalizing p with
  | ind n ih =>
    obtain ⟨c', rest, rfl, hc', -, hrest⟩ := exists_component p
    have hfirst : c ∈ (if c' = [] then [] else [c']) → c ≠ [] ∧ slash ∉ c := by
      intro h
      split_ifs at h with hne
      · cases h
      · obtain rfl := List.mem_singleton.mp h
        exact ⟨hne, hc'⟩
    rcases hrest with rfl | ⟨r, rfl⟩
    · rw [List.append_nil, components_of_notMem hc'] at hc
      exact hfirst hc
    · rw [components_append_slash hc'] at hc
      rcases List.mem_append.mp hc with hc | hc
      · exact hfirst hc
      · rw [List.length_append, List.length_cons] at hn
        exact ih r.length (by omega) hc rfl

/-- A directory is made of names that were there or are in the path. -/
theorem mem_foldl_stepComponent {l : List (List UInt8)} (hc : c ∈ l.foldl stepComponent cs) :
    c ∈ cs ∨ c ∈ l := by
  induction l generalizing cs with
  | nil => exact .inl hc
  | cons d l ih =>
    rcases ih hc with hmem | hmem
    · simp only [stepComponent] at hmem
      split_ifs at hmem
      · exact .inl hmem
      · exact .inl (List.mem_of_mem_dropLast hmem)
      · rcases List.mem_append.mp hmem with hmem | hmem
        · exact .inl hmem
        · exact .inr (by simp [List.mem_singleton.mp hmem])
    · exact .inr (List.mem_cons_of_mem d hmem)

theorem foldl_stepComponent_names {l : List (List UInt8)} (hcs : ∀ c ∈ cs, IsName c)
    (hl : ∀ c ∈ l, c ≠ [] ∧ slash ∉ c) : ∀ c ∈ l.foldl stepComponent cs, IsName c := by
  induction l generalizing cs with
  | nil => exact hcs
  | cons c l ih =>
    have hc := hl c List.mem_cons_self
    exact ih (stepComponent_names hcs hc.1 hc.2) fun c hc => hl c (List.mem_cons_of_mem _ hc)

/-- **The main loop is a fold over the components**: from a directory with a slash behind it, the
output gets to the directory or file that the components lead to. -/
theorem removeDotslashLoop_spec {n : Nat} (hcs : ∀ c ∈ cs, IsName c)
    (hfuel : input.length < n) (hshort : ∀ c ∈ components input, c.length ≤ 255)
    (hroom : (render cs).length + 1 + input.length ≤ last) :
    ∃ out, removeDotslashLoopIn last n (render cs ++ [slash]) input = some out ∧
      IsPath ((components input).foldl stepComponent cs) out ∧
      out.length ≤ (render cs).length + 1 + input.length := by
  -- induction on the rounds: each takes a component and the slashes behind it
  induction n generalizing cs input with
  | zero => omega
  | succ n ih =>
    have hout : (render cs ++ [slash]).length ≤ last := by
      rw [List.length_append, List.length_singleton]
      omega
    obtain ⟨c, rest, rfl, hc, -, hrest⟩ := exists_component input
    rw [List.length_append] at hfuel hroom
    by_cases hne : c = []
    · subst hne
      rcases hrest with rfl | ⟨r, rfl⟩
      · -- the end of the path
        refine ⟨_, removeDotslashLoop_nil, ?_, ?_⟩
        · rw [List.append_nil, components_nil]
          exact .inl rfl
        · rw [List.length_append, List.length_singleton]
          omega
      · rw [List.nil_append, removeDotslashLoop_empty hout, components_slash]
        rw [List.nil_append, components_slash] at hshort
        rw [List.length_cons] at hfuel hroom
        obtain ⟨out, hloop, hpath, hlen⟩ := ih hcs (by omega) hshort (by omega)
        exact ⟨out, hloop, hpath, by rw [List.length_cons]; omega⟩
    rcases hrest with rfl | ⟨r, rfl⟩
    · rw [List.append_nil] at *
      rw [components_of_notMem hc, if_neg hne] at hshort ⊢
      have hpos := List.length_pos_iff.mpr hne
      obtain ⟨n, rfl⟩ : ∃ k, n = k + 1 := ⟨n - 1, by omega⟩
      obtain ⟨out, hloop, hpath, hlen⟩ :=
        removeDotslashLoop_last (n := n) hcs hout hc (hshort c List.mem_cons_self) hne
      exact ⟨out, hloop, hpath, by omega⟩
    · rw [components_append_slash hc, if_neg hne] at hshort ⊢
      obtain ⟨r', hr', hround⟩ :=
        removeDotslashLoop_slash (n := n) hcs hout hc (hshort c (by simp)) hne r
      -- a round also skips further slashes, which separate nothing
      have hcomponents : components r' = components r := by
        rcases hr' with rfl | rfl
        · rfl
        · exact components_dropWhile_slash r
      have hlen' : r'.length ≤ r.length := by
        rcases hr' with rfl | rfl
        · exact Nat.le_refl _
        · exact List.length_dropWhile_le _ _
      -- the output grows by at most what the input loses
      have hstep := length_render_step cs c
      rw [List.length_cons] at hfuel hroom
      have hfuel' : r'.length < n := by omega
      obtain ⟨out, hloop, hpath, hlen⟩ := ih (stepComponent_names hcs hne hc) hfuel'
        (fun c' hc' => hshort c' (by rw [hcomponents] at hc'; simp [hc'])) (by omega)
      rw [hcomponents] at hpath
      refine ⟨out, by rw [hround, hloop], ?_, ?_⟩
      · simpa using hpath
      · rw [List.length_append, List.length_cons]
        omega

/-- **An absolute path of names is left as it is.** -/
theorem removeDotslashLoop_names {ds : List (List UInt8)} {q : List UInt8} {n : Nat}
    (hds : ∀ d ∈ ds, IsName d) (hshort : ∀ d ∈ ds, d.length ≤ 255) (hcs : ∀ c ∈ cs, IsName c)
    (hq : IsPath ds (slash :: q)) (hfuel : q.length < n)
    (hroom : (render cs).length + 1 + q.length ≤ last) :
    removeDotslashLoopIn last n (render cs ++ [slash]) q = some (render cs ++ slash :: q) := by
  induction ds generalizing cs q n with
  | nil =>
    obtain rfl : q = [] := by
      rcases hq with hq | ⟨hne, -⟩
      · simpa [render] using hq
      · exact absurd rfl hne
    obtain ⟨n, rfl⟩ : ∃ k, n = k + 1 := ⟨n - 1, by omega⟩
    exact removeDotslashLoop_nil
  | cons d ds ih =>
    have hd := hds d List.mem_cons_self
    have hout : (render cs ++ [slash]).length ≤ last := by
      rw [List.length_append, List.length_singleton]
      omega
    have hlong := hshort d List.mem_cons_self
    have hpos := List.length_pos_iff.mpr hd.ne_nil
    -- what comes behind `d`
    have htail : q = d ∨ ∃ q', q = d ++ slash :: q' ∧ IsPath ds (slash :: q') := by
      have hrender : render (d :: ds) = slash :: (d ++ render ds) := by simp [render]
      rcases hq with hq | ⟨-, hq⟩
      · rw [hrender, List.cons_append, List.cons.injEq, List.append_assoc] at hq
        cases ds with
        | nil => exact .inr ⟨[], hq.2, .inl rfl⟩
        | cons d' ds => exact .inr ⟨d' ++ render ds ++ [slash], by simp [hq.2, render],
            .inl (by simp [render])⟩
      · rw [hrender, List.cons.injEq] at hq
        cases ds with
        | nil => exact .inl (by simpa [render] using hq.2)
        | cons d' ds => exact .inr ⟨d' ++ render ds, by simp [hq.2, render],
            .inr ⟨by simp, by simp [render]⟩⟩
    rcases htail with rfl | ⟨q', rfl, hq'⟩
    · obtain ⟨n, rfl⟩ : ∃ k, n = k + 1 + 1 := ⟨n - 2, by omega⟩
      rw [removeDotslashLoop_name hd hout hlong, List.append_assoc]
      rfl
    · obtain ⟨n, rfl⟩ : ∃ k, n = k + 1 := ⟨n - 1, by omega⟩
      obtain ⟨r, hr, hround⟩ :=
        removeDotslashLoop_slash (n := n) hcs hout hd.slash_notMem hlong hd.ne_nil q'
      -- there is no second slash behind `d`
      obtain rfl : r = q' := by
        rcases hr with rfl | rfl
        · rfl
        · exact hq'.dropWhile_slash fun d' hd' => hds d' (List.mem_cons_of_mem d hd')
      have hstep : stepComponent cs d = cs ++ [d] := by
        rw [stepComponent, if_neg hd.ne_dot, if_neg hd.ne_dots]
      rw [List.length_append, List.length_cons] at hfuel hroom
      rw [hround, hstep, ih (fun d' hd' => hds d' (List.mem_cons_of_mem d hd'))
        (fun d' hd' => hshort d' (List.mem_cons_of_mem d hd')) _ hq' (by omega), render_append]
      · simp
      · rw [render_append, List.length_append, List.length_cons]
        omega
      · intro c hc
        rcases List.mem_append.mp hc with hc | hc
        · exact hcs c hc
        · rwa [List.mem_singleton.mp hc]

/-! ### remove_dotslash -/

/-- The process has a variable `PWD` with the value `pwd`. -/
def WorkingDirectory (m : UserMem) (pwd : List UInt8) : Prop :=
  ∃ es n i, Environ m es n ∧ (∀ v ∈ es, VarFits v) ∧ es.length < walkFuel ∧
    scan es pwdName = some (some i) ∧ es[i]? = some (pwdName, pwd)

theorem copyValue_spec {m : UserMem} {text : List UInt8} {n a : Nat} (htext : 0 ∉ text)
    (h : ∀ x ≤ text.length, m (a + x) = (text ++ [0])[x]?) (hcount : text.length + 1 < n) :
    copyValue m n a = some (text ++ [0]) := by
  -- the loop copies up to the zero, and the count does not run out before
  induction text generalizing n a with
  | nil =>
    rw [List.length_nil] at hcount
    obtain ⟨n, rfl⟩ : ∃ k, n = k + 1 := ⟨n - 1, by omega⟩
    have h0 : m a = some 0 := h 0 (Nat.zero_le _)
    have hpos : 0 < n := by omega
    simp [copyValue, h0, hpos]
  | cons c text ih =>
    rw [List.length_cons] at hcount
    obtain ⟨n, rfl⟩ : ∃ k, n = k + 1 := ⟨n - 1, by omega⟩
    have h0 : m a = some c := h 0 (Nat.zero_le _)
    have hc : c ≠ 0 := by
      rintro rfl
      exact htext List.mem_cons_self
    have hrest := ih (n := n) (a := a + 1) (fun h0 => htext (List.mem_cons_of_mem c h0))
      (by
        intro x hx
        have hbyte := h (x + 1) (by simpa using hx)
        rwa [show a + (x + 1) = a + 1 + x by omega] at hbyte) (by omega)
    simp [copyValue, h0, hc, hrest]

/-- The loop when the value does not fit with its zero. -/
theorem copyValue_long {m : UserMem} {text : List UInt8} {n a : Nat} (htext : 0 ∉ text)
    (h : ∀ x ≤ text.length, m (a + x) = (text ++ [0])[x]?) (hcount : n ≤ text.length + 1) :
    copyValue m n a = some (text.take n) := by
  induction text generalizing n a with
  | nil =>
    have h0 : m a = some 0 := h 0 (Nat.zero_le _)
    rw [List.length_nil, Nat.zero_add] at hcount
    cases n with
    | zero => rfl
    | succ n =>
      obtain rfl : n = 0 := by omega
      simp [copyValue, h0]
  | cons c text ih =>
    rw [List.length_cons] at hcount
    cases n with
    | zero => rfl
    | succ n =>
      have h0 : m a = some c := h 0 (Nat.zero_le _)
      have hc : c ≠ 0 := Ne.symm (List.ne_of_not_mem_cons htext)
      have hrest := ih (n := n) (a := a + 1) (List.not_mem_of_not_mem_cons htext) (fun x hx => by
        have hbyte := h (x + 1) (Nat.succ_le_succ hx)
        rwa [show a + (x + 1) = a + 1 + x by omega] at hbyte) (by omega)
      simp [copyValue, h0, hc, hrest]

theorem cwdString_spec {m : UserMem} {pwd : List UInt8} (h : WorkingDirectory m pwd)
    (hshort : pwd.length < 255) : cwdString m = some pwd := by
  obtain ⟨es, n, i, henv, hes, hlen, hscan, hi⟩ := h
  obtain ⟨w, a, hw, hmem, -, hfound, hbytes⟩ := getenv_found henv hes hlen hscan
  obtain rfl : w = (pwdName, pwd) := Option.some.inj (hw.symm.trans hi)
  have hzero := (hes _ hmem).valueZero
  have hcopy : copyValue m 256 a = some (pwd ++ [0]) := copyValue_spec hzero hbytes (by omega)
  have htake : (pwd ++ [0]).takeWhile (· != 0) = pwd := by
    rw [List.takeWhile_append_of_pos]
    · simp
    · intro x hx
      simp only [bne_iff_ne, ne_eq]
      rintro rfl
      exact hzero hx
  simp [cwdString, getCWD, hfound, hcopy, htake]

theorem endSlash_path (h : ∀ c ∈ cs, IsName c) (hp : IsPath cs p) :
    endSlash p = some (render cs ++ [slash]) := by
  rcases hp with rfl | ⟨hne, rfl⟩
  · simp [endSlash]
  · rcases List.eq_nil_or_concat cs with rfl | ⟨init, c, rfl⟩
    · exact absurd rfl hne
    · have hc := h c (by simp)
      -- the last character of a name is no slash
      obtain ⟨c', x, rfl⟩ := (List.eq_nil_or_concat c).resolve_left hc.ne_nil
      have hx : x ≠ slash := by
        rintro rfl
        exact hc.slash_notMem (by simp)
      have hrender : render (init.concat (c'.concat x)) = render init ++ slash :: c' ++ [x] := by
        simp [List.concat_eq_append, render_append]
      rw [hrender, endSlash, List.getLast?_concat]
      simp only [ne_eq, hx, not_false_iff, if_true]

/-- An absolute path of names is its own normal form. -/
theorem removeDotslashIn_path {m : UserMem} {d : Int} (h : ∀ c ∈ cs, IsName c)
    (hshort : ∀ c ∈ cs, c.length ≤ 255) (hp : IsPath cs p)
    (hd : d = 1 → p = render cs ++ [slash]) (hlen : p.length ≤ last) :
    removeDotslashIn m last p d = some p := by
  obtain ⟨q, rfl⟩ : ∃ q, p = slash :: q := by
    have hhead := hp.head
    cases p with
    | nil => cases hhead
    | cons x q => exact ⟨q, by rw [Option.some.inj hhead]⟩
  rw [List.length_cons] at hlen
  have hnames : ∀ c ∈ ([] : List (List UInt8)), IsName c := by simp
  -- the loop starts with an empty directory and copies the names one by one
  have hloop : removeDotslashLoopIn last (q.length + 1) (render [] ++ [slash]) q =
      some (render [] ++ slash :: q) :=
    removeDotslashLoop_names h hshort hnames hp (by omega) (by simp [render]; omega)
  have hempty : render [] ++ [slash] = [slash] := rfl
  rw [hempty] at hloop
  have hfits : ¬last < (slash :: q).length := by
    rw [List.length_cons]
    omega
  have hnil : render [] ++ slash :: q = slash :: q := rfl
  rw [hnil] at hloop
  have hstart : dotslashStart m (slash :: q) = some ([slash], q) := if_pos rfl
  simp only [removeDotslashIn, hstart, Option.bind_eq_bind, Option.bind_some, hloop]
  split_ifs with hd1
  · rw [endSlash_path h hp, ← hd hd1, Option.bind_some, if_neg hfits]
  · rfl

theorem length_lt_render (hc : c ∈ cs) : c.length < (render cs).length := by
  induction cs with
  | nil => cases hc
  | cons d cs ih =>
    have hrender : (render (d :: cs)).length = d.length + 1 + (render cs).length := by
      simp only [render, List.flatMap_cons, List.length_append, List.length_cons]
    rcases List.mem_cons.mp hc with rfl | hc
    · omega
    · have := ih hc
      omega

/-- **`remove_dotslash` normalises paths.** Its result is absolute, leads where the components of
the path lead, ends in a slash if it is asked to, and is its own normal form. The output pointer
stays in `dest`, which has `last + 1` bytes. -/
theorem remove_dotslash_spec {m : UserMem} {pwd src : List UInt8} {last : Nat}
    (hm : WorkingDirectory m pwd) (hpwd : Canonical pwd) (hcwd : pwd.length < 255)
    (hsrc : ∀ c ∈ components src, c.length ≤ 255) (hlast : pwd.length + src.length + 2 ≤ last)
    (d : Int) :
    ∃ out, removeDotslashIn m last src d = some out ∧ out.head? = some slash ∧
      components out = normalised pwd src ∧ (d = 1 → out.getLast? = some slash) ∧
      removeDotslashIn m last out d = some out := by
  obtain ⟨ps, hps, hpath⟩ := hpwd
  have hpslen : (render ps).length ≤ pwd.length := by
    rcases hpath with rfl | ⟨-, rfl⟩
    · rw [List.length_append]
      omega
    · exact Nat.le_refl _
  -- the directory that the loop starts in, and what it reads
  obtain ⟨cs, input, hstart, hcs, hcshort, hinput, hroom, hnorm⟩ : ∃ cs input,
      dotslashStart m src = some (render cs ++ [slash], input) ∧
      (∀ c ∈ cs, IsName c) ∧ (∀ c ∈ cs, c.length ≤ 255) ∧ components input = components src ∧
      (render cs).length + 1 + input.length ≤ pwd.length + src.length + 1 ∧
      cs = if src.getD 0 0 = slash then [] else components pwd := by
    by_cases habs : src.getD 0 0 = slash
    · obtain ⟨q, rfl⟩ : ∃ q, src = slash :: q := by
        cases src with
        | nil => exact absurd habs (by decide)
        | cons x q => exact ⟨q, by rw [show x = slash from habs]⟩
      refine ⟨[], q, if_pos rfl, by simp, by simp, (components_slash q).symm, ?_, rfl⟩
      rw [List.length_cons, render, List.flatMap_nil, List.length_nil]
      omega
    · refine ⟨ps, src, ?_, hps, ?_, rfl, by omega, ?_⟩
      · rw [dotslashStart, if_neg habs, cwdString_spec hm hcwd, Option.bind_eq_bind,
          Option.bind_some, endSlash_path hps hpath]
        rfl
      · intro c hc
        have := length_lt_render hc
        omega
      · rw [if_neg habs, hpath.components hps]
  rw [← hinput] at hsrc
  have hlast' : (render cs).length + 1 + input.length ≤ last := by omega
  obtain ⟨out, hloop, hout, hlen⟩ :=
    removeDotslashLoop_spec hcs (Nat.lt_succ_self input.length) hsrc hlast'
  have hnorm : (components input).foldl stepComponent cs = normalised pwd src := by
    rw [normalised, ← hnorm, hinput]
  rw [hnorm] at hout
  have hnames : ∀ c ∈ normalised pwd src, IsName c := by
    rw [← hnorm]
    exact foldl_stepComponent_names hcs fun c hc => mem_components hc
  have hshort : ∀ c ∈ normalised pwd src, c.length ≤ 255 := by
    intro c hc
    rw [← hnorm] at hc
    rcases mem_foldl_stepComponent hc with hc | hc
    · exact hcshort c hc
    · exact hsrc c hc
  by_cases hd : d = 1
  · -- with a slash at the end
    have hend := endSlash_path hnames hout
    have hpath' : IsPath (normalised pwd src) (render (normalised pwd src) ++ [slash]) := .inl rfl
    have hfits : (render (normalised pwd src) ++ [slash]).length ≤ last := by
      rw [List.length_append, List.length_singleton]
      rcases hout with rfl | ⟨-, rfl⟩
      · rw [List.length_append, List.length_singleton] at hlen
        omega
      · omega
    refine ⟨render (normalised pwd src) ++ [slash], ?_, hpath'.head, hpath'.components hnames,
      fun _ => by simp, removeDotslashIn_path hnames hshort hpath' (fun _ => rfl) hfits⟩
    simp only [removeDotslashIn, Option.bind_eq_bind, hstart, Option.bind_some, hloop, if_pos hd,
      hend, if_neg (Nat.not_lt.mpr hfits)]
  · have hfits : out.length ≤ last := by omega
    refine ⟨out, ?_, hout.head, hout.components hnames, fun h => absurd h hd,
      removeDotslashIn_path hnames hshort hout (fun h => absurd h hd) hfits⟩
    simp only [removeDotslashIn, Option.bind_eq_bind, hstart, Option.bind_some, hloop, if_neg hd,
      if_neg (Nat.not_lt.mpr hfits)]

theorem initialEnv_pwd :
    WorkingDirectory (startMem (initialEnv.map entryOf ++ List.replicate 0 [])) [slash] :=
  ⟨initialEnv, _, 0, initialEnv_started.environ_start, fun v hv => (initialEnv_ok v hv).fits,
    show 2 < 65536 + 1 by omega, by decide, rfl⟩

/-- `a/../b/.` in the first process. -/
theorem remove_dotslash_spec_dots :
    ∃ out, removeDotslashIn (startMem (initialEnv.map entryOf ++ List.replicate 0 [])) 255
        [0x61, 0x2F, 0x2E, 0x2E, 0x2F, 0x62, 0x2F, 0x2E] 1 = some out ∧
      out.head? = some slash ∧
      components out = normalised [slash] [0x61, 0x2F, 0x2E, 0x2E, 0x2F, 0x62, 0x2F, 0x2E] ∧
      ((1 : Int) = 1 → out.getLast? = some slash) ∧
      removeDotslashIn (startMem (initialEnv.map entryOf ++ List.replicate 0 [])) 255 out 1 =
        some out :=
  remove_dotslash_spec initialEnv_pwd ⟨[], by simp, .inl rfl⟩ (by decide) (by decide) (by decide) 1

end Sbunix
