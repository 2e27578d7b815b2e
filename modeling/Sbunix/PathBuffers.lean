import Mathlib.Data.UInt
import Sbunix.EnvironmentMap
import Sbunix.CommandSearch
import Sbunix.Lib.Stores

/-!
# The buffers that paths are written to

A path of a user is copied from buffer to buffer: its components to `temp_output[256]`, the absolute
path to an array of the caller, and from there to the name of a descriptor; `exec` copies the path
itself to `exeName[15]`. Here every store is taken with the array that it is meant for, and a
pointer may leave the array: `..` walks back over whatever the memory in front of it holds.

A path that `remove_dotslash` is writing is a list of names with a slash behind each (`flat`). Where
it does not start with a slash, its first name is not empty, and `..` there goes on in the memory in
front (`up`); what it finds depends on whether there is a slash right in front of the array.

* `dotslashLoop_gives`, `dotslashLoop_outside` — the main loop is `walk` over the components;
* `removeDotslash_gives`, `removeDotslash_outside` — so is `remove_dotslash`, in any array.
-/

namespace Sbunix

open Stores

namespace PathBuffers

/-! ### The code -/

/-- The characters of an array, and of the memory around it. -/
abbrev Chars := Int → UInt8

/-- `get_between_2slashes(input, temp_output)`: the string that is then in `temp_output[256]`. -/
def getBetween2slashes (input : List UInt8) : Run (List UInt8) := do
  let component := input.takeWhile (· != slash)
  -- there is no bound: a longer component goes on behind `temp_output`
  let s ← Cursor.putAll 256 ⟨fun _ => 0, 0⟩ component
  let _ ← store 256 s.cells s.pos 0
  .ok component

/-- The steps back for a `..`. -/
def parentDir (fuel : Nat) (s : Cursor UInt8) : Run (Cursor UInt8) :=
  -- `output == dest` after one step back: the path is `/` so far
  if s.pos - 1 = 0 then .ok s
  else do
    -- `while(*output!='/') output--;` has no other end than a slash
    let pos ← findBack s.cells slash fuel (s.pos - 2)
    .ok ⟨s.cells, pos + 1⟩

/-- The main loop of `remove_dotslash`. -/
def dotslashLoop (size fuel : Nat) : Nat → Cursor UInt8 → List UInt8 → Run (Cursor UInt8)
  | 0, _, _ => .error .pending
  | n + 1, s, input =>
    if input = [] then .ok s
    else do
      let temp ← getBetween2slashes input
      -- the slash behind `.` and `..` is skipped with them
      if temp = [dot] then
        dotslashLoop size fuel n s (input.drop (if input.getD 1 0 = slash then 2 else 1))
      else if temp = [] then dotslashLoop size fuel n s (input.drop 1)
      else if temp = [dot, dot] then do
        let s ← parentDir fuel s
        dotslashLoop size fuel n s (input.drop (if input.getD 2 0 = slash then 3 else 2))
      else do
        let s ← s.putAll size temp
        let input := input.drop temp.length
        -- a run of slashes is written as one
        let s ← if input.getD 0 0 = slash then s.put size slash else .ok s
        dotslashLoop size fuel n s (input.dropWhile (· == slash))

/-- An array of `size` characters after `getCWD` or `getPATH`, which have stored `bytes`. -/
def filled (size : Nat) (bytes : Option (List UInt8)) (junk : Chars) : Run Chars :=
  match bytes with
  | none => .error .pending
  | some bytes => (Cursor.putAll size ⟨junk, 0⟩ bytes).map Cursor.cells

/-- The copy of the string in `cwd`. -/
def cwdLoop (size : Nat) (cwd : Chars) : Nat → Nat → Cursor UInt8 → Run (Cursor UInt8)
  | 0, _, _ => .error .pending
  | n + 1, i, s =>
    if cwd i = 0 then .ok s
    else do
      -- only the NUL ends the copy, and `getCWD` may not have stored one
      let s ← s.put size (cwd i)
      cwdLoop size cwd n (i + 1) s

/-- A slash, unless there is one in front of the pointer. -/
def slashBehind (size : Nat) (s : Cursor UInt8) : Run (Cursor UInt8) :=
  if s.cells (s.pos - 1) = slash then .ok s else s.put size slash

/-- The end of `remove_dotslash`. -/
def finish (size : Nat) (d : Int) (s : Cursor UInt8) : Run Chars := do
  let s ← if d = 1 then slashBehind size s else .ok s
  store size s.cells s.pos 0

/-- What `remove_dotslash` writes in front of its main loop, and where the loop begins to read. -/
def startPath (m : UserMem) (size fuel : Nat) (cwd dest : Chars) (src : List UInt8) :
    Run (Cursor UInt8 × List UInt8) :=
  if src.getD 0 0 = slash then do
    let s ← Cursor.put size ⟨dest, 0⟩ slash
    .ok (s, src.drop 1)
  else do
    let cwd ← filled 256 (getCWD m 256) cwd
    let s ← cwdLoop size cwd fuel 0 ⟨dest, 0⟩
    let s ← slashBehind size s
    .ok (s, src)

/-- `remove_dotslash(src, dest, d)` for a `dest` of `size` characters. `cwd` and `dest` are what the
arrays held before. -/
def removeDotslash (m : UserMem) (size fuel : Nat) (cwd dest : Chars) (src : List UInt8) (d : Int) :
    Run Chars := do
  let r ← startPath m size fuel cwd dest src
  let s ← dotslashLoop size fuel fuel r.1 r.2
  finish size d s

/-! ### The path that is written -/

/-- A path as names with a slash behind each. -/
def flat (ds : List (List UInt8)) : List UInt8 := ds.flatMap (· ++ [slash])

/-- The path without its last name. `front` says that there is a slash in front of the array. -/
def up (front : Bool) : List (List UInt8) → Option (List (List UInt8))
  | [] => none
  -- the root is its own parent; any other first name ends at a slash in front of the array
  | [d] => if d = [] then some [[]] else if front then some [] else none
  | ds => some ds.dropLast

/-- **The path along the components of another**, as far as there is room. -/
def walk (front : Bool) (size : Nat) :
    List (List UInt8) → List (List UInt8) → Option (List (List UInt8))
  | ds, [] => some ds
  | ds, c :: cs =>
    if 255 < c.length then none
    else if c = [dot] then walk front size ds cs
    else if c = [dot, dot] then (up front ds).bind fun ds => walk front size ds cs
    else if size < (flat (ds ++ [c])).length then none
    else walk front size (ds ++ [c]) cs

/-- The names of the current directory. An empty one is a single slash, or nothing. -/
def cwdNames (front : Bool) (cwd : List UInt8) : List (List UInt8) :=
  if cwd = [] ∧ front = true then []
  else (if cwd.getLast? = some slash then cwd.dropLast else cwd).splitOn slash

/-- Where a path starts. -/
def startNames (front : Bool) (cwd : Option (List UInt8)) (src : List UInt8) :
    Option (List (List UInt8)) :=
  if src.getD 0 0 = slash then some [[]]
  else cwd.bind fun cwd => if cwd.length ≤ 254 then some (cwdNames front cwd) else none

/-- **The absolute path** in an array of `size` characters. -/
def absolute (front : Bool) (size : Nat) (cwd : Option (List UInt8)) (src : List UInt8) :
    Option (List (List UInt8)) :=
  (startNames front cwd src).bind fun ds => walk front size ds (components src)

/-! ### Lists of names -/

variable {front : Bool} {size fuel n : Nat} {base : Chars} {s : Cursor UInt8}
  {ds ds' : List (List UInt8)} {c t text input src cwd : List UInt8}

theorem flat_append (ds : List (List UInt8)) (c : List UInt8) :
    flat (ds ++ [c]) = flat ds ++ (c ++ [slash]) := by
  simp [flat]

theorem length_flat_append (ds : List (List UInt8)) (c : List UInt8) :
    (flat (ds ++ [c])).length = (flat ds).length + c.length + 1 := by
  rw [flat_append, List.length_append, List.length_append, List.length_singleton]
  omega

/-- The names are those between slashes, and there is none only behind a slash. -/
structure Names (front : Bool) (ds : List (List UInt8)) : Prop where
  noSlash : ∀ d ∈ ds, slash ∉ d
  ne_nil : ds = [] → front = true

theorem length_flat_up (hup : up front ds = some ds') : (flat ds').length ≤ (flat ds).length := by
  match ds, hup with
  | [d], hup =>
    rw [up] at hup
    split_ifs at hup with hd hfront
    · obtain rfl := Option.some.inj hup
      simp [flat]
    · obtain rfl := Option.some.inj hup
      simp [flat]
  | d :: d' :: ds, hup =>
    obtain rfl := Option.some.inj hup
    obtain ⟨init, e, he⟩ := (List.eq_nil_or_concat (d :: d' :: ds)).resolve_left (by simp)
    rw [he, List.concat_eq_append, List.dropLast_concat, length_flat_append]
    omega

theorem Names.append (h : Names front ds) (hc : slash ∉ c) : Names front (ds ++ [c]) := by
  refine ⟨fun d hd => ?_, fun hnil => absurd hnil (by simp)⟩
  rcases List.mem_append.mp hd with hd | hd
  · exact h.noSlash d hd
  · rwa [List.mem_singleton.mp hd]

theorem Names.up (h : Names front ds) (hup : PathBuffers.up front ds = some ds') :
    Names front ds' := by
  match ds, hup with
  | [d], hup =>
    rw [PathBuffers.up] at hup
    split_ifs at hup with hd hfront
    · obtain rfl := Option.some.inj hup
      exact ⟨by simp, fun hc => absurd hc (by simp)⟩
    · obtain rfl := Option.some.inj hup
      exact ⟨by simp, fun _ => hfront⟩
  | d :: d' :: ds, hup =>
    obtain rfl := Option.some.inj hup
    exact ⟨fun e he => h.noSlash e (List.mem_of_mem_dropLast he), fun hc => absurd hc (by simp)⟩

/-- A text is written with a slash behind it as the names that it is split into. -/
theorem flat_splitOn (t : List UInt8) : flat (t.splitOn slash) = t ++ [slash] := by
  -- on the length: the text behind the first slash is shorter
  induction hn : t.length using Nat.strongRecOn generalizing t with
  | ind n ih =>
    obtain ⟨c, rest, rfl, hc, -, hrest⟩ := exists_component t
    rcases hrest with rfl | ⟨r, rfl⟩
    · rw [List.append_nil, List.splitOn_eq_singleton hc]
      simp [flat]
    · rw [List.length_append, List.length_cons] at hn
      rw [List.splitOn_append_cons_self_of_not_mem hc, flat, List.flatMap_cons, ← flat,
        ih r.length (by omega) r rfl]
      simp

theorem notMem_splitOn (t : List UInt8) : ∀ d ∈ t.splitOn slash, slash ∉ d := by
  induction hn : t.length using Nat.strongRecOn generalizing t with
  | ind n ih =>
    obtain ⟨c, rest, rfl, hc, -, hrest⟩ := exists_component t
    intro d hd
    rcases hrest with rfl | ⟨r, rfl⟩
    · rw [List.append_nil, List.splitOn_eq_singleton hc] at hd
      rwa [List.mem_singleton.mp hd]
    · rw [List.splitOn_append_cons_self_of_not_mem hc] at hd
      rw [List.length_append, List.length_cons] at hn
      rcases List.mem_cons.mp hd with rfl | hd
      · exact hc
      · exact ih r.length (by omega) r rfl d hd

theorem cwdNames_names (front : Bool) (cwd : List UInt8) : Names front (cwdNames front cwd) := by
  rw [cwdNames]
  split_ifs with hnil
  · exact ⟨by simp, fun _ => hnil.2⟩
  · exact ⟨notMem_splitOn _, fun hc => (List.splitOn_ne_nil _ _ hc).elim⟩
  · exact ⟨notMem_splitOn _, fun hc => (List.splitOn_ne_nil _ _ hc).elim⟩

/-- The names of the current directory, as they are written. -/
theorem flat_cwdNames (front : Bool) (cwd : List UInt8) : flat (cwdNames front cwd) =
    if cwd = [] then (if front then [] else [slash])
    else if cwd.getLast? = some slash then cwd else cwd ++ [slash] := by
  rw [cwdNames]
  by_cases hnil : cwd = []
  · subst hnil
    cases front with
    | false => simp [flat]
    | true => simp [flat]
  · rw [if_neg fun hc => hnil hc.1, flat_splitOn, if_neg hnil]
    split_ifs with hlast
    · -- the slash is there already
      rw [List.getLast?_eq_some_getLast hnil] at hlast
      conv_rhs => rw [← List.dropLast_append_getLast hnil]
      rw [Option.some.inj hlast]
    · rfl

/-! ### One component -/

/-- A component that fits `temp_output`. -/
theorem getBetween2slashes_eq (h0 : 0 ∉ input) (hc : input.takeWhile (· != slash) = c) :
    getBetween2slashes input = if c.length ≤ 255 then .ok c else .error .outside := by
  have hc0 : 0 ∉ c := fun h => h0 ((List.takeWhile_prefix _).subset (hc ▸ h))
  have hstart := Writes.start 256 (fun _ => (0 : UInt8))
  rw [getBetween2slashes, hc]
  split_ifs with hlen
  · obtain ⟨s, hs, hw⟩ := hstart.putAll c (by rw [List.length_nil]; omega) hc0
    rw [List.nil_append] at hw
    obtain ⟨cells, hstore, -⟩ := hw.store_nul (by omega)
    show Cursor.putAll 256 _ c >>= _ = _
    rw [hs]
    show store 256 s.cells s.pos 0 >>= _ = _
    rw [hstore]
    rfl
  · -- the last character or the NUL goes outside
    rcases Nat.lt_or_ge 256 c.length with hgt | hle
    · refine bind_outside (hstart.putAll_outside (Nat.zero_le _) ?_ hc0) _
      rw [List.length_nil]
      omega
    · obtain ⟨s, hs, hw⟩ := hstart.putAll c (by rw [List.length_nil]; omega) hc0
      have hpos := hw.pos
      rw [List.nil_append] at hpos
      show Cursor.putAll 256 _ c >>= _ = _
      rw [hs]
      exact bind_outside (store_outside (by omega)) _

/-- The name in front of the pointer has no slash. -/
theorem ne_slash_of_writes {d : List UInt8} (hw : Writes size base (text ++ d ++ [slash]) s)
    (hd : slash ∉ d) {j : Nat} (hj : j < d.length) : s.cells (s.pos - 2 - j) ≠ slash := by
  have hlen : (text ++ d ++ [slash]).length = text.length + d.length + 1 := by simp; omega
  have hpos := hw.pos
  have hk : text.length + (d.length - 1 - j) < (text ++ d ++ [slash]).length := by omega
  have hcell := hw.written _ hk
  -- the cells from the pointer back are the name from its end
  have hidx : s.pos - 2 - (j : Int) = ((text.length + (d.length - 1 - j) : Nat) : Int) := by omega
  rw [hidx, hcell, List.getElem_append_left (by rw [List.length_append]; omega),
    List.getElem_append_right (by omega)]
  exact fun hc => hd (hc ▸ List.getElem_mem _)

/-- **The walk back** to a slash at the end of `text`, or in front of the array. -/
theorem parentDir_back {d : List UInt8} (hw : Writes size base (text ++ d ++ [slash]) s)
    (hd : slash ∉ d) (hne : text ++ d ≠ []) (hback : s.cells (text.length - 1) = slash) :
    Gives (parentDir fuel s) (d.length < fuel) (Writes size base text) := by
  have hlen : (text ++ d ++ [slash]).length = text.length + d.length + 1 := by simp; omega
  have hpos := hw.pos
  have hsum := List.length_pos_of_ne_nil hne
  rw [List.length_append] at hsum
  have hidx : s.pos - 2 - (d.length : Int) = (text.length : Int) - 1 := by omega
  -- the walk passes the whole name and stops at the slash in front of it
  have hfind : findBack s.cells slash fuel (s.pos - 2) =
      if d.length < fuel then .ok (s.pos - 2 - d.length) else .error .pending :=
    findBack_eq (by rw [hidx, hback]) fun j hj => ne_slash_of_writes hw hd hj
  rw [parentDir, if_neg (by omega), hfind]
  split_ifs with hfuel
  · refine Or.inl ⟨_, rfl, ?_⟩
    rw [hidx, Int.sub_add_cancel]
    rw [List.append_assoc] at hw
    exact hw.cut
  · exact Or.inr ⟨rfl, hfuel⟩

theorem length_le_flat (ds : List (List UInt8)) (d : List UInt8) (hd : d ∈ ds) :
    d.length + 1 ≤ (flat ds).length := by
  obtain ⟨ds₁, ds₂, rfl⟩ := List.append_of_mem hd
  simp only [flat, List.flatMap_append, List.flatMap_cons, List.length_append,
    List.length_singleton]
  omega

/-- The last character of a path with names is a slash. -/
theorem getLast_flat {e : List UInt8} : ∃ t, flat (ds ++ [e]) = t ++ [slash] :=
  ⟨flat ds ++ e, by rw [flat_append, List.append_assoc]⟩

theorem cells_last (hw : Writes size base text s) (htext : text = t ++ [slash]) :
    s.cells (text.length - 1) = slash := by
  subst htext
  have hcell := hw.written t.length (by simp)
  rw [List.getElem_concat_length rfl] at hcell
  rw [← hcell, List.length_append, List.length_singleton]
  congr 1
  omega

/-- **A `..` goes to the path without its last name.** -/
theorem parentDir_gives (hw : Writes size base (flat ds) s) (hn : Names front ds)
    (hfront : base (-1) = slash ↔ front = true) (hsize : (flat ds).length ≤ size)
    (hup : up front ds = some ds') :
    Gives (parentDir fuel s) (size ≤ fuel) (Writes size base (flat ds')) := by
  match ds, hup with
  | [d], hup =>
    have hflat : flat [d] = [] ++ d ++ [slash] := by simp [flat]
    have hle := length_le_flat [d] d (by simp)
    rw [up] at hup
    split_ifs at hup with hd hslash
    · -- the root is its own parent
      obtain rfl := Option.some.inj hup
      have hpos := hw.pos
      rw [hd] at hw hpos
      exact Or.inl ⟨s, if_pos (by rw [hpos]; rfl), hw⟩
    · -- the walk ends at the slash in front of the array
      obtain rfl := Option.some.inj hup
      rw [hflat] at hw
      refine (parentDir_back hw (hn.noSlash d (by simp)) (by simpa using hd) ?_).mono
        (fun h => by omega) fun _ => id
      rw [List.length_nil, Nat.cast_zero, zero_sub, hw.outside (-1) (Or.inl (by decide))]
      exact hfront.mpr hslash
  | d :: d' :: ds, hup =>
    obtain rfl := Option.some.inj hup
    -- the path in front of the last name ends in a slash itself
    obtain ⟨init, e, he⟩ := (List.eq_nil_or_concat (d' :: ds)).resolve_left (by simp)
    obtain ⟨init', e', he'⟩ := (List.eq_nil_or_concat (d :: init)).resolve_left (by simp)
    have hall : d :: d' :: ds = (d :: init) ++ [e] := by
      rw [he, List.concat_eq_append, List.cons_append]
    have hmem : e ∈ d :: d' :: ds := by rw [hall]; simp
    have hle := length_le_flat _ e hmem
    have hslash : slash ∉ e := hn.noSlash e hmem
    obtain ⟨t, ht⟩ := @getLast_flat init' e'
    have hinit : flat (d :: init) = t ++ [slash] := by
      rw [he', List.concat_eq_append, ht]
    rw [hall, flat_append, ← List.append_assoc] at hw
    rw [hall, List.dropLast_concat]
    refine (parentDir_back hw hslash (by rw [hinit]; simp) ?_).mono (fun h => by omega) fun _ => id
    have hcut : Writes size base (flat (d :: init)) ⟨s.cells, (flat (d :: init)).length⟩ := by
      rw [List.append_assoc] at hw
      exact hw.cut
    have hlast := cells_last hcut hinit
    exact hlast

/-- In front of the array, from cell `-2` on, there are slashes. -/
def Adverse (base : Chars) : Prop := ∀ z ≤ -2, base z = slash

/-- **A `..` that leaves the array.** -/
theorem parentDir_below (hw : Writes size base (flat ds) s) (hn : Names front ds)
    (hfront : base (-1) = slash ↔ front = true) (hbase : Adverse base)
    (hsize : (flat ds).length ≤ size) (hup : up front ds = none) (hfuel : size < fuel) :
    ∃ s', parentDir fuel s = .ok s' ∧ s'.cells = s.cells ∧ s'.pos < 0 := by
  have hpos := hw.pos
  match ds, hup with
  | [], _ =>
    -- the pointer is at the start, and two steps in front of it there is a slash
    have hpos0 : s.pos = 0 := hpos
    have hfind : findBack s.cells slash fuel (s.pos - 2) = .ok (s.pos - 2) := by
      obtain ⟨n, rfl⟩ := Nat.exists_eq_succ_of_ne_zero (show fuel ≠ 0 by omega)
      rw [findBack, if_pos]
      rw [hw.outside _ (Or.inl (by omega))]
      exact hbase _ (by omega)
    rw [parentDir, if_neg (by omega), hfind]
    exact ⟨_, rfl, rfl, by dsimp only; omega⟩
  | [d], hup =>
    have hflat : flat [d] = [] ++ d ++ [slash] := by simp [flat]
    have hle := length_le_flat [d] d (by simp)
    rw [up] at hup
    split_ifs at hup with hd hslash
    have hdpos := List.length_pos_of_ne_nil hd
    have hlen : (flat [d]).length = d.length + 1 := by rw [hflat]; simp
    -- past the name and the character in front of the array
    have hidx : s.pos - 2 - ((d.length + 1 : Nat) : Int) = -2 := by omega
    have hfind : findBack s.cells slash fuel (s.pos - 2) =
        if d.length + 1 < fuel then .ok (s.pos - 2 - ((d.length + 1 : Nat) : Int))
        else .error .pending := by
      refine findBack_eq ?_ fun j hj => ?_
      · rw [hidx, hw.outside _ (Or.inl (by decide))]
        exact hbase _ (le_refl _)
      · rcases Nat.lt_or_ge j d.length with hlt | hge
        · rw [hflat] at hw
          exact ne_slash_of_writes hw (hn.noSlash d (by simp)) hlt
        · rw [show s.pos - 2 - (j : Int) = -1 by omega, hw.outside _ (Or.inl (by decide))]
          exact fun hc => hslash (hfront.mp hc)
    rw [parentDir, if_neg (by omega), hfind, if_pos (by omega), hidx]
    exact ⟨_, rfl, rfl, show (-2 + 1 : Int) < 0 by decide⟩

/-! ### The main loop -/

/-- The first component `c` of an input, and what is behind it. -/
structure Part (input c rest : List UInt8) : Prop where
  eq : input = c ++ rest
  ne_nil : input ≠ []
  noSlash : slash ∉ c
  behind : rest = [] ∨ ∃ r, rest = slash :: r
  noNul : 0 ∉ c
  noNul_rest : 0 ∉ rest

theorem exists_part (h0 : 0 ∉ input) (hne : input ≠ []) : ∃ c rest, Part input c rest := by
  obtain ⟨c, rest, rfl, hc, -, hrest⟩ := exists_component input
  exact ⟨c, rest, rfl, hne, hc, hrest, fun h => h0 (List.mem_append_left rest h),
    fun h => h0 (List.mem_append_right c h)⟩

section Part

variable {rest : List UInt8} (h : Part input c rest)
include h

theorem Part.noNul_drop : 0 ∉ rest.drop 1 := fun hmem => h.noNul_rest (List.mem_of_mem_drop hmem)

theorem Part.noNul_dropWhile : 0 ∉ rest.dropWhile (· == slash) := fun hmem =>
  h.noNul_rest ((List.dropWhile_sublist _).subset hmem)

theorem Part.components_eq :
    components input = (if c = [] then [] else [c]) ++ components (rest.drop 1) := by
  rw [h.eq]
  rcases h.behind with rfl | ⟨r, rfl⟩
  · rw [List.append_nil, components_of_notMem h.noSlash, List.drop_nil, components_nil,
      List.append_nil]
  · rw [components_append_slash h.noSlash]
    rfl

/-- Behind one slash and behind all of them the components are the same. -/
theorem Part.components_dropWhile :
    components (rest.dropWhile (· == slash)) = components (rest.drop 1) := by
  rcases h.behind with rfl | ⟨r, rfl⟩
  · rfl
  · rw [List.dropWhile_cons_of_pos (by simp)]
    exact components_dropWhile_slash r

theorem Part.length_drop_lt : (rest.drop 1).length < input.length := by
  have hpos := List.length_pos_of_ne_nil h.ne_nil
  rw [h.eq] at hpos ⊢
  rcases h.behind with rfl | ⟨r, rfl⟩
  · rwa [List.drop_nil, List.length_nil]
  · rw [List.drop_one, List.tail_cons, List.length_append, List.length_cons]
    omega

theorem Part.length_dropWhile_lt : (rest.dropWhile (· == slash)).length < input.length := by
  have hlt := h.length_drop_lt
  rcases h.behind with rfl | ⟨r, rfl⟩
  · exact hlt
  · rw [List.dropWhile_cons_of_pos (by simp)]
    exact (List.length_dropWhile_le _ _).trans_lt hlt

end Part

theorem dotslashLoop_nil (size fuel n : Nat) (s : Cursor UInt8) :
    dotslashLoop size fuel (n + 1) s [] = .ok s := if_pos rfl

/-- **One round** on the component `c`, with `rest` behind it. -/
theorem dotslashLoop_round {rest : List UInt8} (h : Part input c rest) :
    dotslashLoop size fuel (n + 1) s input =
      if 255 < c.length then .error .outside
      else if c = [dot] ∨ c = [] then dotslashLoop size fuel n s (rest.drop 1)
      else if c = [dot, dot] then
        parentDir fuel s >>= fun s => dotslashLoop size fuel n s (rest.drop 1)
      else s.putAll size (c ++ if rest = [] then [] else [slash]) >>= fun s =>
        dotslashLoop size fuel n s (rest.dropWhile (· == slash)) := by
  obtain ⟨rfl, hne, hc, hrest, h0c, h0r⟩ := h
  have h0 : 0 ∉ c ++ rest := fun hmem => (List.mem_append.mp hmem).elim h0c h0r
  have htake : (c ++ rest).takeWhile (· != slash) = c := by
    rcases hrest with rfl | ⟨r, rfl⟩
    · rw [List.append_nil]
      exact takeWhile_of_notMem hc
    · exact takeWhile_append_slash hc r
  rw [dotslashLoop, if_neg hne, getBetween2slashes_eq h0 htake]
  -- the branches in the order of the source
  by_cases hlong : 255 < c.length
  · rw [if_neg (by omega), if_pos hlong]
    rfl
  rw [if_pos (by omega), if_neg hlong]
  show (if c = [dot] then _ else if c = [] then _ else if c = [dot, dot] then _ else _) = _
  by_cases hdot : c = [dot]
  · subst hdot
    rw [if_pos rfl, if_pos (Or.inl rfl)]
    rcases hrest with rfl | ⟨r, rfl⟩ <;> rfl
  by_cases hnil : c = []
  · subst hnil
    rw [if_neg hdot, if_pos rfl, if_pos (Or.inr rfl)]
    rfl
  rw [if_neg hdot, if_neg hnil, if_neg (by tauto : ¬(c = [dot] ∨ c = []))]
  by_cases hdots : c = [dot, dot]
  · subst hdots
    rw [if_pos rfl, if_pos rfl]
    rcases hrest with rfl | ⟨r, rfl⟩ <;> rfl
  rw [if_neg hdots, if_neg hdots, List.drop_left' rfl]
  rcases hrest with rfl | ⟨r, rfl⟩
  · rw [if_pos rfl, List.append_nil]
    rfl
  · rw [if_neg (List.cons_ne_nil slash r), Cursor.putAll_append, bind_assoc]
    simp only [Cursor.putAll_singleton]
    rfl

theorem notMem_append_slash (h : 0 ∉ c) : 0 ∉ c ++ [slash] := by
  intro hmem
  rcases List.mem_append.mp hmem with hmem | hmem
  · exact h hmem
  · exact absurd (List.mem_singleton.mp hmem) (by decide)

/-- **The end of the main loop**: the path, without its last slash where the last component has
none. -/
structure Ends (size : Nat) (base : Chars) (front : Bool) (ds : List (List UInt8))
    (s : Cursor UInt8) : Prop where
  names : Names front ds
  fits : (flat ds).length ≤ size
  text : Writes size base (flat ds) s ∨
    ∃ t x, x ≠ slash ∧ Writes size base (t ++ [x]) s ∧ flat ds = t ++ [x] ++ [slash]

/-- **The main loop walks along the components.** -/
theorem dotslashLoop_gives (hfront : base (-1) = slash ↔ front = true) (h0 : 0 ∉ input)
    (hw : Writes size base (flat ds) s) (hn : Names front ds) (hsize : (flat ds).length ≤ size)
    (hwalk : walk front size ds (components input) = some ds') :
    Gives (dotslashLoop size fuel n s input) (input.length < n ∧ size ≤ fuel)
      (Ends size base front ds') := by
  -- on the rounds; each of them makes the input shorter, and `flat ds` is what is written so far
  induction n generalizing s ds input with
  | zero => exact Or.inr ⟨rfl, fun h => Nat.not_lt_zero _ h.1⟩
  | succ n ih =>
    by_cases hne : input = []
    · subst hne
      rw [components_nil] at hwalk
      obtain rfl := Option.some.inj hwalk
      exact Or.inl ⟨s, dotslashLoop_nil .., hn, hsize, Or.inl hw⟩
    obtain ⟨c, rest, hpart⟩ := exists_part h0 hne
    have h0d := hpart.noNul_drop
    have hshort := hpart.length_drop_lt
    rw [dotslashLoop_round hpart]
    rw [hpart.components_eq] at hwalk
    by_cases hnil : c = []
    · -- one more slash of a run
      rw [if_pos hnil, List.nil_append] at hwalk
      rw [if_neg (by simp [hnil]), if_pos (Or.inr hnil)]
      exact (ih h0d hw hn hsize hwalk).mono (fun h => ⟨by omega, h.2⟩) fun _ => id
    rw [if_neg hnil, List.singleton_append, walk] at hwalk
    split_ifs at hwalk with hlong hdot hdots hover
    · -- `.`
      rw [if_neg hlong, if_pos (Or.inl hdot)]
      exact (ih h0d hw hn hsize hwalk).mono (fun h => ⟨by omega, h.2⟩) fun _ => id
    · -- `..`
      obtain ⟨ds₁, hup, hwalk⟩ := Option.bind_eq_some_iff.mp hwalk
      have hsize₁ : (flat ds₁).length ≤ size := (length_flat_up hup).trans hsize
      rw [if_neg hlong, if_neg (by tauto), if_pos hdots]
      refine (parentDir_gives hw hn hfront hsize hup).bind And.right fun s₁ hw₁ => ?_
      exact (ih h0d hw₁ (hn.up hup) hsize₁ hwalk).mono (fun h => ⟨by omega, h.2⟩) fun _ => id
    · -- a name
      have hsum := length_flat_append ds c
      rw [if_neg hlong, if_neg (by tauto), if_neg hdots]
      have hc := hpart.noSlash
      rcases hpart.behind with rfl | ⟨r, rfl⟩
      · -- the last one, which has no slash behind it yet
        rw [List.drop_nil, components_nil] at hwalk
        obtain rfl := Option.some.inj hwalk
        obtain ⟨t, x, rfl⟩ := (List.eq_nil_or_concat c).resolve_left hnil
        rw [List.concat_eq_append] at *
        rw [if_pos rfl, List.append_nil]
        obtain ⟨s₁, hs₁, hw₁⟩ := hw.putAll (t ++ [x]) (by omega) hpart.noNul
        rw [hs₁]
        show Gives (dotslashLoop size fuel n s₁ []) _ _
        cases n with
        | zero => exact Or.inr ⟨rfl, fun h => hne (List.length_eq_zero_iff.mp (by omega))⟩
        | succ n =>
          refine Or.inl ⟨s₁, dotslashLoop_nil .., hn.append hc, by omega, Or.inr ?_⟩
          refine ⟨flat ds ++ t, x, ?_, by rwa [List.append_assoc], ?_⟩
          · rintro rfl
            exact hc (by simp)
          · rw [flat_append]
            simp only [List.append_assoc]
      · rw [if_neg (List.cons_ne_nil slash r)]
        obtain ⟨s₁, hs₁, hw₁⟩ := hw.putAll (c ++ [slash])
          (by rw [List.length_append, List.length_singleton]; omega)
          (notMem_append_slash hpart.noNul)
        rw [← flat_append] at hw₁
        rw [hs₁]
        rw [← hpart.components_dropWhile] at hwalk
        have hlt := hpart.length_dropWhile_lt
        have hrest := ih hpart.noNul_dropWhile hw₁ (hn.append hc) (by omega) hwalk
        exact hrest.mono (fun h => ⟨by omega, h.2⟩) fun _ => id

/-- **A pointer in front of the array** stays there, up to the first store. -/
theorem dotslashLoop_below {β : Type} {f : Cursor UInt8 → Run β}
    (hf : ∀ s, s.pos < 0 → f s = .error .outside) (h0 : 0 ∉ input) (hpos : s.pos < 0)
    (hcells : Adverse s.cells) (hn : input.length < n) (hfuel : 0 < fuel) :
    dotslashLoop size fuel n s input >>= f = .error .outside := by
  -- the pointer only goes back, and the memory is not changed
  induction n generalizing s input with
  | zero => exact absurd hn (Nat.not_lt_zero _)
  | succ n ih =>
    by_cases hne : input = []
    · subst hne
      rw [dotslashLoop_nil]
      exact hf s hpos
    obtain ⟨c, rest, hpart⟩ := exists_part h0 hne
    have h0d := hpart.noNul_drop
    have hshort := Nat.lt_of_lt_of_le hpart.length_drop_lt (Nat.le_of_lt_succ hn)
    rw [dotslashLoop_round hpart]
    split_ifs with hlong hskip hdots hlast
    · rfl
    · exact ih h0d hpos hcells hshort
    · -- the next slash is the first that is looked at
      have hfind : findBack s.cells slash fuel (s.pos - 2) = .ok (s.pos - 2) := by
        obtain ⟨k, rfl⟩ := Nat.exists_eq_succ_of_ne_zero (Nat.ne_of_gt hfuel)
        exact if_pos (hcells _ (by omega))
      rw [parentDir, if_neg (by omega), hfind, bind_assoc]
      exact ih h0d (show s.pos - 2 + 1 < 0 by omega) hcells hshort
    · -- the first character of a name is stored in front of the array
      obtain ⟨x, c', rfl⟩ := List.exists_cons_of_ne_nil fun hnil => hskip (Or.inr hnil)
      rw [bind_assoc, List.append_nil, Cursor.putAll_cons]
      exact bind_outside (bind_outside (Cursor.put_outside (Or.inl hpos) x) _) _
    · obtain ⟨x, c', rfl⟩ := List.exists_cons_of_ne_nil fun hnil => hskip (Or.inr hnil)
      rw [bind_assoc, List.cons_append, Cursor.putAll_cons]
      exact bind_outside (bind_outside (Cursor.put_outside (Or.inl hpos) x) _) _

/-- **A walk that does not get through** leaves the array. -/
theorem dotslashLoop_outside {β : Type} {f : Cursor UInt8 → Run β}
    (hf : ∀ s, s.pos < 0 ∨ (size : Int) ≤ s.pos → f s = .error .outside)
    (hfront : base (-1) = slash ↔ front = true) (hbase : Adverse base) (h0 : 0 ∉ input)
    (hw : Writes size base (flat ds) s) (hnames : Names front ds) (hsize : (flat ds).length ≤ size)
    (hwalk : walk front size ds (components input) = none) (hn : input.length < n)
    (hfuel : size < fuel) : dotslashLoop size fuel n s input >>= f = .error .outside := by
  induction n generalizing s ds input with
  | zero => exact absurd hn (Nat.not_lt_zero _)
  | succ n ih =>
    by_cases hne : input = []
    · -- a walk along no component gets through
      subst hne
      rw [components_nil] at hwalk
      cases hwalk
    obtain ⟨c, rest, hpart⟩ := exists_part h0 hne
    have h0c := hpart.noNul
    have h0d := hpart.noNul_drop
    have hshort := Nat.lt_of_lt_of_le hpart.length_drop_lt (Nat.le_of_lt_succ hn)
    rw [dotslashLoop_round hpart]
    rw [hpart.components_eq] at hwalk
    by_cases hnil : c = []
    · rw [if_pos hnil, List.nil_append] at hwalk
      rw [if_neg (by simp [hnil]), if_pos (Or.inr hnil)]
      exact ih h0d hw hnames hsize hwalk hshort
    rw [if_neg hnil, List.singleton_append, walk] at hwalk
    split_ifs at hwalk with hlong hdot hdots hover
    · -- the component does not fit `temp_output`
      rw [if_pos hlong]
      rfl
    · rw [if_neg hlong, if_pos (Or.inl hdot)]
      exact ih h0d hw hnames hsize hwalk hshort
    · rw [if_neg hlong, if_neg (by tauto), if_pos hdots, bind_assoc]
      cases hup : up front ds with
      | none =>
        -- the pointer leaves the array here
        obtain ⟨s₁, hs₁, hcells, hpos⟩ := parentDir_below hw hnames hfront hbase hsize hup hfuel
        rw [hs₁]
        refine dotslashLoop_below (fun s hs => hf s (Or.inl hs)) h0d hpos (fun z hz => ?_) hshort
          (by omega)
        rw [hcells, hw.outside z (Or.inl (by omega))]
        exact hbase z hz
      | some ds₁ =>
        rw [hup, Option.bind_some] at hwalk
        have hsize₁ : (flat ds₁).length ≤ size := (length_flat_up hup).trans hsize
        exact (parentDir_gives hw hnames hfront hsize hup).bind_outside hfuel.le fun s₁ hw₁ =>
          ih h0d hw₁ (hnames.up hup) hsize₁ hwalk hshort
    · -- the name does not fit, or the NUL behind it does not
      have hsum := length_flat_append ds c
      rw [if_neg hlong, if_neg (by tauto), if_neg hdots, bind_assoc]
      rcases hpart.behind with rfl | ⟨r, rfl⟩
      · rw [if_pos rfl, List.append_nil]
        rcases Nat.lt_or_ge size ((flat ds).length + c.length) with hgt | hle
        · exact bind_outside (hw.putAll_outside hsize hgt h0c) _
        · -- the array is full, and what follows leaves it
          obtain ⟨s₁, hs₁, hw₁⟩ := hw.putAll c hle h0c
          have hpos := hw₁.pos
          rw [List.length_append] at hpos
          obtain ⟨n, rfl⟩ := Nat.exists_eq_succ_of_ne_zero (Nat.ne_of_gt (Nat.zero_lt_of_lt hshort))
          rw [hs₁]
          show (dotslashLoop size fuel (n + 1) s₁ [] >>= f) = _
          rw [dotslashLoop_nil]
          exact hf s₁ (Or.inr (by omega))
      · rw [if_neg (List.cons_ne_nil slash r)]
        refine bind_outside (hw.putAll_outside hsize ?_ (notMem_append_slash h0c)) _
        rw [List.length_append, List.length_singleton]
        omega
    · -- it fits
      have hsum := length_flat_append ds c
      rw [if_neg hlong, if_neg (by tauto), if_neg hdots, bind_assoc]
      rcases hpart.behind with rfl | ⟨r, rfl⟩
      · rw [List.drop_nil, components_nil] at hwalk
        cases hwalk
      · rw [if_neg (List.cons_ne_nil slash r)]
        obtain ⟨s₁, hs₁, hw₁⟩ := hw.putAll (c ++ [slash])
          (by rw [List.length_append, List.length_singleton]; omega)
          (notMem_append_slash hpart.noNul)
        rw [← flat_append] at hw₁
        rw [hs₁]
        rw [← hpart.components_dropWhile] at hwalk
        exact ih hpart.noNul_dropWhile hw₁ (hnames.append hpart.noSlash) (by omega) hwalk
          (hpart.length_dropWhile_lt.trans_le (Nat.le_of_lt_succ hn))

/-! ### The end and the start -/

theorem slashBehind_outside (h : s.pos < 0 ∨ (size : Int) ≤ s.pos) :
    slashBehind size s = .ok s ∨ slashBehind size s = .error .outside := by
  rw [slashBehind]
  split
  · exact Or.inl rfl
  · exact Or.inr (Cursor.put_outside h slash)

theorem finish_outside (d : Int) (h : s.pos < 0 ∨ (size : Int) ≤ s.pos) :
    finish size d s = .error .outside := by
  rw [finish]
  split
  · rcases slashBehind_outside h with hs | hs
    · rw [hs]
      exact store_outside h
    · exact bind_outside hs _
  · exact store_outside h

/-- A name gets a slash behind it. -/
theorem slashBehind_name {x : UInt8} (hw : Writes size base (text ++ [x]) s) (hx : x ≠ slash) :
    slashBehind size s = s.put size slash := by
  refine if_neg ?_
  have hcell := hw.written text.length (by simp)
  rw [List.getElem_concat_length rfl] at hcell
  have hpos := hw.pos
  rw [List.length_append, List.length_singleton] at hpos
  rw [show s.pos - 1 = (text.length : Int) by omega, hcell]
  exact hx

/-- What is in front of the pointer behind a path of names. -/
theorem cells_flat (hw : Writes size base (flat ds) s) (hn : Names front ds)
    (hfront : base (-1) = slash ↔ front = true) : s.cells (s.pos - 1) = slash := by
  rcases List.eq_nil_or_concat ds with rfl | ⟨init, e, rfl⟩
  · -- without a name it is the character in front of the array
    have hpos : s.pos = 0 := hw.pos
    rw [hpos, hw.outside _ (Or.inl (by decide))]
    exact hfront.mpr (hn.ne_nil rfl)
  · obtain ⟨t, ht⟩ := @getLast_flat init e
    rw [List.concat_eq_append] at hw
    have hlast := cells_last hw ht
    rwa [hw.pos]

/-- The string is terminated where there is room. -/
theorem store_nul_or (hw : Writes size base text s) :
    (text.length < size →
      ∃ cells, store size s.cells s.pos 0 = .ok cells ∧ Holds size base text cells) ∧
      (size ≤ text.length → store size s.cells s.pos 0 = .error .outside) := by
  have hpos := hw.pos
  exact ⟨hw.store_nul, fun h => store_outside (by omega)⟩

/-- The text of a path: with `d = 1` it ends in a slash. -/
def IsText (d : Int) (ds : List (List UInt8)) (text : List UInt8) : Prop :=
  text = flat ds ∨ d ≠ 1 ∧ text ≠ [] ∧ text ++ [slash] = flat ds

/-- **The end of the path.** -/
theorem finish_ends (d : Int) (he : Ends size base front ds s)
    (hfront : base (-1) = slash ↔ front = true) :
    ∃ text, IsText d ds text ∧
      (text.length < size → ∃ cells, finish size d s = .ok cells ∧ Holds size base text cells) ∧
      (size ≤ text.length → finish size d s = .error .outside) := by
  rcases he.text with hw | ⟨t, x, hx, hw, hflat⟩
  · -- there is a slash
    have hslash : slashBehind size s = .ok s := if_pos (cells_flat hw he.names hfront)
    refine ⟨flat ds, Or.inl rfl, ?_⟩
    have hstore : finish size d s = store size s.cells s.pos 0 := by
      rw [finish, hslash]
      split <;> rfl
    rw [hstore]
    exact store_nul_or hw
  by_cases hd : d = 1
  · -- one is added
    have hlen := congrArg List.length hflat
    simp only [List.length_append, List.length_singleton] at hlen
    have hfits := he.fits
    obtain ⟨s₁, hput, hw₁⟩ := hw.put (by rw [List.length_append, List.length_singleton]; omega)
      (show slash ≠ 0 by decide)
    rw [← hflat] at hw₁
    have hstore : finish size d s = store size s₁.cells s₁.pos 0 := by
      rw [finish, if_pos hd, slashBehind_name hw hx, hput]
      rfl
    rw [hstore]
    exact ⟨flat ds, Or.inl rfl, store_nul_or hw₁⟩
  · -- the last name stays as it is
    have hstore : finish size d s = store size s.cells s.pos 0 := by
      rw [finish, if_neg hd]
      rfl
    rw [hstore]
    exact ⟨t ++ [x], Or.inr ⟨hd, by simp, hflat.symm⟩, store_nul_or hw⟩

/-- What `getCWD` and `getPATH` store of a value in an array of `count` characters. -/
def valueCopy (count : Nat) : Option (List UInt8) → List UInt8
  | none => []
  | some value => if value.length + 1 < count then value ++ [0] else value.take count

variable {value : List UInt8} {junk cells : Chars} {count : Nat}

/-- Behind what is stored an array stays as it was. -/
theorem filled_other {bytes : List UInt8} (h : filled count (some bytes) junk = .ok cells) {z : Int}
    (hz : bytes.length ≤ z) : cells z = junk z := by
  rw [filled] at h
  cases hs : Cursor.putAll count ⟨junk, 0⟩ bytes with
  | error e =>
    rw [hs] at h
    cases h
  | ok s =>
    rw [hs] at h
    obtain rfl := Except.ok.inj h
    exact Cursor.putAll_other (Or.inr (by simpa using hz)) hs

/-- A value that fits with its NUL. -/
theorem filled_value (h0 : 0 ∉ value) (hcount : value.length + 1 < count) (junk : Chars) :
    ∃ cells, filled count (some (valueCopy count (some value))) junk = .ok cells ∧
      Holds count junk value cells := by
  obtain ⟨s, hs, hw⟩ := (Writes.start count junk).putAll value (by rw [List.length_nil]; omega) h0
  rw [List.nil_append] at hw
  obtain ⟨cells, hstore, hholds⟩ := hw.store_nul (by omega)
  refine ⟨cells, ?_, hholds⟩
  rw [filled, valueCopy, if_pos hcount, Cursor.putAll_append, hs]
  show Except.map Cursor.cells (s.putAll count [0]) = _
  rw [Cursor.putAll_singleton, Cursor.put, hstore]
  rfl

/-- A value that does not, or none: what is there of it is not terminated. -/
theorem filled_open {val : Option (List UInt8)}
    (h : ∀ v, val = some v → 0 ∉ v ∧ count ≤ v.length + 1) (junk : Chars) :
    ∃ cells, filled count (some (valueCopy count val)) junk = .ok cells ∧
      (∀ k (hk : k < ((val.getD []).take count).length), cells k = ((val.getD []).take count)[k]) ∧
      ∀ z : Int, ((val.getD []).take count).length ≤ z → cells z = junk z := by
  -- in both cases the first characters of the value are stored, and no NUL
  have hcopy : valueCopy count val = (val.getD []).take count := by
    cases val with
    | none => rw [valueCopy, Option.getD_none, List.take_nil]
    | some v =>
      have := (h v rfl).2
      rw [valueCopy, if_neg (by omega), Option.getD_some]
  have h0 : 0 ∉ (val.getD []).take count := by
    intro hmem
    cases val with
    | none => simp at hmem
    | some v => exact (h v rfl).1 (List.mem_of_mem_take hmem)
  obtain ⟨s, hs, hw⟩ := (Writes.start count junk).putAll ((val.getD []).take count)
    (by rw [List.length_nil, Nat.zero_add]; exact List.length_take_le _ _) h0
  rw [List.nil_append] at hw
  have hfilled : filled count (some (valueCopy count val)) junk = .ok s.cells := by
    rw [filled, hcopy, hs]
    rfl
  refine ⟨s.cells, hfilled, hw.written, fun z hz => filled_other hfilled ?_⟩
  rwa [hcopy]

/-- **The copy of the current directory.** -/
theorem cwdLoop_gives {cells : Chars} {i : Nat} (h0 : 0 ∉ value)
    (hcells : ∀ k (hk : k < value.length), cells (i + k : Nat) = value[k])
    (hend : cells (i + value.length : Nat) = 0) (hw : Writes size base text s)
    (hsize : text.length + value.length ≤ size) :
    Gives (cwdLoop size cells n i s) (value.length < n) (Writes size base (text ++ value)) := by
  induction value generalizing n i s text with
  | nil =>
    cases n with
    | zero => exact Or.inr ⟨rfl, Nat.not_lt_zero _⟩
    | succ n =>
      rw [List.append_nil]
      exact Or.inl ⟨s, if_pos hend, hw⟩
  | cons c value ih =>
    cases n with
    | zero => exact Or.inr ⟨rfl, Nat.not_lt_zero _⟩
    | succ n =>
      have hc : cells i = c := hcells 0 (Nat.succ_pos _)
      have hc0 : c ≠ 0 := Ne.symm (List.ne_of_not_mem_cons h0)
      rw [List.length_cons] at hsize hend
      obtain ⟨s₁, hput, hw₁⟩ := hw.put (by omega) hc0
      have hrest := ih (n := n) (i := i + 1) (List.not_mem_of_not_mem_cons h0)
        (fun k hk => by
          rw [show i + 1 + k = i + (k + 1) by omega]
          exact hcells (k + 1) (Nat.succ_lt_succ hk))
        (by rwa [show i + 1 + value.length = i + (value.length + 1) by omega]) hw₁
        (by rw [List.length_append, List.length_singleton]; omega)
      rw [List.append_assoc, List.singleton_append] at hrest
      rw [cwdLoop, hc, if_neg hc0, hput]
      exact hrest.mono (fun hn => by simpa using hn) fun _ => id

/-- A directory that is not terminated fills the array. -/
theorem cwdLoop_outside {cells : Chars} {i : Nat} (hcells : ∀ z : Int, 0 ≤ z → cells z ≠ 0)
    (hw : Writes size base text s) (hle : text.length ≤ size) (hn : size < text.length + n) :
    cwdLoop size cells n i s = .error .outside := by
  induction n generalizing i s text with
  | zero => omega
  | succ n ih =>
    have hc := hcells i (by omega)
    have hpos := hw.pos
    rw [cwdLoop, if_neg hc]
    -- one more character, or the array is full
    rcases Nat.lt_or_ge text.length size with hlt | hge
    · obtain ⟨s₁, hput, hw₁⟩ := hw.put hlt hc
      rw [hput]
      exact ih hw₁ (by rw [List.length_append, List.length_singleton]; omega)
        (by rw [List.length_append, List.length_singleton]; omega)
    · exact bind_outside (Cursor.put_outside (by omega) _) _

/-! ### remove_dotslash -/

/-- What is known of a program's memory: `getCWD` finds `cwd` there. -/
structure HasCwd (m : UserMem) (cwd : Option (List UInt8)) : Prop where
  copy : getCWD m 256 = some (valueCopy 256 cwd)
  noNul : ∀ v, cwd = some v → 0 ∉ v

variable {m : UserMem} {dir : Option (List UInt8)}

/-- A path has the components of what is behind its first slash. -/
theorem components_drop_slash (h : src.getD 0 0 = slash) :
    components (src.drop 1) = components src := by
  cases src with
  | nil => exact absurd h (by decide)
  | cons x rest => rw [show x = slash from h, components_slash, List.drop_one, List.tail_cons]

/-- **The slash behind the current directory.** -/
theorem slashBehind_cwd (hw : Writes size base cwd s)
    (hfront : base (-1) = slash ↔ front = true) (hsize : cwd.length < size) :
    Gives (slashBehind size s) True (Writes size base (flat (cwdNames front cwd))) := by
  have hslash : slash ≠ 0 := by decide
  rw [flat_cwdNames]
  rcases List.eq_nil_or_concat cwd with rfl | ⟨t, x, rfl⟩
  · -- what is in front of the array decides
    have hpos : s.pos = 0 := hw.pos
    have hcell : s.cells (s.pos - 1) = base (-1) := by
      rw [hpos]
      exact hw.outside _ (Or.inl (by decide))
    rw [if_pos rfl, slashBehind, hcell]
    cases front with
    | true =>
      rw [if_pos (hfront.mpr rfl)]
      exact Gives.pure hw
    | false =>
      rw [if_neg fun hc => absurd (hfront.mp hc) (by decide)]
      obtain ⟨s₁, hput, hw₁⟩ := hw.put hsize hslash
      rw [hput]
      exact Gives.pure hw₁
  · rw [List.concat_eq_append] at *
    rw [if_neg (by simp), List.getLast?_concat]
    by_cases hx : x = slash
    · subst hx
      have hlast := cells_last hw rfl
      rw [← hw.pos] at hlast
      rw [if_pos rfl, slashBehind, if_pos hlast]
      exact Gives.pure hw
    · rw [if_neg fun hc => hx (Option.some.inj hc), slashBehind_name hw hx]
      obtain ⟨s₁, hput, hw₁⟩ := hw.put hsize hslash
      rw [hput]
      exact Gives.pure hw₁

theorem length_flat_cwdNames (front : Bool) (cwd : List UInt8) :
    (flat (cwdNames front cwd)).length ≤ cwd.length + 1 := by
  rw [flat_cwdNames]
  split_ifs
  · exact Nat.zero_le _
  · exact Nat.le_add_left _ _
  · exact Nat.le_succ _
  · rw [List.length_append, List.length_singleton]

/-- **The start of the path.** -/
theorem startPath_gives (hdir : HasCwd m dir) (h0 : 0 ∉ src)
    (hfront : base (-1) = slash ↔ front = true) (hsize : 256 ≤ size)
    (hstart : startNames front dir src = some ds) (junk : Chars) :
    Gives (startPath m size fuel junk base src) (size ≤ fuel) fun r =>
      Writes size base (flat ds) r.1 ∧ Names front ds ∧ (flat ds).length ≤ size ∧
        components r.2 = components src ∧ 0 ∉ r.2 ∧ r.2.length ≤ src.length := by
  rw [startNames] at hstart
  rw [startPath]
  split_ifs at hstart with habs
  · -- an absolute path
    obtain rfl := Option.some.inj hstart
    obtain ⟨s, hput, hw⟩ := (Writes.start size base).put (by rw [List.length_nil]; omega)
      (show slash ≠ 0 by decide)
    rw [if_pos habs, hput]
    refine Or.inl ⟨_, rfl, hw, ⟨by simp, fun hc => absurd hc (by simp)⟩, ?_,
      components_drop_slash habs, fun h => h0 (List.mem_of_mem_drop h), by simp⟩
    show 1 ≤ size
    omega
  · -- the current directory, which is copied twice
    obtain ⟨cwd, rfl, hcwd⟩ := Option.bind_eq_some_iff.mp hstart
    split_ifs at hcwd with hlen
    obtain rfl := Option.some.inj hcwd
    have hcwd0 := hdir.noNul cwd rfl
    obtain ⟨cells, hfilled, hholds⟩ := filled_value hcwd0 (by omega : cwd.length + 1 < 256) junk
    have hcopy : Gives (cwdLoop size cells fuel 0 ⟨base, 0⟩) (size ≤ fuel)
        (Writes size base cwd) := by
      have := cwdLoop_gives (n := fuel) (i := 0) hcwd0
        (fun k hk => by rw [Nat.zero_add]; exact hholds.written k hk)
        (by rw [Nat.zero_add]; exact hholds.nul) (Writes.start size base)
        (by rw [List.length_nil]; omega)
      rw [List.nil_append] at this
      exact this.mono (fun h => by omega) fun _ => id
    have hflat := length_flat_cwdNames front cwd
    rw [if_neg habs, hdir.copy, hfilled]
    have hrest : ∀ s, Writes size base cwd s → Gives (slashBehind size s >>= fun s => .ok (s, src))
        (size ≤ fuel) fun r => Writes size base (flat (cwdNames front cwd)) r.1 ∧
          Names front (cwdNames front cwd) ∧ (flat (cwdNames front cwd)).length ≤ size ∧
          components r.2 = components src ∧ 0 ∉ r.2 ∧ r.2.length ≤ src.length := by
      intro s hw
      exact (slashBehind_cwd hw hfront (by omega)).bind (fun _ => trivial) fun s hw =>
        Gives.pure ⟨hw, cwdNames_names front cwd, by omega, rfl, h0, le_refl _⟩
    exact hcopy.bind id hrest

/-- A directory that is missing or too long fills the array with what `cwd` has held before. -/
theorem startPath_outside (hdir : HasCwd m dir) (hstart : startNames front dir src = none)
    {junk : Chars} (hjunk : ∀ z, junk z ≠ 0) (hfuel : size < fuel) :
    startPath m size fuel junk base src = .error .outside := by
  rw [startNames] at hstart
  split_ifs at hstart with habs
  have hlong : ∀ v, dir = some v → 0 ∉ v ∧ 256 ≤ v.length + 1 := by
    rintro v rfl
    refine ⟨hdir.noNul v rfl, ?_⟩
    rw [Option.bind_some] at hstart
    split_ifs at hstart
    omega
  obtain ⟨cells, hfilled, htext, hbehind⟩ := filled_open hlong junk
  -- the copy finds no NUL, neither in the value nor behind it
  have hcells : ∀ z : Int, 0 ≤ z → cells z ≠ 0 := by
    intro z hz
    obtain ⟨k, rfl⟩ := Int.eq_ofNat_of_zero_le hz
    rcases Nat.lt_or_ge k ((dir.getD []).take 256).length with hlt | hge
    · rw [htext k hlt]
      intro hc
      have hmem : 0 ∈ dir.getD [] := List.mem_of_mem_take (hc ▸ List.getElem_mem hlt)
      cases dir with
      | none => cases hmem
      | some v => exact (hlong v rfl).1 hmem
    · rw [hbehind k (by exact_mod_cast hge)]
      exact hjunk _
  rw [startPath, if_neg habs, hdir.copy, hfilled]
  exact bind_outside (cwdLoop_outside hcells (Writes.start size base) (Nat.zero_le _)
    (by rw [List.length_nil]; omega)) _

section Dotslash

variable {junk : Chars} {d : Int}

theorem removeDotslash_eq : removeDotslash m size fuel junk base src d =
    (startPath m size fuel junk base src >>= fun r => dotslashLoop size fuel fuel r.1 r.2) >>=
      finish size d := by
  rw [bind_assoc]
  rfl

variable (hdir : HasCwd m dir) (h0 : 0 ∉ src) (hfront : base (-1) = slash ↔ front = true)
  (hsize : 256 ≤ size)
include hdir h0 hfront hsize

/-- Up to its end, `remove_dotslash` writes the absolute path. -/
theorem removeDotslash_ends (habs : absolute front size dir src = some ds) :
    Gives (startPath m size fuel junk base src >>= fun r => dotslashLoop size fuel fuel r.1 r.2)
      (src.length < fuel ∧ size ≤ fuel) (Ends size base front ds) := by
  obtain ⟨ds₀, hstart, hwalk⟩ := Option.bind_eq_some_iff.mp habs
  refine (startPath_gives hdir h0 hfront hsize hstart junk).bind And.right fun r hr => ?_
  obtain ⟨hw, hn, hlen, hcomp, h0r, hshort⟩ := hr
  rw [← hcomp] at hwalk
  exact (dotslashLoop_gives hfront h0r hw hn hlen hwalk).mono (fun h => ⟨by omega, h.2⟩) fun _ => id

/-- **`remove_dotslash` stays in its array**, for an absolute path with room for the NUL. -/
theorem removeDotslash_gives (habs : absolute front size dir src = some ds)
    (hlen : (flat ds).length < size) : Gives (removeDotslash m size fuel junk base src d)
      (src.length < fuel ∧ size ≤ fuel) fun cells => ∃ text, text.length < size ∧
        IsText d ds text ∧ Holds size base text cells := by
  rw [removeDotslash_eq]
  refine (removeDotslash_ends hdir h0 hfront hsize habs).bind id fun s hs => ?_
  obtain ⟨text, htext, hroom, -⟩ := finish_ends d hs hfront
  -- the text is the path, or the path without its last slash
  have hshort : text.length < size := by
    rcases htext with rfl | ⟨-, -, hflat⟩
    · exact hlen
    · rw [← hflat, List.length_append] at hlen
      omega
  obtain ⟨cells, hcells, hholds⟩ := hroom hshort
  exact Or.inl ⟨cells, hcells, text, hshort, htext, hholds⟩

/-- Whether there is room or not, memory in front and behind stays as it was. -/
theorem removeDotslash_halts (habs : absolute front size dir src = some ds)
    (hfuel : src.length < fuel ∧ size ≤ fuel) :
    removeDotslash m size fuel junk base src d = .error .outside ∨
      ∃ cells text, removeDotslash m size fuel junk base src d = .ok cells ∧
        IsText d ds text ∧ Holds size base text cells := by
  rw [removeDotslash_eq]
  obtain ⟨s, hs, hends⟩ := (removeDotslash_ends hdir h0 hfront hsize habs).exists_ok hfuel
  obtain ⟨text, htext, hroom, hfull⟩ := finish_ends d hends hfront
  rw [hs]
  rcases Nat.lt_or_ge text.length size with hlt | hge
  · obtain ⟨cells, hcells, hholds⟩ := hroom hlt
    exact Or.inr ⟨cells, text, hcells, htext, hholds⟩
  · exact Or.inl (hfull hge)

/-- With a slash at the end it has to fit. -/
theorem removeDotslash_full (habs : absolute front size dir src = some ds)
    (hlen : size ≤ (flat ds).length) (hfuel : src.length < fuel ∧ size ≤ fuel) :
    removeDotslash m size fuel junk base src 1 = .error .outside := by
  rw [removeDotslash_eq]
  refine (removeDotslash_ends hdir h0 hfront hsize habs).bind_outside hfuel fun s hs => ?_
  obtain ⟨text, htext, -, hfull⟩ := finish_ends 1 hs hfront
  rcases htext with rfl | ⟨hd, -⟩
  · exact hfull hlen
  · -- with `d = 1` no slash is left out
    exact absurd rfl hd

/-- **`remove_dotslash` leaves its array** where there is no absolute path of that length. -/
theorem removeDotslash_outside (habs : absolute front size dir src = none) (hbase : Adverse base)
    (hjunk : ∀ z, junk z ≠ 0) (hfuel : src.length < fuel ∧ size < fuel) :
    removeDotslash m size fuel junk base src d = .error .outside := by
  cases hstart : startNames front dir src with
  | none => exact bind_outside (startPath_outside hdir hstart hjunk hfuel.2) _
  | some ds₀ =>
    rw [absolute, hstart, Option.bind_some] at habs
    refine (startPath_gives hdir h0 hfront hsize hstart junk).bind_outside hfuel.2.le fun r hr => ?_
    obtain ⟨hw, hn, hlen, hcomp, h0r, hshort⟩ := hr
    rw [← hcomp] at habs
    exact dotslashLoop_outside (fun s hs => finish_outside d hs) hfront hbase h0r hw hn hlen habs
      (by omega) hfuel.2

end Dotslash

end PathBuffers

end Sbunix
