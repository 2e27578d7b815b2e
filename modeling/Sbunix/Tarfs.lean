import Sbunix.Defs
import Sbunix.Lib.Slice

/-!
# The archive

Files live in a tar archive that is part of the kernel image. `sys/tarfs.c` searches it header by
header, for a name that it makes out of a path and the current directory, and reads a file up to
the first NUL byte.

C strings are lists of bytes other than NUL. The archive is part of the kernel image, which does
not change; here memory is what lies at the kernel's virtual addresses. A function returns `none`
where the C code does not come back or leaves its buffers.

* `Laid` — a stretch of memory is an archive with given entries;
* `getFileAddress_laid` — what a search finds in it;
* `memread_append` — consecutive reads are one long read.
-/

namespace Sbunix

open ByteMem

/-- The archive: `BINARY_TARFS_START` and `BINARY_TARFS_END`. -/
structure Archive where
  start : Nat
  finish : Nat
  deriving DecidableEq, Repr

/-! ### Strings -/

/-- `strcmp(s, file) == 0`, for a string in memory. -/
def strcmp (m : Mem) (s : Nat) : List UInt8 → Bool
  | [] => m s == 0
  | c :: file => m s == c && strcmp m (s + 1) file

/-- A character as the C `char` it is. -/
def charInt (c : UInt8) : Int := Int.bmod c.toNat 256

/-- `toInteger`: octal digits up to the NUL byte. The bound is the size of a header. -/
def toInteger (m : Mem) : Nat → Nat → Int → Int
  | 0, _, num => num
  | fuel + 1, s, num =>
    if m s ≠ 0 then toInteger m fuel (s + 1) ((num * 8 + (charInt (m s) - 48)).bmod (2 ^ 32))
    else num

/-- The field `size` of the header at `a`. -/
def entrySize (m : Mem) (a : Nat) : Int := toInteger m 512 (a + 124) 0

/-- The size rounded up to blocks. -/
def blockedSize (size : Int) : Int :=
  let residue := size.tmod 512
  if 0 < residue then (size + (512 - residue)).bmod (2 ^ 32) else size

/-! ### Searching -/

/-- The loop of `get_file_address` and `get_dir_address`: the header where it ends, and whether
`file` has been found there. -/
def searchArchive (m : Mem) (finish : Nat) (file : List UInt8) : Nat → Nat → Option (Nat × Bool)
  | 0, _ => none
  | fuel + 1, pointer =>
    if pointer < finish then
      if strcmp m pointer file then some (pointer, true)
      else searchArchive m finish file fuel
        (((pointer : Int) + blockedSize (entrySize m pointer) + 512) % 2 ^ 64).toNat
    else some (pointer, false)

/-- A bound on the rounds of the search: every header is another block. -/
def Archive.fuel (ar : Archive) : Nat := ar.finish / 512 + 1

/-- `get_file_address`; 0 means that there is no such file. -/
def getFileAddress (m : Mem) (ar : Archive) (file : List UInt8) : Option Nat :=
  (searchArchive m ar.finish file ar.fuel ar.start).map fun r =>
    let size := entrySize m r.1
    if 0 < size ∧ r.2 then r.1 + 512 else if size = 0 ∧ r.2 then r.1 else 0

/-- `get_dir_address`. -/
def getDirAddress (m : Mem) (ar : Archive) (dir : List UInt8) : Option Nat :=
  (searchArchive m ar.finish dir ar.fuel ar.start).map fun r =>
    if entrySize m r.1 = 0 ∧ r.2 then r.1 else 0

/-! ### Paths -/

/-- `'/'`. -/
def slash : UInt8 := 0x2F

/-- `'.'`. -/
def dot : UInt8 := 0x2E

/-- `..`: the output pointer goes back to the character after the last slash but one. -/
def parentPath (out : List UInt8) : Option (List UInt8) :=
  match out with
  | [] => none
  | [c] => some [c]
  | _ =>
    -- without a slash the pointer would leave the buffer
    let before := (out.take (out.length - 1)).reverse.dropWhile (· != slash)
    if before = [] then none else some before.reverse

/-- The main loop of `remove_dotslash`. The output and every component have to fit into 256
bytes. -/
def removeDotslashLoop : Nat → List UInt8 → List UInt8 → Option (List UInt8)
  | 0, _, _ => none
  | fuel + 1, out, input =>
    if input = [] then some out
    else
      let component := input.takeWhile (· != slash)
      if 255 < component.length ∨ 255 < out.length then none
      else if component = [dot] then
        removeDotslashLoop fuel out (input.drop (if input.getD 1 0 = slash then 2 else 1))
      else if component = [] then removeDotslashLoop fuel out (input.drop 1)
      else if component = [dot, dot] then do
        let out ← parentPath out
        removeDotslashLoop fuel out (input.drop (if input.getD 2 0 = slash then 3 else 2))
      else
        let input := input.drop component.length
        if input.getD 0 0 = slash then
          removeDotslashLoop fuel (out ++ component ++ [slash]) (input.dropWhile (· == slash))
        else removeDotslashLoop fuel (out ++ component) input

/-- `if (*(output-1) != '/') { *output = '/'; output++; }`. -/
def endSlash (out : List UInt8) : Option (List UInt8) :=
  match out.getLast? with
  | none => none
  | some c => some (if c ≠ slash then out ++ [slash] else out)

/-- `remove_dotslash`: the absolute form of the path `src`; with `d = 1` it ends in a slash. -/
def removeDotslash (cwd src : List UInt8) (d : Int) : Option (List UInt8) := do
  let (out, input) ←
    if src.getD 0 0 = slash then some ([slash], src.drop 1)
    else (endSlash cwd).map (·, src)
  let out ← removeDotslashLoop (input.length + 1) out input
  let out ← if d = 1 then endSlash out else some out
  if 255 < out.length then none else some out

/-- The address and the name that `openFile` finds; the address 0 means none. -/
def resolveFile (m : Mem) (ar : Archive) (cwd file : List UInt8) : Option (Nat × List UInt8) := do
  let (start, name) ←
    if file = [slash] then some (ar.start, file)
    else do
      let path ← removeDotslash cwd file 0
      let start ← getFileAddress m ar (path.drop 1)
      some (start, path.drop 1)
  if start = 0 then do
    let path ← removeDotslash cwd file 1
    let start ← getFileAddress m ar (path.drop 1)
    some (start, path.drop 1)
  else some (start, name)

/-- The address and the name that `openDirectory` finds. -/
def resolveDir (m : Mem) (ar : Archive) (cwd dir : List UInt8) : Option (Nat × List UInt8) :=
  if dir = [slash] then some (ar.start, dir)
  else do
    let path ← removeDotslash cwd dir 1
    let start ← getDirAddress m ar (path.drop 1)
    some (start, path.drop 1)

/-! ### Reading -/

/-- `memread`: what is copied, up to the first NUL byte. -/
def memread (m : Mem) (src : Nat) : Nat → List UInt8
  | 0 => []
  | n + 1 => if m src ≠ 0 then m src :: memread m (src + 1) n else []

/-- **Consecutive reads** are one long read. -/
theorem memread_append (m : Mem) (src n k : Nat) :
    memread m src n ++ memread m (src + (memread m src n).length) k = memread m src (n + k) := by
  induction n generalizing src with
  | zero => rw [memread, List.nil_append, List.length_nil, Nat.add_zero, Nat.zero_add]
  | succ n ih =>
    rw [show n + 1 + k = n + k + 1 by omega, memread, memread]
    by_cases h : m src = 0
    · -- both reads end here
      rw [if_neg (not_not.mpr h), if_neg (not_not.mpr h), List.nil_append, List.length_nil,
        Nat.add_zero]
      cases k with
      | zero => rfl
      | succ k => rw [memread, if_neg (not_not.mpr h)]
    · rw [if_pos h, if_pos h, List.cons_append, List.length_cons,
        show src + ((memread m (src + 1) n).length + 1) =
          src + 1 + (memread m (src + 1) n).length by omega, ih]

/-! ### Well-formed archives -/

/-- A file of the archive. -/
structure Entry where
  name : List UInt8
  content : List UInt8

/-- The header of `e` at `a`. -/
structure Header (m : Mem) (a : Nat) (e : Entry) : Prop where
  name : strcmp m a e.name = true
  chars : ∀ c ∈ e.name, c ≠ 0
  nonempty : e.name ≠ []
  size : entrySize m a = e.content.length

/-- Up to the next block. -/
def padded (n : Nat) : Nat := (n + 511) / 512 * 512

/-- **The archive with the entries `es` lies at `a`**: headers, contents and zero bytes up to the
next block, and two blocks of zero bytes at least behind the last one. -/
def Laid (m : Mem) (finish : Nat) : Nat → List Entry → Prop
  | a, [] => a + 1024 ≤ finish ∧ ∀ x, a ≤ x → x < finish → m x = 0
  | a, e :: es => Header m a e ∧ slice m (a + 512) e.content.length = e.content ∧
      (∀ x, a + 512 + e.content.length ≤ x → x < a + 512 + padded e.content.length → m x = 0) ∧
      Laid m finish (a + 512 + padded e.content.length) es

variable {m : Mem} {ar : Archive} {finish a : Nat} {e : Entry} {es pre post : List Entry}
  {x y : List UInt8}

/-- One string at one address. -/
theorem strcmp_inj (hx : ∀ c ∈ x, c ≠ 0) (hy : ∀ c ∈ y, c ≠ 0) (h : strcmp m a x = true)
    (h' : strcmp m a y = true) : x = y := by
  induction x generalizing a y with
  | nil =>
    cases y with
    | nil => rfl
    | cons c y =>
      simp only [strcmp, Bool.and_eq_true, beq_iff_eq] at h h'
      exact absurd (h'.1.symm.trans h) (hy c List.mem_cons_self)
  | cons c x ih =>
    cases y with
    | nil =>
      simp only [strcmp, Bool.and_eq_true, beq_iff_eq] at h h'
      exact absurd (h.1.symm.trans h') (hx c List.mem_cons_self)
    | cons d y =>
      simp only [strcmp, Bool.and_eq_true, beq_iff_eq] at h h'
      rw [h.1.symm.trans h'.1, ih (fun b hb => hx b (List.mem_cons_of_mem c hb))
        (fun b hb => hy b (List.mem_cons_of_mem d hb)) h.2 h'.2]

/-- A header starts with a character. -/
theorem Header.first_ne_zero (h : Header m a e) : m a ≠ 0 := by
  obtain ⟨hname, hchars, hnil, -⟩ := h
  cases hcs : e.name with
  | nil => exact absurd hcs hnil
  | cons c cs =>
    rw [hcs] at hname hchars
    simp only [strcmp, Bool.and_eq_true, beq_iff_eq] at hname
    rw [hname.1]
    exact hchars c List.mem_cons_self

theorem le_padded (n : Nat) : n ≤ padded n := by
  unfold padded
  omega

theorem blockedSize_of_lt {n : Nat} (h : padded n < 2 ^ 31) : blockedSize n = padded n := by
  have hle := le_padded n
  unfold padded at hle h ⊢
  unfold blockedSize
  dsimp only
  rw [Int.tmod_eq_emod_of_nonneg (Int.natCast_nonneg n)]
  -- the last block is full, or it is filled up
  split
  · rw [Int.bmod_eq_of_le] <;> omega
  · omega

theorem Laid.lt (h : Laid m finish a es) : a + 1024 ≤ finish := by
  induction es generalizing a with
  | nil => exact h.1
  | cons e es ih =>
    have := ih h.2.2.2
    omega

/-- The length of the entries `es`. -/
def laidLength : List Entry → Nat
  | [] => 0
  | e :: es => 512 + padded e.content.length + laidLength es

/-- **The search** stops at the first entry with the name. -/
theorem searchArchive_laid {fuel : Nat} (h : Laid m finish a (pre ++ e :: post))
    (hk : kernbase ≤ a) (hf : finish < 2 ^ 64) (hfuel : (finish - a) / 512 < fuel)
    (hfirst : ∀ e' ∈ pre, e'.name ≠ e.name) :
    searchArchive m finish e.name fuel a = some (a + laidLength pre, true) ∧
      Laid m finish (a + laidLength pre) (e :: post) := by
  induction pre generalizing a fuel with
  | nil =>
    obtain ⟨fuel, rfl⟩ := Nat.exists_eq_succ_of_ne_zero (show fuel ≠ 0 by omega)
    have hlt := h.lt
    have hname := h.1.name
    rw [searchArchive, if_pos (by omega), if_pos hname]
    exact ⟨rfl, h⟩
  | cons e' pre ih =>
    obtain ⟨fuel, rfl⟩ := Nat.exists_eq_succ_of_ne_zero (show fuel ≠ 0 by omega)
    obtain ⟨hhead, -, -, hrest⟩ := h
    have hlt := Laid.lt hrest
    -- it would be the same name, and the first one with it
    have hne : ¬ strcmp m a e.name = true := fun hc => by
      have hL := (ih hrest (by omega) (show _ < (finish - a) / 512 + 1 by omega)
        fun e'' he => hfirst e'' (List.mem_cons_of_mem e' he)).2
      exact hfirst e' List.mem_cons_self (strcmp_inj hhead.chars hL.1.chars hhead.name hc)
    have hsize : padded e'.content.length < 2 ^ 31 := by
      unfold kernbase at hk
      omega
    -- the pointer steps over the header and the blocks of the file
    have hnext : (((a : Int) + blockedSize (entrySize m a) + 512) % 2 ^ 64).toNat =
        a + 512 + padded e'.content.length := by
      rw [hhead.size, blockedSize_of_lt hsize]
      omega
    obtain ⟨hs, hL⟩ := @ih _ fuel hrest (by omega) (by omega) fun e'' he =>
      hfirst e'' (List.mem_cons_of_mem e' he)
    have hadd : a + laidLength (e' :: pre) =
        a + 512 + padded e'.content.length + laidLength pre := by
      rw [laidLength]
      omega
    rw [searchArchive, if_pos (by omega), if_neg hne, hnext, hs, hadd]
    exact ⟨rfl, hL⟩

/-- **`get_file_address`** is the address of the content, but that of the header for an empty
file. -/
theorem getFileAddress_laid (h : Laid m ar.finish ar.start (pre ++ e :: post))
    (hk : kernbase ≤ ar.start) (hf : ar.finish < 2 ^ 64)
    (hfirst : ∀ e' ∈ pre, e'.name ≠ e.name) :
    ∃ a, ar.start ≤ a ∧ Laid m ar.finish a (e :: post) ∧
      getFileAddress m ar e.name = some (if e.content = [] then a else a + 512) := by
  obtain ⟨hs, hL⟩ := searchArchive_laid h hk hf
    (show (ar.finish - ar.start) / 512 < ar.fuel by unfold Archive.fuel; omega) hfirst
  refine ⟨_, Nat.le_add_right _ _, hL, ?_⟩
  rw [getFileAddress, hs, Option.map_some]
  simp only [hL.1.size, and_true]
  -- an empty file counts as a directory
  cases hc : e.content with
  | nil => simp
  | cons c rest =>
    rw [if_pos (by simp), if_neg (by simp)]

/-- What `openFile` finds by a name other than `/` is what the search finds. -/
theorem getFileAddress_of_resolveFile {cwd file name : List UInt8} {start : Nat}
    (h : resolveFile m ar cwd file = some (start, name)) (hname : name ≠ [slash]) :
    getFileAddress m ar name = some start := by
  -- the second try, with a slash at the end, is reached in two ways
  have hsecond : ((removeDotslash cwd file 1).bind fun path =>
      (getFileAddress m ar (path.drop 1)).bind fun start => some (start, path.drop 1)) =
      some (start, name) → getFileAddress m ar name = some start := fun h => by
    obtain ⟨path, -, h⟩ := Option.bind_eq_some_iff.mp h
    obtain ⟨start', hs, h⟩ := Option.bind_eq_some_iff.mp h
    obtain ⟨rfl, rfl⟩ := Prod.mk.inj (Option.some.inj h)
    exact hs
  unfold resolveFile at h
  simp only [Option.bind_eq_bind] at h
  split at h
  · simp only [Option.bind_some] at h
    split at h
    · exact hsecond h
    · next hf _ =>
      obtain ⟨-, rfl⟩ := Prod.mk.inj (Option.some.inj h)
      exact absurd hf hname
  · obtain ⟨path, -, h⟩ := Option.bind_eq_some_iff.mp h
    obtain ⟨start', hs, h⟩ := Option.bind_eq_some_iff.mp h
    simp only [Option.bind_some] at h
    split at h
    · exact hsecond h
    · obtain ⟨rfl, rfl⟩ := Prod.mk.inj (Option.some.inj h)
      exact hs

end Sbunix
