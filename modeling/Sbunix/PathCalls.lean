import Sbunix.PathBuffers

/-!
# Paths in system calls

`openFile`, `openDirectory`, `changeDirectory` and `exec` with every store that they make of a path
(`Call.run`). What the archive has, and what the arrays and the memory around them have held, is a
`World`; a call keeps inside its arrays if it does so in every world (`Inside`).

The search of `exec` in the directories of `PATH` goes on behind the array where nothing is found,
unless the value ends with a colon. A path that is made on the way is limited by its buffer, and the
path itself by the 15 characters of `exeName`.

* `strcpy_spec` — the name of a descriptor is terminated when the path is short enough;
* `searchLoop_gives`, `searchLoop_outside` — the search in `PATH`;
* `paths_inside_iff` — the four calls, for every path and every environment.
-/

namespace Sbunix

open Stores

namespace PathBuffers

/-! ### The code -/

/-- What a call finds beside its path and the environment: the archive, the contents of its arrays
and of the memory around them, and the name of the free descriptor, if there is one. -/
structure World where
  /-- `get_file_address` and `get_dir_address` -/
  find : List UInt8 → Nat
  /-- `loadFile` loads the file with this name. -/
  loads : List UInt8 → Bool
  /-- the array of the caller -/
  buffer : Chars
  /-- the arrays `cwd` of the first and of a second call of `remove_dotslash` -/
  cwd : Chars
  cwdAgain : Chars
  testfile : Chars
  slot : Option Chars
  /-- the record of the new task, from `exeName` on -/
  task : Chars

/-- The loop of `strcpy`, with `i + n = 256`; the result has the last `i`. -/
def strcpyLoop (src : Nat → UInt8) : Nat → Nat → Chars → Run (Chars × Nat)
  | 0, i, dest => .ok (dest, i)
  | n + 1, i, dest =>
    if src i = 0 then .ok (dest, i)
    else do
      let dest ← store 256 dest i (src i)
      strcpyLoop src n (i + 1) dest

/-- `strcpy(src, dest)` for a `dest` of 256 characters. -/
def strcpy (src : Nat → UInt8) (dest : Chars) : Run Chars := do
  let r ← strcpyLoop src 256 0 dest
  -- a name of 255 characters and more is left without its NUL
  if r.2 < 255 then store 256 r.1 r.2 (src r.2) else .ok r.1

/-- The name of the descriptor that is free. -/
def openSlot (w : World) (name : Nat → UInt8) : Run (Option Chars) :=
  match w.slot with
  | none => .ok none
  | some old => (strcpy name old).map some

def openFile (w : World) (m : UserMem) (fuel : Nat) (file : List UInt8) : Run (Option Chars) :=
  if file = [] then .ok none
  else if file = [slash] then openSlot w fun i => file.getD i 0
  else do
    let newFileName ← removeDotslash m 256 fuel w.cwd w.buffer file 0
    -- the archive has its names without the slash in front
    let fileName ← readString newFileName fuel 1
    if w.find fileName ≠ 0 then openSlot w fun i => newFileName (1 + i : Nat)
    else do
      -- directories have a slash at the end of their names
      let newFileName ← removeDotslash m 256 fuel w.cwdAgain newFileName file 1
      let fileName ← readString newFileName fuel 1
      if w.find fileName ≠ 0 then openSlot w fun i => newFileName (1 + i : Nat) else .ok none

def openDirectory (w : World) (m : UserMem) (fuel : Nat) (dir : List UInt8) : Run (Option Chars) :=
  if dir = [] then .ok none
  else if dir = [slash] then openSlot w fun i => dir.getD i 0
  else do
    let newDirName ← removeDotslash m 256 fuel w.cwd w.buffer dir 1
    let dirName ← readString newDirName fuel 1
    if w.find dirName ≠ 0 then openSlot w fun i => newDirName (1 + i : Nat) else .ok none

/-- `changeDirectory`, up to what it stores in the environment. -/
def changeDirectory (w : World) (m : UserMem) (fuel : Nat) (buf : List UInt8) :
    Run (Option Chars) := do
  let dest ← removeDotslash m 256 fuel w.cwd w.buffer buf 1
  let dirName ← readString dest fuel 1
  if w.find dirName = 0 then .ok none
  else do
    -- `getCWD` for the variable that the new directory is stored in
    let _ ← filled 256 (getCWD m 256) w.cwdAgain
    .ok none

/-- The copy of an entry of `PATH`. -/
def entryLoop (testfile : Chars) : Nat → Cursor UInt8 → Nat → Run (Cursor UInt8 × Nat)
  | 0, _, _ => .error .pending
  | n + 1, s, i =>
    if testfile i = colon ∨ testfile i = 0 then .ok (s, i)
    else do
      let s ← s.put 512 (testfile i)
      entryLoop testfile n s (i + 1)

/-- The slash and the name of the command behind an entry. -/
def joinName (filename : List UInt8) (s : Cursor UInt8) : Run Chars := do
  let s ← slashBehind 512 s
  let s ← s.putAll 512 filename
  store 512 s.cells s.pos 0

/-- The loop of `get_executable_path`. -/
def searchLoop (find : List UInt8 → Nat) (testfile : Chars) (filename : List UInt8) (fuel : Nat) :
    Nat → Chars → Nat → Run (Option (List UInt8))
  | 0, _, _ => .error .pending
  | n + 1, path, i =>
    if testfile i = 0 then .ok none
    else do
      let r ← entryLoop testfile fuel ⟨path, 0⟩ i
      let path ← joinName filename r.1
      let f ← readString path fuel 1
      -- `i++` goes past the colon, and past the NUL
      if find f = 0 then searchLoop find testfile filename fuel n path (r.2 + 1) else .ok (some f)

/-- `memset_file(path, 0, 512)`. -/
def cleared (path : Chars) : Chars := fun z => if 0 ≤ z ∧ z < 512 then 0 else path z

/-- `get_executable_path` with the array `path[512]` of `loadFile`. -/
def getExecutablePath (w : World) (m : UserMem) (fuel : Nat) (filename : List UInt8) :
    Run (Option (List UInt8)) :=
  if filename.getD 0 0 = slash then .ok (some (filename.drop 1))
  else do
    let path ← removeDotslash m 512 fuel w.cwd w.buffer filename 512
    let f ← readString path fuel 1
    if 0 < w.find f then .ok (some f)
    else do
      -- what `getPATH` does not store is as it was on the stack
      let testfile ← filled 512 (getPATH m 512) w.testfile
      searchLoop w.find testfile filename fuel fuel (cleared path) 0

/-- The copy of the path to `exeName[15]`. -/
def copyExeName (task : Chars) (path : List UInt8) : Run Chars := do
  let s ← Cursor.putAll 15 ⟨task, 0⟩ path
  store 15 s.cells s.pos 0

/-- `exec`: the file is loaded, and then the name of the new task is set. -/
def exec (w : World) (m : UserMem) (fuel : Nat) (path : List UInt8) : Run (Option Chars) := do
  match ← getExecutablePath w m fuel path with
  | none => .ok none
  | some file => if w.loads file then (copyExeName w.task path).map some else .ok none

/-- The calls that take a path. -/
inductive Call
  | exec
  | openFile
  | openDirectory
  | changeDirectory

def Call.run (w : World) (m : UserMem) (fuel : Nat) (path : List UInt8) :
    Call → Run (Option Chars)
  | .exec => PathBuffers.exec w m fuel path
  | .openFile => PathBuffers.openFile w m fuel path
  | .openDirectory => PathBuffers.openDirectory w m fuel path
  | .changeDirectory => PathBuffers.changeDirectory w m fuel path

/-! ### What the calls are to do -/

/-- What a call leaves: the memory around `exeName` as it was, or a name with a NUL. -/
def Call.Leaves (w : World) : Call → Chars → Prop
  | .exec, task => ∀ z : Int, z < 0 ∨ 15 ≤ z → task z = w.task z
  | _, name => ∃ k : Nat, k < 256 ∧ name k = 0

/-- **A call keeps inside its arrays**, whatever they and the archive have held. -/
def Inside (m : UserMem) (path : List UInt8) (call : Call) : Prop :=
  ∀ w fuel, call.run w m fuel path ≠ .error .outside ∧
    ∀ b, call.run w m fuel path = .ok (some b) → call.Leaves w b

/-- The entries of a value of `PATH`, each with the name of the command, fit the buffer, and the
value ends with a colon. -/
def EntriesFit (filename value : List UInt8) : Prop :=
  (value.splitOn colon).getLast? = some [] ∧
    ∀ e ∈ (value.splitOn colon).dropLast, (candidate filename e).length ≤ 511

/-- The absolute path, with a slash at the end and the NUL, fits 256 characters. -/
def AbsoluteFits (cwd : Option (List UInt8)) (path : List UInt8) : Prop :=
  ∀ front, ∃ ds, absolute front 256 cwd path = some ds ∧ (flat ds).length < 256

/-- **The condition**, for a path and the values of `PWD` and `PATH`. -/
def Call.Fits (cwd search : Option (List UInt8)) (path : List UInt8) : Call → Prop
  | .exec => path.length ≤ 14 ∧ (path.getD 0 0 ≠ slash →
      (∀ front, absolute front 512 cwd path ≠ none) ∧
        ∃ value, search = some value ∧ value.length ≤ 510 ∧ EntriesFit path value)
  | .changeDirectory => AbsoluteFits cwd path
  | _ => path = [] ∨ path = [slash] ∨
      AbsoluteFits cwd path ∧ ∀ front, absolute front 256 cwd path ≠ some []

/-- The pages of the environment hold the variables `es`, and a scan gets through them. -/
structure HasEnv (m : UserMem) (es : List Var) : Prop where
  environ : Environ m es 0
  fits : ∀ v ∈ es, VarFits v
  names : ∀ v ∈ es, v.1.length ≤ 255
  few : es.length < walkFuel

variable {w : World} {m : UserMem} {size fuel n i j k : Nat} {base : Chars} {s : Cursor UInt8}
  {path filename text e r value : List UInt8} {front : Bool} {es : List Var}
  {cwd search : Option (List UInt8)} {call : Call}

/-! ### The environment -/

/-- **What `getCWD` and `getPATH` store.** -/
theorem HasEnv.copy (h : HasEnv m es) (name : List UInt8) (count : Nat) :
    ((getenv m name).bind fun
      | none => some []
      | some start => copyValue m count start) = some (valueCopy count (envMap es name)) := by
  -- the scan ends at the variable with this name, or at the empty page
  have hmap := @scan_envMap es name h.names
  obtain ⟨o, ho⟩ := scan_isSome h.names name
  rw [ho, Option.map_some] at hmap
  cases o with
  | none =>
    rw [← Option.some.inj hmap, getenv_spec _ h.environ h.fits h.few, ho]
    rfl
  | some i =>
    obtain ⟨v, a, hv, hmem, -, hfound, hbytes⟩ := getenv_found h.environ h.fits h.few ho
    have hzero := (h.fits v hmem).valueZero
    rw [← Option.some.inj hmap, hfound, Option.bind_some, Option.map_some,
      List.getD_eq_getElem?_getD, hv, Option.getD_some, valueCopy]
    split_ifs with hshort
    · exact copyValue_spec hzero hbytes hshort
    · exact copyValue_long hzero hbytes (by omega)

theorem HasEnv.noNul (h : HasEnv m es) {name : List UInt8} (hv : envMap es name = some value) :
    0 ∉ value := by
  obtain ⟨v, hfind, rfl⟩ := Option.map_eq_some_iff.mp hv
  exact (h.fits v (List.mem_of_find?_eq_some hfind)).valueZero

theorem HasEnv.hasCwd (h : HasEnv m es) : HasCwd m (envMap es pwdName) :=
  ⟨h.copy pwdName 256, fun _ hv => h.noNul hv⟩

/-! ### strcpy -/

/-- The loop of `strcpy` copies up to the NUL. -/
theorem strcpyLoop_spec {src : Nat → UInt8} {dest : Chars} (hn : i + n = 256) :
    ∃ dest' j, strcpyLoop src n i dest = .ok (dest', j) ∧ i ≤ j ∧ j ≤ 256 ∧
      (j < 256 → src j = 0) ∧ (∀ k, i ≤ k → k < j → src k ≠ 0 ∧ dest' k = src k) ∧
      ∀ z : Int, z < i → dest' z = dest z := by
  induction n generalizing i dest with
  | zero =>
    refine ⟨dest, i, rfl, le_refl _, by omega, fun h => by omega, fun k hk hlt => ?_,
      fun _ _ => rfl⟩
    omega
  | succ n ih =>
    rw [strcpyLoop]
    split_ifs with hc
    · exact ⟨dest, i, rfl, le_refl _, by omega, fun _ => hc, fun k hk hlt => by omega,
        fun _ _ => rfl⟩
    · -- the character is stored, and the rest of the loop keeps it
      obtain ⟨dest', j, hloop, hij, hj, hend, hcopy, hkeep⟩ :=
        @ih (i + 1) (Function.update dest i (src i)) (by omega)
      rw [store_ok (by omega) (by omega)]
      refine ⟨dest', j, hloop, by omega, hj, hend, fun k hk hlt => ?_, fun z hz => ?_⟩
      · rcases Nat.eq_or_lt_of_le hk with rfl | hgt
        · refine ⟨hc, ?_⟩
          rw [hkeep i (by omega), Function.update_self]
        · exact hcopy k hgt hlt
      · rw [hkeep z (by omega), Function.update_of_ne (by omega)]

/-- **`strcpy` fits every name**, and terminates those with a NUL in the first 255 characters. -/
theorem strcpy_spec (src : Nat → UInt8) (dest : Chars) :
    ∃ name, strcpy src dest = .ok name ∧
      (k ≤ 254 → src k = 0 → ∃ j < 256, name (j : Nat) = 0) ∧
      ((∀ k < 256, src k ≠ 0) → ∀ j < 256, name (j : Nat) ≠ 0) := by
  obtain ⟨dest', j, hloop, -, hj, hend, hcopy, -⟩ :=
    @strcpyLoop_spec 256 0 src dest (Nat.zero_add 256)
  rw [strcpy, hloop]
  -- the loop has stopped at `j`
  by_cases hlt : j < 255
  · refine ⟨Function.update dest' j (src j), ?_, fun _ _ => ⟨j, by omega, ?_⟩, fun hall => ?_⟩
    · exact (if_pos hlt).trans (store_ok (by omega) (by omega))
    · rw [Function.update_self, hend (by omega)]
    · exact absurd (hend (by omega)) (hall j (by omega))
  · refine ⟨dest', if_neg hlt, fun hk hnul => ?_, fun hall i hi => ?_⟩
    · exact absurd hnul (hcopy k (Nat.zero_le _) (by omega)).1
    · -- no NUL at all: every cell is a copy
      have hj256 : j = 256 := by
        by_contra hne
        exact hall j (by omega) (hend (by omega))
      obtain ⟨hne, heq⟩ := hcopy i (Nat.zero_le _) (by omega)
      rwa [heq]

/-- A name that ends in time. -/
theorem openSlot_spec {src : Nat → UInt8} (hk : k ≤ 254) (hnul : src k = 0) :
    Gives (openSlot w src) True fun b => ∀ name, b = some name →
      ∃ j : Nat, j < 256 ∧ name j = 0 := by
  rw [openSlot]
  cases w.slot with
  | none => exact Gives.pure fun name h => by cases h
  | some old =>
    obtain ⟨name, hcopy, hends, -⟩ := @strcpy_spec k src old
    dsimp only
    rw [hcopy]
    refine Gives.pure fun name' h => ?_
    obtain rfl := Option.some.inj h
    exact hends hk hnul

/-! ### The search in PATH -/

section Search

variable {testfile path : Chars} {find : List UInt8 → Nat}

/-- **An entry is copied.** -/
theorem entryLoop_gives (hc : colon ∉ e) (h0 : 0 ∉ e)
    (he : ∀ k (hk : k < e.length), testfile (i + k : Nat) = e[k])
    (hend : testfile (i + e.length : Nat) = colon ∨ testfile (i + e.length : Nat) = 0)
    (hw : Writes 512 base text s) (hsize : text.length + e.length ≤ 512) :
    Gives (entryLoop testfile n s i) (e.length < n) fun r =>
      Writes 512 base (text ++ e) r.1 ∧ r.2 = i + e.length := by
  induction e generalizing n i s text with
  | nil =>
    -- the end of the entry, with fuel left to see it
    cases n with
    | zero => exact Or.inr ⟨rfl, Nat.not_lt_zero _⟩
    | succ n =>
      rw [List.append_nil]
      exact Or.inl ⟨(s, i), if_pos hend, hw, rfl⟩
  | cons c e ih =>
    cases n with
    | zero => exact Or.inr ⟨rfl, Nat.not_lt_zero _⟩
    | succ n =>
      have hi : testfile i = c := he 0 (Nat.succ_pos _)
      have hc0 : c ≠ 0 := Ne.symm (List.ne_of_not_mem_cons h0)
      have hcc : c ≠ colon := Ne.symm (List.ne_of_not_mem_cons hc)
      rw [List.length_cons] at hsize hend
      obtain ⟨s₁, hput, hw₁⟩ := hw.put (by omega) hc0
      have hnext : i + 1 + e.length = i + (e.length + 1) := by omega
      have hrest := ih (n := n) (i := i + 1) (List.not_mem_of_not_mem_cons hc)
        (List.not_mem_of_not_mem_cons h0)
        (fun k hk => by
          rw [show i + 1 + k = i + (k + 1) by omega]
          exact he (k + 1) (Nat.succ_lt_succ hk))
        (by rwa [hnext]) hw₁ (by rw [List.length_append, List.length_singleton]; omega)
      rw [List.append_assoc, List.singleton_append, hnext] at hrest
      rw [entryLoop, hi, if_neg (not_or.mpr ⟨hcc, hc0⟩), hput]
      exact hrest.mono (fun hn => by simpa using hn) fun _ => id

/-- An entry that does not end fills the buffer. -/
theorem entryLoop_outside (hend : ∀ k, text.length + k ≤ 512 →
      testfile (i + k : Nat) ≠ colon ∧ testfile (i + k : Nat) ≠ 0)
    (hw : Writes 512 base text s) (hle : text.length ≤ 512) (hn : 512 < text.length + n) :
    entryLoop testfile n s i = .error .outside := by
  induction n generalizing i s text with
  | zero => omega
  | succ n ih =>
    obtain ⟨hcc, hc0⟩ := hend 0 hle
    rw [Nat.add_zero] at hcc hc0
    have hpos := hw.pos
    rw [entryLoop, if_neg (not_or.mpr ⟨hcc, hc0⟩)]
    -- one more character, or the buffer is full
    rcases Nat.lt_or_ge text.length 512 with hlt | hge
    · obtain ⟨s₁, hput, hw₁⟩ := hw.put hlt hc0
      rw [hput]
      refine ih (fun k hk => ?_) hw₁ ?_ ?_
      · rw [List.length_append, List.length_singleton] at hk
        rw [show i + 1 + k = i + (k + 1) by omega]
        exact hend (k + 1) (by omega)
      · rw [List.length_append, List.length_singleton]
        omega
      · rw [List.length_append, List.length_singleton]
        omega
    · exact bind_outside (Cursor.put_outside (by omega) _) _

/-- An entry with its slash is as long as it is in a candidate, but for the empty one. -/
theorem length_flat_candidate (front : Bool) (filename e : List UInt8) :
    (flat (cwdNames front e)).length + filename.length ≤ (candidate filename e).length ∧
      (e ≠ [] → (flat (cwdNames front e)).length + filename.length =
        (candidate filename e).length) := by
  have hcandidate : (candidate filename e).length =
      (if e.getLast? = some slash then e else e ++ [slash]).length + filename.length := by
    rw [candidate, List.length_append]
  rw [hcandidate, flat_cwdNames]
  by_cases hnil : e = []
  · -- an empty entry is a slash, or none where there is one in front of the buffer
    subst hnil
    refine ⟨?_, fun h => absurd rfl h⟩
    cases front <;> simp
  · rw [if_neg hnil]
    exact ⟨le_refl _, fun _ => rfl⟩

/-- The entry with its slash is written, unless it fills the buffer. -/
theorem slashBehind_entry (hw : Writes 512 base e s) (hlen : e.length < 512) :
    ∃ s₁ front, slashBehind 512 s = .ok s₁ ∧ Writes 512 base (flat (cwdNames front e)) s₁ := by
  have hfront : base (-1) = slash ↔ decide (base (-1) = slash) = true := decide_eq_true_iff.symm
  obtain ⟨s₁, hs₁, hw₁⟩ := (slashBehind_cwd hw hfront hlen).exists_ok trivial
  exact ⟨s₁, _, hs₁, hw₁⟩

theorem length_le_candidate (filename e : List UInt8) :
    e.length ≤ (candidate filename e).length := by
  rw [candidate, List.length_append]
  split
  · exact Nat.le_add_right _ _
  · rw [List.length_append]
    omega

/-- **A candidate that fits its buffer.** -/
theorem joinName_gives (hw : Writes 512 base e s) (h0 : 0 ∉ filename)
    (hlen : (candidate filename e).length ≤ 511) :
    ∃ cells t, joinName filename s = .ok cells ∧ Holds 512 base t cells := by
  have hle := length_le_candidate filename e
  obtain ⟨s₁, front, hs₁, hw₁⟩ := slashBehind_entry hw (by omega)
  have hsum := (length_flat_candidate front filename e).1
  obtain ⟨s₂, hs₂, hw₂⟩ := hw₁.putAll filename (by omega) h0
  obtain ⟨cells, hstore, hholds⟩ := hw₂.store_nul (by rw [List.length_append]; omega)
  refine ⟨cells, _, ?_, hholds⟩
  rw [joinName, hs₁]
  show s₁.putAll 512 filename >>= _ = _
  rw [hs₂]
  exact hstore

/-- A string and its NUL behind a full buffer. -/
theorem putAll_nul_outside (hpos : 512 ≤ s.pos) : (s.putAll 512 filename >>= fun s =>
    store 512 s.cells s.pos 0) = .error .outside := by
  cases filename with
  | nil => exact store_outside (Or.inr hpos)
  | cons c filename =>
    rw [Cursor.putAll_cons]
    exact bind_outside (bind_outside (Cursor.put_outside (Or.inr hpos) c) _) _

/-- **A candidate that does not fit.** -/
theorem joinName_outside (hw : Writes 512 base e s) (h0 : 0 ∉ filename) (hne : e ≠ [])
    (hlen : 511 < (candidate filename e).length) :
    joinName filename s = .error .outside := by
  rw [joinName]
  rcases Nat.lt_or_ge e.length 512 with hlt | hge
  · obtain ⟨s₁, front, hs₁, hw₁⟩ := slashBehind_entry hw hlt
    have hsum := (length_flat_candidate front filename e).2 hne
    have hflat : (flat (cwdNames front e)).length ≤ 512 :=
      (length_flat_cwdNames front e).trans hlt
    rw [hs₁]
    show (s₁.putAll 512 filename >>= fun s => store 512 s.cells s.pos 0) = _
    rcases Nat.lt_or_ge 512 (candidate filename e).length with hgt | hle
    · exact bind_outside (hw₁.putAll_outside hflat (by omega) h0) _
    · -- only the NUL goes outside
      obtain ⟨s₂, hs₂, hw₂⟩ := hw₁.putAll filename (by omega) h0
      have hpos := hw₂.pos
      rw [List.length_append] at hpos
      rw [hs₂]
      exact store_outside (Or.inr (by omega))
  · -- the entry has filled the buffer
    have hpos : (512 : Int) ≤ s.pos := by
      rw [hw.pos]
      exact_mod_cast hge
    rcases slashBehind_outside (Or.inr hpos) with hs | hs
    · rw [hs]
      exact putAll_nul_outside hpos
    · exact bind_outside hs _

/-! The entries of a value. -/

theorem entriesFit_nil (filename : List UInt8) : EntriesFit filename [] := by
  simp [EntriesFit, List.splitOn_nil]

theorem entriesFit_of_notMem (h : colon ∉ value) : EntriesFit filename value ↔ value = [] := by
  rw [EntriesFit, List.splitOn_eq_singleton h]
  simp

theorem entriesFit_append (he : colon ∉ e) (r : List UInt8) :
    EntriesFit filename (e ++ colon :: r) ↔
      (candidate filename e).length ≤ 511 ∧ EntriesFit filename r := by
  obtain ⟨e', es, hr⟩ := List.exists_cons_of_ne_nil (List.splitOn_ne_nil colon r)
  rw [EntriesFit, EntriesFit, List.splitOn_append_cons_self_of_not_mem he, hr,
    List.getLast?_cons_cons, List.dropLast_cons_cons, List.forall_mem_cons]
  exact and_left_comm

/-- A value is one entry, or there is a first one. -/
theorem entry_cases (r : List UInt8) :
    colon ∉ r ∨ ∃ e r', r = e ++ colon :: r' ∧ colon ∉ e := by
  by_cases h : colon ∈ r
  · obtain ⟨e, r', hr, he⟩ := List.eq_append_cons_of_mem h
    exact Or.inr ⟨e, r', hr, he⟩
  · exact Or.inl h

/-- `testfile` holds `r` from index `i` on. -/
def At (testfile : Chars) (i : Nat) (r : List UInt8) : Prop :=
  ∀ k (hk : k < r.length), testfile (i + k : Nat) = r[k]

theorem At.left (h : At testfile i (e ++ r)) : At testfile i e := fun k hk => by
  rw [h k (by rw [List.length_append]; omega), List.getElem_append_left hk]

theorem At.right (h : At testfile i (e ++ r)) : At testfile (i + e.length) r := fun k hk => by
  have := h (e.length + k) (by rw [List.length_append]; omega)
  rw [List.getElem_append_right (by omega)] at this
  rw [show i + e.length + k = i + (e.length + k) by omega, this]
  congr 1
  omega

theorem At.ne (h : At testfile i r) (hc : colon ∉ r) (h0 : 0 ∉ r) (hk : k < r.length) :
    testfile (i + k : Nat) ≠ colon ∧ testfile (i + k : Nat) ≠ 0 := by
  rw [h k hk]
  exact ⟨fun h => hc (h ▸ List.getElem_mem hk), fun h => h0 (h ▸ List.getElem_mem hk)⟩

theorem At.behind (h : At testfile i (e ++ colon :: r)) : At testfile (i + e.length + 1) r := by
  have hcolon : e ++ colon :: r = e ++ [colon] ++ r := by simp
  rw [hcolon] at h
  have := h.right
  rwa [List.length_append, List.length_singleton, ← Nat.add_assoc] at this

/-- **A search that keeps inside.** -/
theorem searchLoop_gives (hr : At testfile i r) (h0 : 0 ∉ r)
    (hend : testfile (i + r.length : Nat) = 0) (hname : 0 ∉ filename)
    (hfits : EntriesFit filename r) :
    Gives (searchLoop find testfile filename fuel n path i) False fun _ => True := by
  -- on the rounds: `r` is what is left of the value, and it is empty or ends with a colon
  induction n generalizing i r path with
  | zero => exact Or.inr ⟨rfl, not_false⟩
  | succ n ih =>
    rw [searchLoop]
    split_ifs with hi
    · exact Gives.pure trivial
    rcases entry_cases r with hc | ⟨e, r', rfl, he⟩
    · -- the value is used up
      obtain rfl := (entriesFit_of_notMem hc).mp hfits
      exact absurd hend hi
    obtain ⟨hlen, hrest⟩ := (entriesFit_append he r').mp hfits
    have h0e : 0 ∉ e := fun h => h0 (List.mem_append_left _ h)
    have hle := length_le_candidate filename e
    have hcolon : testfile (i + e.length : Nat) = colon := hr.right 0 (Nat.succ_pos _)
    have hentry := entryLoop_gives (n := fuel) he h0e hr.left (Or.inl hcolon)
      (Writes.start 512 path) (by rw [List.length_nil]; omega)
    refine hentry.bind False.elim fun r₁ hr₁ => ?_
    obtain ⟨hw, hi₁⟩ := hr₁
    obtain ⟨cells, t, hjoin, -⟩ := joinName_gives hw hname hlen
    rw [hjoin]
    refine readString_safe.bind id fun f _ => ?_
    split_ifs
    · -- the next entry
      rw [hi₁]
      have h0r : 0 ∉ r' := fun h => h0 (List.mem_append_right _ (List.mem_cons_of_mem _ h))
      refine ih hr.behind h0r ?_ hrest
      rw [← hend, List.length_append, List.length_cons]
      congr 2
      omega
    · exact Gives.pure trivial

/-- Characters that end no entry. -/
def Runs (testfile : Chars) (i : Nat) : Prop :=
  ∀ k ≤ 512, testfile (i + k : Nat) ≠ colon ∧ testfile (i + k : Nat) ≠ 0

/-- Behind the array nothing ends an entry. -/
theorem searchLoop_runs (hruns : Runs testfile i) (hn : 0 < n) (hfuel : 512 < fuel) :
    searchLoop find testfile filename fuel n path i = .error .outside := by
  obtain ⟨n, rfl⟩ := Nat.exists_eq_succ_of_ne_zero (Nat.ne_of_gt hn)
  have hi := (hruns 0 (Nat.zero_le _)).2
  rw [Nat.add_zero] at hi
  rw [searchLoop, if_neg hi]
  refine bind_outside (entryLoop_outside (fun k hk => hruns k ?_) (Writes.start 512 path)
    (Nat.zero_le _) ?_) _
  · rw [List.length_nil] at hk
    omega
  · rw [List.length_nil]
    omega

/-- **A search that finds nothing** leaves the buffer where an entry does not fit, and where the
value does not end with a colon or is not terminated. -/
theorem searchLoop_outside (hfind : ∀ f, find f = 0) (hr : At testfile i r) (h0 : 0 ∉ r)
    (hname : 0 ∉ filename) (hshort : filename.length ≤ 510) (hpath : path 512 = 0)
    (hend : Runs testfile (i + r.length) ∨ testfile (i + r.length : Nat) = 0 ∧
      Runs testfile (i + r.length + 1) ∧ ¬EntriesFit filename r)
    (hn : r.length + 1 < n) (hfuel : 512 < fuel) :
    searchLoop find testfile filename fuel n path i = .error .outside := by
  induction n generalizing i r path with
  | zero => omega
  | succ n ih =>
    have hempty : candidate filename [] = slash :: filename := by simp [candidate]
    -- an entry that ends at a colon or at the NUL, and the rest of the search
    have hround : ∀ e, colon ∉ e → 0 ∉ e → At testfile i e → testfile i ≠ 0 →
        (testfile (i + e.length : Nat) = colon ∨ testfile (i + e.length : Nat) = 0) →
        (∀ cells : Chars, cells 512 = 0 → (candidate filename e).length ≤ 511 →
          searchLoop find testfile filename fuel n cells (i + e.length + 1) = .error .outside) →
        searchLoop find testfile filename fuel (n + 1) path i = .error .outside := by
      intro e he h0e hat hi hstop hnext
      rw [searchLoop, if_neg hi]
      by_cases hlong : 512 < e.length
      · -- too long for the buffer by itself
        refine bind_outside (entryLoop_outside (fun k hk => ?_) (Writes.start 512 path)
          (Nat.zero_le _) (by rw [List.length_nil]; omega)) _
        rw [List.length_nil] at hk
        exact hat.ne he h0e (by omega)
      have hentry := entryLoop_gives (n := fuel) he h0e hat hstop
        (Writes.start 512 path) (by rw [List.length_nil]; omega)
      refine hentry.bind_outside (by omega) fun r₁ hr₁ => ?_
      obtain ⟨hw, hi₁⟩ := hr₁
      rw [List.nil_append] at hw
      by_cases hlen : (candidate filename e).length ≤ 511
      · obtain ⟨cells, t, hjoin, hholds⟩ := joinName_gives hw hname hlen
        -- the string that is looked up ends at the latest behind the buffer
        have hcells : cells 512 = 0 := by
          rw [hholds.outside 512 (Or.inr (le_refl _)), hpath]
        rw [hjoin]
        obtain ⟨f, hf, -⟩ := (@readString_gives _ cells 1 fuel 511 _ _ hcells).exists_ok (by omega)
        show (readString cells fuel 1 >>= _) = _
        rw [hf]
        refine (if_pos (hfind f)).trans ?_
        rw [hi₁]
        exact hnext cells hcells hlen
      · -- the name is short, so that the entry is not empty
        have hne : e ≠ [] := by
          rintro rfl
          rw [hempty, List.length_cons] at hlen
          omega
        exact bind_outside (joinName_outside hw hname hne (by omega)) _
    rcases entry_cases r with hc | ⟨e, r', rfl, he⟩
    · rcases hend with hruns | ⟨hnul, hruns, hnot⟩
      · -- the last entry has no end
        refine searchLoop_runs (fun k hk => ?_) (Nat.succ_pos n) hfuel
        rcases Nat.lt_or_ge k r.length with hlt | hge
        · exact hr.ne hc h0 hlt
        · have := hruns (k - r.length) (by omega)
          rwa [show i + r.length + (k - r.length) = i + k by omega] at this
      · -- it ends with the value, and the search does not
        have hne : r ≠ [] := fun hnil => hnot (hnil ▸ entriesFit_nil filename)
        have hpos := List.length_pos_of_ne_nil hne
        exact hround r hc h0 hr (hr.ne hc h0 hpos).2 (Or.inr hnul) fun cells _ _ =>
          searchLoop_runs hruns (by omega) hfuel
    · -- one entry, and the search in the rest
      have h0e : 0 ∉ e := fun h => h0 (List.mem_append_left _ h)
      have h0r : 0 ∉ r' := fun h => h0 (List.mem_append_right _ (List.mem_cons_of_mem _ h))
      have hcolon : testfile (i + e.length : Nat) = colon := hr.right 0 (Nat.succ_pos _)
      have hi : testfile i ≠ 0 := by
        cases e with
        | nil =>
          rw [List.length_nil, Nat.add_zero] at hcolon
          rw [hcolon]
          decide
        | cons c e => exact (hr.left.ne he h0e (Nat.succ_pos _)).2
      have hidx : i + (e ++ colon :: r').length = i + e.length + 1 + r'.length := by
        rw [List.length_append, List.length_cons]
        omega
      rw [hidx] at hend
      rw [List.length_append, List.length_cons] at hn
      refine hround e he h0e hr.left hi (Or.inl hcolon) fun cells hcells hlen =>
        ih hr.behind h0r hcells ?_ (by omega)
      refine hend.imp_right fun ⟨hnul, hruns, hnot⟩ => ⟨hnul, hruns, fun hfits => hnot ?_⟩
      exact (entriesFit_append he r').mpr ⟨hlen, hfits⟩

end Search

/-! ### Calls that keep inside -/

theorem HasEnv.hasPath (h : HasEnv m es) :
    getPATH m 512 = some (valueCopy 512 (envMap es searchPathName)) := h.copy searchPathName 512

/-- A run without a store outside, and with what it is to leave. -/
theorem inside_of_gives (h : ∀ w fuel, Gives (call.run w m fuel path) False fun b =>
    ∀ name, b = some name → call.Leaves w name) : Inside m path call := fun w fuel =>
  ⟨(h w fuel).ne_outside, fun _ hb => (h w fuel).of_ok hb _ rfl⟩

/-- A path that is not empty is copied to the descriptor with its NUL. -/
theorem openSlot_fits {cells : Chars} (hlen : text.length < 256) (hne : text ≠ [])
    (hholds : Holds 256 base text cells) :
    Gives (openSlot w fun i => cells (1 + i : Nat)) False fun b => ∀ name, b = some name →
      ∃ j : Nat, j < 256 ∧ name j = 0 := by
  have hpos := List.length_pos_of_ne_nil hne
  refine (openSlot_spec (k := text.length - 1) (by omega) ?_).mono False.elim fun _ => id
  rw [show 1 + (text.length - 1) = text.length by omega]
  exact hholds.nul

/-- The root is opened under the name that was given. -/
theorem openSlot_slash : Gives (openSlot w fun i => [slash].getD i 0) False fun b => ∀ name,
    b = some name → ∃ j : Nat, j < 256 ∧ name j = 0 :=
  (openSlot_spec (k := 1) (by decide) rfl).mono False.elim fun _ => id

/-- The array of `getCWD` has room for what it stores. -/
theorem filled_safe (hdir : HasCwd m cwd) (junk : Chars) :
    Gives (filled 256 (getCWD m 256) junk) False fun _ => True := by
  rw [hdir.copy]
  by_cases hlong : ∀ v, cwd = some v → 0 ∉ v ∧ 256 ≤ v.length + 1
  · obtain ⟨cells, hcells, -⟩ := filled_open hlong junk
    exact Or.inl ⟨cells, hcells, trivial⟩
  · push Not at hlong
    obtain ⟨v, rfl, hv⟩ := hlong
    have h0v := hdir.noNul v rfl
    obtain ⟨cells, hcells, -⟩ := filled_value h0v (hv h0v) junk
    exact Or.inl ⟨cells, hcells, trivial⟩

section Calls

variable (hdir : HasCwd m cwd) (h0 : 0 ∉ path)
include hdir h0

/-- `remove_dotslash` with the arrays of 256 characters. -/
theorem removeDotslash_fits (hfits : AbsoluteFits cwd path) (junk base : Chars) (d : Int) :
    Gives (removeDotslash m 256 fuel junk base path d) False fun cells => ∃ text front,
      text.length < 256 ∧ Holds 256 base text cells ∧
        (text = [] → absolute front 256 cwd path = some []) := by
  obtain ⟨ds, habs, hlen⟩ := hfits (decide (base (-1) = slash))
  have hfront : base (-1) = slash ↔ decide (base (-1) = slash) = true := decide_eq_true_iff.symm
  refine (removeDotslash_gives hdir h0 hfront (le_refl _) habs hlen).mono False.elim ?_
  rintro cells ⟨text, hshort, htext, hholds⟩
  refine ⟨text, decide (base (-1) = slash), hshort, hholds, fun hnil => ?_⟩
  rcases htext with rfl | ⟨-, hne, -⟩
  · -- a path of names has a slash
    rcases List.eq_nil_or_concat ds with rfl | ⟨init, c, rfl⟩
    · exact habs
    · rw [List.concat_eq_append, flat_append] at hnil
      simp at hnil
  · exact absurd hnil hne

theorem openFile_fits (hfits : AbsoluteFits cwd path)
    (hne : ∀ front, absolute front 256 cwd path ≠ some []) :
    Inside m path .openFile := by
  refine inside_of_gives fun w fuel => ?_
  show Gives (openFile w m fuel path) False _
  rw [openFile]
  split_ifs with hnil hslash
  · exact Gives.pure fun name h => by cases h
  · rw [hslash]
    exact openSlot_slash
  -- the first try, without a slash
  refine (removeDotslash_fits hdir h0 hfits w.cwd w.buffer 0).bind id ?_
  rintro cells ⟨text, front, hlen, hholds, hempty⟩
  refine readString_safe.bind id fun f _ => ?_
  split_ifs
  · exact openSlot_fits hlen (fun h => hne front (hempty h)) hholds
  -- the second try, with a slash
  refine (removeDotslash_fits hdir h0 hfits w.cwdAgain cells 1).bind id ?_
  rintro cells' ⟨text', front', hlen', hholds', hempty'⟩
  refine readString_safe.bind id fun f _ => ?_
  split_ifs
  · exact openSlot_fits hlen' (fun h => hne front' (hempty' h)) hholds'
  · exact Gives.pure fun name h => by cases h

theorem openDirectory_fits (hfits : AbsoluteFits cwd path)
    (hne : ∀ front, absolute front 256 cwd path ≠ some []) :
    Inside m path .openDirectory := by
  refine inside_of_gives fun w fuel => ?_
  show Gives (openDirectory w m fuel path) False _
  rw [openDirectory]
  split_ifs with hnil hslash
  · exact Gives.pure fun name h => by cases h
  · rw [hslash]
    exact openSlot_slash
  refine (removeDotslash_fits hdir h0 hfits w.cwd w.buffer 1).bind id ?_
  rintro cells ⟨text, front, hlen, hholds, hempty⟩
  refine readString_safe.bind id fun f _ => ?_
  split_ifs
  · exact openSlot_fits hlen (fun h => hne front (hempty h)) hholds
  · exact Gives.pure fun name h => by cases h

theorem changeDirectory_fits (hfits : AbsoluteFits cwd path) :
    Inside m path .changeDirectory := by
  refine inside_of_gives fun w fuel => ?_
  show Gives (changeDirectory w m fuel path) False _
  rw [changeDirectory]
  refine (removeDotslash_fits hdir h0 hfits w.cwd w.buffer 1).bind id ?_
  rintro cells -
  refine readString_safe.bind id fun f _ => ?_
  split_ifs
  · exact Gives.pure fun name h => by cases h
  · refine (filled_safe hdir w.cwdAgain).bind id fun _ _ => ?_
    exact Gives.pure fun name h => by cases h

end Calls

/-! A short path is short in its absolute form, too. -/

theorem length_walk {ds ds' cs : List (List UInt8)} (h : walk front size ds cs = some ds') :
    (flat ds').length ≤ (flat ds).length + (cs.map (·.length + 1)).sum := by
  induction cs generalizing ds with
  | nil =>
    obtain rfl := Option.some.inj h
    exact Nat.le_add_right _ _
  | cons c cs ih =>
    rw [List.map_cons, List.sum_cons]
    rw [walk] at h
    split_ifs at h with hlong hdot hdots hover
    · have := ih h
      omega
    · obtain ⟨ds₁, hup, h⟩ := Option.bind_eq_some_iff.mp h
      have := length_flat_up hup
      have := ih h
      omega
    · have := ih h
      rw [length_flat_append] at this
      omega

theorem sum_components (p : List UInt8) :
    ((components p).map (·.length + 1)).sum ≤ p.length + 1 := by
  -- on the length: the components behind the first slash are those of a shorter path
  induction hn : p.length using Nat.strongRecOn generalizing p with
  | ind n ih =>
    obtain ⟨c, rest, rfl, hc, -, hrest⟩ := exists_component p
    have hfirst : (((if c = [] then [] else [c]) : List (List UInt8)).map (·.length + 1)).sum ≤
        c.length + 1 := by
      split <;> simp
    rcases hrest with rfl | ⟨r, rfl⟩
    · rw [List.append_nil] at hn ⊢
      rwa [components_of_notMem hc, ← hn]
    · rw [List.length_append, List.length_cons] at hn
      have hrest := ih r.length (by omega) r rfl
      rw [components_append_slash hc, List.map_append, List.sum_append]
      omega

theorem length_absolute {ds : List (List UInt8)} (h : absolute front size cwd path = some ds) :
    (flat ds).length ≤ 256 + path.length := by
  obtain ⟨ds₀, hstart, hwalk⟩ := Option.bind_eq_some_iff.mp h
  have hsum := sum_components path
  have hlen := length_walk hwalk
  have hstart' : (flat ds₀).length ≤ 255 := by
    rw [startNames] at hstart
    split_ifs at hstart
    · obtain rfl := Option.some.inj hstart
      exact show (flat [[]]).length ≤ 255 by decide
    · obtain ⟨v, -, hv⟩ := Option.bind_eq_some_iff.mp hstart
      split_ifs at hv with hshort
      obtain rfl := Option.some.inj hv
      exact (length_flat_cwdNames front v).trans (by omega)
  omega

/-- **The name of a task.** -/
theorem copyExeName_fits (task : Chars) (h0 : 0 ∉ path) (hlen : path.length ≤ 14) :
    ∃ task', copyExeName task path = .ok task' ∧
      ∀ z : Int, z < 0 ∨ 15 ≤ z → task' z = task z := by
  obtain ⟨s, hs, hw⟩ := (Writes.start 15 task).putAll path (by rw [List.length_nil]; omega) h0
  rw [List.nil_append] at hw
  obtain ⟨cells, hstore, hholds⟩ := hw.store_nul (by omega)
  refine ⟨cells, ?_, hholds.outside⟩
  rw [copyExeName, hs]
  exact hstore

theorem copyExeName_outside (task : Chars) (h0 : 0 ∉ path) (hlen : 15 ≤ path.length) :
    copyExeName task path = .error .outside := by
  rcases Nat.lt_or_ge 15 path.length with hgt | hle
  · exact bind_outside ((Writes.start 15 task).putAll_outside (Nat.zero_le _)
      (by rw [List.length_nil]; omega) h0) _
  · -- only the NUL goes outside
    obtain ⟨s, hs, hw⟩ := (Writes.start 15 task).putAll path (by rw [List.length_nil]; omega) h0
    have hpos := hw.pos
    rw [List.nil_append] at hpos
    rw [copyExeName, hs]
    exact store_outside (Or.inr (by omega))

theorem exec_fits (henv : HasEnv m es) (h0 : 0 ∉ path)
    (hfits : Call.exec.Fits (envMap es pwdName) (envMap es searchPathName) path) :
    Inside m path .exec := by
  obtain ⟨hlen, hrel⟩ := hfits
  refine inside_of_gives fun w fuel => ?_
  show Gives (exec w m fuel path) False _
  have hsearch : Gives (getExecutablePath w m fuel path) False fun _ => True := by
    rw [getExecutablePath]
    split_ifs with habs
    · -- nothing of an absolute path is stored
      exact Gives.pure trivial
    obtain ⟨hwalk, value, hvalue, hshort, hentries⟩ := hrel habs
    -- 14 characters behind a directory of 254 fit the buffer of 512
    obtain ⟨ds, hds⟩ := Option.ne_none_iff_exists'.mp (hwalk (decide (w.buffer (-1) = slash)))
    have hroom := length_absolute hds
    have h0v := henv.noNul hvalue
    refine (removeDotslash_gives henv.hasCwd h0 decide_eq_true_iff.symm (by decide) hds
      (by omega)).bind False.elim fun cells _ => ?_
    refine readString_safe.bind id fun f _ => ?_
    split_ifs
    · exact Gives.pure trivial
    obtain ⟨testfile, hfilled, hholds⟩ := filled_value h0v (by omega : _ + 1 < 512) w.testfile
    rw [henv.hasPath, hvalue, hfilled]
    refine searchLoop_gives (fun k hk => ?_) h0v ?_ h0 hentries
    · rw [Nat.zero_add]
      exact hholds.written k hk
    · rw [Nat.zero_add]
      exact hholds.nul
  refine hsearch.bind id fun f _ => ?_
  cases f with
  | none => exact Gives.pure fun name h => by cases h
  | some file =>
    dsimp only
    split_ifs
    · obtain ⟨task, hcopy, hframe⟩ := copyExeName_fits w.task h0 hlen
      rw [hcopy]
      refine Gives.pure fun name h => ?_
      obtain rfl := Option.some.inj h
      exact hframe
    · exact Gives.pure fun name h => by cases h

/-! ### Calls that do not -/

/-- Memory with slashes in front of an array, and none or one right in front of it. -/
def adverse (front : Bool) : Chars := fun z =>
  if z ≤ -2 then slash else if z = -1 then (if front then slash else dot)
  else if z < 400 then dot else 0

/-- A world with such a memory, where every name is found or none. -/
def adversary (front : Bool) (address : Nat) : World where
  find _ := address
  loads _ := true
  buffer := adverse front
  cwd _ := dot
  cwdAgain _ := dot
  testfile _ := dot
  slot := some fun _ => dot
  task _ := dot

theorem adverse_below (front : Bool) : Adverse (adverse front) := fun _ hz => if_pos hz

theorem adverse_front : adverse front (-1) = slash ↔ front = true := by
  cases front <;> decide

/-- Behind the array there is a NUL. -/
theorem readString_adverse {cells : Chars} (hcells : cells 512 = 0) (hfuel : 511 < fuel) :
    ∃ f, readString cells fuel 1 = .ok f := by
  obtain ⟨f, hf, -⟩ := (@readString_gives _ cells 1 fuel 511 _ _ hcells).exists_ok hfuel
  exact ⟨f, hf⟩

/-- A name without a NUL is copied without one. -/
theorem openSlot_full {old cells : Chars} (hslot : w.slot = some old)
    (hcells : ∀ k < 256, cells (1 + k : Nat) ≠ 0) :
    ∃ name, openSlot w (fun i => cells (1 + i : Nat)) = .ok (some name) ∧
      ∀ k < 256, name (k : Nat) ≠ 0 := by
  obtain ⟨name, hcopy, -, hfull⟩ := @strcpy_spec 0 (fun i => cells (1 + i : Nat)) old
  refine ⟨name, ?_, hfull hcells⟩
  rw [openSlot, hslot]
  dsimp only
  rw [hcopy]
  rfl

/-- A path that does not fit, whatever memory is like. -/
def Overruns (front : Bool) (cwd : Option (List UInt8)) (path : List UInt8) : Prop :=
  ∀ ds, absolute front 256 cwd path = some ds → 256 ≤ (flat ds).length

section Fails

variable {address : Nat} (hdir : HasCwd m cwd) (h0 : 0 ∉ path)
include hdir h0

/-- With a slash at the end it leaves the array. -/
theorem removeDotslash_overruns (hover : Overruns front cwd path)
    (hbase : Adverse base) (hfront : base (-1) = slash ↔ front = true)
    (hfuel : path.length < fuel ∧ 256 < fuel) :
    removeDotslash m 256 fuel (fun _ => dot) base path 1 = .error .outside := by
  cases habs : absolute front 256 cwd path with
  | none =>
    exact removeDotslash_outside hdir h0 hfront (le_refl _) habs hbase
      (fun _ => show dot ≠ 0 by decide) hfuel
  | some ds =>
    exact removeDotslash_full hdir h0 hfront (le_refl _) habs (hover ds habs)
      ⟨hfuel.1, hfuel.2.le⟩

theorem changeDirectory_overruns (hover : Overruns front cwd path)
    (hfuel : path.length < fuel ∧ 256 < fuel) :
    changeDirectory (adversary front address) m fuel path = .error .outside :=
  bind_outside (removeDotslash_overruns hdir h0 hover (adverse_below front) adverse_front hfuel) _

theorem openDirectory_overruns (hover : Overruns front cwd path) (hne : path ≠ [])
    (hroot : path ≠ [slash]) (hfuel : path.length < fuel ∧ 256 < fuel) :
    openDirectory (adversary front address) m fuel path = .error .outside := by
  rw [openDirectory, if_neg hne, if_neg hroot]
  exact bind_outside
    (removeDotslash_overruns hdir h0 hover (adverse_below front) adverse_front hfuel) _

/-- The first try may succeed, but finds nothing. -/
theorem openFile_overruns (hover : Overruns front cwd path) (hne : path ≠ [])
    (hroot : path ≠ [slash]) (hfuel : path.length < fuel ∧ 511 < fuel) :
    openFile (adversary front 0) m fuel path = .error .outside := by
  have hbase := adverse_below front
  have hsmall : path.length < fuel ∧ 256 < fuel := ⟨hfuel.1, by omega⟩
  rw [openFile, if_neg hne, if_neg hroot]
  cases habs : absolute front 256 cwd path with
  | none =>
    exact bind_outside (removeDotslash_outside hdir h0 adverse_front (le_refl _) habs hbase
      (fun _ => show dot ≠ 0 by decide) hsmall) _
  | some ds =>
    have hhalts : removeDotslash m 256 fuel (fun _ => dot) (adverse front) path 0 = _ ∨ _ :=
      removeDotslash_halts hdir h0 adverse_front (le_refl _) habs ⟨hfuel.1, by omega⟩
    rcases hhalts with hs | ⟨cells, text, hs, -, hholds⟩
    · exact bind_outside hs _
    -- the memory around the array is as before
    have hcells : cells 512 = 0 := hholds.outside 512 (Or.inr (by decide))
    obtain ⟨f, hf⟩ := readString_adverse hcells hfuel.2
    show (removeDotslash m 256 fuel (fun _ => dot) (adverse front) path 0 >>= _) = _
    rw [hs]
    show (readString cells fuel 1 >>= _) = _
    rw [hf]
    refine bind_outside (removeDotslash_overruns hdir h0 hover (fun z hz => ?_) ?_ hsmall) _
    · rw [hholds.outside z (Or.inl (by omega))]
      exact hbase z hz
    · rw [hholds.outside (-1) (Or.inl (by decide))]
      exact adverse_front

/-- A name that is empty stands in front of memory without a NUL. -/
theorem removeDotslash_empty (habs : absolute front 256 cwd path = some []) (d : Int)
    (hfuel : path.length < fuel ∧ 511 < fuel) : ∃ cells f,
      removeDotslash m 256 fuel (fun _ => dot) (adverse front) path d = .ok cells ∧
        readString cells fuel 1 = .ok f ∧ ∀ k < 256, cells (1 + k : Nat) ≠ 0 := by
  have hgives : Gives (removeDotslash m 256 fuel (fun _ => dot) (adverse front) path d) _ _ :=
    removeDotslash_gives hdir h0 adverse_front (le_refl _) habs (by decide)
  obtain ⟨cells, hcells, text, -, htext, hholds⟩ := hgives.exists_ok ⟨hfuel.1, by omega⟩
  have hnil : text = [] := by
    rcases htext with rfl | ⟨-, -, hflat⟩
    · rfl
    · exact absurd hflat (by simp [flat])
  subst hnil
  have hlast : cells 512 = 0 := hholds.outside 512 (Or.inr (by decide))
  obtain ⟨f, hf⟩ := readString_adverse hlast hfuel.2
  refine ⟨cells, f, hcells, hf, fun k hk => ?_⟩
  -- the memory behind the NUL is as it was, or has been written with characters
  have hdot : adverse front (1 + k : Nat) = dot := by
    rw [adverse, if_neg (by omega), if_neg (by omega), if_pos (by omega)]
  rcases hholds.behind (1 + k : Nat) (by rw [List.length_nil]; omega) with hcell | hcell
  · rw [hcell, hdot]
    decide
  · exact hcell

end Fails

/-! The search of `exec` in `PATH`. -/

theorem runs_dot {testfile : Chars} (h : ∀ z : Int, i ≤ z → testfile z = dot) :
    Runs testfile i := by
  intro k _
  rw [h _ (by omega)]
  decide

/-- An array with characters that end no entry is searched up to its end, and further. -/
theorem searchPath_outside {path : Chars} (henv : HasEnv m es) (h0 : 0 ∉ filename)
    (hlen : filename.length ≤ 510) (hpath : path 512 = 0)
    (hnot : ∀ value, envMap es searchPathName = some value → value.length ≤ 510 →
      ¬EntriesFit filename value) (hfuel : 513 < fuel) :
    (filled 512 (getPATH m 512) (fun _ => dot) >>= fun testfile =>
      searchLoop (fun _ => 0) testfile filename fuel fuel path 0) = .error .outside := by
  rw [henv.hasPath]
  by_cases hlong : ∀ v, envMap es searchPathName = some v → 0 ∉ v ∧ 512 ≤ v.length + 1
  · -- what is stored of the value is not terminated
    obtain ⟨testfile, hfilled, htext, hbehind⟩ := filled_open hlong fun _ => dot
    have hnul : 0 ∉ ((envMap es searchPathName).getD []).take 512 := by
      intro hmem
      cases hval : envMap es searchPathName with
      | none => simp [hval] at hmem
      | some v =>
        rw [hval, Option.getD_some] at hmem
        exact (hlong v hval).1 (List.mem_of_mem_take hmem)
    have hsize := List.length_take_le 512 ((envMap es searchPathName).getD [])
    rw [hfilled]
    refine searchLoop_outside (fun _ => rfl) (fun k hk => ?_) hnul h0 hlen hpath
      (Or.inl (runs_dot fun z hz => hbehind z (by omega))) (by omega) (by omega)
    rw [Nat.zero_add]
    exact htext k hk
  · -- the value is there with its NUL, and behind it nothing ends an entry
    push Not at hlong
    obtain ⟨value, hvalue, hshort⟩ := hlong
    have h0v := henv.noNul hvalue
    have hlt := hshort h0v
    obtain ⟨testfile, hfilled, hholds⟩ := filled_value h0v hlt fun _ => dot
    have hstored : (valueCopy 512 (some value)).length = value.length + 1 := by
      rw [valueCopy, if_pos hlt, List.length_append, List.length_singleton]
    rw [hvalue, hfilled]
    refine searchLoop_outside (fun _ => rfl) (fun k hk => ?_) h0v h0 hlen hpath
      (Or.inr ⟨?_, runs_dot fun z hz => ?_, hnot value hvalue (by omega)⟩) (by omega) (by omega)
    · rw [Nat.zero_add]
      exact hholds.written k hk
    · rw [Nat.zero_add]
      exact hholds.nul
    · exact filled_other hfilled (by omega)

/-! A relative path in the buffer of `loadFile`. -/

/-- `remove_dotslash` leaves the buffer, or a NUL is left behind it. -/
theorem removeDotslash_search (front : Bool) (hdir : HasCwd m cwd) (h0 : 0 ∉ path)
    (hfuel : path.length < fuel ∧ 512 < fuel) :
    removeDotslash m 512 fuel (fun _ => dot) (adverse front) path 512 = .error .outside ∨
      ∃ cells f, removeDotslash m 512 fuel (fun _ => dot) (adverse front) path 512 = .ok cells ∧
        readString cells fuel 1 = .ok f ∧ cells 512 = 0 := by
  have hsize : 256 ≤ 512 := by decide
  cases habs : absolute front 512 cwd path with
  | none =>
    exact Or.inl (removeDotslash_outside hdir h0 adverse_front hsize habs (adverse_below front)
      (fun _ => show dot ≠ 0 by decide) hfuel)
  | some ds =>
    rcases removeDotslash_halts hdir h0 adverse_front hsize habs ⟨hfuel.1, hfuel.2.le⟩ with
      hs | ⟨cells, text, hs, -, hholds⟩
    · exact Or.inl hs
    · have hcells : cells 512 = 0 := hholds.outside 512 (Or.inr (le_refl _))
      have hread : 511 < fuel := by omega
      obtain ⟨f, hf⟩ := readString_adverse hcells hread
      exact Or.inr ⟨cells, f, hs, hf, hcells⟩

/-- **A path of 15 characters** and more is copied over the registers of the new task. -/
theorem exec_long (hdir : HasCwd m cwd) (h0 : 0 ∉ path) (hlen : 15 ≤ path.length)
    (hfuel : path.length < fuel ∧ 512 < fuel) :
    exec (adversary front 1) m fuel path = .error .outside := by
  -- it is enough that some file is found
  have hcopy : ∀ f : List UInt8, getExecutablePath (adversary front 1) m fuel path = .ok (some f) →
      exec (adversary front 1) m fuel path = .error .outside := by
    intro f hf
    rw [exec, hf]
    show (copyExeName _ path).map some = _
    rw [copyExeName_outside _ h0 hlen]
    rfl
  by_cases habs : path.getD 0 0 = slash
  · exact hcopy _ (if_pos habs)
  · rcases removeDotslash_search front hdir h0 hfuel with hs | ⟨cells, f, hs, hf, -⟩
    · rw [exec, getExecutablePath, if_neg habs]
      exact bind_outside (bind_outside hs _) _
    · refine hcopy f ?_
      rw [getExecutablePath, if_neg habs]
      show (removeDotslash m 512 fuel (fun _ => dot) (adverse front) path 512 >>= _) = _
      rw [hs]
      show (readString cells fuel 1 >>= _) = _
      rw [hf]
      rfl

/-- A relative path leaves the buffer, on the way to its file or in the search. -/
theorem exec_search (henv : HasEnv m es) (h0 : 0 ∉ path) (habs : path.getD 0 0 ≠ slash)
    (hlen : path.length ≤ 510)
    (hnot : absolute front 512 (envMap es pwdName) path = none ∨
      ∀ value, envMap es searchPathName = some value → value.length ≤ 510 → ¬EntriesFit path value)
    (hfuel : 513 < fuel) :
    exec (adversary front 0) m fuel path = .error .outside := by
  have hsmall : path.length < fuel ∧ 512 < fuel := ⟨by omega, by omega⟩
  rw [exec, getExecutablePath, if_neg habs]
  refine bind_outside ?_ _
  rcases hnot with hnone | hnot
  · -- there is no absolute path
    exact bind_outside (removeDotslash_outside henv.hasCwd h0 adverse_front (by decide) hnone
      (adverse_below front) (fun _ => show dot ≠ 0 by decide) hsmall) _
  rcases removeDotslash_search front henv.hasCwd h0 hsmall with hs | ⟨cells, f, hs, hf, hcells⟩
  · exact bind_outside hs _
  · -- nothing is found under it, and the search goes on in `PATH`
    have hclear : cleared cells 512 = 0 := hcells
    show (removeDotslash m 512 fuel (fun _ => dot) (adverse front) path 512 >>= _) = _
    rw [hs]
    show (readString cells fuel 1 >>= _) = _
    rw [hf]
    exact searchPath_outside henv h0 hlen hclear hnot hfuel

/-! ### The four calls -/

theorem exists_overruns (h : ¬AbsoluteFits cwd path) : ∃ front, Overruns front cwd path := by
  rw [AbsoluteFits] at h
  push Not at h
  exact h

/-- A call that a path overruns is not inside. -/
theorem absoluteFits_of_inside (hover : ∀ front, Overruns front cwd path →
      call.run (adversary front 0) m (path.length + 512) path = .error .outside)
    (h : Inside m path call) : AbsoluteFits cwd path := by
  by_contra hnot
  obtain ⟨front, hfront⟩ := exists_overruns hnot
  exact (h (adversary front 0) (path.length + 512)).1 (hover front hfront)

/-- A descriptor that gets the name behind a slash has a NUL in it only if there is a name. -/
theorem ne_nil_of_inside {d : Int} (hdir : HasCwd m cwd) (h0 : 0 ∉ path)
    (hopen : ∀ front cells f,
      removeDotslash m 256 (path.length + 512) (fun _ => dot) (adverse front) path d = .ok cells →
      readString cells (path.length + 512) 1 = .ok f →
      call.run (adversary front 1) m (path.length + 512) path =
        openSlot (adversary front 1) fun i => cells (1 + i : Nat))
    (hleaves : ∀ w name, call.Leaves w name → ∃ k : Nat, k < 256 ∧ name k = 0)
    (h : Inside m path call) (front : Bool) : absolute front 256 cwd path ≠ some [] := by
  intro habs
  have hfuel : path.length < path.length + 512 ∧ 511 < path.length + 512 := by omega
  obtain ⟨cells, f, hs, hf, hfull⟩ := removeDotslash_empty hdir h0 habs d hfuel
  obtain ⟨name, hslot, hname⟩ := openSlot_full (w := adversary front 1) rfl hfull
  have hrun := (hopen front cells f hs hf).trans hslot
  obtain ⟨k, hk, hnul⟩ := hleaves _ name ((h _ _).2 name hrun)
  exact hname k hk hnul

theorem openFile_of_inside (hdir : HasCwd m cwd) (h0 : 0 ∉ path) (hne : path ≠ [])
    (hroot : path ≠ [slash]) (h : Inside m path .openFile) :
    AbsoluteFits cwd path ∧ ∀ front, absolute front 256 cwd path ≠ some [] := by
  refine ⟨absoluteFits_of_inside (fun front hover => ?_) h,
    ne_nil_of_inside (d := 0) hdir h0 (fun front cells f hs hf => ?_) (fun _ _ => id) h⟩
  · exact openFile_overruns hdir h0 hover hne hroot ⟨by omega, by omega⟩
  · show openFile _ m _ path = _
    rw [openFile, if_neg hne, if_neg hroot]
    show (removeDotslash m 256 _ (fun _ => dot) (adverse front) path 0 >>= _) = _
    rw [hs]
    show (readString cells _ 1 >>= _) = _
    rw [hf]
    rfl

theorem openDirectory_of_inside (hdir : HasCwd m cwd) (h0 : 0 ∉ path) (hne : path ≠ [])
    (hroot : path ≠ [slash]) (h : Inside m path .openDirectory) :
    AbsoluteFits cwd path ∧ ∀ front, absolute front 256 cwd path ≠ some [] := by
  refine ⟨absoluteFits_of_inside (fun front hover => ?_) h,
    ne_nil_of_inside (d := 1) hdir h0 (fun front cells f hs hf => ?_) (fun _ _ => id) h⟩
  · exact openDirectory_overruns hdir h0 hover hne hroot ⟨by omega, by omega⟩
  · show openDirectory _ m _ path = _
    rw [openDirectory, if_neg hne, if_neg hroot]
    show (removeDotslash m 256 _ (fun _ => dot) (adverse front) path 1 >>= _) = _
    rw [hs]
    show (readString cells _ 1 >>= _) = _
    rw [hf]
    rfl

/-- The calls do nothing with an empty path, and open the root under the name that is given. -/
theorem inside_root (h : path = [] ∨ path = [slash])
    (hcall : call = .openFile ∨ call = .openDirectory) : Inside m path call := by
  rcases hcall with rfl | rfl
  · rcases h with rfl | rfl
    · exact inside_of_gives fun w fuel => Gives.pure fun name h => by cases h
    · exact inside_of_gives fun w fuel => openSlot_slash
  · rcases h with rfl | rfl
    · exact inside_of_gives fun w fuel => Gives.pure fun name h => by cases h
    · exact inside_of_gives fun w fuel => openSlot_slash

theorem exec_of_inside (henv : HasEnv m es) (h0 : 0 ∉ path) (h : Inside m path .exec) :
    Call.exec.Fits (envMap es pwdName) (envMap es searchPathName) path := by
  -- each part of the condition by a world that breaks the call without it
  have hlen : path.length ≤ 14 := by
    by_contra hlong
    exact (h (adversary true 1) (path.length + 513)).1
      (exec_long henv.hasCwd h0 (by omega) ⟨by omega, by omega⟩)
  refine ⟨hlen, fun habs => ⟨fun front hnone => ?_, ?_⟩⟩
  · exact (h (adversary front 0) 514).1
      (exec_search henv h0 habs (by omega) (Or.inl hnone) (by decide))
  · by_contra hnot
    refine (h (adversary true 0) 514).1 (exec_search henv h0 habs (by omega)
      (Or.inr fun value hvalue hshort hfits => hnot ?_) (by decide))
    exact ⟨value, hvalue, hshort, hfits⟩

/-- **The calls keep a path inside their arrays exactly where it fits.** -/
theorem paths_inside_iff (henv : HasEnv m es) (h0 : 0 ∉ path) (call : Call) :
    Inside m path call ↔ call.Fits (envMap es pwdName) (envMap es searchPathName) path := by
  have hdir := henv.hasCwd
  cases call with
  | exec => exact ⟨exec_of_inside henv h0, exec_fits henv h0⟩
  | changeDirectory =>
    refine ⟨absoluteFits_of_inside fun front hover => ?_, changeDirectory_fits hdir h0⟩
    exact changeDirectory_overruns hdir h0 hover ⟨by omega, by omega⟩
  | openFile =>
    constructor
    · intro h
      by_cases hne : path = []
      · exact Or.inl hne
      by_cases hroot : path = [slash]
      · exact Or.inr (Or.inl hroot)
      exact Or.inr (Or.inr (openFile_of_inside hdir h0 hne hroot h))
    · rintro (hnil | hroot | ⟨hfits, hne⟩)
      · exact inside_root (Or.inl hnil) (Or.inl rfl)
      · exact inside_root (Or.inr hroot) (Or.inl rfl)
      · exact openFile_fits hdir h0 hfits hne
  | openDirectory =>
    constructor
    · intro h
      by_cases hne : path = []
      · exact Or.inl hne
      by_cases hroot : path = [slash]
      · exact Or.inr (Or.inl hroot)
      exact Or.inr (Or.inr (openDirectory_of_inside hdir h0 hne hroot h))
    · rintro (hnil | hroot | ⟨hfits, hne⟩)
      · exact inside_root (Or.inl hnil) (Or.inr rfl)
      · exact inside_root (Or.inr hroot) (Or.inr rfl)
      · exact openDirectory_fits hdir h0 hfits hne

/-- `setenv` keeps such an environment. -/
theorem hasEnv_of_wellFormed (h : WellFormedEnv m es) (hfew : es.length < walkFuel) : HasEnv m es :=
  ⟨h.environ, h.fits, h.name_short, hfew⟩

/-- `exec("/bin/ls")` in the environment of the first process. -/
theorem exec_ls_inside :
    Inside (startMem (initialEnv.map entryOf)) [0x2F, 0x62, 0x69, 0x6E, 0x2F, 0x6C, 0x73] .exec :=
  (paths_inside_iff (hasEnv_of_wellFormed initialEnv_wellFormed (by decide)) (by decide) .exec).mpr
    ⟨by decide, fun h => absurd rfl h⟩

/-- **`exec("bin/../bin/sleep")` is not inside**: its 16 characters and the NUL go to `exeName`. -/
theorem exec_sleep_not_inside :
    ¬ Inside (startMem (initialEnv.map entryOf)) [0x62, 0x69, 0x6E, 0x2F, 0x2E, 0x2E, 0x2F, 0x62,
      0x69, 0x6E, 0x2F, 0x73, 0x6C, 0x65, 0x65, 0x70] .exec := by
  intro h
  have henv := hasEnv_of_wellFormed initialEnv_wellFormed (by decide)
  exact (h (adversary true 1) 600).1
    (exec_long henv.hasCwd (by decide) (by decide) ⟨by decide, by decide⟩)

end PathBuffers

end Sbunix
