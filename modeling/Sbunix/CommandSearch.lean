import Sbunix.Paths

/-!
# The search for a command

`get_executable_path` tries the name in the current directory, and then in the directories of the
variable `PATH`. It copies the value to the array `testfile[512]` on its stack, which `getPATH`
ends with a NUL byte where there is room, and goes through it with one index: an entry ends with a
colon or with the NUL byte, and either is stepped over.

Behind the last entry the step leads past the NUL byte. So a search that finds nothing ends only
where the array has held another NUL byte there; with `firstExisting` as what the search is for,
`Searchable` is what it takes (`get_executable_path_iff`).
-/

namespace Sbunix

/-- `':'`. -/
def colon : UInt8 := 0x3A

/-- `PATH`. -/
def searchPathName : List UInt8 := [0x50, 0x41, 0x54, 0x48]

/-- `getPATH`: the bytes that it stores. -/
def getPATH (m : UserMem) (count : Nat) : Option (List UInt8) := do
  match ← getenv m searchPathName with
  | none => some []
  | some start => copyValue m count start

/-- The array `testfile` with `stored` in it; `stack` is what it has held before. -/
def testfile (stored : List UInt8) (stack : Nat → UInt8) (i : Nat) : Option UInt8 :=
  if i < 512 then some (stored[i]?.getD (stack i)) else none

/-- The characters of `testfile` up to a colon or a NUL byte. They have to fit into `room` bytes. -/
def pathEntry (buf : Nat → Option UInt8) : Nat → Nat → Option (List UInt8)
  | 0, _ => none
  | room + 1, i => do
    let c ← buf i
    if c = colon ∨ c = 0 then some [] else (pathEntry buf room (i + 1)).map (c :: ·)

/-- The entry, a slash unless there is one, and the name of the command. -/
def candidate (filename entry : List UInt8) : List UInt8 :=
  (if entry.getLast? = some slash then entry else entry ++ [slash]) ++ filename

/-- The loop of `get_executable_path`: what is returned, and the candidates that are looked for with
`find`. An empty entry reads in front of the buffer `path[512]`, a long one runs over it. -/
def searchFrom (find : List UInt8 → Option Nat) (buf : Nat → Option UInt8)
    (filename : List UInt8) : Nat → Nat → Option (Option (List UInt8) × List (List UInt8))
  | 0, _ => none
  | fuel + 1, i => do
    let c ← buf i
    if c = 0 then some (none, [])
    else
      let entry ← pathEntry buf 512 i
      let path := candidate filename entry
      if entry = [] ∨ 511 < path.length then none
      else
        let address ← find (path.drop 1)
        if address = 0 then
          (searchFrom find buf filename fuel (i + entry.length + 1)).map fun r =>
            (r.1, path :: r.2)
        else some (some (path.drop 1), [path])

/-- `get_executable_path`, in the address space `user`: what it returns, and the candidates that it
has looked for. -/
def getExecutablePath (find : List UInt8 → Option Nat) (user : UserMem) (stack : Nat → UInt8)
    (filename : List UInt8) : Option (Option (List UInt8) × List (List UInt8)) :=
  if filename.getD 0 0 = slash then some (some (filename.drop 1), [])
  else do
    let path ← removeDotslashIn user 511 filename 512
    let address ← find (path.drop 1)
    if 0 < address then some (some (path.drop 1), [path])
    else
      let stored ← getPATH user 512
      (searchFrom find (testfile stored stack) filename 513 0).map fun r => (r.1, path :: r.2)

/-! ### What it is for -/

/-- **The first candidate that exists**, without its first slash, and the candidates up to it. -/
def firstExisting (find : List UInt8 → Option Nat) :
    List (List UInt8) → Option (List UInt8) × List (List UInt8)
  | [] => (none, [])
  | path :: paths =>
    if find (path.drop 1) = some 0 then
      ((firstExisting find paths).1, path :: (firstExisting find paths).2)
    else (some (path.drop 1), [path])

/-- Directories of `PATH`. -/
def IsEntry (entry : List UInt8) : Prop :=
  entry.getD 0 0 = slash ∧ colon ∉ entry ∧ 0 ∉ entry

instance (entry : List UInt8) : Decidable (IsEntry entry) := inferInstanceAs (Decidable (_ ∧ _))

/-- The value of `PATH`: the directories with colons between them. -/
def joined (entries : List (List UInt8)) : List UInt8 := [colon].intercalate entries

/-- The variable `PATH` has this value. -/
def HasPath (user : UserMem) (value : List UInt8) : Prop :=
  ∃ es n i, Environ user es n ∧ (∀ v ∈ es, VarFits v) ∧ es.length < walkFuel ∧
    scan es searchPathName = some (some i) ∧ es[i]? = some (searchPathName, value)

/-- **What the search takes**: candidates fit into the buffer up to the one that exists; the last
entry ends with a colon or a NUL byte, `stop`; and where no candidate exists there is another NUL
byte behind it, `behind`. -/
def Searchable (find : List UInt8 → Option Nat) (filename : List UInt8)
    (stop behind : Option UInt8) : List (List UInt8) → Prop
  | [] => True
  | entry :: entries =>
    (candidate filename entry).length ≤ 511 ∧
      (entries = [] → stop = some 0 ∨ stop = some colon) ∧
      (find ((candidate filename entry).drop 1) = some 0 →
        if entries = [] then behind = some 0 else Searchable find filename stop behind entries)

variable {find : List UInt8 → Option Nat} {buf : Nat → Option UInt8} {filename entry : List UInt8}
  {entries : List (List UInt8)} {i fuel room : Nat}

theorem IsEntry.ne_nil (h : IsEntry entry) : entry ≠ [] := by
  rintro rfl
  exact absurd h.1 (by decide)

/-- **Where nothing exists**, candidates fit and the array has another NUL byte. -/
theorem searchable_nothing {stop behind : Option UInt8} (h : ∀ f, find f = some 0)
    (hne : entries ≠ []) : Searchable find filename stop behind entries ↔
      (∀ e ∈ entries, (candidate filename e).length ≤ 511) ∧
        (stop = some 0 ∨ stop = some colon) ∧ behind = some 0 := by
  induction entries with
  | nil => exact absurd rfl hne
  | cons entry entries ih =>
    rw [Searchable, List.forall_mem_cons]
    cases entries with
    | nil =>
      simp only [if_pos, h, forall_true_left, List.not_mem_nil, false_imp_iff, implies_true,
        and_true]
    | cons next entries =>
      have hcons : next :: entries ≠ [] := List.cons_ne_nil next entries
      simp only [hcons, if_false, h, forall_true_left, false_imp_iff, true_and, ih hcons, and_assoc]

/-- An entry that ends is read to its end. -/
theorem pathEntry_eq (hc : colon ∉ entry) (h0 : 0 ∉ entry)
    (hbuf : ∀ x < entry.length, buf (i + x) = entry[x]?)
    (hend : buf (i + entry.length) = some 0 ∨ buf (i + entry.length) = some colon)
    (hroom : entry.length < room) : pathEntry buf room i = some entry := by
  -- along the entry; the loop has looked at each of its characters when it comes to the end
  induction entry generalizing i room with
  | nil =>
    obtain ⟨room, rfl⟩ := Nat.exists_eq_succ_of_ne_zero (Nat.ne_of_gt hroom)
    rw [List.length_nil, Nat.add_zero] at hend
    rcases hend with hend | hend
    · rw [pathEntry, hend, Option.bind_eq_bind, Option.bind_some, if_pos (Or.inr rfl)]
    · rw [pathEntry, hend, Option.bind_eq_bind, Option.bind_some, if_pos (Or.inl rfl)]
  | cons c entry ih =>
    obtain ⟨room, rfl⟩ := Nat.exists_eq_succ_of_ne_zero (Nat.ne_of_gt (Nat.zero_lt_of_lt hroom))
    have hcc := List.ne_of_not_mem_cons hc
    have hc0 := List.ne_of_not_mem_cons h0
    replace hc := List.not_mem_of_not_mem_cons hc
    replace h0 := List.not_mem_of_not_mem_cons h0
    have hfirst : buf i = some c := hbuf 0 (Nat.zero_lt_succ _)
    rw [pathEntry, hfirst, Option.bind_eq_bind, Option.bind_some,
      if_neg (not_or.mpr ⟨Ne.symm hcc, Ne.symm hc0⟩), ih hc h0 (fun x hx => ?_) ?_
        (Nat.lt_of_succ_lt_succ hroom), Option.map_some]
    · rwa [List.length_cons, show i + (entry.length + 1) = i + 1 + entry.length by omega] at hend
    · have := hbuf (x + 1) (Nat.succ_lt_succ hx)
      rwa [show i + (x + 1) = i + 1 + x by omega] at this

/-- An entry that does not end before the array does. -/
theorem pathEntry_eq_none (hc : colon ∉ entry) (h0 : 0 ∉ entry)
    (hbuf : ∀ x < entry.length, buf (i + x) = entry[x]?)
    (hend : buf (i + entry.length) ≠ some 0 ∧ buf (i + entry.length) ≠ some colon)
    (hout : buf (i + entry.length + 1) = none) (room : Nat) : pathEntry buf room i = none := by
  induction entry generalizing i room with
  | nil =>
    cases room with
    | zero => rfl
    | succ room =>
      rw [List.length_nil, Nat.add_zero] at hend hout
      rw [pathEntry]
      -- one character more belongs to it, and then the array is over
      cases hb : buf i with
      | none => rfl
      | some c =>
        rw [hb] at hend
        rw [Option.bind_eq_bind, Option.bind_some, if_neg (not_or.mpr
          ⟨fun hc => hend.2 (congrArg some hc), fun hc => hend.1 (congrArg some hc)⟩)]
        cases room with
        | zero => rfl
        | succ room => rw [pathEntry, hout]; rfl
  | cons c entry ih =>
    cases room with
    | zero => rfl
    | succ room =>
      have hcc := List.ne_of_not_mem_cons hc
      have hc0 := List.ne_of_not_mem_cons h0
      replace hc := List.not_mem_of_not_mem_cons hc
      replace h0 := List.not_mem_of_not_mem_cons h0
      have hfirst : buf i = some c := hbuf 0 (Nat.zero_lt_succ _)
      rw [List.length_cons, show i + (entry.length + 1) = i + 1 + entry.length by omega]
        at hend hout
      rw [pathEntry, hfirst, Option.bind_eq_bind, Option.bind_some,
        if_neg (not_or.mpr ⟨Ne.symm hcc, Ne.symm hc0⟩), ih hc h0 (fun x hx => ?_) hend hout,
        Option.map_none]
      have := hbuf (x + 1) (Nat.succ_lt_succ hx)
      rwa [show i + (x + 1) = i + 1 + x by omega] at this

theorem joined_cons_cons (entry next : List UInt8) (entries : List (List UInt8)) :
    joined (entry :: next :: entries) = entry ++ colon :: joined (next :: entries) := by
  simp [joined, List.intercalate]

theorem joined_singleton (entry : List UInt8) : joined [entry] = entry := by
  simp [joined, List.intercalate]

/-- Every entry has a character at least. -/
theorem length_le_joined (h : ∀ e ∈ entries, e ≠ []) :
    entries.length ≤ (joined entries).length := by
  induction entries with
  | nil => exact Nat.zero_le _
  | cons entry entries ih =>
    have hpos := List.length_pos_of_ne_nil (h entry List.mem_cons_self)
    cases entries with
    | nil =>
      rw [joined_singleton]
      exact hpos
    | cons next entries =>
      have hrest := ih fun e he => h e (List.mem_cons_of_mem entry he)
      rw [joined_cons_cons, List.length_append, List.length_cons,
        @List.length_cons _ _ (joined (next :: entries))]
      omega

/-- The loop behind the last entry. -/
theorem searchFrom_eq_nil : searchFrom find buf filename (fuel + 1) i = some (none, []) ↔
    buf i = some 0 := by
  rw [searchFrom]
  cases hb : buf i with
  | none => simp
  | some c =>
    rw [Option.bind_eq_bind, Option.bind_some]
    by_cases hc : c = 0
    · rw [if_pos hc, hc]
      simp
    · -- a round has a candidate, so that the list is not empty
      rw [if_neg hc]
      refine iff_of_false (fun h => ?_) (by simpa using hc)
      obtain ⟨entry, -, h⟩ := Option.bind_eq_some_iff.mp h
      dsimp only at h
      split at h
      · cases h
      · obtain ⟨address, -, h⟩ := Option.bind_eq_some_iff.mp h
        split at h
        · obtain ⟨r, -, hr⟩ := Option.map_eq_some_iff.mp h
          exact absurd (Prod.mk.inj hr).2 (List.cons_ne_nil _ _)
        · cases h

/-- A candidate that does not exist is followed by the rest of the search. -/
theorem map_cons_eq {α : Type} {o : Option (Option α × List α)} {path : α}
    {r : Option α × List α} :
    o.map (fun r => (r.1, path :: r.2)) = some (r.1, path :: r.2) ↔ o = some r := by
  cases o with
  | none => simp
  | some q =>
    rw [Option.map_some, Option.some_inj, Option.some_inj, Prod.mk.injEq, List.cons.injEq]
    exact ⟨fun h => Prod.ext h.1 h.2.2, fun h => h ▸ ⟨rfl, rfl, rfl⟩⟩

/-- **A round of the loop** that reads its entry. -/
theorem searchFrom_entry (he : IsEntry entry) (hfirst : buf i = some slash)
    (hentry : pathEntry buf 512 i = some entry) :
    searchFrom find buf filename (fuel + 1) i =
      if 511 < (candidate filename entry).length then none
      else (find ((candidate filename entry).drop 1)).bind fun address =>
        if address = 0 then
          (searchFrom find buf filename fuel (i + entry.length + 1)).map fun r =>
            (r.1, candidate filename entry :: r.2)
        else some (some ((candidate filename entry).drop 1), [candidate filename entry]) := by
  have hslash : slash ≠ 0 := by decide
  rw [searchFrom]
  simp only [hfirst, Option.bind_eq_bind, Option.bind_some, if_neg hslash, hentry, he.ne_nil,
    false_or]

/-- A round of the loop **against `firstExisting`**, where `P` is what the rest of the search
takes. -/
theorem searchFrom_entry_iff {P : Prop}
    (hfind : ∃ a, find ((candidate filename entry).drop 1) = some a) (he : IsEntry entry)
    (hfirst : buf i = some slash) (hentry : pathEntry buf 512 i = some entry)
    (hrest : searchFrom find buf filename fuel (i + entry.length + 1) =
      some (firstExisting find (entries.map (candidate filename))) ↔ P) :
    searchFrom find buf filename (fuel + 1) i =
        some (firstExisting find ((entry :: entries).map (candidate filename))) ↔
      (candidate filename entry).length ≤ 511 ∧
        (find ((candidate filename entry).drop 1) = some 0 → P) := by
  obtain ⟨a, ha⟩ := hfind
  rw [searchFrom_entry he hfirst hentry, List.map_cons, firstExisting, ha, Option.bind_some]
  by_cases hfit : 511 < (candidate filename entry).length
  · -- the candidate runs over the buffer
    rw [if_pos hfit]
    exact iff_of_false (fun h => by cases h) fun h => absurd h.1 (Nat.not_le.mpr hfit)
  rw [if_neg hfit, and_iff_right (Nat.le_of_not_lt hfit)]
  by_cases h0 : a = 0
  · -- it does not exist, and the search goes on
    subst h0
    rw [if_pos rfl, if_pos rfl, map_cons_eq, hrest]
    exact ⟨fun h _ => h, fun h => h rfl⟩
  · have h0' : some a ≠ some 0 := fun hc => h0 (Option.some.inj hc)
    rw [if_neg h0, if_neg h0']
    exact iff_of_true rfl fun hc => absurd hc h0'

theorem joined_head (h : ∀ e ∈ entry :: entries, IsEntry e) :
    (joined (entry :: entries))[0]? = some slash := by
  obtain ⟨hslash, -, -⟩ := h entry List.mem_cons_self
  obtain ⟨c, rest, rfl⟩ := List.exists_cons_of_ne_nil (h entry List.mem_cons_self).ne_nil
  obtain rfl : c = slash := hslash
  cases entries with
  | nil => rw [joined_singleton]; rfl
  | cons next entries => rw [joined_cons_cons]; rfl

/-- **The loop** finds the first candidate that exists, where the search has what it takes. -/
theorem searchFrom_iff (hfind : ∀ f, ∃ a, find f = some a) (hne : entries ≠ [])
    (he : ∀ e ∈ entries, IsEntry e)
    (hbuf : ∀ x < (joined entries).length, buf (i + x) = (joined entries)[x]?)
    (hout : buf (i + (joined entries).length) ≠ some 0 →
      buf (i + (joined entries).length + 1) = none)
    (hlen : (joined entries).length < 512) (hfuel : entries.length < fuel) :
    searchFrom find buf filename fuel i =
        some (firstExisting find (entries.map (candidate filename))) ↔
      Searchable find filename (buf (i + (joined entries).length))
        (buf (i + (joined entries).length + 1)) entries := by
  induction entries generalizing i fuel with
  | nil => exact absurd rfl hne
  | cons entry entries ih =>
    obtain ⟨fuel, rfl⟩ := Nat.exists_eq_succ_of_ne_zero (Nat.ne_of_gt (Nat.zero_lt_of_lt hfuel))
    have hE := he entry List.mem_cons_self
    have hpos : 0 < (joined (entry :: entries)).length :=
      Nat.lt_of_lt_of_le (Nat.zero_lt_succ _) (length_le_joined fun e h => (he e h).ne_nil)
    have hfirst : buf i = some slash := (hbuf 0 hpos).trans (joined_head he)
    rw [Searchable]
    cases entries with
    | nil =>
      -- the last entry ends where the value does
      rw [joined_singleton] at hbuf hout hlen ⊢
      by_cases hend : buf (i + entry.length) = some 0 ∨ buf (i + entry.length) = some colon
      · have hentry := pathEntry_eq hE.2.1 hE.2.2 hbuf hend hlen
        obtain ⟨fuel, rfl⟩ := Nat.exists_eq_succ_of_ne_zero
          (Nat.ne_of_gt (Nat.lt_of_succ_lt_succ hfuel))
        refine Iff.trans (searchFrom_entry_iff (hfind _) hE hfirst hentry searchFrom_eq_nil) ?_
        rw [if_pos rfl]
        exact and_congr_right fun _ => ⟨fun h => ⟨fun _ => hend, h⟩, fun h => h.2⟩
      · -- the last entry runs out of the array
        have hne0 := not_or.mp hend
        have hentry := pathEntry_eq_none hE.2.1 hE.2.2 hbuf hne0 (hout hne0.1) 512
        have hnone : searchFrom find buf filename (fuel + 1) i = none := by
          have hslash : slash ≠ 0 := by decide
          rw [searchFrom]
          simp only [hfirst, Option.bind_eq_bind, Option.bind_some, if_neg hslash, hentry,
            Option.bind_none]
        rw [hnone]
        exact iff_of_false (fun h => by cases h) fun h => hend (h.2.1 rfl)
    | cons next entries =>
      rw [joined_cons_cons] at hbuf hout hlen ⊢
      have hsum : (entry ++ colon :: joined (next :: entries)).length =
          entry.length + 1 + (joined (next :: entries)).length := by
        rw [List.length_append, List.length_cons]
        omega
      -- any other one ends at a colon
      have hcolon : buf (i + entry.length) = some colon := by
        rw [hbuf entry.length (by omega), List.getElem?_append_right (Nat.le_refl _), Nat.sub_self]
        rfl
      have hentry := pathEntry_eq hE.2.1 hE.2.2 (fun x hx => by
        rw [hbuf x (by omega), List.getElem?_append_left hx]) (Or.inr hcolon)
        (show entry.length < 512 by omega)
      have hbehind : i + entry.length + 1 + (joined (next :: entries)).length =
          i + (entry ++ colon :: joined (next :: entries)).length := by omega
      have hbuf' : ∀ x < (joined (next :: entries)).length,
          buf (i + entry.length + 1 + x) = (joined (next :: entries))[x]? := by
        intro x hx
        have := hbuf (entry.length + 1 + x) (by omega)
        rw [List.getElem?_append_right (by omega),
          show entry.length + 1 + x - entry.length = x + 1 by omega, List.getElem?_cons_succ]
          at this
        rwa [show i + entry.length + 1 + x = i + (entry.length + 1 + x) by omega]
      -- the rest of the value starts behind the colon
      have hrest := @ih (i + entry.length + 1) fuel (List.cons_ne_nil next entries)
        (fun e h => he e (List.mem_cons_of_mem entry h)) hbuf' (by rwa [hbehind]) (by omega)
        (Nat.lt_of_succ_lt_succ hfuel)
      rw [hbehind] at hrest
      have hcons : next :: entries ≠ [] := List.cons_ne_nil next entries
      refine Iff.trans (searchFrom_entry_iff (hfind _) hE hfirst hentry hrest) ?_
      rw [if_neg hcons]
      exact and_congr_right fun _ => ⟨fun h => ⟨fun hc => absurd hc hcons, h⟩, fun h => h.2⟩

/-! ### The array -/

/-- The byte behind the value in `testfile`. -/
def stopByte (value : List UInt8) (stack : Nat → UInt8) : Option UInt8 :=
  if value.length < 511 then some 0 else some (stack 511)

/-- The byte behind that one. -/
def behindByte (value : List UInt8) (stack : Nat → UInt8) : Option UInt8 :=
  if value.length < 511 then some (stack (value.length + 1)) else none

variable {user : UserMem} {value : List UInt8}

/-- **What `getPATH` leaves** in the array. -/
theorem getPATH_spec (h : HasPath user value) (hlen : value.length < 512) (stack : Nat → UInt8) :
    ∃ stored, getPATH user 512 = some stored ∧
      (∀ x < value.length, testfile stored stack x = value[x]?) ∧
      testfile stored stack value.length = stopByte value stack ∧
      testfile stored stack (value.length + 1) = behindByte value stack := by
  obtain ⟨es, n, i, henv, hes, hn, hscan, hi⟩ := h
  obtain ⟨w, a, hw, hmem, -, hfound, hbytes⟩ := getenv_found henv hes hn hscan
  obtain rfl : w = (searchPathName, value) := Option.some.inj (hw.symm.trans hi)
  have hzero := (hes _ hmem).valueZero
  have hget : getPATH user 512 = copyValue user 512 a := by
    rw [getPATH, hfound]
    rfl
  -- whatever is stored behind it, the value is at the start of the array
  have hinside : ∀ {rest : List UInt8}, ∀ x < value.length,
      testfile (value ++ rest) stack x = value[x]? := by
    intro rest x hx
    rw [testfile, if_pos (Nat.lt_trans hx hlen), List.getElem?_append_left hx,
      List.getElem?_eq_getElem hx, Option.getD_some]
  rw [hget, stopByte, behindByte]
  by_cases hshort : value.length < 511
  · -- there is room for the NUL byte
    rw [if_pos hshort, if_pos hshort]
    refine ⟨value ++ [0], copyValue_spec hzero hbytes (by omega), hinside, ?_, ?_⟩
    · rw [testfile, if_pos hlen, List.getElem?_append_right (Nat.le_refl _), Nat.sub_self]
      rfl
    · rw [testfile, if_pos (by omega), List.getElem?_eq_none (by simp), Option.getD_none]
  · -- 511 characters are stored without one
    rw [if_neg hshort, if_neg hshort]
    have hfull : value.length = 511 := by omega
    have hcopy := copyValue_long hzero hbytes (show 512 ≤ value.length + 1 by omega)
    rw [List.take_of_length_le hlen.le] at hcopy
    refine ⟨value, hcopy, ?_, ?_, ?_⟩
    · have := @hinside []
      rwa [List.append_nil] at this
    · rw [testfile, if_pos hlen, List.getElem?_eq_none (Nat.le_refl _), Option.getD_none, hfull]
    · rw [testfile, if_neg (by omega)]

/-- The search in the directories of `PATH`. -/
theorem searchPath_iff (hfind : ∀ f, ∃ a, find f = some a) (he : ∀ e ∈ entries, IsEntry e)
    (hpath : HasPath user (joined entries)) (hlen : (joined entries).length < 512)
    (stack : Nat → UInt8) :
    ∃ stored, getPATH user 512 = some stored ∧
      (searchFrom find (testfile stored stack) filename 513 0 =
          some (firstExisting find (entries.map (candidate filename))) ↔
        Searchable find filename (stopByte (joined entries) stack)
          (behindByte (joined entries) stack) entries) := by
  obtain ⟨stored, hstored, hinside, hstop, hbehind⟩ := getPATH_spec hpath hlen stack
  refine ⟨stored, hstored, ?_⟩
  by_cases hne : entries = []
  · -- an empty value ends where it starts
    subst hne
    exact iff_of_true (searchFrom_eq_nil.mpr hstop) trivial
  have hcount : entries.length < 513 := by
    have := length_le_joined fun e h => (he e h).ne_nil
    omega
  have hout : testfile stored stack (0 + (joined entries).length) ≠ some 0 →
      testfile stored stack (0 + (joined entries).length + 1) = none := by
    intro hne0
    rw [Nat.zero_add] at hne0 ⊢
    rw [hstop, stopByte] at hne0
    rw [hbehind, behindByte]
    split at hne0
    · exact absurd rfl hne0
    · rw [if_neg ‹_›]
  have h := @searchFrom_iff find (testfile stored stack) filename entries 0 513
    hfind hne he (fun x hx => (Nat.zero_add x).symm ▸ hinside x hx) hout hlen hcount
  rwa [Nat.zero_add, hstop, hbehind] at h

/-- **The search for a command**, for a name that does not start with a slash and a variable `PATH`
of directories. Where the archive can be searched, the result and the candidates that are looked for
are those of `firstExisting` exactly if the path in the current directory is made in its buffers and
names a file, or the search in the directories has what it takes. -/
theorem get_executable_path_iff {m : ByteMem.Mem} {ar : Archive}
    (hfind : ∀ f, ∃ a, getFileAddress m ar f = some a) (hname : filename.getD 0 0 ≠ slash)
    (he : ∀ e ∈ entries, IsEntry e) (hpath : HasPath user (joined entries))
    (hlen : (joined entries).length < 512) (stack : Nat → UInt8) :
    (∃ path, removeDotslashIn user 511 filename 512 = some path ∧
      getExecutablePath (getFileAddress m ar) user stack filename =
        some (firstExisting (getFileAddress m ar) (path :: entries.map (candidate filename)))) ↔
    ∃ path, removeDotslashIn user 511 filename 512 = some path ∧
      (getFileAddress m ar (path.drop 1) = some 0 →
        Searchable (getFileAddress m ar) filename (stopByte (joined entries) stack)
          (behindByte (joined entries) stack) entries) := by
  refine exists_congr fun path => and_congr_right fun hres => ?_
  obtain ⟨a, ha⟩ := hfind (path.drop 1)
  obtain ⟨stored, hstored, hsearch⟩ :=
    @searchPath_iff _ filename _ _ hfind he hpath hlen stack
  rw [getExecutablePath, if_neg hname, firstExisting, ha]
  simp only [hres, Option.bind_eq_bind, Option.bind_some, ha, hstored]
  by_cases h0 : a = 0
  · subst h0
    rw [if_neg (Nat.lt_irrefl 0), if_pos rfl, map_cons_eq, hsearch]
    exact ⟨fun h _ => h, fun h => h rfl⟩
  · have h0' : some a ≠ some 0 := fun hc => h0 (Option.some.inj hc)
    rw [if_pos (Nat.pos_of_ne_zero h0), if_neg h0']
    exact iff_of_true rfl fun hc => absurd hc h0'

/-! ### The first process -/

/-- An archive without a file. -/
def emptyArchive : Archive := ⟨kernbase, kernbase⟩

theorem getFileAddress_empty (m : ByteMem.Mem) (f : List UInt8) :
    getFileAddress m emptyArchive f = some 0 := by
  have hsearch : searchArchive m emptyArchive.finish f emptyArchive.fuel emptyArchive.start =
      some (emptyArchive.start, false) := if_neg (Nat.lt_irrefl _)
  rw [getFileAddress, hsearch]
  simp

/-- The directories of the first process. -/
def initialPath : List (List UInt8) := [[0x2F], [0x2F, 0x62, 0x69, 0x6E], [0x2F, 0x75, 0x73, 0x72]]

theorem initialEnv_path :
    HasPath (startMem (initialEnv.map entryOf ++ List.replicate 0 [])) (joined initialPath) :=
  ⟨initialEnv, _, 1, initialEnv_started.environ_start, fun v hv => (initialEnv_ok v hv).fits,
    show 2 < 65536 + 1 by omega, by decide, by decide⟩

/-- The name `x` in the directory of the first process. -/
theorem removeDotslashIn_x :
    removeDotslashIn (startMem (initialEnv.map entryOf ++ List.replicate 0 [])) 511 [0x78] 512 =
      some [0x2F, 0x78] := by
  have hcwd := cwdString_spec initialEnv_pwd (show [slash].length < 255 by decide)
  rw [removeDotslashIn, dotslashStart, if_neg (by decide), hcwd]
  decide

/-- The first process looks for a command in an archive without a file. -/
theorem get_executable_path_nothing : ∃ path,
    removeDotslashIn (startMem (initialEnv.map entryOf ++ List.replicate 0 [])) 511 [0x78] 512 =
      some path ∧
    getExecutablePath (getFileAddress (fun _ => 0) emptyArchive)
        (startMem (initialEnv.map entryOf ++ List.replicate 0 [])) (fun _ => 0) [0x78] =
      some (firstExisting (getFileAddress (fun _ => 0) emptyArchive)
        (path :: initialPath.map (candidate [0x78]))) := by
  refine (get_executable_path_iff (fun f => ⟨0, getFileAddress_empty _ f⟩) (by decide) (by decide)
    initialEnv_path (by decide) fun _ => 0).mpr ⟨_, removeDotslashIn_x, fun _ => ?_⟩
  exact (searchable_nothing (getFileAddress_empty _) (by decide)).mpr (by decide)

/-- **A search that does not end with `PATH`.** The array has held the character `x` behind the
NUL byte that `getPATH` puts there. -/
theorem get_executable_path_overruns : ¬ ∃ path,
    removeDotslashIn (startMem (initialEnv.map entryOf ++ List.replicate 0 [])) 511 [0x78] 512 =
      some path ∧
    getExecutablePath (getFileAddress (fun _ => 0) emptyArchive)
        (startMem (initialEnv.map entryOf ++ List.replicate 0 [])) (fun _ => 0x78) [0x78] =
      some (firstExisting (getFileAddress (fun _ => 0) emptyArchive)
        (path :: initialPath.map (candidate [0x78]))) := by
  rintro ⟨path, hres, hsearch⟩
  obtain rfl : [0x2F, 0x78] = path := Option.some.inj (removeDotslashIn_x.symm.trans hres)
  obtain ⟨stored, hstored, hiff⟩ := @searchPath_iff _ [0x78] _ _
    (fun f => ⟨0, getFileAddress_empty (fun _ => 0) f⟩) (by decide) initialEnv_path (by decide)
    fun _ => 0x78
  rw [getExecutablePath, if_neg (by decide), firstExisting, if_pos (getFileAddress_empty _ _)]
    at hsearch
  simp only [hres, Option.bind_eq_bind, Option.bind_some, getFileAddress_empty, hstored]
    at hsearch
  rw [if_neg (Nat.lt_irrefl 0)] at hsearch
  have hneeds := (searchable_nothing (getFileAddress_empty _) (by decide)).mp
    (hiff.mp (map_cons_eq.mp hsearch))
  exact absurd hneeds.2.2 (by decide)

end Sbunix
