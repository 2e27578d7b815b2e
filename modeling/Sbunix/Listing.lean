import Sbunix.Lib.PathTree
import Sbunix.ArchiveLayout
import Sbunix.ReadFile

/-!
# Reading directories

The archive is a flat list of headers. `readDir` and `getDirEntries` find the children of a
directory in it: of the headers whose names start with that of the directory they take the next
component, and of equal components that follow each other the first. `readDir` keeps in the
descriptor where it is and what it has returned last; `getDirEntries` goes through the headers in
one pass.

`Headers m finish a ns` says that the headers from `a` on have the names `ns`, the blocks of zeros
behind the last entry included: their name is empty. All loops are followed on such a list, and
return the places where the list of the components `changes`.

## Main results

* `headers_of_laid` — an archive is such a list;
* `nextFirst_spec`, `nextSub_spec` — what one call of `readDir` finds;
* `rootDirents_spec`, `subDirents_spec` — what `getDirEntries` writes.
-/

namespace Sbunix

open ByteMem PathTree

/-- `struct dirent`. -/
structure Dirent where
  dIno : Nat
  dOff : Nat
  dReclen : Nat
  dName : List UInt8
  deriving DecidableEq, Repr

/-- `sizeof(struct dirent)`. -/
def direntSize : Nat := 280

/-- A record as it is filled in. -/
def Dirent.ofName (name : List UInt8) : Dirent := ⟨0, 0, direntSize, name⟩

section Source

variable (m : Mem)

/-- The next header: `start+size+512`, with the size rounded up to blocks. -/
def following (start : Nat) : Nat :=
  (((start : Int) + blockedSize (entrySize m start) + 512) % 2 ^ 64).toNat

/-- `startswith(parent, child) == 0`. -/
def startswith : List UInt8 → Nat → Bool
  | [], _ => true
  | c :: parent, child => c == m child && startswith parent (child + 1)

/-- The characters up to a slash or the NUL byte, and the slash. With the NUL byte they have to fit
into `room` bytes. -/
def copyComponent : Nat → Nat → Option (List UInt8)
  | 0, _ => none
  | room + 1, child =>
    if m child ≠ slash ∧ m child ≠ 0 then
      (copyComponent room (child + 1)).map (m child :: ·)
    else if m child = slash then if room = 0 then none else some [slash]
    else some []

/-- `get_first_directory`; the buffer is `d_name`, and `count` is larger. -/
def getFirstDirectory (child : Nat) : Option (List UInt8) := copyComponent m 256 child

/-- `get_sub_directory`. -/
def getSubDirectory : List UInt8 → Nat → Option (List UInt8)
  | [], child => copyComponent m 256 child
  | c :: parent, child => if c = m child then getSubDirectory parent (child + 1) else some []

/-- `get_first_direntry`, without space for a record −1. A name of 255 characters is not
terminated. -/
def getFirstDirentry (count child : Nat) : Option (Option Dirent) :=
  if count < direntSize then if count = 0 then none else some none
  else (copyComponent m 255 child).map fun name => some (.ofName name)

/-- `get_sub_direntry`. -/
def getSubDirentry (count : Nat) : List UInt8 → Nat → Option (Option Dirent)
  | [], child => getFirstDirentry m count child
  | c :: parent, child => if c = m child then getSubDirentry count parent (child + 1) else some none

/-- The loop of `readDir` in the root directory: the next component and the header behind it. -/
def nextFirst (finish : Nat) (prev : List UInt8) : Nat → Nat → Option (Option (List UInt8 × Nat))
  | 0, _ => none
  | fuel + 1, start =>
    if start < finish then
      (getFirstDirectory m start).bind fun name =>
        if name ≠ prev then some (some (name, following m start))
        else nextFirst finish prev fuel (following m start)
    else some none

/-- The loop of `readDir` in the directory `parent`: the next component and its header. -/
def nextSub (finish : Nat) (parent prev : List UInt8) :
    Nat → Nat → Option (Option (List UInt8 × Nat))
  | 0, _ => none
  | fuel + 1, start =>
    if start < finish then
      if startswith m parent start then
        (getSubDirectory m parent start).bind fun name =>
          if name ≠ prev then some (some (name, start))
          else nextSub finish parent prev fuel (following m start)
      else some none
    else some none

/-- What a call of `readDir` finds, and the offset that it leaves behind. -/
def nextChild (ar : Archive) (d : FileDescriptor) : Option (Option (List UInt8 × Nat)) :=
  if d.name = [slash] then nextFirst m ar.finish d.dPrevDir ar.fuel d.offset
  else if d.name ≠ [] then
    nextSub m ar.finish d.name d.dPrevDir ar.fuel (following m d.offset)
  else some none

/-- `readDir`; `NULL` is `none`. The record itself is in the heap of the task. -/
def Files.readDir (ar : Archive) (s : Files) (task dirp : Nat) : Option (Option Dirent × Files) :=
  if dirp = 0 then some (none, s)
  else
    match s.getFd task dirp with
    | none => some (none, s)
    | some fd => (s.getFdAddress task fd).bind fun a =>
      if a = 0 then some (none, s)
      else (nextChild m ar (s.fds a)).map fun
        | none => (none, s)
        | some r => (some (.ofName r.1), s.setFd a { s.fds a with dPrevDir := r.1, offset := r.2 })

/-- The loop of `getDirEntries` in the root directory: the records, and how much of the buffer is
left. Where there is no space for a record, the loop looks at what has been in the buffer. -/
def rootDirents (finish : Nat) : Nat → Nat → List UInt8 → Nat → Option (List Dirent × Nat)
  | 0, _, _, _ => none
  | fuel + 1, start, prev, count =>
    if start < finish then
      (getFirstDirentry m count start).bind fun
        | none => none
        | some dir =>
          if dir.dName ≠ prev then
            (rootDirents finish fuel (following m start) dir.dName (count - direntSize)).map
              fun r => (dir :: r.1, r.2)
          else rootDirents finish fuel (following m start) prev count
    else some ([], count)

/-- The loop of `getDirEntries` in the directory `parent`. At the end of the archive the function
returns 0, which is `none` here. -/
def subDirents (finish : Nat) (parent : List UInt8) :
    Nat → Nat → List UInt8 → Nat → Option (List Dirent × Option Nat)
  | 0, _, _, _ => none
  | fuel + 1, start, prev, count =>
    if start < finish then
      if startswith m parent start then
        (getSubDirentry m count parent start).bind fun
          | none => subDirents finish parent fuel (following m start) prev count
          | some dir =>
            if dir.dName ≠ prev then
              (subDirents finish parent fuel (following m start) dir.dName
                (count - direntSize)).map fun r => (dir :: r.1, r.2)
            else subDirents finish parent fuel (following m start) prev count
      else some ([], some count)
    else some ([], none)

/-- `getDirEntries`, with the records that it leaves in the buffer. -/
def Files.getDirEntries (ar : Archive) (s : Files) (task : Nat) (fd : Int) (count : Nat) :
    Option (List Dirent × Nat) :=
  if fd < 0 then some ([], 0)
  else (s.getFdAddress task fd.toNat).bind fun a =>
    if a = 0 then some ([], 0)
    else if (s.fds a).name = [slash] then
      (rootDirents m ar.finish ar.fuel (s.fds a).start [] count).map fun r => (r.1, count - r.2)
    else if (s.fds a).name ≠ [] then
      (subDirents m ar.finish (s.fds a).name ar.fuel ((s.fds a).start + 512) [] count).map fun
        | (records, some left) => (records, count - left)
        | (records, none) => (records, 0)
    else some ([], 0)

end Source

/-! ### Lists of headers -/

/-- **The names of the headers** from `a` to the end of the archive. -/
def Headers (m : Mem) (finish : Nat) : Nat → List (List UInt8) → Prop
  | a, [] => finish ≤ a
  | a, name :: names => a < finish ∧ strcmp m a name = true ∧ 0 ∉ name ∧ name.length < 100 ∧
      a + 512 ≤ following m a ∧ Headers m finish (following m a) names

variable {m : Mem} {ar : Archive} {finish a fuel k count : Nat} {e : Entry} {es : List Entry}
  {name parent prev : List UInt8} {ns : List (List UInt8)}

/-- The fuel of the loops suffices. -/
theorem Headers.length_le {n : Nat} (h : Headers m finish a ns) (hn : finish < a + 512 * n) :
    ns.length ≤ n := by
  induction ns generalizing a n with
  | nil => exact Nat.zero_le n
  | cons name ns ih =>
    obtain ⟨hlt, -, -, -, hnext, hrest⟩ := h
    have := @ih _ (n - 1) hrest (by omega)
    rw [List.length_cons]
    omega

theorem Headers.length_lt_fuel (h : Headers m ar.finish a ns) (ha : 512 ≤ a) :
    ns.length < ar.fuel := by
  have := h.length_le (show ar.finish < a + 512 * (ar.finish / 512) by omega)
  unfold Archive.fuel
  omega

/-- Blocks of zeros are headers without names. -/
theorem headers_zeros (hz : ∀ x, a ≤ x → x < a + 512 * k → m x = 0) (hf : a + 512 * k < 2 ^ 64) :
    Headers m (a + 512 * k) a (List.replicate k []) := by
  induction k generalizing a with
  | zero => exact Nat.le_refl _
  | succ k ih =>
    have hsize : entrySize m a = 0 := by
      rw [entrySize, toInteger, if_neg (not_not.mpr (hz (a + 124) (by omega) (by omega)))]
    have hpad : padded 0 = 0 := rfl
    have hnext : following m a = a + 512 + padded 0 :=
      @nextHeader m a 0 hsize (by omega) (by omega)
    rw [hpad, Nat.add_zero] at hnext
    have hrest := @ih (a + 512) (fun x hx hx' => hz x (by omega) (by omega)) (by omega)
    rw [List.replicate_succ, show a + 512 * (k + 1) = a + 512 + 512 * k by omega]
    refine ⟨by omega, ?_, List.not_mem_nil, by decide, by omega, hnext ▸ hrest⟩
    rw [strcmp, hz a le_rfl (by omega)]
    rfl

/-- **The headers of an archive** are those of its entries, and the blocks of zeros. -/
theorem headers_of_laid (h : Laid m finish a es) (hkern : kernbase ≤ a) (hf : finish < 2 ^ 64)
    (hshort : ∀ e ∈ es, e.name.length < 100) (hk : a + laidLength es + 512 * k = finish) :
    Headers m finish a (es.map Entry.name ++ List.replicate k []) := by
  induction es generalizing a with
  | nil =>
    rw [laidLength, Nat.add_zero] at hk
    subst hk
    exact headers_zeros h.2 hf
  | cons e es ih =>
    obtain ⟨hhead, -, -, hrest⟩ := h
    have hlt := hrest.lt
    have hsmall : padded e.content.length < 2 ^ 31 := by
      unfold kernbase at hkern
      omega
    have hnext : following m a = a + 512 + padded e.content.length :=
      nextHeader hhead.size hsmall (by omega)
    have := @ih (a + 512 + padded e.content.length) hrest (by omega)
      (fun e' he' => hshort e' (List.mem_cons_of_mem e he')) (by rw [← hk, laidLength]; omega)
    refine ⟨by omega, hhead.name, fun hc => hhead.chars 0 hc rfl, hshort e List.mem_cons_self,
      by omega, hnext ▸ this⟩

/-! ### Names in memory -/

/-- `startswith` compares the name with the parent. -/
theorem startswith_iff (h : strcmp m a name = true) (hp : 0 ∉ parent) :
    startswith m parent a = true ↔ parent <+: name := by
  induction parent generalizing a name with
  | nil => simp [startswith]
  | cons c parent ih =>
    have hc : c ≠ 0 := fun hc => hp (hc ▸ List.mem_cons_self)
    have hp := fun h => hp (List.mem_cons_of_mem c h)
    rw [startswith, Bool.and_eq_true, beq_iff_eq]
    cases name with
    | nil =>
      rw [strcmp, beq_iff_eq] at h
      exact ⟨fun hs => absurd (hs.1.trans h) hc, fun hs => by simp at hs⟩
    | cons d name =>
      rw [strcmp, Bool.and_eq_true, beq_iff_eq] at h
      rw [h.1, ih h.2 hp, List.cons_prefix_cons]

/-- **Copying a component.** -/
theorem copyComponent_spec {room : Nat} (h : strcmp m a name = true) (h0 : 0 ∉ name)
    (hroom : name.length < room) : copyComponent m room a = some (component slash name) := by
  -- the copy runs along the name, up to its first slash or its end
  induction name generalizing a room with
  | nil =>
    obtain ⟨room, rfl⟩ := Nat.exists_eq_succ_of_ne_zero (show room ≠ 0 by omega)
    rw [strcmp, beq_iff_eq] at h
    rw [copyComponent, h]
    rfl
  | cons c name ih =>
    obtain ⟨room, rfl⟩ := Nat.exists_eq_succ_of_ne_zero (show room ≠ 0 by omega)
    rw [strcmp, Bool.and_eq_true, beq_iff_eq] at h
    rw [List.length_cons] at hroom
    have hc : c ≠ 0 := fun hc => h0 (hc ▸ List.mem_cons_self)
    rw [copyComponent, h.1]
    by_cases hs : c = slash
    · -- the slash is the last character
      subst hs
      rw [if_neg fun hc => hc.1 rfl, if_pos rfl, if_neg (show ¬ room = 0 by omega)]
      simp [component]
    · rw [if_pos ⟨hs, hc⟩, ih h.2 (fun hm => h0 (List.mem_cons_of_mem c hm)) (by omega),
        Option.map_some, component, component, List.takeWhile_cons_of_pos (by simpa using hs),
        List.dropWhile_cons_of_pos (by simpa using hs), List.cons_append]

theorem getSubDirectory_spec (h : strcmp m a name = true) (h0 : 0 ∉ name)
    (hlen : name.length < 256) (hp : parent <+: name) :
    getSubDirectory m parent a = some (component slash (name.drop parent.length)) := by
  induction parent generalizing a name with
  | nil => exact copyComponent_spec h h0 hlen
  | cons c parent ih =>
    obtain ⟨q, rfl⟩ := hp
    rw [List.cons_append] at h h0 hlen
    rw [strcmp, Bool.and_eq_true, beq_iff_eq] at h
    rw [getSubDirectory, if_pos h.1.symm, ih h.2 (fun hm => h0 (List.mem_cons_of_mem c hm))
      (by rw [List.length_cons] at hlen; omega) (List.prefix_append parent q)]
    simp

theorem getFirstDirentry_spec (h : strcmp m a name = true) (h0 : 0 ∉ name)
    (hlen : name.length < 255) (hcount : direntSize ≤ count) :
    getFirstDirentry m count a = some (some (.ofName (component slash name))) := by
  rw [getFirstDirentry, if_neg (Nat.not_lt.mpr hcount), copyComponent_spec h h0 hlen,
    Option.map_some]

theorem getSubDirentry_spec (h : strcmp m a name = true) (h0 : 0 ∉ name)
    (hlen : name.length < 255) (hp : parent <+: name) (hcount : direntSize ≤ count) :
    getSubDirentry m count parent a =
      some (some (.ofName (component slash (name.drop parent.length)))) := by
  induction parent generalizing a name with
  | nil => exact getFirstDirentry_spec h h0 hlen hcount
  | cons c parent ih =>
    obtain ⟨q, rfl⟩ := hp
    rw [List.cons_append] at h h0 hlen
    rw [strcmp, Bool.and_eq_true, beq_iff_eq] at h
    rw [getSubDirentry, if_pos h.1.symm, ih h.2 (fun hm => h0 (List.mem_cons_of_mem c hm))
      (by rw [List.length_cons] at hlen; omega) (List.prefix_append parent q)]
    simp

/-! ### The loops -/

/-- The components in `parent` of the headers `ns`, up to the first one outside. -/
def within (parent : List UInt8) (ns : List (List UInt8)) : List (List UInt8) :=
  (ns.takeWhile parent.isPrefixOf).map fun name => component slash (name.drop parent.length)

theorem within_cons (hp : parent <+: name) :
    within parent (name :: ns) = component slash (name.drop parent.length) :: within parent ns := by
  rw [within, List.takeWhile_cons_of_pos (List.isPrefixOf_iff_prefix.mpr hp), List.map_cons]
  rfl

theorem within_cons_of_not (hp : ¬ parent <+: name) : within parent (name :: ns) = [] := by
  rw [within, List.takeWhile_cons_of_neg fun hc => hp (List.isPrefixOf_iff_prefix.mp hc),
    List.map_nil]

/-- **`readDir` in the root directory** goes on to the next change, and stops behind its header. -/
theorem nextFirst_spec (h : Headers m finish a ns) (hfuel : ns.length < fuel) :
    match changes prev (ns.map (component slash)) with
    | [] => nextFirst m finish prev fuel a = some none
    | x :: xs => ∃ rest a', nextFirst m finish prev fuel a = some (some (x, a')) ∧ a ≤ a' ∧
        Headers m finish a' rest ∧ xs = changes x (rest.map (component slash)) := by
  -- a round passes one header
  induction ns generalizing a fuel with
  | nil =>
    obtain ⟨fuel, rfl⟩ := Nat.exists_eq_succ_of_ne_zero (show fuel ≠ 0 by omega)
    have hge : ¬ a < finish := Nat.not_lt.mpr h
    rw [List.map_nil, changes]
    simp only [nextFirst, if_neg hge]
  | cons name ns ih =>
    obtain ⟨fuel, rfl⟩ := Nat.exists_eq_succ_of_ne_zero (show fuel ≠ 0 by omega)
    obtain ⟨hlt, hname, h0, hlen, hnext, hrest⟩ := h
    have hcopy : getFirstDirectory m a = some (component slash name) :=
      copyComponent_spec hname h0 (by omega)
    rw [List.map_cons, changes, nextFirst, if_pos hlt, hcopy, Option.bind_some]
    by_cases heq : component slash name = prev
    -- the same component again is passed over
    · rw [if_pos heq, if_neg (not_not.mpr heq)]
      have := @ih _ fuel hrest (by rw [List.length_cons] at hfuel; omega)
      generalize changes prev (ns.map (component slash)) = l at this ⊢
      cases l with
      | nil => exact this
      | cons x xs =>
        obtain ⟨rest, a', hr, hle, hh, hx⟩ := this
        exact ⟨rest, a', hr, by omega, hh, hx⟩
    · rw [if_neg heq, if_pos heq]
      exact ⟨ns, following m a, rfl, by omega, hrest, rfl⟩

/-- **`readDir` in another directory** goes on to the next change, and stops at its header. -/
theorem nextSub_spec (h : Headers m finish a ns) (hfuel : ns.length < fuel) (hp : 0 ∉ parent) :
    match changes prev (within parent ns) with
    | [] => nextSub m finish parent prev fuel a = some none
    | x :: xs => ∃ y rest a', nextSub m finish parent prev fuel a = some (some (x, a')) ∧ a ≤ a' ∧
        Headers m finish a' (y :: rest) ∧ xs = changes x (within parent rest) := by
  -- as in the root, but the first header outside ends the search
  induction ns generalizing a fuel with
  | nil =>
    obtain ⟨fuel, rfl⟩ := Nat.exists_eq_succ_of_ne_zero (show fuel ≠ 0 by omega)
    have hge : ¬ a < finish := Nat.not_lt.mpr h
    rw [within, List.takeWhile_nil, List.map_nil, changes]
    simp only [nextSub, if_neg hge]
  | cons name ns ih =>
    obtain ⟨fuel, rfl⟩ := Nat.exists_eq_succ_of_ne_zero (show fuel ≠ 0 by omega)
    have hall := h
    obtain ⟨hlt, hname, h0, hlen, hnext, hrest⟩ := h
    rw [nextSub, if_pos hlt]
    by_cases hpre : parent <+: name
    · rw [if_pos ((startswith_iff hname hp).mpr hpre), within_cons hpre, changes,
        getSubDirectory_spec hname h0 (by omega) hpre, Option.bind_some]
      by_cases heq : component slash (name.drop parent.length) = prev
      · rw [if_pos heq, if_neg (not_not.mpr heq)]
        have := @ih _ fuel hrest (by rw [List.length_cons] at hfuel; omega)
        generalize changes prev (within parent ns) = l at this ⊢
        cases l with
        | nil => exact this
        | cons x xs =>
          obtain ⟨y, rest, a', hr, hle, hh, hx⟩ := this
          exact ⟨y, rest, a', hr, by omega, hh, hx⟩
      · rw [if_neg heq, if_pos heq]
        exact ⟨name, ns, a, rfl, le_rfl, hall, rfl⟩
    · -- the first header outside
      rw [if_neg fun hc => hpre ((startswith_iff hname hp).mp hc), within_cons_of_not hpre, changes]

/-- **`getDirEntries` in the root directory** writes a record for every change. -/
theorem rootDirents_spec (h : Headers m finish a ns) (hfuel : ns.length < fuel)
    (hcount : direntSize * ((changes prev (ns.map (component slash))).length + 1) ≤ count) :
    rootDirents m finish fuel a prev count =
      some ((changes prev (ns.map (component slash))).map .ofName,
        count - direntSize * (changes prev (ns.map (component slash))).length) := by
  -- a record takes `direntSize` bytes of the buffer, and there is room for one more
  induction ns generalizing a fuel prev count with
  | nil =>
    obtain ⟨fuel, rfl⟩ := Nat.exists_eq_succ_of_ne_zero (show fuel ≠ 0 by omega)
    have hge : ¬ a < finish := Nat.not_lt.mpr h
    rw [rootDirents, if_neg hge]
    rfl
  | cons name ns ih =>
    obtain ⟨fuel, rfl⟩ := Nat.exists_eq_succ_of_ne_zero (show fuel ≠ 0 by omega)
    obtain ⟨hlt, hname, h0, hlen, hnext, hrest⟩ := h
    have hroom : direntSize ≤ count :=
      le_trans (Nat.le_mul_of_pos_right _ (Nat.succ_pos _)) hcount
    have hf : ns.length < fuel := by
      rw [List.length_cons] at hfuel
      omega
    rw [rootDirents, if_pos hlt, getFirstDirentry_spec hname h0 (by omega) hroom, Option.bind_some]
    dsimp only [Dirent.ofName]
    rw [List.map_cons, changes] at hcount ⊢
    by_cases heq : component slash name = prev
    · rw [if_pos heq] at hcount ⊢
      rw [if_neg (not_not.mpr heq)]
      exact ih hrest hf hcount
    -- a change: a record, and the rest of the buffer for the others
    · rw [if_neg heq] at hcount ⊢
      rw [List.length_cons] at hcount
      rw [if_pos heq, ih hrest hf (by unfold direntSize at hcount ⊢; omega), Option.map_some,
        List.map_cons, List.length_cons]
      refine congrArg some (Prod.ext rfl ?_)
      dsimp only
      unfold direntSize
      omega

/-- **`getDirEntries` in another directory**: a header outside has to end it. -/
theorem subDirents_spec (h : Headers m finish a ns) (hfuel : ns.length < fuel) (hp : 0 ∉ parent)
    (hend : ∃ name ∈ ns, ¬ parent <+: name)
    (hcount : direntSize * ((changes prev (within parent ns)).length + 1) ≤ count) :
    subDirents m finish parent fuel a prev count =
      some ((changes prev (within parent ns)).map .ofName,
        some (count - direntSize * (changes prev (within parent ns)).length)) := by
  induction ns generalizing a fuel prev count with
  | nil =>
    obtain ⟨name, hmem, -⟩ := hend
    cases hmem
  | cons name ns ih =>
    obtain ⟨fuel, rfl⟩ := Nat.exists_eq_succ_of_ne_zero (show fuel ≠ 0 by omega)
    obtain ⟨hlt, hname, h0, hlen, hnext, hrest⟩ := h
    have hroom : direntSize ≤ count :=
      le_trans (Nat.le_mul_of_pos_right _ (Nat.succ_pos _)) hcount
    have hf : ns.length < fuel := by
      rw [List.length_cons] at hfuel
      omega
    rw [subDirents, if_pos hlt]
    by_cases hpre : parent <+: name
    · have hend' : ∃ name ∈ ns, ¬ parent <+: name := by
        obtain ⟨x, hx, hnot⟩ := hend
        rcases List.mem_cons.mp hx with rfl | hx
        · exact absurd hpre hnot
        · exact ⟨x, hx, hnot⟩
      rw [if_pos ((startswith_iff hname hp).mpr hpre),
        getSubDirentry_spec hname h0 (by omega) hpre hroom, Option.bind_some]
      dsimp only [Dirent.ofName]
      rw [within_cons hpre, changes] at hcount ⊢
      by_cases heq : component slash (name.drop parent.length) = prev
      · rw [if_pos heq] at hcount ⊢
        rw [if_neg (not_not.mpr heq)]
        exact ih hrest hf hend' hcount
      · rw [if_neg heq] at hcount ⊢
        rw [List.length_cons] at hcount
        rw [if_pos heq, ih hrest hf hend' (by unfold direntSize at hcount ⊢; omega),
          Option.map_some, List.map_cons, List.length_cons]
        refine congrArg some (Prod.ext rfl (congrArg some ?_))
        unfold direntSize
        omega
    · rw [if_neg fun hc => hpre ((startswith_iff hname hp).mp hc), within_cons_of_not hpre]
      rfl

end Sbunix
