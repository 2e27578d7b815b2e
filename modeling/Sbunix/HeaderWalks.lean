import Sbunix.Listing

/-!
# Walks over headers

`get_file_address`, `get_dir_address`, `readDir` and `getDirEntries` go from header to header by the
sizes that they find, whatever bytes the archive has. A `HeaderLoop` is such a loop: where it stops,
and what it reads where it stops. `headersOf` are the headers that it interprets, one after the
other; `none` is a loop, or a number, that does not end within the given bound.

No size is checked. A walk ends, goes forward and stays inside the archive (`SoundWalk`) exactly
when the headers that it meets are as they should be (`Chained`): each lies inside the archive, its
size is a string, its rounded size is more than −512 and does not lead past 2⁶⁴, and a loop that
reads a size behind the archive does not get there (`headersOf_iff`).
-/

namespace Sbunix

open ByteMem

/-- `toInteger`, whose string has fewer than so many characters. -/
def toIntegerWithin (m : Mem) : Nat → Nat → Int → Option Int
  | 0, _, _ => none
  | fuel + 1, s, num =>
    if m s ≠ 0 then
      toIntegerWithin m fuel (s + 1) ((num * 8 + (charInt (m s) - 48)).bmod (2 ^ 32))
    else some num

/-- `toInteger(tar_file_pointer->size)`. -/
def sizeWithin (m : Mem) (n a : Nat) : Option Int := toIntegerWithin m n (a + 124) 0

/-- A loop over headers: where it breaks off, whether it reads the size of the header where it does,
and whether it reads a size behind the archive. -/
structure HeaderLoop where
  stop : Nat → Bool
  sizeAtStop : Bool
  sizeAtEnd : Bool

/-- The headers that the loop interprets from `a` on. -/
def headersOf (m : Mem) (finish : Nat) (w : HeaderLoop) : Nat → Nat → Option (List Nat)
  | 0, _ => none
  | n + 1, a =>
    if a < finish then
      if w.stop a then if w.sizeAtStop then (sizeWithin m n a).map fun _ => [a] else some [a]
      else (sizeWithin m n a).bind fun size =>
        (headersOf m finish w n (((a : Int) + blockedSize size + 512) % 2 ^ 64).toNat).map (a :: ·)
    else if w.sizeAtEnd then (sizeWithin m n a).map fun _ => [a] else some []

/-! ### The loops of the source -/

/-- The component at `child`, up to a slash and with it, is `name`. -/
def isComponent (m : Mem) : List UInt8 → Nat → Bool
  | [], child => m child == 0
  | c :: name, child =>
    c ≠ 0 && m child == c && if c = slash then name.isEmpty else isComponent m name (child + 1)

/-- `get_file_address` and `get_dir_address`: the size is read once more after the loop. -/
def addressLoop (m : Mem) (file : List UInt8) : HeaderLoop where
  stop a := strcmp m a file
  sizeAtStop := true
  sizeAtEnd := true

def getFileAddressHeaders (m : Mem) (ar : Archive) (file : List UInt8) (n : Nat) :
    Option (List Nat) :=
  headersOf m ar.finish (addressLoop m file) n ar.start

def getDirAddressHeaders (m : Mem) (ar : Archive) (dir : List UInt8) (n : Nat) :
    Option (List Nat) :=
  headersOf m ar.finish (addressLoop m dir) n ar.start

/-- `readDir` in the root directory. -/
def readRootLoop (m : Mem) (prev : List UInt8) : HeaderLoop where
  stop a := !isComponent m prev a
  sizeAtStop := true
  sizeAtEnd := false

/-- `readDir` in the directory `parent`. -/
def readSubLoop (m : Mem) (parent prev : List UInt8) : HeaderLoop where
  stop a := !startswith m parent a || !isComponent m prev (a + parent.length)
  sizeAtStop := false
  sizeAtEnd := false

/-- The header at the offset is passed over before the loop. -/
def readDirHeaders (m : Mem) (ar : Archive) (d : FileDescriptor) (n : Nat) : Option (List Nat) :=
  if d.name = [slash] then headersOf m ar.finish (readRootLoop m d.dPrevDir) n d.offset
  else if d.name ≠ [] then
    (sizeWithin m n d.offset).bind fun size =>
      (headersOf m ar.finish (readSubLoop m d.name d.dPrevDir) n
        (((d.offset : Int) + blockedSize size + 512) % 2 ^ 64).toNat).map (d.offset :: ·)
  else some []

/-- `getDirEntries` in the directory `parent`; the root directory has none. -/
def entriesLoop (m : Mem) (parent : List UInt8) : HeaderLoop where
  stop a := parent ≠ [slash] && !startswith m parent a
  sizeAtStop := false
  sizeAtEnd := false

def getDirEntriesHeaders (m : Mem) (ar : Archive) (d : FileDescriptor) (n : Nat) :
    Option (List Nat) :=
  if d.name = [slash] then headersOf m ar.finish (entriesLoop m d.name) n d.start
  else if d.name ≠ [] then
    headersOf m ar.finish (entriesLoop m d.name) n ((d.start + 512) % 2 ^ 64)
  else some []

/-! ### The property and the condition -/

/-- The 512 bytes at `a` are in the archive. -/
def Archive.Block (ar : Archive) (a : Nat) : Prop := ar.start ≤ a ∧ a + 512 ≤ ar.finish

/-- **The walk is sound**: it ends, goes forward, and interprets blocks of the archive. -/
def SoundWalk (ar : Archive) (headers : Nat → Option (List Nat)) : Prop :=
  ∃ n l, headers n = some l ∧ l.Pairwise (· < ·) ∧ ∀ a ∈ l, ar.Block a

/-- The field `size` is a string, with this value. -/
def HasSize (m : Mem) (a : Nat) (size : Int) : Prop := ∃ n, sizeWithin m n a = some size

/-- The size of the header at `a` leads forward to `b`. -/
def Leads (m : Mem) (a b : Nat) : Prop :=
  ∃ size, HasSize m a size ∧ -512 < blockedSize size ∧ (a : Int) + blockedSize size + 512 = b ∧
    b < 2 ^ 64

/-- **The headers from `a` on**, up to where the loop stops. -/
inductive Chained (m : Mem) (ar : Archive) (w : HeaderLoop) : Nat → Prop
  | beyond {a : Nat} (h : ar.finish ≤ a) (hend : w.sizeAtEnd = false) : Chained m ar w a
  | stop {a : Nat} (h : ar.Block a) (hstop : w.stop a = true)
      (hsize : w.sizeAtStop = true → ∃ size, HasSize m a size) : Chained m ar w a
  | next {a b : Nat} (h : ar.Block a) (hstop : w.stop a = false) (hl : Leads m a b)
      (hrest : Chained m ar w b) : Chained m ar w a

variable {m : Mem} {ar : Archive} {w : HeaderLoop} {a b n n' s : Nat} {num size : Int}
  {l : List Nat}

/-! ### The loops and what they compute -/

/-- The loops of `readDir` compare the component that they copy. -/
theorem isComponent_iff {room : Nat} {name prev : List UInt8}
    (h : copyComponent m room a = some name) : isComponent m prev a = true ↔ name = prev := by
  -- along the loop that copies, with the string that is compared
  induction room generalizing a name prev with
  | zero => cases h
  | succ room ih =>
    rw [copyComponent] at h
    split at h
    · next hc =>
      -- a character of the component
      obtain ⟨rest, hrest, rfl⟩ := Option.map_eq_some_iff.mp h
      cases prev with
      | nil => simp [isComponent, hc.2]
      | cons c prev =>
        rw [isComponent, List.cons.injEq, ← ih hrest]
        by_cases hcc : m a = c
        · subst hcc
          simp [hc.1, hc.2]
        · simp [hcc]
    · split at h
      · next hs =>
        -- the component ends with a slash, which is part of it
        split at h
        · cases h
        · obtain rfl := Option.some.inj h
          have hz : slash ≠ 0 := by decide
          cases prev with
          | nil => simp [isComponent, hs, hz]
          | cons c prev =>
            rw [isComponent, hs, List.cons.injEq]
            by_cases hcc : slash = c
            · subst hcc
              cases prev <;> simp [hz]
            · simp [hcc]
      · next hc hs =>
        -- or with the name
        have hz : m a = 0 := by
          by_contra hne
          exact hc ⟨hs, hne⟩
        obtain rfl := Option.some.inj h
        cases prev with
        | nil => simp [isComponent, hz]
        | cons c prev =>
          by_cases hcc : c = 0
          · simp [isComponent, hcc]
          · simp [isComponent, hz, hcc, Ne.symm hcc]

/-! ### Numbers -/

theorem toIntegerWithin_mono (h : toIntegerWithin m n s num = some size) (hn : n ≤ n') :
    toIntegerWithin m n' s num = some size := by
  induction n generalizing s num n' with
  | zero => cases h
  | succ n ih =>
    obtain ⟨n', rfl⟩ := Nat.exists_eq_add_of_le' (Nat.le_trans (Nat.le_add_left 1 n) hn)
    rw [toIntegerWithin] at h ⊢
    split at h
    · rw [if_pos ‹_›]
      exact ih h (Nat.le_of_succ_le_succ hn)
    · rwa [if_neg ‹_›]

/-- Where the string is short it is `toInteger`. -/
theorem toIntegerWithin_eq (h : toIntegerWithin m n s num = some size) (hn : n ≤ n') :
    toInteger m n' s num = size := by
  induction n generalizing s num n' with
  | zero => cases h
  | succ n ih =>
    obtain ⟨n', rfl⟩ := Nat.exists_eq_add_of_le' (Nat.le_trans (Nat.le_add_left 1 n) hn)
    rw [toIntegerWithin] at h
    rw [toInteger]
    split at h
    · rw [if_pos ‹_›]
      exact ih h (Nat.le_of_succ_le_succ hn)
    · rw [if_neg ‹_›]
      exact Option.some.inj h

/-- An `int`. -/
def IsInt (num : Int) : Prop := -2 ^ 31 ≤ num ∧ num < 2 ^ 31

theorem isInt_bmod (x : Int) : IsInt (x.bmod (2 ^ 32)) := by
  have hle : -((2 ^ 32 : Nat) / 2 : Int) ≤ x.bmod (2 ^ 32) := Int.le_bmod (Nat.two_pow_pos 32)
  have hlt : x.bmod (2 ^ 32) < ((2 ^ 32 : Nat) + 1) / 2 := Int.bmod_lt (Nat.two_pow_pos 32)
  constructor <;> omega

theorem toIntegerWithin_isInt (h : toIntegerWithin m n s num = some size) (hnum : IsInt num) :
    IsInt size := by
  induction n generalizing s num with
  | zero => cases h
  | succ n ih =>
    rw [toIntegerWithin] at h
    split at h
    · exact ih h (isInt_bmod _)
    · rwa [← Option.some.inj h]

theorem HasSize.isInt (h : HasSize m a size) : IsInt (blockedSize size) := by
  obtain ⟨n, h⟩ := h
  have hsize := toIntegerWithin_isInt h ⟨by decide, by decide⟩
  unfold blockedSize
  dsimp only
  split
  · exact isInt_bmod _
  · exact hsize

theorem sizeWithin_mono (h : sizeWithin m n a = some size) (hn : n ≤ n') :
    sizeWithin m n' a = some size :=
  toIntegerWithin_mono h hn

/-- A larger bound finds the same headers. -/
theorem headersOf_mono {finish : Nat} (h : headersOf m finish w n a = some l) (hn : n ≤ n') :
    headersOf m finish w n' a = some l := by
  induction n generalizing a n' l with
  | zero => cases h
  | succ n ih =>
    obtain ⟨n', rfl⟩ := Nat.exists_eq_add_of_le' (Nat.le_trans (Nat.le_add_left 1 n) hn)
    have hle := Nat.le_of_succ_le_succ hn
    rw [headersOf] at h ⊢
    split at h
    · rw [if_pos ‹_›]
      split at h
      · rw [if_pos ‹_›]
        split at h
        · rw [if_pos ‹_›]
          obtain ⟨size, hs, rfl⟩ := Option.map_eq_some_iff.mp h
          rw [sizeWithin_mono hs hle, Option.map_some]
        · rwa [if_neg ‹_›]
      · rw [if_neg ‹_›]
        obtain ⟨size, hs, h⟩ := Option.bind_eq_some_iff.mp h
        obtain ⟨l', hl', rfl⟩ := Option.map_eq_some_iff.mp h
        rw [sizeWithin_mono hs hle, Option.bind_some, ih hl' hle, Option.map_some]
    · rw [if_neg ‹_›]
      split at h
      · rw [if_pos ‹_›]
        obtain ⟨size, hs, rfl⟩ := Option.map_eq_some_iff.mp h
        rw [sizeWithin_mono hs hle, Option.map_some]
      · rwa [if_neg ‹_›]

/-- The headers start where the walk does. -/
theorem headersOf_head {finish : Nat} (h : headersOf m finish w n a = some l) :
    (l = [] ∧ finish ≤ a) ∨ ∃ t, l = a :: t := by
  cases n with
  | zero => cases h
  | succ n =>
    rw [headersOf] at h
    split at h
    · right
      split at h
      · split at h
        · obtain ⟨size, -, rfl⟩ := Option.map_eq_some_iff.mp h
          exact ⟨[], rfl⟩
        · exact ⟨[], (Option.some.inj h).symm⟩
      · obtain ⟨size, -, h⟩ := Option.bind_eq_some_iff.mp h
        obtain ⟨l', -, rfl⟩ := Option.map_eq_some_iff.mp h
        exact ⟨l', rfl⟩
    · split at h
      · obtain ⟨size, -, rfl⟩ := Option.map_eq_some_iff.mp h
        exact Or.inr ⟨[], rfl⟩
      · exact Or.inl ⟨(Option.some.inj h).symm, Nat.le_of_not_lt ‹_›⟩

/-- **The search ends** at the last header that it interprets. -/
theorem searchArchive_of_headersOf {finish fuel : Nat} {file : List UInt8}
    (h : headersOf m finish (addressLoop m file) n a = some l) (hn : n ≤ 513) (hf : n ≤ fuel) :
    ∃ p found, searchArchive m finish file fuel a = some (p, found) ∧ l.getLast? = some p := by
  -- both loops at once: the search needs no more turns than headers are met
  induction n generalizing a l fuel with
  | zero => cases h
  | succ n ih =>
    obtain ⟨fuel, rfl⟩ := Nat.exists_eq_add_of_le' (Nat.le_trans (Nat.le_add_left 1 n) hf)
    rw [headersOf] at h
    rw [searchArchive]
    split at h
    · rw [if_pos ‹_›]
      cases hstop : strcmp m a file with
      | true =>
        rw [if_pos (show (addressLoop m file).stop a = true from hstop),
          if_pos (show (addressLoop m file).sizeAtStop = true from rfl)] at h
        obtain ⟨size, -, rfl⟩ := Option.map_eq_some_iff.mp h
        exact ⟨a, true, if_pos rfl, rfl⟩
      | false =>
        have hgo : (addressLoop m file).stop a = false := hstop
        rw [if_neg (Bool.eq_false_iff.mp hgo)] at h
        obtain ⟨size, hs, h⟩ := Option.bind_eq_some_iff.mp h
        obtain ⟨l', hl', rfl⟩ := Option.map_eq_some_iff.mp h
        have hsize : entrySize m a = size :=
          toIntegerWithin_eq hs (Nat.le_of_succ_le_succ hn)
        obtain ⟨p, found, hp, hlast⟩ := ih hl' (Nat.le_of_succ_le hn) (Nat.le_of_succ_le_succ hf)
        refine ⟨p, found, ?_, ?_⟩
        · rw [if_neg Bool.false_ne_true, hsize]
          exact hp
        · rw [List.getLast?_cons, hlast]
          rfl
    · rw [if_neg ‹_›]
      rw [if_pos (show (addressLoop m file).sizeAtEnd = true from rfl)] at h
      obtain ⟨size, -, rfl⟩ := Option.map_eq_some_iff.mp h
      exact ⟨a, false, rfl, rfl⟩

/-! ### Going forward -/

/-- The archive is part of the kernel image. -/
def Archive.InKernel (ar : Archive) : Prop := kernbase ≤ ar.start ∧ ar.finish ≤ 2 ^ 64

/-- **Going forward** is what the condition on the size says. -/
theorem leads_of_lt (hk : ar.InKernel) (ha : ar.Block a) (hs : HasSize m a size)
    (hlt : a < (((a : Int) + blockedSize size + 512) % 2 ^ 64).toNat) :
    Leads m a (((a : Int) + blockedSize size + 512) % 2 ^ 64).toNat := by
  obtain ⟨hge, hle⟩ := hs.isInt
  obtain ⟨hk1, hk2⟩ := hk
  obtain ⟨ha1, ha2⟩ := ha
  -- an `int` is too small to go back behind address 0 from a kernel address
  have hbase : 2 ^ 31 ≤ kernbase := by decide
  refine ⟨size, hs, ?_, ?_, ?_⟩ <;> omega

theorem Leads.lt (h : Leads m a b) : a < b := by
  obtain ⟨size, -, hgt, heq, -⟩ := h
  omega

/-- A header that a sound walk goes over. -/
theorem leads_of_headersOf (hk : ar.InKernel) (ha : ar.Block a) (hs : sizeWithin m n a = some size)
    (hl : headersOf m ar.finish w n (((a : Int) + blockedSize size + 512) % 2 ^ 64).toNat = some l)
    (hsort : (a :: l).Pairwise (· < ·)) :
    Leads m a (((a : Int) + blockedSize size + 512) % 2 ^ 64).toNat := by
  refine leads_of_lt hk ha ⟨n, hs⟩ ?_
  rcases headersOf_head hl with ⟨-, hle⟩ | ⟨t, rfl⟩
  · -- the walk is behind the archive
    have := ha.2
    omega
  · exact (List.pairwise_cons.mp hsort).1 _ List.mem_cons_self

/-- **Going over a header** that leads to a sound walk. -/
theorem Leads.headersOf (h : Leads m a b) (hl : headersOf m ar.finish w n b = some l)
    (hsort : l.Pairwise (· < ·)) : ∃ n',
    ((sizeWithin m n' a).bind fun size =>
      (Sbunix.headersOf m ar.finish w n'
        (((a : Int) + blockedSize size + 512) % 2 ^ 64).toNat).map (a :: ·)) = some (a :: l) ∧
      (a :: l).Pairwise (· < ·) := by
  have hab := h.lt
  obtain ⟨size, ⟨k, hs⟩, -, heq, hlt⟩ := h
  -- a bound that is enough for the size as well as for the rest of the walk
  refine ⟨max n k, ?_, List.pairwise_cons.mpr ⟨fun x hx => ?_, hsort⟩⟩
  · have hb : (((a : Int) + blockedSize size + 512) % 2 ^ 64).toNat = b := by omega
    rw [sizeWithin_mono hs (Nat.le_max_right n k), Option.bind_some, hb,
      headersOf_mono hl (Nat.le_max_left n k), Option.map_some]
  · rcases headersOf_head hl with ⟨rfl, -⟩ | ⟨t, rfl⟩
    · cases hx
    · rcases List.mem_cons.mp hx with rfl | hx
      · exact hab
      · exact Nat.lt_trans hab ((List.pairwise_cons.mp hsort).1 x hx)

/-- A walk that is sound goes over headers as they should be. -/
theorem chained_of_headersOf (hk : ar.InKernel) (h : headersOf m ar.finish w n a = some l)
    (hsort : l.Pairwise (· < ·)) (hblock : ∀ x ∈ l, ar.Block x) : Chained m ar w a := by
  induction n generalizing a l with
  | zero => cases h
  | succ n ih =>
    rw [headersOf] at h
    by_cases ha : a < ar.finish
    · rw [if_pos ha] at h
      cases hstop : w.stop a with
      | true =>
        rw [if_pos hstop] at h
        cases hsize : w.sizeAtStop with
        | true =>
          rw [if_pos hsize] at h
          obtain ⟨size, hs, rfl⟩ := Option.map_eq_some_iff.mp h
          exact .stop (hblock a (List.mem_singleton_self a)) hstop fun _ => ⟨size, n, hs⟩
        | false =>
          rw [if_neg (Bool.eq_false_iff.mp hsize)] at h
          rw [← Option.some.inj h] at hblock
          refine .stop (hblock a (List.mem_singleton_self a)) hstop fun hc => ?_
          exact absurd (hc.symm.trans hsize) Bool.noConfusion
      | false =>
        rw [if_neg (Bool.eq_false_iff.mp hstop)] at h
        obtain ⟨size, hs, h⟩ := Option.bind_eq_some_iff.mp h
        obtain ⟨l', hl', rfl⟩ := Option.map_eq_some_iff.mp h
        have hb := hblock a List.mem_cons_self
        refine .next hb hstop (leads_of_headersOf hk hb hs hl' hsort) (ih hl' ?_ fun x hx => ?_)
        · exact (List.pairwise_cons.mp hsort).2
        · exact hblock x (List.mem_cons_of_mem a hx)
    · rw [if_neg ha] at h
      cases hend : w.sizeAtEnd with
      | true =>
        -- the header behind the archive is none of its blocks
        rw [if_pos hend] at h
        obtain ⟨size, -, rfl⟩ := Option.map_eq_some_iff.mp h
        have := (hblock a (List.mem_singleton_self a)).2
        omega
      | false => exact .beyond (Nat.le_of_not_lt ha) hend

/-- Headers as they should be make a walk that is sound. -/
theorem Chained.headersOf (h : Chained m ar w a) :
    ∃ n l, headersOf m ar.finish w n a = some l ∧ l.Pairwise (· < ·) ∧ ∀ x ∈ l, ar.Block x := by
  -- on the chain, which is as long as the walk
  induction h with
  | @beyond a h hend =>
    refine ⟨1, [], ?_, List.Pairwise.nil, fun x hx => by cases hx⟩
    rw [Sbunix.headersOf, if_neg (Nat.not_lt.mpr h), if_neg (Bool.eq_false_iff.mp hend)]
  | @stop a h hstop hsize =>
    have ha : a < ar.finish := by
      have := h.2
      omega
    have hblock : ∀ x ∈ [a], ar.Block x := fun x hx => List.mem_singleton.mp hx ▸ h
    cases hs : w.sizeAtStop with
    | true =>
      obtain ⟨size, k, hk⟩ := hsize hs
      refine ⟨k + 1, [a], ?_, List.pairwise_singleton _ a, hblock⟩
      rw [Sbunix.headersOf, if_pos ha, if_pos hstop, if_pos hs, hk, Option.map_some]
    | false =>
      refine ⟨1, [a], ?_, List.pairwise_singleton _ a, hblock⟩
      rw [Sbunix.headersOf, if_pos ha, if_pos hstop, if_neg (Bool.eq_false_iff.mp hs)]
  | @next a b h hstop hl _ ih =>
    obtain ⟨n, l, hn, hsort, hblock⟩ := ih
    obtain ⟨n', hn', hsort'⟩ := hl.headersOf hn hsort
    have ha : a < ar.finish := by
      have := h.2
      omega
    refine ⟨n' + 1, a :: l, ?_, hsort', fun x hx => ?_⟩
    · rw [Sbunix.headersOf, if_pos ha, if_neg (Bool.eq_false_iff.mp hstop), hn']
    · rcases List.mem_cons.mp hx with rfl | hx
      · exact h
      · exact hblock x hx

/-- **A walk** is sound exactly over headers as they should be. -/
theorem headersOf_iff (hk : ar.InKernel) (w : HeaderLoop) (a : Nat) :
    SoundWalk ar (fun n => headersOf m ar.finish w n a) ↔ Chained m ar w a := by
  constructor
  · rintro ⟨n, l, h, hsort, hblock⟩
    exact chained_of_headersOf hk h hsort hblock
  · exact Chained.headersOf

/-- A header that is passed over first. -/
theorem passed_iff (hk : ar.InKernel) (w : HeaderLoop) (a : Nat) :
    SoundWalk ar (fun n => (sizeWithin m n a).bind fun size =>
        (headersOf m ar.finish w n (((a : Int) + blockedSize size + 512) % 2 ^ 64).toNat).map
          (a :: ·)) ↔
      ar.Block a ∧ ∃ b, Leads m a b ∧ Chained m ar w b := by
  constructor
  · rintro ⟨n, l, h, hsort, hblock⟩
    obtain ⟨size, hs, h⟩ := Option.bind_eq_some_iff.mp h
    obtain ⟨l', hl', rfl⟩ := Option.map_eq_some_iff.mp h
    have hb := hblock a List.mem_cons_self
    refine ⟨hb, _, leads_of_headersOf hk hb hs hl' hsort, chained_of_headersOf hk hl' ?_ ?_⟩
    · exact (List.pairwise_cons.mp hsort).2
    · exact fun x hx => hblock x (List.mem_cons_of_mem a hx)
  · rintro ⟨hb, b, hl, hc⟩
    obtain ⟨n, l, hn, hsort, hblock⟩ := hc.headersOf
    obtain ⟨n', hn', hsort'⟩ := hl.headersOf hn hsort
    refine ⟨n', a :: l, hn', hsort', fun x hx => ?_⟩
    rcases List.mem_cons.mp hx with rfl | hx
    · exact hb
    · exact hblock x hx

/-! ### The four walks -/

/-- The headers that `readDir` meets. -/
def ReadDirChained (m : Mem) (ar : Archive) (d : FileDescriptor) : Prop :=
  if d.name = [slash] then Chained m ar (readRootLoop m d.dPrevDir) d.offset
  else d.name ≠ [] → ar.Block d.offset ∧
    ∃ b, Leads m d.offset b ∧ Chained m ar (readSubLoop m d.name d.dPrevDir) b

/-- The headers that `getDirEntries` meets. -/
def DirEntriesChained (m : Mem) (ar : Archive) (d : FileDescriptor) : Prop :=
  if d.name = [slash] then Chained m ar (entriesLoop m d.name) d.start
  else d.name ≠ [] → Chained m ar (entriesLoop m d.name) ((d.start + 512) % 2 ^ 64)

/-- No header is met. -/
theorem soundWalk_nil (ar : Archive) : SoundWalk ar fun _ => some [] :=
  ⟨0, [], rfl, List.Pairwise.nil, fun x hx => by cases hx⟩

end Sbunix
