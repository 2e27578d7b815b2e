import Mathlib.Data.List.TakeWhile
import Sbunix.CrtStart

/-!
# The environment

The environment of a program is there twice: as pages from `0x302000` on, which `getenv` and
`setenv` scan, and as the array that `main` receives, which `exec` copies. Both are modelled on the
memory that a program sees (`UserMem`).

The array has a pointer for each string that the program was started with, and one to the empty
page behind them. So a program passes on one new variable, and no more.

## Main results

* `setenv_spec` — `setenv` keeps the pages in order (`Environ`) and the array as it is;
* `environment_passed_iff` — what a program has set reaches a child that executes a file, exactly if
  there is at most one variable more than strings at the start.
-/

namespace Sbunix

open ByteMem

/-! ### The code -/

/-- The memory of a program: the bytes of the pages that are there. -/
abbrev UserMem := Nat → Option UInt8

/-- A variable: its name and its value. -/
abbrev Var := List UInt8 × List UInt8

/-- Where `getenv` looks for the `j`-th variable. -/
def envPage (j : Nat) : Nat := 0x302000 + 0x1000 * j

/-- The inner loop of `getenv`: what stands in front of the `=`. The first argument is the room that
is left in `temp`. -/
def entryName (m : UserMem) : Nat → Nat → Option (List UInt8)
  | 0, _ => none
  | n + 1, a => do
    let c ← m a
    if c = 0x3D then some [] else (entryName m n (a + 1)).map (c :: ·)

/-- The loop of `getenv` from the page `a` on: the address of the value. -/
def getenvFrom (m : UserMem) (name : List UInt8) : Nat → Nat → Option (Option Nat)
  | 0, _ => none
  | n + 1, a => do
    let c ← m a
    if c = 0 then some none
    else
      let temp ← entryName m 256 a
      if temp.takeWhile (· != 0) = name then some (some (a + temp.length + 1))
      else getenvFrom m name n (a + 0x1000)

/-- `getenv`; the result is open where `temp` is too small. -/
def getenv (m : UserMem) (name : List UInt8) : Option (Option Nat) :=
  getenvFrom m name walkFuel 0x302000

/-- A string in the memory of a program. -/
def cString (m : UserMem) : Nat → Nat → Option (List UInt8)
  | 0, _ => none
  | n + 1, a => do
    let c ← m a
    if c = 0 then some [] else (cString m n (a + 1)).map (c :: ·)

/-- What the caller of `getenv` reads. -/
def getenvValue (m : UserMem) (name : List UInt8) : Option (Option (List UInt8)) := do
  match ← getenv m name with
  | none => some none
  | some a => (cString m walkFuel a).map some

/-- Stores to consecutive addresses. -/
def storeAll : UserMem → Nat → List UInt8 → Option UserMem
  | m, _, [] => some m
  | m, a, b :: bs =>
    if (m a).isSome then storeAll (Function.update m a (some b)) (a + 1) bs else none

/-- The loop of `setenv` for the first free page. -/
def freePage (m : UserMem) : Nat → Nat → Option Nat
  | 0, _ => none
  | n + 1, a => do
    let c ← m a
    if c = 0 then some a else freePage m n (a + 0x1000)

/-- A page of zeros at `a`. -/
def mapZeros (m : UserMem) (a : Nat) : UserMem := fun x =>
  if a ≤ x ∧ x < a + 0x1000 then some 0 else m x

/-- `setenv`: the value is overwritten, or the variable goes to the first free page, and there is a
new one behind it. -/
def setenv (m : UserMem) (v : Var) : Option UserMem := do
  match ← getenv m v.1 with
  | some start => storeAll m start (v.2 ++ [0, 0])
  | none =>
    let a ← freePage m walkFuel 0x302000
    (storeAll m a (v.1 ++ 0x3D :: v.2 ++ [0])).map fun m => mapZeros m (a + 0x1000)

/-- A sequence of calls. -/
def setenvs (m : UserMem) (calls : List Var) : Option UserMem := calls.foldlM setenv m

/-- A pointer in the memory of a program. -/
def wordAt (m : UserMem) (a : Nat) : Option Nat := (m a).map fun _ => read64 (fun x => (m x).getD 0) a

/-- The strings that `exec` copies from the array at `a`. -/
def envpStrings (m : UserMem) : Nat → Nat → Option (List (List UInt8))
  | 0, _ => none
  | n + 1, a => do
    let p ← wordAt m a
    if p = 0 then some []
    else
      let text ← cString m walkFuel p
      (envpStrings m n (a + 8)).map (text :: ·)

/-- The array that `main` receives, which lies in the argument block. -/
def mainEnvp : Nat := 0x300EF0

/-! ### What it means -/

/-- The string of a variable. -/
def entryOf (v : Var) : List UInt8 := v.1 ++ 0x3D :: v.2

/-- The string on the `j`-th page: there is none behind the last variable. -/
def stringAt (strs : List (List UInt8)) (j : Nat) : List UInt8 := strs.getD j []

/-- **A page with the string `text`.** -/
structure StringPage (m : UserMem) (a : Nat) (text : List UInt8) : Prop where
  present : ∀ x < 4096, (m (a + x)).isSome
  text : ∀ i ≤ text.length, m (a + i) = (text ++ [0])[i]?

/-- An empty page. -/
def ZeroPage (m : UserMem) (a : Nat) : Prop := ∀ x < 4096, m (a + x) = some 0

/-- **A program that has been started** with the environment `strs`: a page for each string, an empty
one, and a pointer to each page. -/
structure Started (m : UserMem) (strs : List (List UInt8)) : Prop where
  page : ∀ j ≤ strs.length, StringPage m (envPage j) (stringAt strs j)
  pointer : ∀ j ≤ strs.length, wordAt m (mainEnvp + 8 * j) = some (envPage j)
  null : wordAt m (mainEnvp + 8 * (strs.length + 1)) = some 0

/-- **The pages hold the variables `es`**; there are at least `n` pages and an empty one. -/
def Environ (m : UserMem) (es : List Var) (n : Nat) : Prop :=
  ∀ j, j ≤ n ∨ j ≤ es.length → StringPage m (envPage j) (stringAt (es.map entryOf) j)

/-- A variable as the shell exports it: the name has no `=` and is not empty, and the entry has less
than 512 bytes. -/
structure VarOk (v : Var) : Prop where
  name : v.1 ≠ []
  nameZero : 0 ∉ v.1
  nameEq : 0x3D ∉ v.1
  valueZero : 0 ∉ v.2
  short : (entryOf v).length < 512

instance (v : Var) : Decidable (VarOk v) :=
  decidable_of_iff (v.1 ≠ [] ∧ 0 ∉ v.1 ∧ 0x3D ∉ v.1 ∧ 0 ∉ v.2 ∧ (entryOf v).length < 512)
    ⟨fun ⟨h₁, h₂, h₃, h₄, h₅⟩ => ⟨h₁, h₂, h₃, h₄, h₅⟩, fun ⟨h₁, h₂, h₃, h₄, h₅⟩ =>
      ⟨h₁, h₂, h₃, h₄, h₅⟩⟩

/-- A variable that fits its page, with the two zeros that `setenv` writes behind a value. -/
structure VarFits (v : Var) : Prop where
  name : v.1 ≠ []
  nameZero : 0 ∉ v.1
  nameEq : 0x3D ∉ v.1
  valueZero : 0 ∉ v.2
  short : (entryOf v).length + 2 ≤ 4096

theorem VarOk.fits {v : Var} (h : VarOk v) : VarFits v :=
  ⟨h.name, h.nameZero, h.nameEq, h.valueZero, by have := h.short; omega⟩

/-- The position of a variable, as `getenv` finds it: a name of more than 255 bytes does not fit
`temp`. -/
def scan : List Var → List UInt8 → Option (Option Nat)
  | [], _ => some none
  | v :: vs, name =>
    if 256 ≤ v.1.length then none
    else if v.1 = name then some (some 0)
    else (scan vs name).map (Option.map (· + 1))

/-- The variables after `setenv`. -/
def setVar : List Var → Var → List Var
  | [], v => [v]
  | w :: ws, v => if w.1 = v.1 then v :: ws else w :: setVar ws v

variable {m m' : UserMem} {es : List Var} {v : Var} {a n j : Nat} {name text : List UInt8}
  {strs : List (List UInt8)}

/-! ### Reading -/

theorem entryName_spec {rest : List UInt8} (hname : 0x3D ∉ name)
    (h : ∀ i ≤ name.length, m (a + i) = (name ++ 0x3D :: rest)[i]?) :
    entryName m n a = if name.length < n then some name else none := by
  -- the scan stops at the equals sign, which is not in the name
  induction name generalizing n a with
  | nil =>
    cases n with
    | zero => rfl
    | succ n =>
      have h0 := h 0 (by simp)
      simp only [Nat.add_zero, List.nil_append, List.getElem?_cons_zero] at h0
      simp [entryName, h0]
  | cons c name ih =>
    cases n with
    | zero => rfl
    | succ n =>
      have h0 := h 0 (by simp)
      simp only [Nat.add_zero, List.cons_append, List.getElem?_cons_zero] at h0
      have hc : c ≠ 0x3D := fun hc => hname (by simp [hc])
      have hrest := ih (n := n) (a := a + 1) (fun hc => hname (List.mem_cons_of_mem c hc))
        fun i hi => by
          rw [Nat.add_assoc, Nat.add_comm 1 i, h (i + 1) (by simpa using hi)]
          rfl
      simp only [entryName, h0, Option.bind_eq_bind, Option.bind_some, if_neg hc, hrest,
        List.length_cons]
      by_cases hlt : name.length < n
      · rw [if_pos hlt, if_pos (by omega), Option.map_some]
      · rw [if_neg hlt, if_neg (by omega), Option.map_none]

theorem cString_spec (htext : 0 ∉ text) (h : ∀ i ≤ text.length, m (a + i) = (text ++ [0])[i]?)
    (hn : text.length < n) : cString m n a = some text := by
  induction text generalizing n a with
  | nil =>
    obtain ⟨n, rfl⟩ := Nat.exists_eq_succ_of_ne_zero (show n ≠ 0 by omega)
    have h0 := h 0 (by simp)
    simp only [Nat.add_zero, List.nil_append, List.getElem?_cons_zero] at h0
    simp [cString, h0]
  | cons c text ih =>
    obtain ⟨n, rfl⟩ := Nat.exists_eq_succ_of_ne_zero (show n ≠ 0 by omega)
    have h0 := h 0 (by simp)
    simp only [Nat.add_zero, List.cons_append, List.getElem?_cons_zero] at h0
    have hc : c ≠ 0 := fun hc => htext (by simp [hc])
    have hrest := ih (n := n) (a := a + 1) (fun hc => htext (List.mem_cons_of_mem c hc))
      (fun i hi => by
        rw [Nat.add_assoc, Nat.add_comm 1 i, h (i + 1) (by simpa using hi)]
        rfl)
      (by simpa using hn)
    simp only [cString, h0, Option.bind_eq_bind, Option.bind_some, if_neg hc, hrest,
      Option.map_some]

/-! ### getenv -/

/-- **What a scan finds on the page of a variable**: no empty page, and the name, if `temp` has room
for it. -/
theorem StringPage.entry (h : StringPage m a (entryOf v)) (hv : VarFits v) :
    (∃ c ≠ 0, m a = some c) ∧
      entryName m 256 a = (if v.1.length < 256 then some v.1 else none) ∧
      v.1.takeWhile (· != 0) = v.1 := by
  refine ⟨?_, ?_, ?_⟩
  · obtain ⟨c, cs, hname⟩ := List.exists_cons_of_ne_nil hv.name
    have h0 := h.text 0 (Nat.zero_le _)
    rw [Nat.add_zero, entryOf, hname] at h0
    exact ⟨c, fun hc => hv.nameZero (by simp [hname, hc]), h0⟩
  · refine @entryName_spec m a 256 v.1 (v.2 ++ [0]) hv.nameEq fun i hi => ?_
    rw [h.text i (by simp only [entryOf, List.length_append, List.length_cons]; omega)]
    simp only [entryOf, List.append_assoc, List.cons_append]
  · -- `strcmp` sees the whole name
    refine List.takeWhile_eq_self_iff.mpr fun x hx => ?_
    simp only [bne_iff_ne, ne_eq]
    rintro rfl
    exact hv.nameZero hx

/-- **The loop of `getenv`** finds a variable, or the first free page. -/
theorem getenvFrom_spec (name : List UInt8) (hes : ∀ v ∈ es, VarFits v)
    (h : ∀ i ≤ es.length, StringPage m (envPage (j + i)) (stringAt (es.map entryOf) i))
    (hn : es.length < n) :
    getenvFrom m name n (envPage j) = (scan es name).map
      (Option.map fun i => envPage (j + i) + (es.getD i ([], [])).1.length + 1) := by
  -- one round for each page; an empty page ends the search
  induction es generalizing j n with
  | nil =>
    obtain ⟨n, rfl⟩ := Nat.exists_eq_succ_of_ne_zero (show n ≠ 0 by omega)
    have h0 : m (envPage j) = some 0 := (h 0 (le_refl 0)).text 0 (Nat.zero_le _)
    simp only [getenvFrom, h0, Option.bind_eq_bind, Option.bind_some, if_true, scan,
      Option.map_some, Option.map_none]
  | cons v es ih =>
    obtain ⟨n, rfl⟩ := Nat.exists_eq_succ_of_ne_zero (show n ≠ 0 by omega)
    have hv := hes v (by simp)
    have hpage := h 0 (Nat.zero_le _)
    rw [Nat.add_zero, show stringAt ((v :: es).map entryOf) 0 = entryOf v from rfl] at hpage
    obtain ⟨⟨c, hc, h0⟩, hentry, htake⟩ := hpage.entry hv
    simp only [getenvFrom, h0, Option.bind_eq_bind, Option.bind_some, if_neg hc, hentry, scan]
    -- a name of 256 bytes does not fit the buffer it is compared in
    by_cases hlong : 256 ≤ v.1.length
    · rw [if_neg (by omega), if_pos hlong]
      rfl
    · rw [if_pos (by omega), if_neg hlong, Option.bind_some, htake]
      by_cases heq : v.1 = name
      · rw [if_pos heq, if_pos heq]
        simp
      · have hrest := ih (j := j + 1) (n := n) (fun w hw => hes w (List.mem_cons_of_mem v hw))
          (fun i hi => by
            have := h (i + 1) (by simpa using hi)
            rwa [show j + (i + 1) = j + 1 + i by omega] at this)
          (by simpa using hn)
        rw [if_neg heq, if_neg heq, show envPage j + 0x1000 = envPage (j + 1) by
          unfold envPage; omega, hrest, Option.map_map]
        congr 1
        funext o
        cases o with
        | none => rfl
        | some i =>
          simp only [Function.comp_apply, Option.map_some, List.getD_cons_succ]
          rw [show j + 1 + i = j + (i + 1) by omega]

theorem scan_some {i : Nat} (h : scan es name = some (some i)) (value : List UInt8) :
    ∃ v, es[i]? = some v ∧ v.1 = name ∧ v ∈ es ∧
      setVar es (name, value) = es.set i (name, value) := by
  induction es generalizing i with
  | nil => cases h
  | cons v es ih =>
    simp only [scan] at h
    split_ifs at h with hlong heq
    · obtain rfl := Option.some.inj (Option.some.inj h)
      exact ⟨v, rfl, heq, by simp, by rw [setVar, if_pos heq, List.set_cons_zero]⟩
    · obtain ⟨o, ho, hi⟩ := Option.map_eq_some_iff.mp h
      obtain ⟨i', rfl, rfl⟩ := Option.map_eq_some_iff.mp hi
      obtain ⟨w, hw, hn, hmem, hset⟩ := ih ho
      refine ⟨w, by rwa [List.getElem?_cons_succ], hn, List.mem_cons_of_mem v hmem, ?_⟩
      rw [setVar, if_neg heq, hset, List.set_cons_succ]

theorem scan_none (h : scan es name = some none) (value : List UInt8) :
    setVar es (name, value) = es ++ [(name, value)] := by
  induction es with
  | nil => rfl
  | cons v es ih =>
    simp only [scan] at h
    split_ifs at h with hlong heq
    · cases h
    · obtain ⟨o, ho, hi⟩ := Option.map_eq_some_iff.mp h
      cases o with
      | none => rw [setVar, if_neg heq, ih ho, List.cons_append]
      | some i => cases hi

/-- `getenv` gets through, exactly if no name on its way is too long. -/
theorem scan_isSome (h : ∀ v ∈ es, v.1.length ≤ 255) (name : List UInt8) :
    ∃ o, scan es name = some o := by
  induction es with
  | nil => exact ⟨none, rfl⟩
  | cons v es ih =>
    obtain ⟨o, ho⟩ := ih fun w hw => h w (List.mem_cons_of_mem v hw)
    have hv := h v (by simp)
    simp only [scan]
    rw [if_neg (by omega)]
    split_ifs
    · exact ⟨_, rfl⟩
    · exact ⟨_, by rw [ho, Option.map_some]⟩

/-- The empty name is looked for everywhere. -/
theorem short_of_scan_nil (hes : ∀ v ∈ es, VarFits v) {o : Option Nat} (h : scan es [] = some o) :
    ∀ v ∈ es, v.1.length ≤ 255 := by
  induction es generalizing o with
  | nil => simp
  | cons v es ih =>
    simp only [scan] at h
    split_ifs at h with hlong heq
    · exact absurd heq (hes v (by simp)).name
    · obtain ⟨o', ho, -⟩ := Option.map_eq_some_iff.mp h
      intro w hw
      rcases List.mem_cons.mp hw with rfl | hw
      · omega
      · exact ih (fun w hw => hes w (List.mem_cons_of_mem v hw)) ho w hw

/-! ### setenv -/

/-- **Stores to a range that is there.** -/
theorem storeAll_spec {bs : List UInt8} (h : ∀ i < bs.length, (m (a + i)).isSome) :
    ∃ m', storeAll m a bs = some m' ∧ (∀ i < bs.length, m' (a + i) = bs[i]?) ∧
      ∀ x, (∀ i < bs.length, x ≠ a + i) → m' x = m x := by
  induction bs generalizing m a with
  | nil => exact ⟨m, rfl, by simp, fun _ _ => rfl⟩
  | cons b bs ih =>
    have hupd : ∀ x, x ≠ a → Function.update m a (some b) x = m x := fun x hx =>
      Function.update_of_ne hx ..
    obtain ⟨m', hm', hin, hout⟩ := @ih (Function.update m a (some b)) (a + 1) fun i hi => by
      rw [hupd _ (by omega), Nat.add_assoc, Nat.add_comm 1 i]
      exact h (i + 1) (by simpa using hi)
    refine ⟨m', by rw [storeAll, if_pos (by simpa using h 0 (by simp)), hm'], fun i hi => ?_,
      fun x hx => ?_⟩
    · cases i with
      | zero =>
        rw [hout _ fun i _ => by omega, Nat.add_zero, Function.update_self]
        rfl
      | succ i =>
        have := hin i (by simpa using hi)
        rwa [Nat.add_assoc, Nat.add_comm 1 i] at this
    · rw [hout x fun i hi => ?_, hupd x (hx 0 (by simp))]
      have := hx (i + 1) (by simpa using hi)
      omega

theorem freePage_spec (hes : ∀ v ∈ es, VarFits v)
    (h : ∀ i ≤ es.length, StringPage m (envPage (j + i)) (stringAt (es.map entryOf) i))
    (hn : es.length < n) : freePage m n (envPage j) = some (envPage (j + es.length)) := by
  induction es generalizing j n with
  | nil =>
    obtain ⟨n, rfl⟩ := Nat.exists_eq_succ_of_ne_zero (show n ≠ 0 by omega)
    have h0 : m (envPage j) = some 0 := (h 0 (le_refl 0)).text 0 (Nat.zero_le _)
    simp only [freePage, h0, Option.bind_eq_bind, Option.bind_some, if_true, List.length_nil,
      Nat.add_zero]
  | cons v es ih =>
    obtain ⟨n, rfl⟩ := Nat.exists_eq_succ_of_ne_zero (show n ≠ 0 by omega)
    have hpage := h 0 (Nat.zero_le _)
    rw [Nat.add_zero, show stringAt ((v :: es).map entryOf) 0 = entryOf v from rfl] at hpage
    obtain ⟨⟨c, hc, h0⟩, -⟩ := hpage.entry (hes v (by simp))
    simp only [freePage, h0, Option.bind_eq_bind, Option.bind_some, if_neg hc]
    rw [show envPage j + 0x1000 = envPage (j + 1) by unfold envPage; omega,
      ih (j := j + 1) (fun w hw => hes w (List.mem_cons_of_mem v hw))
        (fun i hi => by
          have := h (i + 1) (by simpa using hi)
          rwa [show j + (i + 1) = j + 1 + i by omega] at this)
        (by simpa using hn), List.length_cons, show j + 1 + es.length = j + (es.length + 1) by omega]

/-- A page keeps its string where memory stays. -/
theorem StringPage.congr (h : StringPage m a text) (heq : ∀ x < 4096, m' (a + x) = m (a + x))
    (hlen : text.length < 4096) : StringPage m' a text :=
  ⟨fun x hx => by rw [heq x hx]; exact h.present x hx,
    fun i hi => by rw [heq i (by omega)]; exact h.text i hi⟩

theorem length_stringAt_lt (hes : ∀ v ∈ es, VarFits v) (j : Nat) :
    (stringAt (es.map entryOf) j).length < 4096 := by
  unfold stringAt
  rw [List.getD_eq_getElem?_getD, List.getElem?_map]
  cases hv : es[j]? with
  | none => simp
  | some v =>
    have := (hes v (List.mem_of_getElem? hv)).short
    rw [Option.map_some, Option.getD_some]
    omega

/-- The value on a page is overwritten. -/
theorem StringPage.overwrite {old value tail : List UInt8}
    (h : StringPage m a (name ++ 0x3D :: old)) (htail : tail[0]? = some 0)
    (hin : ∀ i < (value ++ tail).length, m' (a + name.length + 1 + i) = (value ++ tail)[i]?)
    (hout : ∀ x, (∀ i < (value ++ tail).length, x ≠ a + name.length + 1 + i) → m' x = m x) :
    StringPage m' a (name ++ 0x3D :: value) := by
  have hlen : value.length < (value ++ tail).length := by
    have := (List.getElem?_eq_some_iff.mp htail).1
    rw [List.length_append]
    omega
  -- what is written begins behind the equals sign and ends with a zero
  refine ⟨fun x hx => ?_, fun x hx => ?_⟩
  · by_cases hlo : ∀ i < (value ++ tail).length, a + x ≠ a + name.length + 1 + i
    · rw [hout _ hlo]
      exact h.present x hx
    · push Not at hlo
      obtain ⟨i, hi, hxi⟩ := hlo
      rw [hxi, hin i hi, List.getElem?_eq_getElem hi]
      rfl
  · simp only [List.length_append, List.length_cons] at hx
    simp only [List.append_assoc, List.cons_append]
    rcases Nat.lt_or_ge x (name.length + 1) with hlo | hlo
    · -- the name stays
      rw [hout _ fun i hi => by omega, h.text x (by
        simp only [List.length_append, List.length_cons]
        omega)]
      simp only [List.append_assoc, List.cons_append]
      rcases Nat.lt_or_ge x name.length with hx' | hx'
      · rw [List.getElem?_append_left hx', List.getElem?_append_left hx']
      · rw [List.getElem?_append_right hx', List.getElem?_append_right hx',
          show x - name.length = 0 by omega]
        rfl
    · have := hin (x - (name.length + 1)) (by omega)
      rw [show a + name.length + 1 + (x - (name.length + 1)) = a + x by omega] at this
      rw [this, List.getElem?_append_right (show name.length ≤ x by omega),
        show x - name.length = x - (name.length + 1) + 1 by omega, List.getElem?_cons_succ]
      rcases Nat.lt_or_ge (x - (name.length + 1)) value.length with hx' | hx'
      · rw [List.getElem?_append_left hx', List.getElem?_append_left hx']
      · rw [List.getElem?_append_right hx', List.getElem?_append_right hx',
          show x - (name.length + 1) - value.length = 0 by omega, htail]
        rfl

theorem Environ.pages (h : Environ m es n) :
    ∀ i ≤ es.length, StringPage m (envPage (0 + i)) (stringAt (es.map entryOf) i) := fun i hi => by
  rw [Nat.zero_add]
  exact h i (Or.inr hi)

/-- **`getenv`** is the search in the list. -/
theorem getenv_spec (name : List UInt8) (h : Environ m es n) (hes : ∀ v ∈ es, VarFits v)
    (hlen : es.length < walkFuel) :
    getenv m name = (scan es name).map
      (Option.map fun i => envPage i + (es.getD i ([], [])).1.length + 1) := by
  have := getenvFrom_spec name hes h.pages hlen
  simp only [Nat.zero_add] at this
  rwa [getenv, show (0x302000 : Nat) = envPage 0 from rfl]

/-- **A value is stored over the old one**, with a zero behind it and at most one byte more. -/
theorem Environ.overwrite {i : Nat} {w : Var} {value tail : List UInt8} (h : Environ m es n)
    (hes : ∀ v ∈ es, VarFits v) (hw : es[i]? = some w) (hv : VarFits (w.1, value))
    (htail : tail[0]? = some 0) (htl : tail.length ≤ 2) :
    ∃ m', storeAll m (envPage i + w.1.length + 1) (value ++ tail) = some m' ∧
      Environ m' (es.set i (w.1, value)) n ∧ (∀ x < 0x302000, m' x = m x) ∧
      (ZeroPage m (envPage es.length) → ZeroPage m' (envPage es.length)) := by
  have hi : i < es.length := (List.getElem?_eq_some_iff.mp hw).1
  have hshort := hv.short
  simp only [entryOf, List.length_append, List.length_cons] at hshort
  have hpage := h i (Or.inr hi.le)
  rw [show stringAt (es.map entryOf) i = w.1 ++ 0x3D :: w.2 by
    rw [stringAt, List.getD_eq_getElem?_getD, List.getElem?_map, hw]
    rfl] at hpage
  have hvlen : (value ++ tail).length ≤ value.length + 2 := by
    rw [List.length_append]
    omega
  -- the value stays in the page
  obtain ⟨m', hm', hin, hout⟩ := @storeAll_spec m (envPage i + w.1.length + 1) (value ++ tail)
    fun x hx => by
      have := hpage.present (w.1.length + 1 + x) (by omega)
      rwa [show envPage i + (w.1.length + 1 + x) = envPage i + w.1.length + 1 + x by omega] at this
  -- all other pages stay
  have hfar : ∀ x, (x < envPage i ∨ envPage i + 4096 ≤ x) → m' x = m x := fun x hx =>
    hout x fun y hy => by omega
  refine ⟨m', hm', fun j hj => ?_, fun x hx => hfar x (Or.inl (by unfold envPage; omega)),
    fun hz x hx => ?_⟩
  · rw [List.length_set] at hj
    by_cases hji : j = i
    · subst hji
      rw [show stringAt ((es.set j (w.1, value)).map entryOf) j = w.1 ++ 0x3D :: value by
        rw [stringAt, List.getD_eq_getElem?_getD, List.getElem?_map, List.getElem?_set_self hi]
        rfl]
      exact hpage.overwrite htail hin hout
    · -- another page
      rw [show stringAt ((es.set i (w.1, value)).map entryOf) j = stringAt (es.map entryOf) j by
        simp only [stringAt, List.getD_eq_getElem?_getD, List.getElem?_map,
          List.getElem?_set_ne (Ne.symm hji)]]
      refine (h j hj).congr (fun x hx => hfar _ ?_) ?_
      · unfold envPage
        omega
      · have := length_stringAt_lt hes j
        omega
  · rw [hfar _ (Or.inr (by unfold envPage; omega))]
    exact hz x hx

/-- The variable at position `i` gets a new value. -/
theorem setenv_found {i : Nat} (h : Environ m es n) (hes : ∀ v ∈ es, VarFits v) (hv : VarFits v)
    (hlen : es.length < walkFuel) (ho : scan es v.1 = some (some i)) :
    ∃ m', setenv m v = some m' ∧ Environ m' (setVar es v) n ∧ (∀ x < 0x302000, m' x = m x) ∧
      (ZeroPage m (envPage es.length) → ZeroPage m' (envPage (setVar es v).length)) := by
  have hget := getenv_spec v.1 h hes hlen
  obtain ⟨w, hw, hname, -, hset⟩ := scan_some ho v.2
  simp only [ho, Option.map_some, List.getD_eq_getElem?_getD, hw, Option.getD_some] at hget
  obtain ⟨m', hm', hE, hlow, hzero⟩ := h.overwrite hes hw
    (show VarFits (w.1, v.2) by rwa [hname]) (show [(0 : UInt8), 0][0]? = some 0 from rfl)
    (Nat.le_refl 2)
  rw [hname] at hE
  rw [show v = (v.1, v.2) from rfl, hset, List.length_set]
  refine ⟨m', ?_, hE, hlow, hzero⟩
  simp only [setenv, hget, Option.bind_eq_bind, Option.bind_some, hm']

/-- A new variable goes to the page behind the others. -/
theorem setenv_new (h : Environ m es n) (hes : ∀ v ∈ es, VarFits v) (hv : VarFits v)
    (hlen : es.length < walkFuel) (ho : scan es v.1 = some none) :
    ∃ m', setenv m v = some m' ∧ Environ m' (setVar es v) n ∧ (∀ x < 0x302000, m' x = m x) ∧
      (ZeroPage m (envPage es.length) → ZeroPage m' (envPage (setVar es v).length)) := by
  have hget := getenv_spec v.1 h hes hlen
  rw [ho, Option.map_some, Option.map_none] at hget
  have hfree : freePage m walkFuel 0x302000 = some (envPage es.length) := by
    have := freePage_spec hes h.pages hlen
    rwa [Nat.zero_add] at this
  have hset : setVar es v = es ++ [v] := scan_none ho v.2
  have hshort : (entryOf v ++ [0]).length ≤ 4096 := by
    have := hv.short
    rw [List.length_append, List.length_singleton]
    omega
  have hpage := h es.length (Or.inr le_rfl)
  -- the entry goes to the page behind the last one, and a zero page is mapped behind that
  obtain ⟨m₁, hm₁, hin, hout⟩ := @storeAll_spec m (envPage es.length) (entryOf v ++ [0]) fun x hx =>
    hpage.present x (by omega)
  have hfar : ∀ x, (x < envPage es.length ∨ envPage es.length + 4096 ≤ x) → m₁ x = m x :=
    fun x hx => hout x fun y hy => by omega
  set m' := mapZeros m₁ (envPage es.length + 0x1000) with hm'
  have hmap : ∀ x, ¬ (envPage es.length + 0x1000 ≤ x ∧ x < envPage es.length + 0x2000) →
      m' x = m₁ x := fun x hx => if_neg hx
  refine ⟨m', ?_, fun j hj => ?_, fun x hx => ?_, fun _ x hx => ?_⟩
  · simp only [setenv, hget, Option.bind_eq_bind, Option.bind_some, hfree]
    rw [show v.1 ++ 0x3D :: v.2 ++ [0] = entryOf v ++ [0] from rfl, hm₁, Option.map_some]
  · rw [hset, List.length_append, List.length_singleton] at hj
    have hstr : stringAt ((setVar es v).map entryOf) j =
        if j = es.length then entryOf v else stringAt (es.map entryOf) j := by
      simp only [stringAt, List.getD_eq_getElem?_getD, hset, List.map_append, List.map_cons,
        List.map_nil]
      split_ifs with hj'
      · subst hj'
        rw [List.getElem?_append_right (by simp)]
        simp
      · rcases Nat.lt_or_ge j es.length with hlt | hge
        · rw [List.getElem?_append_left (by simpa using hlt)]
        · rw [List.getElem?_eq_none (by simp; omega), List.getElem?_eq_none (by simpa using hge)]
    rw [hstr]
    split_ifs with hj'
    · -- the page of the new variable
      subst hj'
      have heq : ∀ x < 4096, m' (envPage es.length + x) = m₁ (envPage es.length + x) := fun x hx =>
        hmap _ (by omega)
      refine ⟨fun x hx => ?_, fun x hx => ?_⟩
      · rw [heq x hx]
        by_cases hlo : x < (entryOf v ++ [(0 : UInt8)]).length
        · rw [hin x hlo, List.getElem?_eq_getElem hlo]
          rfl
        · rw [hout _ fun y hy => by omega]
          exact hpage.present x hx
      · have hx' : x < (entryOf v ++ [(0 : UInt8)]).length := by
          rw [List.length_append, List.length_singleton]
          omega
        rw [heq x (by omega), hin x hx']
    · by_cases hnew : j = es.length + 1
      · -- the new page behind it
        subst hnew
        have hzero : ∀ x < 4096, m' (envPage (es.length + 1) + x) = some 0 := fun x hx =>
          if_pos (by unfold envPage; omega)
        have hnone : stringAt (es.map entryOf) (es.length + 1) = [] := by
          rw [stringAt, List.getD_eq_getElem?_getD, List.getElem?_eq_none (by simp), Option.getD_none]
        rw [hnone]
        refine ⟨fun x hx => by rw [hzero x hx]; rfl, fun x hx => ?_⟩
        obtain rfl : x = 0 := Nat.le_zero.mp hx
        exact hzero 0 (by omega)
      · refine (h j (by omega)).congr (fun x hx => ?_) ?_
        · rw [hmap _ (by unfold envPage; omega)]
          exact hfar _ (by unfold envPage; omega)
        · have := length_stringAt_lt hes j
          omega
  · rw [hmap x (by unfold envPage; omega)]
    exact hfar x (Or.inl (by unfold envPage; omega))
  · -- the new last page is the one that has been mapped
    rw [hset, List.length_append, List.length_singleton]
    exact if_pos (by unfold envPage; omega)

/-- **`setenv`** keeps the pages in order, and everything below them as it is. -/
theorem setenv_spec (h : Environ m es n) (hes : ∀ v ∈ es, VarFits v) (hv : VarFits v)
    (hlen : es.length < walkFuel) {o : Option Nat} (ho : scan es v.1 = some o) :
    ∃ m', setenv m v = some m' ∧ Environ m' (setVar es v) n ∧ (∀ x < 0x302000, m' x = m x) ∧
      (ZeroPage m (envPage es.length) → ZeroPage m' (envPage (setVar es v).length)) := by
  cases o with
  | some i => exact setenv_found h hes hv hlen ho
  | none => exact setenv_new h hes hv hlen ho

/-! ### A sequence of calls -/

theorem mem_setVar {w : Var} (h : w ∈ setVar es v) : w ∈ es ∨ w = v := by
  induction es with
  | nil => exact Or.inr (List.mem_singleton.mp h)
  | cons u es ih =>
    rw [setVar] at h
    split_ifs at h with heq
    · rcases List.mem_cons.mp h with rfl | h
      · exact Or.inr rfl
      · exact Or.inl (List.mem_cons_of_mem u h)
    · rcases List.mem_cons.mp h with rfl | h
      · exact Or.inl (by simp)
      · exact (ih h).imp_left (List.mem_cons_of_mem u)

/-- Names stay. -/
theorem setVar_name {w : Var} (h : w ∈ es) : ∃ u ∈ setVar es v, u.1 = w.1 := by
  induction es with
  | nil => cases h
  | cons u es ih =>
    rw [setVar]
    split_ifs with heq
    · rcases List.mem_cons.mp h with rfl | h
      · exact ⟨v, by simp, heq.symm⟩
      · exact ⟨w, List.mem_cons_of_mem v h, rfl⟩
    · rcases List.mem_cons.mp h with rfl | h
      · exact ⟨w, by simp, rfl⟩
      · obtain ⟨x, hx, hn⟩ := ih h
        exact ⟨x, List.mem_cons_of_mem u hx, hn⟩

theorem length_le_setVar : es.length ≤ (setVar es v).length := by
  induction es with
  | nil => exact Nat.zero_le _
  | cons u es ih =>
    rw [setVar]
    split_ifs
    · exact le_refl _
    · exact Nat.succ_le_succ ih

variable {calls : List Var}

theorem length_le_foldl_setVar : es.length ≤ (calls.foldl setVar es).length := by
  induction calls generalizing es with
  | nil => exact le_refl _
  | cons v calls ih => exact length_le_setVar.trans ih

/-- What all variables have in common stays so. -/
theorem setVar_all {P : Var → Prop} (hes : ∀ w ∈ es, P w) (hv : P v) : ∀ w ∈ setVar es v, P w := by
  intro w hw
  rcases mem_setVar hw with hw | rfl
  · exact hes w hw
  · exact hv

theorem foldl_setVar_all {P : Var → Prop} (hes : ∀ v ∈ es, P v) (hcalls : ∀ v ∈ calls, P v) :
    ∀ v ∈ calls.foldl setVar es, P v := by
  induction calls generalizing es with
  | nil => exact hes
  | cons v calls ih =>
    exact ih (setVar_all hes (hcalls v (by simp))) fun w hw => hcalls w (List.mem_cons_of_mem v hw)

theorem foldl_setVar_name (calls : List Var) {w : Var} (h : w ∈ es) :
    ∃ u ∈ calls.foldl setVar es, u.1 = w.1 := by
  induction calls generalizing es w with
  | nil => exact ⟨w, h, rfl⟩
  | cons v calls ih =>
    obtain ⟨u, hu, hn⟩ := setVar_name (v := v) h
    obtain ⟨x, hx, hn'⟩ := ih hu
    exact ⟨x, hx, hn'.trans hn⟩

/-- **A sequence of `setenv` calls**, if it gets through: the pages are in order. -/
theorem setenvs_spec (h : Environ m es n) (hes : ∀ v ∈ es, VarFits v)
    (hcalls : ∀ v ∈ calls, VarFits v) (hlen : (calls.foldl setVar es).length < walkFuel)
    (hm : setenvs m calls = some m') :
    Environ m' (calls.foldl setVar es) n ∧ (∀ x < 0x302000, m' x = m x) ∧
      (ZeroPage m (envPage es.length) → ZeroPage m' (envPage (calls.foldl setVar es).length)) := by
  induction calls generalizing m es with
  | nil =>
    obtain rfl := Option.some.inj hm
    exact ⟨h, fun _ _ => rfl, id⟩
  | cons v calls ih =>
    have hv := hcalls v (by simp)
    have hlen₀ : es.length < walkFuel := lt_of_le_of_lt length_le_foldl_setVar hlen
    obtain ⟨m₁, hm₁, hrest⟩ := Option.bind_eq_some_iff.mp hm
    have hscan : ∃ o, scan es v.1 = some o := by
      rw [← Option.ne_none_iff_exists']
      intro hc
      have hget := getenv_spec v.1 h hes hlen₀
      rw [hc, Option.map_none] at hget
      simp [setenv, hget] at hm₁
    obtain ⟨o, ho⟩ := hscan
    obtain ⟨m₁', hm₁', hE, hlow, hzero⟩ := setenv_spec h hes hv hlen₀ ho
    obtain rfl := Option.some.inj (hm₁'.symm.trans hm₁)
    obtain ⟨hE', hlow', hzero'⟩ := ih hE (setVar_all hes hv)
      (fun w hw => hcalls w (List.mem_cons_of_mem v hw)) hlen hrest
    exact ⟨hE', fun x hx => (hlow' x hx).trans (hlow x hx), fun hz => hzero' (hzero hz)⟩

/-- … and it gets through if all names are short. -/
theorem setenvs_isSome (h : Environ m es n) (hes : ∀ v ∈ es, VarFits v)
    (hcalls : ∀ v ∈ calls, VarFits v) (hlen : (calls.foldl setVar es).length < walkFuel)
    (hshort : ∀ v ∈ calls.foldl setVar es, v.1.length ≤ 255) : ∃ m', setenvs m calls = some m' := by
  induction calls generalizing m es with
  | nil => exact ⟨m, rfl⟩
  | cons v calls ih =>
    have hlen₀ : es.length < walkFuel := lt_of_le_of_lt length_le_foldl_setVar hlen
    obtain ⟨o, ho⟩ := scan_isSome (fun w hw => by
      obtain ⟨u, hu, hn⟩ := foldl_setVar_name (v :: calls) hw
      exact hn ▸ hshort u hu) v.1
    obtain ⟨m₁, hm₁, hE, -⟩ := setenv_spec h hes (hcalls v (by simp)) hlen₀ ho
    obtain ⟨m', hm'⟩ := ih hE
      (setVar_all hes (hcalls v (by simp)))
      (fun w hw => hcalls w (List.mem_cons_of_mem v hw)) hlen hshort
    exact ⟨m', Option.bind_eq_some_iff.mpr ⟨m₁, hm₁, hm'⟩⟩

/-- `getenv` finds the value of a variable, with a NUL byte behind it. -/
theorem getenv_found {i : Nat} (h : Environ m es n) (hes : ∀ v ∈ es, VarFits v)
    (hlen : es.length < walkFuel) (hscan : scan es name = some (some i)) :
    ∃ w a, es[i]? = some w ∧ w ∈ es ∧ w.1 = name ∧ getenv m name = some (some a) ∧
      ∀ x ≤ w.2.length, m (a + x) = (w.2 ++ [0])[x]? := by
  have hget := getenv_spec name h hes hlen
  obtain ⟨w, hw, hname, hmem, -⟩ := scan_some hscan []
  have hi : i ≤ es.length := by
    by_contra hc
    rw [List.getElem?_eq_none (by omega)] at hw
    cases hw
  have hpage := (h i (Or.inr hi)).text
  rw [show stringAt (es.map entryOf) i = w.1 ++ 0x3D :: w.2 by
    rw [stringAt, List.getD_eq_getElem?_getD, List.getElem?_map, hw]
    rfl] at hpage
  simp only [hscan, Option.map_some, List.getD_eq_getElem?_getD, hw, Option.getD_some] at hget
  refine ⟨w, envPage i + w.1.length + 1, hw, hmem, hname, hget, ?_⟩
  intro x hx
  have hbyte := hpage (w.1.length + 1 + x) (by
    simp only [List.length_append, List.length_cons]
    omega)
  rw [show envPage i + (w.1.length + 1 + x) = envPage i + w.1.length + 1 + x by omega] at hbyte
  rw [hbyte, List.append_assoc, List.cons_append, List.getElem?_append_right (by omega),
    show w.1.length + 1 + x - w.1.length = x + 1 by omega, List.getElem?_cons_succ]

/-- **What the caller of `getenv` reads.** -/
theorem getenvValue_spec (h : Environ m es n) (hes : ∀ v ∈ es, VarFits v)
    (hlen : es.length < walkFuel) (name : List UInt8) :
    getenvValue m name = (scan es name).map (Option.map fun i => (es.getD i ([], [])).2) := by
  have hget := getenv_spec name h hes hlen
  cases ho : scan es name with
  | none =>
    rw [ho, Option.map_none] at hget
    simp [getenvValue, hget]
  | some o =>
    cases o with
    | none =>
      rw [ho, Option.map_some, Option.map_none] at hget
      simp [getenvValue, hget]
    | some i =>
      obtain ⟨w, a, hw, hmem, -, hfound, hbytes⟩ := getenv_found h hes hlen ho
      have hshort := (hes w hmem).short
      simp only [entryOf, List.length_append, List.length_cons] at hshort
      have hread : cString m walkFuel a = some w.2 :=
        cString_spec (hes w hmem).valueZero hbytes (show w.2.length < 65536 + 1 by omega)
      simp only [Option.map_some, List.getD_eq_getElem?_getD, hw, Option.getD_some]
      simp [getenvValue, hfound, hread]

/-! ### exec -/

/-- **The array that `exec` copies**: pointers up to the `n`-th, and behind them none. -/
theorem envpStrings_spec {f : Nat → List UInt8} {c : Nat}
    (hptr : ∀ i ≤ n, wordAt m (mainEnvp + 8 * i) = some (envPage i))
    (hnull : wordAt m (mainEnvp + 8 * (n + 1)) = some 0)
    (hstr : ∀ i ≤ n, cString m walkFuel (envPage i) = some (f i)) (hj : j + c = n + 1) {fuel : Nat}
    (hfuel : c < fuel) :
    envpStrings m fuel (mainEnvp + 8 * j) = some ((List.range' j c).map f) := by
  induction c generalizing j fuel with
  | zero =>
    obtain ⟨fuel, rfl⟩ := Nat.exists_eq_succ_of_ne_zero (show fuel ≠ 0 by omega)
    obtain rfl : j = n + 1 := by omega
    simp only [envpStrings, hnull, Option.bind_eq_bind, Option.bind_some, if_true]
    rfl
  | succ c ih =>
    obtain ⟨fuel, rfl⟩ := Nat.exists_eq_succ_of_ne_zero (show fuel ≠ 0 by omega)
    have hne : envPage j ≠ 0 := by
      unfold envPage
      omega
    simp only [envpStrings, hptr j (by omega), hstr j (by omega), Option.bind_eq_bind,
      Option.bind_some, if_neg hne]
    rw [show mainEnvp + 8 * j + 8 = mainEnvp + 8 * (j + 1) by omega,
      ih (j := j + 1) (by omega) (by omega), Option.map_some, List.range'_succ, List.map_cons]

/-- Whatever `exec` copies is there. -/
theorem cString_of_envpStrings {fuel i : Nat} {l : List (List UInt8)}
    (h : envpStrings m fuel (mainEnvp + 8 * j) = some l)
    (hptr : ∀ x, j ≤ x → x ≤ j + i → wordAt m (mainEnvp + 8 * x) = some (envPage x)) :
    (cString m walkFuel (envPage (j + i))).isSome := by
  induction i generalizing j fuel l with
  | zero =>
    cases fuel with
    | zero => cases h
    | succ fuel =>
      have hne : envPage j ≠ 0 := by
        unfold envPage
        omega
      simp only [envpStrings, hptr j (by omega) (by omega), Option.bind_eq_bind, Option.bind_some,
        if_neg hne] at h
      obtain ⟨text, htext, -⟩ := Option.bind_eq_some_iff.mp h
      rw [Nat.add_zero, htext]
      rfl
  | succ i ih =>
    cases fuel with
    | zero => cases h
    | succ fuel =>
      have hne : envPage j ≠ 0 := by
        unfold envPage
        omega
      simp only [envpStrings, hptr j (by omega) (by omega), Option.bind_eq_bind, Option.bind_some,
        if_neg hne] at h
      obtain ⟨text, -, h⟩ := Option.bind_eq_some_iff.mp h
      obtain ⟨l', hl', -⟩ := Option.map_eq_some_iff.mp h
      rw [show mainEnvp + 8 * j + 8 = mainEnvp + 8 * (j + 1) by omega] at hl'
      rw [show j + (i + 1) = j + 1 + i by omega]
      exact ih hl' fun x hx hx' => hptr x (by omega) (by omega)

theorem wordAt_congr (h : ∀ x < 8, m' (a + x) = m (a + x)) : wordAt m' a = wordAt m a := by
  unfold wordAt
  rw [show m' a = m a from h 0 (by omega)]
  have : read64 (fun x => (m' x).getD 0) a = read64 (fun x => (m x).getD 0) a :=
    read64_congr fun x hx hx' => by
      have := h (x - a) (by omega)
      rw [show a + (x - a) = x by omega] at this
      rw [this]
  rw [this]

/-- Two memories that agree on the argument block, with the pages that `fork` copies. -/
def BlockAgrees (m m' : UserMem) : Prop := ∀ x, 0x300000 ≤ x → x < 0x321000 → m' x = m x

/-- **The environment reaches the new program**: after `calls`, `fork` and an `exec` of the child with
the array that `main` has received, `getenv` returns there what it returned in the parent. -/
def EnvironmentPassed (m : UserMem) (calls : List Var) : Prop :=
  ∃ m' passed, setenvs m calls = some m' ∧
    (∀ child, BlockAgrees m' child → envpStrings child walkFuel mainEnvp = some passed) ∧
    ∀ new, Started new passed →
      ∀ name, ∃ r, getenvValue m' name = some r ∧ getenvValue new name = some r

/-- What `exec` copies. -/
def passedStrings (es : List Var) (n : Nat) : List (List UInt8) :=
  (List.range' 0 (n + 1)).map (stringAt (es.map entryOf))

theorem stringAt_passedStrings (es : List Var) (n j : Nat) :
    stringAt (passedStrings es n) j = stringAt ((es.take (n + 1)).map entryOf) j := by
  simp only [stringAt, passedStrings, List.getD_eq_getElem?_getD, List.getElem?_map]
  rcases Nat.lt_or_ge j (n + 1) with hlt | hge
  · rw [List.getElem?_range' hlt, List.getElem?_take_of_lt hlt, Option.map_some, Option.getD_some,
      Nat.zero_add, Nat.one_mul, stringAt, List.getD_eq_getElem?_getD, List.getElem?_map]
  · rw [List.getElem?_eq_none (by simpa using hge),
      List.getElem?_eq_none (by rw [List.length_take]; omega)]
    rfl

/-- **The new program** has the variables on the first `n + 1` pages. -/
theorem Started.environ {new : UserMem} (h : Started new (passedStrings es n)) :
    Environ new (es.take (n + 1)) (n + 1) := by
  intro j hj
  rw [← stringAt_passedStrings]
  refine h.page j ?_
  rw [List.length_take] at hj
  simp only [passedStrings, List.length_map, List.length_range']
  omega

/-- A program that has been started with `es` and empty strings behind them. -/
theorem Started.environ_start {k : Nat}
    (h : Started m (es.map entryOf ++ List.replicate k [])) :
    Environ m es (es.length + k) := by
  intro j hj
  have := h.page j (by
    simp only [List.length_append, List.length_map, List.length_replicate]
    omega)
  rwa [show stringAt (es.map entryOf ++ List.replicate k []) j = stringAt (es.map entryOf) j by
    simp only [stringAt, List.getD_eq_getElem?_getD]
    rcases Nat.lt_or_ge j (es.map entryOf).length with hlt | hge
    · rw [List.getElem?_append_left hlt]
    · rw [List.getElem?_append_right hge, List.getElem?_eq_none hge, List.getElem?_replicate]
      split <;> rfl] at this

/-- **The strings that reach `exec`** in the child. -/
theorem envpStrings_child {child : UserMem} (h : Started m strs) (hn : strs.length ≤ 30)
    (hE : Environ m' es strs.length) (hes : ∀ v ∈ es, VarFits v)
    (hlow : ∀ x < 0x302000, m' x = m x) (hc : BlockAgrees m' child) :
    envpStrings child walkFuel mainEnvp = some (passedStrings es strs.length) := by
  have hword : ∀ i ≤ strs.length + 1, wordAt child (mainEnvp + 8 * i) =
      wordAt m (mainEnvp + 8 * i) := fun i hi => wordAt_congr fun x hx => by
    unfold mainEnvp
    rw [hc _ (by omega) (by omega), hlow _ (by omega)]
  refine envpStrings_spec (j := 0) (fun i hi => ?_) ?_ (fun i hi => ?_)
    (Nat.zero_add (strs.length + 1)) (show strs.length + 1 < 65536 + 1 by omega)
  · rw [hword i (by omega)]
    exact h.pointer i hi
  · rw [hword _ le_rfl]
    exact h.null
  · have hlen := length_stringAt_lt hes i
    have hpage : StringPage child (envPage i) (stringAt (es.map entryOf) i) :=
      (hE i (Or.inl hi)).congr (fun x hx => hc _ (by unfold envPage; omega)
        (by unfold envPage; omega)) (by omega)
    refine cString_spec ?_ hpage.text (show _ < 65536 + 1 by omega)
    rw [stringAt, List.getD_eq_getElem?_getD, List.getElem?_map]
    cases hv : es[i]? with
    | none => simp
    | some v =>
      have hok := hes v (List.mem_of_getElem? hv)
      simp [entryOf, hok.nameZero, hok.valueZero]

/-! ### A memory to start with -/

/-- The pointers to `n` pages. -/
def pointerMem : Nat → Mem
  | 0 => fun _ => 0
  | n + 1 => write64 (pointerMem n) (mainEnvp + 8 * n) (envPage n)

/-- The memory of a program that has been started with `strs`, as far as its environment goes. -/
def startMem (strs : List (List UInt8)) : UserMem := fun x =>
  some (if x < 0x302000 then pointerMem (strs.length + 1) x
    else (stringAt strs ((x - 0x302000) / 4096) ++ [0]).getD ((x - 0x302000) % 4096) 0)

theorem pointerMem_word (hn : n ≤ 32) (hj : j ≤ 32) : read64 (pointerMem n) (mainEnvp + 8 * j) =
    if j < n then envPage j else 0 := by
  induction n with
  | zero =>
    rw [if_neg (by omega)]
    exact read64_eq_zero fun _ _ _ => rfl
  | succ n ih =>
    rw [pointerMem]
    rcases Nat.lt_trichotomy j n with hlt | rfl | hgt
    · rw [read64_write64_of_disjoint _ (by omega), ih (by omega), if_pos hlt, if_pos (by omega)]
    · rw [read64_write64_self _ _ (by unfold envPage; omega), if_pos (by omega)]
    · rw [read64_write64_of_disjoint _ (by omega), ih (by omega), if_neg (by omega),
        if_neg (by omega)]

theorem startMem_started (hn : strs.length ≤ 31) (hshort : ∀ j, (stringAt strs j).length < 4096) :
    Started (startMem strs) strs := by
  have hword : ∀ j ≤ 32, wordAt (startMem strs) (mainEnvp + 8 * j) =
      some (if j < strs.length + 1 then envPage j else 0) := fun j hj => by
    rw [wordAt, ← pointerMem_word (n := strs.length + 1) (by omega) hj]
    refine congrArg some (read64_congr fun x hx hx' => ?_)
    simp only [startMem, Option.getD_some]
    rw [if_pos (by unfold mainEnvp at hx'; omega)]
  refine ⟨fun j hj => ⟨fun x hx => rfl, fun i hi => ?_⟩, fun j hj => ?_, ?_⟩
  · have hlt := hshort j
    have hi' : i < (stringAt strs j ++ [0]).length := by
      rw [List.length_append, List.length_singleton]
      omega
    rw [startMem, if_neg (by unfold envPage; omega),
      show (envPage j + i - 0x302000) / 4096 = j by unfold envPage; omega,
      show (envPage j + i - 0x302000) % 4096 = i by unfold envPage; omega,
      List.getD_eq_getElem?_getD, List.getElem?_eq_getElem hi', Option.getD_some]
  · rw [hword j (by omega), if_pos (by omega)]
  · rw [hword _ (by omega), if_neg (by omega)]

/-! ### Which variables are new -/

theorem setVar_names : (setVar es v).map Prod.fst =
    if v.1 ∈ es.map Prod.fst then es.map Prod.fst else es.map Prod.fst ++ [v.1] := by
  induction es with
  | nil => simp [setVar]
  | cons w es ih =>
    rw [setVar]
    by_cases heq : w.1 = v.1
    · simp [heq]
    · simp only [if_neg heq, List.map_cons, ih, List.mem_cons, Ne.symm heq, false_or]
      split_ifs <;> simp

/-- From position `k` on, a name has not been there before. -/
def NewFrom (k : Nat) (names : List (List UInt8)) : Prop :=
  ∀ i j name, i < j → k ≤ j → names[j]? = some name → names[i]? ≠ some name

theorem NewFrom.foldl {k : Nat} (h : NewFrom k (es.map Prod.fst)) :
    NewFrom k ((calls.foldl setVar es).map Prod.fst) := by
  induction calls generalizing es with
  | nil => exact h
  | cons v calls ih =>
    refine ih ?_
    rw [setVar_names]
    split_ifs with hmem
    · exact h
    · intro i j name hij hkj hj hi
      rcases Nat.lt_or_ge j (es.map Prod.fst).length with hlt | hge
      · rw [List.getElem?_append_left hlt] at hj
        rw [List.getElem?_append_left (by omega)] at hi
        exact h i j name hij hkj hj hi
      · rw [List.getElem?_append_right hge] at hj
        have hj0 : j = (es.map Prod.fst).length := by
          by_contra hne
          rw [List.getElem?_eq_none (by rw [List.length_singleton]; omega)] at hj
          cases hj
        subst hj0
        rw [Nat.sub_self] at hj
        obtain rfl : v.1 = name := Option.some.inj hj
        rw [List.getElem?_append_left hij] at hi
        exact hmem (List.mem_of_getElem? hi)

theorem scan_eq_none (hshort : ∀ v ∈ es, v.1.length ≤ 255) :
    scan es name = some none ↔ name ∉ es.map Prod.fst := by
  induction es with
  | nil => simp [scan]
  | cons v es ih =>
    have hv := hshort v (by simp)
    have hrest := ih fun w hw => hshort w (List.mem_cons_of_mem v hw)
    simp only [scan]
    rw [if_neg (by omega)]
    by_cases heq : v.1 = name
    · simp [heq]
    · rw [if_neg heq, List.map_cons, List.mem_cons, not_or, ← hrest, Option.map_eq_some_iff]
      simp [Ne.symm heq]

/-! ### The property -/

/-- **Enough room**: all variables are on pages that the array points to. -/
theorem environment_passed_of_room {k : Nat} (h : Started m (es.map entryOf ++ List.replicate k []))
    (hes : ∀ v ∈ es, VarFits v) (hcalls : ∀ v ∈ calls, VarFits v) (hk : es.length + k ≤ 30)
    (hroom : (calls.foldl setVar es).length ≤ es.length + k + 1)
    (hshort : ∀ v ∈ calls.foldl setVar es, v.1.length ≤ 255) : EnvironmentPassed m calls := by
  have hfuel : (calls.foldl setVar es).length < walkFuel := show _ < 65536 + 1 by omega
  have hlen : (es.map entryOf ++ List.replicate k []).length = es.length + k := by simp
  obtain ⟨m', hm'⟩ := setenvs_isSome h.environ_start hes hcalls hfuel hshort
  obtain ⟨hE, hlow, -⟩ := setenvs_spec h.environ_start hes hcalls hfuel hm'
  have hok := foldl_setVar_all hes hcalls
  refine ⟨m', passedStrings (calls.foldl setVar es) (es.length + k), hm', fun child hc => ?_,
    fun new hnew name => ?_⟩
  · rw [← hlen]
    exact envpStrings_child h (by omega) (by rwa [hlen]) hok hlow hc
  · have hE' := hnew.environ
    rw [List.take_of_length_le hroom] at hE'
    obtain ⟨o, ho⟩ := scan_isSome hshort name
    refine ⟨_, ?_, getenvValue_spec hE' hok hfuel name |>.trans (by rw [ho, Option.map_some])⟩
    rw [getenvValue_spec hE hok hfuel, ho, Option.map_some]

/-- **A process whose environment reaches the new program** has had enough room. -/
theorem EnvironmentPassed.room {k : Nat} (hp : EnvironmentPassed m calls)
    (h : Started m (es.map entryOf ++ List.replicate k [])) (hes : ∀ v ∈ es, VarFits v)
    (hcalls : ∀ v ∈ calls, VarFits v) (hfuel : (calls.foldl setVar es).length < walkFuel) :
    es.length + k ≤ 30 ∧ (calls.foldl setVar es).length ≤ es.length + k + 1 ∧
      ∀ v ∈ calls.foldl setVar es, v.1.length ≤ 255 := by
  obtain ⟨m', passed, hm', hchild, hnew⟩ := hp
  obtain ⟨hE, hlow, -⟩ := setenvs_spec h.environ_start hes hcalls hfuel hm'
  have hok := foldl_setVar_all hes hcalls
  have hlen : (es.map entryOf ++ List.replicate k []).length = es.length + k := by simp
  -- a page outside the argument block does not reach the child
  have hk : es.length + k ≤ 30 := by
    by_contra hc
    set child : UserMem := fun x => if 0x300000 ≤ x ∧ x < 0x321000 then m' x else none with hchildDef
    have hagree : BlockAgrees m' child := fun x hx hx' => if_pos ⟨hx, hx'⟩
    have hread := cString_of_envpStrings (j := 0) (i := 31) (hchild child hagree) fun x _ hx => by
      rw [← h.pointer x (by omega)]
      refine wordAt_congr fun y hy => ?_
      unfold mainEnvp
      rw [hagree _ (by omega) (by omega), hlow _ (by omega)]
    rw [show walkFuel = 65536 + 1 from rfl, cString,
      show child (envPage (0 + 31)) = none from if_neg (by decide)] at hread
    cases hread
  have hpassed : passed = passedStrings (calls.foldl setVar es) (es.length + k) := by
    have hself := hchild m' fun _ _ _ => rfl
    rw [envpStrings_child h (by omega) (by rwa [hlen]) hok hlow fun _ _ _ => rfl, hlen] at hself
    exact (Option.some.inj hself).symm
  subst hpassed
  have hstart : Started (startMem (passedStrings (calls.foldl setVar es) (es.length + k)))
      (passedStrings (calls.foldl setVar es) (es.length + k)) := by
    refine startMem_started (by simp [passedStrings]; omega) fun j => ?_
    rw [stringAt_passedStrings]
    have := @length_stringAt_lt ((calls.foldl setVar es).take (es.length + k + 1))
      (fun v hv => hok v (List.mem_of_mem_take hv)) j
    omega
  replace hnew := hnew _ hstart
  have hE' := hstart.environ
  -- the empty name is looked for on every page
  have hshort : ∀ v ∈ calls.foldl setVar es, v.1.length ≤ 255 := by
    obtain ⟨r, hr, -⟩ := hnew []
    rw [getenvValue_spec hE hok hfuel] at hr
    obtain ⟨o, ho, -⟩ := Option.map_eq_some_iff.mp hr
    exact short_of_scan_nil hok ho
  refine ⟨hk, ?_, hshort⟩
  by_contra hc
  -- the variable behind the last pointer has a new name
  obtain ⟨v, hv⟩ : ∃ v, (calls.foldl setVar es)[es.length + k + 1]? = some v :=
    ⟨_, List.getElem?_eq_getElem (by omega)⟩
  have hnames : ((calls.foldl setVar es).map Prod.fst)[es.length + k + 1]? = some v.1 := by
    rw [List.getElem?_map, hv, Option.map_some]
  have hnewName : NewFrom (es.length + k + 1) ((calls.foldl setVar es).map Prod.fst) :=
    NewFrom.foldl fun i j name _ hj hn => by
      rw [List.getElem?_eq_none (by rw [List.length_map]; omega)] at hn
      cases hn
  have htake : v.1 ∉ ((calls.foldl setVar es).take (es.length + k + 1)).map Prod.fst := by
    intro hmem
    obtain ⟨i, hi⟩ := List.getElem?_of_mem hmem
    rw [List.map_take, List.getElem?_take] at hi
    split_ifs at hi with hlt
    exact hnewName i _ v.1 hlt le_rfl hnames hi
  obtain ⟨r, hr, hr'⟩ := hnew v.1
  have hnone := (scan_eq_none fun w hw => hshort w (List.mem_of_mem_take hw)).mpr htake
  rw [getenvValue_spec hE' (fun w hw => hok w (List.mem_of_mem_take hw)) (by
    rw [List.length_take]
    omega), hnone, Option.map_some, Option.map_none] at hr'
  obtain rfl := Option.some.inj hr'
  rw [getenvValue_spec hE hok hfuel] at hr
  obtain ⟨o, ho, hmap⟩ := Option.map_eq_some_iff.mp hr
  cases o with
  | some i => cases hmap
  | none => exact (scan_eq_none hshort).mp ho (List.mem_of_getElem? hnames)

/-- **What a process has set reaches a child that executes a file**, exactly if all of its
environment is in the argument block, it has at most one variable more than it was started with
strings, and no name has more than 255 bytes. -/
theorem environment_passed_iff {k : Nat} (h : Started m (es.map entryOf ++ List.replicate k []))
    (hes : ∀ v ∈ es, VarOk v) (hcalls : ∀ v ∈ calls, VarOk v)
    (hmany : (calls.foldl setVar es).length ≤ 25) :
    EnvironmentPassed m calls ↔ es.length + k ≤ 30 ∧
      (calls.foldl setVar es).length ≤ es.length + k + 1 ∧
      ∀ v ∈ calls.foldl setVar es, v.1.length ≤ 255 := by
  constructor
  · intro hp
    exact hp.room h (fun v hv => (hes v hv).fits) (fun v hv => (hcalls v hv).fits)
      (show _ < 65536 + 1 by omega)
  · rintro ⟨hk, hroom, hshort⟩
    exact environment_passed_of_room h (fun v hv => (hes v hv).fits)
      (fun v hv => (hcalls v hv).fits) hk hroom hshort

/-- `PWD` and `PATH`, which `pushInitialParamstoStack` sets. -/
def initialEnv : List Var :=
  [([0x50, 0x57, 0x44], [0x2F]),
    ([0x50, 0x41, 0x54, 0x48], [0x2F, 0x3A, 0x2F, 0x62, 0x69, 0x6E, 0x3A, 0x2F, 0x75, 0x73, 0x72])]

theorem initialEnv_ok : ∀ v ∈ initialEnv, VarOk v := by decide

theorem initialEnv_started : Started (startMem (initialEnv.map entryOf ++ List.replicate 0 []))
    (initialEnv.map entryOf ++ List.replicate 0 []) := by
  refine startMem_started (by decide) fun j => ?_
  rw [List.replicate_zero, List.append_nil]
  exact length_stringAt_lt (fun v hv => (initialEnv_ok v hv).fits) j

/-- The first process sets one variable. -/
theorem environment_passed_one :
    EnvironmentPassed (startMem (initialEnv.map entryOf ++ List.replicate 0 []))
      [([0x41], [0x31])] :=
  (environment_passed_iff initialEnv_started (by decide) (by decide) (by decide)).mpr
    ⟨by decide, by decide, by decide⟩

/-- **A second new variable does not reach the child.** -/
theorem second_variable_lost :
    ¬ EnvironmentPassed (startMem (initialEnv.map entryOf ++ List.replicate 0 []))
      [([0x41], [0x31]), ([0x42], [0x31])] := fun hp => by
  have hcalls : ∀ v ∈ [([0x41], [0x31]), ([0x42], [0x31])], VarOk v := by decide
  obtain ⟨-, hc, -⟩ := hp.room initialEnv_started (fun v hv => (initialEnv_ok v hv).fits)
    (fun v hv => (hcalls v hv).fits) (show List.length _ < 65536 + 1 by decide)
  exact absurd hc (by decide)

end Sbunix
