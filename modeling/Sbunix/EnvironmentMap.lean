import Mathlib.Data.Finset.Card
import Sbunix.Environment

/-!
# The environment is a finite map

What `getenv` and `setenv` are for, in terms of a partial function from names to values:
`getenv` reads it and `setenv` updates it, over any sequence of calls. The memory has a page for
each variable and an empty page behind them (`WellFormedEnv`), and this stays so. A value may be
overwritten by a longer or a shorter one; what is left of the old text lies behind the two zeros
that `setenv` writes and is not reached by any scan.

Pages are taken to be there when `setenv` asks `kmalloc` for one.
-/

namespace Sbunix

/-- A variable that a program may set: a name of less than 256 bytes without `=`, and at most 4000
bytes together with the value. -/
structure VarSettable (v : Var) : Prop where
  name : v.1 ≠ []
  nameZero : 0 ∉ v.1
  nameEq : 0x3D ∉ v.1
  nameShort : v.1.length < 256
  valueZero : 0 ∉ v.2
  short : v.1.length + v.2.length ≤ 4000

instance (v : Var) : Decidable (VarSettable v) :=
  decidable_of_iff (v.1 ≠ [] ∧ 0 ∉ v.1 ∧ 0x3D ∉ v.1 ∧ v.1.length < 256 ∧ 0 ∉ v.2 ∧
      v.1.length + v.2.length ≤ 4000)
    ⟨fun ⟨h₁, h₂, h₃, h₄, h₅, h₆⟩ => ⟨h₁, h₂, h₃, h₄, h₅, h₆⟩,
      fun ⟨h₁, h₂, h₃, h₄, h₅, h₆⟩ => ⟨h₁, h₂, h₃, h₄, h₅, h₆⟩⟩

theorem VarSettable.fits {v : Var} (h : VarSettable v) : VarFits v := by
  refine ⟨h.name, h.nameZero, h.nameEq, h.valueZero, ?_⟩
  have := h.short
  simp only [entryOf, List.length_append, List.length_cons]
  omega

/-- **A well-formed environment** that holds the variables `es`. -/
structure WellFormedEnv (m : UserMem) (es : List Var) : Prop where
  page : ∀ j (h : j < es.length), StringPage m (envPage j) (entryOf es[j])
  last : ZeroPage m (envPage es.length)
  distinct : (es.map Prod.fst).Nodup
  settable : ∀ v ∈ es, VarSettable v

/-- The values by name. -/
def envMap (es : List Var) (name : List UInt8) : Option (List UInt8) :=
  (es.find? fun v => v.1 = name).map Prod.snd

/-- **What `setenv` is for**: the value of one name is replaced. -/
def assign (f : List UInt8 → Option (List UInt8)) (v : Var) : List UInt8 → Option (List UInt8) :=
  Function.update f v.1 (some v.2)

variable {m m' : UserMem} {es calls : List Var} {v : Var} {name : List UInt8}

theorem WellFormedEnv.environ (h : WellFormedEnv m es) : Environ m es 0 := by
  intro j hj
  rcases Nat.lt_or_ge j es.length with hlt | hge
  · have := h.page j hlt
    rwa [stringAt, List.getD_eq_getElem?_getD, List.getElem?_map, List.getElem?_eq_getElem hlt]
  · -- the empty page behind the last variable
    obtain rfl : j = es.length := by omega
    rw [stringAt, List.getD_eq_getElem?_getD, List.getElem?_eq_none (by simp), Option.getD_none]
    refine ⟨fun x hx => by rw [h.last x hx]; rfl, fun i hi => ?_⟩
    obtain rfl : i = 0 := Nat.le_zero.mp hi
    exact h.last 0 (by decide)

theorem Environ.wellFormed (h : Environ m es 0) (hlast : ZeroPage m (envPage es.length))
    (hdist : (es.map Prod.fst).Nodup) (hset : ∀ v ∈ es, VarSettable v) : WellFormedEnv m es := by
  refine ⟨fun j hj => ?_, hlast, hdist, hset⟩
  have := h j (Or.inr hj.le)
  rwa [stringAt, List.getD_eq_getElem?_getD, List.getElem?_map,
    List.getElem?_eq_getElem hj] at this

/-! ### Lists of variables as maps -/

theorem envMap_cons (w : Var) (es : List Var) (name : List UInt8) :
    envMap (w :: es) name = if w.1 = name then some w.2 else envMap es name := by
  unfold envMap
  rw [List.find?_cons]
  by_cases h : w.1 = name <;> simp [h]

theorem envMap_setVar (es : List Var) (v : Var) : envMap (setVar es v) = assign (envMap es) v := by
  funext name
  induction es with
  | nil =>
    rw [setVar, envMap_cons]
    by_cases h : v.1 = name
    · rw [if_pos h, assign, ← h, Function.update_self]
    · rw [if_neg h, assign, Function.update_of_ne (Ne.symm h)]
  | cons w es ih =>
    rw [setVar]
    by_cases hw : w.1 = v.1
    · rw [if_pos hw, envMap_cons]
      by_cases h : v.1 = name
      · rw [if_pos h, assign, ← h, Function.update_self]
      · rw [if_neg h, assign, Function.update_of_ne (Ne.symm h), envMap_cons, if_neg (hw ▸ h)]
    · rw [if_neg hw, envMap_cons, ih]
      by_cases h : w.1 = name
      · -- the name in front is another one
        have hne : name ≠ v.1 := fun hc => hw (h.trans hc)
        rw [if_pos h, assign, Function.update_of_ne hne, envMap_cons, if_pos h]
      · rw [if_neg h]
        by_cases hv : v.1 = name
        · rw [assign, assign, ← hv, Function.update_self, Function.update_self]
        · rw [assign, assign, Function.update_of_ne (Ne.symm hv), Function.update_of_ne (Ne.symm hv),
            envMap_cons, if_neg h]

theorem envMap_foldl_setVar (es calls : List Var) :
    envMap (calls.foldl setVar es) = calls.foldl assign (envMap es) := by
  induction calls generalizing es with
  | nil => rfl
  | cons v calls ih => rw [List.foldl_cons, List.foldl_cons, ih, envMap_setVar]

theorem nodup_setVar (h : (es.map Prod.fst).Nodup) : ((setVar es v).map Prod.fst).Nodup := by
  rw [setVar_names]
  split
  · exact h
  · next hnew => exact List.nodup_append.mpr ⟨h, List.nodup_singleton _, by
      intro a ha b hb hab
      rw [List.mem_singleton] at hb
      exact hnew (hb ▸ hab ▸ ha)⟩

theorem nodup_foldl_setVar (h : (es.map Prod.fst).Nodup) :
    ((calls.foldl setVar es).map Prod.fst).Nodup := by
  induction calls generalizing es with
  | nil => exact h
  | cons v calls ih => exact ih (nodup_setVar h)

/-- The names after a sequence of calls are those that were there and those that were set. -/
theorem mem_names_foldl_setVar :
    name ∈ (calls.foldl setVar es).map Prod.fst ↔ name ∈ (es ++ calls).map Prod.fst := by
  induction calls generalizing es with
  | nil => rw [List.append_nil, List.foldl_nil]
  | cons v calls ih =>
    rw [List.foldl_cons, ih, List.map_append, List.mem_append, setVar_names, List.map_append,
      List.mem_append, List.map_cons, List.mem_cons]
    split
    · next hmem =>
      constructor
      · tauto
      · rintro (h | rfl | h)
        · exact Or.inl h
        · exact Or.inl hmem
        · exact Or.inr h
    · rw [List.mem_append, List.mem_singleton]
      tauto

/-- There are as many variables as names. -/
theorem length_foldl_setVar (h : (es.map Prod.fst).Nodup) :
    (calls.foldl setVar es).length = ((es ++ calls).map Prod.fst).toFinset.card := by
  rw [← List.length_map (f := Prod.fst), ← List.toFinset_card_of_nodup (nodup_foldl_setVar h)]
  refine congrArg Finset.card ?_
  ext name
  rw [List.mem_toFinset, List.mem_toFinset, mem_names_foldl_setVar]

/-- What `getenv` finds is the value in the map. -/
theorem scan_envMap (hshort : ∀ v ∈ es, v.1.length ≤ 255) :
    (scan es name).map (Option.map fun i => (es.getD i ([], [])).2) = some (envMap es name) := by
  induction es with
  | nil => rfl
  | cons v es ih =>
    have hv := hshort v (by simp)
    have hrest := ih fun w hw => hshort w (List.mem_cons_of_mem v hw)
    rw [scan, if_neg (by omega), envMap_cons]
    by_cases heq : v.1 = name
    · rw [if_pos heq, if_pos heq]
      rfl
    · rw [if_neg heq, if_neg heq, ← hrest, Option.map_map]
      congr 1
      funext o
      cases o <;> rfl

theorem WellFormedEnv.fits (h : WellFormedEnv m es) : ∀ v ∈ es, VarFits v :=
  fun v hv => (h.settable v hv).fits

theorem WellFormedEnv.name_short (h : WellFormedEnv m es) : ∀ v ∈ es, v.1.length ≤ 255 :=
  fun v hv => Nat.le_of_lt_succ (h.settable v hv).nameShort

/-- **`getenv` reads the map.** -/
theorem WellFormedEnv.getenvValue_eq (h : WellFormedEnv m es) (hlen : es.length < walkFuel)
    (name : List UInt8) : getenvValue m name = some (envMap es name) := by
  rw [getenvValue_spec h.environ h.fits hlen, scan_envMap h.name_short]

/-! ### The property -/

/-- A program starts with a well-formed environment. -/
theorem startMem_wellFormed (hn : es.length ≤ 31) (hdist : (es.map Prod.fst).Nodup)
    (hset : ∀ v ∈ es, VarSettable v) : WellFormedEnv (startMem (es.map entryOf)) es := by
  have hstart : Started (startMem (es.map entryOf)) (es.map entryOf) :=
    startMem_started (by rwa [List.length_map]) (length_stringAt_lt fun v hv => (hset v hv).fits)
  have hE : Environ (startMem (es.map entryOf)) es 0 := fun j hj =>
    hstart.page j (by rw [List.length_map]; omega)
  refine hE.wellFormed (fun x hx => ?_) hdist hset
  -- memory has no string behind the last variable
  have hnone : stringAt (es.map entryOf) es.length = [] :=
    List.getD_eq_default _ _ (by rw [List.length_map])
  rw [startMem, if_neg (by unfold envPage; omega),
    show (envPage es.length + x - 0x302000) / 4096 = es.length by unfold envPage; omega, hnone]
  cases (envPage es.length + x - 0x302000) % 4096 with
  | zero => rfl
  | succ _ => rfl

theorem initialEnv_wellFormed : WellFormedEnv (startMem (initialEnv.map entryOf)) initialEnv :=
  startMem_wellFormed (by decide) (by decide) (by decide)

end Sbunix
