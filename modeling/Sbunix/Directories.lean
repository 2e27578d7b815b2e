import Sbunix.Listing

/-!
# Listing a directory

A handle from `openDirectory` is the address of a slot, and `readDir` finds the slot again by it.
Repeated calls return the components in the directory where they change, and in an archive made
from a directory tree these are the children.

The root directory has no header, and its loop does not stop at the trailer of the archive: the
blocks of zeros are headers with an empty name there.

## Main results

* `reads_root`, `reads_sub` — what repeated calls of `readDir` return;
* `readDir_lists_iff` — the listing is exact for every directory but the root of an archive that
  is not empty;
* `getDirEntries_eq_readDir` — `getDirEntries` writes the names that `readDir` returns.
-/

namespace Sbunix

open ByteMem PathTree

namespace Files

variable {m : Mem} {ar : Archive} {s s' : Files} {task dirp n : Nat} {d : FileDescriptor}
  {ns : List (List UInt8)}

/-! ### Handles -/

/-- **The handle of a directory**, with the descriptor in its slot. -/
structure Handle (s : Files) (task dirp : Nat) (d : FileDescriptor) : Prop where
  table : s.TableOk task
  ne_zero : dirp ≠ 0
  slot : ∃ n, s.getFd task dirp = some n ∧ s.slot task n = d

theorem getFdAddress_slot (hlt : n < 100) (hn : s.pointer task (n / 5) ≠ 0) :
    s.getFdAddress task n = some (s.slotAddr task n) := by
  rw [getFdAddress, if_pos (by omega), if_pos hn, slotAddr]

/-- What a handle refers to. -/
theorem Handle.fds (h : s.Handle task dirp d) :
    d.dDirp = dirp ∧ ∃ n, s.getFd task dirp = some n ∧ s.getFdAddress task n = some dirp ∧
      s.fds dirp = d := by
  obtain ⟨htable, hne, n, hfd, hslot⟩ := h
  obtain ⟨-, hlt, hptr, haddr, hd⟩ := (htable.getFd_eq_some hne).mp hfd
  refine ⟨hslot ▸ hd, n, hfd, by rw [getFdAddress_slot hlt hptr, haddr], ?_⟩
  rw [← hslot, slot_of_pointer rfl hptr, ← haddr]
  rfl

/-- Writing the slot of a handle. -/
theorem Handle.setFd (h : s.Handle task dirp d) {d' : FileDescriptor} (hd : d'.dDirp = dirp) :
    (s.setFd dirp d').Handle task dirp d' := by
  obtain ⟨htable, hne, n, hfd, -⟩ := h
  obtain ⟨h2, hlt, hptr, haddr, -⟩ := (htable.getFd_eq_some hne).mp hfd
  obtain ⟨htable', hslot'⟩ := htable.setFd hptr (d := d') (Or.inr (hd.trans haddr.symm))
  rw [haddr] at htable' hslot'
  have hd' : (s.setFd dirp d').slot task n = d' := by rw [hslot', if_pos rfl]
  refine ⟨htable', hne, n, ?_, hd'⟩
  exact (htable'.getFd_eq_some hne).mpr ⟨h2, hlt, hptr, haddr, by rw [hd', hd]⟩

/-- **A call of `readDir`.** -/
theorem Handle.readDir (h : s.Handle task dirp d) : s.readDir m ar task dirp =
    (nextChild m ar d).map fun
      | none => (none, s)
      | some r => (some (.ofName r.1), s.setFd dirp { d with dPrevDir := r.1, offset := r.2 }) := by
  obtain ⟨-, n, hfd, haddr, hd⟩ := h.fds
  rw [Files.readDir, if_neg h.ne_zero, hfd]
  dsimp only
  rw [haddr, Option.bind_some, if_neg h.ne_zero]
  subst hd
  rfl

/-- **`openDirectory` returns a handle**, if it returns one. -/
theorem openDirectory_handle (h : s.TableOk task) {cwd dir : List UInt8}
    (hs : s.openDirectory m ar task cwd dir = some (dirp, s')) (hne : dirp ≠ 0)
    (hx : s'.phys.exhausted = false) : ∃ start name, resolveDir m ar cwd dir = some (start, name) ∧
      start ≠ 0 ∧ s'.Handle task dirp ⟨start, start, [], name, dirp⟩ := by
  obtain ⟨⟨rfl, -⟩, -⟩ | ⟨start, name, -, hstart, hres, hr, rfl⟩ := openDirectory_cases hs
  · exact absurd rfl hne
  · obtain ⟨hok, ⟨n, a, hfst, hn2, hlt, -, -, -, hslot⟩ | ⟨hnone, -⟩⟩ :=
      h.openSlot_cases id_handle hx
    · rw [hfst, Option.map_some, Option.getD_some] at hr
      obtain rfl : dirp = a := hr
      have hn := hslot n
      rw [if_pos rfl] at hn
      have hk : _ = dirp := congrArg FileDescriptor.dDirp hn
      obtain ⟨hptr, haddr⟩ := hok.slot_of_dirp hne hk
      exact ⟨start, name, hres, hstart, hok, hne, n,
        (hok.getFd_eq_some hne).mpr ⟨hn2, hlt, hptr, haddr, hk⟩, hn⟩
    · rw [hnone, Option.map_none, Option.getD_none] at hr
      exact absurd hr hne

/-! ### Repeated calls -/

/-- **Repeated calls of `readDir`** return records with these names, and then `NULL`. -/
inductive Reads (m : Mem) (ar : Archive) (task dirp : Nat) : Files → List (List UInt8) → Prop
  | null {s s' : Files} (h : s.readDir m ar task dirp = some (none, s')) : Reads m ar task dirp s []
  | next {s s' : Files} {dir : Dirent} {names : List (List UInt8)}
      (h : s.readDir m ar task dirp = some (some dir, s'))
      (hrest : Reads m ar task dirp s' names) : Reads m ar task dirp s (dir.dName :: names)

/-- There is one such list. -/
theorem Reads.unique {ns' : List (List UInt8)} (h : Reads m ar task dirp s ns)
    (h' : Reads m ar task dirp s ns') : ns = ns' := by
  induction h generalizing ns' with
  | null h =>
    cases h' with
    | null _ => rfl
    | next h' _ => exact absurd (h.symm.trans h') (by simp)
  | next h _ ih =>
    cases h' with
    | null h' => exact absurd (h.symm.trans h') (by simp)
    | next h' hrest =>
      have heq := h.symm.trans h'
      simp only [Option.some.injEq, Prod.mk.injEq] at heq
      obtain ⟨rfl, rfl⟩ := heq
      rw [ih hrest]

theorem Handle.reads_null (h : s.Handle task dirp d) (hn : nextChild m ar d = some none) :
    Reads m ar task dirp s [] := by
  have hcall : s.readDir m ar task dirp = some (none, s) := by
    rw [h.readDir, hn]
    rfl
  exact .null hcall

theorem Handle.reads_next (h : s.Handle task dirp d) {x : List UInt8} {a : Nat}
    (hn : nextChild m ar d = some (some (x, a)))
    (hrest : (s.setFd dirp { d with dPrevDir := x, offset := a }).Handle task dirp
        { d with dPrevDir := x, offset := a } →
      Reads m ar task dirp (s.setFd dirp { d with dPrevDir := x, offset := a }) ns) :
    Reads m ar task dirp s (x :: ns) := by
  have hcall : s.readDir m ar task dirp =
      some (some (.ofName x), s.setFd dirp { d with dPrevDir := x, offset := a }) := by
    rw [h.readDir, hn]
    rfl
  exact .next hcall (hrest (h.setFd h.fds.1))

/-- **Listing the root directory.** -/
theorem reads_root (h : s.Handle task dirp d) (hname : d.name = [slash])
    (hh : Headers m ar.finish d.offset ns) (hlow : 512 ≤ d.offset) :
    Reads m ar task dirp s (changes d.dPrevDir (ns.map (component slash))) := by
  generalize hl : changes d.dPrevDir (ns.map (component slash)) = l
  induction l generalizing s d ns with
  | nil =>
    have hspec := @nextFirst_spec m ar.finish d.offset ar.fuel d.dPrevDir ns hh
      (hh.length_lt_fuel hlow)
    rw [hl] at hspec
    exact h.reads_null (by rw [nextChild, if_pos hname, hspec])
  | cons x xs ih =>
    have hspec := @nextFirst_spec m ar.finish d.offset ar.fuel d.dPrevDir ns hh
      (hh.length_lt_fuel hlow)
    rw [hl] at hspec
    obtain ⟨rest, a', hnext, hle, hrest, rfl⟩ := hspec
    exact h.reads_next (by rw [nextChild, if_pos hname, hnext]) fun hstep =>
      ih hstep hname hrest (le_trans hlow hle) rfl

/-- **Listing another directory.** The offset is the header of the name returned last, or that of
the directory. -/
theorem reads_sub {y : List UInt8} (h : s.Handle task dirp d) (hname : d.name ≠ [slash])
    (hne : d.name ≠ []) (h0 : 0 ∉ d.name) (hh : Headers m ar.finish d.offset (y :: ns)) :
    Reads m ar task dirp s (changes d.dPrevDir (within d.name ns)) := by
  generalize hl : changes d.dPrevDir (within d.name ns) = l
  induction l generalizing s d ns y with
  | nil =>
    obtain ⟨-, -, -, -, hle, hrest⟩ := hh
    have hspec := @nextSub_spec m ar.finish (following m d.offset) ar.fuel d.name d.dPrevDir ns
      hrest (hrest.length_lt_fuel (by omega)) h0
    rw [hl] at hspec
    exact h.reads_null (by rw [nextChild, if_neg hname, if_pos hne, hspec])
  | cons x xs ih =>
    obtain ⟨-, -, -, -, hle, hrest⟩ := hh
    have hspec := @nextSub_spec m ar.finish (following m d.offset) ar.fuel d.name d.dPrevDir ns
      hrest (hrest.length_lt_fuel (by omega)) h0
    rw [hl] at hspec
    obtain ⟨y', rest, a', hnext, -, hrest', rfl⟩ := hspec
    exact h.reads_next (by rw [nextChild, if_neg hname, if_pos hne, hnext]) fun hstep =>
      ih hstep hname hne h0 hrest' rfl

/-! ### Directory trees -/

/-- The entries that tar makes out of a directory tree. -/
def treeEntries (t : Forest UInt8 (List UInt8)) : List Entry :=
  (t.paths slash []).map fun p => ⟨p.1, p.2.getD []⟩

/-- **An archive made from a directory tree**, with `k` blocks of zeros behind the entries. -/
structure TreeArchive (m : Mem) (ar : Archive) (t : Forest UInt8 (List UInt8)) (k : Nat) :
    Prop where
  proper : t.Proper slash
  laid : Laid m ar.finish ar.start (treeEntries t)
  trailer : ar.start + laidLength (treeEntries t) + 512 * k = ar.finish
  /-- A name fits into its field, which has 100 bytes. -/
  short : ∀ e ∈ treeEntries t, e.name.length < 100
  /-- The archive is part of the kernel image. -/
  kernel : kernbase ≤ ar.start
  finish : ar.finish < 2 ^ 64

/-- `d` is a directory with `inside` in it. The root directory is not in the archive. -/
def IsDirectory (t : Forest UInt8 (List UInt8)) (d : List UInt8)
    (inside : Forest UInt8 (List UInt8)) : Prop :=
  d = [slash] ∧ inside = t ∨ (d, inside) ∈ t.dirs slash []

/-- Where the header of a directory is. The root has none; its descriptors start at the first
header. -/
def directoryStart (ar : Archive) (t : Forest UInt8 (List UInt8)) (d : List UInt8) : Option Nat :=
  if d = [slash] then some ar.start else (lookup ar.start (treeEntries t) d).map Prod.fst

/-- What the two readers list: the children, and in the root directory the trailer. -/
def listing (d : List UInt8) (inside : Forest UInt8 (List UInt8)) : List (List UInt8) :=
  inside.children slash ++ if d = [slash] ∧ inside.names ≠ [] then [[]] else []

variable {t inside : Forest UInt8 (List UInt8)} {name path : List UInt8} {a k : Nat} {e : Entry}
  {es pre post : List Entry}

theorem map_name_treeEntries :
    (treeEntries t).map Entry.name = (t.paths slash []).map Prod.fst := by
  rw [treeEntries, List.map_map]
  rfl

theorem lookup_append (hpre : ∀ e' ∈ pre, e'.name ≠ e.name) :
    lookup a (pre ++ e :: post) e.name = some (a + laidLength pre, e) := by
  induction pre generalizing a with
  | nil => rw [List.nil_append, lookup, if_pos rfl, laidLength, Nat.add_zero]
  | cons e' pre ih =>
    rw [List.cons_append, lookup, if_neg (hpre e' List.mem_cons_self),
      ih fun x hx => hpre x (List.mem_cons_of_mem e' hx), laidLength]
    simp only [Nat.add_assoc]

theorem lookup_name {r : Nat × Entry} (h : lookup a es name = some r) : r.2.name = name := by
  induction es generalizing a with
  | nil => cases h
  | cons e es ih =>
    rw [lookup] at h
    split at h
    · next heq =>
      obtain rfl := Option.some.inj h
      exact heq
    · exact ih h

theorem laidLength_append (es es' : List Entry) :
    laidLength (es ++ es') = laidLength es + laidLength es' := by
  induction es with
  | nil => rw [List.nil_append, laidLength, Nat.zero_add]
  | cons e es ih =>
    rw [List.cons_append, laidLength, laidLength, ih]
    simp only [Nat.add_assoc]

/-- No directory of the archive is called `/` or has an empty name. -/
theorem TreeArchive.dirs_ne (hT : TreeArchive m ar t k) {d : List UInt8}
    (hd : (d, inside) ∈ t.dirs slash []) : d ≠ [slash] ∧ d ≠ [] := by
  obtain ⟨q, rfl, hq⟩ := mem_dirs hT.proper hd
  have hne := ne_nil_of_mem_names hT.proper hq
  refine ⟨?_, ?_⟩
  · rintro rfl
    exact hne (by decide)
  · rintro rfl
    exact hne rfl

/-- **The root directory**: all headers. -/
theorem TreeArchive.headers (hT : TreeArchive m ar t k) :
    Headers m ar.finish ar.start ((t.paths slash []).map Prod.fst ++ List.replicate k []) := by
  rw [← map_name_treeEntries]
  exact headers_of_laid hT.laid hT.kernel hT.finish hT.short hT.trailer

theorem TreeArchive.zeros_pos (hT : TreeArchive m ar t k) : 0 < k := by
  have hend : ∀ {a : Nat} {es : List Entry}, Laid m ar.finish a es →
      a + laidLength es + 1024 ≤ ar.finish := by
    intro a es h
    induction es generalizing a with
    | nil => exact h.1
    | cons e es ih =>
      have := ih h.2.2.2
      rw [laidLength]
      omega
  have := hend hT.laid
  have := hT.trailer
  omega

/-- A directory of the archive: where its header is, and the headers from there on. -/
structure InArchive (m : Mem) (ar : Archive) (t : Forest UInt8 (List UInt8)) (d : List UInt8)
    (inside : Forest UInt8 (List UInt8)) (a : Nat) (after : List (List UInt8)) : Prop where
  found : lookup ar.start (treeEntries t) d = some (a, ⟨d, []⟩)
  low : ar.start ≤ a
  chars : 0 ∉ d
  next : following m a = a + 512
  headers : Headers m ar.finish a (d :: ((inside.paths slash d).map Prod.fst ++ after))
  proper : inside.Proper slash
  /-- Behind what is in the directory there are other headers, the trailer at least. -/
  outside : ∀ name ∈ after, ¬ d <+: name
  nonempty : after ≠ []

/-- **A directory of the archive** is followed by what is in it. -/
theorem TreeArchive.inArchive (hT : TreeArchive m ar t k) {d : List UInt8}
    (hd : (d, inside) ∈ t.dirs slash []) : ∃ a after, InArchive m ar t d inside a after := by
  obtain ⟨before, after, hpaths, hinside, hbefore, hafter⟩ := dirs_split hT.proper hd
  set toEntry : List UInt8 × Option (List UInt8) → Entry := fun p => ⟨p.1, p.2.getD []⟩ with hto
  have hes : treeEntries t = before.map toEntry ++
      ⟨d, []⟩ :: ((inside.paths slash d).map toEntry ++ after.map toEntry) := by
    rw [treeEntries, hpaths, List.map_append, List.map_cons, List.map_append]
    rfl
  have hfirst : ∀ e' ∈ before.map toEntry, e'.name ≠ (⟨d, []⟩ : Entry).name := by
    intro e' he'
    obtain ⟨p, hp, rfl⟩ := List.mem_map.mp he'
    exact hbefore p hp
  have hlaid := hT.laid
  have hshort := hT.short
  have htrailer := hT.trailer
  rw [hes] at hlaid hshort htrailer
  obtain ⟨-, hL⟩ := searchArchive_laid hlaid hT.kernel hT.finish
    (show (ar.finish - ar.start) / 512 < ar.fuel by unfold Archive.fuel; omega) hfirst
  have hfound := @lookup_append ar.start ⟨d, []⟩ (before.map toEntry)
    ((inside.paths slash d).map toEntry ++ after.map toEntry) hfirst
  have hlow := Nat.le_add_right ar.start (laidLength (before.map toEntry))
  rw [laidLength_append, ← Nat.add_assoc] at htrailer
  generalize ar.start + laidLength (before.map toEntry) = a at hL hfound hlow htrailer
  have hheaders := headers_of_laid hL (le_trans hT.kernel hlow) hT.finish
    (fun e he => hshort e (List.mem_append_right _ he)) htrailer
  -- the names of these headers
  have hnames : (⟨d, []⟩ :: ((inside.paths slash d).map toEntry ++ after.map toEntry)).map
      Entry.name ++ List.replicate k [] =
      d :: ((inside.paths slash d).map Prod.fst ++
        (after.map Prod.fst ++ List.replicate k [])) := by
    rw [List.map_cons, List.map_append, List.map_map, List.map_map, List.cons_append,
      List.append_assoc]
    rfl
  rw [hnames] at hheaders
  have hpad : padded 0 = 0 := rfl
  have hlt : a + 512 + padded 0 + 1024 ≤ ar.finish := hL.2.2.2.lt
  have hfin := hT.finish
  have hnext : following m a = a + 512 + padded 0 := nextHeader hL.1.size (by omega) (by omega)
  have hd0 : d ≠ [] := (hT.dirs_ne hd).2
  refine ⟨a, _, by rw [hes]; exact hfound, hlow, fun hc => hL.1.chars 0 hc rfl,
    hnext.trans (by omega), hheaders, hinside, fun name hmem => ?_, fun hc => ?_⟩
  · rcases List.mem_append.mp hmem with hmem | hmem
    · obtain ⟨p, hp, rfl⟩ := List.mem_map.mp hmem
      exact hafter p hp
    · rw [List.eq_of_mem_replicate hmem]
      exact fun hc => hd0 (List.prefix_nil.mp hc)
  · have hk := hT.zeros_pos
    rw [List.append_eq_nil_iff, List.replicate_eq_nil_iff] at hc
    omega

/-- In the kernel's half of memory no content is longer than the addresses above it. -/
theorem padded_lt_of_laid {es : List Entry} (h : Laid m ar.finish a es) (hfin : ar.finish < 2 ^ 64)
    (hk : kernbase ≤ a) : ∀ e ∈ es, padded e.content.length < 2 ^ 31 := by
  induction es generalizing a with
  | nil => exact fun _ hc => absurd hc List.not_mem_nil
  | cons e es ih =>
    intro e' he'
    have hend := h.2.2.2.lt
    rcases List.mem_cons.mp he' with rfl | he'
    · unfold kernbase at hk
      omega
    · exact ih h.2.2.2 (by omega) e' he'

/-- The search for a directory. -/
theorem TreeArchive.getDirAddress_eq (hT : TreeArchive m ar t k) (hne : name ≠ [])
    (h0 : 0 ∉ name) : getDirAddress m ar name =
      some (match lookup ar.start (treeEntries t) name with
        | some (a, e) => if e.content.length = 0 then a else 0
        | none => 0) := by
  have hlt := hT.laid.lt
  have hsize : ∀ e ∈ treeEntries t, padded e.content.length < 2 ^ 31 :=
    padded_lt_of_laid hT.laid hT.finish hT.kernel
  obtain ⟨-, hsearch⟩ := @searchTrace_spec m ar.start k ar.finish name (treeEntries t) ar.fuel
    hT.laid hT.finish hsize hne (fun c hc hz => h0 (hz ▸ hc)) hT.trailer
    (show (ar.finish - ar.start) / 512 < ar.fuel by unfold Archive.fuel; omega)
  rw [getDirAddress, hsearch, Option.map_some]
  cases hl : lookup ar.start (treeEntries t) name with
  | none => simp
  | some r =>
    have hhead := (lookup_laid hT.laid hl).1.size
    simp only [hhead, Int.natCast_eq_zero, and_true]

/-- **Where a directory is found**: at its header. -/
theorem TreeArchive.start_eq (hT : TreeArchive m ar t k) {cwd dir d : List UInt8}
    (hd : IsDirectory t d inside) (hres : resolveDir m ar cwd dir = some (a, d)) (ha : a ≠ 0) :
    directoryStart ar t d = some a := by
  unfold resolveDir at hres
  split at hres
  · next hdir =>
    obtain ⟨rfl, rfl⟩ := Prod.mk.inj (Option.some.inj hres)
    rw [directoryStart, if_pos hdir]
  · simp only [Option.bind_eq_bind] at hres
    obtain ⟨path, -, hres⟩ := Option.bind_eq_some_iff.mp hres
    obtain ⟨start, haddr, hres⟩ := Option.bind_eq_some_iff.mp hres
    obtain ⟨rfl, rfl⟩ := Prod.mk.inj (Option.some.inj hres)
    rcases hd with ⟨hroot, -⟩ | hd
    · -- no entry has the name of the root
      rw [hroot, hT.getDirAddress_eq (by decide) (by decide)] at haddr
      cases hl : lookup ar.start (treeEntries t) [slash] with
      | none =>
        rw [hl] at haddr
        exact absurd (Option.some.inj haddr).symm ha
      | some r =>
        obtain ⟨p, hp, hr⟩ := List.mem_map.mp (lookup_laid hT.laid hl).2
        obtain ⟨q, hq, hmem⟩ := mem_paths hT.proper hp
        have hslash : p.1 = [slash] := by
          rw [← lookup_name hl, ← hr]
        have hnames := ne_nil_of_mem_names hT.proper hmem
        rw [← List.nil_append q, ← hq, hslash] at hnames
        exact absurd (by decide) hnames
    · obtain ⟨a, after, hin⟩ := hT.inArchive hd
      obtain ⟨hslash, hne⟩ := hT.dirs_ne hd
      rw [hT.getDirAddress_eq hne hin.chars, hin.found] at haddr
      rw [directoryStart, if_neg hslash, hin.found, ← Option.some.inj haddr]
      rfl

/-! ### The listing -/

theorem within_paths {d : List UInt8} {after : List (List UInt8)} (hin : inside.Proper slash)
    (hafter : ∀ name ∈ after, ¬ d <+: name) :
    within d ((inside.paths slash d).map Prod.fst ++ after) =
      (inside.paths slash d).map fun p => component slash (p.1.drop d.length) := by
  have hpos : ∀ name ∈ (inside.paths slash d).map Prod.fst, d.isPrefixOf name = true := by
    intro name hname
    obtain ⟨p, hp, rfl⟩ := List.mem_map.mp hname
    obtain ⟨q, hq, -⟩ := mem_paths hin hp
    exact List.isPrefixOf_iff_prefix.mpr ⟨q, hq.symm⟩
  have hnone : after.takeWhile d.isPrefixOf = [] := by
    cases after with
    | nil => rfl
    | cons name after =>
      exact List.takeWhile_cons_of_neg fun hc =>
        hafter name List.mem_cons_self (List.isPrefixOf_iff_prefix.mp hc)
  rw [within, List.takeWhile_append_of_pos hpos, hnone, List.append_nil, List.map_map]
  rfl

/-- The components of all headers: the trailer is one more. -/
theorem TreeArchive.changes_root (hT : TreeArchive m ar t k) :
    changes [] (((t.paths slash []).map Prod.fst ++ List.replicate k []).map (component slash)) =
      listing [slash] t := by
  have hnil : component slash ([] : List UInt8) = [] := rfl
  have hchildren := @changes_paths UInt8 (List UInt8) slash [] t _ [] hT.proper
    (nil_notMem_children hT.proper)
  rw [List.length_nil] at hchildren
  simp only [List.drop_zero] at hchildren
  rw [List.map_append, List.map_map, List.map_replicate, hnil, changes_append]
  refine (congrArg (· ++ _) hchildren).trans (congrArg (t.children slash ++ ·) ?_)
  -- the zero block behind the headers is a change, unless there are no headers
  by_cases hnames : t.names = []
  · have ht : t = .nil := by
      cases t with
      | nil => rfl
      | file => cases hnames
      | dir => cases hnames
    rw [if_neg fun hc => hc.2 hnames, ht]
    exact changes_of_forall_eq fun x hx => List.eq_of_mem_replicate hx
  · -- the last component is not empty
    rw [if_pos ⟨rfl, hnames⟩]
    obtain ⟨k, rfl⟩ := Nat.exists_eq_succ_of_ne_zero (Nat.pos_iff_ne_zero.mp hT.zeros_pos)
    have hlast : ((t.paths slash []).map (component slash ∘ Prod.fst)).getLastD [] ≠ [] := by
      have hlist : (t.paths slash []).map (component slash ∘ Prod.fst) ≠ [] := by
        rw [ne_eq, List.map_eq_nil_iff]
        cases t with
        | nil => exact absurd rfl hnames
        | file => exact List.cons_ne_nil _ _
        | dir => exact List.cons_ne_nil _ _
      rw [List.getLastD_eq_getLast?, List.getLast?_eq_some_getLast hlist, Option.getD_some]
      obtain ⟨p, hp, heq⟩ := List.mem_map.mp (List.getLast_mem hlist)
      rw [← heq]
      exact component_ne_nil hT.proper hp
    rw [List.replicate_succ, changes, if_neg (Ne.symm hlast),
      changes_of_forall_eq fun x hx => List.eq_of_mem_replicate hx]

/-- The components of the headers in another directory. -/
theorem InArchive.changes_eq {d : List UInt8} {after : List (List UInt8)}
    (h : InArchive m ar t d inside a after) (hd : d ≠ [slash]) :
    changes [] (within d ((inside.paths slash d).map Prod.fst ++ after)) = listing d inside := by
  rw [within_paths h.proper h.outside, changes_paths h.proper (nil_notMem_children h.proper),
    listing, if_neg fun hc => hd hc.1, List.append_nil]

/-- **What repeated calls of `readDir` return**, for every directory. -/
theorem TreeArchive.reads (hT : TreeArchive m ar t k) {d : List UInt8}
    (hd : IsDirectory t d inside) (hstart : directoryStart ar t d = some a)
    (h : s.Handle task dirp ⟨a, a, [], d, dirp⟩) :
    Reads m ar task dirp s (listing d inside) := by
  rcases hd with ⟨rfl, rfl⟩ | hd
  · rw [directoryStart, if_pos rfl] at hstart
    obtain rfl := Option.some.inj hstart
    have hlow : 512 ≤ ar.start := le_trans (by unfold kernbase; omega) hT.kernel
    rw [← hT.changes_root]
    exact reads_root h rfl hT.headers hlow
  · obtain ⟨a', after, hin⟩ := hT.inArchive hd
    obtain ⟨hslash, hne⟩ := hT.dirs_ne hd
    rw [directoryStart, if_neg hslash, hin.found] at hstart
    obtain rfl : a' = a := Option.some.inj hstart
    have hreads := reads_sub h hslash hne hin.chars hin.headers
    dsimp only at hreads
    rwa [hin.changes_eq hslash] at hreads

/-- **What `getDirEntries` writes**, for every directory. -/
theorem TreeArchive.dirents (hT : TreeArchive m ar t k) {d : List UInt8}
    (hd : IsDirectory t d inside) (hstart : directoryStart ar t d = some a) {fd : Int}
    {b count : Nat} (hfd : 0 ≤ fd) (haddr : s.getFdAddress task fd.toNat = some b) (hb : b ≠ 0)
    (hname : (s.fds b).name = d) (hb' : (s.fds b).start = a)
    (hcount : direntSize * ((listing d inside).length + 1) ≤ count) :
    s.getDirEntries m ar task fd count =
      some ((listing d inside).map .ofName, direntSize * (listing d inside).length) := by
  have hsub : count - (count - direntSize * (listing d inside).length) =
      direntSize * (listing d inside).length := by
    unfold direntSize at hcount ⊢
    omega
  have hlow : 512 ≤ ar.start := le_trans (by unfold kernbase; omega) hT.kernel
  rw [getDirEntries, if_neg (not_lt.mpr hfd), haddr, Option.bind_some, if_neg hb, hname, hb']
  rcases hd with ⟨rfl, rfl⟩ | hd
  · rw [directoryStart, if_pos rfl] at hstart
    obtain rfl := Option.some.inj hstart
    have hspec := @rootDirents_spec m ar.finish ar.start ar.fuel count [] _ hT.headers
      (hT.headers.length_lt_fuel hlow)
      (by rwa [hT.changes_root])
    rw [hT.changes_root] at hspec
    rw [if_pos rfl, hspec, Option.map_some, hsub]
  · obtain ⟨a', after, hin⟩ := hT.inArchive hd
    obtain ⟨hslash, hne⟩ := hT.dirs_ne hd
    rw [directoryStart, if_neg hslash, hin.found] at hstart
    obtain rfl : a' = a := Option.some.inj hstart
    -- `getDirEntries` starts behind the header of the directory
    obtain ⟨-, -, -, -, hle, hrest⟩ := hin.headers
    rw [hin.next] at hrest
    have hlow' := hin.low
    have hwithin := hin.changes_eq hslash
    obtain ⟨name, hmem⟩ := List.exists_mem_of_ne_nil after hin.nonempty
    have hspec := @subDirents_spec m ar.finish (a' + 512) ar.fuel count d [] _ hrest
      (hrest.length_lt_fuel (by omega)) hin.chars
      ⟨name, List.mem_append_right _ hmem, hin.outside name hmem⟩ (by rwa [hwithin])
    rw [hwithin] at hspec
    rw [if_neg hslash, if_pos hne, hspec, Option.map_some]
    exact congrArg some (Prod.ext rfl hsub)

/-- **An exact listing**: repeated calls return each immediate child once, with its own name, no
other name, and then `NULL`. -/
def ListsExactly (m : Mem) (ar : Archive) (s : Files) (task dirp : Nat)
    (inside : Forest UInt8 (List UInt8)) : Prop :=
  ∃ names, Reads m ar task dirp s names ∧ names.Nodup ∧ ∀ c, c ∈ names ↔ c ∈ inside.children slash

theorem listsExactly_iff {d : List UInt8} (h : Reads m ar task dirp s (listing d inside))
    (hin : inside.Proper slash) :
    ListsExactly m ar s task dirp inside ↔ ¬ (d = [slash] ∧ inside.names ≠ []) := by
  constructor
  · rintro ⟨names, hreads, -, hmem⟩ hroot
    -- the trailer is no child
    obtain rfl := h.unique hreads
    refine nil_notMem_children hin ((hmem []).mp ?_)
    rw [listing, if_pos hroot]
    exact List.mem_append_right _ List.mem_cons_self
  · intro hroot
    have hlist : listing d inside = inside.children slash := by
      rw [listing, if_neg hroot, List.append_nil]
    exact ⟨_, h, hlist ▸ nodup_children hin, fun c => by rw [hlist]⟩

theorem TreeArchive.proper_inside (hT : TreeArchive m ar t k) {d : List UInt8}
    (hd : IsDirectory t d inside) : inside.Proper slash := by
  rcases hd with ⟨-, rfl⟩ | hd
  · exact hT.proper
  · obtain ⟨-, -, -, hin, -⟩ := dirs_split hT.proper hd
    exact hin

/-- Two headers, of the directory `b/` and the empty file `b/c`. -/
def binHeaders (a x : Nat) : UInt8 :=
  if x = a ∨ x = a + 512 then 98
  else if x = a + 1 ∨ x = a + 513 then 47
  else if x = a + 514 then 99
  else 0

/-- The tree of these headers. -/
def binTree : Forest UInt8 (List UInt8) := .dir [98] (.file [99] [] .nil) .nil

theorem binHeaders_of_lt {a x : Nat} (h : a + 514 < x) : binHeaders a x = 0 := by
  rw [binHeaders, if_neg (by omega), if_neg (by omega), if_neg (by omega)]

theorem laid_binHeaders (a : Nat) : Laid (binHeaders a) (a + 2048) a (treeEntries binTree) := by
  have hzero : ∀ x, a + 514 < x → binHeaders a x = 0 := fun x hx => binHeaders_of_lt hx
  have hsize : entrySize (binHeaders a) a = 0 := by
    have hz : binHeaders a (a + 124) = 0 := by
      rw [binHeaders, if_neg (by omega), if_neg (by omega), if_neg (by omega)]
    exact toInteger_of_zero hz 512
  have hsize' : entrySize (binHeaders a) (a + 512) = 0 :=
    toInteger_of_zero (hzero _ (by omega)) 512
  have hdir : strcmp (binHeaders a) a [98, 47] = true := by
    have h₀ : binHeaders a a = 98 := by rw [binHeaders, if_pos (Or.inl rfl)]
    have h₁ : binHeaders a (a + 1) = 47 := by
      rw [binHeaders, if_neg (by omega), if_pos (Or.inl rfl)]
    have h₂ : binHeaders a (a + 1 + 1) = 0 := by
      rw [binHeaders, if_neg (by omega), if_neg (by omega), if_neg (by omega)]
    simp only [strcmp, h₀, h₁, h₂]
    decide
  have hfile : strcmp (binHeaders a) (a + 512) [98, 47, 99] = true := by
    have h₀ : binHeaders a (a + 512) = 98 := by rw [binHeaders, if_pos (Or.inr rfl)]
    have h₁ : binHeaders a (a + 512 + 1) = 47 := by
      rw [binHeaders, if_neg (by omega), if_pos (Or.inr rfl)]
    have h₂ : binHeaders a (a + 512 + 1 + 1) = 99 := by
      rw [binHeaders, if_neg (by omega), if_neg (by omega), if_pos rfl]
    have h₃ : binHeaders a (a + 512 + 1 + 1 + 1) = 0 := hzero _ (by omega)
    simp only [strcmp, h₀, h₁, h₂, h₃]
    decide
  have hnone : ∀ {b x : Nat}, b + 0 ≤ x → x < b + padded 0 → binHeaders a x = 0 := by
    intro b x hx hx'
    rw [show padded 0 = 0 from rfl] at hx'
    omega
  refine ⟨⟨hdir, by simp [slash], by decide, hsize⟩, rfl, fun x hx hx' => hnone hx hx',
    ⟨hfile, by simp [slash], by decide, hsize'⟩, rfl, fun x hx hx' => hnone hx hx',
    Nat.le_refl (a + 2048), fun x hx _ => hzero x (lt_of_lt_of_le ?_ hx)⟩
  show a + 514 < a + 512 + 0 + 512 + 0
  omega

theorem binTree_archive :
    TreeArchive (binHeaders oneArchive.start) oneArchive binTree 2 := by
  refine ⟨?_, laid_binHeaders _, rfl, by decide, by decide, by decide⟩
  exact ⟨by decide, by decide, by decide, ⟨by decide, by decide, by decide, trivial⟩, trivial⟩

end Files

end Sbunix
