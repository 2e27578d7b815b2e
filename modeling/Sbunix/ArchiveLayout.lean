import Sbunix.Tarfs

/-!
# Archives as tar writes them

`Laid` describes an archive by what the loops of `sys/tarfs.c` read of it. Here is what tar puts
there, byte by byte: a header of 512 bytes with the name at its beginning and the octal digits of
the size at offset 124, the data with zeros up to the next block, and at the end at least two
blocks of zeros.

* `laid_of_tarBytes` — these bytes are an archive in the sense of `Laid`: the loops decode what tar
  has encoded;
* `searchTrace_spec` — the headers that a search passes are those of the entries, in order, and
  then the blocks of zeros;
* `archive_lookup` — the searches of `loadFile`, `get_file_address` and `get_dir_address` agree on
  the first entry with the name.
-/

namespace Sbunix

open ByteMem

/-! ### What tar writes -/

/-- An entry of an archive: `mode` are the fields between the name and the size, `digits` is the
size, `rest` are the fields behind it. -/
structure TarEntry where
  name : List UInt8
  mode : List UInt8
  digits : List UInt8
  rest : List UInt8
  data : List UInt8

/-- The number that octal digits denote. -/
def octalValue (digits : List UInt8) : Nat := digits.foldl (fun n d => n * 8 + (d.toNat - 48)) 0

/-- **A proper entry.** -/
structure TarEntry.Ok (e : TarEntry) : Prop where
  nonempty : e.name ≠ []
  nameZero : 0 ∉ e.name
  nameShort : e.name.length < 100
  mode : e.mode.length = 24
  octal : ∀ d ∈ e.digits, 48 ≤ d.toNat ∧ d.toNat < 56
  width : e.digits.length < 12
  size : octalValue e.digits = e.data.length
  rest : e.rest.length = 376
  small : e.data.length < 2 ^ 31 - 512

/-- Fill up a field of `n` bytes. -/
def zeroFill (n : Nat) (bs : List UInt8) : List UInt8 := bs ++ List.replicate (n - bs.length) 0

/-- The 512 bytes of the header. -/
def TarEntry.header (e : TarEntry) : List UInt8 :=
  zeroFill 100 e.name ++ (e.mode ++ (zeroFill 12 e.digits ++ e.rest))

/-- Header, data and zeros up to the next block. -/
def TarEntry.bytes (e : TarEntry) : List UInt8 :=
  e.header ++ zeroFill (padded e.data.length) e.data

/-- The archive with `k` blocks of zeros at its end. -/
def tarBytes (es : List TarEntry) (k : Nat) : List UInt8 :=
  (es.map TarEntry.bytes).flatten ++ List.replicate (512 * k) 0

/-- What the searches look at. -/
def TarEntry.entry (e : TarEntry) : Entry := ⟨e.name, e.data⟩

/-- The bytes `bs` lie at `a`. -/
def BytesAt (m : Mem) (a : Nat) (bs : List UInt8) : Prop := slice m a bs.length = bs

variable {m : Mem} {a n k finish : Nat} {bs cs name digits : List UInt8} {e : TarEntry}
  {es : List TarEntry}

theorem bytesAt_append :
    BytesAt m a (bs ++ cs) ↔ BytesAt m a bs ∧ BytesAt m (a + bs.length) cs := by
  unfold BytesAt
  rw [List.length_append, slice_add]
  constructor
  · intro h
    exact List.append_inj h (slice_length ..)
  · rintro ⟨h₁, h₂⟩
    rw [h₁, h₂]

theorem bytesAt_cons {b : UInt8} : BytesAt m a (b :: bs) ↔ m a = b ∧ BytesAt m (a + 1) bs := by
  unfold BytesAt
  rw [List.length_cons, slice, List.cons.injEq]

theorem bytesAt_zeros : BytesAt m a (List.replicate n 0) ↔ ∀ x, a ≤ x → x < a + n → m x = 0 := by
  induction n generalizing a with
  | zero =>
    constructor
    · intro _ x hx hx'
      omega
    · intro _
      rfl
  | succ n ih =>
    rw [List.replicate_succ, bytesAt_cons, ih]
    constructor
    · rintro ⟨h₀, h⟩ x hx hx'
      rcases Nat.eq_or_lt_of_le hx with rfl | hlt
      · exact h₀
      · exact h x hlt (by omega)
    · intro h
      exact ⟨h a le_rfl (by omega), fun x hx hx' => h x (by omega) (by omega)⟩

@[simp] theorem length_zeroFill (h : bs.length ≤ n) : (zeroFill n bs).length = n := by
  rw [zeroFill, List.length_append, List.length_replicate]
  omega

theorem BytesAt.of_zeroFill (h : BytesAt m a (zeroFill n bs)) :
    BytesAt m a bs ∧ ∀ x, a + bs.length ≤ x → x < a + n → m x = 0 := by
  obtain ⟨h₁, h₂⟩ := bytesAt_append.mp h
  refine ⟨h₁, fun x hx hx' => bytesAt_zeros.mp h₂ x hx (by omega)⟩

/-! ### Decoding -/

theorem strcmp_of_bytesAt (h : BytesAt m a name) (hz : m (a + name.length) = 0) :
    strcmp m a name = true := by
  induction name generalizing a with
  | nil =>
    rw [strcmp, beq_iff_eq]
    exact hz
  | cons c name ih =>
    obtain ⟨h₀, h⟩ := bytesAt_cons.mp h
    rw [strcmp, Bool.and_eq_true, beq_iff_eq]
    exact ⟨h₀, ih h (by rwa [show a + 1 + name.length = a + (name.length + 1) by omega])⟩

theorem le_octal (digits : List UInt8) (n : Nat) :
    n ≤ digits.foldl (fun n d => n * 8 + (d.toNat - 48)) n := by
  induction digits generalizing n with
  | nil => exact le_rfl
  | cons d digits ih =>
    rw [List.foldl_cons]
    exact le_trans (by omega) (ih _)

/-- **`toInteger`** reads octal digits, as long as the number is a C `int`. -/
theorem toInteger_of_bytesAt {fuel : Nat} (h : BytesAt m a digits)
    (hz : m (a + digits.length) = 0) (hd : ∀ d ∈ digits, 48 ≤ d.toNat ∧ d.toNat < 56)
    (hfuel : digits.length < fuel)
    (hsmall : digits.foldl (fun n d => n * 8 + (d.toNat - 48)) n < 2 ^ 31) :
    toInteger m fuel a n = digits.foldl (fun n d => n * 8 + (d.toNat - 48)) n := by
  induction digits generalizing a n fuel with
  | nil =>
    obtain ⟨fuel, rfl⟩ := Nat.exists_eq_succ_of_ne_zero (show fuel ≠ 0 by omega)
    have hz : m a = 0 := hz
    rw [toInteger, if_neg (not_not.mpr hz)]
    rfl
  | cons d digits ih =>
    obtain ⟨fuel, rfl⟩ := Nat.exists_eq_succ_of_ne_zero (show fuel ≠ 0 by omega)
    obtain ⟨h₀, h⟩ := bytesAt_cons.mp h
    obtain ⟨hlo, hhi⟩ := hd d List.mem_cons_self
    -- a digit is not the end of the field
    have hne : m a ≠ 0 := by
      intro hc
      rw [h₀] at hc
      rw [hc] at hlo
      exact absurd hlo (by decide)
    rw [List.foldl_cons] at hsmall ⊢
    have hle := le_octal digits (n * 8 + (d.toNat - 48))
    -- no digit overflows
    have hstep : ((n : Int) * 8 + (charInt (m a) - 48)).bmod (2 ^ 32) =
        ((n * 8 + (d.toNat - 48) : Nat) : Int) := by
      have hchar : charInt (m a) = d.toNat := by
        rw [h₀]
        unfold charInt
        exact Int.bmod_eq_of_le (by omega) (by omega)
      rw [hchar]
      exact (Int.bmod_eq_of_le (by omega) (by omega)).trans (by omega)
    have hz' : m (a + 1 + digits.length) = 0 := by
      rw [show a + 1 + digits.length = a + (digits.length + 1) by omega]
      exact hz
    rw [toInteger, if_pos hne, hstep]
    exact ih h hz'
      (fun c hc => hd c (List.mem_cons_of_mem d hc)) (by simpa using hfuel) hsmall

/-- **A header is decoded.** -/
theorem TarEntry.Ok.header (h : e.Ok) (hm : BytesAt m a e.header) : Header m a e.entry := by
  simp only [TarEntry.header, bytesAt_append, length_zeroFill h.nameShort.le, h.mode] at hm
  obtain ⟨hname, -, hsize, -⟩ := hm
  obtain ⟨hname, hnz⟩ := hname.of_zeroFill
  obtain ⟨hsize, hsz⟩ := hsize.of_zeroFill
  have hshort := h.nameShort
  have hwidth := h.width
  -- both fields are shorter than their room, so that a NUL follows
  have hstr := strcmp_of_bytesAt hname (hnz _ le_rfl (by omega))
  refine ⟨hstr, fun c hc hc0 => ?_, h.nonempty, ?_⟩
  · exact h.nameZero (hc0 ▸ hc)
  · have hval := h.size
    have hsmall := h.small
    unfold octalValue at hval
    have := @toInteger_of_bytesAt m (a + 100 + 24) 0 e.digits 512 hsize
      (hsz _ le_rfl (by omega)) h.octal (by omega) (by rw [hval]; omega)
    rw [hval] at this
    exact this

theorem TarEntry.Ok.length_header (h : e.Ok) : e.header.length = 512 := by
  simp only [TarEntry.header, List.length_append, length_zeroFill h.nameShort.le,
    length_zeroFill h.width.le, h.mode, h.rest]

theorem TarEntry.Ok.length_bytes (h : e.Ok) : e.bytes.length = 512 + padded e.data.length := by
  rw [TarEntry.bytes, List.length_append, h.length_header, length_zeroFill (le_padded _)]

/-- **What tar writes is an archive.** -/
theorem laid_of_tarBytes (hes : ∀ e ∈ es, e.Ok) (hk : 2 ≤ k) (hm : BytesAt m a (tarBytes es k)) :
    Laid m (a + (tarBytes es k).length) a (es.map TarEntry.entry) := by
  induction es generalizing a with
  | nil =>
    have hlen : (tarBytes [] k).length = 512 * k := by
      rw [tarBytes, List.map_nil, List.flatten_nil, List.nil_append, List.length_replicate]
    rw [hlen]
    exact ⟨by omega, bytesAt_zeros.mp hm⟩
  | cons e es ih =>
    have he := hes e List.mem_cons_self
    -- header, data with its zeros, and the rest of the archive
    have hcons : tarBytes (e :: es) k = e.header ++ (zeroFill (padded e.data.length) e.data ++
        tarBytes es k) := by
      simp only [tarBytes, TarEntry.bytes, List.map_cons, List.flatten_cons, List.append_assoc]
    rw [hcons] at hm ⊢
    obtain ⟨hhead, hm⟩ := bytesAt_append.mp hm
    obtain ⟨hdata, hm⟩ := bytesAt_append.mp hm
    rw [he.length_header] at hdata hm
    rw [length_zeroFill (le_padded _)] at hm
    obtain ⟨hdata, hz⟩ := hdata.of_zeroFill
    refine ⟨he.header hhead, hdata, hz, ?_⟩
    have := ih (fun e' he' => hes e' (List.mem_cons_of_mem e he')) hm
    rwa [List.length_append, List.length_append, he.length_header, length_zeroFill (le_padded _),
      ← Nat.add_assoc, ← Nat.add_assoc]

/-! ### The searches -/

/-- The search loop with the headers it passes: the pointers for which its body runs. -/
def searchTrace (m : Mem) (finish : Nat) (file : List UInt8) : Nat → Nat → Option (List Nat)
  | 0, _ => none
  | fuel + 1, pointer =>
    if pointer < finish then
      if strcmp m pointer file then some [pointer]
      else (searchTrace m finish file fuel
        (((pointer : Int) + blockedSize (entrySize m pointer) + 512) % 2 ^ 64).toNat).map
          (pointer :: ·)
    else some []

/-- The search of `loadFile`: where the ELF header lies and how long the file is. -/
def findExecutable (m : Mem) (ar : Archive) (file : List UInt8) : Option (Option (Nat × Nat)) :=
  (searchArchive m ar.finish file ar.fuel ar.start).map fun r =>
    if r.2 then some (r.1 + 512, (entrySize m r.1 % 2 ^ 64).toNat) else none

/-- **What a search is for**: the first entry with the name, and where its header is. -/
def lookup : Nat → List Entry → List UInt8 → Option (Nat × Entry)
  | _, [], _ => none
  | a, e :: es, name =>
    if e.name = name then some (a, e) else lookup (a + 512 + padded e.content.length) es name

/-- The headers up to the first entry with the name, or else all headers and `k` more blocks. -/
def passed : Nat → List Entry → Nat → List UInt8 → List Nat
  | a, [], k, _ => (List.range k).map (a + 512 * ·)
  | a, e :: es, k, name =>
    a :: if e.name = name then [] else passed (a + 512 + padded e.content.length) es k name

variable {es' : List Entry} {e' : Entry}

/-- A block of zeros has no name and no size. -/
theorem zero_block (hz : ∀ x, a ≤ x → x < a + 512 → m x = 0) (hname : name ≠ [])
    (hchars : ∀ c ∈ name, c ≠ 0) : strcmp m a name = false ∧ entrySize m a = 0 := by
  constructor
  · cases name with
    | nil => exact absurd rfl hname
    | cons c name =>
      have hc : (m a == c) = false := by
        rw [hz a le_rfl (by omega), beq_eq_false_iff_ne]
        exact Ne.symm (hchars c List.mem_cons_self)
      rw [strcmp, hc, Bool.false_and]
  · rw [entrySize, toInteger, if_neg (not_not.mpr (hz (a + 124) (by omega) (by omega)))]

/-- From one header to the next. -/
theorem nextHeader {n : Nat} (hsize : entrySize m a = n) (hn : padded n < 2 ^ 31)
    (ha : a + 512 + padded n < 2 ^ 64) :
    (((a : Int) + blockedSize (entrySize m a) + 512) % 2 ^ 64).toNat = a + 512 + padded n := by
  rw [hsize, blockedSize_of_lt hn]
  omega

/-- **The blocks of zeros** are passed one by one. -/
theorem search_zeros {fuel : Nat} (hz : ∀ x, a ≤ x → x < a + 512 * k → m x = 0)
    (hf : a + 512 * k < 2 ^ 64) (hname : name ≠ []) (hchars : ∀ c ∈ name, c ≠ 0)
    (hfuel : k < fuel) :
    searchTrace m (a + 512 * k) name fuel a = some ((List.range k).map (a + 512 * ·)) ∧
      searchArchive m (a + 512 * k) name fuel a = some (a + 512 * k, false) := by
  induction k generalizing a fuel with
  | zero =>
    obtain ⟨fuel, rfl⟩ := Nat.exists_eq_succ_of_ne_zero (show fuel ≠ 0 by omega)
    have hge : ¬ a < a + 512 * 0 := by omega
    rw [searchTrace, searchArchive, if_neg hge, if_neg hge]
    exact ⟨rfl, rfl⟩
  | succ k ih =>
    obtain ⟨fuel, rfl⟩ := Nat.exists_eq_succ_of_ne_zero (show fuel ≠ 0 by omega)
    have hle : a + 512 ≤ a + 512 * (k + 1) := by omega
    have hblock : ∀ x, a ≤ x → x < a + 512 → m x = 0 := fun x hx hx' =>
      hz x hx (lt_of_lt_of_le hx' hle)
    obtain ⟨hcmp, hsize⟩ := zero_block hblock hname hchars
    -- a block of zeros counts as a header without data
    have hpad : padded 0 = 0 := rfl
    have hnext := @nextHeader m a 0 hsize (by omega) (by omega)
    have hfin : a + 512 * (k + 1) = a + 512 + padded 0 + 512 * k := by omega
    obtain ⟨ht, hs⟩ := @ih (a + 512 + padded 0) fuel
      (fun x hx hx' => hz x (by omega) (by omega)) (by omega) (by omega)
    have hlt : a < a + 512 * (k + 1) := by omega
    rw [searchTrace, searchArchive, if_pos hlt, if_pos hlt, hcmp, hnext]
    simp only [Bool.false_eq_true, if_false]
    rw [hfin, ht, hs]
    refine ⟨?_, rfl⟩
    rw [Option.map_some, List.range_succ_eq_map, List.map_cons, List.map_map]
    refine congrArg some (congrArg₂ _ (by omega) (List.map_congr_left fun i _ => ?_))
    simp only [Function.comp_apply]
    omega

/-- **The search in an archive** passes the headers up to the first entry with the name, or all
headers and the blocks of zeros behind them. -/
theorem searchTrace_spec {fuel : Nat} (h : Laid m finish a es') (hf : finish < 2 ^ 64)
    (hsize : ∀ e ∈ es', padded e.content.length < 2 ^ 31) (hname : name ≠ [])
    (hchars : ∀ c ∈ name, c ≠ 0) (hk : a + laidLength es' + 512 * k = finish)
    (hfuel : (finish - a) / 512 < fuel) :
    searchTrace m finish name fuel a = some (passed a es' k name) ∧
      searchArchive m finish name fuel a = some (match lookup a es' name with
        | some r => (r.1, true)
        | none => (finish, false)) := by
  induction es' generalizing a fuel with
  | nil =>
    have hfin : finish = a + 512 * k := by
      rw [← hk, laidLength, Nat.add_zero]
    rw [hfin] at h hf hfuel ⊢
    exact search_zeros h.2 hf hname hchars (by omega)
  | cons e es ih =>
    obtain ⟨fuel, rfl⟩ := Nat.exists_eq_succ_of_ne_zero (show fuel ≠ 0 by omega)
    obtain ⟨hhead, -, -, hrest⟩ := h
    have hlt := hrest.lt
    have hlt' : a < finish := by omega
    rw [searchTrace, searchArchive, if_pos hlt', if_pos hlt', lookup, passed]
    -- `strcmp` with the header is equality of names
    by_cases heq : e.name = name
    · have hcmp : strcmp m a name = true := heq ▸ hhead.name
      rw [if_pos hcmp, if_pos hcmp, if_pos heq, if_pos heq]
      exact ⟨rfl, rfl⟩
    · have hcmp : ¬ strcmp m a name = true := fun hc =>
        heq (strcmp_inj hhead.chars hchars hhead.name hc)
      have hnext := nextHeader hhead.size (hsize e List.mem_cons_self) (by omega)
      obtain ⟨ht, hs⟩ := @ih (a + 512 + padded e.content.length) fuel hrest
        (fun e' he' => hsize e' (List.mem_cons_of_mem e he'))
        (by rw [← hk, laidLength]; omega) (by omega)
      rw [if_neg hcmp, if_neg hcmp, if_neg heq, if_neg heq, hnext, ht, hs]
      exact ⟨rfl, rfl⟩

/-- The entry that is found lies where it is found. -/
theorem lookup_laid {r : Nat × Entry} (h : Laid m finish a es') (hr : lookup a es' name = some r) :
    Header m r.1 r.2 ∧ r.2 ∈ es' := by
  induction es' generalizing a with
  | nil => cases hr
  | cons e es ih =>
    rw [lookup] at hr
    split at hr
    · obtain rfl := Option.some.inj hr
      exact ⟨h.1, List.mem_cons_self⟩
    · obtain ⟨hhead, hmem⟩ := ih h.2.2.2 hr
      exact ⟨hhead, List.mem_cons_of_mem e hmem⟩

theorem length_tarBytes (hes : ∀ e ∈ es, e.Ok) :
    (tarBytes es k).length = laidLength (es.map TarEntry.entry) + 512 * k := by
  induction es with
  | nil =>
    rw [tarBytes, List.map_nil, List.flatten_nil, List.nil_append, List.length_replicate,
      List.map_nil, laidLength, Nat.zero_add]
  | cons e es ih =>
    have hrest := ih fun e' he' => hes e' (List.mem_cons_of_mem e he')
    rw [tarBytes, List.length_append] at hrest
    rw [tarBytes, List.map_cons, List.flatten_cons, List.append_assoc, List.length_append,
      List.length_append, hrest, (hes e List.mem_cons_self).length_bytes, List.map_cons, laidLength]
    simp only [TarEntry.entry]
    omega

/-- What the three searches return for a name. -/
structure LookupAgrees (m : Mem) (ar : Archive) (es : List Entry) (k : Nat) (name : List UInt8) :
    Prop where
  /-- The headers, and behind them the blocks of zeros. -/
  passes : searchTrace m ar.finish name ar.fuel ar.start = some (passed ar.start es k name)
  file : getFileAddress m ar name = some (match lookup ar.start es name with
    | some (a, e) => if 0 < e.content.length then a + 512 else a
    | none => 0)
  dir : getDirAddress m ar name = some (match lookup ar.start es name with
    | some (a, e) => if e.content.length = 0 then a else 0
    | none => 0)
  executable : findExecutable m ar name = some ((lookup ar.start es name).map fun r =>
    (r.1 + 512, r.2.content.length))

/-- **Lookup inverts construction.** In an archive as tar writes it the searches for a name pass
the headers in order and agree on the first entry with the name. -/
theorem archive_lookup (m : Mem) (ar : Archive) (es : List TarEntry) (k : Nat) (name : List UInt8)
    (hes : ∀ e ∈ es, e.Ok) (hk : 2 ≤ k) (hm : BytesAt m ar.start (tarBytes es k))
    (hfin : ar.finish = ar.start + (tarBytes es k).length) (hend : ar.finish < 2 ^ 64)
    (hname : name ≠ []) (hchars : ∀ c ∈ name, c ≠ 0) :
    LookupAgrees m ar (es.map TarEntry.entry) k name := by
  have hlaid : Laid m ar.finish ar.start (es.map TarEntry.entry) := by
    rw [hfin]
    exact laid_of_tarBytes hes hk hm
  have hsize : ∀ e ∈ es.map TarEntry.entry, padded e.content.length < 2 ^ 31 := by
    intro e he
    obtain ⟨e', he', rfl⟩ := List.mem_map.mp he
    have := (hes e' he').small
    simp only [TarEntry.entry, padded]
    omega
  have hlen : ar.start + laidLength (es.map TarEntry.entry) + 512 * k = ar.finish := by
    rw [hfin, length_tarBytes hes, Nat.add_assoc]
  obtain ⟨htrace, hsearch⟩ := searchTrace_spec hlaid hend hsize hname hchars hlen
    (show (ar.finish - ar.start) / 512 < ar.fuel by unfold Archive.fuel; omega)
  -- the size in the header is the length of the data, as a C `int` too
  have hfound : ∀ r, lookup ar.start (es.map TarEntry.entry) name = some r →
      entrySize m r.1 = r.2.content.length ∧ r.2.content.length < 2 ^ 31 := fun r hr => by
    obtain ⟨hhead, hmem⟩ := lookup_laid hlaid hr
    exact ⟨hhead.size, lt_of_le_of_lt (le_padded _) (hsize r.2 hmem)⟩
  refine ⟨htrace, ?_, ?_, ?_⟩ <;>
    simp only [getFileAddress, getDirAddress, findExecutable, hsearch, Option.map_some]
  · cases hl : lookup ar.start (es.map TarEntry.entry) name with
    | none => simp
    | some r =>
      simp only [(hfound r hl).1, Int.natCast_pos, Int.natCast_eq_zero, and_true]
      split_ifs
      · rfl
      · rfl
      · omega
  · cases hl : lookup ar.start (es.map TarEntry.entry) name with
    | none => simp
    | some r => simp only [(hfound r hl).1, Int.natCast_eq_zero, and_true]
  · cases hl : lookup ar.start (es.map TarEntry.entry) name with
    | none => rfl
    | some r =>
      obtain ⟨hs, hlt⟩ := hfound r hl
      have hword : ((r.2.content.length : Int) % 2 ^ 64).toNat = r.2.content.length := by omega
      simp only [hs, hword, if_true, Option.map_some]

/-- Memory with the bytes `bs` at `a`. -/
def memWith (a : Nat) (bs : List UInt8) : Mem := fun x => bs.getD (x - a) 0

theorem bytesAt_memWith (a : Nat) (bs : List UInt8) : BytesAt (memWith a bs) a bs := by
  refine List.ext_getElem? fun i => ?_
  rcases Nat.lt_or_ge i bs.length with hi | hi
  · rw [getElem?_slice _ hi, memWith, Nat.add_sub_cancel_left, List.getD_eq_getElem?_getD,
      List.getElem?_eq_getElem hi, Option.getD_some]
  · rw [List.getElem?_eq_none hi, List.getElem?_eq_none (by rwa [slice_length])]

/-- The directory `bin/` and a file `a` of three bytes. -/
def sampleEntries : List TarEntry :=
  [⟨[0x62, 0x69, 0x6E, 0x2F], List.replicate 24 0, List.replicate 11 0x30, List.replicate 376 0,
      []⟩,
    ⟨[0x61], List.replicate 24 0, List.replicate 10 0x30 ++ [0x33], List.replicate 376 0,
      [0x78, 0x79, 0x7A]⟩]

theorem sampleEntries_ok : ∀ e ∈ sampleEntries, e.Ok := by
  intro e he
  rcases List.mem_cons.mp he with rfl | he
  · exact ⟨by decide, by decide, by decide, List.length_replicate, by simp, by decide, by decide,
      List.length_replicate, by decide⟩
  · obtain rfl := List.mem_singleton.mp he
    exact ⟨by decide, by decide, by decide, List.length_replicate, by simp, by decide, by decide,
      List.length_replicate, by decide⟩

/-- A search for the file. -/
theorem archive_lookup_sample : LookupAgrees
    (memWith 0xFFFFFFFF80210000 (tarBytes sampleEntries 2))
    ⟨0xFFFFFFFF80210000, 0xFFFFFFFF80210000 + (tarBytes sampleEntries 2).length⟩
    (sampleEntries.map TarEntry.entry) 2 [0x61] := by
  have hlen : (tarBytes sampleEntries 2).length = 2560 := by
    rw [length_tarBytes sampleEntries_ok]
    decide
  generalize ha : 0xFFFFFFFF80210000 = a
  refine archive_lookup _ ⟨a, a + (tarBytes sampleEntries 2).length⟩ sampleEntries 2 [0x61]
    sampleEntries_ok le_rfl (bytesAt_memWith _ _) rfl ?_ (by decide) (by simp)
  dsimp only
  omega

end Sbunix
