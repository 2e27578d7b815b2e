import Sbunix.Directories

/-!
# The buffer of `getDirEntries`

What `getDirEntries` writes, byte by byte. The archive is kernel memory, and the buffer of the
caller is seen by the distance from `buf`.

A record takes 280 bytes. Where fewer are left, the helpers write a NUL byte and return −1; the NUL
byte is behind the buffer when none are left. The loop for the root directory does not look at
that result, and compares `prev_dir` with whatever the buffer holds at `d_name`: if they differ,
`count` becomes negative, which the next comparison takes for a large number.

The loops run over the components of the headers (`rootNext`, `subNext`), and one round leaves the
records before it alone.

* `direntsInBuffer_iff` — when everything that is written lies in the buffer and the result is a
  whole number of records of children;
* `not_direntsInBuffer` — the root directory read into a buffer with room for all.
-/

namespace Sbunix

open ByteMem PathTree Runs

/-- The bytes from `buf` on, and the end of those that have been written to. -/
structure Buffer where
  bytes : Mem
  top : Nat

namespace Buffer

/-- Writing bytes one after the other. -/
def puts (b : Buffer) (i : Nat) (cs : List UInt8) : Buffer :=
  ⟨writeBytes b.bytes i cs, max b.top (i + cs.length)⟩

/-- `*buf='\0'`. -/
def putNul (b : Buffer) (i : Nat) : Buffer := b.puts i [0]

end Buffer

/-- The bytes of a record: `d_ino` and `d_off` are 0, and `d_reclen` is 280. -/
def direntBytes (name : List UInt8) : List UInt8 :=
  List.replicate 16 0 ++ [0x18, 0x01] ++ name ++ [0]

/-- **A complete record**, with a NUL-terminated name. -/
def IsDirent (m : Mem) (a : Nat) (name : List UInt8) : Prop :=
  0 ∉ name ∧ BytesAt m a (direntBytes name)

/-- Records one behind the other. -/
def IsDirents (m : Mem) : Nat → List (List UInt8) → Prop
  | _, [] => True
  | a, name :: names => IsDirent m a name ∧ IsDirents m (a + direntSize) names

/-- The string at `a`, if it has fewer than `n` characters. -/
def nameAt (m : Mem) : Nat → Nat → Option (List UInt8)
  | 0, _ => none
  | n + 1, a => if m a = 0 then some [] else (nameAt m n (a + 1)).map (m a :: ·)

/-- The variables of `getDirEntries`. -/
structure DirentLoop where
  buffer : Buffer
  buf : Nat
  count : Int
  prevDir : List UInt8

section Source

variable (m : Mem)

/-- `get_first_direntry`; `false` is −1. A negative `count` is large when it is compared with
`sizeof(struct dirent)`. -/
def Buffer.getFirstDirentry (b : Buffer) (i : Nat) (count : Int) (child : Nat) :
    Option (Bool × Buffer) :=
  if 0 ≤ count ∧ count < direntSize then some (false, b.putNul i)
  else (copyComponent m 255 child).map fun name => (true, b.puts i (direntBytes name))

/-- `get_sub_direntry`. -/
def Buffer.getSubDirentry (b : Buffer) (i : Nat) (count : Int) :
    List UInt8 → Nat → Option (Bool × Buffer)
  | [], child => b.getFirstDirentry m i count child
  | c :: parent, child =>
    if c = m child then b.getSubDirentry i count parent (child + 1) else some (false, b.putNul i)

/-- The comparison of `d_name` with `prev_dir`. A name of 255 characters is not terminated when it
has been copied to `prev_dir`. -/
def DirentLoop.keep (s : DirentLoop) (b : Buffer) : Option DirentLoop :=
  (nameAt b.bytes 255 (s.buf + 18)).map fun name =>
    if name ≠ s.prevDir then ⟨b, s.buf + direntSize, s.count - direntSize, name⟩
    else { s with buffer := b }

/-- The loop of `getDirEntries` in the root directory. -/
def rootLoop (finish : Nat) : Nat → Nat → DirentLoop → Option DirentLoop
  | 0, _, _ => none
  | fuel + 1, start, s =>
    if start < finish then
      (s.buffer.getFirstDirentry m s.buf s.count start).bind fun r =>
        (s.keep r.2).bind fun s => rootLoop finish fuel (following m start) s
    else some s

/-- The loop of `getDirEntries` in the directory `parent`; `false` is the end of the archive. -/
def subLoop (finish : Nat) (parent : List UInt8) :
    Nat → Nat → DirentLoop → Option (Bool × DirentLoop)
  | 0, _, _ => none
  | fuel + 1, start, s =>
    if start < finish then
      if startswith m parent start then
        (s.buffer.getSubDirentry m s.buf s.count parent start).bind fun r =>
          (if r.1 then s.keep r.2 else some { s with buffer := r.2 }).bind fun s =>
            subLoop finish parent fuel (following m start) s
      else some (true, s)
    else some (false, s)

/-- The end of the listing: `y` is the size of the buffer. -/
def DirentLoop.result (s : DirentLoop) (y : Nat) : Nat × Buffer :=
  let count := if s.count < 0 then 0 else s.count
  ((y - count).toNat, if s.count > 0 then s.buffer.putNul s.buf else s.buffer)

/-- `getDirEntries`: what it returns, and the buffer. -/
def Files.direntBuffer (ar : Archive) (s : Files) (task : Nat) (fd : Int) (count : Nat)
    (bytes : Mem) : Option (Nat × Buffer) :=
  let l : DirentLoop := ⟨⟨bytes, 0⟩, 0, count, []⟩
  if fd < 0 then some (0, l.buffer)
  else (s.getFdAddress task fd.toNat).bind fun a =>
    if a = 0 then some (0, l.buffer)
    else if (s.fds a).name = [slash] then
      (rootLoop m ar.finish ar.fuel (s.fds a).start l).map fun l => l.result count
    else if (s.fds a).name ≠ [] then
      (subLoop m ar.finish (s.fds a).name ar.fuel ((s.fds a).start + 512) l).map fun r =>
        if r.1 then r.2.result count else (0, r.2.buffer.putNul r.2.buf)
    else some (0, l.buffer.putNul 0)

end Source

/-- **What the caller relies on**: nothing is written outside its buffer of `count` bytes, and the
result is a number of complete records in it, with the names of children. -/
structure DirentsInBuffer (count : Nat) (children : List (List UInt8)) (r : Nat) (b : Buffer) :
    Prop where
  inside : b.top ≤ count
  bound : r ≤ count
  records : ∃ names, r = direntSize * names.length ∧ IsDirents b.bytes 0 names ∧
    ∀ name ∈ names, name ∈ children

/-! ### Bytes and records -/

variable {m : Mem} {ar : Archive} {finish a i n fuel x : Nat} {b : Buffer}
  {name prev parent : List UInt8} {ns cs names : List (List UInt8)} {s s' : DirentLoop}

theorem Buffer.puts_of_out {l : List UInt8} (h : x < i ∨ i + l.length ≤ x) :
    (b.puts i l).bytes x = b.bytes x :=
  writeBytes_of_out b.bytes h

theorem direntBytes_length : (direntBytes name).length = name.length + 19 := by
  simp [direntBytes]

theorem isDirent_puts (h0 : 0 ∉ name) : IsDirent (b.puts i (direntBytes name)).bytes i name :=
  ⟨h0, slice_writeBytes_self b.bytes i (direntBytes name)⟩

/-- A record depends on its own bytes only. -/
theorem IsDirent.congr {m' : Mem} (h : IsDirent m a name) (hlen : name.length < 255)
    (heq : ∀ x, a ≤ x → x < a + direntSize → m' x = m x) : IsDirent m' a name := by
  refine ⟨h.1, ?_⟩
  rw [BytesAt, slice_congr (fun x hlo hhi => heq x hlo ?_), h.2]
  rw [direntBytes_length] at hhi
  unfold direntSize
  omega

theorem IsDirents.congr {m' : Mem} (h : IsDirents m a names) (hlen : ∀ n ∈ names, n.length < 255)
    (heq : ∀ x, a ≤ x → x < a + direntSize * names.length → m' x = m x) :
    IsDirents m' a names := by
  induction names generalizing a with
  | nil => trivial
  | cons n names ih =>
    rw [List.length_cons, Nat.mul_succ] at heq
    refine ⟨h.1.congr (hlen n List.mem_cons_self) fun x hlo hhi => heq x hlo (by omega), ?_⟩
    refine ih h.2 (fun n' hn => hlen n' (List.mem_cons_of_mem n hn)) fun x hlo hhi => heq x ?_ ?_
    · omega
    · omega

theorem IsDirents.get (h : IsDirents m a names) {q : Nat} (hq : q < names.length) :
    IsDirent m (a + direntSize * q) names[q] := by
  induction names generalizing a q with
  | nil => exact absurd hq (Nat.not_lt_zero q)
  | cons n names ih =>
    cases q with
    | zero => exact h.1
    | succ q =>
      have := ih h.2 (Nat.lt_of_succ_lt_succ hq)
      rwa [show a + direntSize + direntSize * q = a + direntSize * (q + 1) by
        rw [Nat.mul_succ]; omega] at this

/-- The name is at `d_name`. -/
theorem IsDirent.strcmp_name (h : IsDirent m a name) : strcmp m (a + 18) name = true := by
  have h := h.2
  unfold direntBytes at h
  obtain ⟨h, hz⟩ := bytesAt_append.mp h
  have hname := (bytesAt_append.mp h).2
  refine strcmp_of_bytesAt hname ?_
  rw [← (bytesAt_cons.mp hz).1]
  congr 1
  simp only [List.length_append, List.length_replicate, List.length_cons, List.length_nil]
  omega

/-- A record whose name begins with NUL has no name. -/
theorem IsDirent.eq_nil (h : IsDirent m a name) (hz : m (a + 18) = 0) : name = [] := by
  have hname := h.strcmp_name
  cases name with
  | nil => rfl
  | cons c name =>
    rw [strcmp, Bool.and_eq_true, beq_iff_eq, hz] at hname
    exact absurd (hname.1 ▸ List.mem_cons_self) h.1

theorem nameAt_eq_some (h0 : 0 ∉ name) (hlen : name.length < n) :
    nameAt m n a = some name ↔ strcmp m a name = true := by
  induction name generalizing n a with
  | nil =>
    obtain ⟨n, rfl⟩ := Nat.exists_eq_succ_of_ne_zero (show n ≠ 0 by omega)
    rw [nameAt, strcmp, beq_iff_eq]
    by_cases hz : m a = 0
    · simp [hz]
    · simp [hz]
  | cons c name ih =>
    obtain ⟨n, rfl⟩ := Nat.exists_eq_succ_of_ne_zero (show n ≠ 0 by omega)
    rw [List.length_cons] at hlen
    have hc : c ≠ 0 := fun hc => h0 (hc ▸ List.mem_cons_self)
    rw [nameAt, strcmp, Bool.and_eq_true, beq_iff_eq,
      ← ih (n := n) (fun hm => h0 (List.mem_cons_of_mem c hm)) (by omega)]
    by_cases hz : m a = 0
    · rw [if_pos hz]
      simp [hz, Ne.symm hc]
    · rw [if_neg hz]
      simp only [Option.map_eq_some_iff, List.cons.injEq]
      constructor
      · rintro ⟨x, hx, rfl, rfl⟩
        exact ⟨rfl, hx⟩
      · rintro ⟨rfl, hx⟩
        exact ⟨name, hx, rfl, rfl⟩

theorem nameAt_congr {m' : Mem} (h : ∀ x, a ≤ x → x < a + n → m' x = m x) :
    nameAt m' n a = nameAt m n a := by
  induction n generalizing a with
  | zero => rfl
  | succ n ih =>
    have hrest := ih (a := a + 1) fun x hlo hhi => h x (by omega) (by omega)
    rw [nameAt, nameAt, h a (Nat.le_refl a) (by omega), hrest]

/-- The name of a record that has just been written. -/
theorem nameAt_puts (h0 : 0 ∉ name) (hlen : name.length < 255) :
    nameAt (b.puts i (direntBytes name)).bytes 255 (i + 18) = some name := by
  rw [nameAt_eq_some h0 hlen]
  exact (isDirent_puts h0).strcmp_name

/-! ### A round of the loops -/

namespace DirentLoop

/-- No room for a record. -/
def Small (s : DirentLoop) : Prop := 0 ≤ s.count ∧ s.count < direntSize

instance (s : DirentLoop) : Decidable s.Small := inferInstanceAs (Decidable (_ ∧ _))

/-- A record is written, and stays if its name is a new one. -/
def write (s : DirentLoop) (c : List UInt8) : DirentLoop :=
  let b := s.buffer.puts s.buf (direntBytes c)
  if c ≠ s.prevDir then ⟨b, s.buf + direntSize, s.count - direntSize, c⟩ else { s with buffer := b }

/-- A header with the component `c` in the root directory. -/
def rootNext (s : DirentLoop) (c : List UInt8) : Option DirentLoop :=
  if s.Small then s.keep (s.buffer.putNul s.buf) else some (s.write c)

/-- A header with the component `c` in another directory. -/
def subNext (s : DirentLoop) (c : List UInt8) : DirentLoop :=
  if s.Small then { s with buffer := s.buffer.putNul s.buf } else s.write c

theorem keep_puts (h0 : 0 ∉ name) (hlen : name.length < 255) :
    s.keep (s.buffer.puts s.buf (direntBytes name)) = some (s.write name) := by
  rw [keep, nameAt_puts h0 hlen]
  rfl

theorem component_lt (h0 : 0 ∉ name) (hlen : name.length < 100) :
    0 ∉ component slash name ∧ (component slash name).length < 255 := by
  have hpre : component slash name <+: name := by
    have h := (List.prefix_append_right_inj (name.takeWhile (· ≠ slash))).mpr
      (List.take_prefix 1 (name.dropWhile (· ≠ slash)))
    rwa [List.takeWhile_append_dropWhile] at h
  refine ⟨fun hc => h0 (hpre.subset hc), ?_⟩
  have := hpre.length_le
  omega

end DirentLoop

/-- A record, if there is room for one. -/
theorem Buffer.getFirstDirentry_spec {s : DirentLoop} (h : strcmp m a name = true) (h0 : 0 ∉ name)
    (hlen : name.length < 255) : b.getFirstDirentry m i s.count a =
      if s.Small then some (false, b.putNul i)
      else some (true, b.puts i (direntBytes (component slash name))) := by
  unfold Buffer.getFirstDirentry
  rw [copyComponent_spec h h0 hlen, Option.map_some]
  rfl

theorem Buffer.getSubDirentry_spec {s : DirentLoop} (h : strcmp m a name = true) (h0 : 0 ∉ name)
    (hlen : name.length < 255) (hp : parent <+: name) : b.getSubDirentry m i s.count parent a =
      if s.Small then some (false, b.putNul i)
      else some (true, b.puts i (direntBytes (component slash (name.drop parent.length)))) := by
  induction parent generalizing a name with
  | nil => exact Buffer.getFirstDirentry_spec h h0 hlen
  | cons c parent ih =>
    obtain ⟨q, rfl⟩ := hp
    rw [List.cons_append] at h h0 hlen
    rw [strcmp, Bool.and_eq_true, beq_iff_eq] at h
    rw [Buffer.getSubDirentry, if_pos h.1.symm, ih h.2 (fun hm => h0 (List.mem_cons_of_mem c hm))
      (by rw [List.length_cons] at hlen; omega) (List.prefix_append parent q)]
    simp

namespace DirentLoop

/-- **The root directory**: the loop goes through the components of the headers. -/
theorem rootLoop_eq (h : Headers m finish a ns) (hfuel : ns.length < fuel) :
    rootLoop m finish fuel a s = (ns.map (component slash)).foldlM rootNext s := by
  -- induction on the headers; the round of a header is `rootNext`
  induction ns generalizing a fuel s with
  | nil =>
    obtain ⟨fuel, rfl⟩ := Nat.exists_eq_succ_of_ne_zero (show fuel ≠ 0 by omega)
    have hge : ¬ a < finish := Nat.not_lt.mpr h
    rw [rootLoop, if_neg hge]
    rfl
  | cons name ns ih =>
    obtain ⟨fuel, rfl⟩ := Nat.exists_eq_succ_of_ne_zero (show fuel ≠ 0 by omega)
    obtain ⟨hlt, hname, h0, hlen, -, hrest⟩ := h
    obtain ⟨hc0, hclen⟩ := component_lt h0 hlen
    have hround : (s.buffer.getFirstDirentry m s.buf s.count a).bind (fun r => s.keep r.2) =
        s.rootNext (component slash name) := by
      rw [Buffer.getFirstDirentry_spec hname h0 (by omega), rootNext]
      by_cases hsmall : s.Small
      · rw [if_pos hsmall, if_pos hsmall, Option.bind_some]
      · rw [if_neg hsmall, if_neg hsmall, Option.bind_some, keep_puts hc0 hclen]
    have hrest' : ∀ t, rootLoop m finish fuel (following m a) t =
        (ns.map (component slash)).foldlM rootNext t :=
      fun t => ih hrest (by rw [List.length_cons] at hfuel; omega)
    rw [rootLoop, if_pos hlt, List.map_cons, List.foldlM_cons, ← hround, Option.bind_eq_bind,
      Option.bind_assoc]
    simp only [hrest']

/-- **Another directory**: the loop goes through the components behind its name. -/
theorem subLoop_eq (h : Headers m finish a ns) (hfuel : ns.length < fuel) (hp : 0 ∉ parent)
    (hend : ∃ name ∈ ns, ¬ parent <+: name) :
    subLoop m finish parent fuel a s = some (true, (within parent ns).foldl subNext s) := by
  -- induction on the headers, up to the first that is not in the directory
  induction ns generalizing a fuel s with
  | nil =>
    obtain ⟨name, hmem, -⟩ := hend
    cases hmem
  | cons name ns ih =>
    obtain ⟨fuel, rfl⟩ := Nat.exists_eq_succ_of_ne_zero (show fuel ≠ 0 by omega)
    obtain ⟨hlt, hname, h0, hlen, -, hrest⟩ := h
    rw [subLoop, if_pos hlt]
    by_cases hpre : parent <+: name
    · have hend' : ∃ name ∈ ns, ¬ parent <+: name := by
        obtain ⟨x, hx, hnot⟩ := hend
        rcases List.mem_cons.mp hx with rfl | hx
        · exact absurd hpre hnot
        · exact ⟨x, hx, hnot⟩
      have hd0 : 0 ∉ name.drop parent.length := fun hc => h0 (List.mem_of_mem_drop hc)
      have hdlen : (name.drop parent.length).length < 100 := by
        rw [List.length_drop]
        omega
      obtain ⟨hc0, hclen⟩ := component_lt hd0 hdlen
      rw [if_pos ((startswith_iff hname hp).mpr hpre), within_cons hpre, List.foldl_cons]
      have hround : (s.buffer.getSubDirentry m s.buf s.count parent a).bind (fun r =>
          if r.1 then s.keep r.2 else some { s with buffer := r.2 }) =
            some (s.subNext (component slash (name.drop parent.length))) := by
        rw [Buffer.getSubDirentry_spec hname h0 (by omega) hpre, subNext]
        by_cases hsmall : s.Small
        · rw [if_pos hsmall, if_pos hsmall]
          rfl
        · rw [if_neg hsmall, if_neg hsmall, Option.bind_some, if_pos rfl, keep_puts hc0 hclen]
      have hfuel' : ns.length < fuel := by
        rw [List.length_cons] at hfuel
        omega
      rw [← ih hrest hfuel' hend', ← Option.bind_assoc, hround, Option.bind_some]
    · rw [if_neg fun hc => hpre ((startswith_iff hname hp).mp hc), within_cons_of_not hpre]
      rfl

theorem mem_of_mem_changes {γ : Type} [DecidableEq γ] {prev x : γ} {l : List γ}
    (h : x ∈ changes prev l) : x ∈ l := by
  induction l generalizing prev with
  | nil => exact h
  | cons y l ih =>
    rw [changes] at h
    split at h
    · exact List.mem_cons_of_mem y (ih h)
    · rcases List.mem_cons.mp h with rfl | h
      · exact List.mem_cons_self
      · exact List.mem_cons_of_mem y (ih h)

/-! ### What a round leaves alone -/

/-- `s'` is a later state: the records before `buf` are the same, and so is the end of the buffer
that `buf` and `count` give. -/
structure Later (s s' : DirentLoop) : Prop where
  buf : s.buf ≤ s'.buf
  sum : (s'.buf : Int) + s'.count = s.buf + s.count
  top : s.buffer.top ≤ s'.buffer.top
  bytes : ∀ x < s.buf, s'.buffer.bytes x = s.buffer.bytes x

theorem Later.refl (s : DirentLoop) : s.Later s := ⟨le_rfl, rfl, le_rfl, fun _ _ => rfl⟩

theorem Later.trans {t : DirentLoop} (h : s.Later s') (h' : s'.Later t) : s.Later t where
  buf := h.buf.trans h'.buf
  sum := h'.sum.trans h.sum
  top := h.top.trans h'.top
  bytes x hx := (h'.bytes x (lt_of_lt_of_le hx h.buf)).trans (h.bytes x hx)

theorem later_putNul (s : DirentLoop) : s.Later { s with buffer := s.buffer.putNul s.buf } :=
  ⟨le_rfl, rfl, le_max_left _ _, fun _ hx => Buffer.puts_of_out (.inl hx)⟩

theorem later_write (s : DirentLoop) (c : List UInt8) : s.Later (s.write c) := by
  have hbytes : ∀ x < s.buf, (s.buffer.puts s.buf (direntBytes c)).bytes x = s.buffer.bytes x :=
    fun x hx => Buffer.puts_of_out (.inl hx)
  unfold write
  dsimp only
  split
  · refine ⟨Nat.le_add_right _ _, ?_, le_max_left _ _, hbytes⟩
    push_cast
    ring
  · exact ⟨le_rfl, rfl, le_max_left _ _, hbytes⟩

theorem later_keep {b : Buffer} (h : s.Later { s with buffer := b }) (hs : s.keep b = some s') :
    s.Later s' := by
  unfold keep at hs
  obtain ⟨name, -, rfl⟩ := Option.map_eq_some_iff.mp hs
  split
  · refine ⟨Nat.le_add_right _ _, ?_, h.top, h.bytes⟩
    push_cast
    ring
  · exact h

theorem later_rootNext {c : List UInt8} (hs : s.rootNext c = some s') : s.Later s' := by
  unfold rootNext at hs
  split at hs
  · exact later_keep s.later_putNul hs
  · obtain rfl := Option.some.inj hs
    exact s.later_write c

theorem later_rootNexts (hs : cs.foldlM rootNext s = some s') : s.Later s' :=
  foldlM_invariant_prefix (I := fun _ t => s.Later t) (d := []) hs (.refl s)
    fun _ _ _ _ _ _ h hstep => h.trans (later_rootNext hstep)

theorem later_subNext (s : DirentLoop) (c : List UInt8) : s.Later (s.subNext c) := by
  unfold subNext
  split
  · exact s.later_putNul
  · exact s.later_write c

theorem later_subNexts (s : DirentLoop) (cs : List (List UInt8)) :
    s.Later (cs.foldl subNext s) := by
  induction cs generalizing s with
  | nil => exact .refl s
  | cons c cs ih => exact (s.later_subNext c).trans (ih _)

/-- **With room for a record**, a new name gets one, and an old one leaves the place to the next. -/
theorem write_new {c : List UInt8} (hc : c ≠ s.prevDir) : s.write c =
    ⟨s.buffer.puts s.buf (direntBytes c), s.buf + direntSize, s.count - direntSize, c⟩ :=
  if_pos hc

theorem write_old {c : List UInt8} (hc : c = s.prevDir) :
    s.write c = { s with buffer := s.buffer.puts s.buf (direntBytes c) } :=
  if_neg (not_not.mpr hc)

theorem write_top (s : DirentLoop) (c : List UInt8) :
    (s.write c).buffer.top = max s.buffer.top (s.buf + (c.length + 19)) := by
  rw [← direntBytes_length]
  unfold write
  dsimp only
  split <;> rfl

section Write

variable {c : List UInt8} {left : Nat}

theorem small_iff (hcount : s.count = left) : s.Small ↔ left < direntSize := by
  unfold Small
  omega

theorem write_new_buf (hc : c ≠ s.prevDir) : (s.write c).buf = s.buf + direntSize := by
  rw [write_new hc]

theorem write_new_prevDir (hc : c ≠ s.prevDir) : (s.write c).prevDir = c := by
  rw [write_new hc]

theorem write_new_count (hc : c ≠ s.prevDir) (hcount : s.count = left)
    (hroom : direntSize ≤ left) : (s.write c).count = (left - direntSize : Nat) := by
  rw [write_new hc, Nat.cast_sub hroom, ← hcount]

theorem write_old_buf (hc : c = s.prevDir) : (s.write c).buf = s.buf := by
  rw [write_old hc]

theorem write_old_prevDir (hc : c = s.prevDir) : (s.write c).prevDir = s.prevDir := by
  rw [write_old hc]

theorem write_old_count (hc : c = s.prevDir) (hcount : s.count = left) :
    (s.write c).count = left := by
  rw [write_old hc, hcount]

/-- A new record is there until the end. -/
theorem Later.isDirent (h : (s.write c).Later s') (hc : c ≠ s.prevDir) (hc0 : 0 ∉ c)
    (hclen : c.length < 255) : IsDirent s'.buffer.bytes s.buf c := by
  have hrecord : IsDirent (s.write c).buffer.bytes s.buf c := by
    rw [write_new hc]
    exact isDirent_puts hc0
  refine hrecord.congr hclen fun x _ hhi => h.bytes x ?_
  rw [write_new_buf hc]
  exact hhi

end Write

/-! ### Another directory than the root -/

/-- Characters and lengths of components. -/
def Components (cs : List (List UInt8)) : Prop := ∀ c ∈ cs, 0 ∉ c ∧ c.length < 255

/-- **The records of a directory**: the new names, as far as there is room. -/
theorem subNexts_records (left : Nat) (hcs : Components cs) (hcount : s.count = left) :
    let kept := (changes s.prevDir cs).take (left / direntSize)
    (cs.foldl subNext s).buf = s.buf + direntSize * kept.length ∧
      IsDirents (cs.foldl subNext s).buffer.bytes s.buf kept := by
  -- induction on the components; the later rounds leave a record alone
  induction cs generalizing s left with
  | nil => exact ⟨by simp [changes], by simp [changes, IsDirents]⟩
  | cons c cs ih =>
    obtain ⟨⟨hc0, hclen⟩, hrest⟩ := List.forall_mem_cons.mp hcs
    rw [List.foldl_cons]
    by_cases hsmall : s.Small
    · -- no record fits any more
      have hzero : left / direntSize = 0 := Nat.div_eq_of_lt ((small_iff hcount).mp hsmall)
      have hnext : s.subNext c = { s with buffer := s.buffer.putNul s.buf } := if_pos hsmall
      have := ih (s := s.subNext c) left hrest (by rw [hnext, hcount])
      rw [hnext] at this ⊢
      simp only [hzero, List.take_zero] at this ⊢
      exact this
    have hnext : s.subNext c = s.write c := if_neg hsmall
    have hroom : direntSize ≤ left :=
      Nat.le_of_not_lt fun hlt => hsmall ((small_iff hcount).mpr hlt)
    by_cases hc : c = s.prevDir
    · have := ih (s := s.subNext c) left hrest (by rw [hnext, write_old hc, hcount])
      rw [hnext, write_old hc] at this ⊢
      rw [changes, if_pos hc]
      exact this
    · obtain ⟨hb, hrec⟩ := ih (s := s.write c) (left - direntSize) hrest
        (write_new_count hc hcount hroom)
      rw [write_new_prevDir hc, write_new_buf hc] at hb hrec
      rw [hnext, changes, if_neg hc, Nat.div_eq_sub_div (by decide) hroom, List.take_succ_cons]
      refine ⟨?_, (later_subNexts (s.write c) cs).isDirent hc hc0 hclen, hrec⟩
      rw [hb, List.length_cons, Nat.mul_succ]
      omega

/-- The places before an element of a list. -/
theorem forall_before_cons {γ : Type} {P : List γ → Prop} {c : γ} {l : List γ} :
    (∀ pre x suf, c :: l = pre ++ x :: suf → P pre) ↔
      P [] ∧ ∀ pre x suf, l = pre ++ x :: suf → P (c :: pre) := by
  constructor
  · intro h
    exact ⟨h [] c l rfl, fun pre x suf hl => h (c :: pre) x suf (by rw [hl]; rfl)⟩
  · rintro ⟨hnil, hcons⟩ pre x suf hl
    cases pre with
    | nil => exact hnil
    | cons d pre =>
      rw [List.cons_append, List.cons.injEq] at hl
      obtain ⟨rfl, hl⟩ := hl
      exact hcons pre x suf hl

/-- **The end of the buffer is passed** exactly if a header follows when no byte is left. -/
theorem subNexts_top (left : Nat) (hcs : Components cs) (hcount : s.count = left)
    (htop : s.buffer.top ≤ s.buf + left) :
    (cs.foldl subNext s).buffer.top ≤ s.buf + left ↔
      ∀ pre c suf, cs = pre ++ c :: suf →
        direntSize * (changes s.prevDir pre).length ≠ left := by
  induction cs generalizing s left with
  | nil => exact iff_of_true htop fun pre c suf hl => absurd hl (by simp)
  | cons c cs ih =>
    obtain ⟨⟨-, hclen⟩, hrest⟩ := List.forall_mem_cons.mp hcs
    rw [List.foldl_cons]
    by_cases hsmall : s.Small
    · have hnext : s.subNext c = { s with buffer := s.buffer.putNul s.buf } := if_pos hsmall
      have hlt : left < direntSize := (small_iff hcount).mp hsmall
      have htop' : (s.subNext c).buffer.top = max s.buffer.top (s.buf + 1) := by rw [hnext]; rfl
      by_cases h0 : left = 0
      · -- the NUL byte lies behind the buffer
        subst h0
        have hlater := (later_subNexts (s.subNext c) cs).top
        refine iff_of_false (fun hle => ?_) fun hall => hall [] c cs rfl rfl
        omega
      · have hnever : ∀ n, direntSize * n ≠ left := by
          unfold direntSize at hlt ⊢
          omega
        have hbuf : (s.subNext c).buf = s.buf := by rw [hnext]
        have := (ih (s := s.subNext c) left hrest (by rw [hnext, hcount])
          (by omega)).mpr fun _ _ _ _ => hnever _
        rw [hbuf] at this
        exact iff_of_true this fun _ _ _ _ => hnever _
    have hnext : s.subNext c = s.write c := if_neg hsmall
    have hroom : direntSize ≤ left :=
      Nat.le_of_not_lt fun hlt => hsmall ((small_iff hcount).mpr hlt)
    have hne : direntSize * (changes s.prevDir []).length ≠ left := by
      rw [changes, List.length_nil]
      unfold direntSize at hroom
      omega
    have htop' : (s.write c).buffer.top ≤ s.buf + left := by
      have hlen := s.write_top c
      unfold direntSize at hroom
      omega
    rw [hnext, forall_before_cons, and_iff_right hne]
    by_cases hc : c = s.prevDir
    · have hbuf := write_old_buf hc
      have := ih (s := s.write c) left hrest (write_old_count hc hcount) (by rwa [hbuf])
      rw [hbuf, write_old_prevDir hc] at this
      simp only [changes, if_pos hc]
      exact this
    · have hbuf := write_new_buf hc
      have := ih (s := s.write c) (left - direntSize) hrest (write_new_count hc hcount hroom)
        (by rw [hbuf]; omega)
      rw [hbuf, write_new_prevDir hc,
        show s.buf + direntSize + (left - direntSize) = s.buf + left by omega] at this
      rw [this]
      -- one record more on both sides
      simp only [changes, if_neg hc, List.length_cons, Nat.mul_succ]
      refine forall_congr' fun pre => forall_congr' fun x => forall_congr' fun suf =>
        imp_congr_right fun _ => ?_
      omega

/-! ### The root directory -/

/-- **The loop is stuck** when `d_name` holds the last name by chance: nothing but the NUL byte is
written. -/
theorem rootNexts_stuck {left : Nat} (hcount : s.count = left) (hlt : left < direntSize)
    (hname : nameAt s.buffer.bytes 255 (s.buf + 18) = some s.prevDir)
    (cs : List (List UInt8)) : ∃ b, cs.foldlM rootNext s = some { s with buffer := b } ∧
      b.top ≤ max s.buffer.top (s.buf + 1) ∧ ∀ x ≠ s.buf, b.bytes x = s.buffer.bytes x := by
  induction cs generalizing s with
  | nil => exact ⟨s.buffer, rfl, le_max_left _ _, fun _ _ => rfl⟩
  | cons c cs ih =>
    -- the byte at `buf` is not one of `d_name`
    have hsmall : s.Small := (small_iff hcount).mpr hlt
    have hout : ∀ x ≠ s.buf, (s.buffer.putNul s.buf).bytes x = s.buffer.bytes x := by
      intro x hx
      refine Buffer.puts_of_out ?_
      rw [List.length_singleton]
      omega
    have hname' : nameAt (s.buffer.putNul s.buf).bytes 255 (s.buf + 18) = some s.prevDir := by
      rw [nameAt_congr fun x hlo _ => hout x (by omega), hname]
    have hround : s.rootNext c = some { s with buffer := s.buffer.putNul s.buf } := by
      rw [rootNext, if_pos hsmall, keep, hname', Option.map_some, if_neg (not_not.mpr rfl)]
    obtain ⟨b, hb, htop, hbytes⟩ :=
      ih (s := { s with buffer := s.buffer.putNul s.buf }) hcount hname'
    refine ⟨b, ?_, ?_, fun x hx => (hbytes x hx).trans (hout x hx)⟩
    · rw [List.foldlM_cons, hround]
      exact hb
    · have : (s.buffer.putNul s.buf).top = max s.buffer.top (s.buf + 1) := rfl
      simp only [this] at htop
      omega

/-- The same name again and again. -/
theorem rootNexts_old (left : Nat) (hcount : s.count = left) (hroom : direntSize ≤ left)
    (hcs : ∀ c ∈ cs, c = s.prevDir) (hlen : s.prevDir.length < 255) :
    ∃ b, cs.foldlM rootNext s = some { s with buffer := b } ∧
      b.top ≤ max s.buffer.top (s.buf + direntSize) := by
  induction cs generalizing s with
  | nil => exact ⟨s.buffer, rfl, le_max_left _ _⟩
  | cons c cs ih =>
    -- the record is written once more, and `buf` stays
    have hlarge : ¬ s.Small := fun hsmall => absurd ((small_iff hcount).mp hsmall) (by omega)
    have hround : s.rootNext c =
        some { s with buffer := s.buffer.puts s.buf (direntBytes c) } := by
      rw [rootNext, if_neg hlarge, write_old (hcs c List.mem_cons_self)]
    obtain ⟨b, hb, htop⟩ := ih (s := { s with buffer := s.buffer.puts s.buf (direntBytes c) })
      hcount (fun c' hc' => hcs c' (List.mem_cons_of_mem c hc')) hlen
    refine ⟨b, ?_, ?_⟩
    · rw [List.foldlM_cons, hround]
      exact hb
    · have hputs : (s.buffer.puts s.buf (direntBytes c)).top =
          max s.buffer.top (s.buf + (c.length + 19)) := by
        rw [← direntBytes_length]
        rfl
      have hc := hcs c List.mem_cons_self
      rw [← hc] at hlen
      simp only [hputs] at htop
      unfold direntSize at htop ⊢
      omega

/-- What the buffer has to hold at the first `d_name` that there is no room for: the last name. -/
def LastName (m : Mem) (buf left : Nat) (prev : List UInt8) (cs : List (List UInt8)) : Prop :=
  left / direntSize ≤ (changes prev cs).length ∧ left % direntSize ≠ 0 ∧
    nameAt m 255 (buf + direntSize * (left / direntSize) + 18) =
      some ((prev :: changes prev cs).getD (left / direntSize) [])

/-- A record does not reach the place of the next one. -/
theorem write_bytes {c : List UInt8} (hclen : c.length < 255) (hx : s.buf + direntSize ≤ x) :
    (s.write c).buffer.bytes x = s.buffer.bytes x := by
  have hout : (s.buffer.puts s.buf (direntBytes c)).bytes x = s.buffer.bytes x := by
    refine Buffer.puts_of_out (.inr ?_)
    rw [direntBytes_length]
    unfold direntSize at hx
    omega
  unfold write
  dsimp only
  split <;> exact hout

theorem lastName_old {left : Nat} {c : List UInt8} (hclen : c.length < 255)
    (hroom : direntSize ≤ left) (hc : c = s.prevDir) :
    LastName (s.write c).buffer.bytes s.buf left s.prevDir cs ↔
      LastName s.buffer.bytes s.buf left s.prevDir (c :: cs) := by
  have hpos : 0 < left / direntSize := Nat.div_pos hroom (by decide)
  have hle : direntSize ≤ direntSize * (left / direntSize) := Nat.le_mul_of_pos_right _ hpos
  unfold LastName
  rw [changes, if_pos hc, nameAt_congr fun x hlo _ => write_bytes hclen (by omega)]

theorem lastName_new {left : Nat} {c : List UInt8} (hclen : c.length < 255)
    (hroom : direntSize ≤ left) (hc : c ≠ s.prevDir) :
    LastName (s.write c).buffer.bytes (s.buf + direntSize) (left - direntSize) c cs ↔
      LastName s.buffer.bytes s.buf left s.prevDir (c :: cs) := by
  unfold LastName
  rw [changes, if_neg hc, ← Nat.mod_eq_sub_mod hroom, Nat.div_eq_sub_div (by decide) hroom,
    List.length_cons, List.getD_cons_succ, Nat.mul_succ,
    nameAt_congr fun x hlo _ => write_bytes hclen (by omega),
    show s.buf + direntSize + direntSize * ((left - direntSize) / direntSize) + 18 =
      s.buf + (direntSize * ((left - direntSize) / direntSize) + direntSize) + 18 by omega,
    Nat.succ_le_succ_iff]

/-- No room for another record. -/
theorem rootNexts_full {left : Nat} (hcount : s.count = left) (hlt : left < direntSize)
    (hlast : LastName s.buffer.bytes s.buf left s.prevDir cs) (l : List (List UInt8)) :
    ∃ s', l.foldlM rootNext s = some s' ∧
      s'.buf = s.buf + direntSize * (left / direntSize) ∧ s'.count = (left % direntSize : Nat) ∧
      s'.buffer.top ≤ max s.buffer.top (s.buf + left) ∧
      IsDirents s'.buffer.bytes s.buf ((changes s.prevDir cs).take (left / direntSize)) := by
  obtain ⟨-, hmod, hname⟩ := hlast
  have hzero : left / direntSize = 0 := Nat.div_eq_of_lt hlt
  rw [Nat.mod_eq_of_lt hlt] at hmod ⊢
  rw [hzero] at hname ⊢
  obtain ⟨b, hb, htop, -⟩ := rootNexts_stuck hcount hlt hname l
  refine ⟨_, hb, rfl, hcount, ?_, trivial⟩
  dsimp only
  omega

/-- **With the last name in the buffer by chance** the loop stops there. -/
theorem rootNexts_good (left : Nat) (rest : List (List UInt8)) (hcs : Components cs)
    (hcount : s.count = left) (hlast : LastName s.buffer.bytes s.buf left s.prevDir cs) :
    ∃ s', (cs ++ rest).foldlM rootNext s = some s' ∧
      s'.buf = s.buf + direntSize * (left / direntSize) ∧ s'.count = (left % direntSize : Nat) ∧
      s'.buffer.top ≤ max s.buffer.top (s.buf + left) ∧
      IsDirents s'.buffer.bytes s.buf ((changes s.prevDir cs).take (left / direntSize)) := by
  -- induction on the components, as long as there is room
  induction cs generalizing s left with
  | nil =>
    have hle := hlast.1
    rw [changes, List.length_nil, Nat.le_zero, Nat.div_eq_zero_iff] at hle
    exact rootNexts_full hcount (hle.resolve_left (by decide)) hlast rest
  | cons c cs ih =>
    obtain ⟨⟨hc0, hclen⟩, hrest⟩ := List.forall_mem_cons.mp hcs
    by_cases hlt : left < direntSize
    · exact rootNexts_full hcount hlt hlast (c :: cs ++ rest)
    have hroom : direntSize ≤ left := Nat.le_of_not_lt hlt
    have hlarge : ¬ s.Small := fun hsmall => absurd ((small_iff hcount).mp hsmall) (by omega)
    have hround : s.rootNext c = some (s.write c) := if_neg hlarge
    have htop : (s.write c).buffer.top ≤ max s.buffer.top (s.buf + left) := by
      have := s.write_top c
      unfold direntSize at hroom
      omega
    rw [List.cons_append, List.foldlM_cons, hround]
    change ∃ s', (cs ++ rest).foldlM rootNext (s.write c) = some s' ∧ _
    by_cases hc : c = s.prevDir
    · have hbuf := write_old_buf hc
      have hprev := write_old_prevDir hc
      obtain ⟨s', hs', hb, hn, ht, hr⟩ := ih (s := s.write c) left hrest
        (write_old_count hc hcount)
        (by rw [hbuf, hprev]; exact (lastName_old hclen hroom hc).mpr hlast)
      rw [hbuf] at hb ht hr
      rw [hprev] at hr
      refine ⟨s', hs', hb, hn, by omega, ?_⟩
      rw [changes, if_pos hc]
      exact hr
    · have hbuf := write_new_buf hc
      have hprev := write_new_prevDir hc
      obtain ⟨s', hs', hb, hn, ht, hr⟩ := ih (s := s.write c) (left - direntSize) hrest
        (write_new_count hc hcount hroom)
        (by rw [hbuf, hprev]; exact (lastName_new hclen hroom hc).mpr hlast)
      have hdiv := Nat.div_eq_sub_div (show 0 < direntSize by decide) hroom
      rw [hbuf] at hb ht hr
      rw [hprev] at hr
      rw [← Nat.mod_eq_sub_mod hroom] at hn
      refine ⟨s', hs', ?_, hn, by omega, ?_⟩
      · rw [hb, hdiv, Nat.mul_succ]
        omega
      · -- the later rounds leave the record alone
        rw [changes, if_neg hc, hdiv, List.take_succ_cons]
        exact ⟨(later_rootNexts hs').isDirent hc hc0 hclen, hr⟩

/-- The loop has gone wrong: it has passed the end of the buffer, or the count has become negative,
or there is a record without a name. -/
def Wrong (buf left : Nat) (s' : DirentLoop) : Prop :=
  buf + left < s'.buffer.top ∨ s'.count < 0 ∧ left % direntSize ≠ 0 ∨
    ∃ q, buf + direntSize * (q + 1) ≤ s'.buf ∧ direntSize * (q + 1) ≤ left ∧
      s'.buffer.bytes (buf + direntSize * q + 18) = 0

theorem Wrong.next {buf left : Nat} (hroom : direntSize ≤ left)
    (h : Wrong (buf + direntSize) (left - direntSize) s') : Wrong buf left s' := by
  rcases h with h | ⟨h, hne⟩ | ⟨q, hbuf, hleft, hz⟩
  · exact .inl (by omega)
  · exact .inr (.inl ⟨h, by rwa [Nat.mod_eq_sub_mod hroom]⟩)
  · refine .inr (.inr ⟨q + 1, ?_, ?_, ?_⟩)
    · rw [Nat.mul_succ]
      omega
    · rw [Nat.mul_succ]
      omega
    · rw [Nat.mul_succ, show buf + (direntSize * q + direntSize) + 18 =
        buf + direntSize + direntSize * q + 18 by omega]
      exact hz

/-- Where there is no room, and `d_name` is another name or no byte is left. -/
theorem rootNexts_wrong_full {left : Nat} {d : List UInt8} {l : List (List UInt8)}
    (hcount : s.count = left) (hlt : left < direntSize)
    (hlast : ¬ LastName s.buffer.bytes s.buf left s.prevDir cs)
    (hs : (d :: l).foldlM rootNext s = some s') : Wrong s.buf left s' := by
  have hsmall : s.Small := (small_iff hcount).mpr hlt
  rw [List.foldlM_cons, rootNext, if_pos hsmall] at hs
  obtain ⟨t, ht, hs⟩ := Option.bind_eq_some_iff.mp hs
  have hlater := later_rootNexts hs
  unfold keep at ht
  obtain ⟨name, hname, rfl⟩ := Option.map_eq_some_iff.mp ht
  have htop : (s.buffer.putNul s.buf).top = max s.buffer.top (s.buf + 1) := rfl
  by_cases h0 : left = 0
  · -- the NUL byte is behind the buffer
    have := hlater.top
    split at this
    · simp only [htop] at this
      exact .inl (by omega)
    · simp only [htop] at this
      exact .inl (by omega)
  · -- the count becomes negative
    have hzero : left / direntSize = 0 := Nat.div_eq_of_lt hlt
    have hmod : left % direntSize = left := Nat.mod_eq_of_lt hlt
    have hne : name ≠ s.prevDir := by
      rintro rfl
      refine hlast ⟨by omega, by omega, ?_⟩
      rw [hzero, List.getD_cons_zero, ← hname]
      exact nameAt_congr fun x hlo _ => (Buffer.puts_of_out (.inr (by
        rw [List.length_singleton]
        omega))).symm
    rw [if_pos hne] at hlater
    refine .inr (.inl ⟨?_, by omega⟩)
    have hbuf := hlater.buf
    have hsum := hlater.sum
    simp only at hbuf hsum
    omega

/-- **Otherwise it goes wrong**, since the headers behind the entries have no name. -/
theorem rootNexts_wrong (left : Nat) {rest : List (List UInt8)} (hcs : Components cs)
    (hne : [] ∉ cs) (hcount : s.count = left)
    (hlast : ¬ LastName s.buffer.bytes s.buf left s.prevDir cs)
    (hprev : left < direntSize ∨ s.prevDir ≠ [] ∨ cs ≠ [])
    (hs : (cs ++ [] :: rest).foldlM rootNext s = some s') : Wrong s.buf left s' := by
  induction cs generalizing s left with
  | nil =>
    by_cases hlt : left < direntSize
    · exact rootNexts_wrong_full hcount hlt hlast hs
    have hroom : direntSize ≤ left := Nat.le_of_not_lt hlt
    have hlarge : ¬ s.Small := fun hsmall => absurd ((small_iff hcount).mp hsmall) (by omega)
    have hnew : [] ≠ s.prevDir := by
      rcases hprev with h | h | h
      · exact absurd h hlt
      · exact h.symm
      · exact absurd rfl h
    -- a record without a name
    rw [List.nil_append, List.foldlM_cons, rootNext, if_neg hlarge, write_new hnew] at hs
    have hlater := later_rootNexts hs
    refine .inr (.inr ⟨0, ?_, ?_, ?_⟩)
    · have := hlater.buf
      simp only at this
      omega
    · omega
    · rw [hlater.bytes _ (by simp only; unfold direntSize; omega)]
      have hempty : IsDirent (s.buffer.puts s.buf (direntBytes [])).bytes s.buf [] :=
        isDirent_puts List.not_mem_nil
      have := hempty.strcmp_name
      rw [strcmp, beq_iff_eq] at this
      exact this
  | cons c cs ih =>
    obtain ⟨⟨-, hclen⟩, hrest⟩ := List.forall_mem_cons.mp hcs
    have hne' : [] ∉ cs := fun hm => hne (List.mem_cons_of_mem c hm)
    by_cases hlt : left < direntSize
    · exact rootNexts_wrong_full hcount hlt hlast hs
    have hroom : direntSize ≤ left := Nat.le_of_not_lt hlt
    have hlarge : ¬ s.Small := fun hsmall => absurd ((small_iff hcount).mp hsmall) (by omega)
    have hround : s.rootNext c = some (s.write c) := if_neg hlarge
    rw [List.cons_append, List.foldlM_cons, hround] at hs
    change (cs ++ [] :: rest).foldlM rootNext (s.write c) = some s' at hs
    have hcne : c ≠ [] := fun hc => hne (hc ▸ List.mem_cons_self)
    by_cases hc : c = s.prevDir
    · have hbuf := write_old_buf hc
      have hprev' := write_old_prevDir hc
      have := ih (s := s.write c) left hrest hne' (write_old_count hc hcount)
        (by rw [hbuf, hprev']; exact fun h => hlast ((lastName_old hclen hroom hc).mp h))
        (.inr (.inl (by rw [hprev', ← hc]; exact hcne))) hs
      rwa [hbuf] at this
    · have hbuf := write_new_buf hc
      have hprev' := write_new_prevDir hc
      have := ih (s := s.write c) (left - direntSize) hrest hne'
        (write_new_count hc hcount hroom)
        (by rw [hbuf, hprev']; exact fun h => hlast ((lastName_new hclen hroom hc).mp h))
        (.inr (.inl (by rw [hprev']; exact hcne))) hs
      rw [hbuf] at this
      exact this.next hroom

/-! ### What the caller gets -/

theorem result_top (s : DirentLoop) (n : Nat) : s.buffer.top ≤ (s.result n).2.top := by
  unfold result
  dsimp only
  split
  · exact le_max_left _ _
  · exact le_rfl

theorem result_bytes (n : Nat) (hx : x < s.buf) :
    (s.result n).2.bytes x = s.buffer.bytes x := by
  unfold result
  dsimp only
  split
  · exact Buffer.puts_of_out (.inl hx)
  · rfl

variable {children : List (List UInt8)} {count : Nat}

/-- Records of children, and the rest of the buffer behind them. -/
theorem direntsInBuffer_of_records (names : List (List UInt8)) (left : Nat)
    (hbuf : s.buf = direntSize * names.length)
    (hcount : s.count = left) (hsum : direntSize * names.length + left = count)
    (htop : s.buffer.top ≤ count) (hrec : IsDirents s.buffer.bytes 0 names)
    (hcs : Components names) (hchildren : ∀ name ∈ names, name ∈ children) :
    DirentsInBuffer count children (s.result count).1 (s.result count).2 := by
  have hr : (s.result count).1 = direntSize * names.length := by
    have hneg : ¬ s.count < 0 := by omega
    simp only [result, hcount]
    omega
  refine ⟨?_, by omega, names, hr, ?_, hchildren⟩
  · unfold result
    dsimp only
    split
    · -- the NUL byte behind the records
      have : (s.buffer.putNul s.buf).top = max s.buffer.top (s.buf + 1) := rfl
      rw [this]
      omega
    · exact htop
  · refine hrec.congr (fun n hn => (hcs n hn).2) fun x _ hhi => result_bytes count ?_
    omega

theorem Wrong.not_inBuffer (h : Wrong 0 count s) (hsum : (s.buf : Int) + s.count = count)
    (hnil : [] ∉ children) :
    ¬ DirentsInBuffer count children (s.result count).1 (s.result count).2 := by
  rintro ⟨htop, -, names, hr, hrec, hchildren⟩
  have hle := s.result_top count
  have hfst : (s.result count).1 = if s.count < 0 then count else s.buf := by
    unfold result
    dsimp only
    split <;> omega
  rcases h with h | ⟨hneg, hmod⟩ | ⟨q, hbuf, hleft, hz⟩
  · omega
  · -- the result is `count`, which is no whole number of records
    rw [hfst, if_pos hneg] at hr
    rw [hr, Nat.mul_mod_right] at hmod
    exact hmod rfl
  · -- record `q` has no name
    have hq : q < names.length := by
      have : direntSize * (q + 1) ≤ direntSize * names.length := by
        rw [← hr, hfst]
        split <;> omega
      exact Nat.le_of_mul_le_mul_left this (by decide)
    have hdirent := hrec.get hq
    have hbyte : (s.result count).2.bytes (0 + direntSize * q + 18) = 0 := by
      rw [← hz]
      refine result_bytes count ?_
      rw [Nat.mul_succ] at hbuf
      unfold direntSize at hbuf ⊢
      omega
    have hempty := hdirent.eq_nil hbyte
    exact hnil (hempty ▸ hchildren _ (List.getElem_mem hq))

end DirentLoop

/-! ### Whole directories -/

theorem Headers.mem_names (h : Headers m finish a ns) :
    ∀ name ∈ ns, 0 ∉ name ∧ name.length < 100 := by
  induction ns generalizing a with
  | nil => exact fun name hn => absurd hn List.not_mem_nil
  | cons n ns ih =>
    obtain ⟨-, -, h0, hlen, -, hrest⟩ := h
    intro name hn
    rcases List.mem_cons.mp hn with rfl | hn
    · exact ⟨h0, hlen⟩
    · exact ih hrest name hn

/-- **The root directory fits** if it is empty and there is room for a record, or if the buffer
holds the last name by chance where there is no room any more. -/
def RootFits (children : List (List UInt8)) (count : Nat) (bytes : Mem) : Prop :=
  children = [] ∧ direntSize ≤ count ∨
    count / direntSize ≤ children.length ∧ count % direntSize ≠ 0 ∧
      nameAt bytes 255 (direntSize * (count / direntSize) + 18) =
        some (([] :: children).getD (count / direntSize) [])

/-- **Another directory fits** unless an entry follows when the records are as long as the buffer;
`firsts` are the names in the directory to which the entries lead. -/
def SubFits (firsts : List (List UInt8)) (count : Nat) : Prop :=
  ∀ pre x suf, firsts = pre ++ x :: suf → direntSize * (changes [] pre).length ≠ count

/-- The names in the directory `d` to which the entries inside it lead. -/
def firstNames (inside : Forest UInt8 (List UInt8)) (d : List UInt8) : List (List UInt8) :=
  (inside.paths slash d).map fun p => component slash (p.1.drop d.length)

variable {t inside : Forest UInt8 (List UInt8)} {k task count addr : Nat} {fd : Int} {bytes : Mem}
  {f : Files} {d : List UInt8}

open Files DirentLoop

theorem changes_firstNames (hin : inside.Proper slash) :
    changes [] (firstNames inside d) = inside.children slash :=
  changes_paths hin (nil_notMem_children hin)

theorem nil_notMem_firstNames (hin : inside.Proper slash) : [] ∉ firstNames inside d := by
  intro hc
  obtain ⟨p, hp, heq⟩ := List.mem_map.mp hc
  exact component_ne_nil hin hp heq

theorem components_firstNames {after : List (List UInt8)}
    (h : Headers m finish a ((inside.paths slash d).map Prod.fst ++ after)) :
    Components (firstNames inside d) := by
  intro c hc
  obtain ⟨p, hp, rfl⟩ := List.mem_map.mp hc
  obtain ⟨h0, hlen⟩ := h.mem_names p.1
    (List.mem_append_left _ (List.mem_map_of_mem (f := Prod.fst) hp))
  refine component_lt (fun hc => h0 (List.mem_of_mem_drop hc)) ?_
  rw [List.length_drop]
  omega

/-- A directory without children has no entries inside it. -/
theorem children_eq_nil_iff (hin : inside.Proper slash) :
    inside.children slash = [] ↔ firstNames inside d = [] := by
  rw [← changes_firstNames (d := d) hin]
  constructor
  · intro h
    cases hl : firstNames inside d with
    | nil => rfl
    | cons c cs =>
      have hc : c ≠ [] := fun hc =>
        nil_notMem_firstNames (d := d) hin (by rw [hl, hc]; exact List.mem_cons_self)
      rw [hl, changes, if_neg hc] at h
      cases h
  · intro h
    rw [h, changes]

/-- The root directory. -/
theorem Files.TreeArchive.direntBuffer_root (hT : TreeArchive m ar t k) (hfd : 0 ≤ fd)
    (haddr : f.getFdAddress task fd.toNat = some addr) (hne : addr ≠ 0)
    (hname : (f.fds addr).name = [slash]) (hstart : (f.fds addr).start = ar.start) :
    (∃ r b, f.direntBuffer m ar task fd count bytes = some (r, b) ∧
      DirentsInBuffer count (t.children slash) r b) ↔ RootFits (t.children slash) count bytes := by
  have hlow : 512 ≤ ar.start := le_trans (by unfold kernbase; omega) hT.kernel
  have hnil : component slash ([] : List UInt8) = [] := rfl
  obtain ⟨k, rfl⟩ := Nat.exists_eq_succ_of_ne_zero (Nat.pos_iff_ne_zero.mp hT.zeros_pos)
  have hchildren : changes [] (firstNames t []) = t.children slash := changes_firstNames hT.proper
  have hcs : Components (firstNames t []) := components_firstNames hT.headers
  have hempty : t.children slash = [] ↔ firstNames t [] = [] := children_eq_nil_iff hT.proper
  -- the run
  set l : DirentLoop := ⟨⟨bytes, 0⟩, 0, count, []⟩ with hl
  have hrun : f.direntBuffer m ar task fd count bytes =
      ((firstNames t [] ++ [] :: List.replicate k []).foldlM rootNext l).map
        fun l : DirentLoop => l.result count := by
    unfold Files.direntBuffer
    rw [if_neg (not_lt.mpr hfd), haddr, Option.bind_some, if_neg hne, hname, if_pos rfl, hstart,
      rootLoop_eq hT.headers (hT.headers.length_lt_fuel hlow), List.map_append, List.map_map,
      List.map_replicate, hnil, List.replicate_succ]
    rfl
  rw [hrun]
  have hlast : LastName bytes 0 count [] (firstNames t []) ↔
      count / direntSize ≤ (t.children slash).length ∧ count % direntSize ≠ 0 ∧
        nameAt bytes 255 (direntSize * (count / direntSize) + 18) =
          some (([] :: t.children slash).getD (count / direntSize) []) := by
    rw [LastName, hchildren, Nat.zero_add]
  rw [RootFits, ← hlast]
  constructor
  · rintro ⟨r, b, hs, hin⟩
    obtain ⟨s', hs', hresult⟩ := Option.map_eq_some_iff.mp hs
    by_contra hc
    rw [not_or] at hc
    obtain ⟨hc₁, hc₂⟩ := hc
    -- the loop has gone wrong
    have hprev : count < direntSize ∨ l.prevDir ≠ [] ∨ firstNames t [] ≠ [] := by
      by_cases hlt : count < direntSize
      · exact .inl hlt
      · refine .inr (.inr fun h => hc₁ ⟨hempty.mpr h, by omega⟩)
    have hwrong :=
      rootNexts_wrong (s := l) count hcs (nil_notMem_firstNames hT.proper) rfl hc₂ hprev hs'
    have hsum := (later_rootNexts hs').sum
    refine hwrong.not_inBuffer ?_ (nil_notMem_children hT.proper) ?_
    · rw [hsum, hl]
      simp
    · rw [hresult]
      exact hin
  · rintro (⟨hnone, hroom⟩ | hfits)
    · -- an empty archive
      have hall : ∀ c ∈ firstNames t [] ++ [] :: List.replicate k [], c = l.prevDir := by
        rw [hempty.mp hnone, List.nil_append, ← List.replicate_succ]
        exact fun c hc => List.eq_of_mem_replicate hc
      obtain ⟨b, hs, htop⟩ := rootNexts_old (s := l) count rfl hroom hall (by simp [hl])
      rw [hs]
      refine ⟨_, _, rfl, direntsInBuffer_of_records [] count rfl rfl
        (by simp) ?_ trivial (fun c hc => absurd hc List.not_mem_nil)
        fun c hc => absurd hc List.not_mem_nil⟩
      refine le_trans htop ?_
      simp only [hl]
      omega
    · obtain ⟨s', hs, hbuf, hcount, htop, hrec⟩ :=
        rootNexts_good (s := l) count ([] :: List.replicate k []) hcs rfl hfits
      obtain ⟨hle, -, -⟩ := hfits
      have hlen : ((changes [] (firstNames t [])).take (count / direntSize)).length =
          count / direntSize := by
        rw [List.length_take]
        omega
      rw [hs]
      refine ⟨_, _, rfl, ?_⟩
      refine direntsInBuffer_of_records ((changes [] (firstNames t [])).take (count / direntSize)) _
        ?_ hcount ?_ ?_ hrec ?_ ?_
      · rw [hlen, hbuf, hl, Nat.zero_add]
      · rw [hlen]
        exact Nat.div_add_mod count direntSize
      · simp only [hl] at htop
        omega
      · exact fun c hc => hcs c (mem_of_mem_changes (List.mem_of_mem_take hc))
      · rw [hchildren]
        exact fun c hc => List.mem_of_mem_take hc

/-- Another directory. -/
theorem Files.TreeArchive.direntBuffer_sub (hT : TreeArchive m ar t k)
    (hd : (d, inside) ∈ t.dirs slash []) (hfd : 0 ≤ fd)
    (haddr : f.getFdAddress task fd.toNat = some addr) (hne : addr ≠ 0)
    (hname : (f.fds addr).name = d)
    (hstart : directoryStart ar t d = some (f.fds addr).start) :
    (∃ r b, f.direntBuffer m ar task fd count bytes = some (r, b) ∧
      DirentsInBuffer count (inside.children slash) r b) ↔ SubFits (firstNames inside d) count := by
  obtain ⟨a, after, hin⟩ := hT.inArchive hd
  obtain ⟨hslash, hdne⟩ := hT.dirs_ne hd
  rw [directoryStart, if_neg hslash, hin.found] at hstart
  have hstart : (f.fds addr).start = a := (Option.some.inj hstart).symm
  have hheaders := hin.headers
  obtain ⟨-, -, -, -, hle, hrest⟩ := hheaders
  rw [hin.next] at hrest
  have hlow : 512 ≤ ar.start := le_trans (by unfold kernbase; omega) hT.kernel
  have hlow' := hin.low
  have hwithin : within d ((inside.paths slash d).map Prod.fst ++ after) = firstNames inside d :=
    within_paths hin.proper hin.outside
  have hchildren : changes [] (firstNames inside d) = inside.children slash :=
    changes_firstNames hin.proper
  have hcs : Components (firstNames inside d) := components_firstNames hrest
  obtain ⟨name, hmem⟩ := List.exists_mem_of_ne_nil after hin.nonempty
  -- the run
  set l : DirentLoop := ⟨⟨bytes, 0⟩, 0, count, []⟩ with hl
  have hloop := subLoop_eq (s := l) hrest (hrest.length_lt_fuel (by omega)) hin.chars
    ⟨name, List.mem_append_right _ hmem, hin.outside name hmem⟩
  rw [hwithin] at hloop
  have hrun : f.direntBuffer m ar task fd count bytes =
      some (((firstNames inside d).foldl subNext l).result count) := by
    unfold Files.direntBuffer
    rw [if_neg (not_lt.mpr hfd), haddr, Option.bind_some, if_neg hne, hname, if_neg hslash,
      if_pos hdne, hstart, hloop]
    rfl
  obtain ⟨hbuf, hrec⟩ := subNexts_records (s := l) count hcs rfl
  have htop := subNexts_top (s := l) count hcs rfl (Nat.zero_le _)
  have hsum := (later_subNexts l (firstNames inside d)).sum
  rw [hrun]
  generalize (firstNames inside d).foldl subNext l = s' at hbuf hrec htop hsum
  simp only [hl, hchildren, Nat.zero_add] at hbuf hrec htop hsum
  rw [SubFits, ← htop]
  constructor
  · rintro ⟨r, b, hs, hin⟩
    obtain ⟨rfl, rfl⟩ := Prod.mk.inj (Option.some.inj hs)
    exact (s'.result_top count).trans hin.inside
  · intro hle
    have hlen : ((inside.children slash).take (count / direntSize)).length ≤
        count / direntSize := List.length_take_le _ _
    have hmul : direntSize * (count / direntSize) ≤ count := Nat.mul_div_le count direntSize
    have hfit := Nat.mul_le_mul_left direntSize hlen
    refine ⟨_, _, rfl, direntsInBuffer_of_records _
      (count - direntSize * ((inside.children slash).take (count / direntSize)).length) hbuf
      ?_ ?_ hle hrec ?_ fun c hc => List.mem_of_mem_take hc⟩
    · omega
    · omega
    · intro c hc
      have hmem := List.mem_of_mem_take hc
      rw [← hchildren] at hmem
      exact hcs c (mem_of_mem_changes hmem)

/-- **`getDirEntries` stays in the buffer** and returns whole records of children, exactly if the
directory fits. -/
theorem direntsInBuffer_iff (hT : TreeArchive m ar t k) (hd : IsDirectory t d inside)
    (hfd : 0 ≤ fd) (haddr : f.getFdAddress task fd.toNat = some addr) (hne : addr ≠ 0)
    (hname : (f.fds addr).name = d)
    (hstart : directoryStart ar t d = some (f.fds addr).start) (count : Nat) (bytes : Mem) :
    (∃ r b, f.direntBuffer m ar task fd count bytes = some (r, b) ∧
      DirentsInBuffer count (inside.children slash) r b) ↔
    if d = [slash] then RootFits (inside.children slash) count bytes
    else SubFits (firstNames inside d) count := by
  rcases hd with ⟨rfl, rfl⟩ | hd
  · rw [if_pos rfl]
    rw [directoryStart, if_pos rfl] at hstart
    exact hT.direntBuffer_root hfd haddr hne hname (Option.some.inj hstart).symm
  · rw [if_neg (hT.dirs_ne hd).1]
    exact hT.direntBuffer_sub hd hfd haddr hne hname hstart

/-- The directory `/b` in a buffer with room for two records. -/
theorem direntsInBuffer_bin : ∃ s, newFiles.openFile (binHeaders oneArchive.start) oneArchive
      (kernbase + 0x3000) [] [slash, 98, slash] = some (3, s) ∧
    ∃ r b, s.direntBuffer (binHeaders oneArchive.start) oneArchive (kernbase + 0x3000) 3 560
        (fun _ => 0) = some (r, b) ∧
      DirentsInBuffer 560 [[99]] r b := by
  obtain ⟨s, hs, haddr, hne, hname, hstart⟩ : ∃ s,
      newFiles.openFile (binHeaders oneArchive.start) oneArchive (kernbase + 0x3000) []
        [slash, 98, slash] = some (3, s) ∧
      s.getFdAddress (kernbase + 0x3000) 3 = some (kernbase + 0x7000 + fdSize * 3) ∧
      kernbase + 0x7000 + fdSize * 3 ≠ 0 ∧
      (s.fds (kernbase + 0x7000 + fdSize * 3)).name = [98, slash] ∧
      (s.fds (kernbase + 0x7000 + fdSize * 3)).start = oneArchive.start :=
    ⟨_, rfl, rfl, by decide, rfl, rfl⟩
  have hdir : IsDirectory binTree [98, slash] (.file [99] [] .nil) := Or.inr List.mem_cons_self
  have hfound : directoryStart oneArchive binTree [98, slash] = some oneArchive.start := by rfl
  refine ⟨s, hs, (direntsInBuffer_iff binTree_archive hdir (by decide) haddr hne hname
    (by rw [hstart, hfound]) 560 fun _ => 0).mpr ?_⟩
  rw [if_neg (by decide)]
  -- there is one entry, and nothing before it
  rintro pre x suf hl
  have hlen := congrArg List.length hl
  have hone : (firstNames (.file [99] [] .nil) [98, slash]).length = 1 := by rfl
  rw [hone, List.length_append, List.length_cons] at hlen
  have hpre : pre = [] := List.length_eq_zero_iff.mp (by omega)
  rw [hpre, changes]
  decide

/-- **The root directory passes the end of the buffer.** It has one child, and the buffer has room
for one record. -/
theorem not_direntsInBuffer : TreeArchive (binHeaders oneArchive.start) oneArchive binTree 2 ∧
    ∃ s, newFiles.openFile (binHeaders oneArchive.start) oneArchive (kernbase + 0x3000) []
        [slash] = some (3, s) ∧
      ¬ ∃ r b, s.direntBuffer (binHeaders oneArchive.start) oneArchive (kernbase + 0x3000) 3 280
          (fun _ => 0) = some (r, b) ∧
        DirentsInBuffer 280 (binTree.children slash) r b := by
  obtain ⟨s, hs, haddr, hne, hname, hstart⟩ : ∃ s,
      newFiles.openFile (binHeaders oneArchive.start) oneArchive (kernbase + 0x3000) []
        [slash] = some (3, s) ∧
      s.getFdAddress (kernbase + 0x3000) 3 = some (kernbase + 0x7000 + fdSize * 3) ∧
      kernbase + 0x7000 + fdSize * 3 ≠ 0 ∧
      (s.fds (kernbase + 0x7000 + fdSize * 3)).name = [slash] ∧
      (s.fds (kernbase + 0x7000 + fdSize * 3)).start = oneArchive.start :=
    ⟨_, rfl, rfl, by decide, rfl, rfl⟩
  refine ⟨binTree_archive, s, hs, ?_⟩
  rw [binTree_archive.direntBuffer_root (by decide) haddr hne hname hstart]
  -- the archive has an entry, and no byte is left behind the first record
  rintro (⟨hnone, -⟩ | ⟨-, hmod, -⟩)
  · exact absurd hnone (by decide)
  · exact hmod rfl

end Sbunix
