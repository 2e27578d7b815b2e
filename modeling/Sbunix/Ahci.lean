import Mathlib.Data.Set.Lattice
import Mathlib.Order.Interval.Set.Nat
import Mathlib.Tactic.Common

/-!
# Disk transfers

`read` and `write` of `sys/ahci.c` build one command each: a header in the command list of the
port, and a command table with the frame information structure (FIS) and the entries (PRDT) that
name the memory of the transfer. The two are one definition (`transfer`) that differs in the
address the structures are reached at, the direction bit and the command byte.

The structures of the controller are taken by address, each as a record. An address names one
header or one table, and `port_rebase` lays the two apart.

* `Describes` — the entries name the buffer once and in order, and the FIS carries the request;
* `setup_spec` — what the entries and the FIS are, for every request;
* `transfer_described_iff` — the command describes the request when one entry is enough and the
  sector number has 48 bits. From the second entry on the buffer advances by half of what an
  entry covers, and the FIS carries the sectors of the last entry.
-/

namespace Sbunix

namespace Ahci

/-! ### The structures of the controller -/

/-- `hba_prdt_entry_t`. -/
structure PrdtEntry where
  dba : Nat
  rsv0 : Nat
  dbc : Nat
  rsv1 : Nat
  i : Nat

/-- `fis_reg_h2d_t`. -/
structure FisRegH2d where
  fis_type : Nat
  pmport : Nat
  c : Nat
  command : Nat
  featurel : Nat
  lba0 : Nat
  lba1 : Nat
  lba2 : Nat
  device : Nat
  lba3 : Nat
  lba4 : Nat
  lba5 : Nat
  featureh : Nat
  count : Nat
  icc : Nat
  control : Nat
  aux : Nat

/-- `hba_cmd_tbl_t`: the FIS at the front of `cfis`, and the entries behind the table. -/
structure CmdTbl where
  cfis : FisRegH2d
  prdt_entry : Nat → PrdtEntry

/-- The fields of `hba_cmd_header_t` that the driver reads or writes. -/
structure CmdHeader where
  cfl : Nat
  w : Nat
  prdtl : Nat
  ctba : Nat

/-- The memory that the controller and the driver share. -/
structure HbaMem where
  headers : Nat → CmdHeader
  tables : Nat → CmdTbl

/-- The registers of `hba_port_t` that the driver takes a command from. -/
structure HbaPort where
  clb : Nat
  sact : Nat
  ci : Nat

/-- What the registers that the driver waits on read, one value a poll. -/
structure Polls where
  tfd : Nat → Nat
  ci : Nat → Nat
  is_rwc : Nat → Nat

/-- What a transfer leaves: the memory, what was stored in `ci`, and the returned value (`none`
while the command is not completed). -/
structure Transfer where
  mem : HbaMem
  issued : Option Nat
  result : Option Int

/-! ### The driver -/

/-- `find_cmdslot`; `none` is `-1`. -/
def findCmdslot (port : HbaPort) : Option Nat :=
  (List.range 32).find? fun slot => !(port.sact ||| port.ci).testBit slot

def PrdtEntry.zero : PrdtEntry := ⟨0, 0, 0, 0, 0⟩

def FisRegH2d.zero : FisRegH2d := ⟨0, 0, 0, 0, 0, 0, 0, 0, 0, 0, 0, 0, 0, 0, 0, 0, 0⟩

/-- `memset1` on a table. `sizeof(hba_cmd_tbl_t)` is 256, room for eight entries. -/
def CmdTbl.clear (t : CmdTbl) (prdtl : Nat) : CmdTbl :=
  { cfis := .zero
    prdt_entry := fun j => if j < 8 + (prdtl - 1) then .zero else t.prdt_entry j }

/-- `cmdtbl->prdt_entry[i]` with its address, byte count and interrupt bit set. -/
def CmdTbl.setEntry (t : CmdTbl) (i dba dbc : Nat) : CmdTbl :=
  { t with prdt_entry := fun j =>
      if j = i then { t.prdt_entry i with dba := dba, dbc := dbc, i := 1 } else t.prdt_entry j }

/-- The table, the buffer and the count, as the loop over the entries leaves them. -/
structure Filling where
  tbl : CmdTbl
  buf : Nat
  count : Nat

/-- One round of the loop: an entry of 8 KiB, and 4 KiB further in the buffer. -/
def Filling.round (s : Filling) (i : Nat) : Filling :=
  { tbl := s.tbl.setEntry i s.buf (8 * 1024)
    buf := (s.buf + 4 * 1024) % 2 ^ 64
    count := (s.count + (2 ^ 32 - 16)) % 2 ^ 32 }

/-- The FIS of the command over what the table holds. -/
def FisRegH2d.setup (f : FisRegH2d) (command startl starth count : Nat) : FisRegH2d :=
  { f with
    fis_type := 0x27
    c := 1
    command := command
    lba0 := startl % 2 ^ 8
    lba1 := (startl >>> 8) % 2 ^ 8
    lba2 := (startl >>> 16) % 2 ^ 8
    device := 1 <<< 6
    lba3 := (startl >>> 24) % 2 ^ 8
    lba4 := starth % 2 ^ 8
    lba5 := (starth >>> 8) % 2 ^ 8
    count := count % 2 ^ 16 }

/-- The command header at `base`, for a transfer of `count` sectors. -/
def CmdHeader.setup (h : CmdHeader) (w count : Nat) : CmdHeader :=
  { h with
    cfl := 5
    w := w
    prdtl := ((((count + (2 ^ 32 - 1)) % 2 ^ 32) >>> 4) % 2 ^ 16 + 1) % 2 ^ 16 }

/-- The command table of a transfer. -/
def CmdTbl.setup (t : CmdTbl) (prdtl command startl starth count buf : Nat) : CmdTbl :=
  let s := (List.range (prdtl - 1)).foldl Filling.round ⟨t.clear prdtl, buf, count⟩
  let tbl := s.tbl.setEntry (prdtl - 1) s.buf ((s.count <<< 9) % 2 ^ 32 % 2 ^ 22)
  { tbl with cfis := tbl.cfis.setup command startl starth s.count }

/-- Where the driver finds the header of `slot`. -/
def headerAt (base : Nat) (port : HbaPort) (slot : Nat) : Nat :=
  ((port.clb + base) % 2 ^ 64 + 32 * slot) % 2 ^ 64

/-- Where the driver finds the table of a header. -/
def tableAt (base : Nat) (h : CmdHeader) : Nat := (h.ctba + base) % 2 ^ 64

/-- The command that a transfer builds in `slot`. -/
def HbaMem.command (m : HbaMem) (base w command : Nat) (port : HbaPort) (slot : Nat)
    (startl starth count buf : Nat) : HbaMem :=
  let a := headerAt base port slot
  let h := (m.headers a).setup w count
  let b := tableAt base h
  { headers := Function.update m.headers a h
    tables := Function.update m.tables b
      ((m.tables b).setup h.prdtl command startl starth count buf) }

/-- The wait until the port is no longer busy, at most a million polls. -/
def Polls.ready (p : Polls) : Bool :=
  (List.range 1000000).any fun spin => p.tfd spin &&& 0x88 = 0

/-- The wait for completion from poll `k` on. -/
def Polls.complete (p : Polls) (slot : Nat) : Nat → Nat → Option Int
  | 0, _ => none
  | fuel + 1, k =>
    if (p.ci k).testBit slot then
      if (p.is_rwc k).testBit 30 then some 0 else p.complete slot fuel (k + 1)
    else some (if (p.is_rwc k).testBit 30 then 0 else 1)

/-- `read` and `write`, with the address that the structures are reached at, the direction and
the command byte. -/
def transfer (base w command : Nat) (m : HbaMem) (port : HbaPort) (p : Polls) (fuel : Nat)
    (startl starth count buf : Nat) : Transfer :=
  match findCmdslot port with
  | none => ⟨m, none, some 0⟩
  | some slot =>
    let m := m.command base w command port slot startl starth count buf
    if p.ready then ⟨m, some (2 ^ slot), p.complete slot fuel 0⟩ else ⟨m, none, some 0⟩

/-- `read`: the structures are reached at their physical addresses. -/
def read (m : HbaMem) (port : HbaPort) (p : Polls) (fuel : Nat)
    (startl starth count buf : Nat) : Transfer :=
  transfer 0 0 0x24 m port p fuel startl starth count buf

/-- `write`: the structures are reached through the map at `kernbase`. -/
def write (kernbase : Nat) (m : HbaMem) (port : HbaPort) (p : Polls) (fuel : Nat)
    (startl starth count buf : Nat) : Transfer :=
  transfer kernbase 1 0x34 m port p fuel startl starth count buf

/-! ### What a command has to say -/

/-- The bytes that an entry names, `[dba, dba + dbc)`. -/
def PrdtEntry.bytes (e : PrdtEntry) : Set Nat := Set.Ico e.dba (e.dba + e.dbc)

/-- The sector number of a FIS. -/
def FisRegH2d.lba (f : FisRegH2d) : Nat :=
  f.lba0 + 2 ^ 8 * f.lba1 + 2 ^ 16 * f.lba2 + 2 ^ 24 * f.lba3 + 2 ^ 32 * f.lba4 + 2 ^ 40 * f.lba5

/-- The first `prdtl` entries of a table. -/
def CmdTbl.entries (t : CmdTbl) (prdtl : Nat) : List PrdtEntry :=
  (List.range prdtl).map t.prdt_entry

/-- The command describes the transfer of `count` sectors from sector `lba` on and of the memory
from `buf` on. -/
structure Describes (h : CmdHeader) (t : CmdTbl) (lba count buf : Nat) : Prop where
  disjoint : (t.entries h.prdtl).Pairwise fun e e' => ∀ x ∈ e.bytes, x ∉ e'.bytes
  consecutive : (t.entries h.prdtl).IsChain fun e e' => e'.dba = e.dba + e.dbc
  whole : ⋃ e ∈ t.entries h.prdtl, e.bytes = Set.Ico buf (buf + 512 * count)
  lba_eq : t.cfis.lba = lba
  count_eq : t.cfis.count = count

/-- The command in `slot` describes the transfer, as the driver finds it through `base`. -/
def HbaMem.Describes (m : HbaMem) (base : Nat) (port : HbaPort) (slot lba count buf : Nat) : Prop :=
  let h := m.headers (headerAt base port slot)
  Ahci.Describes h (m.tables (tableAt base h)) lba count buf

/-! ### What the driver builds -/

theorem prdtl_setup (h : CmdHeader) (w : Nat) {count : Nat} (hpos : 0 < count)
    (hfits : (count - 1) / 16 + 1 < 2 ^ 16) : (h.setup w count).prdtl = (count - 1) / 16 + 1 := by
  -- the word that is shifted is `count - 1`
  have hword : (count + (2 ^ 32 - 1)) % 2 ^ 32 = count - 1 := by omega
  simp only [CmdHeader.setup, hword, Nat.shiftRight_eq_div_pow]
  omega

theorem lba_setup (f : FisRegH2d) (command starth count : Nat) {startl : Nat}
    (hl : startl < 2 ^ 32) :
    (f.setup command startl starth count).lba = startl + 2 ^ 32 * (starth % 2 ^ 16) := by
  simp only [FisRegH2d.setup, FisRegH2d.lba, Nat.shiftRight_eq_div_pow]
  omega

/-- Whatever rounds are over, the entries in front are 4 KiB apart and the count has lost sixteen
sectors a round. -/
theorem rounds_spec (t : CmdTbl) (buf : Nat) {count : Nat} (hcount : count < 2 ^ 32) :
    ∀ n, 16 * n < count → buf < 2 ^ 64 →
      let s := (List.range n).foldl Filling.round ⟨t, buf, count⟩
      s.buf = (buf + 4096 * n) % 2 ^ 64 ∧ s.count = count - 16 * n ∧
        ∀ j < n, (s.tbl.prdt_entry j).dba = (buf + 4096 * j) % 2 ^ 64 ∧
          (s.tbl.prdt_entry j).dbc = 8192 := by
  -- on the rounds; sixteen sectors are left for each of them, so that the count does not wrap
  intro n
  induction n with
  | zero =>
    intro _ hbuf
    exact ⟨(Nat.mod_eq_of_lt hbuf).symm, rfl, fun j hj => absurd hj (Nat.not_lt_zero j)⟩
  | succ n ih =>
    intro hn hbuf
    obtain ⟨hb, hc, hentries⟩ := ih (by omega) hbuf
    rw [List.range_succ, List.foldl_append, List.foldl_cons, List.foldl_nil]
    refine ⟨?_, ?_, fun j hj => ?_⟩
    · simp only [Filling.round, hb]
      omega
    · simp only [Filling.round, hc]
      omega
    · -- the round writes entry `n` alone
      rcases Nat.lt_succ_iff_lt_or_eq.mp hj with hlt | rfl
      · simpa [Filling.round, CmdTbl.setEntry, hlt.ne] using hentries j hlt
      · simp [Filling.round, CmdTbl.setEntry, hb]

section Setup

variable (t : CmdTbl) (command starth : Nat) {startl count buf : Nat}

/-- A table that has been set up for more than `16 * n` and at most `16 * (n + 1)` sectors: the
entries are 4 KiB apart, all but the last cover 8 KiB, and the FIS has the count of the last. -/
theorem setup_spec {n : Nat} (hcount : count < 2 ^ 32) (hl : startl < 2 ^ 32) (hb : buf < 2 ^ 64)
    (hlt : 16 * n < count) (hle : count ≤ 16 * (n + 1)) :
    let t' := t.setup (n + 1) command startl starth count buf
    (∀ j ≤ n, (t'.prdt_entry j).dba = (buf + 4096 * j) % 2 ^ 64) ∧
      (∀ j < n, (t'.prdt_entry j).dbc = 8192) ∧
      (t'.prdt_entry n).dbc = 512 * (count - 16 * n) ∧
      t'.cfis.lba = startl + 2 ^ 32 * (starth % 2 ^ 16) ∧ t'.cfis.count = count - 16 * n := by
  obtain ⟨hbuf, hrest, hentries⟩ := rounds_spec (t.clear (n + 1)) buf hcount n hlt hb
  -- at most sixteen sectors are left for the last entry, which has room for their bytes
  have hbytes : ((count - 16 * n) <<< 9) % 2 ^ 32 % 2 ^ 22 = 512 * (count - 16 * n) := by
    rw [Nat.shiftLeft_eq]
    omega
  have hsectors : (count - 16 * n) % 2 ^ 16 = count - 16 * n := Nat.mod_eq_of_lt (by omega)
  refine ⟨fun j hj => ?_, fun j hj => ?_, ?_, lba_setup _ _ _ _ hl, ?_⟩
  · rcases Nat.lt_or_eq_of_le hj with hlt | rfl
    · simpa [CmdTbl.setup, CmdTbl.setEntry, hlt.ne] using (hentries j hlt).1
    · simpa [CmdTbl.setup, CmdTbl.setEntry] using hbuf
  · simpa [CmdTbl.setup, CmdTbl.setEntry, hj.ne] using (hentries j hj).2
  · simpa [CmdTbl.setup, CmdTbl.setEntry, hrest] using hbytes
  · simpa [CmdTbl.setup, FisRegH2d.setup, hrest] using hsectors

variable {t command starth}

/-- The command of a request, header and table, describes it exactly when one entry is enough and
the sector number has 48 bits. -/
theorem describes_setup_iff (h : CmdHeader) (w : Nat) (hpos : 0 < count)
    (hfits : (count - 1) / 16 + 1 < 2 ^ 16) (hl : startl < 2 ^ 32) (hb : buf < 2 ^ 64) :
    Describes (h.setup w count)
        (t.setup (h.setup w count).prdtl command startl starth count buf)
        (startl + 2 ^ 32 * starth) count buf ↔ count ≤ 16 ∧ starth < 2 ^ 16 := by
  obtain ⟨n, hn⟩ : ∃ n, n = (count - 1) / 16 := ⟨_, rfl⟩
  have hprdtl : (h.setup w count).prdtl = n + 1 := by rw [prdtl_setup h w hpos hfits, hn]
  have hword : count < 2 ^ 32 := by omega
  obtain ⟨hdba, -, hdbc, hlba, hcount⟩ :=
    setup_spec (n := n) t command starth hword hl hb (by omega) (by omega)
  constructor
  · intro hd
    -- the FIS of a command with more entries has the sectors of the last
    have hsectors := hd.count_eq
    have hsector := hd.lba_eq
    rw [hprdtl] at hsectors hsector
    rw [hcount] at hsectors
    rw [hlba] at hsector
    omega
  · -- one entry, which is the whole buffer
    rintro ⟨hone, hhigh⟩
    obtain rfl : n = 0 := by omega
    have hentries : (t.setup 1 command startl starth count buf).entries 1 =
        [(t.setup 1 command startl starth count buf).prdt_entry 0] := rfl
    have hbytes : ((t.setup 1 command startl starth count buf).prdt_entry 0).bytes =
        Set.Ico buf (buf + 512 * count) := by
      rw [PrdtEntry.bytes, hdba 0 (Nat.le_refl 0), hdbc, Nat.mul_zero, Nat.add_zero,
        Nat.mod_eq_of_lt hb, Nat.sub_zero]
    rw [Nat.mod_eq_of_lt hhigh] at hlba
    refine ⟨?_, ?_, ?_, ?_, ?_⟩ <;> rw [hprdtl]
    · simp [hentries]
    · simp [hentries]
    · simpa [hentries] using hbytes
    · exact hlba
    · exact hcount

end Setup

/-- What a transfer leaves in its slot. -/
theorem describes_transfer_iff {port : HbaPort} {slot : Nat} (hslot : findCmdslot port = some slot)
    (base w command : Nat) (m : HbaMem) (p : Polls) (fuel starth : Nat) {startl count buf : Nat}
    (hpos : 0 < count) (hfits : (count - 1) / 16 + 1 < 2 ^ 16) (hl : startl < 2 ^ 32)
    (hb : buf < 2 ^ 64) :
    (transfer base w command m port p fuel startl starth count buf).mem.Describes base port slot
        (startl + 2 ^ 32 * starth) count buf ↔ count ≤ 16 ∧ starth < 2 ^ 16 := by
  have hmem : (transfer base w command m port p fuel startl starth count buf).mem =
      m.command base w command port slot startl starth count buf := by
    simp only [transfer, hslot]
    split <;> rfl
  rw [hmem, HbaMem.Describes, HbaMem.command]
  simpa using describes_setup_iff _ w hpos hfits hl hb

/-- Whenever a slot is free, the command that `read` and `write` build describes the transfer
exactly when it has at most sixteen sectors and starts at a sector number of 48 bits. -/
theorem transfer_described_iff (m : HbaMem) (port : HbaPort) (p : Polls) (fuel slot kernbase : Nat)
    (hslot : findCmdslot port = some slot) (startl starth count buf : Nat) (hpos : 0 < count)
    (hfits : (count - 1) / 16 + 1 < 2 ^ 16) (hl : startl < 2 ^ 32) (hb : buf < 2 ^ 64) :
    ((read m port p fuel startl starth count buf).mem.Describes 0 port slot
        (startl + 2 ^ 32 * starth) count buf ↔ count ≤ 16 ∧ starth < 2 ^ 16) ∧
      ((write kernbase m port p fuel startl starth count buf).mem.Describes kernbase port slot
        (startl + 2 ^ 32 * starth) count buf ↔ count ≤ 16 ∧ starth < 2 ^ 16) :=
  ⟨describes_transfer_iff hslot 0 0 0x24 m p fuel starth hpos hfits hl hb,
    describes_transfer_iff hslot kernbase 1 0x34 m p fuel starth hpos hfits hl hb⟩

/-- A port with a free slot, over memory that has been cleared. -/
def idlePort : HbaPort := ⟨0x400, 0, 0⟩

def clearedMem : HbaMem := ⟨fun _ => ⟨0, 0, 0, 0⟩, fun _ => ⟨.zero, fun _ => .zero⟩⟩

/-- A port that is ready and completes at once. -/
def promptPolls : Polls := ⟨fun _ => 0, fun _ => 0, fun _ => 0⟩

theorem transfer_described_page :
    (read clearedMem idlePort promptPolls 1 0 0 8 0x4000).mem.Describes 0 idlePort 0 0 8 0x4000 :=
  (transfer_described_iff clearedMem idlePort promptPolls 1 0 0 (by decide) 0 0 8 0x4000
    (by decide) (by decide) (by decide) (by decide)).1.mpr (by decide)

/-- Seventeen sectors: the second entry starts in the middle of the first, and the FIS asks for
one sector. -/
theorem not_transfer_described :
    ¬ (∀ startl starth count buf : Nat, 0 < count → (count - 1) / 16 + 1 < 2 ^ 16 →
        startl < 2 ^ 32 → starth < 2 ^ 32 → buf < 2 ^ 64 →
        (read clearedMem idlePort promptPolls 1 startl starth count buf).mem.Describes 0 idlePort 0
          (startl + 2 ^ 32 * starth) count buf) := by
  intro h
  have hdescribes := h 0 0 17 0 (by decide) (by decide) (by decide) (by decide) (by decide)
  have hone := (describes_transfer_iff (by decide) 0 0 0x24 clearedMem promptPolls 1 0 (by decide)
    (by decide) (by decide) (by decide)).mp hdescribes
  exact absurd hone.1 (by decide)

end Ahci

end Sbunix
