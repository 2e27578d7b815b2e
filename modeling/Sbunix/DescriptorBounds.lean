import Sbunix.Listing
import Sbunix.MapLaw

/-!
# Descriptor numbers

A call with a descriptor number divides it by five: the quotient is an element of the pointer
table, the remainder a slot on the page behind it. `get_fd_address` does not compare the quotient
with the twenty elements of the table.

The tables of a system (`Tables`) come from new records, from `exec` and `fork`, and from the calls
of the tasks, in any order, while pages are taken for other things. After a `fork` two tasks have
pages in common.

* `TableOk.call_kept` — a call leaves every table well-formed, its own and those of other tasks;
* `tables_ok_of_run` — so are the tables in every state that a system reaches;
* `fd_checked_iff` — there a call is checked exactly when its descriptor is below 100 and it does
  not close a slot that is not open.
-/

namespace Sbunix

open ByteMem Runs

namespace Files

/-! ### Calls of several tasks -/

/-- `task->fd_pointers` and `task->fd_count` are set. -/
def setTable (s : Files) (task : Nat) (pointers : List Nat) (count : Nat) : Files :=
  let record := { s.phys.tasks task with fdPointers := pointers, fdCount := count }
  { s with phys := s.phys.setTask task record }

section Tasks

variable {m : Mem} {ar : Archive} {s s' : Files} {task other a start : Nat} {r : Int}
  {name : List UInt8} {c : Call}

/-- What a step leaves of the table of a task. The pages that it gains were not in use. -/
structure Kept (s s' : Files) (other : Nat) : Prop where
  table : s'.TableOk other
  pointers : ∀ i, s'.pointer other i = s.pointer other i ∨ ¬ s.PageAt (s'.pointer other i)

theorem TableOk.kept (h : s.TableOk other) : Kept s s other := ⟨h, fun _ => Or.inl rfl⟩

/-- A descriptor that is stored at `a` keeps a table well-formed whoever stores it. -/
theorem TableOk.setFd_any (h : s.TableOk other) {d : FileDescriptor}
    (hd : d.dDirp = 0 ∨ d.dDirp = a) : (s.setFd a d).TableOk other := by
  refine ⟨h.record, h.length, h.pages, h.distinct, h.count, fun k => ?_⟩
  rw [slot_setFd]
  split
  · next hk =>
    rw [show (s.setFd a d).slotAddr other k = a from hk.2]
    exact hd
  · exact h.handles k

/-- A slot is written that keeps its handle. -/
theorem TableOk.setFd_keep (h : s.TableOk other) (ht : s.TableOk task) {n : Nat}
    (hn : s.pointer task (n / 5) ≠ 0) {d : FileDescriptor}
    (hd : d.dDirp = (s.fds (s.slotAddr task n)).dDirp) :
    Kept s (s.setFd (s.slotAddr task n) d) other := by
  refine ⟨h.setFd_any ?_, fun _ => Or.inl rfl⟩
  have hslot : s.fds (s.slotAddr task n) = s.slot task n := (slot_of_pointer rfl hn).symm
  rw [hd, hslot]
  exact ht.handles n

theorem TableOk.openSlot_kept (h : s.TableOk task) (ho : s.TableOk other) {dirp : Nat → Nat}
    (hd : ∀ a, dirp a = 0 ∨ dirp a = a)
    (hx : (s.openSlot task name start dirp).2.phys.exhausted = false) :
    Kept s (s.openSlot task name start dirp).2 other := by
  -- memory is exhausted already when the search has left it so
  have hxf : (s.findSlot task (List.range 20)).2.phys.exhausted = false := by
    unfold Files.openSlot at hx
    dsimp only at hx
    split at hx
    · exact hx
    · exact hx
  rw [List.range_eq_range'] at hxf
  -- the search adds pages to the table of its own task
  obtain ⟨hok, hext, -⟩ := h.findSlot (j := 0) (by decide) (Nat.zero_le _) hxf
  have hfound : Kept s (s.findSlot task (List.range' 0 20)).2 other := by
    by_cases hne : other = task
    · -- a pointer of the caller is as it was, or leads to a page that was free
      rw [hne]
      exact ⟨hok, hext.pointers⟩
    · exact ⟨ho.extends hext hne, fun i => Or.inl (hext.pointer ho.record hne i)⟩
  unfold Files.openSlot
  rw [List.range_eq_range']
  dsimp only
  split
  · exact hfound
  · exact ⟨hfound.table.setFd_any (hd _), hfound.pointers⟩

theorem TableOk.clearName_kept (h : s.TableOk task) (ho : s.TableOk other) {fd : Nat}
    (ha : s.getFdAddress task fd = some a) (ha0 : a ≠ 0) : Kept s (s.clearName a) other := by
  obtain ⟨-, hptr, rfl⟩ := slotAddr_eq_of_getFdAddress ha ha0
  unfold Files.clearName
  split
  · exact ho.setFd_keep h hptr rfl
  · exact ho.kept

/-- **A call keeps every table well-formed**, its own and those of the other tasks. -/
theorem TableOk.call_kept (h : s.TableOk task) (ho : s.TableOk other)
    (hx : s'.phys.exhausted = false) (hs : s.call m ar task c = some (r, s')) :
    Kept s s' other := by
  cases c with
  | openFile cwd file =>
    obtain ⟨⟨-, rfl⟩, -⟩ | ⟨start, name, -, -, -, -, rfl⟩ := openFile_cases hs
    · exact ho.kept
    · exact h.openSlot_kept ho (fun _ => Or.inl rfl) hx
  | openDirectory cwd dir =>
    obtain ⟨⟨a, t⟩, ha, heq⟩ := Option.map_eq_some_iff.mp hs
    obtain ⟨-, rfl⟩ := Prod.mk.inj heq
    obtain ⟨⟨-, rfl⟩, -⟩ | ⟨start, name, -, -, -, -, rfl⟩ := openDirectory_cases ha
    · exact ho.kept
    · exact h.openSlot_kept ho id_handle hx
  | readFile fd count =>
    obtain ⟨⟨bytes, q, t⟩, ht, heq⟩ := Option.map_eq_some_iff.mp hs
    obtain ⟨-, rfl⟩ := Prod.mk.inj heq
    simp only [Files.readFile, Option.bind_eq_bind] at ht
    split_ifs at ht
    · obtain rfl := (Prod.mk.inj (Prod.mk.inj (Option.some.inj ht)).2).2
      exact ho.kept
    · obtain rfl := (Prod.mk.inj (Prod.mk.inj (Option.some.inj ht)).2).2
      exact ho.kept
    · -- only the offset of a slot in use is changed
      obtain ⟨a, ha, hres⟩ := Option.bind_eq_some_iff.mp ht
      split_ifs at hres with ha0 hname
      · obtain rfl := (Prod.mk.inj (Prod.mk.inj (Option.some.inj hres)).2).2
        exact ho.kept
      · obtain rfl := (Prod.mk.inj (Prod.mk.inj (Option.some.inj hres)).2).2
        obtain ⟨-, hptr, rfl⟩ := slotAddr_eq_of_getFdAddress ha ha0
        exact ho.setFd_keep h hptr rfl
      · obtain rfl := (Prod.mk.inj (Prod.mk.inj (Option.some.inj hres)).2).2
        exact ho.kept
  | closeFile fd =>
    simp only [Files.call, Files.closeFile, Option.bind_eq_bind] at hs
    split_ifs at hs
    · obtain ⟨-, rfl⟩ := Prod.mk.inj (Option.some.inj hs)
      exact ho.kept
    · obtain ⟨a, ha, hres⟩ := Option.bind_eq_some_iff.mp hs
      split_ifs at hres with ha0
      · obtain ⟨-, rfl⟩ := Prod.mk.inj (Option.some.inj hres)
        exact ho.kept
      · obtain ⟨-, rfl⟩ := Prod.mk.inj (Option.some.inj hres)
        exact h.clearName_kept ho ha ha0
  | closeDir dirp =>
    simp only [Files.call, Files.closeDir, Option.bind_eq_bind] at hs
    split_ifs at hs
    · obtain ⟨-, rfl⟩ := Prod.mk.inj (Option.some.inj hs)
      exact ho.kept
    · cases hfd : s.getFd task dirp with
      | none =>
        rw [hfd] at hs
        obtain ⟨-, rfl⟩ := Prod.mk.inj (Option.some.inj hs)
        exact ho.kept
      | some fd =>
        rw [hfd] at hs
        obtain ⟨a, ha, hres⟩ := Option.bind_eq_some_iff.mp hs
        split_ifs at hres with ha0
        · obtain ⟨-, rfl⟩ := Prod.mk.inj (Option.some.inj hres)
          exact ho.kept
        · obtain ⟨-, rfl⟩ := Prod.mk.inj (Option.some.inj hres)
          exact h.clearName_kept ho ha ha0

theorem setTable_page (s : Files) (task : Nat) (pointers : List Nat) (count : Nat) :
    ∀ p, s.PageAt p → (s.setTable task pointers count).PageAt p := fun _ hp => hp

theorem setTable_self (s : Files) (task : Nat) (pointers : List Nat) (count : Nat) :
    ((s.setTable task pointers count).phys.tasks task).fdPointers = pointers ∧
      ((s.setTable task pointers count).phys.tasks task).fdCount = count := by
  simp [setTable, Phys.setTask]

/-- The table of another task is set. -/
theorem Kept.setTable (h : Kept s s' other) (hne : other ≠ task) {pointers : List Nat}
    {count : Nat} : Kept s (s'.setTable task pointers count) other := by
  have hrec : (s'.setTable task pointers count).phys.tasks other = s'.phys.tasks other := by
    simp [Files.setTable, Phys.setTask, hne]
  refine ⟨(h.table.congr (s'.setTable_page task pointers count) hrec fun _ _ _ _ => rfl).1,
    fun i => ?_⟩
  rw [show (s'.setTable task pointers count).pointer other i = s'.pointer other i by
    rw [Files.pointer, Files.pointer, hrec]]
  exact h.pointers i

theorem Fresh.kept {p : Nat} (h : Fresh s s' p) (ho : s.TableOk other) : Kept s s' other :=
  ⟨(ho.congr h.page (h.tasks _ ho.record) h.fds).1, fun i => by
    left
    rw [pointer, pointer, h.tasks _ ho.record]⟩

/-- A record without pages. -/
theorem tableOk_empty (hrec : s.PageAt task)
    (hpointers : (s.phys.tasks task).fdPointers = List.replicate 20 0)
    (hcount : (s.phys.tasks task).fdCount = 0) : s.TableOk task := by
  -- every slot of such a table is a cleared one
  have hptr : ∀ i, s.pointer task i = 0 := fun i => by
    rw [Files.pointer, hpointers, List.getD_eq_getElem?_getD, List.getElem?_replicate]
    split <;> rfl
  refine ⟨hrec, by rw [hpointers]; rfl, fun i hi => absurd (hptr i) hi,
    fun i j hi => absurd (hptr i) hi, ⟨0, by decide, hcount, fun i _ => ?_⟩, fun n => Or.inl ?_⟩
  · exact ⟨fun hi => absurd (hptr i) hi, fun hi => absurd hi (Nat.not_lt_zero i)⟩
  · rw [slot, if_pos (hptr _)]
    rfl

end Tasks

/-! ### The tables of a system -/

/-- Memory with the descriptors, and the tasks that have a record in it. -/
structure Tables where
  files : Files
  tasks : List Nat

/-- What makes and changes tables. -/
inductive TableEvent
  | record
  | firstPage (task : Nat)
  | copyTable (parent child : Nat)
  | allocate
  | call (task : Nat) (c : Call)

section System

variable (m : Mem) (ar : Archive)

namespace Tables

/-- A record from `kmalloc`, the first page of `createNewExecTask`, the copy of `createChildTask`, a
page for something else, and the calls. -/
def step (t : Tables) : TableEvent → Option Tables
  | .record =>
    let new := t.files.kmalloc
    some ⟨new.2, new.1 :: t.tasks⟩
  | .firstPage task =>
    let new := t.files.kmalloc
    some ⟨new.2.setTable task (new.1 :: List.replicate 19 0) 5, t.tasks⟩
  | .copyTable parent child =>
    let table := t.files.phys.tasks parent
    some ⟨t.files.setTable child table.fdPointers table.fdCount, t.tasks⟩
  | .allocate => some ⟨t.files.kmalloc.2, t.tasks⟩
  | .call task c => (t.files.call m ar task c).map fun r => ⟨r.2, t.tasks⟩

/-- The event is about records that are there, and it does not find memory exhausted. -/
def StepOk (t : Tables) (e : TableEvent) : Prop :=
  (match e with
    | .firstPage task => task ∈ t.tasks
    | .copyTable parent child => parent ∈ t.tasks ∧ child ∈ t.tasks
    | .call task _ => task ∈ t.tasks
    | _ => True) ∧
  ∀ t', t.step m ar e = some t' → t'.files.phys.exhausted = false

/-- All tables are well-formed, and no task has the record of a task for a page of descriptors. -/
structure Ok (t : Tables) : Prop where
  table : ∀ task ∈ t.tasks, t.files.TableOk task
  apart : ∀ task ∈ t.tasks, ∀ other ∈ t.tasks, ∀ i, t.files.pointer task i ≠ other

end Tables

end System

namespace Tables

variable {m : Mem} {ar : Archive} {t t' : Tables} {e : TableEvent} {files : Files} {task : Nat}

/-- The tables after a step that keeps each of them. -/
theorem Ok.kept (h : t.Ok) (hk : ∀ task ∈ t.tasks, Kept t.files files task) :
    Tables.Ok ⟨files, t.tasks⟩ := by
  refine ⟨fun task ht => (hk task ht).table, fun task ht other ho i => ?_⟩
  rcases (hk task ht).pointers i with heq | hnew
  · show files.pointer task i ≠ other
    rw [heq]
    exact h.apart task ht other ho i
  · -- a page that is new is not the record of a task
    intro hc
    exact hnew (hc ▸ (h.table other ho).record)

/-- The tables after a step that gives `task` another table. -/
theorem Ok.replace (h : t.Ok) (htable : files.TableOk task)
    (hapart : ∀ other ∈ t.tasks, ∀ i, files.pointer task i ≠ other)
    (hk : ∀ other ∈ t.tasks, other ≠ task → Kept t.files files other) :
    Tables.Ok ⟨files, t.tasks⟩ := by
  constructor
  · intro other ho
    by_cases hne : other = task
    · rw [hne]
      exact htable
    · exact (hk other ho hne).table
  · intro other ho third hthird i
    by_cases hne : other = task
    · rw [hne]
      exact hapart third hthird i
    · -- as for a step that keeps all tables
      rcases (hk other ho hne).pointers i with heq | hnew
      · show files.pointer other i ≠ third
        rw [heq]
        exact h.apart other ho third hthird i
      · intro hc
        exact hnew (hc ▸ (h.table third hthird).record)

theorem Ok.record (h : t.Ok) (hx : t.files.kmalloc.2.phys.exhausted = false) :
    Tables.Ok ⟨t.files.kmalloc.2, t.files.kmalloc.1 :: t.tasks⟩ := by
  have hk := kmalloc_fresh hx
  generalize t.files.kmalloc = new at hk ⊢
  -- the record is cleared, so that its table has no page
  have hnew : new.2.TableOk new.1 :=
    tableOk_empty hk.new (by rw [hk.record]; rfl) (by rw [hk.record]; rfl)
  have hzero : ∀ i, new.2.pointer new.1 i = 0 := by
    intro i
    rw [Files.pointer, hk.record, Task.zeroed, List.getD_eq_getElem?_getD, List.getElem?_replicate]
    split <;> rfl
  have hkeep := h.kept fun task ht => hk.kept (h.table task ht)
  have htable : ∀ task ∈ new.1 :: t.tasks, new.2.TableOk task := by
    intro task ht
    rcases List.mem_cons.mp ht with heq | ht
    · rw [heq]
      exact hnew
    · exact hkeep.table task ht
  refine ⟨htable, fun task ht other ho i => ?_⟩
  show new.2.pointer task i ≠ other
  rcases List.mem_cons.mp ht with heq | ht
  · rw [heq, hzero]
    exact (pageAt_ne_zero (htable other ho).record).symm
  · rcases List.mem_cons.mp ho with heq | ho
    · -- the pages of the old tables were in use
      intro hc
      rw [Files.pointer, hk.tasks task (h.table task ht).record, heq] at hc
      have hne0 : t.files.pointer task i ≠ 0 := by
        rw [Files.pointer, hc]
        exact pageAt_ne_zero hk.new
      exact hk.ne _ ((h.table task ht).pages i hne0).1 hc
    · exact hkeep.apart task ht other ho i

/-- **Every step keeps the tables well-formed.** -/
theorem Ok.step (h : t.Ok) (hok : t.StepOk m ar e) (hs : t.step m ar e = some t') : t'.Ok := by
  obtain ⟨hmem, hx⟩ := hok
  replace hx := hx t' hs
  cases e with
  | record =>
    obtain rfl := Option.some.inj hs
    exact h.record hx
  | firstPage task =>
    obtain rfl := Option.some.inj hs
    have hk := kmalloc_fresh (s := t.files) hx
    generalize t.files.kmalloc = new at hk ⊢
    -- one page, which no table had before
    refine @Ok.replace _ _ task h ?_ (fun other ho i => ?_) fun other ho hne => ?_
    · exact tableOk_single (hk.page _ (h.table task hmem).record) hk.new
        (hk.ne task (h.table task hmem).record).symm (setTable_self ..).1 (setTable_self ..).2
        hk.cleared
    · rw [pointer_single (setTable_self ..).1]
      split
      · exact (hk.ne other (h.table other ho).record).symm
      · exact (pageAt_ne_zero (h.table other ho).record).symm
    · exact (hk.kept (h.table other ho)).setTable hne
  | copyTable parent child =>
    obtain rfl := Option.some.inj hs
    obtain ⟨hparent, hchild⟩ := hmem
    have hself := setTable_self t.files child (t.files.phys.tasks parent).fdPointers
      (t.files.phys.tasks parent).fdCount
    -- the child gets the pages of the parent, which are not records
    refine @Ok.replace _ _ child h ?_ (fun other ho i => ?_) fun other ho hne => ?_
    · exact ((h.table parent hparent).copy (setTable_page _ _ _ _) (fun _ _ _ _ => rfl)
        (h.table child hchild).record hself.1 hself.2 fun i _ =>
          h.apart parent hparent child hchild i).1
    · rw [Files.pointer, hself.1]
      exact h.apart parent hparent other ho i
    · exact ((h.table other ho).kept).setTable hne
  | allocate =>
    obtain rfl := Option.some.inj hs
    have hk := kmalloc_fresh (s := t.files) hx
    exact h.kept fun task ht => hk.kept (h.table task ht)
  | call task c =>
    obtain ⟨⟨r, s'⟩, hcall, rfl⟩ := Option.map_eq_some_iff.mp hs
    exact h.kept fun other ho => (h.table task hmem).call_kept (h.table other ho) hx hcall

/-- The tables in every state that a system reaches, from one without tasks. -/
theorem tables_ok_of_run {s : Files} {es : List TableEvent}
    (hr : Run (Tables.step m ar) (Tables.StepOk m ar) ⟨s, []⟩ es t) : t.Ok :=
  hr.invariant (I := Tables.Ok) ⟨fun _ h => absurd h List.not_mem_nil,
    fun _ h => absurd h List.not_mem_nil⟩ fun _ _ _ h hok hs => h.step hok hs

end Tables

/-! ### Calls with a descriptor -/

/-- A call with a descriptor number. -/
inductive FdCall
  | readFile (fd count : Int)
  | closeFile (fd : Int)
  | getDirEntries (fd : Int) (count : Nat)

namespace FdCall

def fd : FdCall → Int
  | readFile fd _ => fd
  | closeFile fd => fd
  | getDirEntries fd _ => fd

/-- What the call returns on a descriptor that it rejects. -/
def error : FdCall → Int
  | readFile .. => -1
  | closeFile _ => 1
  | getDirEntries .. => 0

/-- The element of `fd_pointers` that the call reads in `get_fd_address`. Negative numbers do not
get there. -/
def index (c : FdCall) : Option Nat := if c.fd < 0 then none else some (c.fd.toNat / 5)

/-- The slot that the call accesses, by its address. -/
def accessed (c : FdCall) (s : Files) (task : Nat) : Option Nat :=
  c.index.bind fun page =>
    if s.pointer task page = 0 then none else some (s.slotAddr task c.fd.toNat)

/-- The value that the call returns, and what it leaves. -/
def run (c : FdCall) (m : Mem) (ar : Archive) (s : Files) (task : Nat) : Option (Int × Files) :=
  match c with
  | .readFile fd count => (s.readFile m task fd count).map Prod.snd
  | .closeFile fd => s.closeFile task fd
  | .getDirEntries fd count => (s.getDirEntries m ar task fd count).map fun r => ((r.2 : Int), s)

/-- The descriptor number is open. -/
def Opens (c : FdCall) (s : Files) (task : Nat) : Prop := 0 ≤ c.fd ∧ s.IsOpen task c.fd.toNat

end FdCall

/-- **The descriptor is checked**: the table is indexed inside, the slot lies on a page of the
table that is in use, and a descriptor that is not open is rejected without a change. -/
structure Checked (m : Mem) (ar : Archive) (s : Files) (task : Nat) (c : FdCall) : Prop where
  index : ∀ i ∈ c.index, i < 20
  slot : ∀ a ∈ c.accessed s task, ∃ i < 20, s.PageAt (s.pointer task i) ∧
    s.pointer task i ≤ a ∧ a + fdSize ≤ s.pointer task i + 4096
  rejected : ¬ c.Opens s task → c.run m ar s task = some (c.error, s)

/-- The condition on the number and the table. -/
def InTable (s : Files) (task : Nat) : FdCall → Prop
  | .closeFile fd =>
    fd < 100 ∧ (fd < 0 ∨ s.pointer task (fd.toNat / 5) = 0 ∨ s.IsOpen task fd.toNat)
  | c => c.fd < 100

section Bounds

variable {m : Mem} {ar : Archive} {s : Files} {task : Nat} {c : FdCall}

/-- What `get_fd_address` finds for a number of the table: the slot, if its page is there. -/
theorem getFdAddress_of_lt {fd : Nat} (h : fd < 100) :
    s.getFdAddress task fd =
      some (if s.pointer task (fd / 5) = 0 then 0 else s.slotAddr task fd) := by
  rw [getFdAddress, if_pos (by omega)]
  by_cases h0 : s.pointer task (fd / 5) = 0
  · rw [if_neg (not_not.mpr h0), if_pos h0]
  · rw [if_pos h0, if_neg h0, slotAddr]

theorem TableOk.slotAddr_ne_zero (h : s.TableOk task) {n : Nat}
    (hn : s.pointer task (n / 5) ≠ 0) : s.slotAddr task n ≠ 0 := by
  have := pageAt_ne_zero (h.pages _ hn).1
  unfold slotAddr
  omega

theorem name_of_not_open {n : Nat} (hn : s.pointer task (n / 5) ≠ 0) (h : ¬ s.IsOpen task n) :
    (s.fds (s.slotAddr task n)).name = [] := by
  rw [show s.fds (s.slotAddr task n) = s.slot task n from (slot_of_pointer rfl hn).symm]
  exact not_not.mp h

/-- `closeFile` of a slot that is not open returns 0. -/
theorem TableOk.closeFile_unopened (h : s.TableOk task) {fd : Int} (h0 : 0 ≤ fd) (hlt : fd < 100)
    (hn : s.pointer task (fd.toNat / 5) ≠ 0) (ho : ¬ s.IsOpen task fd.toNat) :
    s.closeFile task fd = some (0, s) := by
  simp only [Files.closeFile, Option.bind_eq_bind]
  rw [if_neg (by omega), getFdAddress_of_lt (by omega), if_neg hn, Option.bind_some,
    if_neg (h.slotAddr_ne_zero hn), Files.clearName,
    if_neg (not_not.mpr (name_of_not_open hn ho))]

theorem index_iff (c : FdCall) : (∀ i ∈ c.index, i < 20) ↔ c.fd < 100 := by
  by_cases h0 : c.fd < 0
  · simp only [FdCall.index, if_pos h0]
    exact ⟨fun _ => by omega, fun _ i hi => by cases hi⟩
  · simp only [FdCall.index, if_neg h0, Option.mem_def, Option.some.injEq, forall_eq']
    omega

theorem TableOk.accessed_inside (h : s.TableOk task) (hlt : c.fd < 100) :
    ∀ a ∈ c.accessed s task, ∃ i < 20, s.PageAt (s.pointer task i) ∧
      s.pointer task i ≤ a ∧ a + fdSize ≤ s.pointer task i + 4096 := by
  intro a ha
  obtain ⟨page, hpage, ha⟩ := Option.bind_eq_some_iff.mp ha
  obtain rfl : c.fd.toNat / 5 = page := by
    unfold FdCall.index at hpage
    split at hpage
    · cases hpage
    · exact Option.some.inj hpage
  split_ifs at ha with hn
  obtain rfl := Option.some.inj ha
  refine ⟨c.fd.toNat / 5, by omega, (h.pages _ hn).1, Nat.le_add_right _ _, ?_⟩
  unfold slotAddr fdSize
  omega

/-- A number of the table that is not open: its page is not there, or the slot is empty. -/
theorem TableOk.rejected (h : s.TableOk task) (hc : ∀ count, c ≠ .readFile 0 count)
    (hin : InTable s task c) (ho : ¬ c.Opens s task) : c.run m ar s task = some (c.error, s) := by
  -- in each case the number is negative, its page is missing, or its slot is empty
  have hopen : ∀ fd : Int, 0 ≤ fd → c.fd = fd → ¬ s.IsOpen task fd.toNat := by
    rintro fd h0 rfl hopen
    exact ho ⟨h0, hopen⟩
  cases c with
  | readFile fd count =>
    have hne : fd ≠ 0 := fun h0 => hc count (by rw [h0])
    have hlt : fd < 100 := hin
    simp only [FdCall.run, Files.readFile, FdCall.error, Option.bind_eq_bind]
    by_cases hneg : fd < 0
    · rw [if_pos hneg]
      rfl
    · rw [if_neg hneg, if_neg hne, getFdAddress_of_lt (by omega), Option.bind_some]
      by_cases hn : s.pointer task (fd.toNat / 5) = 0
      · rw [if_pos hn, if_pos rfl]
        rfl
      · rw [if_neg hn, if_neg (h.slotAddr_ne_zero hn),
          if_neg (not_not.mpr (name_of_not_open hn (hopen fd (by omega) rfl)))]
        rfl
  | closeFile fd =>
    obtain ⟨hlt, hcase⟩ := hin
    simp only [FdCall.run, Files.closeFile, FdCall.error, Option.bind_eq_bind]
    by_cases hneg : fd < 0
    · rw [if_pos hneg]
    · -- a number that is not open is rejected only without a page
      have hn : s.pointer task (fd.toNat / 5) = 0 := by
        rcases hcase with hneg' | hn | hopened
        · exact absurd hneg' hneg
        · exact hn
        · exact absurd hopened (hopen fd (by omega) rfl)
      rw [if_neg hneg, getFdAddress_of_lt (by omega), if_pos hn, Option.bind_some, if_pos rfl]
  | getDirEntries fd count =>
    have hlt : fd < 100 := hin
    simp only [FdCall.run, Files.getDirEntries, FdCall.error]
    by_cases hneg : fd < 0
    · rw [if_pos hneg]
      rfl
    · rw [if_neg hneg, getFdAddress_of_lt (by omega), Option.bind_some]
      by_cases hn : s.pointer task (fd.toNat / 5) = 0
      · rw [if_pos hn, if_pos rfl]
        rfl
      · have hname := name_of_not_open hn (hopen fd (by omega) rfl)
        rw [if_neg hn, if_neg (h.slotAddr_ne_zero hn), hname, if_neg (List.cons_ne_nil _ _).symm,
          if_neg (not_not.mpr rfl)]
        rfl

/-- **A call is checked exactly when its descriptor is in the table**, and when it does not close
a slot that is not open. -/
theorem TableOk.checked_iff (h : s.TableOk task) (hc : ∀ count, c ≠ .readFile 0 count) :
    Checked m ar s task c ↔ InTable s task c := by
  constructor
  · intro hk
    have hlt := (index_iff c).mp hk.index
    cases c with
    | readFile fd count => exact hlt
    | getDirEntries fd count => exact hlt
    | closeFile fd =>
      refine ⟨hlt, ?_⟩
      by_contra hnone
      push Not at hnone
      obtain ⟨h0, hn, ho⟩ := hnone
      -- `closeFile` tells that the slot was not open, and returns 0
      have hrun := hk.rejected fun hopens => ho hopens.2
      have hzero := h.closeFile_unopened h0 hlt hn ho
      have heq : (1 : Int) = 0 :=
        (Prod.mk.inj (Option.some.inj (hrun.symm.trans hzero))).1
      exact absurd heq (by decide)
  · intro hin
    have hlt : c.fd < 100 := by
      cases c with
      | readFile fd count => exact hin
      | closeFile fd => exact hin.1
      | getDirEntries fd count => exact hin
    exact ⟨(index_iff c).mpr hlt, h.accessed_inside hlt, h.rejected hc hin⟩

end Bounds

/-- **Descriptors are checked exactly below 100**, for every task of every system: `readFile` and
`getDirEntries` when the number is below 100, `closeFile` when moreover it is negative, its page is
missing, or the slot is open. -/
theorem fd_checked_iff {m : Mem} {ar : Archive} {s : Files} {es : List TableEvent} {t : Tables}
    (hr : Run (Tables.step m ar) (Tables.StepOk m ar) ⟨s, []⟩ es t) {task : Nat}
    (ht : task ∈ t.tasks) (c : FdCall) (hc : ∀ count, c ≠ .readFile 0 count) :
    Checked m ar t.files task c ↔ InTable t.files task c :=
  ((Tables.tables_ok_of_run hr).table task ht).checked_iff hc

/-- Frames 16 to 63 are free, and nothing has been made. -/
def bareFiles : Files where
  phys := ⟨fun _ => 0, fun row => if row = 0 then 0xFFFFFFFFFFFF0000#64 else 0#64, false,
    fun _ => .zeroed⟩
  fds := fun _ => .zeroed

theorem bareFiles_room : 2 ≤ (freeFrames bareFiles.phys.availFrames).card := by
  have hsub : ({16, 17} : Finset Nat) ⊆ freeFrames bareFiles.phys.availFrames := by
    intro n hn
    have hall : ∀ n ∈ ({16, 17} : Finset Nat), n < maxFrames ∧
        IsFree bareFiles.phys.availFrames n := by decide
    exact mem_freeFrames.mpr (hall n hn)
  exact Finset.card_le_card hsub

/-- With room for two pages a task gets its record and a page of descriptors, none of them open. -/
theorem exists_firstTask (m : Mem) (ar : Archive) {s : Files} (hx : s.phys.exhausted = false)
    (hroom : 2 ≤ (freeFrames s.phys.availFrames).card) :
    ∃ t, Run (Tables.step m ar) (Tables.StepOk m ar) ⟨s, []⟩
        [.record, .firstPage s.kmalloc.1] t ∧ s.kmalloc.1 ∈ t.tasks ∧
      t.files.pointer s.kmalloc.1 0 ≠ 0 ∧ ¬ t.files.IsOpen s.kmalloc.1 3 := by
  obtain ⟨hx₁, hroom₁⟩ := kmalloc_alive_of_le (k := 1) hx hroom
  rw [← kmalloc_phys] at hx₁ hroom₁
  obtain ⟨hx₂, -⟩ := kmalloc_alive_of_le (k := 0) hx₁ hroom₁
  rw [← kmalloc_phys] at hx₂
  have hk := kmalloc_fresh hx₂
  have hself := setTable_self s.kmalloc.2.kmalloc.2 s.kmalloc.1
    (s.kmalloc.2.kmalloc.1 :: List.replicate 19 0) 5
  have hptr := pointer_single hself.1
  refine ⟨_, .cons ⟨trivial, fun t ht => ?_⟩ rfl
    (.cons ⟨List.mem_singleton.mpr rfl, fun t ht => ?_⟩ rfl (.nil _)),
    List.mem_singleton.mpr rfl, ?_, ?_⟩
  · obtain rfl := Option.some.inj ht
    exact hx₁
  · obtain rfl := Option.some.inj ht
    exact hx₂
  · rw [hptr, if_pos rfl]
    exact pageAt_ne_zero hk.new
  · -- slot 3 is on the new page, which is cleared
    have hcleared := hk.cleared (fdSize * (3 % 5)) (by decide)
    rw [IsOpen, slot_of_pointer (n := 3) ((hptr (3 / 5)).trans (if_pos rfl))
      (pageAt_ne_zero hk.new)]
    exact fun hne => hne (congrArg FileDescriptor.name hcleared)

/-- The record of the first task. -/
def firstRecord : Nat := bareFiles.kmalloc.1

theorem firstTask (m : Mem) (ar : Archive) : ∃ t, Run (Tables.step m ar) (Tables.StepOk m ar)
    ⟨bareFiles, []⟩ [.record, .firstPage firstRecord] t ∧ firstRecord ∈ t.tasks ∧
      t.files.pointer firstRecord 0 ≠ 0 ∧ ¬ t.files.IsOpen firstRecord 3 :=
  exists_firstTask m ar rfl bareFiles_room

theorem fd_checked_third : ∃ t, Run (Tables.step (fun _ => 0) emptyArchive)
    (Tables.StepOk (fun _ => 0) emptyArchive) ⟨bareFiles, []⟩
      [.record, .firstPage firstRecord] t ∧
    Checked (fun _ => 0) emptyArchive t.files firstRecord (.readFile 3 1) := by
  obtain ⟨t, hr, ht, -⟩ := firstTask (fun _ => 0) emptyArchive
  exact ⟨t, hr, (fd_checked_iff hr ht (.readFile 3 1) (by simp)).mpr
    (show (3 : Int) < 100 by decide)⟩

/-- **Number 100** is behind the table, and closing a slot that is not open is no error. -/
theorem not_fd_checked : ∃ t, Run (Tables.step (fun _ => 0) emptyArchive)
    (Tables.StepOk (fun _ => 0) emptyArchive) ⟨bareFiles, []⟩
      [.record, .firstPage firstRecord] t ∧
    ¬ Checked (fun _ => 0) emptyArchive t.files firstRecord (.readFile 100 1) ∧
    ¬ Checked (fun _ => 0) emptyArchive t.files firstRecord (.closeFile 3) := by
  obtain ⟨t, hr, ht, hptr, hclosed⟩ := firstTask (fun _ => 0) emptyArchive
  have htable := (Tables.tables_ok_of_run hr).table _ ht
  refine ⟨t, hr, fun hk => ?_, fun hk => ?_⟩
  · have hlt : (100 : Int) < 100 := (htable.checked_iff (by simp)).mp hk
    exact absurd hlt (by decide)
  · obtain ⟨-, hneg | hnone | hopen⟩ := (htable.checked_iff (by simp)).mp hk
    · exact absurd hneg (by decide)
    · exact hptr hnone
    · exact hclosed hopen

end Files

end Sbunix
