import Sbunix.Descriptors
import Sbunix.ForkPages

/-!
# Descriptor tables after fork

`fork` copies the pointers of the descriptor table, so parent and child start with the same pages;
pages that either of them adds later are its own.

`View` is what a table says, without addresses, and `View.step` what a call makes of it. The table
of a process is the result of its own calls in every run in which no call opens or closes a
descriptor on a page that both processes have (`tables_independent`); the first call that does is
seen by the other process (`open_in_child`).
-/

namespace Sbunix

open ByteMem Runs

/-- The child has the table of its parent. -/
theorem Forked.pointer {L G : List Nat} {k k' : Kernel} {Γ Γ' : Nat → Use}
    {pages : List (Vma × Nat)} {root : Nat} (h : Forked L G k Γ pages root k' Γ')
    (fds fds' : Nat → FileDescriptor) (i : Nat) :
    Files.pointer ⟨k'.phys, fds'⟩ (kernbase + k.phys.kmalloc.1) i =
      Files.pointer ⟨k.phys, fds⟩ k.runningThread i := by
  rw [Files.pointer, Files.pointer]
  exact congrArg (fun l => List.getD l i 0) h.files.1

namespace Files

/-- A call that opens or closes. A directory is closed through the handle of descriptor `n`. -/
inductive TableCall
  | openFile (cwd file : List UInt8)
  | openDirectory (cwd dir : List UInt8)
  | closeFile (fd : Int)
  | closeDir (n : Nat)

/-- What a descriptor says. -/
structure Listed where
  name : List UInt8
  start : Nat
  isDir : Bool
  deriving DecidableEq, Repr

/-- What a table says. -/
abbrev View := Nat → Listed

/-- The table of `task`, without addresses. -/
def view (s : Files) (task n : Nat) : Listed :=
  ⟨(s.slot task n).name, (s.slot task n).start, decide ((s.slot task n).dDirp ≠ 0)⟩

/-- The call with its actual arguments. -/
def TableCall.toCall (s : Files) (task : Nat) : TableCall → Call
  | .openFile cwd file => .openFile cwd file
  | .openDirectory cwd dir => .openDirectory cwd dir
  | .closeFile fd => .closeFile fd
  | .closeDir n => .closeDir (if s.pointer task (n / 5) = 0 then 0 else s.slotAddr task n)

section Calls

variable (m : Mem) (ar : Archive)

/-- What an open finds in the archive. -/
def lookup : TableCall → Option Listed
  | .openFile cwd file =>
    if file = [] then none
    else (resolveFile m ar cwd file).bind fun r => if r.1 = 0 then none else some ⟨r.2, r.1, false⟩
  | .openDirectory cwd dir =>
    if dir = [] then none
    else (resolveDir m ar cwd dir).bind fun r => if r.1 = 0 then none else some ⟨r.2, r.1, true⟩
  | _ => none

/-- The descriptor that the call opens or closes. -/
def View.changed (t : View) : TableCall → Option Nat
  | .closeFile fd => if 0 ≤ fd ∧ (t fd.toNat).name ≠ [] then some fd.toNat else none
  | .closeDir n => if 2 < n ∧ n < 100 ∧ (t n).isDir ∧ (t n).name ≠ [] then some n else none
  | c => (lookup m ar c).bind fun _ =>
    (List.range 100).find? fun n => decide (2 < n ∧ (t n).name = [])

/-- **A call on a view.** -/
def View.step (t : View) (c : TableCall) : View :=
  match t.changed m ar c with
  | none => t
  | some n => Function.update t n ((lookup m ar c).getD { t n with name := [] })

/-- Both tasks have the page of descriptor `n` of `task`. -/
def Shared (s : Files) (task other n : Nat) : Prop :=
  s.pointer task (n / 5) ≠ 0 ∧ ∃ j, s.pointer other j = s.pointer task (n / 5)

/-- **The call stays on pages of its own task.** -/
def Private (s : Files) (task other : Nat) (c : TableCall) : Prop :=
  ∀ n, View.changed m ar (s.view task) c = some n → ¬ s.Shared task other n

/-- A system of two tasks; a call is made by the first or by the second. -/
def stepOf (p q : Nat) (s : Files) (e : Bool × TableCall) : Option Files :=
  let task := if e.1 then p else q
  (s.call m ar task (e.2.toCall s task)).map Prod.snd

/-- The condition on a step of the system. -/
def StepOk (p q : Nat) (s : Files) (e : Bool × TableCall) : Prop :=
  Private m ar s (if e.1 then p else q) (if e.1 then q else p) e.2 ∧
    ∀ s', stepOf m ar p q s e = some s' → s'.phys.exhausted = false

end Calls

variable {m : Mem} {ar : Archive} {s s' : Files} {task other n : Nat} {c : TableCall} {r : Int}

/-- Writing to a page that the other task does not have. -/
theorem slot_setFd_other {p : Nat} (ho : s.TableOk other) (hp : s'.PageAt p)
    (hne : ∀ j, s.pointer other j ≠ p) (d : FileDescriptor) (k : Nat) :
    (s.setFd (p + fdSize * (n % 5)) d).slot other k = s.slot other k := by
  rw [slot_setFd, if_neg]
  rintro ⟨hk, haddr⟩
  exact hne _ (slot_addr_inj (ho.pages _ hk).1 hp (Nat.mod_lt k (by decide))
    (Nat.mod_lt n (by decide)) haddr).1

theorem TableOk.setFd_other {p : Nat} (ho : s.TableOk other) (hp : s'.PageAt p)
    (hne : ∀ j, s.pointer other j ≠ p) (d : FileDescriptor) :
    (s.setFd (p + fdSize * (n % 5)) d).TableOk other :=
  ⟨ho.record, ho.length, ho.pages, ho.distinct, ho.count, fun k => by
    rw [slot_setFd_other ho hp hne]
    exact ho.handles k⟩

/-- A slot is written that is not shared: the other table stays. -/
theorem TableOk.keep_other {found : Files} (h : found.TableOk task) (ho : s.TableOk other)
    (hext : Extends task s found) (hne : other ≠ task) (hn : found.pointer task (n / 5) ≠ 0)
    (hpriv : ¬ s.Shared task other n) (d : FileDescriptor) :
    (found.setFd (found.slotAddr task n) d).TableOk other ∧
      ∀ k, (found.setFd (found.slotAddr task n) d).slot other k = s.slot other k := by
  have ho' := ho.extends hext hne
  have hptr : ∀ j, found.pointer other j ≠ found.pointer task (n / 5) := fun j hj => by
    rw [hext.pointer ho.record hne] at hj
    have hj0 : s.pointer other j ≠ 0 := fun hc => hn (hj.symm.trans hc)
    rcases hext.pointers (n / 5) with heq | hnew
    · exact hpriv ⟨heq ▸ hn, j, hj.trans heq⟩
    · exact hnew (hj ▸ (ho.pages j hj0).1)
  have hpage := (h.pages _ hn).1
  exact ⟨ho'.setFd_other hpage hptr d, fun k =>
    (slot_setFd_other ho' hpage hptr d k).trans (hext.slot ho hne k)⟩

theorem view_congr (hslot : ∀ k, s'.slot task k = s.slot task k) : s'.view task = s.view task := by
  funext k
  rw [view, view, hslot]

/-- **Opening**, on the view of the task and of the other one. -/
theorem TableOk.openSlot_view (h : s.TableOk task) (ho : s.TableOk other) (hne : other ≠ task)
    {d : Listed} {dirp : Nat → Nat} (hd : ∀ a, dirp a = if d.isDir then a else 0)
    (hpriv : ∀ n, (List.range 100).find? (fun n => decide (2 < n ∧ (s.view task n).name = [])) =
      some n → ¬ s.Shared task other n)
    (hx : (s.openSlot task d.name d.start dirp).2.phys.exhausted = false) :
    (s.openSlot task d.name d.start dirp).2.TableOk task ∧
      (s.openSlot task d.name d.start dirp).2.TableOk other ∧
      (s.openSlot task d.name d.start dirp).2.view task =
        (match (List.range 100).find? fun n => decide (2 < n ∧ (s.view task n).name = []) with
        | none => s.view task
        | some n => Function.update (s.view task) n d) ∧
      (s.openSlot task d.name d.start dirp).2.view other = s.view other := by
  have hd' : ∀ a, dirp a = 0 ∨ dirp a = a := fun a => by
    rw [hd]
    split
    · exact Or.inr rfl
    · exact Or.inl rfl
  obtain ⟨hok, hcase⟩ := h.openSlot hd' hx
  have hvac : Vacant (s.slot task) = fun n => decide (2 < n ∧ (s.view task n).name = []) := rfl
  rw [hvac] at hcase
  -- the pages that the search has added
  have hxf : (s.findSlot task (List.range' 0 20)).2.phys.exhausted = false := by
    rw [Files.openSlot, List.range_eq_range'] at hx
    split at hx
    · exact hx
    · exact hx
  obtain ⟨hokf, hext, -, hfst, hmem⟩ := h.findSlot (j := 0) (by decide) (Nat.zero_le _) hxf
  rw [show 5 * 0 = 0 from rfl, show 5 * 20 = 100 from rfl, hvac] at hfst
  simp only [Files.openSlot, List.range_eq_range'] at hok hcase hpriv ⊢
  generalize s.findSlot task (List.range' 0 20) = found at hok hcase hokf hext hfst hmem ⊢
  rcases hf : (List.range' 0 100).find? fun n => decide (2 < n ∧ (s.view task n).name = []) with
    _ | n
  · rw [hf] at hfst
    have hnone : found.1 = none := Option.map_eq_none_iff.mp hfst
    simp only [hf, hnone] at hok hcase ⊢
    exact ⟨hok, ho.extends hext hne, view_congr hcase.2, view_congr fun k => hext.slot ho hne k⟩
  · rw [hf] at hfst
    obtain ⟨⟨n', a⟩, hsome, rfl⟩ := Option.map_eq_some_iff.mp hfst
    obtain ⟨ha, hptr⟩ := hmem (n', a) hsome
    obtain rfl : a = found.2.slotAddr task n' := ha
    simp only [hf, hsome] at hok hcase ⊢
    obtain ⟨a, ha, -, ha0, hslot⟩ := hcase
    obtain ⟨-, rfl⟩ := Prod.mk.inj (Option.some.inj ha)
    obtain ⟨hok', hslot'⟩ := hokf.keep_other ho hext hne hptr (hpriv n' hf)
      ⟨d.start, d.start, [], d.name, dirp (found.2.slotAddr task n')⟩
    refine ⟨hok, hok', ?_, view_congr hslot'⟩
    funext k
    rw [view, hslot]
    by_cases hk : k = n'
    · subst hk
      rw [if_pos rfl, Function.update_self, hd]
      obtain ⟨name, start, isDir⟩ := d
      cases isDir
      · simp
      · simpa using ha0
    · rw [if_neg hk, Function.update_of_ne hk]
      rfl

/-- **Closing**, on both views. -/
theorem TableOk.clearName_view (h : s.TableOk task) (ho : s.TableOk other) (hne : other ≠ task)
    (hn : s.pointer task (n / 5) ≠ 0)
    (hpriv : (s.view task n).name ≠ [] → ¬ s.Shared task other n) :
    (s.clearName (s.slotAddr task n)).TableOk task ∧
      (s.clearName (s.slotAddr task n)).TableOk other ∧
      (s.clearName (s.slotAddr task n)).view task = (if (s.view task n).name ≠ [] then
        Function.update (s.view task) n { s.view task n with name := [] } else s.view task) ∧
      (s.clearName (s.slotAddr task n)).view other = s.view other := by
  have hfd : s.fds (s.slotAddr task n) = s.slot task n := (slot_of_pointer rfl hn).symm
  unfold Files.clearName
  rw [hfd]
  by_cases hname : (s.slot task n).name = []
  · have hv : ¬ (s.view task n).name ≠ [] := not_not.mpr hname
    rw [if_neg (not_not.mpr hname), if_neg hv]
    exact ⟨h, ho, rfl, rfl⟩
  · have hv : (s.view task n).name ≠ [] := hname
    rw [if_pos hname, if_pos hv]
    obtain ⟨hok, hslot⟩ := h.setFd hn (d := { s.slot task n with name := [] }) (h.handles n)
    obtain ⟨hok', hslot'⟩ := h.keep_other ho (.refl task s) hne hn (hpriv hv)
      { s.slot task n with name := [] }
    refine ⟨hok, hok', ?_, view_congr hslot'⟩
    funext k
    rw [view, hslot]
    by_cases hk : k = n
    · subst hk
      rw [if_pos rfl, Function.update_self]
      rfl
    · rw [if_neg hk, Function.update_of_ne hk]
      rfl

theorem View.step_of_changed {t : View} (h : t.changed m ar c = none) : t.step m ar c = t := by
  rw [View.step, h]

theorem TableOk.tableOpen (h : s.TableOk task) (ho : s.TableOk other) (hne : other ≠ task)
    {d : Listed} {dirp : Nat → Nat} (hd : ∀ a, dirp a = if d.isDir then a else 0)
    (hlook : lookup m ar c = some d)
    (hch : View.changed m ar (s.view task) c = (lookup m ar c).bind fun _ =>
      (List.range 100).find? fun n => decide (2 < n ∧ (s.view task n).name = []))
    (hpriv : Private m ar s task other c)
    (hx : (s.openSlot task d.name d.start dirp).2.phys.exhausted = false) :
    (s.openSlot task d.name d.start dirp).2.TableOk task ∧
      (s.openSlot task d.name d.start dirp).2.TableOk other ∧
      (s.openSlot task d.name d.start dirp).2.view task = View.step m ar (s.view task) c ∧
      (s.openSlot task d.name d.start dirp).2.view other = s.view other := by
  rw [hlook, Option.bind_some] at hch
  obtain ⟨hok, hok', hv, hv'⟩ := h.openSlot_view ho hne hd
    (fun n hn => hpriv n (hch.trans hn)) hx
  refine ⟨hok, hok', ?_, hv'⟩
  rw [hv, View.step, hch, hlook]
  rfl

/-- **A call of a task** makes of its view what the call is about, and leaves the other view. -/
theorem TableOk.tableCall (h : s.TableOk task) (ho : s.TableOk other) (hne : other ≠ task)
    (hpriv : Private m ar s task other c) (hx : s'.phys.exhausted = false)
    (hs : s.call m ar task (c.toCall s task) = some (r, s')) :
    s'.TableOk task ∧ s'.TableOk other ∧ s'.view task = View.step m ar (s.view task) c ∧
      s'.view other = s.view other := by
  -- on the error paths neither the state nor the view changes
  have hsame : View.changed m ar (s.view task) c = none → s' = s →
      s'.TableOk task ∧ s'.TableOk other ∧ s'.view task = View.step m ar (s.view task) c ∧
        s'.view other = s.view other := by
    rintro hch rfl
    exact ⟨h, ho, (View.step_of_changed hch).symm, rfl⟩
  cases c with
  | openFile cwd file =>
    obtain ⟨⟨-, heq⟩, hnone⟩ | ⟨start, name, hf, h0, hres, -, rfl⟩ := openFile_cases hs
    · refine hsame ?_ heq
      have hlook : lookup m ar (.openFile cwd file) = none := by
        rw [lookup]
        split
        · rfl
        · next hf =>
          obtain ⟨name, hres⟩ := hnone.resolve_left hf
          simp only [hres, Option.bind_some, if_true]
      simp only [View.changed, hlook, Option.bind_none]
    · have hlook : lookup m ar (.openFile cwd file) = some ⟨name, start, false⟩ := by
        simp only [lookup, if_neg hf, hres, Option.bind_some, if_neg h0]
      exact h.tableOpen ho hne (d := ⟨name, start, false⟩) (fun _ => rfl) hlook rfl hpriv hx
  | openDirectory cwd dir =>
    obtain ⟨⟨a, t⟩, ha, heq⟩ := Option.map_eq_some_iff.mp hs
    obtain ⟨-, rfl⟩ := Prod.mk.inj heq
    obtain ⟨⟨-, heq⟩, hnone⟩ | ⟨start, name, hf, h0, hres, -, rfl⟩ := openDirectory_cases ha
    · refine hsame ?_ heq
      have hlook : lookup m ar (.openDirectory cwd dir) = none := by
        rw [lookup]
        split
        · rfl
        · next hf =>
          obtain ⟨name, hres⟩ := hnone.resolve_left hf
          simp only [hres, Option.bind_some, if_true]
      simp only [View.changed, hlook, Option.bind_none]
    · have hlook : lookup m ar (.openDirectory cwd dir) = some ⟨name, start, true⟩ := by
        simp only [lookup, if_neg hf, hres, Option.bind_some, if_neg h0]
      exact h.tableOpen ho hne (d := ⟨name, start, true⟩) (fun _ => rfl) hlook rfl hpriv hx
  | closeFile fd =>
    simp only [TableCall.toCall, Files.call, Files.closeFile] at hs
    split at hs
    · next hfd =>
      refine hsame ?_ (Prod.mk.inj (Option.some.inj hs)).2.symm
      rw [View.changed, if_neg fun hc => by omega]
    · next hfd =>
      simp only [Option.bind_eq_bind] at hs
      obtain ⟨a, ha, hs⟩ := Option.bind_eq_some_iff.mp hs
      split at hs
      · next ha0 =>
        refine hsame ?_ (Prod.mk.inj (Option.some.inj hs)).2.symm
        -- no page, so no open slot to close
        have h0 := pointer_eq_zero_of_getFdAddress (ha0 ▸ ha)
        have hname : (s.view task fd.toNat).name = [] := by
          rw [view, slot, if_pos h0]
          rfl
        rw [View.changed, if_neg fun hc => hc.2 hname]
      · next ha0 =>
        obtain rfl := (Prod.mk.inj (Option.some.inj hs)).2
        obtain ⟨-, hptr, rfl⟩ := slotAddr_eq_of_getFdAddress ha ha0
        have hch : View.changed m ar (s.view task) (.closeFile fd) =
            if (s.view task fd.toNat).name ≠ [] then some fd.toNat else none := by
          simp only [View.changed, show 0 ≤ fd by omega, true_and]
        obtain ⟨hok, hok', hv, hv'⟩ := h.clearName_view ho hne hptr fun hname =>
          hpriv fd.toNat (by rw [hch, if_pos hname])
        refine ⟨hok, hok', ?_, hv'⟩
        rw [hv, View.step, hch]
        split <;> rfl
  | closeDir k =>
    simp only [TableCall.toCall, Files.call, Files.closeDir] at hs
    by_cases h0 : s.pointer task (k / 5) = 0
    · rw [if_pos h0, if_pos rfl] at hs
      refine hsame ?_ (Prod.mk.inj (Option.some.inj hs)).2.symm
      have hname : (s.view task k).name = [] := by
        rw [view, slot, if_pos h0]
        rfl
      rw [View.changed, if_neg fun hc => hc.2.2.2 hname]
    · have ha0 : s.slotAddr task k ≠ 0 := by
        have := pageAt_ne_zero (h.pages _ h0).1
        unfold slotAddr
        omega
      rw [if_neg h0, if_neg ha0] at hs
      by_cases hdir : 2 < k ∧ k < 100 ∧ (s.view task k).isDir
      · -- the handle of a directory is its address
        have hd : (s.slot task k).dDirp ≠ 0 := by simpa [view] using hdir.2.2
        have hfd := (h.getFd_eq_some ha0).mpr
          ⟨hdir.1, hdir.2.1, h0, rfl, (h.handles k).resolve_left hd⟩
        have ha : s.getFdAddress task k = some (s.slotAddr task k) := by
          rw [getFdAddress, if_pos (by omega), if_pos h0]
          rfl
        simp only [hfd, ha, Option.bind_eq_bind, Option.bind_some, if_neg ha0, Option.some.injEq,
          Prod.mk.injEq] at hs
        obtain ⟨-, rfl⟩ := hs
        have hch : View.changed m ar (s.view task) (.closeDir k) =
            if (s.view task k).name ≠ [] then some k else none := by
          simp only [View.changed, hdir, true_and]
        obtain ⟨hok, hok', hv, hv'⟩ := h.clearName_view ho hne h0 fun hname =>
          hpriv k (by rw [hch, if_pos hname])
        refine ⟨hok, hok', ?_, hv'⟩
        rw [hv, View.step, hch]
        split <;> rfl
      -- not the handle of a directory: `get_fd` finds nothing
      · have hnone : s.getFd task (s.slotAddr task k) = none := by
          cases hfd : s.getFd task (s.slotAddr task k) with
          | none => rfl
          | some j =>
            obtain ⟨h2, hlt, hptr, haddr, hd⟩ := (h.getFd_eq_some ha0).mp hfd
            obtain rfl := h.slotAddr_inj hptr h0 haddr
            exact absurd ⟨h2, hlt, by simpa [view, hd] using ha0⟩ hdir
        rw [hnone] at hs
        refine hsame ?_ (Prod.mk.inj (Option.some.inj hs)).2.symm
        rw [View.changed, if_neg fun hc => hdir ⟨hc.1, hc.2.1, hc.2.2.1⟩]

/-- **The tables of two tasks are independent** while each call stays on pages of its own task:
what a table says is the result of the calls of its own task. -/
theorem tables_independent {p q : Nat} (hp : s.TableOk p) (hq : s.TableOk q) (hne : p ≠ q)
    {es : List (Bool × TableCall)} (hr : Run (stepOf m ar p q) (StepOk m ar p q) s es s') :
    s'.view p = ((es.filter fun e => e.1).map Prod.snd).foldl (View.step m ar) (s.view p) ∧
      s'.view q = ((es.filter fun e => !e.1).map Prod.snd).foldl (View.step m ar) (s.view q) := by
  induction hr with
  | nil => exact ⟨rfl, rfl⟩
  | @cons t t' t'' e es hok hs _ ih =>
    obtain ⟨first, c⟩ := e
    obtain ⟨⟨r, u⟩, hcall, rfl⟩ := Option.map_eq_some_iff.mp hs
    have hx := hok.2 _ hs
    cases first with
    | true =>
      obtain ⟨hp', hq', hv, hv'⟩ := hp.tableCall hq hne.symm hok.1 hx hcall
      obtain ⟨h₁, h₂⟩ := ih hp' hq'
      rw [h₁, h₂, hv, hv']
      exact ⟨rfl, rfl⟩
    | false =>
      obtain ⟨hq', hp', hv, hv'⟩ := hq.tableCall hp hne hok.1 hx hcall
      obtain ⟨h₁, h₂⟩ := ih hp' hq'
      rw [h₁, h₂, hv, hv']
      exact ⟨rfl, rfl⟩

/-! ### Two tasks -/

/-- Two tasks, in pages `0x3000` and `0x5000`, with one page of descriptors each. -/
def twoFiles (page page' : Nat) : Files where
  phys := ⟨fun _ => 0, fun _ => 0, false, fun a =>
    if a = kernbase + 0x3000 then newTable page
    else if a = kernbase + 0x5000 then newTable page' else .zeroed⟩
  fds := fun _ => .zeroed

theorem twoFiles_tasks (page page' : Nat) :
    (twoFiles page page').phys.tasks (kernbase + 0x3000) = newTable page ∧
      (twoFiles page page').phys.tasks (kernbase + 0x5000) = newTable page' := by
  have hne : kernbase + 0x5000 ≠ kernbase + 0x3000 := by decide
  simp only [twoFiles, if_true, if_neg hne, and_self]

theorem twoFiles_ok : (twoFiles 0x7000 0x8000).TableOk (kernbase + 0x3000) ∧
    (twoFiles 0x7000 0x8000).TableOk (kernbase + 0x5000) := by
  have hused : ∀ n, ¬ IsFree (twoFiles 0x7000 0x8000).phys.availFrames n := fun n hc => by
    simp [twoFiles, IsFree] at hc
  obtain ⟨ht, ht'⟩ := twoFiles_tasks 0x7000 0x8000
  exact ⟨tableOk_new ht ⟨0x3000, rfl, by decide, by decide, hused _⟩
      ⟨0x7000, rfl, by decide, by decide, hused _⟩ (by decide) fun _ => rfl,
    tableOk_new ht' ⟨0x5000, rfl, by decide, by decide, hused _⟩
      ⟨0x8000, rfl, by decide, by decide, hused _⟩ (by decide) fun _ => rfl⟩

/-- The first task opens the root directory on its own page. -/
theorem tables_independent_root : ∃ s', Run
    (stepOf (fun _ => 0) emptyArchive (kernbase + 0x3000) (kernbase + 0x5000))
    (StepOk (fun _ => 0) emptyArchive (kernbase + 0x3000) (kernbase + 0x5000))
    (twoFiles 0x7000 0x8000) [(true, .openFile [] [slash])] s' ∧
      s'.view (kernbase + 0x5000) = (twoFiles 0x7000 0x8000).view (kernbase + 0x5000) := by
  obtain ⟨hp, hq⟩ := twoFiles_ok
  obtain ⟨s', hs', hx⟩ : ∃ s', stepOf (fun _ => 0) emptyArchive (kernbase + 0x3000)
      (kernbase + 0x5000) (twoFiles 0x7000 0x8000) (true, .openFile [] [slash]) = some s' ∧
        s'.phys.exhausted = false := ⟨_, rfl, rfl⟩
  have hr : Run (stepOf (fun _ => 0) emptyArchive (kernbase + 0x3000) (kernbase + 0x5000))
      (StepOk (fun _ => 0) emptyArchive (kernbase + 0x3000) (kernbase + 0x5000))
      (twoFiles 0x7000 0x8000) [(true, .openFile [] [slash])] s' := by
    refine .cons ⟨fun n _ hc => ?_, fun t ht => ?_⟩ hs' (.nil _)
    · -- no page is shared
      obtain ⟨hn, j, hj⟩ := hc
      obtain ⟨ht, ht'⟩ := twoFiles_tasks 0x7000 0x8000
      simp only [if_true, newTable_pointer ht, newTable_pointer ht'] at hn hj
      by_cases h5 : n / 5 = 0
      · rw [if_pos h5] at hj
        split at hj <;> exact absurd hj (by decide)
      · exact hn (if_neg h5)
    · obtain rfl := Option.some.inj (hs'.symm.trans ht)
      exact hx
  exact ⟨s', hr, (tables_independent hp hq (by decide) hr).2⟩

/-- **The other process sees it.** With the table that `fork` has copied, the parent opens a
file, and the descriptor is open in the child. -/
theorem open_in_child : ∃ s', stepOf (fun _ => 0) emptyArchive (kernbase + 0x3000)
      (kernbase + 0x5000) (twoFiles 0x7000 0x7000) (true, .openFile [] [slash]) = some s' ∧
    ¬ (twoFiles 0x7000 0x7000).IsOpen (kernbase + 0x5000) 3 ∧ s'.IsOpen (kernbase + 0x5000) 3 :=
  ⟨_, rfl, by decide, by decide⟩

end Files

end Sbunix
