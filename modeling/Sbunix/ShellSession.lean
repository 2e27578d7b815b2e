import Sbunix.ChangeDirectory
import Sbunix.CommandLine
import Sbunix.Lib.Runs

/-!
# The commands that the shell runs itself

`execute_command` of `bin/sbush` treats `cd`, `exit` and `export` itself and starts a program for
everything else. `export` goes to `env` of `sys/tarfs.c`, which takes its argument apart and calls
`setenv`; `cd` goes to `changeDirectory`, which stores into the value of `PWD`.

* `env_eq` — the two loops of `env` against what `export` is for (`exported`);
* `Located.step` — a command line does to the environment what it asks for (`effect`);
* `environment_of_session` — so does any sequence of lines, and the working directory is always one
  that there is.
-/

namespace Sbunix.ShellSession

open ByteMem Runs

/-! ### The code -/

/-- `'='`. -/
def equals : UInt8 := 0x3D

/-- `'"'`. -/
def quote : UInt8 := 0x22

/-- The loop of `env` for the name, and what is behind the `=`; the inner `none` is a string without
one. The first argument is the room that is left in `name`. -/
def envName : Nat → List UInt8 → Option (Option (List UInt8 × List UInt8))
  | _, [] => some none
  | 0, _ :: _ => none
  | n + 1, c :: cs =>
    if c = equals then some (some ([], cs))
    else (envName n cs).map (Option.map fun r => (c :: r.1, r.2))

/-- The rest of `env`, from the character behind the `=` on: the value. -/
def envValue (rest : List UInt8) : Option (Option (List UInt8)) :=
  let quotesUsed := rest.head? = some quote
  let value := if quotesUsed then rest.tail else rest
  -- `com_args[1][i-1]`
  let last := value.getLast?.getD (if quotesUsed then quote else equals)
  if 512 < value.length then none
  else if last = quote ∧ quotesUsed then
    if 0 < value.length then some (some value.dropLast) else some none
  else if value.length = 512 then none
  else some (some value)

/-- `env`, of the string `com_args[1]`: what it hands to `setenv`. The inner `none` is a return of
−1, and the outer one a store behind `name` or `value`. -/
def env (argument : List UInt8) : Option (Option Var) := do
  match ← envName 512 argument with
  | none => some none
  | some (name, rest) => (envValue rest).map (Option.map fun value => (name, value))

def cdName : List UInt8 := [0x63, 0x64]

def exitName : List UInt8 := [0x65, 0x78, 0x69, 0x74]

def exportName : List UInt8 := [0x65, 0x78, 0x70, 0x6F, 0x72, 0x74]

section Source

variable (m : Mem) (ar : Archive)

/-- `execute_command`, as far as the memory of the shell goes. `exit` returns in the first process,
and a program has a memory of its own. -/
def executeCommand (user : UserMem) (s : Scan) : Option UserMem :=
  (s.comArgs 0).bind fun name =>
    if shellStrcmp name cdName = 0 then
      match s.comArgs 1 with
      | none => some user
      | some path => (changeDirectory m ar user path).map Prod.snd
    else if shellStrcmp name exitName = 0 then some user
    else if shellStrcmp name exportName = 0 then
      match s.comArgs 1 with
      | none => some user
      | some argument => (env argument).bind fun v => v.elim (some user) (setenv user)
    else some user

/-- A line that `read_command` has returned, and what `malloc` leaves in the array for it. -/
structure Turn where
  heap : Int → Option (List UInt8)
  command : List UInt8

/-- A turn of the loop in `main`. -/
def turn (user : UserMem) (t : Turn) : Option UserMem :=
  if t.command = [] then some user
  else (parseCommand t.heap t.command).bind fun
    | none => some user
    | some s => if s.pipeFlag then some user else executeCommand m ar user s

end Source

/-! ### What it is for -/

/-- A value without the quotes around it; a single one is an error. -/
def unquote : List UInt8 → Option (List UInt8)
  | [] => some []
  | c :: rest =>
    if c ≠ quote then some (c :: rest)
    else if rest = [] then none
    else some (if rest.getLast? = some quote then rest.dropLast else rest)

/-- **What `export` is for**: the variable in front of the first `=` gets what is behind it. -/
def exported (argument : List UInt8) : Option Var :=
  if equals ∈ argument then
    (unquote ((argument.dropWhile (· != equals)).drop 1)).map
      fun value => (argument.takeWhile (· != equals), value)
  else none

/-- The arguments of a command line. -/
def arguments (command : List UInt8) : List (List UInt8) := dropAmpersand (commandWords command)

/-- The directory to which a path leads from `pwd`. -/
def destination (pwd path : List UInt8) : List UInt8 := render (absoluteForm pwd path) ++ [slash]

/-- There is a directory of this name. -/
def DirExists (m : Mem) (ar : Archive) (path : List UInt8) : Prop :=
  ∃ a ≠ 0, getDirAddress m ar (path.drop 1) = some a

open Classical in
/-- **What a command line is for**, as far as the environment goes. -/
noncomputable def effect (m : Mem) (ar : Archive) (f : List UInt8 → Option (List UInt8))
    (command : List UInt8) : List UInt8 → Option (List UInt8) :=
  if bar ∈ commandWords command then f
  else match arguments command with
    | name :: argument :: _ =>
      if name = cdName then
        if DirExists m ar (destination ((f pwdName).getD []) argument) then
          assign f (pwdName, destination ((f pwdName).getD []) argument)
        else f
      else if name = exportName then (exported argument).elim f (assign f)
      else f
    | _ => f

/-- **The line stays clear of the defects** of the parser and inside the arrays: the words are found
and fit; a variable that is exported fits, and is not `PWD`; a path that `cd` is given fits its
buffers. All variables are among `names`. -/
structure Safe (m : Mem) (ar : Archive) (names : Finset (List UInt8)) (user : UserMem) (t : Turn) :
    Prop where
  string : 0 ∉ t.command
  words : t.command ≠ [] → commandWords t.command ≠ [] ∧ ¬ ShortFirstWord t.command ∧
    (commandWords t.command).length ≤ 31
  command : t.command ≠ [] → arguments t.command ≠ []
  exports : ∀ argument rest, arguments t.command = exportName :: argument :: rest →
    argument.length < 512 ∧
      ∀ v, exported argument = some v → VarSettable v ∧ v.1 ≠ pwdName ∧ v.1 ∈ names
  moves : ∀ path rest, arguments t.command = cdName :: path :: rest →
    ∃ r, changeDirectory m ar user path = some r

/-- **The invariant of a session**: the environment holds the variables `es`, and `PWD` is the
canonical form of a directory that there is. -/
structure Located (m : Mem) (ar : Archive) (names : Finset (List UInt8)) (user : UserMem)
    (es : List Var) : Prop where
  wf : WellFormedEnv user es
  few : ∀ v ∈ es, v.1 ∈ names
  card : names.card ≤ 200
  pwd : ∃ path, envMap es pwdName = some path ∧ Canonical path ∧
    (path = [slash] ∨ DirExists m ar path)

variable {m : Mem} {ar : Archive} {names : Finset (List UInt8)} {user user' : UserMem}
  {es : List Var} {t : Turn} {argument rest path : List UInt8} {v : Var} {n : Nat}

/-! ### `env` -/

theorem envName_eq (h : argument.length ≤ n) :
    envName n argument = some (if equals ∈ argument then
      some (argument.takeWhile (· != equals), (argument.dropWhile (· != equals)).drop 1)
      else none) := by
  induction argument generalizing n with
  | nil => rw [envName, if_neg List.not_mem_nil]
  | cons c cs ih =>
    obtain ⟨n, rfl⟩ := Nat.exists_eq_succ_of_ne_zero (show n ≠ 0 by
      rintro rfl
      exact absurd h (Nat.not_succ_le_zero _))
    rw [envName]
    by_cases hc : c = equals
    · subst hc
      simp
    · rw [if_neg hc, ih (Nat.le_of_succ_le_succ h)]
      by_cases hmem : equals ∈ cs
      · simp [hc, hmem]
      · simp [hmem, Ne.symm hc]

theorem envValue_eq (h : rest.length < 512) : envValue rest = some (unquote rest) := by
  cases rest with
  | nil => rfl
  | cons c rest =>
    rw [List.length_cons] at h
    by_cases hc : c = quote
    · subst hc
      cases hrest : rest.getLast? with
      | none =>
        -- there is nothing behind the quote
        obtain rfl := List.getLast?_eq_none_iff.mp hrest
        rfl
      | some x =>
        have hne : rest ≠ [] := by
          rintro rfl
          cases hrest
        have hpos : 0 < rest.length := List.length_pos_iff.mpr hne
        by_cases hx : x = quote
        · simp [envValue, unquote, hrest, hx, hne, hpos]
          omega
        · simp [envValue, unquote, hrest, hx, hne]
          omega
    · simp [envValue, unquote, hc]
      omega

/-- **`env` takes its argument apart.** -/
theorem env_eq (h : argument.length < 512) : env argument = some (exported argument) := by
  rw [env, envName_eq h.le, exported]
  by_cases hmem : equals ∈ argument
  · have hlen : ((argument.dropWhile (· != equals)).drop 1).length < 512 := by
      have hdrop := (List.dropWhile_sublist (l := argument) (· != equals)).length_le
      rw [List.length_drop]
      omega
    simp only [if_pos hmem, Option.bind_eq_bind, Option.bind_some, envValue_eq hlen,
      Option.map_some]
  · simp only [if_neg hmem, Option.bind_eq_bind, Option.bind_some]

/-! ### One variable -/

theorem Located.length_lt (h : Located m ar names user es) : es.length < walkFuel := by
  have hsub : (es.map Prod.fst).toFinset ⊆ names := by
    intro name hname
    obtain ⟨v, hv, rfl⟩ := List.mem_map.mp (List.mem_toFinset.mp hname)
    exact h.few v hv
  have hcard := Finset.card_le_card hsub
  rw [List.toFinset_card_of_nodup h.wf.distinct, List.length_map] at hcard
  exact lt_of_le_of_lt (hcard.trans h.card) (by decide)

/-- `setenv` gets through, and the environment is well formed behind it. -/
theorem Located.setenv (h : Located m ar names user es) (hv : VarSettable v)
    (hother : v.1 ≠ pwdName) (hname : v.1 ∈ names) :
    ∃ user', setenv user v = some user' ∧ Located m ar names user' (setVar es v) := by
  obtain ⟨o, ho⟩ := scan_isSome h.wf.name_short v.1
  obtain ⟨user', hset, hE, -, hzero⟩ :=
    setenv_spec h.wf.environ h.wf.fits hv.fits h.length_lt ho
  have hwf := hE.wellFormed (hzero h.wf.last) (nodup_setVar h.wf.distinct)
    (setVar_all h.wf.settable hv)
  obtain ⟨path, hpath, hcan⟩ := h.pwd
  refine ⟨user', hset, hwf, setVar_all h.few hname, h.card, path, ?_, hcan⟩
  rw [envMap_setVar, assign, Function.update_of_ne (Ne.symm hother), hpath]

/-- A canonical path with a slash at the end. -/
theorem path_of_canonical (h : Canonical path) (hlast : path.getLast? = some slash) :
    path = render (components path) ++ [slash] := by
  obtain ⟨cs, hcs, hpath⟩ := h
  have hend : endSlash path = some path := by simp [endSlash, hlast]
  rw [hpath.components hcs]
  exact Option.some.inj (hend.symm.trans (endSlash_path hcs hpath))

/-- `cd` with a path that fits goes to the directory that it leads to, if there is one. -/
theorem Located.chdir (h : Located m ar names user es) (h0 : 0 ∉ path)
    (hs : ∃ r, changeDirectory m ar user path = some r) :
    ∃ r user' es', changeDirectory m ar user path = some (r, user') ∧
      Located m ar names user' es' ∧
      ((DirExists m ar (destination ((envMap es pwdName).getD []) path) ∧
          envMap es' = assign (envMap es)
            (pwdName, destination ((envMap es pwdName).getD []) path)) ∨
        ¬ DirExists m ar (destination ((envMap es pwdName).getD []) path) ∧
          envMap es' = envMap es) := by
  obtain ⟨pwd, hpwd, hcan, -⟩ := h.pwd
  obtain ⟨r, hr⟩ := hs
  obtain ⟨dest, hres, hr'⟩ := Option.bind_eq_some_iff.mp hr
  obtain ⟨a, ha, -⟩ := Option.bind_eq_some_iff.mp hr'
  -- the path that is made is the canonical one
  obtain ⟨hcan', hform⟩ := (removeDotslashIn_canonical_iff h.wf h.length_lt hres).mpr
    (Or.inr ⟨pwd, hpwd, Or.inl hcan⟩)
  obtain ⟨hlast, hzero, hshort⟩ := removeDotslashIn_string hres h0
  obtain rfl : dest = destination ((envMap es pwdName).getD []) path := by
    rw [destination, ← hform]
    exact path_of_canonical hcan' hlast
  by_cases ha0 : a = 0
  · -- there is no such directory
    subst ha0
    refine ⟨-1, user, es, ?_, h, Or.inr ⟨?_, rfl⟩⟩
    · simp only [changeDirectory, hres, ha, Option.bind_eq_bind, Option.bind_some, if_true]
    · rintro ⟨b, hb, hb'⟩
      exact hb (Option.some.inj (hb'.symm.trans ha))
  · obtain ⟨user', hcall, hwf, -⟩ :=
      changeDirectory_present h.wf h.length_lt h0 hres ha ha0 hpwd
    have hexists : DirExists m ar (destination ((envMap es pwdName).getD []) path) :=
      ⟨a, ha0, ha⟩
    refine ⟨0, user', _, hcall, ⟨hwf, ?_, h.card, _, ?_, hcan', Or.inr hexists⟩,
      Or.inl ⟨hexists, envMap_setVar es _⟩⟩
    · refine setVar_all h.few ?_
      -- the variable was there
      have hmem : pwdName ∈ es.map Prod.fst := by
        by_contra hnot
        rw [envMap_eq_none_iff.mpr hnot] at hpwd
        cases hpwd
      obtain ⟨w, hw, hname⟩ := List.mem_map.mp hmem
      exact hname ▸ h.few w hw
    · rw [envMap_setVar, assign, Function.update_self]

/-! ### One line -/

/-- **A line does what it asks for.** -/
theorem Located.step (h : Located m ar names user es) (hok : Safe m ar names user t) :
    ∃ user' es', turn m ar user t = some user' ∧ Located m ar names user' es' ∧
      envMap es' = effect m ar (envMap es) t.command := by
  by_cases hempty : t.command = []
  · refine ⟨user, es, ?_, h, ?_⟩
    · rw [turn, if_pos hempty]
    · rw [hempty, effect, arguments, show commandWords [] = [] from Words.words_nil,
        if_neg List.not_mem_nil]
      rfl
  obtain ⟨hne, hshort, -⟩ := hok.words hempty
  obtain ⟨s, hs, hsplit, -⟩ := parseCommand_of_not_short t.heap hok.string hne hshort
  have hturn : turn m ar user t =
      if s.pipeFlag then some user else executeCommand m ar user s := by
    rw [turn, if_neg hempty, hs, Option.bind_some]
  rw [hturn]
  by_cases hbar : bar ∈ commandWords t.command
  · -- pipes are not executed
    rw [if_pos (hsplit.pipeFlag.mpr hbar), effect, if_pos hbar]
    exact ⟨user, es, rfl, h, rfl⟩
  rw [if_neg fun hc => hbar (hsplit.pipeFlag.mp hc), effect, if_neg hbar]
  have hword : ∀ w ∈ arguments t.command, 0 ∉ w := fun w hw =>
    notMem_of_mem_commandWords hok.string (Scan.mem_of_mem_dropAmpersand hw)
  have hargs : ∀ j : Nat, j ≤ (arguments t.command).length →
      s.comArgs j = (arguments t.command)[j]? := hsplit.args
  have hcommand := hok.command hempty
  have hexports := hok.exports
  have hmoves := hok.moves
  generalize arguments t.command = ws at hword hargs hcommand hexports hmoves
  match ws, hcommand with
  | [name], _ =>
    -- the command alone does nothing
    have h0 : s.comArgs 0 = some name := hargs 0 (Nat.zero_le _)
    have h1 : s.comArgs 1 = none := hargs 1 (le_refl _)
    refine ⟨user, es, ?_, h, rfl⟩
    rw [executeCommand, h0, Option.bind_some, h1]
    split_ifs <;> rfl
  | name :: argument :: rest, _ =>
    have h0 : s.comArgs 0 = some name := hargs 0 (Nat.zero_le _)
    have h1 : s.comArgs 1 = some argument := hargs 1 (by simp)
    have hn := hword name List.mem_cons_self
    have ha := hword argument (List.mem_cons_of_mem _ List.mem_cons_self)
    have hcd : shellStrcmp name cdName = 0 ↔ name = cdName := shellStrcmp_eq_zero hn (by decide)
    have hexit : shellStrcmp name exitName = 0 ↔ name = exitName :=
      shellStrcmp_eq_zero hn (by decide)
    have hexport : shellStrcmp name exportName = 0 ↔ name = exportName :=
      shellStrcmp_eq_zero hn (by decide)
    rw [executeCommand, h0, Option.bind_some, h1]
    simp only [hcd, hexit, hexport]
    by_cases h₁ : name = cdName
    · subst h₁
      obtain ⟨r, user', es', hcall, hL, heff⟩ := h.chdir ha (hmoves argument rest rfl)
      refine ⟨user', es', ?_, hL, ?_⟩
      · rw [if_pos rfl, hcall, Option.map_some]
      · rw [if_pos rfl]
        rcases heff with ⟨hdir, hmap⟩ | ⟨hdir, hmap⟩
        · rw [if_pos hdir, hmap]
        · rw [if_neg hdir, hmap]
    · rw [if_neg h₁, if_neg h₁]
      by_cases h₂ : name = exportName
      · subst h₂
        obtain ⟨hlen, hvar⟩ := hexports argument rest rfl
        rw [if_neg (by decide), if_pos rfl, if_pos rfl, env_eq hlen, Option.bind_some]
        cases hv : exported argument with
        | none => exact ⟨user, es, rfl, h, rfl⟩
        | some v =>
          obtain ⟨hset, hother, hname⟩ := hvar v hv
          obtain ⟨user', hcall, hL⟩ := h.setenv hset hother hname
          exact ⟨user', _, hcall, hL, envMap_setVar es v⟩
      · refine ⟨user, es, ?_, h, ?_⟩
        · rw [if_neg h₂, ite_self]
        · rw [if_neg h₂]

/-! ### Sessions -/

theorem Located.run (h : Located m ar names user es) {ts : List Turn}
    (hr : Run (turn m ar) (Safe m ar names) user ts user') :
    ∃ es', Located m ar names user' es' ∧
      envMap es' = (ts.map Turn.command).foldl (effect m ar) (envMap es) := by
  induction hr generalizing es with
  | nil => exact ⟨es, h, rfl⟩
  | cons hok hs _ ih =>
    obtain ⟨u, es₁, hturn, hL, hmap⟩ := h.step hok
    obtain rfl := Option.some.inj (hs.symm.trans hturn)
    obtain ⟨es', hL', hmap'⟩ := ih hL
    refine ⟨es', hL', ?_⟩
    rw [hmap', hmap, List.map_cons, List.foldl_cons]

/-- **A session.** After any sequence of command lines every variable has the value that the lines
ask for, one after the other; the working directory is canonical, and one that there is; and the
shell gets through the next line. -/
theorem environment_of_session (h : WellFormedEnv user es) (hfew : ∀ v ∈ es, v.1 ∈ names)
    (hcard : names.card ≤ 200) (hpwd : envMap es pwdName = some path) (hcan : Canonical path)
    (hdir : path = [slash] ∨ DirExists m ar path) {ts : List Turn}
    (hr : Run (turn m ar) (Safe m ar names) user ts user') :
    (∀ name, getenvValue user' name =
        some ((ts.map Turn.command).foldl (effect m ar) (envMap es) name)) ∧
      (∃ path', getenvValue user' pwdName = some (some path') ∧ Canonical path' ∧
        (path' = [slash] ∨ DirExists m ar path')) ∧
      ∀ t, Safe m ar names user' t → ∃ user'', turn m ar user' t = some user'' := by
  have hL₀ : Located m ar names user es := ⟨h, hfew, hcard, path, hpwd, hcan, hdir⟩
  obtain ⟨es', hL, hmap⟩ := hL₀.run hr
  refine ⟨fun name => ?_, ?_, fun t hok => ?_⟩
  · rw [hL.wf.getenvValue_eq hL.length_lt, hmap]
  · obtain ⟨path', hpath', hcan', hdir'⟩ := hL.pwd
    refine ⟨path', ?_, hcan', hdir'⟩
    rw [hL.wf.getenvValue_eq hL.length_lt, hpath']
  · obtain ⟨user'', -, hturn, -⟩ := hL.step hok
    exact ⟨user'', hturn⟩

/-- `cd /bin` and `export A="x"`. -/
def exportSession : List Turn :=
  [⟨fun _ => none, [0x63, 0x64, 0x20, 0x2F, 0x62, 0x69, 0x6E]⟩,
    ⟨fun _ => none, [0x65, 0x78, 0x70, 0x6F, 0x72, 0x74, 0x20, 0x41, 0x3D, 0x22, 0x78, 0x22]⟩]

/-- The quotes are not a part of the value. -/
theorem environment_of_session_export : ∃ names user',
    Run (turn binHeader binArchive) (Safe binHeader binArchive names)
      (startMem (initialEnv.map entryOf)) exportSession user' ∧
    getenvValue user' [0x41] = some (some [0x78]) := by
  have hpwd : envMap initialEnv pwdName = some [slash] := by decide
  have hcan : Canonical [slash] := ⟨[], List.forall_mem_nil _, Or.inl rfl⟩
  set names := (initialEnv.map Prod.fst ++ [[0x41]]).toFinset with hnames
  have hfew : ∀ v ∈ initialEnv, v.1 ∈ names := by decide
  have hL : Located binHeader binArchive names (startMem (initialEnv.map entryOf)) initialEnv :=
    ⟨initialEnv_wellFormed, hfew, by decide, _, hpwd, hcan, Or.inl rfl⟩
  -- `cd /bin`
  have hres : removeDotslashIn (startMem (initialEnv.map entryOf)) 255 [0x2F, 0x62, 0x69, 0x6E] 1 =
      some [0x2F, 0x62, 0x69, 0x6E, 0x2F] := rfl
  obtain ⟨u, hu, -⟩ := changeDirectory_present initialEnv_wellFormed (by decide) (by decide) hres
    getDirAddress_bin (by decide) hpwd
  have hcd : arguments [0x63, 0x64, 0x20, 0x2F, 0x62, 0x69, 0x6E] =
      [cdName, [0x2F, 0x62, 0x69, 0x6E]] := by decide
  have hok₁ : Safe binHeader binArchive names (startMem (initialEnv.map entryOf))
      ⟨fun _ => none, [0x63, 0x64, 0x20, 0x2F, 0x62, 0x69, 0x6E]⟩ := by
    refine ⟨by decide, fun _ => by decide, fun _ => by decide, ?_, ?_⟩
    · intro argument rest ha
      rw [hcd] at ha
      exact absurd (List.cons.inj ha).1 (by decide)
    · intro path rest ha
      rw [hcd] at ha
      obtain rfl := (List.cons.inj (List.cons.inj ha).2).1
      exact ⟨_, hu⟩
  obtain ⟨u₁, es₁, hs₁, hL₁, -⟩ := hL.step hok₁
  -- `export A="x"`
  have hexport : arguments
      [0x65, 0x78, 0x70, 0x6F, 0x72, 0x74, 0x20, 0x41, 0x3D, 0x22, 0x78, 0x22] =
      [exportName, [0x41, 0x3D, 0x22, 0x78, 0x22]] := by decide
  have hvar : exported [0x41, 0x3D, 0x22, 0x78, 0x22] = some ([0x41], [0x78]) := by decide
  have hok₂ : Safe binHeader binArchive names u₁
      ⟨fun _ => none,
        [0x65, 0x78, 0x70, 0x6F, 0x72, 0x74, 0x20, 0x41, 0x3D, 0x22, 0x78, 0x22]⟩ := by
    refine ⟨by decide, fun _ => by decide, fun _ => by decide, ?_, ?_⟩
    · intro argument rest ha
      rw [hexport] at ha
      obtain rfl := (List.cons.inj (List.cons.inj ha).2).1
      refine ⟨by decide, fun v hv => ?_⟩
      obtain rfl := Option.some.inj (hvar.symm.trans hv)
      exact ⟨by decide, by decide, by decide⟩
    · intro path rest ha
      rw [hexport] at ha
      exact absurd (List.cons.inj ha).1 (by decide)
  obtain ⟨u₂, es₂, hs₂, -⟩ := hL₁.step hok₂
  have hr : Run (turn binHeader binArchive) (Safe binHeader binArchive names)
      (startMem (initialEnv.map entryOf)) exportSession u₂ :=
    .cons hok₁ hs₁ (.cons hok₂ hs₂ (.nil _))
  obtain ⟨henv, -⟩ := environment_of_session initialEnv_wellFormed hfew (by decide) hpwd hcan
    (Or.inl rfl) hr
  refine ⟨names, u₂, hr, ?_⟩
  rw [henv, exportSession, List.map_cons, List.map_cons, List.map_nil, List.foldl_cons,
    List.foldl_cons, List.foldl_nil]
  conv_lhs => rw [effect]
  rw [if_neg (by decide), hexport]
  dsimp only
  rw [if_neg (by decide), if_pos rfl, hvar, Option.elim_some, assign, Function.update_self]

end Sbunix.ShellSession
