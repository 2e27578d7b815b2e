import Mathlib.Data.List.TakeWhile
import Sbunix.Printf
import Sbunix.ScreenText
import Sbunix.Terminal

/-!
# The status line

The last row of the VGA buffer belongs to three bars: the time of the real-time clock, the last key,
and the time since the boot. They are written by the interrupt handlers (`time_bar`,
`keypress_bar`, `boot_time_bar`), between the calls of `kprintf`.

* `Display.display_of_run` — in every interleaving the bars show what they should, and the text is
  the sheet that `kprintf` has written;
* `Rtc.shown_iff` — when the time of the real-time clock is right.
-/

namespace Sbunix

open ByteMem Runs Typewriter

/-- The bytes of a string literal. -/
def text (s : String) : List UInt8 := s.toList.map fun c => UInt8.ofNat c.toNat

/-- The characters up to the first NUL. -/
def untilNul (s : List UInt8) : List UInt8 := s.takeWhile (· != 0)

/-- `itoa`; a single digit gets a zero in front of it. -/
def itoa (x : Int) : List UInt8 :=
  let digCount := digitCount 10 64 x 1
  (if digCount = 1 then [0x30] else []) ++ digitChars 10 64 x digCount

/-- `time_concatenate`. -/
def timeConcatenate (s1 hours minutes seconds : List UInt8) : List UInt8 :=
  untilNul s1 ++ untilNul hours ++ [0x3A] ++ untilNul minutes ++ [0x3A] ++ untilNul seconds

namespace Screen

/-- The loop of a bar; the string is done at its NUL, and blanks follow. -/
def barLoop (color : UInt8) (stop : Nat) : Nat → Mem → Nat → List UInt8 → Mem
  | 0, m, _, _ => m
  | n + 1, m, pointer, s =>
    if pointer < stop then
      if s.headD 0 ≠ 0 then
        barLoop color stop n (write8 (write8 m pointer (s.headD 0)) (pointer + 1) color)
          (pointer + 2) s.tail
      else
        barLoop color stop n (write8 (write8 m pointer 0x20) (pointer + 1) color) (pointer + 2) s
    else m

/-- A bar from byte `first` to byte `stop` of the buffer. -/
def bar (s : Screen) (first stop : Nat) (str : List UInt8) (color : UInt8) : Screen :=
  { s with mem := barLoop color (s.vga + stop) (stop - first) s.mem (s.vga + first) str }

/-- `time_bar`. -/
def timeBar (s : Screen) (hours minutes seconds : Int) (color : UInt8) : Screen :=
  s.bar 0xF00 0xF32
    (timeConcatenate (text "TIME(NYC): ") (itoa hours) (itoa minutes) (itoa seconds)) color

/-- `keypress_bar`. -/
def keypressBar (s : Screen) (str : List UInt8) (color : UInt8) : Screen :=
  s.bar 0xF32 0xF6E str color

/-- `boot_time_bar`. -/
def bootTimeBar (s : Screen) (hours minutes seconds : Int) (color : UInt8) : Screen :=
  s.bar 0xF6E 0xFA0
    (timeConcatenate (text "timeSinceBoot: ") (itoa hours) (itoa minutes) (itoa seconds)) color

end Screen

/-! ### The real-time clock -/

/-- A `char`. -/
def charOf (x : Int) : Int := x.bmod (2 ^ 8)

/-- `x & mask`, for a `char` and a mask of seven bits and the sign. -/
def andMask (x : Int) (mask : Nat) : Int := ((x % 2 ^ 8).toNat &&& mask : Nat)

/-- `rtc_second`, `rtc_minute` and `rtc_hour`. -/
structure Rtc where
  second : Int
  minute : Int
  hour : Int
  deriving DecidableEq

/-- The part of `_rtc_intr_hndlr` that reads the registers of the clock. -/
def Rtc.read (cmos : Nat → UInt8) : Rtc :=
  let second := charOf (cmos 0x00).toNat
  let second := charOf (second.tdiv 16 * 10 + andMask second 0xF)
  let minute := charOf (cmos 0x02).toNat
  let hour := charOf (cmos 0x04).toNat
  let regb := (cmos 0x0B).toNat
  let minute :=
    if regb &&& 0x04 = 0 then charOf (andMask minute 0x0F + minute.tdiv 16 * 10) else minute
  -- the mask takes the bit for the afternoon away
  let hour :=
    if regb &&& 0x04 = 0 then charOf (andMask hour 0x0F + (andMask hour 0x70).tdiv 16 * 10)
    else hour
  let hour :=
    if regb &&& 0x02 = 0 ∧ andMask hour 0x80 ≠ 0 then charOf ((andMask hour 0x7F + 12).tmod 24)
    else hour
  let hour := charOf (if hour - 5 < 0 then hour - 5 + 24 else hour - 5)
  ⟨second, minute, hour⟩

/-! ### The display -/

/-- The screen, and the static variables of the handlers that write on the status line. -/
structure Display where
  screen : Screen
  i : Nat
  hour : Int
  minute : Int
  seconds : Int
  rtcReadTimeout : Nat
  rtc : Rtc

/-- Who writes on the screen. -/
inductive DisplayEvent
  | print (c : PrintCall)
  | key (str : List UInt8)
  | timer
  | rtc (cmos : Nat → UInt8)

namespace Display

/-- What `boot` shows. -/
def boot (s : Screen) : Display where
  screen := ((s.keypressBar (text "Last Pressed: ") 14).bootTimeBar 0 0 0 14).timeBar 0 0 0 14
  i := 0
  hour := 0
  minute := 0
  seconds := 0
  rtcReadTimeout := 0
  rtc := ⟨0, 0, 0⟩

/-- `_timer_intr_hdlr`, as far as the screen is concerned. -/
def timerIntrHdlr (d : Display) : Display :=
  let d := { d with i := d.i + 1 }
  if d.i % 19 = 0 then
    let d := { d with i := 0, seconds := intSucc d.seconds }
    let d :=
      if d.seconds.tmod 60 = 0 then
        let d := { d with seconds := d.seconds.tmod 60, minute := intSucc d.minute }
        if d.minute.tmod 60 = 0 then
          { d with minute := d.minute.tmod 60, hour := intSucc d.hour }
        else d
      else d
    { d with screen := d.screen.bootTimeBar d.hour d.minute d.seconds 14 }
  else d

/-- `_rtc_intr_hndlr`. -/
def rtcIntrHndlr (d : Display) (cmos : Nat → UInt8) : Display :=
  let d := { d with rtcReadTimeout := d.rtcReadTimeout + 1 }
  if d.rtcReadTimeout % 19 = 0 then
    let rtc := Rtc.read cmos
    { d with
      rtcReadTimeout := 0
      rtc := rtc
      screen := d.screen.timeBar rtc.hour rtc.minute rtc.second 14 }
  else d

def step (d : Display) : DisplayEvent → Option Display
  | .print c => (d.screen.kprintf c).map fun s => { d with screen := s }
  | .key str => some { d with screen := d.screen.keypressBar str 14 }
  | .timer => some d.timerIntrHdlr
  | .rtc cmos => some (d.rtcIntrHndlr cmos)

end Display

/-! ### What it is for -/

/-- At least two digits. -/
def twoDigits (x : Nat) : List UInt8 := (if x < 10 then [0x30] else []) ++ numeral 10 x

/-- A time of so many seconds. -/
def clockText (t : Nat) : List UInt8 :=
  twoDigits (t / 3600) ++ [0x3A] ++ twoDigits (t / 60 % 60) ++ [0x3A] ++ twoDigits (t % 60)

namespace Screen

/-- The character in column `k` of the status line. -/
def statusAt (s : Screen) (k : Nat) : UInt8 := s.mem (s.vga + 0xF00 + 2 * k)

def statusColorAt (s : Screen) (k : Nat) : UInt8 := s.mem (s.vga + 0xF00 + 2 * k + 1)

/-- The `n` columns from `k` on show the text, cut off or followed by blanks. -/
def BarShows (s : Screen) (k n : Nat) (str : List UInt8) : Prop :=
  ∀ j < n, s.statusAt (k + j) = str.getD j 0x20 ∧ s.statusColorAt (k + j) = 14

end Screen

variable {s s' : Screen} {d d' : Display}

/-! ### Numbers -/

theorem itoa_eq {x : Nat} (hx : x < 2 ^ 64) : itoa x = twoDigits x := by
  have hcount : digitCount 10 64 x 1 = 10 ^ Nat.log 10 x := by
    rw [digitCount_eq (by omega) 64 1 (hx.trans (by norm_num)), Nat.one_mul]
  have hone : digitCount 10 64 x 1 = 1 ↔ x < 10 := by
    rw [hcount, Nat.pow_eq_one, Nat.log_eq_zero_iff]
    omega
  simp only [itoa]
  rw [digitChars_digitCount (by omega) (by omega) hx, twoDigits]
  exact congrArg (· ++ _) (if_congr hone rfl rfl)

theorem numeral_ne_zero {x : Nat} : ∀ c ∈ numeral 10 x, c ≠ 0 := by
  intro c hc
  rw [numeral] at hc
  split_ifs at hc
  · rw [List.mem_singleton.mp hc]
    decide
  · obtain ⟨e, he, rfl⟩ := List.mem_map.mp hc
    have hlt := Nat.digits_lt_base (by omega) (List.mem_reverse.mp he)
    have hall : ∀ e < 10, upperDigit e ≠ 0 := by decide
    exact hall e hlt

theorem untilNul_of_ne {str : List UInt8} (h : ∀ c ∈ str, c ≠ 0) : untilNul str = str :=
  List.takeWhile_eq_self_iff.mpr fun c hc => bne_iff_ne.mpr (h c hc)

theorem ne_zero_of_untilNul {str : List UInt8} (h : untilNul str = str) : ∀ c ∈ str, c ≠ 0 := by
  intro c hc
  rw [← h, untilNul] at hc
  exact bne_iff_ne.mp (List.mem_takeWhile_imp (p := (· != 0)) hc)

theorem untilNul_twoDigits (x : Nat) : untilNul (twoDigits x) = twoDigits x := by
  refine untilNul_of_ne fun c hc => ?_
  rcases List.mem_append.mp hc with hc | hc
  · split_ifs at hc
    · rw [List.mem_singleton.mp hc]
      decide
    · cases hc
  · exact numeral_ne_zero c hc

theorem length_twoDigits {x k : Nat} (hx : x < 10 ^ (k + 2)) : (twoDigits x).length ≤ k + 2 := by
  rw [twoDigits, List.length_append, numeral]
  by_cases h0 : x = 0
  · subst h0
    simp
  · have hlog : Nat.log 10 x < k + 2 := Nat.log_lt_of_lt_pow h0 hx
    rw [if_neg h0, List.length_map, List.length_reverse, Nat.length_digits 10 x (by omega) h0]
    split_ifs with hlt
    · rw [Nat.log_of_lt hlt, List.length_singleton]
      omega
    · rw [List.length_nil]
      omega

/-! ### One bar -/

namespace Screen

theorem untilNul_headD {str : List UInt8} :
    (str.headD 0 ≠ 0 → untilNul str = str.headD 0 :: untilNul str.tail) ∧
      (str.headD 0 = 0 → untilNul str = []) := by
  cases str with
  | nil => exact ⟨fun h => absurd rfl h, fun _ => rfl⟩
  | cons c str =>
    refine ⟨fun h => ?_, fun h => ?_⟩
    · exact List.takeWhile_cons_of_pos (bne_iff_ne.mpr h)
    · refine List.takeWhile_cons_of_neg ?_
      rw [show c = 0 from h]
      decide

/-- The bytes that a bar of `n` characters writes. -/
theorem barLoop_apply (color : UInt8) (n : Nat) (m : Mem) (a fuel : Nat) (str : List UInt8)
    (hf : n ≤ fuel) :
    (∀ k < n, barLoop color (a + 2 * n) fuel m a str (a + 2 * k) = (untilNul str).getD k 0x20 ∧
      barLoop color (a + 2 * n) fuel m a str (a + 2 * k + 1) = color) ∧
    ∀ x, x < a ∨ a + 2 * n ≤ x → barLoop color (a + 2 * n) fuel m a str x = m x := by
  induction n generalizing m a fuel str with
  | zero =>
    refine ⟨fun k hk => absurd hk (Nat.not_lt_zero k), fun x hx => ?_⟩
    cases fuel with
    | zero => rfl
    | succ fuel => rw [barLoop, if_neg (by omega)]
  | succ n ih =>
    obtain ⟨fuel, rfl⟩ : ∃ f, fuel = f + 1 := ⟨fuel - 1, by omega⟩
    have hstop : a + 2 * (n + 1) = a + 2 + 2 * n := by omega
    -- the first character, and the rest behind it
    have hstep : ∃ c rest, untilNul str = (if c = 0 then [] else c :: untilNul rest) ∧
        (c = 0 → untilNul rest = []) ∧
        barLoop color (a + 2 * (n + 1)) (fuel + 1) m a str =
          barLoop color (a + 2 + 2 * n) fuel
            (write8 (write8 m a (if c = 0 then 0x20 else c)) (a + 1) color) (a + 2) rest := by
      by_cases h0 : str.headD 0 = 0
      · refine ⟨0, str, untilNul_headD.2 h0, fun _ => untilNul_headD.2 h0, ?_⟩
        rw [barLoop, if_pos (by omega), if_neg (not_not_intro h0), hstop, if_pos rfl]
      · refine ⟨str.headD 0, str.tail, ?_, fun h => absurd h h0, ?_⟩
        · rw [if_neg h0]
          exact untilNul_headD.1 h0
        · rw [barLoop, if_pos (by omega), if_pos h0, hstop, if_neg h0]
    obtain ⟨c, rest, hstr, hrest, hloop⟩ := hstep
    obtain ⟨hin, hout⟩ := ih (write8 (write8 m a (if c = 0 then 0x20 else c)) (a + 1) color)
      (a + 2) fuel rest (by omega)
    rw [hloop, hstr]
    refine ⟨fun k hk => ?_, fun x hx => ?_⟩
    · cases k with
      | zero =>
        rw [show a + 2 * 0 = a from rfl, hout a (by omega), hout (a + 1) (by omega),
          write8_of_ne (by omega), write8_self, write8_self]
        exact ⟨by split_ifs <;> rfl, rfl⟩
      | succ k =>
        obtain ⟨hchar, hcolor⟩ := hin k (by omega)
        rw [show a + 2 * (k + 1) = a + 2 + 2 * k by omega, hchar, hcolor]
        refine ⟨?_, rfl⟩
        split_ifs with h0
        · rw [hrest h0]
          rfl
        · rfl
    · rw [hout x (by omega), write8_of_ne (by omega), write8_of_ne (by omega)]

theorem bar_vga (s : Screen) (first stop : Nat) (str : List UInt8) (color : UInt8) :
    (s.bar first stop str color).vga = s.vga := rfl

/-- **A bar** shows its string, and nothing else is written. -/
theorem bar_spec (s : Screen) (k n : Nat) (str : List UInt8) {first stop : Nat}
    (hfirst : first = 0xF00 + 2 * k) (hstop : stop = 0xF00 + 2 * (k + n)) :
    (s.bar first stop str 14).BarShows k n (untilNul str) ∧
      ∀ x, x < s.vga + 0xF00 + 2 * k ∨ s.vga + 0xF00 + 2 * (k + n) ≤ x →
        (s.bar first stop str 14).mem x = s.mem x := by
  obtain ⟨hin, hout⟩ := barLoop_apply 14 n s.mem (s.vga + first) (stop - first) str (by omega)
  rw [show s.vga + first + 2 * n = s.vga + stop by omega] at hin hout
  refine ⟨fun j hj => ?_, fun x hx => hout x (by omega)⟩
  obtain ⟨hchar, hcolor⟩ := hin j hj
  have haddr : s.vga + 0xF00 + 2 * (k + j) = s.vga + first + 2 * j := by omega
  simp only [statusAt, statusColorAt, bar]
  rw [haddr]
  exact ⟨hchar, hcolor⟩

/-- A bar that is not written. -/
theorem BarShows.same {k n : Nat} {str : List UInt8} (h : s.BarShows k n str)
    (hvga : s'.vga = s.vga) (hmem : ∀ x, s.vga + 0xF00 + 2 * k ≤ x →
      x < s.vga + 0xF00 + 2 * (k + n) → s'.mem x = s.mem x) : s'.BarShows k n str := by
  intro j hj
  obtain ⟨hchar, hcolor⟩ := h j hj
  rw [statusAt] at hchar
  rw [statusColorAt] at hcolor
  rw [statusAt, statusColorAt, hvga, hmem _ (by omega) (by omega), hmem _ (by omega) (by omega)]
  exact ⟨hchar, hcolor⟩

/-- The text does not see the status line. -/
theorem Shows.bar {p : Sheet UInt8} (h : s.Shows p) (k n : Nat) (str : List UInt8)
    {first stop : Nat} (hfirst : first = 0xF00 + 2 * k) (hstop : stop = 0xF00 + 2 * (k + n)) :
    (s.bar first stop str 14).Shows p := by
  obtain ⟨-, hout⟩ := s.bar_spec k n str hfirst hstop
  obtain ⟨⟨hr, hj, hl, he, hc, hi⟩, htext, hbelow⟩ := h
  refine ⟨⟨hr, hj, hl, he, hc, hi⟩, fun i hi' j hj' => ?_, hbelow⟩
  rw [← htext i hi' j hj', charAt, charAt]
  exact hout _ (Or.inl (by show s.vga + 160 * i + 2 * j < _; omega))

/-- What the three bars show. -/
structure Bars (s : Screen) (time key boot : List UInt8) : Prop where
  time : s.BarShows 0 25 time
  key : s.BarShows 25 30 key
  boot : s.BarShows 55 25 boot

variable {time key boot : List UInt8}

theorem Bars.within (h : s.Bars time key boot) (hw : Within s s') : s'.Bars time key boot := by
  obtain ⟨ht, hk, hb⟩ := h
  exact ⟨ht.same hw.vga fun x hx _ => hw.mem x (Or.inr (by omega)),
    hk.same hw.vga fun x hx _ => hw.mem x (Or.inr (by omega)),
    hb.same hw.vga fun x hx _ => hw.mem x (Or.inr (by omega))⟩

theorem Bars.timeBar (h : s.Bars time key boot) (str : List UInt8) :
    (s.bar 0xF00 0xF32 str 14).Bars (untilNul str) key boot := by
  have hvga := s.bar_vga 0xF00 0xF32 str 14
  obtain ⟨hbar, hout⟩ := s.bar_spec 0 25 str rfl rfl
  exact ⟨hbar, h.key.same hvga fun x hx _ => hout x (Or.inr (by omega)),
    h.boot.same hvga fun x hx _ => hout x (Or.inr (by omega))⟩

theorem Bars.keypressBar (h : s.Bars time key boot) (str : List UInt8) :
    (s.bar 0xF32 0xF6E str 14).Bars time (untilNul str) boot := by
  have hvga := s.bar_vga 0xF32 0xF6E str 14
  obtain ⟨hbar, hout⟩ := s.bar_spec 25 30 str rfl rfl
  exact ⟨h.time.same hvga fun x _ hx => hout x (Or.inl (by omega)), hbar,
    h.boot.same hvga fun x hx _ => hout x (Or.inr (by omega))⟩

theorem Bars.bootTimeBar (h : s.Bars time key boot) (str : List UInt8) :
    (s.bar 0xF6E 0xFA0 str 14).Bars time key (untilNul str) := by
  have hvga := s.bar_vga 0xF6E 0xFA0 str 14
  obtain ⟨hbar, hout⟩ := s.bar_spec 55 25 str rfl rfl
  exact ⟨h.time.same hvga fun x _ hx => hout x (Or.inl (by omega)),
    h.key.same hvga fun x _ hx => hout x (Or.inl (by omega)), hbar⟩

/-- The bars that `boot` draws. -/
theorem bars_of_boot (s : Screen) (key boot time : List UInt8) :
    (((s.bar 0xF32 0xF6E key 14).bar 0xF6E 0xFA0 boot 14).bar 0xF00 0xF32 time 14).Bars
      (untilNul time) (untilNul key) (untilNul boot) := by
  obtain ⟨hkey, -⟩ := s.bar_spec 25 30 key rfl rfl
  generalize s.bar 0xF32 0xF6E key 14 = s₁ at hkey ⊢
  obtain ⟨hboot, hout⟩ := s₁.bar_spec 55 25 boot rfl rfl
  replace hkey := hkey.same (s₁.bar_vga 0xF6E 0xFA0 boot 14)
    fun x _ hx => hout x (Or.inl (by omega))
  generalize s₁.bar 0xF6E 0xFA0 boot 14 = s₂ at hkey hboot ⊢
  obtain ⟨htime, hout⟩ := s₂.bar_spec 0 25 time rfl rfl
  exact ⟨htime, hkey.same (s₂.bar_vga 0xF00 0xF32 time 14) fun x hx _ => hout x (Or.inr (by omega)),
    hboot.same (s₂.bar_vga 0xF00 0xF32 time 14) fun x hx _ => hout x (Or.inr (by omega))⟩

end Screen

/-! ### The bars in every interleaving -/

namespace DisplayEvent

/-- The characters that an event prints in the text. -/
def ops : DisplayEvent → List CharOp
  | print c => c.ops.getD []
  | _ => []

/-- The last key after the event. -/
def lastKey (key : List UInt8) : DisplayEvent → List UInt8
  | .key str => str
  | _ => key

def isTimer : DisplayEvent → Bool
  | timer => true
  | _ => false

end DisplayEvent

namespace Display

/-- What `kprintf` is asked keeps the row count in step. -/
def Keeps (d : Display) : DisplayEvent → Prop
  | .print c => d.screen.KeepsCall c
  | _ => True

def rtcText (rtc : Rtc) : List UInt8 :=
  timeConcatenate (text "TIME(NYC): ") (itoa rtc.hour) (itoa rtc.minute) (itoa rtc.second)

def bootText (t : Nat) : List UInt8 := text "timeSinceBoot: " ++ clockText t

/-- The static variables after `n` timer interrupts. -/
structure ClockAt (d : Display) (n : Nat) : Prop where
  i : d.i = n % 19
  seconds : d.seconds = (n / 19 % 60 : Nat)
  minute : d.minute = (n / 19 / 60 % 60 : Nat)
  hour : d.hour = (n / 19 / 3600 : Nat)

/-- **What is on the display**: the sheet `p`, the time that was read from the real-time clock, the
last key, and the time after `n` timer interrupts. -/
structure Shows (d : Display) (p : Sheet UInt8) (key : List UInt8) (n : Nat) : Prop where
  text : d.screen.Shows p
  clock : d.ClockAt n
  bars : d.screen.Bars (untilNul (rtcText d.rtc)) (untilNul key) (bootText (n / 19))

/-- Up to a hundred thousand hours after the boot the strings fit in the buffers of
`boot_time_bar`, five characters for a number and 34 for the whole. -/
def runTime : Nat := 19 * 3600 * 100000

variable {p : Sheet UInt8} {key : List UInt8} {n : Nat}

theorem intSucc_natCast {x : Nat} (h : x + 1 < 2 ^ 31) : intSucc (x : Int) = (x + 1 : Nat) := by
  rw [Terminal.intSucc_of_lt (by omega) (by omega), Nat.cast_succ]

theorem natCast_tmod (x y : Nat) : (x : Int).tmod (y : Int) = (x % y : Nat) :=
  (Int.ofNat_tmod x y).symm

/-- **A second is completed** by every 19th interrupt. -/
theorem ClockAt.second (h : d.ClockAt n) (hn : n + 1 < runTime) :
    d.timerIntrHdlr.ClockAt (n + 1) ∧
      d.timerIntrHdlr.screen = if (n + 1) % 19 = 0 then
        d.screen.bootTimeBar d.timerIntrHdlr.hour d.timerIntrHdlr.minute d.timerIntrHdlr.seconds 14
      else d.screen := by
  obtain ⟨hi, hs, hm, hh⟩ := h
  unfold runTime at hn
  by_cases hlast : n % 19 = 18
  · have hquot : (n + 1) / 19 = n / 19 + 1 := by omega
    generalize hq : n / 19 = t at *
    have hi' : (d.i + 1) % 19 = 0 := by omega
    have hsucc : intSucc d.seconds = (t % 60 + 1 : Nat) := by
      rw [hs, intSucc_natCast (by omega)]
    have hmsucc : intSucc d.minute = (t / 60 % 60 + 1 : Nat) := by
      rw [hm, intSucc_natCast (by omega)]
    have hhsucc : intSucc d.hour = (t / 3600 + 1 : Nat) := by
      rw [hh, intSucc_natCast (by omega)]
    have htmod := natCast_tmod (t % 60 + 1) 60
    have hmtmod := natCast_tmod (t / 60 % 60 + 1) 60
    rw [if_pos (by omega)]
    simp only [timerIntrHdlr, if_pos hi', hsucc, hmsucc, hhsucc]
    push_cast at htmod hmtmod ⊢
    rw [htmod, hmtmod]
    by_cases h60 : t % 60 = 59
    · rw [if_pos (by omega)]
      by_cases h3600 : t / 60 % 60 = 59
      · rw [if_pos (by omega)]
        exact ⟨⟨by simp only; omega, by simp only; omega, by simp only; omega,
          by simp only; omega⟩, rfl⟩
      · rw [if_neg (by omega)]
        exact ⟨⟨by simp only; omega, by simp only; omega, by simp only; omega,
          by simp only; omega⟩, rfl⟩
    · rw [if_neg (by omega)]
      exact ⟨⟨by simp only; omega, by simp only; omega, by simp only; omega,
        by simp only; omega⟩, rfl⟩
  · have hquot : (n + 1) / 19 = n / 19 := by omega
    have hi' : ¬ (d.i + 1) % 19 = 0 := by omega
    rw [if_neg (by omega)]
    simp only [timerIntrHdlr, if_neg hi']
    refine ⟨⟨?_, ?_, ?_, ?_⟩, trivial⟩
    · simp only
      omega
    · rw [hquot]
      exact hs
    · rw [hquot]
      exact hm
    · rw [hquot]
      exact hh

/-- The text of the third bar. -/
theorem ClockAt.bootText (h : d.ClockAt n) (hn : n < runTime) :
    untilNul (timeConcatenate (Sbunix.text "timeSinceBoot: ") (itoa d.hour) (itoa d.minute)
      (itoa d.seconds)) = Display.bootText (n / 19) := by
  obtain ⟨-, hs, hm, hh⟩ := h
  unfold runTime at hn
  have htitle : untilNul (Sbunix.text "timeSinceBoot: ") = Sbunix.text "timeSinceBoot: " := by decide
  have htext : timeConcatenate (Sbunix.text "timeSinceBoot: ") (itoa d.hour) (itoa d.minute)
      (itoa d.seconds) = Display.bootText (n / 19) := by
    rw [hs, hm, hh, itoa_eq (by omega), itoa_eq (by omega), itoa_eq (by omega), timeConcatenate,
      htitle, untilNul_twoDigits, untilNul_twoDigits, untilNul_twoDigits, Display.bootText,
      clockText]
    simp only [List.append_assoc]
  rw [htext]
  refine untilNul_of_ne fun c hc => ?_
  have hdigits : ∀ x, ∀ c ∈ twoDigits x, c ≠ 0 := fun x =>
    ne_zero_of_untilNul (untilNul_twoDigits x)
  simp only [Display.bootText, clockText, List.mem_append, List.mem_singleton] at hc
  rcases hc with hc | (((hc | rfl) | hc) | rfl) | hc
  · exact ne_zero_of_untilNul htitle c hc
  · exact hdigits _ c hc
  · decide
  · exact hdigits _ c hc
  · decide
  · exact hdigits _ c hc

/-- **One event** writes in the text or in one bar. -/
theorem Shows.step (h : d.Shows p key n) {e : DisplayEvent} (hk : d.Keeps e)
    (hn : n + (if e.isTimer = true then 1 else 0) < runTime) (hs : d.step e = some d') :
    d'.Shows (printed p e.ops) (e.lastKey key) (n + if e.isTimer = true then 1 else 0) := by
  obtain ⟨htext, hclock, hbars⟩ := h
  cases e with
  | print c =>
    obtain ⟨s', hs', rfl⟩ := Option.map_eq_some_iff.mp hs
    obtain ⟨ops, hops, -⟩ := Option.bind_eq_some_iff.mp hs'
    obtain ⟨u, hu, hshows, -⟩ := htext.kprintf hk hops
    obtain rfl : u = s' := Option.some.inj (hu.symm.trans hs')
    have hwithin := (Screen.kprintf_inv ⟨_, _, htext.cursor⟩ hk hs').2
    rw [DisplayEvent.ops, hops]
    exact ⟨hshows, ⟨hclock.i, hclock.seconds, hclock.minute, hclock.hour⟩, hbars.within hwithin⟩
  | key str =>
    obtain rfl := Option.some.inj hs
    exact ⟨htext.bar 25 30 str rfl rfl, ⟨hclock.i, hclock.seconds, hclock.minute, hclock.hour⟩,
      hbars.keypressBar str⟩
  | timer =>
    obtain rfl := Option.some.inj hs
    rw [DisplayEvent.isTimer, if_pos rfl] at hn ⊢
    obtain ⟨hclock', hscreen⟩ := hclock.second hn
    have hrtc : d.timerIntrHdlr.rtc = d.rtc := by
      simp only [timerIntrHdlr]
      split_ifs <;> rfl
    have hbars' := hbars.bootTimeBar (timeConcatenate (Sbunix.text "timeSinceBoot: ")
      (itoa d.timerIntrHdlr.hour) (itoa d.timerIntrHdlr.minute) (itoa d.timerIntrHdlr.seconds))
    rw [hclock'.bootText hn] at hbars'
    by_cases hlast : (n + 1) % 19 = 0
    · rw [if_pos hlast] at hscreen
      refine ⟨?_, hclock', ?_⟩
      · rw [hscreen]
        exact htext.bar 55 25 _ rfl rfl
      · rw [hscreen, hrtc]
        exact hbars'
    · rw [if_neg hlast] at hscreen
      refine ⟨?_, hclock', ?_⟩
      · rw [hscreen]
        exact htext
      · rw [hscreen, hrtc, show (n + 1) / 19 = n / 19 by omega]
        exact hbars
  | rtc cmos =>
    obtain rfl := Option.some.inj hs
    have hticks : (if (DisplayEvent.rtc cmos).isTimer = true then 1 else 0) = 0 := rfl
    rw [hticks, rtcIntrHndlr]
    by_cases hlast : (d.rtcReadTimeout + 1) % 19 = 0
    · simp only [if_pos hlast]
      exact ⟨htext.bar 0 25 _ rfl rfl, ⟨hclock.i, hclock.seconds, hclock.minute, hclock.hour⟩,
        hbars.timeBar (rtcText (Rtc.read cmos))⟩
    · simp only [if_neg hlast]
      exact ⟨htext, ⟨hclock.i, hclock.seconds, hclock.minute, hclock.hour⟩, hbars⟩

/-- **The display in every interleaving** of calls of `kprintf` and interrupts: the text is the sheet
that the calls have written, the second bar has the last key, and the third bar the time since the
boot. The strings of the third bar fit in their buffers. -/
theorem display_of_run (h : d.Shows p key n) {es : List DisplayEvent}
    (hr : Run step Keeps d es d') (hn : n + es.countP DisplayEvent.isTimer < runTime) :
    d'.Shows (printed p (es.flatMap DisplayEvent.ops)) (es.foldl DisplayEvent.lastKey key)
        (n + es.countP DisplayEvent.isTimer) ∧
      (itoa d'.hour).length < 6 ∧ (bootText ((n + es.countP DisplayEvent.isTimer) / 19)).length < 35 := by
  have hshows : d'.Shows (printed p (es.flatMap DisplayEvent.ops))
      (es.foldl DisplayEvent.lastKey key) (n + es.countP DisplayEvent.isTimer) := by
    induction hr generalizing p key n with
    | nil => exact h
    | @cons d d₁ _ e es hk hs _ ih =>
      rw [List.countP_cons] at hn ⊢
      have hstep := h.step hk (by omega) hs
      have hrest := ih hstep (by omega)
      rw [List.flatMap_cons, printed, List.map_append, Sheet.type_append, List.foldl_cons,
        Nat.add_comm (List.countP _ es), ← Nat.add_assoc]
      exact hrest
  refine ⟨hshows, ?_, ?_⟩
  all_goals
    unfold runTime at hn
    generalize n + es.countP DisplayEvent.isTimer = m at *
    have hhour := @length_twoDigits (m / 19 / 3600) 3 (by omega)
  · rw [hshows.clock.hour, itoa_eq (by omega)]
    omega
  · have hminute := @length_twoDigits (m / 19 / 60 % 60) 0 (by omega)
    have hsecond := @length_twoDigits (m / 19 % 60) 0 (by omega)
    have htitle : (Sbunix.text "timeSinceBoot: ").length = 15 := by decide
    simp only [bootText, clockText, List.length_append, List.length_singleton]
    omega

/-! ### The start -/

/-- **`boot`** sets up the status line. -/
theorem boot_shows (h : s.Inv) : (boot s).Shows s.sheet (Sbunix.text "Last Pressed: ") 0 := by
  have hclock : (boot s).ClockAt 0 := ⟨rfl, rfl, rfl, rfl⟩
  have hboot := hclock.bootText (by decide)
  refine ⟨?_, hclock, ?_⟩
  · exact ((h.shows_sheet.bar 25 30 _ rfl rfl).bar 55 25 _ rfl rfl).bar 0 25 _ rfl rfl
  · rw [← hboot]
    exact Screen.bars_of_boot s _ _ _

/-- The display that the kernel begins with, and a timer interrupt after a key. -/
theorem display_of_run_key : ∃ d, Run step Keeps (boot (Screen.initial fun _ => 0))
    [.key (Sbunix.text "LAST PRESSED: Enter"), .timer] d ∧
      d.Shows (printed (Screen.initial fun _ => 0).sheet [])
        (Sbunix.text "LAST PRESSED: Enter") (0 + 1) := by
  have hrun : ∃ d, Run step Keeps (boot (Screen.initial fun _ => 0))
      [.key (Sbunix.text "LAST PRESSED: Enter"), .timer] d :=
    ⟨_, .cons trivial rfl (.cons trivial rfl (.nil _))⟩
  obtain ⟨d, hr⟩ := hrun
  have hcount : 0 + [DisplayEvent.key (Sbunix.text "LAST PRESSED: Enter"), .timer].countP
      DisplayEvent.isTimer < runTime := by decide
  exact ⟨d, hr, (display_of_run (boot_shows (Screen.initial_inv _)) hr hcount).1⟩

end Display

/-! ### The time of day -/

namespace Rtc

/-- A register of the clock. -/
def register (binary : Bool) (x : Nat) : Nat := if binary = true then x else x / 10 * 16 + x % 10

/-- The register of the hours: with twelve of them, the highest bit is for the afternoon. -/
def hourRegister (binary h24 : Bool) (hour : Nat) : Nat :=
  if h24 = true then register binary hour
  else register binary (if hour % 12 = 0 then 12 else hour % 12) + if 12 ≤ hour then 0x80 else 0

/-- The clock has this time, in the format that its register B gives. -/
structure Holds (cmos : Nat → UInt8) (binary h24 : Bool) (hour minute second : Nat) : Prop where
  second : (cmos 0x00).toNat = register binary second
  minute : (cmos 0x02).toNat = register binary minute
  hour : (cmos 0x04).toNat = hourRegister binary h24 hour
  binary : (cmos 0x0B).toNat &&& 0x04 = 0 ↔ binary = false
  h24 : (cmos 0x0B).toNat &&& 0x02 = 0 ↔ h24 = false

/-- The seconds are taken for BCD in any case. -/
theorem second_iff : ∀ binary, ∀ second < 60,
    (charOf ((charOf (register binary second)).tdiv 16 * 10 +
      andMask (charOf (register binary second)) 0xF) = second ↔ (binary = true → second < 16)) := by
  decide

theorem minute_eq : ∀ minute < 60,
    charOf (andMask (charOf (register false minute)) 0x0F +
      (charOf (register false minute)).tdiv 16 * 10) = minute ∧
    charOf (register true minute) = minute := by
  decide

/-- The hours, in the four formats. -/
def shownHour (binary h24 : Bool) (hour : Nat) : Int :=
  let hour := charOf (hourRegister binary h24 hour)
  let hour :=
    if binary = false then charOf (andMask hour 0x0F + (andMask hour 0x70).tdiv 16 * 10) else hour
  let hour :=
    if h24 = false ∧ andMask hour 0x80 ≠ 0 then charOf ((andMask hour 0x7F + 12).tmod 24) else hour
  charOf (if hour - 5 < 0 then hour - 5 + 24 else hour - 5)

theorem shownHour_iff : ∀ binary h24, ∀ hour < 24,
    (shownHour binary h24 hour = ((hour + 19) % 24 : Nat) ↔
      h24 = true ∨ if binary = true then hour % 12 ≠ 0 else 1 ≤ hour ∧ hour ≤ 12) := by
  decide

variable {cmos : Nat → UInt8} {binary h24 : Bool} {hour minute second : Nat}

/-- **The time of the real-time clock is right**, five hours behind it, exactly where the seconds are
BCD or below 16 and the hours are not in the other half of the day: with twelve hours, BCD loses the
afternoon, and binary takes noon for midnight and midnight for noon. -/
theorem read_iff (h : Holds cmos binary h24 hour minute second) (hhour : hour < 24)
    (hminute : minute < 60) (hsecond : second < 60) :
    read cmos = ⟨second, minute, ((hour + 19) % 24 : Nat)⟩ ↔
      (binary = true → second < 16) ∧
        (h24 = true ∨ if binary = true then hour % 12 ≠ 0 else 1 ≤ hour ∧ hour ≤ 12) := by
  have hread : read cmos = ⟨charOf ((charOf (register binary second)).tdiv 16 * 10 +
      andMask (charOf (register binary second)) 0xF), minute, shownHour binary h24 hour⟩ := by
    simp only [read, h.second, h.minute, h.hour, h.binary, h.h24, shownHour]
    cases binary with
    | false => rw [if_pos rfl, (minute_eq minute hminute).1]
    | true => rw [if_neg (by decide), (minute_eq minute hminute).2]
  rw [hread, mk.injEq, second_iff binary second hsecond, shownHour_iff binary h24 hour hhour]
  tauto

/-- BCD, and 24 hours: half past four in the afternoon is shown as half past eleven. -/
theorem read_iff_afternoon :
    Holds (fun x => if x = 0x04 then 0x16 else if x = 0x02 then 0x30 else if x = 0x0B then 0x02 else 0)
      false true 16 30 0 ∧
    read (fun x => if x = 0x04 then 0x16 else if x = 0x02 then 0x30 else if x = 0x0B then 0x02 else 0) =
      ⟨0, 30, 11⟩ := by
  have hholds : Holds
      (fun x => if x = 0x04 then 0x16 else if x = 0x02 then 0x30 else if x = 0x0B then 0x02 else 0)
      false true 16 30 0 := ⟨by decide, by decide, by decide, by decide, by decide⟩
  exact ⟨hholds, (read_iff hholds (by decide) (by decide) (by decide)).mpr (by decide)⟩

end Rtc

end Sbunix
