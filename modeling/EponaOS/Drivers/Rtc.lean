import Mathlib.Logic.Function.Iterate
import Mathlib.Tactic.Ring

/-!
# The real time clock

`rtc.c` reads the clock register by register, while the clock goes on. What it returns is put
together from as many times as there are reads.
-/

namespace EponaOS.Drivers

structure RtcTime where
  seconds : BitVec 8
  minutes : BitVec 8
  hours : BitVec 8
  day : BitVec 8
  month : BitVec 8
  year : BitVec 16
  dayOfWeek : BitVec 8
  deriving DecidableEq

def bcdToBin (val : BitVec 8) : BitVec 8 := (val >>> 4) * 10 + (val &&& 0x0F)

/-- `cmos i` are the registers at the `i`th read. -/
def rtcReadTime (cmos : Nat → BitVec 8 → BitVec 8) : RtcTime :=
  let regB := cmos 0 0x0B
  let bcd := regB &&& 0x04 = 0
  let seconds := cmos 1 0x00
  let minutes := cmos 2 0x02
  let hours := cmos 3 0x04
  let dayOfWeek := cmos 4 0x06
  let day := cmos 5 0x07
  let month := cmos 6 0x08
  let year := cmos 7 0x09
  let binary (val : BitVec 8) := if bcd then bcdToBin val else val
  let hours := binary hours
  let hours := if regB &&& 0x02 = 0 ∧ hours &&& 0x80 ≠ 0 then (hours &&& 0x7F) + 12 else hours
  let century := cmos 8 0x32
  let century := if century ≠ 0 then binary century else 20
  { seconds := binary seconds
    minutes := binary minutes
    hours := hours &&& ~~~0x80
    day := binary day
    month := binary month
    year := century.setWidth 16 * 100 + (binary year).setWidth 16
    dayOfWeek := binary dayOfWeek }

-- ---------------------------------------------------------------------------
-- The clock
-- ---------------------------------------------------------------------------

structure ClockTime where
  seconds : Fin 60
  minutes : Fin 60
  hours : Fin 24
  dayOfWeek : Fin 8
  day : Fin 32
  month : Fin 13
  year : Fin 100
  /-- 0 where the clock counts no centuries. -/
  century : Fin 100
  deriving DecidableEq

section

-- how the clock tells a leap year, by the century and the year
variable (leap : Fin 100 → Fin 100 → Bool)

def monthDays (t : ClockTime) : Nat :=
  if t.month = 2 then if leap t.century t.year then 29 else 28
  else if t.month = 4 ∨ t.month = 6 ∨ t.month = 9 ∨ t.month = 11 then 30
  else 31

def ClockTime.MinuteEnds (t : ClockTime) : Prop := t.seconds = 59
def ClockTime.HourEnds (t : ClockTime) : Prop := t.MinuteEnds ∧ t.minutes = 59
def ClockTime.DayEnds (t : ClockTime) : Prop := t.HourEnds ∧ t.hours = 23
def ClockTime.MonthEnds (t : ClockTime) : Prop := t.DayEnds ∧ monthDays leap t ≤ t.day
def ClockTime.YearEnds (t : ClockTime) : Prop := t.MonthEnds leap ∧ t.month = 12
def ClockTime.CenturyEnds (t : ClockTime) : Prop := t.YearEnds leap ∧ t.year = 99

instance (t : ClockTime) : Decidable t.MinuteEnds := inferInstanceAs (Decidable (_ = _))
instance (t : ClockTime) : Decidable t.HourEnds := inferInstanceAs (Decidable (_ ∧ _))
instance (t : ClockTime) : Decidable t.DayEnds := inferInstanceAs (Decidable (_ ∧ _))
instance (t : ClockTime) : Decidable (t.MonthEnds leap) := inferInstanceAs (Decidable (_ ∧ _))
instance (t : ClockTime) : Decidable (t.YearEnds leap) := inferInstanceAs (Decidable (_ ∧ _))
instance (t : ClockTime) : Decidable (t.CenturyEnds leap) := inferInstanceAs (Decidable (_ ∧ _))

def tick (t : ClockTime) : ClockTime where
  seconds := t.seconds + 1
  minutes := if t.MinuteEnds then t.minutes + 1 else t.minutes
  hours := if t.HourEnds then t.hours + 1 else t.hours
  dayOfWeek := if t.DayEnds then if t.dayOfWeek = 7 then 1 else t.dayOfWeek + 1 else t.dayOfWeek
  day := if t.MonthEnds leap then 1 else if t.DayEnds then t.day + 1 else t.day
  month := if t.YearEnds leap then 1 else if t.MonthEnds leap then t.month + 1 else t.month
  year := if t.YearEnds leap then t.year + 1 else t.year
  century := if t.CenturyEnds leap then t.century + 1 else t.century

def ClockTime.after (t : ClockTime) (n : Nat) : ClockTime := (tick leap)^[n] t

end

def bcdByte (n : Nat) : BitVec 8 := BitVec.ofNat 8 (16 * (n / 10) + n % 10)

def clockByte (regB : BitVec 8) (n : Nat) : BitVec 8 :=
  if regB &&& 0x04 = 0 then bcdByte n else BitVec.ofNat 8 n

/-- What `cmos_read` returns. -/
def ClockTime.register (t : ClockTime) (regB reg : BitVec 8) : BitVec 8 :=
  if reg = 0x0B then regB
  else if reg = 0x00 then clockByte regB t.seconds
  else if reg = 0x02 then clockByte regB t.minutes
  else if reg = 0x04 then clockByte regB t.hours
  else if reg = 0x06 then clockByte regB t.dayOfWeek
  else if reg = 0x07 then clockByte regB t.day
  else if reg = 0x08 then clockByte regB t.month
  else if reg = 0x09 then clockByte regB t.year
  else if reg = 0x32 then clockByte regB t.century
  else 0

def ClockTime.centuryShown (t : ClockTime) : Nat := if t.century = 0 then 20 else t.century

def ClockTime.shown (t : ClockTime) : RtcTime where
  seconds := BitVec.ofNat 8 t.seconds
  minutes := BitVec.ofNat 8 t.minutes
  hours := BitVec.ofNat 8 t.hours
  day := BitVec.ofNat 8 t.day
  month := BitVec.ofNat 8 t.month
  year := BitVec.ofNat 16 (t.centuryShown * 100 + t.year)
  dayOfWeek := BitVec.ofNat 8 t.dayOfWeek

-- ---------------------------------------------------------------------------
-- A reading
-- ---------------------------------------------------------------------------

/-- How many updates there were before the `i`th read; `updates i` are behind it. -/
def updatesBefore (updates : Nat → Nat) : Nat → Nat
  | 0 => 0
  | i + 1 => updatesBefore updates i + updates i

section

variable (leap : Fin 100 → Fin 100 → Bool) (t : ClockTime) (updates : Nat → Nat)

def atRead (i : Nat) : ClockTime := t.after leap (updatesBefore updates i)

/-- What is returned was shown between the first read and the last one. -/
def Consistent (regB : BitVec 8) : Prop :=
  ∃ n ≤ updatesBefore updates 8,
    rtcReadTime (fun i reg => (atRead leap t updates i).register regB reg) =
      (t.after leap n).shown

def NoneTill (ends : ClockTime → Prop) (i : Nat) : Prop :=
  ∀ n, updatesBefore updates 1 ≤ n → n < updatesBefore updates i → ¬ ends (t.after leap n)

/-- No update behind the read of the seconds carries into a register that is still to be read. -/
structure NoCarry : Prop where
  minutes : NoneTill leap t updates ClockTime.MinuteEnds 2
  hours : NoneTill leap t updates ClockTime.HourEnds 3
  dayOfWeek : NoneTill leap t updates ClockTime.DayEnds 4
  day : NoneTill leap t updates ClockTime.DayEnds 5
  month : NoneTill leap t updates (ClockTime.MonthEnds leap) 6
  year : NoneTill leap t updates (ClockTime.YearEnds leap) 7
  century : NoneTill leap t updates (ClockTime.CenturyEnds leap) 8

def pieced (f : Nat → ClockTime) : ClockTime where
  seconds := (f 1).seconds
  minutes := (f 2).minutes
  hours := (f 3).hours
  dayOfWeek := (f 4).dayOfWeek
  day := (f 5).day
  month := (f 6).month
  year := (f 7).year
  century := (f 8).century

end

variable {leap : Fin 100 → Fin 100 → Bool} {t u : ClockTime} {updates : Nat → Nat}

-- ---------------------------------------------------------------------------
-- What a register becomes
-- ---------------------------------------------------------------------------

theorem bcdToBin_bcdByte (n : Fin 100) : bcdToBin (bcdByte n) = BitVec.ofNat 8 n := by
  revert n
  decide

theorem hour_masked (n : Fin 24) : BitVec.ofNat 8 n &&& ~~~(0x80 : BitVec 8) = BitVec.ofNat 8 n := by
  revert n
  decide

theorem widened (n : Fin 100) : (BitVec.ofNat 8 n).setWidth 16 = BitVec.ofNat 16 n := by
  revert n
  decide

theorem byte_zero (n : Fin 100) :
    (bcdByte n = 0 ↔ n = 0) ∧ (BitVec.ofNat 8 n = 0 ↔ n = 0) := by
  revert n
  decide

theorem clockByte_binary (regB : BitVec 8) (n : Fin 100) :
    (if regB &&& 0x04 = 0 then bcdToBin (clockByte regB n) else clockByte regB n) =
      BitVec.ofNat 8 n := by
  rw [clockByte]
  split
  · exact bcdToBin_bcdByte n
  · rfl

theorem clockByte_zero (regB : BitVec 8) (n : Fin 100) : clockByte regB n = 0 ↔ n = 0 := by
  rw [clockByte]
  split
  · exact (byte_zero n).1
  · exact (byte_zero n).2

theorem rtcReadTime_registers (f : Nat → ClockTime) (h24 : regB &&& 0x02 ≠ 0) :
    rtcReadTime (fun i reg => (f i).register regB reg) = (pieced f).shown := by
  have hbinary (n : Nat) (hn : n < 100) :
      (if regB &&& 0x04 = 0 then bcdToBin (clockByte regB n) else clockByte regB n) =
        BitVec.ofNat 8 n := clockByte_binary regB ⟨n, hn⟩
  have hseconds : (f 1).register regB 0x00 = clockByte regB (f 1).seconds := rfl
  have hminutes : (f 2).register regB 0x02 = clockByte regB (f 2).minutes := rfl
  have hhours : (f 3).register regB 0x04 = clockByte regB (f 3).hours := rfl
  have hdayOfWeek : (f 4).register regB 0x06 = clockByte regB (f 4).dayOfWeek := rfl
  have hday : (f 5).register regB 0x07 = clockByte regB (f 5).day := rfl
  have hmonth : (f 6).register regB 0x08 = clockByte regB (f 6).month := rfl
  have hyear : (f 7).register regB 0x09 = clockByte regB (f 7).year := rfl
  have hcentury : (f 8).register regB 0x32 = clockByte regB (f 8).century := rfl
  have hregB : (f 0).register regB 0x0B = regB := rfl
  rw [rtcReadTime]
  simp only [hseconds, hminutes, hhours, hdayOfWeek, hday, hmonth, hyear, hcentury, hregB]
  rw [hbinary _ (by omega), hbinary _ (by omega), hbinary _ (by omega), hbinary _ (by omega),
    hbinary _ (by omega), hbinary _ (by omega), hbinary _ (by omega), hbinary _ (by omega),
    if_neg fun h => h24 h.1, hour_masked]
  have hshown : (if clockByte regB (f 8).century ≠ 0 then BitVec.ofNat 8 (f 8).century
      else 20).setWidth 16 = BitVec.ofNat 16 (pieced f).centuryShown := by
    have hpieced : (pieced f).century = (f 8).century := rfl
    rw [ClockTime.centuryShown, hpieced]
    by_cases hzero : (f 8).century = 0
    · rw [if_neg (not_not.mpr ((clockByte_zero regB _).mpr hzero)), if_pos hzero]
      rfl
    · rw [if_pos (mt (clockByte_zero regB _).mp hzero), widened, if_neg hzero]
  rw [hshown, widened, ClockTime.shown, BitVec.ofNat_add, BitVec.ofNat_mul]
  rfl

-- ---------------------------------------------------------------------------
-- Seconds and carries
-- ---------------------------------------------------------------------------

theorem after_succ (leap : Fin 100 → Fin 100 → Bool) (t : ClockTime) (n : Nat) :
    t.after leap (n + 1) = tick leap (t.after leap n) := Function.iterate_succ_apply' ..

theorem after_seconds (leap : Fin 100 → Fin 100 → Bool) (t : ClockTime) (n : Nat) :
    (t.after leap n).seconds.val = (t.seconds.val + n) % 60 := by
  induction n with
  | zero => exact (Nat.mod_eq_of_lt t.seconds.isLt).symm
  | succ n ih =>
    rw [after_succ, tick, Fin.val_add, ih]
    change ((t.seconds.val + n) % 60 + 1) % 60 = _
    omega

theorem same_of_no_carry {ends : ClockTime → Prop} {g : ClockTime → α}
    (hstay : ∀ t, ¬ ends t → g (tick leap t) = g t) (hab : a ≤ b)
    (h : ∀ n, a ≤ n → n < b → ¬ ends (t.after leap n)) :
    g (t.after leap b) = g (t.after leap a) := by
  induction b, hab using Nat.le_induction with
  | base => rfl
  | succ b hab ih =>
    rw [after_succ, hstay _ (h b hab (Nat.lt_succ_self b))]
    exact ih fun n han hnb => h n han (Nat.lt_succ_of_lt hnb)

theorem no_carry_of_same {ends : ClockTime → Prop} {g : ClockTime → α}
    (hminute : ∀ t, ends t → t.MinuteEnds) (hstay : ∀ t, ¬ ends t → g (tick leap t) = g t)
    (hmove : ∀ t, ends t → g (tick leap t) ≠ g t) (hshort : b < a + 60)
    (hsame : g (t.after leap b) = g (t.after leap a)) :
    ∀ n, a ≤ n → n < b → ¬ ends (t.after leap n) := by
  intro n han hnb hends
  have hat : (t.seconds.val + n) % 60 = 59 := by
    rw [← after_seconds leap]
    exact congrArg Fin.val (hminute _ hends)
  have hother (k : Nat) (hk : k ≠ n) (hak : a ≤ k) (hkb : k < b) : ¬ ends (t.after leap k) := by
    intro hagain
    have hat' : (t.seconds.val + k) % 60 = 59 := by
      rw [← after_seconds leap]
      exact congrArg Fin.val (hminute _ hagain)
    omega
  have hbefore := same_of_no_carry hstay han fun k hak hkn =>
    hother k (Nat.ne_of_lt hkn) hak (Nat.lt_trans hkn hnb)
  have hbehind := same_of_no_carry hstay (Nat.succ_le_of_lt hnb) fun k hnk hkb =>
    hother k (Nat.ne_of_gt hnk) (by omega) hkb
  refine hmove _ hends ?_
  rw [← after_succ, ← hbehind, hsame, hbefore]

-- ---------------------------------------------------------------------------
-- The registers, one by one
-- ---------------------------------------------------------------------------

/-- `ends` says of which times the update carries into the register `g`. -/
structure Carries (leap : Fin 100 → Fin 100 → Bool) (ends : ClockTime → Prop)
    (g : ClockTime → α) : Prop where
  minute : ∀ t, ends t → t.MinuteEnds
  stay : ∀ t, ¬ ends t → g (tick leap t) = g t
  move : ∀ t, ends t → g (tick leap t) ≠ g t

theorem ClockTime.MonthEnds.dayEnds (h : t.MonthEnds leap) : t.DayEnds := h.1
theorem ClockTime.YearEnds.monthEnds (h : t.YearEnds leap) : t.MonthEnds leap := h.1
theorem ClockTime.DayEnds.minuteEnds (h : t.DayEnds) : t.MinuteEnds := h.1.1

theorem fin_add_one_ne {n : Nat} [NeZero n] (hn : 1 < n) (x : Fin n) : x + 1 ≠ x := by
  intro h
  have hone : (1 : Fin n).val = 1 % n := rfl
  have hval := congrArg Fin.val h
  rw [Fin.val_add, hone, Nat.mod_eq_of_lt hn] at hval
  have hlt := x.isLt
  obtain hlast | hless : x.val + 1 = n ∨ x.val + 1 < n := by omega
  · rw [hlast, Nat.mod_self] at hval
    omega
  · rw [Nat.mod_eq_of_lt hless] at hval
    omega

theorem monthDays_ge (leap : Fin 100 → Fin 100 → Bool) (t : ClockTime) :
    28 ≤ monthDays leap t := by
  rw [monthDays]
  split_ifs <;> decide

theorem tick_dayOfWeek (leap : Fin 100 → Fin 100 → Bool) (t : ClockTime) :
    (tick leap t).dayOfWeek =
      if t.DayEnds then if t.dayOfWeek = 7 then 1 else t.dayOfWeek + 1 else t.dayOfWeek := rfl

theorem tick_day (leap : Fin 100 → Fin 100 → Bool) (t : ClockTime) : (tick leap t).day =
    if t.MonthEnds leap then 1 else if t.DayEnds then t.day + 1 else t.day := rfl

theorem tick_month (leap : Fin 100 → Fin 100 → Bool) (t : ClockTime) : (tick leap t).month =
    if t.YearEnds leap then 1 else if t.MonthEnds leap then t.month + 1 else t.month := rfl

theorem tick_year (leap : Fin 100 → Fin 100 → Bool) (t : ClockTime) :
    (tick leap t).year = if t.YearEnds leap then t.year + 1 else t.year := rfl

theorem tick_century (leap : Fin 100 → Fin 100 → Bool) (t : ClockTime) :
    (tick leap t).century = if t.CenturyEnds leap then t.century + 1 else t.century := rfl

theorem carries_minutes : Carries leap ClockTime.MinuteEnds ClockTime.minutes where
  minute _ h := h
  stay _ h := if_neg h
  move t h := by
    rw [tick, if_pos h]
    exact fin_add_one_ne (by decide) t.minutes

theorem carries_hours : Carries leap ClockTime.HourEnds ClockTime.hours where
  minute _ h := h.1
  stay _ h := if_neg h
  move t h := by
    rw [tick, if_pos h]
    exact fin_add_one_ne (by decide) t.hours

theorem carries_dayOfWeek : Carries leap ClockTime.DayEnds ClockTime.dayOfWeek where
  minute _ h := h.minuteEnds
  stay _ h := if_neg h
  move t h := by
    rw [tick_dayOfWeek, if_pos h]
    by_cases hlast : t.dayOfWeek = 7
    · rw [if_pos hlast, hlast]
      decide
    · rw [if_neg hlast]
      exact fin_add_one_ne (by decide) t.dayOfWeek

theorem carries_day : Carries leap ClockTime.DayEnds ClockTime.day where
  minute _ h := h.minuteEnds
  stay t h := by
    rw [tick_day, if_neg (mt ClockTime.MonthEnds.dayEnds h), if_neg h]
  move t h := by
    rw [tick_day]
    by_cases hmonth : t.MonthEnds leap
    · have hlast := Nat.le_trans (monthDays_ge leap t) hmonth.2
      rw [if_pos hmonth]
      intro hone
      rw [← hone] at hlast
      exact absurd hlast (by decide)
    · rw [if_neg hmonth, if_pos h]
      exact fin_add_one_ne (by decide) t.day

theorem carries_month : Carries leap (ClockTime.MonthEnds leap) ClockTime.month where
  minute _ h := h.dayEnds.minuteEnds
  stay t h := by
    rw [tick_month, if_neg (mt ClockTime.YearEnds.monthEnds h), if_neg h]
  move t h := by
    rw [tick_month]
    by_cases hyear : t.YearEnds leap
    · rw [if_pos hyear, hyear.2]
      decide
    · rw [if_neg hyear, if_pos h]
      exact fin_add_one_ne (by decide) t.month

theorem carries_year : Carries leap (ClockTime.YearEnds leap) ClockTime.year where
  minute _ h := h.monthEnds.dayEnds.minuteEnds
  stay _ h := if_neg h
  move t h := by
    rw [tick_year, if_pos h]
    exact fin_add_one_ne (by decide) t.year

theorem carries_century : Carries leap (ClockTime.CenturyEnds leap) ClockTime.centuryShown where
  minute _ h := h.1.monthEnds.dayEnds.minuteEnds
  stay t h := by
    rw [ClockTime.centuryShown, tick_century, if_neg h]
    rfl
  move t h := by
    rw [ClockTime.centuryShown, ClockTime.centuryShown, tick_century, if_pos h]
    generalize t.century = c
    revert c
    decide

theorem byte_inj (ha : a < 2 ^ 8) (hb : b < 2 ^ 8) (h : BitVec.ofNat 8 a = BitVec.ofNat 8 b) :
    a = b := by
  have hnat := congrArg BitVec.toNat h
  rwa [BitVec.toNat_ofNat, BitVec.toNat_ofNat, Nat.mod_eq_of_lt ha, Nat.mod_eq_of_lt hb] at hnat

theorem centuryShown_lt (t : ClockTime) : t.centuryShown < 100 := by
  rw [ClockTime.centuryShown]
  split
  · decide
  · exact t.century.isLt

structure SameShown (t u : ClockTime) : Prop where
  seconds : t.seconds = u.seconds
  minutes : t.minutes = u.minutes
  hours : t.hours = u.hours
  dayOfWeek : t.dayOfWeek = u.dayOfWeek
  day : t.day = u.day
  month : t.month = u.month
  year : t.year = u.year
  century : t.centuryShown = u.centuryShown

theorem sameShown_iff : t.shown = u.shown ↔ SameShown t u := by
  constructor
  · intro h
    have hfin {n : Nat} (hn : n ≤ 2 ^ 8) {x y : Fin n}
        (hxy : BitVec.ofNat 8 x = BitVec.ofNat 8 y) : x = y :=
      Fin.ext (byte_inj (Nat.lt_of_lt_of_le x.isLt hn) (Nat.lt_of_lt_of_le y.isLt hn) hxy)
    have hyear := congrArg (BitVec.toNat ∘ RtcTime.year) h
    simp only [ClockTime.shown, Function.comp_apply, BitVec.toNat_ofNat] at hyear
    have ht := centuryShown_lt t
    have hu := centuryShown_lt u
    rw [Nat.mod_eq_of_lt (by omega), Nat.mod_eq_of_lt (by omega)] at hyear
    exact ⟨hfin (by decide) (congrArg RtcTime.seconds h),
      hfin (by decide) (congrArg RtcTime.minutes h),
      hfin (by decide) (congrArg RtcTime.hours h),
      hfin (by decide) (congrArg RtcTime.dayOfWeek h),
      hfin (by decide) (congrArg RtcTime.day h),
      hfin (by decide) (congrArg RtcTime.month h), Fin.ext (by omega), by omega⟩
  · intro h
    rw [ClockTime.shown, ClockTime.shown, h.seconds, h.minutes, h.hours, h.dayOfWeek, h.day,
      h.month, h.year, h.century]

-- ---------------------------------------------------------------------------
-- Readings
-- ---------------------------------------------------------------------------

theorem updatesBefore_mono (updates : Nat → Nat) : Monotone (updatesBefore updates) :=
  monotone_nat_of_le_succ fun _ => Nat.le_add_right ..

theorem pieced_of_noCarry (h : NoCarry leap t updates) :
    pieced (atRead leap t updates) = atRead leap t updates 1 := by
  have hmono := updatesBefore_mono updates
  have hminutes := same_of_no_carry carries_minutes.stay (hmono (by decide)) h.minutes
  have hhours := same_of_no_carry carries_hours.stay (hmono (by decide)) h.hours
  have hdayOfWeek := same_of_no_carry carries_dayOfWeek.stay (hmono (by decide)) h.dayOfWeek
  have hday := same_of_no_carry carries_day.stay (hmono (by decide)) h.day
  have hmonth := same_of_no_carry carries_month.stay (hmono (by decide)) h.month
  have hyear := same_of_no_carry carries_year.stay (hmono (by decide)) h.year
  have hcentury := same_of_no_carry (g := ClockTime.century) (fun _ h => if_neg h)
    (hmono (by decide)) h.century
  simp only [pieced, atRead, hminutes, hhours, hdayOfWeek, hday, hmonth, hyear, hcentury]

theorem noCarry_of_shown (hshort : updatesBefore updates 8 < 60)
    (hn : n ≤ updatesBefore updates 8)
    (h : (pieced (atRead leap t updates)).shown = (t.after leap n).shown) :
    NoCarry leap t updates := by
  have hmono := updatesBefore_mono updates
  have hsame := sameShown_iff.mp h
  have hfirst : n = updatesBefore updates 1 := by
    have hseconds := congrArg Fin.val hsame.seconds
    have hle : updatesBefore updates 1 ≤ updatesBefore updates 8 := hmono (by decide)
    change (t.after leap (updatesBefore updates 1)).seconds.val = _ at hseconds
    rw [after_seconds, after_seconds] at hseconds
    omega
  rw [hfirst] at hsame
  have hnone {α : Type} {ends : ClockTime → Prop} {g : ClockTime → α} (hg : Carries leap ends g)
      (i : Nat) (hi : i ≤ 8) (hread : g (t.after leap (updatesBefore updates i)) =
        g (t.after leap (updatesBefore updates 1))) : NoneTill leap t updates ends i := by
    have hle : updatesBefore updates i ≤ updatesBefore updates 8 := hmono hi
    exact no_carry_of_same hg.minute hg.stay hg.move (by omega) hread
  exact
    { minutes := hnone carries_minutes 2 (by decide) hsame.minutes
      hours := hnone carries_hours 3 (by decide) hsame.hours
      dayOfWeek := hnone carries_dayOfWeek 4 (by decide) hsame.dayOfWeek
      day := hnone carries_day 5 (by decide) hsame.day
      month := hnone carries_month 6 (by decide) hsame.month
      year := hnone carries_year 7 (by decide) hsame.year
      century := hnone carries_century 8 (by decide) hsame.century }

/-- A reading is consistent if no update carries into a register that is still to be read, and
only then if it takes less than a minute. -/
theorem reading_consistent_iff (leap : Fin 100 → Fin 100 → Bool) (t : ClockTime)
    (updates : Nat → Nat) (regB : BitVec 8) (h24 : regB &&& 0x02 ≠ 0) :
    (NoCarry leap t updates → Consistent leap t updates regB) ∧
    (updatesBefore updates 8 < 60 →
      (Consistent leap t updates regB ↔ NoCarry leap t updates)) := by
  have hread (n : Nat) : rtcReadTime (fun i reg => (atRead leap t updates i).register regB reg) =
      (t.after leap n).shown ↔
        (pieced (atRead leap t updates)).shown = (t.after leap n).shown := by
    rw [rtcReadTime_registers (atRead leap t updates) h24]
  have hsufficient (h : NoCarry leap t updates) : Consistent leap t updates regB := by
    refine ⟨updatesBefore updates 1, updatesBefore_mono updates (by decide), ?_⟩
    rw [hread, pieced_of_noCarry h]
    rfl
  refine ⟨hsufficient, fun hshort => ⟨?_, hsufficient⟩⟩
  rintro ⟨n, hn, heq⟩
  exact noCarry_of_shown hshort hn ((hread n).mp heq)

def everyFourth (_ year : Fin 100) : Bool := year.val % 4 == 0

def lateMorning : ClockTime := ⟨30, 59, 10, 3, 1, 1, 25, 20⟩

/-- One update before every read, in the mode of 24 hours with numbers in BCD. -/
theorem reading_consistent_iff_late :
    (0x02 : BitVec 8) &&& 0x02 ≠ 0 ∧ updatesBefore (fun _ => 1) 8 < 60 ∧
    Consistent everyFourth lateMorning (fun _ => 1) 0x02 := by
  refine ⟨by decide, by decide, ?_⟩
  refine (reading_consistent_iff _ lateMorning (fun _ => 1) 0x02 (by decide)).1 ?_
  have hnone {α : Type} {ends : ClockTime → Prop} {g : ClockTime → α}
      (hg : Carries everyFourth ends g) (i : Nat) (hi : updatesBefore (fun _ => 1) i ≤ 8) :
      NoneTill everyFourth lateMorning (fun _ => 1) ends i := by
    intro n _ hn hends
    have hat := congrArg Fin.val (hg.minute _ hends)
    rw [after_seconds] at hat
    change (30 + n) % 60 = 59 at hat
    omega
  exact
    { minutes := hnone carries_minutes 2 (by decide)
      hours := hnone carries_hours 3 (by decide)
      dayOfWeek := hnone carries_dayOfWeek 4 (by decide)
      day := hnone carries_day 5 (by decide)
      month := hnone carries_month 6 (by decide)
      year := hnone carries_year 7 (by decide)
      century := hnone carries_century 8 (by decide) }

/-- 10:58:59 of that day, with the update between the reads of the seconds and the minutes. -/
theorem minute_torn :
    ¬ Consistent everyFourth ⟨59, 58, 10, 3, 1, 1, 25, 20⟩
      (fun i => if i = 1 then 1 else 0) 0x02 := by
  rintro ⟨n, hn, h⟩
  obtain rfl | rfl : n = 0 ∨ n = 1 := by
    have hone : updatesBefore (fun i => if i = 1 then 1 else 0) 8 = 1 := by decide
    omega
  · revert h
    decide
  · revert h
    decide

end EponaOS.Drivers
