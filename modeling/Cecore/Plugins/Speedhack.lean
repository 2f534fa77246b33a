import Mathlib.Algebra.Order.Round
import Mathlib.Data.Rat.Floor
import Mathlib.Tactic.Linarith
import Mathlib.Tactic.Positivity
import Mathlib.Tactic.Ring

/-!
# The speedhack clocks

`plugins/speedhack.c`: one time of `CLOCK_MONOTONIC` is the base of three clocks, and the speed of
the moment multiplies all of the time since then. A `double` is a rational number, or none where it
is not finite. A clock goes on faithfully where it began at the base or at speed one, does not read
less than the base, and no change of the speed takes back time that has been given out
(`hacked_clock_faithful`).
-/

set_option autoImplicit false
set_option relaxedAutoImplicit false

namespace Cecore.Plugins

/-! ### The library -/

structure Timespec where
  sec : ℤ
  nsec : ℤ
  deriving DecidableEq, Repr

structure Timeval where
  sec : ℤ
  usec : ℤ
  deriving DecidableEq, Repr

/-- The nanoseconds of a time. -/
def Timespec.ns (t : Timespec) : ℤ := t.sec * 10 ^ 9 + t.nsec

def Timespec.Normal (t : Timespec) : Prop := 0 ≤ t.nsec ∧ t.nsec < 10 ^ 9

instance (t : Timespec) : Decidable t.Normal := inferInstanceAs (Decidable (_ ∧ _))

/-- The conversion of a `double` to `long`. -/
def truncate (x : ℚ) : ℤ := if 0 ≤ x then ⌊x⌋ else ⌈x⌉

/-- `LONG_MAX`. -/
def longMax : ℤ := 2 ^ 63 - 1

/-- `clamp_speed`. -/
def clampSpeed : Option ℚ → ℚ
  | none => 1
  | some v => if v < 1 / 100 ∨ 1000 < v then 1 else v

structure Speedhack where
  speedFactor : ℚ
  baseRealTime : Timespec
  baseFakeTime : Timespec
  /-- The word in shared memory, where it could be mapped. -/
  sharedSpeed : Option (Option ℚ)
  deriving DecidableEq, Repr

namespace Speedhack

/-- `init_speedhack`, with the value of `CE_SPEED` where it is set, and the time of
`CLOCK_MONOTONIC`. -/
def init (env : Option (Option ℚ)) (mapped : Bool) (now : Timespec) : Speedhack :=
  let speedFactor := env.elim 1 clampSpeed
  let speedFactor := if speedFactor ≤ 0 then 1 else speedFactor
  { speedFactor
    baseRealTime := now
    baseFakeTime := now
    sharedSpeed := if mapped then some (some speedFactor) else none }

/-- `get_speed`. -/
def getSpeed (s : Speedhack) : ℚ := clampSpeed (s.sharedSpeed.getD (some s.speedFactor))

/-- `fake_elapsed`, in the range that `tv_sec` can take. -/
def fakeElapsed (s : Speedhack) (ts : Timespec) : ℚ :=
  let realElapsed : ℚ := ((ts.sec - s.baseRealTime.sec : ℤ) : ℚ) +
    ((ts.nsec - s.baseRealTime.nsec : ℤ) : ℚ) / 10 ^ 9
  let fakeElapsed := realElapsed * s.getSpeed
  let maxSecs : ℚ := ((longMax - s.baseFakeTime.sec - 1 : ℤ) : ℚ)
  let fakeElapsed := if fakeElapsed < 0 then 0 else fakeElapsed
  if maxSecs < fakeElapsed then maxSecs else fakeElapsed

/-- `adjust_time`. -/
def adjustTime (s : Speedhack) (ts : Timespec) : Timespec :=
  let fakeElapsed := s.fakeElapsed ts
  let sec := s.baseFakeTime.sec + truncate fakeElapsed
  let nsec := s.baseFakeTime.nsec + truncate ((fakeElapsed - truncate fakeElapsed) * 10 ^ 9)
  if 10 ^ 9 ≤ nsec then ⟨sec + 1, nsec - 10 ^ 9⟩ else ⟨sec, nsec⟩

/-- `clock_gettime`, with what the clock reads: `CLOCK_MONOTONIC` is 1 and `CLOCK_MONOTONIC_RAW` is
4. -/
def clockGettime (s : Speedhack) (clkId : ℕ) (tp : Timespec) : Timespec :=
  if clkId = 1 ∨ clkId = 4 then s.adjustTime tp else tp

/-- `gettimeofday`, with what the clock reads. -/
def gettimeofday (s : Speedhack) (tv : Timeval) : Timeval :=
  let ts := s.adjustTime ⟨tv.sec, tv.usec * 1000⟩
  ⟨ts.sec, ts.nsec.tdiv 1000⟩

end Speedhack

/-! ### Readings -/

/-- What happens to the library: a speed is written to the shared memory, or a clock is read, with
its real time. -/
inductive TimeCall
  | setSpeed (speed : Option ℚ)
  | clockGettime (clkId : ℕ) (tp : Timespec)
  | gettimeofday (tv : Timeval)
  deriving DecidableEq, Repr

inductive HackedClock
  | monotonic
  | monotonicRaw
  | timeOfDay
  deriving DecidableEq, Repr

/-- A time of day, in the form of the other clocks. -/
def Timeval.toTimespec (tv : Timeval) : Timespec := ⟨tv.sec, tv.usec * 1000⟩

theorem Timeval.ns_eq (tv : Timeval) : tv.toTimespec.ns = (tv.sec * 10 ^ 6 + tv.usec) * 1000 := by
  unfold Timeval.toTimespec Timespec.ns
  ring

/-- How many nanoseconds the last digit of a clock is. -/
def HackedClock.granule : HackedClock → ℤ
  | .monotonic | .monotonicRaw => 1
  | .timeOfDay => 1000

/-- A reading of a clock, with the real time and the speed. -/
structure Reading where
  real : Timespec
  fake : Timespec
  speed : ℚ
  deriving DecidableEq, Repr

namespace Speedhack

/-- A call, and the reading where it reads the clock. -/
def call (clock : HackedClock) (s : Speedhack) : TimeCall → Speedhack × Option Reading
  | .setSpeed speed => ({ s with sharedSpeed := s.sharedSpeed.map fun _ ↦ speed }, none)
  | .clockGettime clkId tp =>
    (s, if clock = .monotonic ∧ clkId = 1 ∨ clock = .monotonicRaw ∧ clkId = 4 then
      some ⟨tp, s.clockGettime clkId tp, s.getSpeed⟩ else none)
  | .gettimeofday tv =>
    (s, if clock = .timeOfDay then some ⟨tv.toTimespec, (s.gettimeofday tv).toTimespec, s.getSpeed⟩
      else none)

/-- The readings of a clock in a sequence of calls. -/
def readings (clock : HackedClock) (s : Speedhack) : List TimeCall → List Reading
  | [] => []
  | c :: rest => (s.call clock c).2.toList ++ readings clock (s.call clock c).1 rest

end Speedhack

/-- Time goes on in a clock that began with a real time: it begins there too, does not go back, is
normalised, and at one speed goes on by so much of the real time, up to its last digit. -/
structure Faithful (clock : HackedClock) (start : Timespec) (rs : List Reading) : Prop where
  begins : ∀ r ∈ rs, r.real.ns = start.ns → r.fake.ns = start.ns
  ordered : rs.Pairwise fun first second ↦ first.fake.ns ≤ second.fake.ns
  normal : ∀ r ∈ rs, r.fake.Normal
  advances : ∀ r ∈ rs, ∀ later ∈ rs, r.speed = later.speed →
    |((later.fake.ns - r.fake.ns : ℤ) : ℚ) - r.speed * ((later.real.ns - r.real.ns : ℤ) : ℚ)| <
      clock.granule

/-- The time since the base, at the speed of a reading. -/
def Reading.scaled (base : Timespec) (r : Reading) : ℚ := r.speed * ((r.real.ns - base.ns : ℤ) : ℚ)

/-- A clock with the base of the library, or at speed one when it began, that does not read less
than the base; and the scaled time grows from reading to reading, within the range of `tv_sec`. -/
structure Unbroken (base start : Timespec) (rs : List Reading) : Prop where
  origin : start.ns = base.ns ∨ ∀ r ∈ rs, r.real.ns = start.ns → r.speed = 1
  after : ∀ r ∈ rs, base.ns ≤ r.real.ns
  grows : rs.Pairwise fun first second ↦ first.scaled base ≤ second.scaled base
  fits : ∀ r ∈ rs, r.scaled base ≤ ((longMax - base.sec - 1 : ℤ) : ℚ) * 10 ^ 9

/-! ### One reading -/

theorem truncate_of_nonneg {x : ℚ} (hx : 0 ≤ x) : truncate x = ⌊x⌋ := if_pos hx

/-- Whole seconds and the rest of them are all nanoseconds. -/
theorem truncate_parts {x : ℚ} (hx : 0 ≤ x) :
    truncate x * 10 ^ 9 + truncate ((x - truncate x) * 10 ^ 9) = ⌊x * 10 ^ 9⌋ ∧
      0 ≤ truncate ((x - truncate x) * 10 ^ 9) ∧ truncate ((x - truncate x) * 10 ^ 9) < 10 ^ 9 := by
  rw [truncate_of_nonneg hx]
  have hlow : (0 : ℚ) ≤ x - ⌊x⌋ := sub_nonneg.mpr (Int.floor_le x)
  have hhigh : x - ⌊x⌋ < 1 := sub_lt_iff_lt_add'.mpr (Int.lt_floor_add_one x)
  have hscaled : (0 : ℚ) ≤ (x - ⌊x⌋) * 10 ^ 9 := mul_nonneg hlow (by positivity)
  rw [truncate_of_nonneg hscaled]
  refine ⟨?_, Int.floor_nonneg.mpr hscaled, Int.floor_lt.mpr ?_⟩
  · have hsum : x * 10 ^ 9 = (x - ⌊x⌋) * 10 ^ 9 + ((⌊x⌋ * 10 ^ 9 : ℤ) : ℚ) := by
      push_cast
      ring
    rw [hsum, Int.floor_add_intCast, add_comm]
  · push_cast
    linarith

theorem clampSpeed_pos (v : Option ℚ) : 0 < clampSpeed v := by
  unfold clampSpeed
  split
  · exact one_pos
  · split_ifs with hrange
    · exact one_pos
    · linarith [not_lt.mp (not_or.mp hrange).1]

namespace Speedhack

variable {s : Speedhack} {base : Timespec} {ts : Timespec} {r : Reading}

/-- A library that was initialised at this time. -/
structure Based (s : Speedhack) (base : Timespec) : Prop where
  real : s.baseRealTime = base
  fake : s.baseFakeTime = base

theorem fakeElapsed_eq (hbased : s.Based base) (hafter : base.ns ≤ ts.ns)
    (hfits : s.getSpeed * ((ts.ns - base.ns : ℤ) : ℚ) ≤ ((longMax - base.sec - 1 : ℤ) : ℚ) * 10 ^ 9) :
    s.fakeElapsed ts * 10 ^ 9 = s.getSpeed * ((ts.ns - base.ns : ℤ) : ℚ) ∧ 0 ≤ s.fakeElapsed ts := by
  have hspeed : 0 < s.getSpeed := clampSpeed_pos _
  have hscaled : (0 : ℚ) ≤ s.getSpeed * ((ts.ns - base.ns : ℤ) : ℚ) :=
    mul_nonneg hspeed.le (by exact_mod_cast sub_nonneg.mpr hafter)
  have helapsed : (((ts.sec - base.sec : ℤ) : ℚ) +
      ((ts.nsec - base.nsec : ℤ) : ℚ) / 10 ^ 9) * s.getSpeed =
      s.getSpeed * ((ts.ns - base.ns : ℤ) : ℚ) / 10 ^ 9 := by
    unfold Timespec.ns
    push_cast
    ring
  unfold fakeElapsed
  dsimp only
  rw [hbased.real, hbased.fake, helapsed]
  have hnonneg : (0 : ℚ) ≤ s.getSpeed * ((ts.ns - base.ns : ℤ) : ℚ) / 10 ^ 9 :=
    div_nonneg hscaled (by positivity)
  have hbelow : s.getSpeed * ((ts.ns - base.ns : ℤ) : ℚ) / 10 ^ 9 ≤
      ((longMax - base.sec - 1 : ℤ) : ℚ) :=
    (div_le_iff₀ (by positivity)).mpr hfits
  rw [if_neg (not_lt.mpr hnonneg), if_neg (not_lt.mpr hbelow)]
  exact ⟨div_mul_cancel₀ _ (by positivity), hnonneg⟩

/-- The time that is given is the base with the scaled time since then. -/
theorem adjustTime_spec (hbased : s.Based base) (hbase : base.Normal) (hafter : base.ns ≤ ts.ns)
    (hfits : s.getSpeed * ((ts.ns - base.ns : ℤ) : ℚ) ≤ ((longMax - base.sec - 1 : ℤ) : ℚ) * 10 ^ 9) :
    (s.adjustTime ts).Normal ∧
      (s.adjustTime ts).ns = base.ns + ⌊s.getSpeed * ((ts.ns - base.ns : ℤ) : ℚ)⌋ := by
  obtain ⟨helapsed, hnonneg⟩ := fakeElapsed_eq hbased hafter hfits
  obtain ⟨hsum, hlow, hhigh⟩ := truncate_parts hnonneg
  obtain ⟨hbaseLow, hbaseHigh⟩ := hbase
  rw [helapsed] at hsum
  unfold adjustTime
  dsimp only
  rw [hbased.fake, ← hsum]
  unfold Timespec.Normal Timespec.ns
  split_ifs with hcarry
  · dsimp only
    omega
  · dsimp only
    omega

/-- The time of day is cut off at microseconds. -/
theorem gettimeofday_spec {tv : Timeval} (hbased : s.Based base) (hbase : base.Normal)
    (hafter : base.ns ≤ tv.toTimespec.ns)
    (hfits : s.getSpeed * ((tv.toTimespec.ns - base.ns : ℤ) : ℚ) ≤
      ((longMax - base.sec - 1 : ℤ) : ℚ) * 10 ^ 9) :
    (s.gettimeofday tv).toTimespec.Normal ∧ (s.gettimeofday tv).toTimespec.ns =
      (base.ns + ⌊s.getSpeed * ((tv.toTimespec.ns - base.ns : ℤ) : ℚ)⌋) / 1000 * 1000 := by
  obtain ⟨⟨hlow, hhigh⟩, hns⟩ := adjustTime_spec hbased hbase hafter hfits
  have hcut : (s.gettimeofday tv).toTimespec =
      ⟨(s.adjustTime tv.toTimespec).sec, (s.adjustTime tv.toTimespec).nsec / 1000 * 1000⟩ := by
    change (⟨(s.adjustTime tv.toTimespec).sec, (s.adjustTime tv.toTimespec).nsec.tdiv 1000 * 1000⟩ :
      Timespec) = _
    rw [Int.tdiv_eq_ediv_of_nonneg hlow]
  rw [hcut, ← hns]
  unfold Timespec.Normal Timespec.ns
  dsimp only
  omega

/-- What a reading of a clock says, up to its last digit. -/
structure Honest (clock : HackedClock) (base : Timespec) (r : Reading) : Prop where
  normal : r.fake.Normal
  fake : r.fake.ns = (base.ns + ⌊r.scaled base⌋) / clock.granule * clock.granule
  real : clock.granule ∣ r.real.ns

theorem honest_of_mem {clock : HackedClock} (hbased : s.Based base) (hbase : base.Normal)
    {calls : List TimeCall} (hr : r ∈ s.readings clock calls) (hafter : base.ns ≤ r.real.ns)
    (hfits : r.scaled base ≤ ((longMax - base.sec - 1 : ℤ) : ℚ) * 10 ^ 9) : Honest clock base r := by
  induction calls generalizing s with
  | nil => cases hr
  | cons c rest ih =>
    have hnext : (s.call clock c).1.Based base := by
      cases c <;> exact ⟨hbased.real, hbased.fake⟩
    rw [readings, List.mem_append] at hr
    rcases hr with hfirst | hlater
    · rw [Option.mem_toList] at hfirst
      cases c with
      | setSpeed speed => cases hfirst
      | clockGettime clkId tp =>
        unfold call at hfirst
        dsimp only at hfirst
        split_ifs at hfirst with hclock
        obtain rfl := Option.some.inj hfirst
        obtain ⟨hnormal, hns⟩ := adjustTime_spec hbased hbase hafter hfits
        have hread : s.clockGettime clkId tp = s.adjustTime tp := by
          refine if_pos ?_
          exact hclock.imp And.right And.right
        have hgranule : clock.granule = 1 := by
          rcases hclock with ⟨rfl, -⟩ | ⟨rfl, -⟩ <;> rfl
        refine ⟨?_, ?_, ?_⟩
        · rw [hread]
          exact hnormal
        · rw [hgranule, Int.ediv_one, mul_one]
          exact (congrArg Timespec.ns hread).trans hns
        · rw [hgranule]
          exact one_dvd _
      | gettimeofday tv =>
        unfold call at hfirst
        dsimp only at hfirst
        split_ifs at hfirst with hclock
        obtain rfl := Option.some.inj hfirst
        subst hclock
        obtain ⟨hnormal, hns⟩ := gettimeofday_spec hbased hbase hafter hfits
        exact ⟨hnormal, hns, Dvd.intro_left _ (Timeval.ns_eq tv).symm⟩
    · exact ih hnext hlater

end Speedhack

theorem granule_pos (clock : HackedClock) : 0 < clock.granule := by
  cases clock <;> decide

/-- A reading is at most a digit short of the scaled time. -/
theorem Speedhack.Honest.bounds {clock : HackedClock} {base : Timespec} {r : Reading}
    (h : Speedhack.Honest clock base r) : (r.fake.ns : ℚ) ≤ base.ns + r.scaled base ∧
      (base.ns : ℚ) + r.scaled base < r.fake.ns + clock.granule := by
  have hpos := granule_pos clock
  have hlow := Int.ediv_mul_le (base.ns + ⌊r.scaled base⌋) hpos.ne'
  have hhigh := Int.lt_ediv_add_one_mul_self (base.ns + ⌊r.scaled base⌋) hpos
  rw [← h.fake] at hlow
  rw [add_mul, one_mul, ← h.fake] at hhigh
  have hfloor := Int.floor_le (r.scaled base)
  have hceil := Int.lt_floor_add_one (r.scaled base)
  have hlow' : (r.fake.ns : ℚ) ≤ base.ns + ⌊r.scaled base⌋ := by exact_mod_cast hlow
  have hhigh' : ((base.ns : ℚ) + ⌊r.scaled base⌋ + 1) ≤ r.fake.ns + clock.granule := by
    exact_mod_cast Int.add_one_le_of_lt hhigh
  constructor <;> linarith

/-- Every clock that is intercepted goes on faithfully in a sequence of calls that does not break
it. -/
theorem hacked_clock_faithful (env : Option (Option ℚ)) (mapped : Bool) (base start : Timespec)
    (clock : HackedClock) (calls : List TimeCall) (hbase : base.Normal)
    (hunbroken : Unbroken base start ((Speedhack.init env mapped base).readings clock calls)) :
    Faithful clock start ((Speedhack.init env mapped base).readings clock calls) := by
  have hbased : (Speedhack.init env mapped base).Based base := ⟨rfl, rfl⟩
  have hhonest : ∀ r ∈ (Speedhack.init env mapped base).readings clock calls,
      Speedhack.Honest clock base r := fun r hr ↦
    Speedhack.honest_of_mem hbased hbase hr (hunbroken.after r hr) (hunbroken.fits r hr)
  have hpos := granule_pos clock
  refine ⟨fun r hr hstart ↦ ?_, ?_, fun r hr ↦ (hhonest r hr).normal, fun r hr later hlater hspeed ↦ ?_⟩
  · have hscaled : r.scaled base = ((start.ns - base.ns : ℤ) : ℚ) := by
      unfold Reading.scaled
      rw [hstart]
      rcases hunbroken.origin with hsame | hone
      · rw [hsame, sub_self, Int.cast_zero, mul_zero]
      · rw [hone r hr hstart, one_mul]
    have hdvd : clock.granule ∣ start.ns := hstart ▸ (hhonest r hr).real
    rw [(hhonest r hr).fake, hscaled, Int.floor_intCast, add_sub_cancel]
    exact Int.ediv_mul_cancel hdvd
  · refine hunbroken.grows.imp_of_mem fun {first second} hfirst hsecond hle ↦ ?_
    rw [(hhonest first hfirst).fake, (hhonest second hsecond).fake]
    refine Int.mul_le_mul_of_nonneg_right (Int.ediv_le_ediv hpos ?_) hpos.le
    exact (Int.add_le_add_iff_left _).mpr (Int.floor_le_floor hle)
  · obtain ⟨hlow, hhigh⟩ := (hhonest r hr).bounds
    obtain ⟨hlow', hhigh'⟩ := (hhonest later hlater).bounds
    have helapsed : r.speed * ((later.real.ns - r.real.ns : ℤ) : ℚ) =
        later.scaled base - r.scaled base := by
      unfold Reading.scaled
      rw [hspeed]
      push_cast
      ring
    rw [helapsed, abs_lt]
    push_cast
    constructor <;> linarith

/-- A clock that is read at speed two, and ten seconds later at speed three. -/
theorem faster_clock_faithful :
    Faithful .monotonic ⟨100, 0⟩ ((Speedhack.init (some (some 2)) true ⟨100, 0⟩).readings .monotonic
      [.clockGettime 1 ⟨100, 0⟩, .clockGettime 1 ⟨110, 5⟩, .setSpeed (some 3), .clockGettime 4 ⟨111, 0⟩,
        .clockGettime 1 ⟨120, 0⟩]) := by
  refine hacked_clock_faithful (some (some 2)) true ⟨100, 0⟩ ⟨100, 0⟩ .monotonic _ (by decide) ?_
  have hreadings : (Speedhack.init (some (some 2)) true ⟨100, 0⟩).readings .monotonic
      [.clockGettime 1 ⟨100, 0⟩, .clockGettime 1 ⟨110, 5⟩, .setSpeed (some 3), .clockGettime 4 ⟨111, 0⟩,
        .clockGettime 1 ⟨120, 0⟩] =
      [⟨⟨100, 0⟩, ⟨100, 0⟩, 2⟩, ⟨⟨110, 5⟩, ⟨120, 10⟩, 2⟩, ⟨⟨120, 0⟩, ⟨160, 0⟩, 3⟩] := by
    decide +kernel
  rw [hreadings]
  refine ⟨.inl rfl, by decide +kernel, by decide +kernel, by decide +kernel⟩

/-- A smaller speed takes time back that was given out, and the time of day does not begin at its
own time. -/
theorem slower_clock_goes_back :
    ¬ Faithful .monotonic ⟨100, 0⟩ ((Speedhack.init (some (some 2)) true ⟨100, 0⟩).readings .monotonic
        [.clockGettime 1 ⟨110, 0⟩, .setSpeed (some (1 / 2)), .clockGettime 1 ⟨111, 0⟩]) ∧
      ¬ Faithful .timeOfDay ⟨1700000000, 0⟩
        ((Speedhack.init (some (some 2)) true ⟨10000, 0⟩).readings .timeOfDay
          [.gettimeofday ⟨1700000000, 0⟩]) := by
  have hback : (Speedhack.init (some (some 2)) true ⟨100, 0⟩).readings .monotonic
      [.clockGettime 1 ⟨110, 0⟩, .setSpeed (some (1 / 2)), .clockGettime 1 ⟨111, 0⟩] =
      [⟨⟨110, 0⟩, ⟨120, 0⟩, 2⟩, ⟨⟨111, 0⟩, ⟨105, 500000000⟩, 1 / 2⟩] := by
    decide +kernel
  have hday : (Speedhack.init (some (some 2)) true ⟨10000, 0⟩).readings .timeOfDay
      [.gettimeofday ⟨1700000000, 0⟩] = [⟨⟨1700000000, 0⟩, ⟨3399990000, 0⟩, 2⟩] := by
    decide +kernel
  rw [hback, hday]
  constructor
  · intro hfaithful
    exact absurd hfaithful.ordered (by decide)
  · intro hfaithful
    exact absurd (hfaithful.begins _ (List.mem_singleton_self _) rfl) (by decide)

end Cecore.Plugins
