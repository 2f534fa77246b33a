import Cecore.Plugins.Speedhack

/-!
# Waits of a sped-up program

The wrappers of `plugins/speedhack.c` that hand a timeout on to libc: `nanosleep`,
`clock_nanosleep`, `usleep`, `select` and `poll`. Each divides by the speed in `double`, which is a
rational number here, and converts back as x86-64 does: a value that the integer cannot hold
becomes the least one, which turns a long wait at a low speed into none, or one without an end.
-/

set_option autoImplicit false
set_option relaxedAutoImplicit false

namespace Cecore.Plugins

/-! ### The wrappers -/

/-- A `double` as a 64-bit integer. -/
def cvtLong (x : ℚ) : ℤ :=
  if -2 ^ 63 ≤ truncate x ∧ truncate x < 2 ^ 63 then truncate x else -2 ^ 63

/-- A `double` as a 32-bit integer. -/
def cvtInt (x : ℚ) : ℤ :=
  if -2 ^ 31 ≤ truncate x ∧ truncate x < 2 ^ 31 then truncate x else -2 ^ 31

/-- A `double` as an unsigned 32-bit integer: the low half of it as a 64-bit one. -/
def cvtUnsigned (x : ℚ) : ℤ := cvtLong x % 2 ^ 32

namespace Speedhack

/-- `if (spd <= 0) spd = 1.0`. -/
def sleepSpeed (s : Speedhack) : ℚ := if s.getSpeed ≤ 0 then 1 else s.getSpeed

/-- `adjusted`, of the time that `nanosleep` and `clock_nanosleep` make of a request. -/
def adjustedSleep (req : Timespec) (spd : ℚ) : Timespec :=
  let sleepNs : ℚ := ((req.sec : ℚ) * 10 ^ 9 + req.nsec) / spd
  let sleepSecs := sleepNs / 10 ^ 9
  let sleepSecs := if sleepSecs < 0 then 0 else sleepSecs
  -- `(double)LONG_MAX` is the next power of two.
  let sleepSecs := if (2 ^ 63 : ℚ) < sleepSecs then 2 ^ 63 else sleepSecs
  { sec := cvtLong sleepSecs
    nsec := (cvtLong sleepNs).tmod 1000000000 }

/-- `nanosleep`: what is handed on. -/
def nanosleep (s : Speedhack) (req : Timespec) : Timespec := adjustedSleep req s.sleepSpeed

/-- `clock_nanosleep`, with `TIMER_ABSTIME` or without it. -/
def clockNanosleep (s : Speedhack) (absolute : Bool) (req : Timespec) : Timespec :=
  if s.getSpeed ≤ 0 ∨ absolute = true then req else adjustedSleep req s.getSpeed

def usleep (s : Speedhack) (usec : ℤ) : ℤ := cvtUnsigned (usec / s.sleepSpeed)

/-- `select`, with a timeout or without one. -/
def select (s : Speedhack) : Option Timeval → Option Timeval
  | none => none
  | some timeout =>
    if 0 < s.getSpeed ∧ s.getSpeed ≠ 1 then
      let us : ℚ := ((timeout.sec : ℚ) * 10 ^ 6 + timeout.usec) / s.getSpeed
      some { sec := cvtLong (us / 10 ^ 6), usec := (cvtLong us).tmod 1000000 }
    else some timeout

def poll (s : Speedhack) (timeout : ℤ) : ℤ :=
  if 0 < timeout ∧ 0 < s.getSpeed ∧ s.getSpeed ≠ 1 then
    let adjusted := cvtInt (timeout / s.getSpeed)
    if adjusted = 0 then 1 else adjusted
  else timeout

end Speedhack

/-! ### What a wait should become -/

/-- A request to wait, `clock_nanosleep` with a relative time. -/
inductive WaitRequest
  | nanosleep (req : Timespec)
  | clockNanosleep (req : Timespec)
  | usleep (usec : ℤ)
  | select (timeout : Timeval)
  | poll (timeout : ℤ)
  deriving DecidableEq, Repr

/-- A timeout as libc gets it: seconds with a part of one, or a count. -/
inductive Timeout
  | parts (whole part : ℤ)
  | count (n : ℤ)
  deriving DecidableEq, Repr

/-- No negative time, and every number of its type. -/
def WaitRequest.Valid : WaitRequest → Prop
  | .nanosleep req | .clockNanosleep req => 0 ≤ req.sec ∧ req.sec ≤ longMax ∧ req.Normal
  | .usleep usec => 0 ≤ usec ∧ usec < 2 ^ 32
  | .select timeout => 0 ≤ timeout.sec ∧ timeout.sec ≤ longMax ∧ 0 ≤ timeout.usec ∧
      timeout.usec ≤ longMax
  | .poll timeout => 0 ≤ timeout ∧ timeout < 2 ^ 31

/-- What the wrapper hands on. -/
def WaitRequest.passed (s : Speedhack) : WaitRequest → Option Timeout
  | .nanosleep req => some (.parts (s.nanosleep req).sec (s.nanosleep req).nsec)
  | .clockNanosleep req =>
    some (.parts (s.clockNanosleep false req).sec (s.clockNanosleep false req).nsec)
  | .usleep usec => some (.count (s.usleep usec))
  | .select timeout => (s.select (some timeout)).map fun tv ↦ .parts tv.sec tv.usec
  | .poll timeout => some (.count (s.poll timeout))

/-- The time of a request in its smallest unit. -/
def WaitRequest.units : WaitRequest → ℤ
  | .nanosleep req | .clockNanosleep req => req.sec * 10 ^ 9 + req.nsec
  | .usleep usec => usec
  | .select timeout => timeout.sec * 10 ^ 6 + timeout.usec
  | .poll timeout => timeout

/-- Whole seconds of `unit` units and the rest, or the largest time there is. -/
def saturatedParts (unit total : ℤ) : Timeout :=
  if total / unit ≤ longMax then .parts (total / unit) (total % unit)
  else .parts longMax (unit - 1)

/-- The request divided by the speed, truncated, and no larger than its type can say; a poll that
waits at all waits at least one millisecond. -/
def WaitRequest.scaled (spd : ℚ) (request : WaitRequest) : Timeout :=
  let total := ⌊request.units / spd⌋
  match request with
  | .nanosleep _ | .clockNanosleep _ => saturatedParts (10 ^ 9) total
  | .usleep _ => .count (min total (2 ^ 32 - 1))
  | .select _ => saturatedParts (10 ^ 6) total
  | .poll timeout => .count (min (if 0 < timeout then max 1 total else total) (2 ^ 31 - 1))

/-- The quotient fits the integer that it is converted to; the one that is only passed on is
normal. -/
def WaitRequest.Fits (spd : ℚ) (request : WaitRequest) : Prop :=
  let total := ⌊request.units / spd⌋
  match request with
  | .nanosleep _ | .clockNanosleep _ => total < 2 ^ 63
  | .usleep _ => total < 2 ^ 32 ∨ total % 2 ^ 32 = 2 ^ 32 - 1
  | .select timeout => if spd = 1 then timeout.usec < 10 ^ 6 else total < 2 ^ 63
  | .poll _ => total < 2 ^ 31

/-! ### Conversions -/

theorem cvtLong_of_lt {x : ℚ} (hx : 0 ≤ x) (hlt : ⌊x⌋ < 2 ^ 63) : cvtLong x = ⌊x⌋ := by
  have hnonneg : 0 ≤ ⌊x⌋ := Int.floor_nonneg.mpr hx
  rw [cvtLong, truncate_of_nonneg hx, if_pos ⟨by omega, hlt⟩]

theorem cvtLong_of_le {x : ℚ} (hx : 0 ≤ x) (hle : 2 ^ 63 ≤ ⌊x⌋) : cvtLong x = -2 ^ 63 := by
  rw [cvtLong, truncate_of_nonneg hx, if_neg fun h ↦ absurd h.2 (not_lt.mpr hle)]

theorem cvtInt_of_lt {x : ℚ} (hx : 0 ≤ x) (hlt : ⌊x⌋ < 2 ^ 31) : cvtInt x = ⌊x⌋ := by
  have hnonneg : 0 ≤ ⌊x⌋ := Int.floor_nonneg.mpr hx
  rw [cvtInt, truncate_of_nonneg hx, if_pos ⟨by omega, hlt⟩]

theorem cvtInt_of_le {x : ℚ} (hx : 0 ≤ x) (hle : 2 ^ 31 ≤ ⌊x⌋) : cvtInt x = -2 ^ 31 := by
  rw [cvtInt, truncate_of_nonneg hx, if_neg fun h ↦ absurd h.2 (not_lt.mpr hle)]

/-- Every speed that the wrappers see. -/
theorem clampSpeed_bounds (v : Option ℚ) : 1 / 100 ≤ clampSpeed v ∧ clampSpeed v ≤ 1000 := by
  unfold clampSpeed
  split
  · norm_num
  · split_ifs with hrange
    · norm_num
    · exact ⟨not_lt.mp (not_or.mp hrange).1, not_lt.mp (not_or.mp hrange).2⟩

variable {s : Speedhack}

theorem Speedhack.getSpeed_pos (s : Speedhack) : 0 < s.getSpeed := clampSpeed_pos _

theorem Speedhack.sleepSpeed_eq (s : Speedhack) : s.sleepSpeed = s.getSpeed :=
  if_neg (not_le.mpr s.getSpeed_pos)

theorem units_div_nonneg {request : WaitRequest} (hvalid : request.Valid) (s : Speedhack) :
    0 ≤ (request.units : ℚ) / s.getSpeed := by
  have hunits : 0 ≤ request.units := by
    cases request with
    | nanosleep req | clockNanosleep req =>
      obtain ⟨hsec, -, hnsec, -⟩ := hvalid
      simp only [WaitRequest.units]
      omega
    | usleep usec => exact hvalid.1
    | select timeout =>
      obtain ⟨hsec, -, husec, -⟩ := hvalid
      simp only [WaitRequest.units]
      omega
    | poll timeout => exact hvalid.1
  exact div_nonneg (by exact_mod_cast hunits) s.getSpeed_pos.le

/-- The two conversions of a time agree with its parts exactly if the whole time fits a `long`:
otherwise the part of a second comes out negative. -/
theorem parts_eq_saturatedParts_iff {unit : ℕ} (hunit : 1 < unit)
    (hleast : (-2 ^ 63 : ℤ).tmod unit < 0) {x secs : ℚ} (hx : 0 ≤ x)
    (hsecs : ⌊x⌋ < 2 ^ 63 → secs = x / unit) :
    Timeout.parts (cvtLong secs) ((cvtLong x).tmod unit) = saturatedParts unit ⌊x⌋ ↔
      ⌊x⌋ < 2 ^ 63 := by
  have hnonneg : 0 ≤ ⌊x⌋ := Int.floor_nonneg.mpr hx
  have hpos : (0 : ℤ) < unit := by omega
  constructor
  · intro h
    by_contra hlarge
    rw [cvtLong_of_le hx (not_lt.mp hlarge), saturatedParts] at h
    split at h
    · obtain ⟨-, hpart⟩ := Timeout.parts.inj h
      have := Int.emod_nonneg ⌊x⌋ hpos.ne'
      omega
    · obtain ⟨-, hpart⟩ := Timeout.parts.inj h
      omega
  · intro hfits
    have hquotient : ⌊x⌋ / (unit : ℤ) ≤ ⌊x⌋ := Int.ediv_le_self _ hnonneg
    have hwhole : ⌊x / (unit : ℚ)⌋ = ⌊x⌋ / unit := Int.floor_div_natCast x unit
    rw [hsecs hfits, cvtLong_of_lt hx hfits, cvtLong_of_lt (div_nonneg hx (Nat.cast_nonneg _))
      (by rw [hwhole]; omega), hwhole, Int.tmod_eq_emod_of_nonneg hnonneg, saturatedParts,
      if_pos (by rw [longMax]; omega)]

theorem adjustedSleep_eq_iff {req : Timespec} {spd : ℚ}
    (hx : 0 ≤ ((req.sec : ℚ) * 10 ^ 9 + req.nsec) / spd) :
    Timeout.parts (Speedhack.adjustedSleep req spd).sec (Speedhack.adjustedSleep req spd).nsec =
        saturatedParts (10 ^ 9) ⌊((req.sec : ℚ) * 10 ^ 9 + req.nsec) / spd⌋ ↔
      ⌊((req.sec : ℚ) * 10 ^ 9 + req.nsec) / spd⌋ < 2 ^ 63 := by
  rw [Speedhack.adjustedSleep]
  generalize ((req.sec : ℚ) * 10 ^ 9 + req.nsec) / spd = x at hx ⊢
  dsimp only
  refine @parts_eq_saturatedParts_iff (10 ^ 9) (by norm_num) (by decide) x _ hx ?_
  intro hfits
  have hlt : x < 2 ^ 63 := by exact_mod_cast Int.floor_lt.mp hfits
  have hnonneg : 0 ≤ x / 10 ^ 9 := div_nonneg hx (by norm_num)
  have hsecs : x / 10 ^ 9 ≤ x := div_le_self hx (by norm_num)
  rw [if_neg (not_lt.mpr hnonneg), if_neg (not_lt.mpr (hsecs.trans hlt.le))]
  norm_num

/-- At speed one a timeout is passed on as it is. -/
theorem saturatedParts_self_iff {timeout : Timeval} (hsec : timeout.sec ≤ longMax)
    (husec : 0 ≤ timeout.usec) :
    Timeout.parts timeout.sec timeout.usec =
        saturatedParts (10 ^ 6) (timeout.sec * 10 ^ 6 + timeout.usec) ↔ timeout.usec < 10 ^ 6 := by
  rw [saturatedParts]
  constructor
  · intro h
    split at h
    · obtain ⟨-, hpart⟩ := Timeout.parts.inj h
      omega
    · obtain ⟨-, hpart⟩ := Timeout.parts.inj h
      omega
  · intro h
    have hwhole : (timeout.sec * 10 ^ 6 + timeout.usec) / 10 ^ 6 = timeout.sec := by omega
    have hpart : (timeout.sec * 10 ^ 6 + timeout.usec) % 10 ^ 6 = timeout.usec := by omega
    rw [hwhole, hpart, if_pos hsec]

/-- A microsecond count at the least speed is far from the end of a `long`. -/
theorem usleep_eq_iff {usec : ℤ} (hnonneg : 0 ≤ usec) (hlt : usec < 2 ^ 32) :
    s.usleep usec = min ⌊(usec : ℚ) / s.getSpeed⌋ (2 ^ 32 - 1) ↔
      ⌊(usec : ℚ) / s.getSpeed⌋ < 2 ^ 32 ∨ ⌊(usec : ℚ) / s.getSpeed⌋ % 2 ^ 32 = 2 ^ 32 - 1 := by
  have husec : (0 : ℚ) ≤ usec := by exact_mod_cast hnonneg
  have hx : 0 ≤ (usec : ℚ) / s.getSpeed := div_nonneg husec s.getSpeed_pos.le
  have hbound : (usec : ℚ) / s.getSpeed < 2 ^ 63 := by
    rw [div_lt_iff₀ s.getSpeed_pos]
    have hspeed : 1 / 100 ≤ s.getSpeed := (clampSpeed_bounds _).1
    have hcount : (usec : ℚ) < 2 ^ 32 := by exact_mod_cast hlt
    linarith
  have hfloor : ⌊(usec : ℚ) / s.getSpeed⌋ < 2 ^ 63 := Int.floor_lt.mpr (by exact_mod_cast hbound)
  have hpos : 0 ≤ ⌊(usec : ℚ) / s.getSpeed⌋ := Int.floor_nonneg.mpr hx
  rw [Speedhack.usleep, s.sleepSpeed_eq, cvtUnsigned, cvtLong_of_lt hx hfloor]
  omega

theorem poll_eq_iff {timeout : ℤ} (hnonneg : 0 ≤ timeout) (hlt : timeout < 2 ^ 31) :
    s.poll timeout = min (if 0 < timeout then max 1 ⌊(timeout : ℚ) / s.getSpeed⌋
        else ⌊(timeout : ℚ) / s.getSpeed⌋) (2 ^ 31 - 1) ↔
      ⌊(timeout : ℚ) / s.getSpeed⌋ < 2 ^ 31 := by
  have htimeout : (0 : ℚ) ≤ timeout := by exact_mod_cast hnonneg
  have hx : 0 ≤ (timeout : ℚ) / s.getSpeed := div_nonneg htimeout s.getSpeed_pos.le
  have hpos : 0 ≤ ⌊(timeout : ℚ) / s.getSpeed⌋ := Int.floor_nonneg.mpr hx
  by_cases hscaled : 0 < timeout ∧ 0 < s.getSpeed ∧ s.getSpeed ≠ 1
  · rw [Speedhack.poll, if_pos hscaled, if_pos hscaled.1]
    dsimp only
    by_cases hfits : ⌊(timeout : ℚ) / s.getSpeed⌋ < 2 ^ 31
    · rw [cvtInt_of_lt hx hfits]
      split <;> omega
    · rw [cvtInt_of_le hx (not_lt.mp hfits)]
      split <;> omega
  · rw [Speedhack.poll, if_neg hscaled]
    have hsame : ⌊(timeout : ℚ) / s.getSpeed⌋ = timeout := by
      by_cases hzero : timeout = 0
      · rw [hzero]
        simp
      · have hone : s.getSpeed = 1 := by
          by_contra hne
          exact hscaled ⟨by omega, s.getSpeed_pos, hne⟩
        rw [hone, div_one, Int.floor_intCast]
    rw [hsame]
    split <;> omega

/-- A wait is the request divided by the speed exactly if the quotient fits the integer that it is
converted to. -/
theorem passed_eq_scaled_iff (s : Speedhack) {request : WaitRequest} (hvalid : request.Valid) :
    request.passed s = some (request.scaled s.getSpeed) ↔ request.Fits s.getSpeed := by
  have hx := units_div_nonneg hvalid s
  cases request with
  | nanosleep req =>
    simp only [WaitRequest.units, Int.cast_add, Int.cast_mul, Int.cast_pow, Int.cast_ofNat] at hx
    simp only [WaitRequest.passed, WaitRequest.scaled, WaitRequest.Fits, WaitRequest.units,
      Option.some.injEq, Speedhack.nanosleep, s.sleepSpeed_eq, Int.cast_add, Int.cast_mul,
      Int.cast_pow, Int.cast_ofNat]
    exact adjustedSleep_eq_iff hx
  | clockNanosleep req =>
    have hrelative : ¬(s.getSpeed ≤ 0 ∨ false = true) := by
      rintro (h | h)
      · exact absurd s.getSpeed_pos (not_lt.mpr h)
      · exact absurd h (by decide)
    simp only [WaitRequest.units, Int.cast_add, Int.cast_mul, Int.cast_pow, Int.cast_ofNat] at hx
    simp only [WaitRequest.passed, WaitRequest.scaled, WaitRequest.Fits, WaitRequest.units,
      Option.some.injEq, Speedhack.clockNanosleep, if_neg hrelative, Int.cast_add, Int.cast_mul,
      Int.cast_pow, Int.cast_ofNat]
    exact adjustedSleep_eq_iff hx
  | usleep usec =>
    simp only [WaitRequest.passed, WaitRequest.scaled, WaitRequest.Fits, WaitRequest.units,
      Option.some.injEq, Timeout.count.injEq]
    exact usleep_eq_iff hvalid.1 hvalid.2
  | select timeout =>
    obtain ⟨-, hsec, husec, -⟩ := hvalid
    simp only [WaitRequest.units] at hx
    simp only [WaitRequest.passed, WaitRequest.scaled, WaitRequest.Fits, WaitRequest.units,
      Speedhack.select]
    by_cases hone : s.getSpeed = 1
    · rw [if_neg fun h ↦ h.2 hone, if_pos hone, hone, div_one, Int.floor_intCast, Option.map_some,
        Option.some.injEq]
      exact saturatedParts_self_iff hsec husec
    · simp only [Int.cast_add, Int.cast_mul, Int.cast_pow, Int.cast_ofNat] at hx ⊢
      rw [if_pos ⟨s.getSpeed_pos, hone⟩, if_neg hone, Option.map_some, Option.some.injEq]
      refine @parts_eq_saturatedParts_iff (10 ^ 6) (by norm_num) (by decide) _ _ hx ?_
      intro _
      norm_num
  | poll timeout =>
    simp only [WaitRequest.passed, WaitRequest.scaled, WaitRequest.Fits, WaitRequest.units,
      Option.some.injEq, Timeout.count.injEq]
    exact poll_eq_iff hvalid.1 hvalid.2

/-- The library at a speed that was written to the shared memory. -/
def sharedAt (spd : ℚ) : Speedhack where
  speedFactor := 1
  baseRealTime := ⟨0, 0⟩
  baseFakeTime := ⟨0, 0⟩
  sharedSpeed := some (some spd)

/-- A tenth of a second at speed two. -/
theorem passed_eq_scaled_iff_tenth :
    (WaitRequest.nanosleep ⟨0, 100000000⟩).passed (sharedAt 2) =
        some ((WaitRequest.nanosleep ⟨0, 100000000⟩).scaled (sharedAt 2).getSpeed) ↔
      (WaitRequest.nanosleep ⟨0, 100000000⟩).Fits (sharedAt 2).getSpeed :=
  passed_eq_scaled_iff (sharedAt 2) ⟨by decide, by decide, by decide⟩

/-- At the least speed a poll of 30,000 seconds waits without an end, and a `usleep` of 50 seconds
waits for 705 of the 4294 seconds that it can say. -/
theorem long_waits_wrap :
    (WaitRequest.poll 30000000).Valid ∧ (WaitRequest.usleep 50000000).Valid ∧
      (WaitRequest.poll 30000000).passed (sharedAt (1 / 100)) = some (.count (-2147483648)) ∧
      (WaitRequest.poll 30000000).passed (sharedAt (1 / 100)) ≠
        some ((WaitRequest.poll 30000000).scaled (sharedAt (1 / 100)).getSpeed) ∧
      (WaitRequest.usleep 50000000).passed (sharedAt (1 / 100)) = some (.count 705032704) ∧
      (WaitRequest.usleep 50000000).passed (sharedAt (1 / 100)) ≠
        some ((WaitRequest.usleep 50000000).scaled (sharedAt (1 / 100)).getSpeed) := by
  refine ⟨⟨by decide, by decide⟩, ⟨by decide, by decide⟩, ?_⟩
  decide +kernel

end Cecore.Plugins
