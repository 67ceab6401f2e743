import Kintane.Lib.Word

/-!
# Nanoseconds from counter ticks

`Scale` is a fixed-point factor. `convert` multiplies by it and carries the bits it shifts off. A delta that
one multiply cannot take is cut into chunks of `max_delta` ticks, and one of more than `2^32` chunks is
taken to be past the last nanosecond. At the largest shift it need not be: there a chunk of ticks may be
just short of `2^32` nanoseconds.
-/

namespace Kintane.Time

def nanosPerSec : Nat := 1000000000

def maxShift : Nat := 32

inductive ClockError where
  | zeroFrequency
  | badWidth
  | frequencyTooHigh
  deriving DecidableEq

structure Scale where
  mult : Nat
  shift : Nat
  maxDelta : Nat
  deriving DecidableEq

namespace Scale

/-- A round of the loop of `new`. -/
def withShift (hz shift : Nat) : Option Scale := do
  let rounded ← checkedAdd u64Max (nanosPerSec <<< shift) (hz / 2)
  let mult := rounded / hz
  if mult = 0 then none else some { mult, shift, maxDelta := (u64Max - (1 <<< shift - 1)) / mult }

/-- The loop of `new`, with the shifts below the given one to go. -/
def search (hz wanted : Nat) : Nat → Option Scale → Option Scale
  | 0, widest => widest
  | shift + 1, widest =>
    match withShift hz shift with
    | none => search hz wanted shift widest
    | some scale => if wanted ≤ scale.maxDelta then some scale else search hz wanted shift (some scale)

def new (hz rangeSecs : Nat) : Except ClockError Scale :=
  if hz = 0 then .error .zeroFrequency
  else
    match search hz (max (satMul u64Max hz rangeSecs) 1) (maxShift + 1) none with
    | some scale => .ok scale
    | none => .error .frequencyTooHigh

variable (s : Scale)

def fracMask : Nat := 1 <<< s.shift - 1

/-- No result where a sum or a product overflows, or the divisor is zero. -/
def convert (ticks frac : Nat) : Option (Nat × Nat) :=
  if ticks ≤ s.maxDelta then do
    let acc ← (checkedMul u64Max ticks s.mult).bind (checkedAdd u64Max · frac)
    some (acc >>> s.shift, acc &&& s.fracMask)
  else if _h : s.maxDelta = 0 then none
  else
    -- `convert_long`
    let q := ticks / s.maxDelta
    if 2 ^ 32 - 1 < q then some (u64Max, 0)
    else do
      let chunk ← checkedMul u64Max s.maxDelta s.mult
      match checkedMul u64Max q (chunk >>> s.shift) with
      | none => some (u64Max, 0)
      | some whole => do
        let acc ← (checkedMul u64Max q (chunk &&& s.fracMask)).bind (checkedAdd u64Max · frac)
        let (restNs, frac) ← convert (ticks % s.maxDelta) (acc &&& s.fracMask)
        some (satAdd u64Max (satAdd u64Max whole (acc >>> s.shift)) restNs, frac)
termination_by ticks
decreasing_by exact (Nat.mod_lt _ (Nat.pos_of_ne_zero _h)).trans (by omega)

/-! ## The factor -/

/-- What a scale for some rate is. -/
structure Fits : Prop where
  shift_le : s.shift ≤ maxShift
  mult_pos : 0 < s.mult
  mult_le : s.mult ≤ nanosPerSec * 2 ^ s.shift
  maxDelta_eq : s.maxDelta = (2 ^ 64 - 2 ^ s.shift) / s.mult

variable {s} {hz wanted shift ticks frac n rangeSecs : Nat}

theorem withShift_fits (hs : shift ≤ maxShift) (h : withShift hz shift = some s) : s.Fits := by
  obtain ⟨rounded, hr, h⟩ := Option.bind_eq_some_iff.mp h
  obtain ⟨-, rfl⟩ := checkedAdd_eq_some.mp hr
  have hpos := Nat.two_pow_pos shift
  simp only [Nat.shiftLeft_eq, one_mul, u64Max] at h
  split at h <;> cases h
  refine ⟨hs, Nat.pos_of_ne_zero ‹_›, ?_, congrArg (· / _) (by dsimp only; omega)⟩
  refine Nat.div_le_of_le_mul ?_
  obtain _ | _ | hz := hz
  · simp_all
  · simp
  · have : (hz + 1 + 1) / 2 ≤ (hz + 1) * (nanosPerSec * 2 ^ shift) :=
      (by omega : _ ≤ hz + 1).trans (Nat.le_mul_of_pos_right _ (by unfold nanosPerSec; omega))
    linarith [add_mul (hz + 1) 1 (nanosPerSec * 2 ^ shift)]

theorem search_fits : ∀ widest, shift ≤ maxShift + 1 → (∀ s, widest = some s → s.Fits) →
    search hz wanted shift widest = some s → s.Fits := by
  induction shift with
  | zero => exact fun _ _ hw h => hw s h
  | succ shift ih =>
    intro widest hs hw h
    unfold search at h
    split at h
    · exact ih _ (by omega) hw h
    · next scale hscale =>
      have hfits := withShift_fits (by omega) hscale
      split at h
      · cases h
        exact hfits
      · exact ih _ (by omega) (by simpa using hfits) h

theorem new_fits (h : new hz rangeSecs = .ok s) : s.Fits := by
  unfold new at h
  split at h
  · cases h
  split at h <;> cases h
  exact search_fits none le_rfl (by simp) ‹_›

/-! ## The conversion -/

variable (s) in
/-- The quotient and the remainder, where the quotient fits a word; the last nanosecond where it does not. -/
def Exact (ticks frac : Nat) (out : Nat × Nat) : Prop :=
  if (ticks * s.mult + frac) / 2 ^ s.shift ≤ u64Max then
    out = ((ticks * s.mult + frac) / 2 ^ s.shift, (ticks * s.mult + frac) % 2 ^ s.shift)
  else out.1 = u64Max

theorem and_fracMask : n &&& s.fracMask = n % 2 ^ s.shift := by
  rw [fracMask, Nat.one_shiftLeft, Nat.and_two_pow_sub_one_eq_mod]

theorem Fits.two_pow_le (h : s.Fits) : 2 ^ s.shift ≤ 2 ^ 32 := Nat.pow_le_pow_right (by decide) h.shift_le

theorem Fits.chunk_le (h : s.Fits) : s.maxDelta * s.mult + 2 ^ s.shift ≤ 2 ^ 64 := by
  have := h.maxDelta_eq ▸ Nat.div_mul_le_self (2 ^ 64 - 2 ^ s.shift) s.mult
  have := h.two_pow_le
  omega

/-- One more tick than `max_delta` is too many. -/
theorem Fits.lt_chunk (h : s.Fits) : 2 ^ 64 < s.maxDelta * s.mult + s.mult + 2 ^ s.shift := by
  have := Nat.lt_mul_div_succ (2 ^ 64 - 2 ^ s.shift) h.mult_pos
  rw [← h.maxDelta_eq, mul_comm, add_mul, one_mul] at this
  omega

theorem Fits.maxDelta_pos (h : s.Fits) : 0 < s.maxDelta := by
  have hlt := h.lt_chunk
  have := h.mult_le
  have := h.two_pow_le
  unfold nanosPerSec at *
  refine Nat.pos_of_ne_zero fun h0 => ?_
  rw [h0] at hlt
  omega

theorem Fits.convert_short (h : s.Fits) (ht : ticks ≤ s.maxDelta) (hf : frac < 2 ^ s.shift) :
    s.convert ticks frac
      = some ((ticks * s.mult + frac) / 2 ^ s.shift, (ticks * s.mult + frac) % 2 ^ s.shift) := by
  have := Nat.mul_le_mul_right s.mult ht
  have := h.chunk_le
  unfold convert
  rw [if_pos ht, checkedMul_of_le (by unfold u64Max; omega)]
  simp only [Option.bind_some]
  rw [checkedAdd_of_le (by unfold u64Max; omega)]
  simp [and_fracMask, Nat.shiftRight_eq_div_pow]

theorem satAdd_satAdd {max a b c : Nat} : satAdd max (satAdd max a b) c = min (a + b + c) max := by
  unfold satAdd
  omega

/-- The chunks' own quotients and what they leave, added up. -/
theorem div_mod_chunks (s : Scale) (ticks frac : Nat) :
    let acc := ticks / s.maxDelta * (s.maxDelta * s.mult % 2 ^ s.shift) + frac
    let rest := ticks % s.maxDelta * s.mult + acc % 2 ^ s.shift
    (ticks * s.mult + frac) / 2 ^ s.shift
        = ticks / s.maxDelta * (s.maxDelta * s.mult / 2 ^ s.shift) + acc / 2 ^ s.shift + rest / 2 ^ s.shift
      ∧ (ticks * s.mult + frac) % 2 ^ s.shift = rest % 2 ^ s.shift := by
  intro acc rest
  have hpos := Nat.two_pow_pos s.shift
  refine (Nat.div_mod_unique hpos).mpr ⟨?_, Nat.mod_lt _ hpos⟩
  have hticks := congrArg (· * s.mult) (Nat.div_add_mod ticks s.maxDelta)
  have hchunk := congrArg (ticks / s.maxDelta * ·) (Nat.div_add_mod (s.maxDelta * s.mult) (2 ^ s.shift))
  have hacc := Nat.div_add_mod acc (2 ^ s.shift)
  have hrest := Nat.div_add_mod rest (2 ^ s.shift)
  simp only [acc, rest] at *
  linarith

theorem Fits.convert_long (h : s.Fits) (ht : s.maxDelta < ticks) (hq : ticks / s.maxDelta < 2 ^ 32)
    (hf : frac < 2 ^ s.shift) : ∃ out, s.convert ticks frac = some out ∧ s.Exact ticks frac out := by
  have hpos := h.maxDelta_pos
  have hchunk := h.chunk_le
  have hpow := h.two_pow_le
  have hpow0 := Nat.two_pow_pos s.shift
  -- at most `2^32 - 1` remainders below `2^32` each
  have hle : ticks / s.maxDelta * (s.maxDelta * s.mult % 2 ^ s.shift) ≤ (2 ^ 32 - 1) * (2 ^ 32 - 1) :=
    Nat.mul_le_mul (by omega) (by have := Nat.mod_lt (s.maxDelta * s.mult) hpow0; omega)
  have hacc : (checkedMul u64Max (ticks / s.maxDelta) (s.maxDelta * s.mult % 2 ^ s.shift)).bind
      (checkedAdd u64Max · frac) = some (ticks / s.maxDelta * (s.maxDelta * s.mult % 2 ^ s.shift) + frac) := by
    rw [checkedMul_of_le (by unfold u64Max; omega)]
    exact checkedAdd_of_le (by unfold u64Max; omega)
  obtain ⟨hdiv, hmod⟩ := div_mod_chunks s ticks frac
  rw [convert, if_neg ht.not_ge, dif_neg hpos.ne', if_neg (by omega),
    checkedMul_of_le (by unfold u64Max; omega)]
  simp only [Option.bind_eq_bind, Option.bind_some, and_fracMask, Nat.shiftRight_eq_div_pow, hacc,
    h.convert_short (Nat.mod_lt _ hpos).le (Nat.mod_lt _ hpow0), Exact, hdiv, hmod]
  by_cases hwhole : ticks / s.maxDelta * (s.maxDelta * s.mult / 2 ^ s.shift) ≤ u64Max
  · rw [checkedMul_of_le hwhole]
    refine ⟨_, rfl, ?_⟩
    rw [satAdd_satAdd]
    split
    · rw [min_eq_left ‹_›]
    · exact min_eq_right (Nat.le_of_not_le ‹_›)
  · rw [checkedMul, if_neg hwhole]
    refine ⟨_, rfl, (if_neg fun hle => hwhole ?_).mpr rfl⟩
    exact (Nat.le_add_right ..).trans ((Nat.le_add_right ..).trans hle)

theorem convert_eq_last (h : s.Fits) (hq : 2 ^ 32 ≤ ticks / s.maxDelta) :
    s.convert ticks frac = some (u64Max, 0) := by
  have hlt : s.maxDelta < ticks := by
    refine Nat.lt_of_not_le fun hle => ?_
    have := Nat.div_le_div_right hle (c := s.maxDelta)
    rw [Nat.div_self h.maxDelta_pos] at this
    omega
  rw [convert, if_neg hlt.not_ge, dif_neg h.maxDelta_pos.ne', if_pos (by omega)]

/-- Below the largest shift `2^32` chunks are past the last nanosecond. -/
theorem Fits.last_lt (h : s.Fits) (hs : s.shift < maxShift) (hq : 2 ^ 32 ≤ ticks / s.maxDelta) :
    2 ^ 64 * 2 ^ s.shift ≤ ticks * s.mult + frac := by
  have hpow : 2 ^ s.shift ≤ 2 ^ 31 := Nat.pow_le_pow_right (by decide) (Nat.le_of_lt_succ hs)
  have hchunk : 2 ^ 63 ≤ s.maxDelta * s.mult := by
    have := h.lt_chunk
    have := h.mult_le
    unfold nanosPerSec at *
    omega
  calc 2 ^ 64 * 2 ^ s.shift ≤ 2 ^ 32 * (s.maxDelta * s.mult) := by omega
    _ ≤ ticks / s.maxDelta * (s.maxDelta * s.mult) := Nat.mul_le_mul_right _ hq
    _ = ticks / s.maxDelta * s.maxDelta * s.mult := (mul_assoc ..).symm
    _ ≤ ticks * s.mult := Nat.mul_le_mul_right _ (Nat.div_mul_le_self ..)
    _ ≤ _ := Nat.le_add_right ..

theorem exact_last_iff : s.Exact ticks frac (u64Max, 0) ↔
    2 ^ 64 * 2 ^ s.shift ≤ ticks * s.mult + frac ∨ ticks * s.mult + frac = u64Max * 2 ^ s.shift := by
  have hpos := Nat.two_pow_pos s.shift
  have hdiv := Nat.div_add_mod (ticks * s.mult + frac) (2 ^ s.shift)
  unfold Exact
  rw [← Nat.le_div_iff_mul_le hpos]
  split
  · next hle =>
    constructor
    · intro hout
      obtain ⟨hq, hr⟩ := Prod.mk.inj hout
      rw [← hq, ← hr] at hdiv
      exact .inr (by rw [← hdiv, mul_comm]; rfl)
    · rintro (hlt | heq)
      · unfold u64Max at hle
        omega
      · rw [heq, Nat.mul_div_cancel _ hpos, Nat.mul_mod_left]
  · next hle =>
    exact iff_of_true rfl (.inl (by unfold u64Max at hle; omega))

/-- **`convert` never overflows, and its result is exact unless more than `2^32` chunks of the largest shift
still come before the last nanosecond.** -/
theorem convert_exact_iff (h : Scale.new hz rangeSecs = .ok s) (hf : frac < 2 ^ s.shift) :
    ∃ out, s.convert ticks frac = some out ∧
      (s.Exact ticks frac out ↔ s.shift < maxShift ∨ ticks / s.maxDelta < 2 ^ 32 ∨
        2 ^ 64 * 2 ^ s.shift ≤ ticks * s.mult + frac ∨ ticks * s.mult + frac = u64Max * 2 ^ s.shift) := by
  have h := new_fits h
  rcases Nat.lt_or_ge (ticks / s.maxDelta) (2 ^ 32) with hq | hq
  · rcases Nat.lt_or_ge s.maxDelta ticks with ht | ht
    · obtain ⟨out, hout, hexact⟩ := h.convert_long ht hq hf
      exact ⟨out, hout, iff_of_true hexact (.inr (.inl hq))⟩
    · refine ⟨_, h.convert_short ht hf, iff_of_true ?_ (.inr (.inl hq))⟩
      have := Nat.mul_le_mul_right s.mult ht
      have := h.chunk_le
      rw [Exact, if_pos ((Nat.div_le_self ..).trans (by unfold u64Max; omega))]
  · refine ⟨_, convert_eq_last h hq, ?_⟩
    rw [exact_last_iff, or_iff_right hq.not_gt]
    exact ⟨.inr, fun h' => h'.elim (fun hs => .inl (h.last_lt hs hq)) id⟩

theorem convert_exact_iff_giga : ∃ s, Scale.new 1000000000 10 = .ok s
    ∧ ∃ out, s.convert 3000000000000 7 = some out ∧ s.Exact 3000000000000 7 out := by
  obtain ⟨out, hout, hexact⟩ :=
    @convert_exact_iff _ 1000000000 3000000000000 7 10 (rfl : Scale.new 1000000000 10 = .ok _) (by decide)
  exact ⟨_, rfl, out, hout, hexact.mpr (.inl (by decide))⟩

/-- A counter of seconds: the last nanosecond is forty years off. -/
theorem convert_last_early : ∃ s, Scale.new 1 1 = .ok s ∧ s.convert (2 ^ 34) 0 = some (u64Max, 0)
    ∧ 2 ^ 34 * s.mult / 2 ^ s.shift = 2 ^ 34 * nanosPerSec ∧ 2 ^ 34 * nanosPerSec < u64Max := by
  refine ⟨_, rfl, ?_, by decide, by decide⟩
  rw [convert]
  rfl

end Scale

end Kintane.Time
