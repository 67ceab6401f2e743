import Kintane.Mm.Phys

/-!
# What an allocation is asked with, and where its memory comes from

A request is a layout (a size and an alignment), a context, and a source of frames the
allocator may take from. `Layout` keeps the two promises the standard library makes of
it. The context carries flags of which only one is honoured; the rest are counted.

Between the heap and its frame source sits the fault injector. It fails chosen calls
at chosen sites, deterministically: the `n`th, all from the `n`th on, or those a seeded
xorshift generator picks.
-/

namespace Kintane

/-! ## Layouts -/

/-- A size and an alignment, as `core::alloc::Layout` admits them. -/
structure Layout (A : Arch) where
  size : Nat
  align : Nat
  align_pow : isPowerOfTwo align = true
  /-- The size rounded up to the alignment is at most `isize::MAX`. -/
  fits : size + align ≤ 2 ^ (A.usizeBits - 1)
  deriving DecidableEq

namespace Layout

variable {A : Arch}

def fromSizeAlign (A : Arch) (size align : Nat) : Option (Layout A) :=
  if hp : isPowerOfTwo align = true then
    if hf : size + align ≤ 2 ^ (A.usizeBits - 1) then some ⟨size, align, hp, hf⟩ else none
  else none

/-- What every allocator refuses up front; the size and alignment otherwise. -/
def check (layout : Layout A) : Except AllocError (Nat × Nat) :=
  let size := layout.size
  let align := layout.align
  if size = 0 then .error .emptyRequest
  else if ¬ isPowerOfTwo align then .error .misaligned
  else match checkedAdd A.usizeMax size (align - 1) with
    | none => .error .overflow
    | some _ => .ok (size, align)

theorem size_add_align_le (layout : Layout A) : layout.size + layout.align ≤ A.usizeMax := by
  have h1 : 2 ^ (A.usizeBits - 1) < 2 ^ A.usizeBits :=
    Nat.pow_lt_pow_right (by decide) (by have := A.bits_ge; omega)
  have h2 := layout.fits
  unfold Arch.usizeMax
  omega

/-- A layout is refused only for being empty. -/
theorem check_eq (layout : Layout A) : layout.check = if layout.size = 0 then .error .emptyRequest
      else .ok (layout.size, layout.align) := by
  have := layout.size_add_align_le
  unfold check
  simp only [layout.align_pow, not_true_eq_false, if_false]
  rw [checkedAdd_of_le (by omega)]

end Layout

/-! ## Contexts -/

/-- Constraints on one allocation, as a bit set. -/
structure AllocFlags where
  bits : UInt32
  deriving DecidableEq

namespace AllocFlags

def none : AllocFlags := ⟨0⟩
def maySleep : AllocFlags := ⟨0x01⟩
def dma32 : AllocFlags := ⟨0x04⟩
def dmaCoherent : AllocFlags := ⟨0x08⟩

def advisory (f : AllocFlags) : AllocFlags :=
  ⟨f.bits &&& (maySleep.bits ||| dma32.bits ||| dmaCoherent.bits)⟩

end AllocFlags

/-- Everything the allocator is told about the caller; `node` is `none` for any node. -/
structure AllocContext where
  flags : AllocFlags
  node : Option UInt16
  deriving DecidableEq

namespace AllocContext

def atomic : AllocContext := ⟨AllocFlags.none, Option.none⟩

def isBestEffort (ctx : AllocContext) : Bool :=
  ctx.flags.advisory.bits != 0 || ctx.node.isSome

end AllocContext

/-! ## Fault injection -/

/-- The places failure can be injected, as a bit set. -/
structure Site where
  bits : UInt8
  deriving DecidableEq

namespace Site

def none : Site := ⟨0⟩
def entry : Site := ⟨0x01⟩
def slabBlock : Site := ⟨0x02⟩
def pages : Site := ⟨0x04⟩
def frames : Site := ⟨0x08⟩

def intersects (s other : Site) : Bool := s.bits &&& other.bits != 0

end Site

inductive Policy where
  | off
  /-- Fail the call numbered `n`, counting from zero. -/
  | nth (n : Nat)
  /-- Fail the call numbered `n` and every one after it. -/
  | from_ (n : Nat)
  /-- Fail when the generator's next value is divisible by `oneIn`. -/
  | random (state oneIn : UInt64) (oneIn_ne : oneIn ≠ 0)
  deriving DecidableEq

/-- A failure policy and its running state. -/
structure Injector where
  sites : Site
  policy : Policy
  calls : Nat
  trips : Nat
  deriving DecidableEq

namespace Injector

def off : Injector := ⟨.none, .off, 0, 0⟩

def failNth (sites : Site) (n : Nat) : Injector := ⟨sites, .nth n, 0, 0⟩

def xorshift (state : UInt64) : UInt64 :=
  let state := state ^^^ (state <<< 13)
  let state := state ^^^ (state >>> 7)
  state ^^^ (state <<< 17)

def trip (enabled : Bool) (i : Injector) (site : Site) : Injector × Bool :=
  if ¬ enabled ∨ ¬ i.sites.intersects site then (i, false)
  else
    let counted (policy : Policy) (fail : Bool) : Injector × Bool :=
      ({ i with
          policy := policy
          calls := satAdd u64Max i.calls 1
          trips := if fail then satAdd u64Max i.trips 1 else i.trips }, fail)
    match i.policy with
    | .off => (i, false)
    | .nth k => counted (.nth k) (i.calls == k)
    | .from_ k => counted (.from_ k) (k ≤ i.calls)
    | .random state oneIn h =>
      let state := xorshift state
      counted (.random state oneIn h) (state % oneIn == 0)

end Injector

/-! ## Frame sources -/

/-- A supply of contiguous physical frames. -/
class FrameSource (A : Arch) (σ : Type) where
  take : σ → Nat → σ × Except AllocError (FrameRange A)

structure NoFrames where

instance {A : Arch} : FrameSource A NoFrames where
  take s _ := (s, .error .exhausted)

/-- A frame source that consults the heap's injector before every take. -/
structure Injected (σ : Type) where
  enabled : Bool
  src : σ
  inject : Injector

instance {A : Arch} {σ : Type} [FrameSource A σ] : FrameSource A (Injected σ) where
  take s frames :=
    let (inject, fail) := s.inject.trip s.enabled .frames
    if fail then ({ s with inject }, .error .exhausted)
    else
      let (src, r) := FrameSource.take s.src frames
      ({ s with src, inject }, r)

/--
Whatever a source answers, in the order it answers it. The answers of any source over
any call are such a script, so what holds for every script holds for every source.
-/
structure Script (A : Arch) where
  answers : List (Except AllocError (FrameRange A))
  deriving DecidableEq

instance {A : Arch} : FrameSource A (Script A) where
  take s _ :=
    match s.answers with
    | [] => (s, .error .exhausted)
    | r :: answers => (⟨answers⟩, r)

def Script.runs {A : Arch} (s : Script A) : List (FrameRange A) :=
  s.answers.filterMap fun
    | .ok r => some r
    | .error _ => none

end Kintane
