import Kintane.Mm.PhysProof

/-!
# What the memory map says, and that its order does not matter

Firmware gives its regions in any order, overlapping, with kinds nobody has heard of. A
frame is memory when one usable region holds all of it and no other region has a byte of
it. Usable regions round inwards and the others outwards, and what the others take out is
clamped to a span that only the usable ones decide: neither leaves a frame on the wrong
side.

Each pass over the map only ever asks whether some region says something of a bit, so the
passes give the same array for every order of the same regions. That includes the errors:
a region that cannot be read is an overflow wherever it stands.
-/

namespace Kintane

open Bitmap Phys

namespace FrameAllocator

variable {A : Arch} {n : Nat} {r : MemoryRegion} {map map' : List MemoryRegion}

/-- Every byte of frame `n` lies in the region. -/
def Holds (A : Arch) (r : MemoryRegion) (n : Nat) : Prop :=
  r.start ≤ n * A.pageSize ∧ (n + 1) * A.pageSize ≤ r.start + r.len

/-- Some byte of frame `n` lies in the region. -/
def Meets (A : Arch) (r : MemoryRegion) (n : Nat) : Prop :=
  ∃ x, (n * A.pageSize ≤ x ∧ x < (n + 1) * A.pageSize) ∧ r.start ≤ x ∧ x < r.start + r.len

theorem touches_iff_meets : Touches A r.start r.len n ↔ Meets A r n := by
  have hps : n * A.pageSize < (n + 1) * A.pageSize := by
    rw [add_mul]
    have := A.pageSize_pos
    omega
  constructor
  · rintro ⟨hlen, hlo, hhi⟩
    exact ⟨max r.start (n * A.pageSize), ⟨by omega, by omega⟩, by omega, by omega⟩
  · rintro ⟨x, hx, hr⟩
    exact ⟨by omega, by omega, by omega⟩

theorem selects_outerFrames (h : ∃ o, outerFrames A r = .ok o) : Selects (outerFrames A r) n ↔ Meets A r n := by
  obtain ⟨o, ho⟩ := h
  have hspec := outerFramesRaw_spec A r.start r.len
  rw [← touches_iff_meets]
  unfold outerFrames at ho ⊢
  rw [ho] at hspec ⊢
  cases o with
  | none => exact ⟨fun ⟨_, _, heq, _⟩ => by simp at heq, fun ht => absurd ht (hspec n)⟩
  | some p =>
    rw [hspec n]
    constructor
    · rintro ⟨lo, hi, heq, hin⟩
      cases heq
      exact hin
    · exact fun hin => ⟨p.1, p.2, rfl, hin⟩

theorem selects_innerFrames (h : ∃ o, innerFrames A r = .ok o) : Selects (innerFrames A r) n ↔ Holds A r n := by
  have hps := A.pageSize_pos
  obtain ⟨o, ho⟩ := h
  have hiff : Holds A r n ↔
      (r.start + (A.pageSize - 1)) / A.pageSize ≤ n ∧ n < (r.start + r.len) / A.pageSize := by
    have hlo : (r.start + (A.pageSize - 1)) / A.pageSize ≤ n ↔ r.start ≤ n * A.pageSize := by
      rw [← Nat.lt_succ_iff, Nat.div_lt_iff_lt_mul hps, Nat.succ_mul]
      omega
    exact and_congr hlo.symm (Nat.le_div_iff_mul_le hps).symm
  rw [hiff]
  unfold innerFrames at ho ⊢
  cases hadd : checkedAdd u64Max r.start r.len with
  | none => rw [hadd] at ho; cases ho
  | some end_ =>
    obtain ⟨-, rfl⟩ := checkedAdd_eq_some.mp hadd
    rw [hadd] at ho
    unfold alignUp at ho ⊢
    cases hup : checkedAdd u64Max r.start (A.pageSize - 1) with
    | none => rw [hup] at ho; cases ho
    | some up =>
      obtain ⟨-, rfl⟩ := checkedAdd_eq_some.mp hup
      simp only [indexOfAddr, Nat.mul_div_cancel _ hps]
      constructor
      · rintro ⟨lo, hi, heq, hin⟩
        split at heq
        · cases heq
          exact hin
        · cases heq
      · intro hin
        exact ⟨_, _, by rw [if_pos (hin.1.trans_lt hin.2)], hin⟩

/-- A new allocator's pool is what the map says, frame by frame. -/
theorem Built.mem_poolFrames {a : FrameAllocator A} (h : Built map a) (n : Nat) :
    n ∈ a.poolFrames ↔ (∃ r ∈ map, r.kind = usable ∧ Holds A r n) ∧
      ∀ r ∈ map, r.kind ≠ usable → ¬Meets A r n := by
  have hcovers := (span_covers h.span).2
  unfold poolFrames
  rw [Finset.mem_image]
  constructor
  · rintro ⟨i, hi, rfl⟩
    obtain ⟨⟨hlt, r, hr, hsel⟩, hno⟩ := (h.pool i).mp hi
    obtain ⟨hr, hk⟩ := List.mem_filter.mp hr
    have hk := of_decide_eq_true hk
    refine ⟨⟨r, hr, hk, (selects_innerFrames (hcovers.reads r hr hk)).mp hsel⟩, fun r' hr' hk' hmeets => hno ?_⟩
    exact ⟨hlt, r', List.mem_filter.mpr ⟨hr', by simpa using hk'⟩,
      (selects_outerFrames (h.readable r' hr' hk')).mpr hmeets⟩
  · rintro ⟨⟨r, hr, hk, hholds⟩, hno⟩
    have hsel := (selects_innerFrames (hcovers.reads r hr hk)).mpr hholds
    obtain ⟨hle, hlt⟩ := hcovers.frames r hr hk n hsel
    have heq : a.base + (n - a.base) = n := Nat.add_sub_cancel' hle
    refine ⟨n - a.base, (h.pool _).mpr ⟨⟨by omega, r, List.mem_filter.mpr ⟨hr, by simpa using hk⟩, ?_⟩, ?_⟩, heq⟩
    · rwa [heq]
    · rintro ⟨-, r', hr', hsel'⟩
      obtain ⟨hr', hk'⟩ := List.mem_filter.mp hr'
      have hk' : r'.kind ≠ usable := of_decide_eq_true hk'
      rw [heq] at hsel'
      exact hno r' hr' hk' ((selects_outerFrames (h.readable r' hr' hk')).mp hsel')

/-! ## The order of the regions -/

theorem spanLoop_perm (h : map.Perm map') :
    ∀ lo hi found, spanLoop A map lo hi found = spanLoop A map' lo hi found := by
  induction h with
  | nil => exact fun _ _ _ => rfl
  | cons r _ ih =>
    intro lo hi found
    simp only [spanLoop, ih]
  | trans _ _ ih ih' => exact fun lo hi found => (ih lo hi found).trans (ih' lo hi found)
  | swap r r' map =>
    intro lo hi found
    by_cases hk : r.kind = usable
    · by_cases hk' : r'.kind = usable
      · simp only [spanLoop, if_pos hk, if_pos hk']
        -- two regions that both widen the span, or of which one cannot be read
        rcases hin : innerFrames A r with e | _ | p <;> rcases hin' : innerFrames A r' with e' | _ | p' <;>
          dsimp only
        · rw [innerFrames_error hin, innerFrames_error hin']
        · rw [min_right_comm, max_right_comm]
      · simp only [spanLoop, if_pos hk, if_neg hk']
    · simp only [spanLoop, if_neg hk]

theorem span_perm (h : map.Perm map') : Phys.span A map = Phys.span A map' := by
  unfold Phys.span
  rw [spanLoop_perm h]

theorem bitmapBytes_perm (h : map.Perm map') : bitmapBytes A map = bitmapBytes A map' := by
  unfold bitmapBytes
  rw [span_perm h]

theorem markLoop_perm {frames : MemoryRegion → Except AllocError (Option (Nat × Nat))}
    {update : List UInt8 → Nat → List UInt8} {v : Bool} {span : Nat} (hspan : span ≤ A.usizeMax)
    (herr : ∀ r e, frames r = .error e → e = .overflow) (hupdate : Writes update v)
    (base : Nat) (h : map.Perm map') {m : List UInt8} (hm : m.length = Phys.storeBytes span) :
    markLoop A frames update base (base + span) map m = markLoop A frames update base (base + span) map' m := by
  have hclash : ∀ {r e}, frames r = .error e → ¬∃ o, frames r = .ok o := by
    rintro r e he ⟨o, ho⟩
    cases he.symm.trans ho
  rcases markLoop_exact hspan herr hupdate base map hm with ⟨⟨r, hr, e, he⟩, heq⟩ | ⟨hall, m1, heq, hlen, hbits⟩ <;>
    rcases markLoop_exact hspan herr hupdate base map' hm with
      ⟨⟨r', hr', e', he'⟩, heq'⟩ | ⟨hall', m2, heq', hlen', hbits'⟩ <;> rw [heq, heq']
  · exact absurd (hall' r (h.mem_iff.mp hr)) (hclash he)
  · exact absurd (hall r' (h.mem_iff.mpr hr')) (hclash he')
  · congr 1
    refine ext_bits (hlen.trans hlen'.symm) fun i => ?_
    simp only [hbits, hbits', Picked, h.mem_iff]

theorem new_perm (h : map.Perm map') (store : List UInt8) : new A map store = new A map' store := by
  unfold new
  rw [span_perm h, bitmapBytes_perm h]
  cases hspan : Phys.span A map' with
  | error e => rfl
  | ok p =>
    obtain ⟨base, span⟩ := p
    obtain ⟨hmax, hcovers⟩ := span_covers hspan
    have hle : base + span ≤ u64Max := (Nat.le_mul_of_pos_right _ A.pageSize_pos).trans hcovers.top
    have hzero := List.length_replicate (n := Phys.storeBytes span) (a := (0 : UInt8))
    simp only [checkedAdd_of_le hle]
    rw [markLoop_perm hmax (fun _ _ => innerFrames_error) writes_setBit base (h.filter _) hzero]
    rcases markLoop_exact hmax (fun _ _ => innerFrames_error) writes_setBit base (map'.filter (·.kind = usable)) hzero with
      ⟨-, hmark⟩ | ⟨-, pool, hmark, hlen, -⟩
    · rw [hmark]
    · rw [hmark]
      dsimp only
      rw [markLoop_perm hmax (fun _ _ => outerFrames_error) writes_clearBit base (h.filter _) hlen]

/-- A frame is in the pool of a new allocator exactly when a usable region holds all of it and no
other region has a byte of it; and no order of the same regions gives another result. -/
theorem new_reads_map (A : Arch) (map : List MemoryRegion) (store : List UInt8) :
    (∀ a, new A map store = .ok a → ∀ n, n ∈ a.poolFrames ↔
      (∃ r ∈ map, r.kind = usable ∧ r.start ≤ n * A.pageSize ∧ (n + 1) * A.pageSize ≤ r.start + r.len) ∧
        ∀ r ∈ map, r.kind ≠ usable → ∀ x, n * A.pageSize ≤ x → x < (n + 1) * A.pageSize →
          ¬(r.start ≤ x ∧ x < r.start + r.len)) ∧
      ∀ map', map.Perm map' →
        new A map store = new A map' store ∧ bitmapBytes A map = bitmapBytes A map' := by
  refine ⟨fun a h n => ?_, fun map' hperm => ⟨new_perm hperm store, bitmapBytes_perm hperm⟩⟩
  rw [(built_new h).mem_poolFrames n]
  refine and_congr Iff.rfl (forall₃_congr fun r _ _ => ?_)
  exact ⟨fun hno x hlo hhi hin => hno ⟨x, ⟨hlo, hhi⟩, hin⟩, fun hno ⟨x, hx, hin⟩ => hno x hx.1 hx.2 hin⟩

end FrameAllocator

end Kintane
