import Kintane.Lib.Word
import Kintane.Lib.Spans

/-!
# Physical memory as ranges, with no translation

Free memory as at most `N` ranges `[start, end)`, sorted, never overlapping and never
touching. Adding merges with the neighbours it touches, reserving trims and splits,
allocating is first fit. Running out of entries is an error, reported before anything
changes.

Only the entries in use are modelled, as `ranges`. An operation that would shift entries past the
end of the array stops the machine there; that outcome is `none`.
-/

namespace Kintane.Flat

open Spans

inductive FlatError where
  | empty
  | badAlign
  | overflow
  | overlap
  | noFit
  | full
  deriving DecidableEq, Repr

/-- Free physical memory as at most `N` ranges. -/
structure Regions (N : Nat) where
  ranges : List (Nat × Nat)
  deriving DecidableEq, Repr

namespace Regions

variable {N : Nat}

def new : Regions N := ⟨[]⟩

/-- Shift the entries from `i` on up by one and put `v` at `i`. -/
def insertAt (N : Nat) (free : List (Nat × Nat)) (i : Nat) (v : Nat × Nat) :
    Option (List (Nat × Nat)) :=
  if free.length < N then some (free.insertIdx i v) else none

def removeAt (free : List (Nat × Nat)) (i : Nat) : List (Nat × Nat) := free.eraseIdx i

def rangeEnd (start len : Nat) : Except FlatError Nat :=
  if len = 0 then .error .empty
  else match checkedAdd u64Max start len with
    | some e => .ok e
    | none => .error .overflow

/-- The first index whose entry fails `p`, for entries that satisfy it before and not after. -/
def partitionPoint (p : Nat × Nat → Bool) (free : List (Nat × Nat)) : Nat :=
  (free.takeWhile p).length

/-- Insert `[start, end)`, merging with neighbours it touches. -/
def insert (r : Regions N) (start end_ : Nat) : Option (Regions N × Except FlatError Unit) :=
  let i := partitionPoint (fun x => x.2 < start) r.ranges
  let below := r.ranges[i]?.any (·.2 = start)
  let atI := if below then i + 1 else i
  if r.ranges[atI]?.any (·.1 < end_) then some (r, .error .overlap)
  else
    let above := r.ranges[atI]?.any (·.1 = end_)
    match below, above with
    | true, true =>
      let upper := (r.ranges[atI]?.map (·.2)).getD 0
      some (⟨removeAt (r.ranges.modify i fun x => (x.1, upper)) atI⟩, .ok ())
    | true, false => some (⟨r.ranges.modify i fun x => (x.1, end_)⟩, .ok ())
    | false, true => some (⟨r.ranges.modify atI fun x => (start, x.2)⟩, .ok ())
    | false, false =>
      if r.ranges.length = N then some (r, .error .full)
      else (insertAt N r.ranges i (start, end_)).map fun ranges => (⟨ranges⟩, .ok ())

/-- Hand `[start, start + len)` to the allocator. It must not overlap anything free. -/
def add (r : Regions N) (start len : Nat) : Option (Regions N × Except FlatError Unit) :=
  match rangeEnd start len with
  | .error e => some (r, .error e)
  | .ok end_ => r.insert start end_

def free (r : Regions N) (start len : Nat) : Option (Regions N × Except FlatError Unit) :=
  r.add start len

/-- The loop of `reserve`: `done` has been dealt with, `rest` has not. -/
def reserveLoop (N start end_ : Nat) :
    (done rest : List (Nat × Nat)) → (removed : Nat) → Option (List (Nat × Nat) × Nat)
  | done, [], removed => some (done, removed)
  | done, (s, e) :: rest, removed =>
    if e ≤ start ∨ end_ ≤ s then reserveLoop N start end_ (done ++ [(s, e)]) rest removed
    else
      (checkedAdd u64Max removed (min e end_ - max s start)).bind fun removed =>
        match decide (s < start), decide (end_ < e) with
        | true, true =>
          if (done ++ (s, e) :: rest).length < N then
            reserveLoop N start end_ (done ++ [(s, start), (end_, e)]) rest removed
          else none
        | true, false => reserveLoop N start end_ (done ++ [(s, start)]) rest removed
        | false, true => reserveLoop N start end_ (done ++ [(end_, e)]) rest removed
        | false, false => reserveLoop N start end_ done rest removed

/-- Take `[start, start + len)` out of the free memory, whatever part of it is free. -/
def reserve (r : Regions N) (start len : Nat) : Option (Regions N × Except FlatError Nat) :=
  match rangeEnd start len with
  | .error e => some (r, .error e)
  | .ok end_ =>
    let splits := r.ranges.any fun x => x.1 < start ∧ end_ < x.2
    if splits ∧ r.ranges.length = N then some (r, .error .full)
    else (reserveLoop N start end_ [] r.ranges 0).map fun x => (⟨x.1⟩, .ok x.2)

/-- The loop of `alloc`: the entries of `done` could not hold the request. -/
def allocLoop (N len align : Nat) : (done rest : List (Nat × Nat)) → (full : Bool) →
      Option (List (Nat × Nat) × Except FlatError Nat)
  | done, [], full => some (done, .error (if full then .full else .noFit))
  | done, (s, e) :: rest, full =>
    match checkedNextMultipleOf u64Max s align with
    | none => allocLoop N len align (done ++ [(s, e)]) rest full
    | some at_ =>
      match checkedAdd u64Max at_ len with
      | none => allocLoop N len align (done ++ [(s, e)]) rest full
      | some end_ =>
        if e < end_ then allocLoop N len align (done ++ [(s, e)]) rest full
        else if s < at_ ∧ end_ < e ∧ (done ++ (s, e) :: rest).length = N then
          allocLoop N len align (done ++ [(s, e)]) rest true
        else
          match decide (s < at_), decide (end_ < e) with
          | true, true =>
            (insertAt N (done ++ (s, at_) :: rest) (done.length + 1) (end_, e)).map
              fun ranges => (ranges, .ok at_)
          | true, false => some (done ++ (s, at_) :: rest, .ok at_)
          | false, true => some (done ++ (end_, e) :: rest, .ok at_)
          | false, false => some (done ++ rest, .ok at_)

/-- `len` bytes at a multiple of `align`, from the lowest free range that can hold them. -/
def alloc (r : Regions N) (len align : Nat) : Option (Regions N × Except FlatError Nat) :=
  if len = 0 then some (r, .error .empty)
  else if ¬ isPowerOfTwo align then some (r, .error .badAlign)
  else (allocLoop N len align [] r.ranges false).map fun x => (⟨x.1⟩, x.2)

def check (r : Regions N) : Bool :=
  r.ranges.all (fun x => x.1 < x.2) && (r.ranges.zip r.ranges.tail).all fun w => w.1.2 < w.2.1

def addrs (r : Regions N) : Finset Nat := Spans.addrs r.ranges

end Regions

end Kintane.Flat
