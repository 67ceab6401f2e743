import Kintane.Kalloc.Buddy

/-!
# What the record accessors read back

The store is nine bytes a page, and everything above it thinks in links and tags.
This file is the only one that looks at bytes: for pages inside the run, each
accessor reads what its own setter last wrote and is blind to the others.

With that established, `push` and `unlink` are summarised by what they do to the
five functions `next`, `prev`, `tag`, `head` and the two counters.
-/

namespace Kintane.Buddy

variable {A : Arch} {b : Buddy A}

/-- The store has a record for every page, and the arithmetic that finds it is exact. -/
structure Sized (b : Buddy A) : Prop where
  pages_lt : b.pages < nilLink
  bytes_le : b.pages * storeBytesPerPage ≤ A.usizeMax
  store_le : b.pages * storeBytesPerPage ≤ b.store.length

theorem Sized.pages_lt_usizeMax (h : b.Sized) : b.pages < A.usizeMax := h.pages_lt.trans_le A.u32Max_le_usizeMax

/-- `c` is `b` with other bytes in its store, and nothing else changed. -/
structure StoreOnly (b c : Buddy A) : Prop where
  eq : c = { b with store := c.store }
  length : c.store.length = b.store.length

namespace StoreOnly

variable {c d : Buddy A}

theorem refl (b : Buddy A) : StoreOnly b b := ⟨rfl, rfl⟩

/-- Writes to the store compose. -/
theorem trans (h : StoreOnly b c) (h' : StoreOnly c d) : StoreOnly b d :=
  ⟨h'.eq.trans (congrArg (fun x => { x with store := d.store }) h.eq), h'.length.trans h.length⟩

theorem setField (b : Buddy A) (p o : Nat) (v : List UInt8) : StoreOnly b (b.setField p o v) := by
  unfold Buddy.setField
  split
  · exact ⟨rfl, length_setSlice⟩
  · exact .refl b

variable (h : StoreOnly b c)

include h

theorem pages : c.pages = b.pages := by rw [h.eq]

theorem head (o : Nat) : c.head o = b.head o := by rw [h.eq]; rfl

theorem sized (hs : b.Sized) : c.Sized where
  pages_lt := h.pages ▸ hs.pages_lt
  bytes_le := h.pages ▸ hs.bytes_le
  store_le := by rw [h.pages, h.length]; exact hs.store_le

end StoreOnly

theorem Sized.setField (h : b.Sized) (p o : Nat) (v : List UInt8) : (b.setField p o v).Sized :=
  (StoreOnly.setField b p o v).sized h

@[simp] theorem setField_pages (p o : Nat) (v : List UInt8) :
    (b.setField p o v).pages = b.pages := (StoreOnly.setField b p o v).pages

/-! ## Fields of a record -/

section

variable {p q off off' len : Nat} {v : List UInt8} (h : b.Sized)

include h

/-- A field of a page of the run has an offset: nothing overflows on the way to it. -/
theorem Sized.fieldAt (hp : p < b.pages) (hlen : off + len ≤ storeBytesPerPage) :
    fieldAt A p off len = some (p * storeBytesPerPage + off) := by
  have hb := h.bytes_le
  unfold Buddy.fieldAt
  unfold storeBytesPerPage at *
  rw [checkedMul_of_le (by omega), Option.bind_some, checkedAdd_of_le (by omega),
    Option.bind_some, checkedAdd_of_le (by omega), Option.bind_some]

theorem Sized.field_eq (hp : p < b.pages) (hlen : off + len ≤ storeBytesPerPage) :
    b.field p off len = getSlice b.store (p * storeBytesPerPage + off) len := by
  rw [Buddy.field, h.fieldAt hp hlen, Option.bind_some]

theorem Sized.setField_store (hp : p < b.pages)
    (hlen : off + v.length ≤ storeBytesPerPage) :
    (b.setField p off v).store = setSlice b.store (p * storeBytesPerPage + off) v := by
  rw [Buddy.setField, h.fieldAt hp hlen]

/-- A field reads back what was written to it. -/
theorem Sized.field_setField_self (hp : p < b.pages)
    (hlen : off + v.length ≤ storeBytesPerPage) :
    (b.setField p off v).field p off v.length = some v := by
  rw [(h.setField p off v).field_eq (by simpa using hp) hlen, h.setField_store hp hlen, getSlice_setSlice_self]
  have := h.store_le
  unfold storeBytesPerPage at *
  omega

/-- Two fields of one record are disjoint, and so are two records. -/
theorem Sized.field_setField_of_ne
    (hp : p < b.pages) (hq : q < b.pages) (hlen : off + v.length ≤ storeBytesPerPage)
    (hlen' : off' + len ≤ storeBytesPerPage)
    (hne : q ≠ p ∨ off' + len ≤ off ∨ off + v.length ≤ off') :
    (b.setField p off v).field q off' len = b.field q off' len := by
  rw [(h.setField p off v).field_eq (by simpa using hq) hlen', h.setField_store hp hlen,
    h.field_eq hq hlen']
  refine getSlice_setSlice_of_disjoint ?_
  unfold storeBytesPerPage at *
  omega

end

/-! ## Links and tags -/

/-- A link fits in four bytes, also the `nilLink` that stands for one out of reach. -/
theorem readU32_lt (b : Buddy A) (p off : Nat) : b.readU32 p off < 2 ^ 32 := by
  unfold readU32
  split
  · rename_i v hv
    obtain ⟨i, _, hi⟩ := Option.bind_eq_some_iff.mp hv
    have := fromLeBytes_lt v
    rw [length_of_getSlice hi] at this
    exact this
  · decide

/-- What the accessors read in `c`, of the pages it has in common with `b`. -/
structure Reads (b c : Buddy A) (next prev : Nat → Nat) (tag : Nat → UInt8) : Prop where
  sized : c.Sized
  pages : c.pages = b.pages
  next : ∀ q < b.pages, c.next q = next q
  prev : ∀ q < b.pages, c.prev q = prev q
  tag : ∀ q < b.pages, c.tag q = tag q

namespace Sized

variable {p q v x off : Nat} {t : UInt8} {bs : List UInt8}

/-- A link reads back as it was written. -/
theorem readU32_writeU32 (h : b.Sized) (hp : p < b.pages) (hv : v < 2 ^ 32)
    (hoff : off + 4 ≤ storeBytesPerPage) : (b.writeU32 p off v).readU32 p off = v := by
  have := h.field_setField_self (v := toLeBytes 4 v) hp (by simpa using hoff)
  rw [length_toLeBytes] at this
  rw [readU32, writeU32, this]
  exact fromLeBytes_toLeBytes hv

variable (h : b.Sized) (hp : p < b.pages) (hq : q < b.pages)

include h hp hq

theorem readU32_setField_of_ne {off' : Nat} (hlen : off + bs.length ≤ storeBytesPerPage)
    (hlen' : off' + 4 ≤ storeBytesPerPage)
    (hne : q ≠ p ∨ off' + 4 ≤ off ∨ off + bs.length ≤ off') :
    (b.setField p off bs).readU32 q off' = b.readU32 q off' := by
  rw [readU32, readU32, h.field_setField_of_ne hp hq hlen hlen' hne]

/-- A link of one page, after that of another or the same was written. -/
theorem readU32_writeU32_eq (hv : v < 2 ^ 32) (hoff : off + 4 ≤ storeBytesPerPage) :
    (b.writeU32 p off v).readU32 q off = if q = p then v else b.readU32 q off := by
  split
  · rename_i he
    subst he
    exact h.readU32_writeU32 hp hv hoff
  · rename_i hne
    exact h.readU32_setField_of_ne hp hq (by simpa using hoff) hoff (.inl hne)

theorem tag_setField_of_ne (hlen : off + bs.length ≤ storeBytesPerPage)
    (hne : q ≠ p ∨ off + bs.length ≤ 8) : (b.setField p off bs).tag q = b.tag q := by
  rw [tag, tag, h.field_setField_of_ne hp hq hlen (by decide) (by omega)]

/-- The tag of one page, after that of another or the same was written. -/
theorem tag_setTag : (b.setTag p t).tag q = if q = p then t else b.tag q := by
  split
  · rename_i he
    subst he
    have hread : (b.setTag q t).field q 8 1 = some [t] :=
      h.field_setField_self (v := [t]) hp (le_refl 9)
    rw [tag, hread]
    rfl
  · rename_i hne
    exact h.tag_setField_of_ne hp hq (le_refl 9) (.inl hne)

omit hq

/-- Writing a tag changes no link. -/
theorem setTag (t : UInt8) : Reads b (b.setTag p t) b.next b.prev fun q => if q = p then t else b.tag q where
  sized := h.setField ..
  pages := setField_pages ..
  next _ hq := h.readU32_setField_of_ne hp hq (le_refl 9) (by decide) (by right; left; decide)
  prev _ hq := h.readU32_setField_of_ne hp hq (le_refl 9) (by decide) (by right; left; decide)
  tag _ hq := h.tag_setTag hp hq

/-- Writing a `next` link changes no other. -/
theorem setNext (hv : v < 2 ^ 32) :
    Reads b (b.setNext p v) (fun q => if q = p then v else b.next q) b.prev b.tag where
  sized := h.setField ..
  pages := setField_pages ..
  next _ hq := h.readU32_writeU32_eq hp hq hv (by decide)
  prev _ hq := h.readU32_setField_of_ne hp hq (by simp [storeBytesPerPage]) (by decide) (by simp)
  tag _ hq := h.tag_setField_of_ne hp hq (by simp [storeBytesPerPage]) (by simp)

/-- Writing a `prev` link changes no other. -/
theorem setPrev (hv : v < 2 ^ 32) :
    Reads b (b.setPrev p v) b.next (fun q => if q = p then v else b.prev q) b.tag where
  sized := h.setField ..
  pages := setField_pages ..
  next _ hq := h.readU32_setField_of_ne hp hq (by simp [storeBytesPerPage]) (by decide) (by simp)
  prev _ hq := h.readU32_writeU32_eq hp hq hv (by decide)
  tag _ hq := h.tag_setField_of_ne hp hq (by simp [storeBytesPerPage]) (by simp)

end Sized

/-! ## The list operations -/

section Lists

variable {p q o o' v x : Nat}

@[simp] theorem toIndex_eq (link : Nat) : toIndex link = link := rfl

/-- An array of one word for each order, after one was written. -/
theorem getD_setIfInBounds {d : Nat} (w : Vector Nat orders) (ho : o < orders) :
    (w.setIfInBounds o v)[o']?.getD d = if o' = o then v else w[o']?.getD d := by
  by_cases he : o' = o
  · subst he; simp [ho]
  · simp [he, Ne.symm he]

theorem Sized.ne_nilLink (h : b.Sized) (hq : q < b.pages) : q ≠ nilLink :=
  (hq.trans h.pages_lt).ne

/-- Point a neighbour's `prev` somewhere else, unless there is no neighbour. -/
def relinkPrev (b : Buddy A) (x v : Nat) : Buddy A := if x ≠ nilLink then b.setPrev x v else b

theorem relinkPrev_storeOnly (b : Buddy A) (x v : Nat) : StoreOnly b (b.relinkPrev x v) := by
  unfold relinkPrev
  split
  · exact .setField ..
  · exact .refl b

/-- At the end of a list there is no neighbour, and no page is `nilLink`. -/
theorem Sized.relinkPrev (h : b.Sized) (hx : x = nilLink ∨ x < b.pages) (hv : v < 2 ^ 32) :
    Reads b (b.relinkPrev x v) b.next (fun q => if q = x then v else b.prev q) b.tag := by
  unfold Buddy.relinkPrev
  split
  · rename_i hn
    exact h.setPrev (hx.resolve_left hn) hv
  · rename_i hn
    obtain rfl : x = nilLink := not_not.mp hn
    exact ⟨h, rfl, fun _ _ => rfl, fun q hq => (if_neg (h.ne_nilLink hq)).symm, fun _ _ => rfl⟩

/-- Every link, tag, head and counter after a `push`. -/
structure Pushed (b c : Buddy A) (p o : Nat) : Prop extends
    Reads b c (fun q => if q = p then b.head o else b.next q)
      (fun q => if q = b.head o then p else if q = p then nilLink else b.prev q) b.tag where
  head : ∀ o', c.head o' = if o' = o then p else b.head o'
  freeBlocks : ∀ o', c.freeBlocks[o']?.getD 0 =
    if o' = o then satAdd A.usizeMax (b.freeBlocks[o]?.getD 0) 1 else b.freeBlocks[o']?.getD 0
  freePages : c.freePages = satAdd A.usizeMax b.freePages (blockPages o)

/-- **Pushing** a block makes it the first of its list, before the old head. -/
theorem Sized.push (h : b.Sized) (hp : p < b.pages) (ho : o < orders)
    (hold : b.head o = nilLink ∨ b.head o < b.pages) : Pushed b (b.push p o) p o := by
  have hlink : toLink p = p := if_pos ((hp.trans h.pages_lt).trans_le (by decide))
  have hlt : nilLink < 2 ^ 32 := by decide
  have hp32 : p < 2 ^ 32 := (lt_trans hp h.pages_lt).trans hlt
  have hold32 : b.head o < 2 ^ 32 := by
    rcases hold with he | he
    · exact he ▸ hlt
    · exact (lt_trans he h.pages_lt).trans hlt
  have r1 := h.setNext hp hold32
  have r2 := r1.sized.setPrev (r1.pages ▸ hp) hlt
  have r3 := r2.sized.relinkPrev ((r2.pages.trans r1.pages).symm ▸ hold) hp32
  -- the store after the three link writes
  generalize hc : ((b.setNext p (b.head o)).setPrev p nilLink).relinkPrev (b.head o) p = c at r3
  have s : StoreOnly b c := hc ▸ ((StoreOnly.setField ..).trans (.setField ..)).trans (relinkPrev_storeOnly ..)
  have hpush : b.push p o = { c.setHead o p with
      freeBlocks := c.freeBlocks.setIfInBounds o (satAdd A.usizeMax (c.freeBlocks[o]?.getD 0) 1)
      freePages := satAdd A.usizeMax c.freePages (blockPages o) } := by
    rw [← hc]; simp only [Buddy.push, hlink]; rfl
  have hq1 {q : Nat} (hq : q < b.pages) : q < (b.setNext p (b.head o)).pages := r1.pages ▸ hq
  have hq2 {q : Nat} (hq : q < b.pages) : q < ((b.setNext p (b.head o)).setPrev p nilLink).pages :=
    r2.pages ▸ hq1 hq
  rw [hpush]
  exact
    { sized := { r3.sized with }
      pages := s.pages
      tag := fun q hq => (r3.tag q (hq2 hq)).trans ((r2.tag q (hq1 hq)).trans (r1.tag q hq))
      next := fun q hq => (r3.next q (hq2 hq)).trans ((r2.next q (hq1 hq)).trans (r1.next q hq))
      prev := fun q hq => by
        rw [← r1.prev q hq, ← r2.prev q (hq1 hq)]
        exact r3.prev q (hq2 hq)
      head := fun o' => (getD_setIfInBounds _ ho).trans (by rw [← s.head]; rfl)
      freeBlocks := fun o' => (getD_setIfInBounds _ ho).trans (by rw [s.eq])
      freePages := by rw [s.eq] }

/-- Every link, tag, head and counter after an `unlink`. -/
structure Unlinked (b c : Buddy A) (p o : Nat) : Prop extends
    Reads b c (fun q => if q = b.prev p then b.next p else b.next q)
      (fun q => if q = b.next p then b.prev p else b.prev q) b.tag where
  head : ∀ o', c.head o' = if b.prev p = nilLink ∧ o' = o then b.next p else b.head o'
  freeBlocks : ∀ o', c.freeBlocks[o']?.getD 0 =
    if o' = o then b.freeBlocks[o]?.getD 0 - 1 else b.freeBlocks[o']?.getD 0
  freePages : c.freePages = b.freePages - blockPages o

/-- **Unlinking** a block joins its two neighbours, or makes the next one the head. -/
theorem Sized.unlink (h : b.Sized) (ho : o < orders)
    (hprev : b.prev p = nilLink ∨ b.prev p < b.pages)
    (hnext : b.next p = nilLink ∨ b.next p < b.pages) : Unlinked b (b.unlink p o) p o := by
  -- the state after the first of the two neighbours is redirected
  obtain ⟨c, hc⟩ : ∃ c, c = if b.prev p = nilLink then b.setHead o (b.next p)
      else b.setNext (b.prev p) (b.next p) := ⟨_, rfl⟩
  have r1 : Reads b c (fun q => if q = b.prev p then b.next p else b.next q) b.prev b.tag := by
    rw [hc]
    split
    · rename_i he
      refine ⟨{ h with }, rfl, fun q hq => ?_, fun _ _ => rfl, fun _ _ => rfl⟩
      exact (if_neg (he ▸ h.ne_nilLink hq)).symm
    · rename_i hn
      exact h.setNext (hprev.resolve_left hn) (b.readU32_lt p 0)
  have hhead : ∀ o', c.head o' = if b.prev p = nilLink ∧ o' = o then b.next p else b.head o' := by
    intro o'
    rw [hc]
    split
    · rename_i he
      simp only [he, true_and]
      exact getD_setIfInBounds _ ho
    · rename_i hn
      rw [if_neg (fun hh => hn hh.1)]
      exact (StoreOnly.setField ..).head o'
  have hcount : c.freeBlocks = b.freeBlocks ∧ c.freePages = b.freePages := by
    rw [hc]
    split
    · exact ⟨rfl, rfl⟩
    · rw [Buddy.setNext, writeU32, (StoreOnly.setField ..).eq]
      exact ⟨rfl, rfl⟩
  have r2 := r1.sized.relinkPrev (r1.pages.symm ▸ hnext) (b.readU32_lt p 4)
  have s := relinkPrev_storeOnly c (b.next p) (b.prev p)
  have hunlink : b.unlink p o = { c.relinkPrev (b.next p) (b.prev p) with
      freeBlocks := (c.relinkPrev (b.next p) (b.prev p)).freeBlocks.setIfInBounds o
        ((c.relinkPrev (b.next p) (b.prev p)).freeBlocks[o]?.getD 0 - 1)
      freePages := (c.relinkPrev (b.next p) (b.prev p)).freePages - blockPages o } := by
    rw [hc]; rfl
  have hq1 {q : Nat} (hq : q < b.pages) : q < c.pages := r1.pages ▸ hq
  rw [hunlink]
  exact
    { sized := { r2.sized with }
      pages := r2.pages.trans r1.pages
      tag := fun q hq => (r2.tag q (hq1 hq)).trans (r1.tag q hq)
      next := fun q hq => (r2.next q (hq1 hq)).trans (r1.next q hq)
      prev := fun q hq => by
        rw [← r1.prev q hq]
        exact r2.prev q (hq1 hq)
      head := fun o' => (s.head o').trans (hhead o')
      freeBlocks := fun o' => (getD_setIfInBounds _ ho).trans (by rw [s.eq, hcount.1])
      freePages := by rw [s.eq, hcount.2] }

end Lists

end Kintane.Buddy
