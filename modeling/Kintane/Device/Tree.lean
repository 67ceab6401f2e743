import Kintane.Module.Elf

/-!
# Register windows of the device tree

A `reg` entry is an address on the bus above the node. `mmio` walks it up to the CPU through the `ranges`
of each ancestor. Only the first byte is walked. The buses forward the rest of the window with it where
each of them carries it in one piece, in the entry that the first byte is in.
-/

namespace Kintane.Tree

open Slices Module.Object

abbrev NodeId := Nat

inductive Error where
  | badCellProperty (offset : Nat)
  | unsupportedCells (node : NodeId) (cells : Nat)
  | badLength (node : NodeId) (len entry : Nat)
  | valueTooWide (node : NodeId)
  | noSuchEntry (node : NodeId) (index : Nat)
  | notMemoryMapped (node bus : NodeId)
  | untranslatable (node bus : NodeId) (address : Nat)
  | regionOverflow (node : NodeId)

abbrev R (α : Type) := Except (Stop Error) α

inductive Cell where
  | absent
  | value (v : UInt32)
  | malformed (offset : Nat)

/-- The value, or what an absent one stands for. -/
def Cell.getOr (default : Nat) : Cell → R Nat
  | absent => .ok default
  | value v => .ok v.toNat
  | malformed offset => .error (.err (.badCellProperty offset))

inductive Origin where
  | deviceTree
  /-- A PCI function or a described device, with its windows. -/
  | listed (windows : Nat → Option (Nat × Nat))

structure Node where
  origin : Origin
  parent : Option NodeId
  reg : Option (List UInt8)
  ranges : Option (List UInt8)
  addressCells : Cell
  sizeCells : Cell

def entryBytes (node : NodeId) (counts : List Nat) : R Nat := do
  let total ← counts.foldlM (fun total cells =>
    if 4 < cells then .error (.err (.unsupportedCells node cells)) else .ok (total + 4 * cells)) 0
  if total = 0 then .error (.err (.unsupportedCells node 0)) else .ok total

/-- `cells_value`, after the cells that made up `value`. -/
def cellsValue (value : Nat) : List UInt8 → Option Nat
  | a :: b :: c :: d :: bytes =>
    if 2 ^ 32 ≤ value then none else cellsValue (value * 2 ^ 32 + fromBeBytes [a, b, c, d]) bytes
  | _ => some value

def splitAtChecked (n : Nat) (l : List UInt8) : Option (List UInt8 × List UInt8) :=
  if n ≤ l.length then some (l.splitAt n) else none

/-- An entry of a `ranges`. -/
structure Range where
  child : Nat
  parent : Nat
  size : Nat

abbrev Range.Contains (r : Range) (address : Nat) : Prop := r.child ≤ address ∧ address - r.child < r.size

/-- Reads an entry of a `ranges` of `bus`, with the cells of its child and parent addresses. -/
def readRange (bus : NodeId) (malformed : Error) (child parent : Nat) (e : List UInt8) : R Range := do
  let (c, rest) ← okOr (splitAtChecked (4 * child) e) malformed
  let (p, s) ← okOr (splitAtChecked (4 * parent) rest) malformed
  let c ← okOr (cellsValue 0 c) (.valueTooWide bus)
  let p ← okOr (cellsValue 0 p) (.valueTooWide bus)
  let s ← okOr (cellsValue 0 s) (.valueTooWide bus)
  return ⟨c, p, s⟩

/-- The loop of `through_ranges`. -/
def search (bus : NodeId) (missing : Error) (address : Nat) : List (R Range) → R Nat
  | [] => .error (.err missing)
  | e :: es => do
    let r ← e
    if r.Contains address then okOr (checkedAdd u64Max (address - r.child) r.parent) (.regionOverflow bus)
    else search bus missing address es

structure DeviceTree where
  node : NodeId → Node
  /-- Parents precede their children. -/
  parent_lt : ∀ {id parent}, (node id).parent = some parent → parent < id

namespace DeviceTree

variable (t : DeviceTree)

def addressCells (id : NodeId) : R Nat := (t.node id).addressCells.getOr 2

def sizeCells (id : NodeId) : R Nat := (t.node id).sizeCells.getOr 1

/-- What the entries of the `ranges` of `bus` read as. -/
def entries (bus grandparent : NodeId) (ranges : List UInt8) : R (List (R Range)) := do
  let child ← t.addressCells bus
  let parent ← t.addressCells grandparent
  let size ← t.sizeCells bus
  let entry ← entryBytes bus [child, parent, size]
  let malformed := .badLength bus ranges.length entry
  if ranges.length % entry ≠ 0 then .error (.err malformed)
  else .ok ((chunks entry ranges).map (readRange bus malformed child parent))

def throughRanges (node bus grandparent : NodeId) (ranges : List UInt8) (address : Nat) : R Nat := do
  let es ← t.entries bus grandparent ranges
  search bus (.untranslatable node bus address) address es

def translate (node bus : NodeId) (address : Nat) : R Nat :=
  match _h : (t.node bus).parent with
  | none => .ok address
  | some grandparent => do
    let ranges ← okOr (t.node bus).ranges (.notMemoryMapped node bus)
    let address ← (if ranges = [] then .ok address else t.throughRanges node bus grandparent ranges address)
    translate node grandparent address
termination_by bus
decreasing_by exact t.parent_lt _h

/-- The `index`th entry of the `reg` of `id`: the bus, and the address and length on it. -/
def regEntry (id : NodeId) (index : Nat) : R (NodeId × Nat × Nat) := do
  let bus ← okOr (t.node id).parent (.noSuchEntry id 0)
  let reg ← okOr (t.node id).reg (.noSuchEntry id 0)
  let ac ← t.addressCells bus
  let sc ← t.sizeCells bus
  let entry ← entryBytes id [ac, sc]
  if reg.length % entry ≠ 0 then .error (.err (.badLength id reg.length entry))
  let raw ← okOr (chunks entry reg)[index]? (.noSuchEntry id index)
  let (addr, size) ← okOr (splitAtChecked (4 * ac) raw) (.noSuchEntry id index)
  let address ← okOr (cellsValue 0 addr) (.valueTooWide id)
  let len ← okOr (cellsValue 0 size) (.valueTooWide id)
  return (bus, address, len)

/-- A window, unless it ends past the last address. -/
def window (id : NodeId) (phys len : Nat) : R (Nat × Nat) :=
  if u64Max < phys + len then .error (.err (.regionOverflow id)) else .ok (phys, len)

def mmio (id : NodeId) (index : Nat) : R (Nat × Nat) :=
  match (t.node id).origin with
  | .listed windows => do
    let (phys, len) ← okOr (windows index) (.noSuchEntry id index)
    window id phys len
  | .deviceTree => do
    let (bus, address, len) ← t.regEntry id index
    let phys ← t.translate id bus address
    window id phys len

/-! ## The way up -/

/-- The first entry that contains an address. -/
inductive Finds (address : Nat) : List (R Range) → Range → Prop
  | here {es r} (hc : r.Contains address) : Finds address (.ok r :: es) r
  | later {es r r'} (hc : ¬r'.Contains address) (h : Finds address es r) : Finds address (.ok r' :: es) r

/-- An address on a bus reaches the CPU at the last one. -/
inductive Path : NodeId → Nat → Nat → Prop
  | root {bus a} (hp : (t.node bus).parent = none) : Path bus a a
  | same {bus grandparent a p} (hp : (t.node bus).parent = some grandparent)
    (hr : (t.node bus).ranges = some []) (h : Path grandparent a p) : Path bus a p
  | entry {bus grandparent ranges a r p es} (hp : (t.node bus).parent = some grandparent)
    (hr : (t.node bus).ranges = some ranges) (hn : ranges ≠ []) (he : t.entries bus grandparent ranges = .ok es)
    (hf : Finds a es r) (hle : a - r.child + r.parent ≤ u64Max)
    (h : Path grandparent (a - r.child + r.parent) p) : Path bus a p

/-- Each bus above carries the window of `len` bytes at `a` in one piece: the window lies in one entry
of the `ranges`, meets none before it, and does not run past the last address of the next bus. -/
inductive Carries (len : Nat) : NodeId → Nat → Prop
  | root {bus a} (hp : (t.node bus).parent = none) : Carries len bus a
  | same {bus grandparent a} (hp : (t.node bus).parent = some grandparent)
    (hr : (t.node bus).ranges = some []) (h : Carries len grandparent a) : Carries len bus a
  | entry {bus grandparent ranges a r post} {pre : List Range} (hp : (t.node bus).parent = some grandparent)
    (hr : (t.node bus).ranges = some ranges) (hn : ranges ≠ [])
    (he : t.entries bus grandparent ranges = .ok (pre.map .ok ++ .ok r :: post))
    (hpre : ∀ q ∈ pre, a + len ≤ q.child ∨ q.child + q.size ≤ a)
    (hin : r.Contains a ∧ a + len ≤ r.child + r.size) (hle : a - r.child + r.parent + len ≤ 2 ^ 64)
    (h : Carries len grandparent (a - r.child + r.parent)) : Carries len bus a

/-- No `ranges` of the tree has more than one entry. -/
def OneEntry : Prop :=
  ∀ bus grandparent ranges es, (t.node bus).parent = some grandparent → (t.node bus).ranges = some ranges →
    t.entries bus grandparent ranges = .ok es → es.length ≤ 1

variable {t} {a p len : Nat} {node bus id grandparent : NodeId} {es : List (R Range)} {r : Range}

theorem Finds.append {pre : List Range} (hpre : ∀ q ∈ pre, ¬q.Contains a) (hc : r.Contains a)
    (post : List (R Range)) : Finds a (pre.map .ok ++ .ok r :: post) r := by
  induction pre with
  | nil => exact .here hc
  | cons q pre ih =>
    rw [List.forall_mem_cons] at hpre
    exact .later hpre.1 (ih hpre.2)

theorem Finds.eq {r' : Range} (h : Finds a es r) (h' : Finds a es r') : r = r' := by
  induction h with
  | here hc =>
    cases h' with
    | here => rfl
    | later hnot => exact absurd hc hnot
  | later hnot _ ih =>
    cases h' with
    | here hc => exact absurd hc hnot
    | later _ h' => exact ih h'

theorem Path.of_same (hp : (t.node bus).parent = some grandparent) (hr : (t.node bus).ranges = some [])
    (h : t.Path bus a p) : t.Path grandparent a p := by
  cases h with
  | root hp' => cases hp.symm.trans hp'
  | same hp' _ h =>
    cases hp.symm.trans hp'
    exact h
  | entry _ hr' hn => exact absurd (Option.some.inj (hr'.symm.trans hr)) hn

theorem Path.of_entry {ranges : List UInt8} (hp : (t.node bus).parent = some grandparent)
    (hr : (t.node bus).ranges = some ranges) (hn : ranges ≠ []) (he : t.entries bus grandparent ranges = .ok es)
    (h : t.Path bus a p) : ∃ r, Finds a es r ∧ a - r.child + r.parent ≤ u64Max ∧
      t.Path grandparent (a - r.child + r.parent) p := by
  cases h with
  | root hp' => cases hp.symm.trans hp'
  | same _ hr' => exact absurd (Option.some.inj (hr.symm.trans hr')) hn
  | entry hp' hr' _ he' hf hle h =>
    cases hp.symm.trans hp'
    cases hr.symm.trans hr'
    cases he.symm.trans he'
    exact ⟨_, hf, hle, h⟩

/-- What is carried in one piece goes where its first byte goes. -/
theorem Carries.path (h : t.Carries len bus a) (h0 : t.Path bus a p) : ∀ k < len, t.Path bus (a + k) (p + k) := by
  induction h with
  | root hp =>
    intro k _
    cases h0 with
    | root => exact .root hp
    | same hp' => cases hp.symm.trans hp'
    | entry hp' => cases hp.symm.trans hp'
  | same hp hr _ ih => exact fun k hk => .same hp hr (ih (h0.of_same hp hr) k hk)
  | @entry _ _ _ a r post pre hp hr hn he hpre hin hle _ ih =>
    intro k hk
    have hf (j : Nat) (hj : j < len) : Finds (a + j) (pre.map .ok ++ .ok r :: post) r := by
      refine .append (fun q hq hc => ?_) ?_ post
      · have := hpre q hq
        omega
      · omega
    obtain ⟨r', hf', -, h0⟩ := h0.of_entry hp hr hn he
    cases (hf 0 (by omega)).eq hf'
    have hmoved : a + k - r.child + r.parent = a - r.child + r.parent + k := by omega
    exact .entry hp hr hn he (hf k hk) (by unfold u64Max; omega) (hmoved ▸ ih h0 k hk)

/-- Where there is one entry at most, nothing else gets all bytes of a window to the CPU in order. -/
theorem Path.carries (hone : t.OneEntry) (h : t.Path bus a p) (hall : ∀ k < len, t.Path bus (a + k) (p + k)) :
    t.Carries len bus a := by
  induction h with
  | root hp => exact .root hp
  | same hp hr _ ih => exact .same hp hr (ih fun k hk => (hall k hk).of_same hp hr)
  | @entry _ grandparent _ a r p es hp hr hn he hf hle _ ih =>
    obtain ⟨hc, rfl⟩ : r.Contains a ∧ es = [.ok r] := by
      have := hone _ _ _ _ hp hr he
      cases hf with
      | here hc => exact ⟨hc, by simp_all⟩
      | later _ hf => cases hf <;> simp at this
    have hin (k : Nat) (hk : k < len) : r.Contains (a + k) ∧ a + k - r.child + r.parent ≤ u64Max ∧
        t.Path grandparent (a + k - r.child + r.parent) (p + k) := by
      obtain ⟨r', hf, hrest⟩ := (hall k hk).of_entry hp hr hn he
      cases hf with
      | here hc => exact ⟨hc, hrest⟩
      | later _ hf => cases hf
    have hlast : a + len ≤ r.child + r.size ∧ a - r.child + r.parent + len ≤ 2 ^ 64 := by
      unfold u64Max at *
      rcases Nat.eq_zero_or_pos len with rfl | hpos
      · omega
      · have := hin (len - 1) (by omega)
        omega
    refine .entry hp hr hn (by exact he) (List.forall_mem_nil _) ⟨hc, hlast.1⟩ hlast.2 (ih fun k hk => ?_)
    have hmoved : a + k - r.child + r.parent = a - r.child + r.parent + k := by omega
    exact hmoved ▸ (hin k hk).2.2

theorem search_finds {missing : Error} {es : List (R Range)} (h : search bus missing a es = .ok p) :
    ∃ r, Finds a es r ∧ p = a - r.child + r.parent ∧ p ≤ u64Max := by
  induction es with
  | nil => cases h
  | cons e es ih =>
    obtain ⟨r, rfl, hr⟩ := bind_eq_ok.mp h
    split at hr
    · next hc =>
      obtain ⟨hle, rfl⟩ := checkedAdd_eq_some.mp (okOr_eq_ok.mp hr)
      exact ⟨r, .here hc, rfl, hle⟩
    · next hc =>
      obtain ⟨r', hf, hp⟩ := ih hr
      exact ⟨r', .later hc hf, hp⟩

/-- What `translate` returns is where the address goes. -/
theorem translate_path (h : t.translate node bus a = .ok p) : t.Path bus a p := by
  induction bus using Nat.strong_induction_on generalizing a with
  | h bus ih =>
  rw [translate] at h
  split at h
  · next hp =>
    cases h
    exact .root hp
  · next grandparent hp =>
    obtain ⟨ranges, hr, h⟩ := bind_eq_ok.mp h
    obtain ⟨b, hb, h⟩ := bind_eq_ok.mp h
    have hpath := ih _ (t.parent_lt hp) h
    have hr := okOr_eq_ok.mp hr
    split at hb
    · next hn =>
      cases hb
      exact .same hp (hn ▸ hr) hpath
    · next hn =>
      obtain ⟨es, he, hs⟩ := bind_eq_ok.mp hb
      obtain ⟨r, hf, rfl, hle⟩ := search_finds hs
      exact .entry hp hr hn he hf hle hpath

/--
**What is granted is what the buses forward**, where each carries the window in one piece.

Every byte of a window that `mmio` returns then has its way up, to the CPU address that was returned
for it. In a tree whose `ranges` have one entry each this is the only case.
-/
theorem mmio_forwarded {index phys : Nat} (hd : (t.node id).origin = .deviceTree)
    (h : t.mmio id index = .ok (phys, len)) :
    ∃ bus a, t.regEntry id index = .ok (bus, a, len) ∧
      (t.Carries len bus a → ∀ k < len, t.Path bus (a + k) (phys + k)) ∧
      (t.OneEntry → (∀ k < len, t.Path bus (a + k) (phys + k)) → t.Carries len bus a) := by
  rw [mmio, hd] at h
  obtain ⟨⟨bus, a, n⟩, hreg, h⟩ := bind_eq_ok.mp h
  obtain ⟨q, hq, h⟩ := bind_eq_ok.mp h
  unfold window at h
  split at h <;> cases h
  have h0 := translate_path hq
  exact ⟨bus, a, hreg, fun hc => hc.path h0, fun hone => h0.carries hone⟩

/-- A bus that maps 0..0x100 to 0x1000, and a device at 0xc0 on it. -/
def soc (len : UInt8) : DeviceTree where
  node
    | 1 => ⟨.deviceTree, some 0, none, some [0, 0, 0, 0, 0, 0, 0x10, 0, 0, 0, 1, 0], .value 1, .value 1⟩
    | 2 => ⟨.deviceTree, some 1, some [0, 0, 0, 0xc0, 0, 0, 0, len], none, .absent, .absent⟩
    | _ => ⟨.deviceTree, none, none, none, .value 1, .value 1⟩
  parent_lt {id parent} h := by
    split at h <;> cases h <;> decide

theorem soc_mmio {len : UInt8} {n : Nat} (h : (soc len).regEntry 2 0 = .ok (1, 0xc0, n)) (hn : n < 0x100) :
    (soc len).mmio 2 0 = .ok (0x10c0, n) := by
  refine (bind_ok h).trans ((bind_ok ?_).trans (if_neg (by unfold u64Max; omega)))
  rw [translate]
  show (soc len).translate 2 0 0x10c0 = _
  rw [translate]
  rfl

theorem soc_entries {len : UInt8} : (soc len).entries 1 0 [0, 0, 0, 0, 0, 0, 0x10, 0, 0, 0, 1, 0] =
    .ok [.ok ⟨0, 0x1000, 0x100⟩] := rfl

theorem soc_oneEntry {len : UInt8} : (soc len).OneEntry := by
  intro bus grandparent ranges es hp hr he
  simp only [soc] at hp hr
  split at hp <;> cases hp <;> cases hr
  cases soc_entries.symm.trans he
  decide

theorem mmio_forwarded_inside : (soc 0x40).OneEntry ∧ (soc 0x40).Carries 0x40 1 0xc0 ∧
    ∀ k < 0x40, (soc 0x40).Path 1 (0xc0 + k) (0x10c0 + k) := by
  obtain ⟨bus, a, hreg, hpath, -⟩ := mmio_forwarded (t := soc 0x40) rfl (soc_mmio rfl (by decide))
  cases hreg
  have hcarries : (soc 0x40).Carries 0x40 1 0xc0 :=
    .entry rfl rfl (by simp) (by exact soc_entries) (List.forall_mem_nil _) (by decide) (by decide) (.root rfl)
  exact ⟨soc_oneEntry, hcarries, hpath hcarries⟩

/-- The bytes from 0x100 on are in no entry. -/
theorem mmio_past_bridge : (soc 0x80).mmio 2 0 = .ok (0x10c0, 0x80) ∧
    (soc 0x80).regEntry 2 0 = .ok (1, 0xc0, 0x80) ∧ ¬(soc 0x80).Path 1 (0xc0 + 0x40) (0x10c0 + 0x40) := by
  refine ⟨soc_mmio rfl (by decide), rfl, fun h => ?_⟩
  obtain ⟨r, hf, -⟩ := h.of_entry rfl rfl (by simp) soc_entries
  cases hf with
  | here hc => exact absurd hc (by decide)
  | later _ h => cases h

end DeviceTree

end Kintane.Tree
