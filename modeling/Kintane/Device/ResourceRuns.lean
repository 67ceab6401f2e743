import Kintane.Device.Resource

/-!
# The ledger over whole runs

The three tables of the ledger are three books of slots. A probe's claims are the entries of one owner,
made in one go because nothing is released while a driver probes; fewer than 2^32 probes means that every
probe is an owner of its own. From that follow the ledger's promises: what is granted is apart, a failed
probe leaves no trace, removing a device takes its claims and no others, and a handle, however stale, gives
back its own claim or nothing.
-/

open List

namespace Kintane.Device

open Slots Resources PortClaim World

/-! ## Apart -/

def WindowsApart (a b : MmioClaim) : Prop :=
  a.phys.toNat + a.len.toNat ≤ b.phys.toNat ∨ b.phys.toNat + b.len.toNat ≤ a.phys.toNat

def LinesApart (a b : IrqClaim) : Prop := a.spec ≠ b.spec

def PortsApart (a b : PortClaim) : Prop :=
  a.base.toNat + a.len.toNat ≤ b.base.toNat ∨ b.base.toNat + b.len.toNat ≤ a.base.toNat

/-- Windows that do not meet are apart, the last addresses being cut off at the top. -/
theorem apart_of_not_meets {max base len heldBase heldLen : Nat} (hbase : base ≤ max) (hheld : heldBase ≤ max)
    (hlen : 0 < len) (h : ¬meets max base (satAdd max base (len - 1)) heldBase heldLen) :
    base + len ≤ heldBase ∨ heldBase + heldLen ≤ base := by
  unfold meets lastOf satAdd at h
  rw [decide_eq_true_iff] at h
  omega

/-! ## The books -/

namespace World

def mmioBook (w : World) : Book MmioClaim := ⟨w.res.mmio, w.mmioFilled, w.mmio.map fun h => (h.slot, h.owner)⟩

def irqBook (w : World) : Book IrqClaim := ⟨w.res.irqs, w.irqFilled, w.irqs.map fun h => (h.slot, h.owner)⟩

def portBook (w : World) : Book PortClaim :=
  ⟨w.res.ports.getD [], w.portFilled, w.ports.map fun h => (h.slot, h.owner)⟩

/-- What a claim leaves alone. -/
structure Keeps (w w' : World) : Prop where
  bound : w'.bound = w.bound
  probes : w'.probes = w.probes
  nextOwner : w'.res.nextOwner = w.res.nextOwner
  ports : w'.res.ports.isSome = w.res.ports.isSome

/-- A book after one claim of owner `o`. -/
inductive Granted {α : Type} (owner : α → Owner) (apart : α → α → Prop) (o : Owner) (book : Book α) : Book α → Prop where
  | same : Granted owner apart o book book
  | grant (slot : Nat) (a : α) (free : book.table[slot]? = some none) (hown : owner a = o)
      (hapart : ∀ b ∈ granted book.table, apart a b) : Granted owner apart o book (book.grant slot a o)

/-- What one request of owner `o` may do to the three books. -/
structure Claimed (o : Owner) (w w' : World) : Prop where
  mmio : Granted MmioClaim.owner WindowsApart o w.mmioBook w'.mmioBook
  irq : Granted IrqClaim.owner LinesApart o w.irqBook w'.irqBook
  port : Granted owner PortsApart o w.portBook w'.portBook
  keeps : w.Keeps w'

theorem Claimed.refused (o : Owner) (w : World) : Claimed o w w := ⟨.same, .same, .same, rfl, rfl, rfl, rfl⟩

theorem claimed_claim (o : Owner) (node : NodeId) (w : World) (req : Request) : Claimed o w (w.claim o node req) := by
  cases req with
  | mmio phys len what =>
    unfold claim claimMmio
    simp only
    by_cases hlen : len = 0
    · rw [if_pos hlen]
      exact .refused o w
    rw [if_neg hlen]
    cases hfind : (granted w.res.mmio).find? _ with
    | some held => exact .refused o w
    | none =>
      cases hpos : position w.res.mmio with
      | none => exact .refused o w
      | some slot =>
        have hapart : ∀ b ∈ granted w.res.mmio, WindowsApart ⟨phys, len, node, what, o⟩ b := by
          intro b hb
          have hpos : 0 < len.toNat := pos_of_ne_zero fun h0 => hlen (UInt64.toNat_inj.mp h0)
          have hmax : ∀ x : UInt64, x.toNat ≤ u64Max := fun x => Nat.le_sub_one_of_lt x.toNat_lt
          exact apart_of_not_meets (hmax _) (hmax _) hpos (find?_eq_none.mp hfind b hb)
        have hg : Granted MmioClaim.owner WindowsApart o w.mmioBook _ :=
          .grant slot _ (free_of_position hpos) rfl hapart
        refine ⟨?_, .same, .same, rfl, rfl, rfl, rfl⟩
        simpa [mmioBook, Book.grant] using hg
  | irq spec =>
    unfold claim claimIrq
    simp only
    cases hfind : (granted w.res.irqs).find? _ with
    | some held => exact .refused o w
    | none =>
      cases hpos : position w.res.irqs with
      | none => exact .refused o w
      | some slot =>
        have hapart : ∀ b ∈ granted w.res.irqs, LinesApart ⟨spec, node, o⟩ b := fun b hb he =>
          find?_eq_none.mp hfind b hb (decide_eq_true he.symm)
        have hg : Granted IrqClaim.owner LinesApart o w.irqBook _ :=
          .grant slot _ (free_of_position hpos) rfl hapart
        refine ⟨.same, ?_, .same, rfl, rfl, rfl, rfl⟩
        simpa [irqBook, Book.grant] using hg
  | ports base len what =>
    unfold claim claimPorts
    simp only
    by_cases hlen : len = 0
    · rw [if_pos hlen]
      exact .refused o w
    rw [if_neg hlen]
    cases hlast : checkedAdd u16Max base.toNat (len.toNat - 1) with
    | none => exact .refused o w
    | some last =>
      simp only
      cases hfind : w.res.portClaims.find? _ with
      | some held => exact .refused o w
      | none =>
        cases hports : w.res.ports with
        | none => exact .refused o w
        | some ports =>
          simp only
          cases hpos : position ports with
          | none => exact .refused o w
          | some slot =>
            have htable : w.portBook.table = ports := congrArg (Option.getD · []) hports
            have hclaims : w.res.portClaims = granted ports := by
              rw [portClaims, hports]
            have hapart : ∀ b ∈ granted w.portBook.table, PortsApart ⟨base, len, node, what, o⟩ b := by
              intro b hb
              have hpos : 0 < len.toNat := pos_of_ne_zero fun h0 => hlen (UInt16.toNat_inj.mp h0)
              have hmax : ∀ x : UInt16, x.toNat ≤ u16Max := fun x => Nat.le_sub_one_of_lt x.toNat_lt
              obtain ⟨hle, rfl⟩ := checkedAdd_eq_some.mp hlast
              have hno := find?_eq_none.mp hfind b (by rw [hclaims, ← htable]; exact hb)
              rw [← satAdd_of_le hle] at hno
              exact apart_of_not_meets (hmax _) (hmax _) hpos hno
            have hg : Granted owner PortsApart o w.portBook _ :=
              .grant slot _ (htable ▸ free_of_position hpos) rfl hapart
            refine ⟨.same, .same, ?_, rfl, rfl, rfl, by rw [hports]; rfl⟩
            simpa [portBook, Book.grant, hports] using hg

/-! ## During a probe -/

/-- The tables while owner `o` claims, in a world that was `base`. -/
structure Probing (o : Owner) (base w : World) : Prop where
  mmio : w.mmioBook.Ok MmioClaim.owner WindowsApart (o + 1) ∧ w.mmioBook.During MmioClaim.owner o base.mmioBook.table
  irq : w.irqBook.Ok IrqClaim.owner LinesApart (o + 1) ∧ w.irqBook.During IrqClaim.owner o base.irqBook.table
  port : w.portBook.Ok owner PortsApart (o + 1) ∧ w.portBook.During owner o base.portBook.table
  keeps : base.Keeps w

variable {o : Owner} {base w w' : World} {n : Nat} {b : Bound} {α : Type}

theorem Keeps.trans {w1 w2 w3 : World} (h : w1.Keeps w2) (h' : w2.Keeps w3) : w1.Keeps w3 :=
  ⟨h'.bound.trans h.bound, h'.probes.trans h.probes, h'.nextOwner.trans h.nextOwner, h'.ports.trans h.ports⟩

section Books

variable {α : Type} {owner : α → Owner} {apart : α → α → Prop} {bound : List Bound} {n : Nat} {book book' : Book α}

theorem Granted.during (hg : Granted owner apart o book book') {base : Table α}
    (h : book.Ok owner apart (o + 1) ∧ book.During owner o base) (hsymm : ∀ {x y}, apart x y → apart y x) :
    book'.Ok owner apart (o + 1) ∧ book'.During owner o base := by
  cases hg with
  | same => exact h
  | grant slot a free hown hapart => exact h.1.grant h.2 free hown hsymm hapart

def without (owner : α → Owner) (o : Owner) (book : Book α) : Book α :=
  { book with table := evict book.table fun a => owner a = o }

/-- A book whose claims are apart, and bound devices'. -/
structure Kept (owner : α → Owner) (apart : α → α → Prop) (bound : List Bound) (n : Nat) (book : Book α) : Prop where
  ok : book.Ok owner apart n
  owned : ∀ {i a}, Holds book.table i a → ∃ b ∈ bound, b.owner = owner a

theorem Kept.shrink (h : Kept owner apart bound n book) {t : Table α}
    (hsub : ∀ {i a}, Holds t i a → Holds book.table i a) : Kept owner apart bound n { book with table := t } :=
  ⟨h.ok.shrink hsub, fun ha => h.owned (hsub ha)⟩

variable (h : Kept owner apart bound n book) (hd : book'.Ok owner apart (n + 1) ∧ book'.During owner n book.table)

include h hd

/-- A claim is an old one, or this probe's. -/
theorem Kept.bind (node : NodeId) (driver : String) :
    Kept owner apart (bound ++ [⟨node, n, driver⟩]) (n + 1) book' := by
  refine ⟨hd.1, fun {i a} ha => ?_⟩
  by_cases ho : owner a = n
  · exact ⟨_, mem_append_right _ (mem_singleton_self _), ho.symm⟩
  · obtain ⟨b, hb, he⟩ := h.owned (hd.2.new ha ho)
    exact ⟨b, mem_append_left _ hb, he⟩

theorem Kept.fail : Kept owner apart bound (n + 1) (without owner n book') := by
  unfold without
  rw [hd.2.evict fun _ => decide_eq_true_iff]
  exact ⟨hd.1.shrink hd.2.kept, h.owned⟩

end Books

theorem Probing.claimed (h : Probing o base w) (hc : Claimed o w w') : Probing o base w' :=
  ⟨hc.mmio.during h.mmio Or.symm, hc.irq.during h.irq Ne.symm, hc.port.during h.port Or.symm, h.keeps.trans hc.keeps⟩

theorem Probing.claims (h : Probing o base w) (node : NodeId) (requests : List Request) :
    Probing o base (requests.foldl (claim o node) w) :=
  List.foldlRecOn requests _ h fun w h req _ => h.claimed (claimed_claim o node w req)

/-- **A failed probe** leaves the tables as they were. -/
theorem Probing.releaseOwner (h : Probing o base w) :
    (w.res.releaseOwner o).mmio = base.res.mmio ∧ (w.res.releaseOwner o).irqs = base.res.irqs ∧
      (w.res.releaseOwner o).ports = base.res.ports := by
  refine ⟨h.mmio.2.evict fun _ => decide_eq_true_iff, h.irq.2.evict fun _ => decide_eq_true_iff, ?_⟩
  have hports := h.port.2.evict (p := fun c => decide (c.owner = o)) fun _ => decide_eq_true_iff
  have hsome := h.keeps.ports
  unfold Resources.releaseOwner portBook at *
  cases hw : w.res.ports <;> cases hb : base.res.ports <;> simp_all

/-! ## Between probes -/

/-- What holds whenever no probe runs. -/
structure Inv (w : World) : Prop where
  next : w.res.nextOwner = w.probes % 2 ^ 32
  mmio : Kept MmioClaim.owner WindowsApart w.bound w.probes w.mmioBook
  irq : Kept IrqClaim.owner LinesApart w.bound w.probes w.irqBook
  port : Kept owner PortsApart w.bound w.probes w.portBook
  older : ∀ {b}, b ∈ w.bound → b.owner < w.probes
  distinct : (w.bound.map Bound.owner).Nodup

theorem holds_replicate {i : Nat} {a : α} : ¬Holds (List.replicate n (none : Option α)) i a := by
  unfold Holds
  rw [getElem?_replicate]
  split <;> simp

theorem inv_init (mmio irqs : Nat) (ports : Option Nat) : (init mmio irqs ports).Inv := by
  have hport : ∀ {i a}, ¬Holds (init mmio irqs ports).portBook.table i a := by
    cases ports with
    | none => exact fun h => by cases h
    | some n => exact holds_replicate
  have hempty {α : Type} {owner : α → Owner} {apart : α → α → Prop} {table : Table α} {filled : Nat → Nat}
      (h : ∀ {i a}, ¬Holds table i a) : Kept owner apart [] 0 ⟨table, filled, []⟩ :=
    ⟨⟨fun _ ha => absurd ha h, fun ha => absurd ha h, nofun, nofun⟩, fun ha => absurd ha h⟩
  exact ⟨rfl, hempty holds_replicate, hempty holds_replicate, hempty hport, nofun, nodup_nil⟩

/-- The owner of a probe is the number of probes before it. -/
theorem Inv.owner (h : w.Inv) (hlt : w.probes < 2 ^ 32) : w.res.begin.1 = w.probes := by
  show w.res.nextOwner = _
  rw [h.next, Nat.mod_eq_of_lt hlt]

theorem Inv.probing (h : w.Inv) (hlt : w.probes < 2 ^ 32) (node : NodeId) (requests : List Request) :
    Probing w.probes { w with res := w.res.begin.2, probes := w.probes + 1 } (w.probing node requests) := by
  unfold World.probing
  rw [h.owner hlt]
  have hstart : Probing w.probes { w with res := w.res.begin.2, probes := w.probes + 1 }
      { w with res := w.res.begin.2, probes := w.probes + 1 } :=
    ⟨h.mmio.ok.begin, h.irq.ok.begin, h.port.ok.begin, ⟨rfl, rfl, rfl, rfl⟩⟩
  exact hstart.claims node requests

theorem table_map (o : Option (Table PortClaim)) (f : Table PortClaim → Table PortClaim) (hf : f [] = []) :
    (o.map f).getD [] = f (o.getD []) := by
  cases o with
  | none => exact hf.symm
  | some t => rfl

theorem portBook_releaseOwner (w : World) (o : Owner) (bound : List Bound) :
    ({ w with res := w.res.releaseOwner o, bound } : World).portBook = without owner o w.portBook := by
  unfold portBook without
  congr 1
  exact table_map _ _ rfl

theorem Inv.probe (h : w.Inv) (hlt : w.probes < 2 ^ 32) (node : NodeId) (driver : String) (requests : List Request)
    (ok : Bool) : (w.probe node driver requests ok).Inv := by
  have hp := h.probing hlt node requests
  have hprobes : (w.probing node requests).probes = w.probes + 1 := hp.keeps.probes
  have hbound : (w.probing node requests).bound = w.bound := hp.keeps.bound
  have hn : (w.probing node requests).res.nextOwner = (w.probing node requests).probes % 2 ^ 32 := by
    have hnext := h.next
    rw [hp.keeps.nextOwner, hprobes]
    show (w.res.nextOwner + 1) % 2 ^ 32 = _
    omega
  unfold World.probe
  rw [h.owner hlt]
  generalize w.probing node requests = w1 at hp hprobes hbound hn ⊢
  have holder : ∀ {b}, b ∈ w.bound → b.owner < w1.probes := fun hb => hprobes ▸ Nat.lt_succ_of_lt (h.older hb)
  cases ok with
  | true =>
    rw [if_pos rfl]
    refine ⟨hn, ?_, ?_, ?_, fun {b} hb => ?_, ?_⟩
    · exact hprobes ▸ hbound ▸ h.mmio.bind hp.mmio node driver
    · exact hprobes ▸ hbound ▸ h.irq.bind hp.irq node driver
    · exact hprobes ▸ hbound ▸ h.port.bind hp.port node driver
    · rcases mem_append.mp hb with hb | hb
      · exact holder (hbound ▸ hb)
      · rw [mem_singleton.mp hb]
        exact hprobes ▸ Nat.lt_succ_self _
    · show ((w1.bound ++ [_]).map Bound.owner).Nodup
      rw [map_append, hbound]
      refine nodup_append.mpr ⟨h.distinct, by simp, fun x hx y hy => ?_⟩
      obtain ⟨b, hb, rfl⟩ := mem_map.mp hx
      rw [mem_singleton.mp hy]
      exact (h.older hb).ne
  | false =>
    rw [if_neg (by decide)]
    refine ⟨hn, ?_, ?_, ?_, fun hb => holder (hbound ▸ hb), hbound ▸ h.distinct⟩
    · exact hprobes ▸ hbound ▸ h.mmio.fail hp.mmio
    · exact hprobes ▸ hbound ▸ h.irq.fail hp.irq
    · rw [portBook_releaseOwner w1 w.probes w1.bound]
      exact hprobes ▸ hbound ▸ h.port.fail hp.port

/-- The claims of the devices that stay bound are those of other owners. -/
theorem Inv.other_owner (h : w.Inv) {x : Nat} (hn : w.bound[n]? = some b)
    (hx : ∃ c ∈ w.bound, c.owner = x) : (∃ c ∈ w.bound.eraseIdx n, c.owner = x) ↔ x ≠ b.owner := by
  constructor
  · rintro ⟨c, hc, rfl⟩ he
    obtain ⟨m, hne, hm⟩ := mem_eraseIdx_iff_getElem?.mp hc
    have hlt : m < (w.bound.map Bound.owner).length := by
      rw [length_map]
      exact (List.getElem?_eq_some_iff.mp hm).1
    refine hne ((getElem?_inj hlt h.distinct).mp ?_)
    rw [getElem?_map, getElem?_map, hm, hn, Option.map_some, Option.map_some, he]
  · intro hne
    obtain ⟨c, hc, rfl⟩ := hx
    obtain ⟨m, hm⟩ := mem_iff_getElem?.mp hc
    refine ⟨c, mem_eraseIdx_iff_getElem?.mpr ⟨m, ?_, hm⟩, rfl⟩
    rintro rfl
    rw [hn] at hm
    exact hne (congrArg Bound.owner (Option.some.inj hm)).symm

/-- **Removing a device** leaves the claims of the devices that stay bound. -/
theorem Inv.holds_without (h : w.Inv) (hn : w.bound[n]? = some b)
    {owner : α → Owner} {apart : α → α → Prop} {book : Book α} (hk : Kept owner apart w.bound w.probes book)
    (i : Nat) (a : α) : Holds (without owner b.owner book).table i a ↔
      Holds book.table i a ∧ ∃ c ∈ w.bound.eraseIdx n, c.owner = owner a := by
  refine holds_evict.trans (and_congr_right fun ha => ?_)
  rw [decide_eq_false_iff_not, h.other_owner hn (hk.owned ha)]

theorem Inv.remove (h : w.Inv) (n : Nat) : (w.remove n).Inv := by
  unfold World.remove
  split
  · exact h
  rename_i b hn
  have hk {α : Type} {owner : α → Owner} {apart : α → α → Prop} {book : Book α}
      (hk : Kept owner apart w.bound w.probes book) :
      Kept owner apart (w.bound.eraseIdx n) w.probes (without owner b.owner book) :=
    ⟨hk.ok.shrink fun {i a} ha => ((h.holds_without hn hk i a).mp ha).1,
      fun {i a} ha => ((h.holds_without hn hk i a).mp ha).2⟩
  refine ⟨h.next, hk h.mmio, hk h.irq, ?_, fun hc => h.older (mem_of_mem_eraseIdx hc),
    h.distinct.sublist ((eraseIdx_sublist _ _).map _)⟩
  rw [portBook_releaseOwner w b.owner (w.bound.eraseIdx n)]
  exact hk h.port

/-! ## Releasing -/

/-- Claims may be given back. -/
theorem Inv.shrink {mmio : Table MmioClaim} {irqs : Table IrqClaim} {ports : Option (Table PortClaim)} (h : w.Inv)
    (hm : ∀ {i a}, Holds mmio i a → Holds w.res.mmio i a) (hi : ∀ {i a}, Holds irqs i a → Holds w.res.irqs i a)
    (hp : ∀ {i a}, Holds (ports.getD []) i a → Holds w.portBook.table i a) :
    ({ w with res := { w.res with mmio, irqs, ports } } : World).Inv :=
  ⟨h.next, h.mmio.shrink hm, h.irq.shrink hi, h.port.shrink hp, h.older, h.distinct⟩

theorem Inv.releaseMmio (h : w.Inv) (n : Nat) : (w.releaseMmio n).Inv := by
  unfold World.releaseMmio
  split
  · exact h
  · exact h.shrink (fun ha => (holds_vacate.mp ha).1) id id

theorem Inv.releaseIrq (h : w.Inv) (n : Nat) : (w.releaseIrq n).Inv := by
  unfold World.releaseIrq
  split
  · exact h
  · exact h.shrink id (fun ha => (holds_vacate.mp ha).1) id

theorem Inv.releasePorts (h : w.Inv) (n : Nat) : (w.releasePorts n).Inv := by
  unfold World.releasePorts
  split
  · exact h
  · refine h.shrink id id fun {i a} ha => ?_
    rw [table_map _ (vacate · _ _) rfl] at ha
    exact (holds_vacate.mp ha).1

/-! ## Runs -/

/-- Probes, removals and releases of any handle ever returned, in any order. -/
inductive Reaches (start : World) : World → Prop where
  | start : Reaches start start
  | probe {w : World} (before : Reaches start w) (node : NodeId) (driver : String) (requests : List Request)
      (ok : Bool) : Reaches start (w.probe node driver requests ok)
  | remove {w : World} (before : Reaches start w) (n : Nat) : Reaches start (w.remove n)
  | releaseMmio {w : World} (before : Reaches start w) (n : Nat) : Reaches start (w.releaseMmio n)
  | releaseIrq {w : World} (before : Reaches start w) (n : Nat) : Reaches start (w.releaseIrq n)
  | releasePorts {w : World} (before : Reaches start w) (n : Nat) : Reaches start (w.releasePorts n)

theorem probes_probing (w : World) (node : NodeId) (requests : List Request) :
    (w.probing node requests).probes = w.probes + 1 := by
  unfold probing
  generalize hw : ({ w with res := w.res.begin.2, probes := w.probes + 1 } : World) = w1
  have hp : w1.probes = w.probes + 1 := by rw [← hw]
  rw [← hp]
  generalize w.res.begin.1 = o
  clear hw hp
  induction requests generalizing w1 with
  | nil => rfl
  | cons req requests ih => exact (ih _).trans (claimed_claim o node w1 req).keeps.probes

theorem Reaches.inv {start : World} (hrun : Reaches start w) (h : start.Inv) (hlt : w.probes < 2 ^ 32) : w.Inv := by
  induction hrun with
  | start => exact h
  | @probe w before node driver requests ok ih =>
    have hp : (w.probe node driver requests ok).probes = w.probes + 1 := by
      rw [← probes_probing w node requests]
      cases ok <;> rfl
    have hlt' : w.probes < 2 ^ 32 := by omega
    exact (ih hlt').probe hlt' node driver requests ok
  | remove before n ih =>
    refine (ih ?_).remove n
    unfold World.remove at hlt
    split at hlt <;> exact hlt
  | releaseMmio before n ih =>
    refine (ih ?_).releaseMmio n
    unfold World.releaseMmio at hlt
    split at hlt <;> exact hlt
  | releaseIrq before n ih =>
    refine (ih ?_).releaseIrq n
    unfold World.releaseIrq at hlt
    split at hlt <;> exact hlt
  | releasePorts before n ih =>
    refine (ih ?_).releasePorts n
    unfold World.releasePorts at hlt
    split at hlt <;> exact hlt

/-- No two claims of a kind overlap. -/
structure Apart (w : World) : Prop where
  windows : ∀ {i j a b}, i ≠ j → Holds w.res.mmio i a → Holds w.res.mmio j b → WindowsApart a b
  lines : ∀ {i j a b}, i ≠ j → Holds w.res.irqs i a → Holds w.res.irqs j b → a.spec ≠ b.spec
  ports : ∀ {t i j a b}, w.res.ports = some t → i ≠ j → Holds t i a → Holds t j b → PortsApart a b

theorem apart_of_ok (hm : w.mmioBook.Ok MmioClaim.owner WindowsApart n)
    (hi : w.irqBook.Ok IrqClaim.owner LinesApart n) (hp : w.portBook.Ok owner PortsApart n) : w.Apart where
  windows := hm.apart
  lines := hi.apart
  ports := by
    intro t i j a b ht hne ha hb
    have htable : w.portBook.table = t := congrArg (Option.getD · []) ht
    rw [← htable] at ha hb
    exact hp.apart hne ha hb

/-- What holds of the ledger in every state that is reached. -/
structure Sound (w : World) : Prop where
  apart : w.Apart
  /-- At every point of a probe, too. -/
  probing : w.probes + 1 < 2 ^ 32 → ∀ node requests, (w.probing node requests).Apart
  /-- A failed probe leaves the ledger as it was. -/
  failed : w.probes + 1 < 2 ^ 32 → ∀ node driver requests,
    (w.probe node driver requests false).res.mmio = w.res.mmio ∧
      (w.probe node driver requests false).res.irqs = w.res.irqs ∧
      (w.probe node driver requests false).res.ports = w.res.ports
  /-- Every claim is a bound device's, and removing a device leaves the others'. -/
  removed : ∀ {n b}, w.bound[n]? = some b → (w.remove n).bound = w.bound.eraseIdx n ∧
    (∀ i a, Holds (w.remove n).res.mmio i a ↔
      Holds w.res.mmio i a ∧ ∃ c ∈ w.bound.eraseIdx n, c.owner = a.owner) ∧
    (∀ i a, Holds (w.remove n).res.irqs i a ↔
      Holds w.res.irqs i a ∧ ∃ c ∈ w.bound.eraseIdx n, c.owner = a.owner) ∧
    (∀ i a, Holds ((w.remove n).res.ports.getD []) i a ↔
      Holds (w.res.ports.getD []) i a ∧ ∃ c ∈ w.bound.eraseIdx n, c.owner = a.owner)
  /-- A handle gives back the claim it was returned for, or nothing. -/
  releasedMmio : ∀ {n h}, w.mmio[n]? = some h → (w.releaseMmio n).res = w.res ∨
    (w.mmioFilled h.slot = n ∧ (w.releaseMmio n).res = { w.res with mmio := w.res.mmio.set h.slot none })
  releasedIrq : ∀ {n h}, w.irqs[n]? = some h → (w.releaseIrq n).res = w.res ∨
    (w.irqFilled h.slot = n ∧ (w.releaseIrq n).res = { w.res with irqs := w.res.irqs.set h.slot none })
  releasedPorts : ∀ {n h}, w.ports[n]? = some h → (w.releasePorts n).res = w.res ∨
    (w.portFilled h.slot = n ∧
      (w.releasePorts n).res = { w.res with ports := w.res.ports.map fun t => t.set h.slot none })

/-- **The ledger** keeps its promises over any run of fewer than 2^32 probes. -/
theorem ledger_sound {mmio irqs : Nat} {ports : Option Nat} (hrun : Reaches (init mmio irqs ports) w)
    (hlt : w.probes < 2 ^ 32) : w.Sound := by
  have h := hrun.inv (inv_init mmio irqs ports) hlt
  constructor
  case apart => exact apart_of_ok h.mmio.ok h.irq.ok h.port.ok
  case probing =>
    intro _ node requests
    have hp := h.probing hlt node requests
    exact apart_of_ok hp.mmio.1 hp.irq.1 hp.port.1
  case failed =>
    intro _ node driver requests
    unfold probe
    rw [h.owner hlt]
    exact (h.probing hlt node requests).releaseOwner
  case removed =>
    intro n b hn
    have hport := congrArg Book.table (portBook_releaseOwner w b.owner (w.bound.eraseIdx n))
    unfold remove
    rw [hn]
    refine ⟨rfl, h.holds_without hn h.mmio, h.holds_without hn h.irq, fun i a => ?_⟩
    exact (iff_of_eq (congrArg (Holds · i a) hport)).trans (h.holds_without hn h.port i a)
  case releasedMmio =>
    intro n hd hn
    unfold releaseMmio
    rw [hn]
    exact (h.mmio.ok.vacate (by simp [mmioBook, hn]) (p := fun c => c.owner = hd.owner ∧ c.phys = hd.phys)
      (fun a ha => (decide_eq_true_iff.mp ha).1)).imp (congrArg fun t => { w.res with mmio := t })
      (And.imp_right (congrArg fun t => { w.res with mmio := t }))
  case releasedIrq =>
    intro n hd hn
    unfold releaseIrq
    rw [hn]
    exact (h.irq.ok.vacate (by simp [irqBook, hn]) (p := fun c => c.owner = hd.owner ∧ c.spec = hd.spec)
      (fun a ha => (decide_eq_true_iff.mp ha).1)).imp (congrArg fun t => { w.res with irqs := t })
      (And.imp_right (congrArg fun t => { w.res with irqs := t }))
  case releasedPorts =>
    intro n hd hn
    unfold releasePorts Resources.releasePorts
    rw [hn]
    have hv := h.port.ok.vacate (n := n) (s := hd.slot) (by simp [portBook, hn])
      (p := fun c => c.owner = hd.owner ∧ c.base = hd.base) (fun a ha => (decide_eq_true_iff.mp ha).1)
    unfold portBook at hv
    cases ht : w.res.ports with
    | none =>
      refine .inl ?_
      show { w.res with ports := none } = w.res
      rw [← ht]
    | some t =>
      rw [ht] at hv
      have hw : w.res = { w.res with ports := some t } := by rw [← ht]
      exact (hv.imp (congrArg fun t => { w.res with ports := some t })
        (And.imp_right (congrArg fun t => { w.res with ports := some t }))).imp_left (·.trans hw.symm)

/-- After one device was bound and its window's handle given back. -/
theorem ledger_sound_uart :
    (((init 2 2 (some 2)).probe 1 "uart" [.mmio 0x9000000 0x1000 "PL011 UART"] true).releaseMmio 0).Sound :=
  ledger_sound (.releaseMmio (.probe .start ..) 0) (by decide)

end World

end Kintane.Device
