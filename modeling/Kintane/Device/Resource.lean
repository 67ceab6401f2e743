import Kintane.Lib.Slots
import Kintane.Lib.Word

/-!
# The ledger of device resources

Windows of device memory, interrupts and ranges of ports are granted to drivers while they probe, each by
a claim that is refused where it overlaps one already granted. A claim carries the probe that made it, its
owner, and is announced to the driver by a handle. A handle gives its claim back; a probe that fails gives
back all it claimed, and so does removing a device.

Drivers find what to claim in the device tree. The tree is not part of this model: a driver claims
whatever windows, specifiers and ports it likes.
-/

namespace Kintane.Device

open Slots

abbrev NodeId := Nat

/-- `Owner(u32)`: one probe. -/
abbrev Owner := Nat

/-- An interrupt as its controller describes it. -/
structure Specifier where
  controller : NodeId
  cells : Vector UInt32 4
  len : UInt8
  deriving DecidableEq

/-! ## Handles -/

structure Mmio where
  phys : UInt64
  len : UInt64
  owner : Owner
  slot : Nat
  deriving DecidableEq

structure IrqLine where
  spec : Specifier
  owner : Owner
  slot : Nat
  deriving DecidableEq

structure PortRange where
  base : UInt16
  len : UInt16
  owner : Owner
  slot : Nat
  deriving DecidableEq

/-! ## Claims -/

structure MmioClaim where
  phys : UInt64
  len : UInt64
  node : NodeId
  what : String
  owner : Owner
  deriving DecidableEq

structure IrqClaim where
  spec : Specifier
  node : NodeId
  owner : Owner
  deriving DecidableEq

structure PortClaim where
  base : UInt16
  len : UInt16
  node : NodeId
  what : String
  owner : Owner
  deriving DecidableEq

inductive ClaimError where
  | overlaps (holder : NodeId) (phys len : UInt64)
  | irqTaken (holder : NodeId)
  | noRoom
  | empty
  deriving DecidableEq

/-! ## The ledger -/

structure Resources where
  mmio : Table MmioClaim
  irqs : Table IrqClaim
  /-- Nothing on a machine without ports. -/
  ports : Option (Table PortClaim)
  nextOwner : Nat

namespace Resources

/-- `Resources::new` and `with_ports`, over tables of the given sizes. -/
def new (mmio irqs : Nat) (ports : Option Nat) : Resources where
  mmio := List.replicate mmio none
  irqs := List.replicate irqs none
  ports := ports.map fun n => List.replicate n none
  nextOwner := 0

def lastOf (max base len : Nat) : Nat := satAdd max base (len - 1)

def meets (max base last heldBase heldLen : Nat) : Bool :=
  base ≤ lastOf max heldBase heldLen ∧ heldBase ≤ last

/-- A fresh owner. Wraps after 2^32 probes. -/
def begin (r : Resources) : Owner × Resources :=
  (r.nextOwner, { r with nextOwner := (r.nextOwner + 1) % 2 ^ 32 })

def claimMmio (r : Resources) (owner : Owner) (node : NodeId) (phys len : UInt64) (what : String) :
    Except ClaimError (Mmio × Resources) :=
  if len = 0 then .error .empty
  else
    let last := satAdd u64Max phys.toNat (len.toNat - 1)
    match (granted r.mmio).find? fun h => meets u64Max phys.toNat last h.phys.toNat h.len.toNat with
    | some held => .error (.overlaps held.node held.phys held.len)
    | none =>
      match position r.mmio with
      | none => .error .noRoom
      | some slot =>
        .ok ({ phys, len, owner, slot }, { r with mmio := r.mmio.set slot (some { phys, len, node, what, owner }) })

def claimIrq (r : Resources) (owner : Owner) (node : NodeId) (spec : Specifier) :
    Except ClaimError (IrqLine × Resources) :=
  match (granted r.irqs).find? fun h => h.spec = spec with
  | some held => .error (.irqTaken held.node)
  | none =>
    match position r.irqs with
    | none => .error .noRoom
    | some slot => .ok ({ spec, owner, slot }, { r with irqs := r.irqs.set slot (some { spec, node, owner }) })

def portClaims (r : Resources) : List PortClaim :=
  match r.ports with
  | some ports => granted ports
  | none => []

def u16Max : Nat := 2 ^ 16 - 1

def claimPorts (r : Resources) (owner : Owner) (node : NodeId) (base len : UInt16) (what : String) :
    Except ClaimError (PortRange × Resources) :=
  if len = 0 then .error .empty
  else
    match checkedAdd u16Max base.toNat (len.toNat - 1) with
    | none => .error .empty
    | some last =>
      match r.portClaims.find? fun h => meets u16Max base.toNat last h.base.toNat h.len.toNat with
      | some held => .error (.overlaps held.node held.base.toUInt64 held.len.toUInt64)
      | none =>
        match r.ports with
        | none => .error .noRoom
        | some ports =>
          match position ports with
          | none => .error .noRoom
          | some slot =>
            .ok ({ base, len, owner, slot },
              { r with ports := some (ports.set slot (some { base, len, node, what, owner })) })

def releasePorts (r : Resources) (range : PortRange) : Resources :=
  { r with ports := r.ports.map fun ports =>
      vacate ports range.slot fun c => c.owner = range.owner ∧ c.base = range.base }

def releaseMmio (r : Resources) (mmio : Mmio) : Resources :=
  { r with mmio := vacate r.mmio mmio.slot fun c => c.owner = mmio.owner ∧ c.phys = mmio.phys }

def releaseIrq (r : Resources) (line : IrqLine) : Resources :=
  { r with irqs := vacate r.irqs line.slot fun c => c.owner = line.owner ∧ c.spec = line.spec }

def releaseOwner (r : Resources) (owner : Owner) : Resources where
  mmio := evict r.mmio fun c => c.owner = owner
  irqs := evict r.irqs fun c => c.owner = owner
  ports := r.ports.map fun ports => evict ports fun c => c.owner = owner
  nextOwner := r.nextOwner

end Resources

/-! ## Probing and removing -/

structure Bound where
  node : NodeId
  owner : Owner
  driver : String
  deriving DecidableEq

inductive Request where
  | mmio (phys len : UInt64) (what : String)
  | irq (spec : Specifier)
  | ports (base len : UInt16) (what : String)

/-- The ledger, every handle it returned, and the devices that are bound. -/
structure World where
  res : Resources
  mmio : List Mmio
  irqs : List IrqLine
  ports : List PortRange
  /-- Of each slot, the number of the handle of the latest claim put there. -/
  mmioFilled : Nat → Nat
  irqFilled : Nat → Nat
  portFilled : Nat → Nat
  bound : List Bound
  probes : Nat

namespace World

def init (mmio irqs : Nat) (ports : Option Nat) : World where
  res := .new mmio irqs ports
  mmio := []
  irqs := []
  ports := []
  mmioFilled _ := 0
  irqFilled _ := 0
  portFilled _ := 0
  bound := []
  probes := 0

/-- One claim of a probe. The driver may go on after an error. -/
def claim (owner : Owner) (node : NodeId) (w : World) : Request → World
  | .mmio phys len what =>
    match w.res.claimMmio owner node phys len what with
    | .error _ => w
    | .ok (h, res) =>
      { w with res, mmio := w.mmio ++ [h],
               mmioFilled := fun i => if i = h.slot then w.mmio.length else w.mmioFilled i }
  | .irq spec =>
    match w.res.claimIrq owner node spec with
    | .error _ => w
    | .ok (h, res) =>
      { w with res, irqs := w.irqs ++ [h],
               irqFilled := fun i => if i = h.slot then w.irqs.length else w.irqFilled i }
  | .ports base len what =>
    match w.res.claimPorts owner node base len what with
    | .error _ => w
    | .ok (h, res) =>
      { w with res, ports := w.ports ++ [h],
               portFilled := fun i => if i = h.slot then w.ports.length else w.portFilled i }

/-- While a driver probes, after it has asked for what it asked for so far. -/
def probing (w : World) (node : NodeId) (requests : List Request) : World :=
  requests.foldl (claim w.res.begin.1 node) { w with res := w.res.begin.2, probes := w.probes + 1 }

def probe (w : World) (node : NodeId) (driver : String) (requests : List Request) (ok : Bool) : World :=
  let owner := w.res.begin.1
  let w := w.probing node requests
  if ok then { w with bound := w.bound ++ [{ node, owner, driver }] }
  else { w with res := w.res.releaseOwner owner }

def remove (w : World) (n : Nat) : World :=
  match w.bound[n]? with
  | none => w
  | some b => { w with res := w.res.releaseOwner b.owner, bound := w.bound.eraseIdx n }

def releaseMmio (w : World) (n : Nat) : World :=
  match w.mmio[n]? with
  | none => w
  | some h => { w with res := w.res.releaseMmio h }

def releaseIrq (w : World) (n : Nat) : World :=
  match w.irqs[n]? with
  | none => w
  | some h => { w with res := w.res.releaseIrq h }

def releasePorts (w : World) (n : Nat) : World :=
  match w.ports[n]? with
  | none => w
  | some h => { w with res := w.res.releasePorts h }

end World

end Kintane.Device
