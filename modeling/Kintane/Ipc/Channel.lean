import Mathlib.Logic.Function.Basic
import Kintane.Ipc.Inbox

/-!
# Channels

Two endpoints, two bounded inboxes, and the rules for moving handles between handle tables
through them. An operation is given the table it works on and returns it; the part of it that
holds the channel's lock is one step, and so is the rest, which only looks at the table that
the caller has borrowed exclusively.
-/

namespace Kintane

inductive Side where
  | a
  | b
  deriving DecidableEq

def Side.peer : Side → Side
  | .a => .b
  | .b => .a

/-- A handle to move with a message, and the rights it may keep on arrival. -/
structure Transfer where
  handle : Handle
  mask : Rights

/-- What a successful receive delivered. -/
structure Received where
  bytes : Nat
  handles : Nat
  deriving DecidableEq

inductive ChannelError where
  | endpoint (e : HandleError)
  | notThisChannel
  | closed
  | tooLarge (bytes handles : Nat)
  | transfer (index : Nat) (error : HandleError)
  | duplicateTransfer (index : Nat)
  | wouldCycle (index : Nat)
  | full
  | peerClosed
  | empty
  | bufferTooSmall (bytes handles : Nat)
  | noRoom (handles : Nat) (error : HandleError)
  | tooManyRefs
  | notHeld
  deriving DecidableEq

def transferError : TransferError → ChannelError
  | .handle index error => .transfer index error
  | .duplicate index => .duplicateTransfer index

structure End where
  refs : Nat
  /-- False once `refs` has reached zero. -/
  isOpen : Bool
  inbox : Inbox

structure Channel where
  a : Nat
  b : Nat
  /-- `BYTES` and `HANDLES`; `DEPTH` is the length of the inboxes. -/
  maxBytes : Nat
  maxHandles : Nat
  ends : Side → End

namespace Channel

def new (a b : Nat) (depth maxBytes maxHandles : Nat) (rights : Rights) : Channel × List Entry :=
  (⟨a, b, maxBytes, maxHandles, fun _ => ⟨1, true, Inbox.new depth maxBytes maxHandles⟩⟩,
    [⟨a, .channel, rights⟩, ⟨b, .channel, rights⟩])

variable (c : Channel)

def id : Side → Nat
  | .a => c.a
  | .b => c.b

def sideOf (object : Nat) : Option Side :=
  if object = c.a then some .a else if object = c.b then some .b else none

def sideOfEntry (entry : Entry) : Except ChannelError Side :=
  if entry.kind ≠ .channel then .error (.endpoint (.wrongType .channel entry.kind))
  else match c.sideOf entry.object with
    | none => .error .notThisChannel
    | some side => .ok side

/-- Resolve an endpoint handle: live, a channel, carrying `required`, and ours. -/
def endpoint (table : HandleTable) (h : Handle) (required : Rights) : Except ChannelError Side :=
  match table.getChecked h .channel required with
  | .error e => .error (.endpoint e)
  | .ok entry =>
    match c.sideOf entry.object with
    | none => .error .notThisChannel
    | some side => .ok side

def setEnd (side : Side) (e : End) : Channel :=
  { c with ends := Function.update c.ends side e }

/-! ## Sending -/

/-- No handle of a list, from position `index` on, names an endpoint of this channel. -/
def checkCycles (table : HandleTable) : Nat → List Transfer → Except ChannelError Unit
  | _, [] => .ok ()
  | index, t :: rest =>
    match table.get t.handle with
    | .error e => .error (.transfer index e)
    | .ok entry =>
      if entry.kind = .channel ∧ (c.sideOf entry.object).isSome then .error (.wouldCycle index)
      else checkCycles table (index + 1) rest

/-- What the sink of a transfer stages: the rights of each entry are narrowed by the mask at
its position. -/
def narrowed (handles : List Transfer) (sunk : List (Nat × Entry)) : List Entry :=
  sunk.map fun p =>
    { p.2 with rights := p.2.rights.narrow ((handles[p.1]?.map (·.mask)).getD .empty) }

/-- The part of `send` under the lock. -/
def sendLocked (table : HandleTable) (side : Side) (bytes : List UInt8) (handles : List Transfer) :
    (Channel × HandleTable) × Except ChannelError Unit :=
  let peer := c.ends side.peer
  if (c.ends side).isOpen = false then ((c, table), .error .closed)
  else if peer.isOpen = false then ((c, table), .error .peerClosed)
  else match peer.inbox.vacant with
    | none => ((c, table), .error .full)
    | some slot =>
      match table.transferOutMany (handles.map (·.handle)) with
      | (table', .error e) => ((c, table'), .error (transferError e))
      | (table', .ok sunk) =>
        let inbox := (peer.inbox.stage slot (narrowed handles sunk)).commit slot bytes
        ((c.setEnd side.peer { peer with inbox }, table'), .ok ())

/-- Send a message from the endpoint `endpoint` names, moving `handles` out of `table` and
into the message. -/
def send (table : HandleTable) (endpoint : Handle) (bytes : List UInt8) (handles : List Transfer) :
    (Channel × HandleTable) × Except ChannelError Unit :=
  match c.endpoint table endpoint .write with
  | .error e => ((c, table), .error e)
  | .ok side =>
    if c.maxBytes < bytes.length ∨ c.maxHandles < handles.length then
      ((c, table), .error (.tooLarge bytes.length handles.length))
    else match table.checkTransferOutMany (handles.map (·.handle)) with
      | .error e => ((c, table), .error (transferError e))
      | .ok () =>
        match c.checkCycles table 0 handles with
        | .error e => ((c, table), .error e)
        | .ok () => c.sendLocked table side bytes handles

/-! ## Receiving -/

/-- Install entries one by one, as far as there is room for their handles; with the handles
and the error of an insert that failed. -/
def installAll : HandleTable → Nat → List Entry → HandleTable × List Handle × Option HandleError
  | table, 0, _ => (table, [], none)
  | table, _, [] => (table, [], none)
  | table, room + 1, e :: es =>
    match table.insert e.object e.kind e.rights with
    | (table', .error error) => (table', [], some error)
    | (table', .ok h) =>
      let (table'', hs, failure) := installAll table' room es
      (table'', h :: hs, failure)

def rollback (table : HandleTable) (installed : List Handle) : HandleTable :=
  installed.foldl (fun t h => (t.close h).1) table

/-- The part of `receive` under the lock: the caller's buffers come back with the rest. -/
def receiveLocked (table : HandleTable) (side : Side) (bytes : List UInt8) (handles : List Handle) :
    (Channel × HandleTable × List UInt8 × List Handle) × Except ChannelError Received :=
  let mine := c.ends side
  if mine.isOpen = false then ((c, table, bytes, handles), .error .closed)
  else match mine.inbox.front with
    | none =>
      ((c, table, bytes, handles),
        .error (if (c.ends side.peer).isOpen then .empty else .peerClosed))
    | some msg =>
      let got : Received := ⟨msg.data.length, msg.handleCount⟩
      if bytes.length < got.bytes ∨ handles.length < got.handles then
        ((c, table, bytes, handles), .error (.bufferTooSmall got.bytes got.handles))
      else if table.freeSlots < got.handles then
        ((c, table, bytes, handles), .error (.noRoom got.handles .tableFull))
      else match installAll table handles.length msg.entries with
        | (table', installed, some error) =>
          ((c, rollback table' installed, bytes,
              installed.map (fun _ => ⟨0⟩) ++ handles.drop installed.length),
            .error (.noRoom got.handles error))
        | (table', installed, none) =>
          ((c.setEnd side { mine with inbox := mine.inbox.discardFront }, table',
              msg.data ++ bytes.drop got.bytes, installed ++ handles.drop installed.length),
            .ok got)

/-- Receive the front message on the endpoint `endpoint` names, installing its handles in
`table`. -/
def receive (table : HandleTable) (endpoint : Handle) (bytes : List UInt8) (handles : List Handle) :
    (Channel × HandleTable × List UInt8 × List Handle) × Except ChannelError Received :=
  match c.endpoint table endpoint .read with
  | .error e => ((c, table, bytes, handles), .error e)
  | .ok side => c.receiveLocked table side bytes handles

/-! ## References -/

def duplicate (table : HandleTable) (endpoint : Handle) (mask : Rights) :
    (Channel × HandleTable) × Except ChannelError Handle :=
  match c.endpoint table endpoint .duplicate with
  | .error e => ((c, table), .error e)
  | .ok side =>
    let mine := c.ends side
    if mine.isOpen = false then ((c, table), .error .closed)
    else match checkedAdd u32Max mine.refs 1 with
      | none => ((c, table), .error .tooManyRefs)
      | some refs =>
        match table.duplicate endpoint mask with
        | (table', .error e) => ((c, table'), .error (.endpoint e))
        | (table', .ok dup) => ((c.setEnd side { mine with refs }, table'), .ok dup)

/-- The first part of `close`: the endpoint handle leaves `table`, and its entry is the
reference that `release` then gives back. -/
def closeHandle (table : HandleTable) (endpoint : Handle) :
    HandleTable × Except ChannelError Entry :=
  match c.endpoint table endpoint .empty with
  | .error e => (table, .error e)
  | .ok _ =>
    match table.close endpoint with
    | (table', .error e) => (table', .error (.endpoint e))
    | (table', .ok entry) => (table', .ok entry)

/-- Give back one reference, leaving the inbox of an endpoint that closes as it is. Returns
whether the endpoint closed. -/
def releaseKeepingInbox (entry : Entry) : Channel × Except ChannelError Bool :=
  match c.sideOfEntry entry with
  | .error e => (c, .error e)
  | .ok side =>
    let mine := c.ends side
    match checkedSub mine.refs 1 with
    | none => (c, .error .notHeld)
    | some refs =>
      (c.setEnd side { mine with refs, isOpen := if refs = 0 then false else mine.isOpen },
        .ok (refs = 0))

/-- Remove the front message of an inbox, handing over every entry it carried. -/
def takeMessage (side : Side) : Channel × Option (List (Option Entry)) :=
  let mine := c.ends side
  match mine.inbox.takeFront with
  | (inbox, taken) => (c.setEnd side { mine with inbox }, taken)

def queued (side : Side) : List Entry := (c.ends side).inbox.messages.flatMap Message.entries

end Channel

end Kintane
