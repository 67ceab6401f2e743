import Kintane.Ipc.Accounts

/-!
# Channels and tables together

Any number of handle tables and of slots for channels, of any shapes, worked on by any number of
threads. A slot is used again once both endpoints of its channel have closed, its queues are
empty and no operation is at work on it.

A step is what one operation does under a channel's lock, together with what it does to the
table it has borrowed. `close` is two steps, because the entry is in the caller's hands between
leaving the table and being released, and `release` goes on with one step for each message of
an endpoint that it closed.

Entries in callers' hands are those a channel was created with, those closed or brought from
elsewhere and those a sink received. Entries of other objects, and of channels elsewhere, come and
go freely.
-/

namespace Kintane

/-- The system: its tables, its channels, and the entries in neither. -/
structure IpcWorld where
  tables : List HandleTable
  set : ChannelSet
  hands : List Entry
  /-- The endpoints that `release` is taking apart. -/
  draining : List (Nat × Side)
  /-- The identities that are not free for a new channel. -/
  ids : List Nat

/-- One step of one caller, in any interleaving. -/
inductive IpcOp where
  | newTable (n : Nat)
  /-- `Channel::new`, with the next two identities. -/
  | newChannel (slot a b depth maxBytes maxHandles : Nat) (rights : Rights)
  /-- An entry that names no endpoint here comes into a caller's hands. -/
  | bring (entry : Entry)
  /-- An entry that names no endpoint here leaves them. -/
  | discard (position : Nat)
  /-- `HandleTable::insert` of an entry in hand. -/
  | install (table position : Nat)
  | send (channel table : Nat) (endpoint : Handle) (bytes : List UInt8) (handles : List Transfer)
  | receive (channel table : Nat) (endpoint : Handle) (bytes : List UInt8) (handles : List Handle)
  | duplicate (channel table : Nat) (endpoint : Handle) (mask : Rights)
  /-- `Channel::close` up to the release of the entry. -/
  | close (channel table : Nat) (endpoint : Handle)
  /-- `Channel::release` of an entry in hand, up to the inbox. -/
  | release (channel position : Nat)
  /-- One message of an inbox that `release` is taking apart. -/
  | drain (position : Nat)

namespace IpcWorld

def init (cap : Nat) : IpcWorld := ⟨[], .new cap, [], [], []⟩

variable (w : IpcWorld)

/-- A step that is refused leaves the world as it is. -/
def step : IpcOp → IpcWorld
  | .newTable n => { w with tables := w.tables ++ [.new n] }
  | .newChannel slot a b depth maxBytes maxHandles rights =>
    if (w.set.channels[slot]?.map ChannelSet.vacant).getD false ∧
        (∀ p ∈ w.draining, p.1 ≠ slot) ∧ 0 < depth ∧ a ∉ w.ids ∧ b ∉ w.ids ∧ a ≠ b then
      let (channel, entries) := Channel.new a b depth maxBytes maxHandles rights
      { w with
        set := w.set.put slot channel
        hands := entries ++ w.hands
        ids := a :: b :: w.ids }
    else w
  | .bring entry =>
    if w.set.named entry = none then
      { w with hands := entry :: w.hands, ids := entry.object :: w.ids }
    else w
  | .discard position =>
    match w.hands[position]? with
    | none => w
    | some e =>
      if w.set.named e = none then { w with hands := w.hands.eraseIdx position } else w
  | .install i position =>
    match w.tables[i]?, w.hands[position]? with
    | some table, some e =>
      match table.insert e.object e.kind e.rights with
      | (table', .ok _) =>
        { w with tables := w.tables.set i table', hands := w.hands.eraseIdx position }
      | (table', .error _) => { w with tables := w.tables.set i table' }
    | _, _ => w
  | .send j i endpoint bytes handles =>
    match w.set.channel j, w.tables[i]? with
    | some channel, some table =>
      let (channel', table') := (channel.send table endpoint bytes handles).1
      { w with set := w.set.put j channel', tables := w.tables.set i table' }
    | _, _ => w
  | .receive j i endpoint bytes handles =>
    match w.set.channel j, w.tables[i]? with
    | some channel, some table =>
      let (channel', table', _) := (channel.receive table endpoint bytes handles).1
      { w with set := w.set.put j channel', tables := w.tables.set i table' }
    | _, _ => w
  | .duplicate j i endpoint mask =>
    match w.set.channel j, w.tables[i]? with
    | some channel, some table =>
      let (channel', table') := (channel.duplicate table endpoint mask).1
      { w with set := w.set.put j channel', tables := w.tables.set i table' }
    | _, _ => w
  | .close j i endpoint =>
    match w.set.channel j, w.tables[i]? with
    | some channel, some table =>
      match channel.closeHandle table endpoint with
      | (table', .ok e) => { w with tables := w.tables.set i table', hands := e :: w.hands }
      | (table', .error _) => { w with tables := w.tables.set i table' }
    | _, _ => w
  | .release j position =>
    match w.set.channel j, w.hands[position]? with
    | some channel, some e =>
      match channel.releaseKeepingInbox e, channel.sideOfEntry e with
      | (channel', .ok closed), .ok side =>
        { w with
          set := w.set.put j channel'
          hands := w.hands.eraseIdx position
          draining := if closed then (j, side) :: w.draining else w.draining }
      | _, _ => w
    | _, _ => w
  | .drain position =>
    match w.draining[position]? with
    | none => w
    | some (j, side) =>
      match w.set.channel j with
      | none => w
      | some channel =>
        match channel.takeMessage side with
        | (channel', some entries) =>
          { w with
            set := w.set.put j channel'
            hands := entries.filterMap id ++ w.hands }
        | (channel', none) =>
          { w with
            set := w.set.put j channel'
            draining := w.draining.eraseIdx position }

def run (cap : Nat) (ops : List IpcOp) : IpcWorld := ops.foldl step (init cap)

/-! ## Where the entries are -/

def inTables : Multiset Key := Tally.total HandleTable.keys w.tables

def inQueues : Multiset Key := w.set.keys

def inHands : Multiset Key := ↑(w.hands.map Entry.key)

def all : Multiset Key := w.inTables + w.inQueues + w.inHands

/-- Some entries left one place for another, and a third is as it was. -/
def Moves (source target other source' target' other' : Multiset Key) : Prop :=
  ∃ moved, source = source' + moved ∧ target' = target + moved ∧ other' = other

/-- At most one entry was made, in a table. -/
def Makes (w w' : IpcWorld) : Prop :=
  w'.inHands = w.inHands ∧ w'.inQueues = w.inQueues ∧
    (w'.inTables = w.inTables ∨ ∃ k, w'.inTables = w.inTables + {k})

/-- At most the entry in hand at a position was given back. -/
def GivesBack (w w' : IpcWorld) (position : Nat) : Prop :=
  w'.inTables = w.inTables ∧ w'.inQueues = w.inQueues ∧
    (w'.inHands = w.inHands ∨
      ∃ e, w.hands[position]? = some e ∧ w.inHands = w'.inHands + {e.key})

/-- What callers rely on between two steps, and what each step does with entries. -/
structure Conserves : Prop where
  /-- An endpoint's references are the entries that name it. -/
  refs : ∀ i c, w.set.channel i = some c → ∀ s, (c.ends s).refs = w.all.count (c.id s, .channel)
  isOpen : ∀ i c, w.set.channel i = some c → ∀ s,
    (c.ends s).isOpen = true ↔ w.all.count (c.id s, .channel) ≠ 0
  /-- A send moves entries out of a table into a queue. -/
  send : ∀ j i endpoint bytes handles,
    let w' := w.step (.send j i endpoint bytes handles)
    Moves w.inTables w.inQueues w.inHands w'.inTables w'.inQueues w'.inHands
  /-- A receive moves entries out of a queue into a table. -/
  receive : ∀ j i endpoint bytes handles,
    let w' := w.step (.receive j i endpoint bytes handles)
    Moves w.inQueues w.inTables w.inHands w'.inQueues w'.inTables w'.inHands
  /-- A close moves an entry out of a table into the caller's hands. -/
  close : ∀ j i endpoint,
    let w' := w.step (.close j i endpoint)
    Moves w.inTables w.inHands w.inQueues w'.inTables w'.inHands w'.inQueues
  /-- What is taken out of the inbox of an endpoint that closed is given to the sink. -/
  drain : ∀ position,
    let w' := w.step (.drain position)
    Moves w.inQueues w.inHands w.inTables w'.inQueues w'.inHands w'.inTables
  /-- An entry in hand is installed. -/
  install : ∀ i position,
    let w' := w.step (.install i position)
    Moves w.inHands w.inTables w.inQueues w'.inHands w'.inTables w'.inQueues
  release : ∀ j position, GivesBack w (w.step (.release j position)) position
  duplicate : ∀ j i endpoint mask, Makes w (w.step (.duplicate j i endpoint mask))

end IpcWorld

end Kintane
